import Gamelan.Score
import Gamelan.Settings

namespace Gamelan.Midi

/-- Channel nine is kept for percussion. -/
def freeChannels : List UInt8 := [0, 1, 2, 3, 4, 5, 6, 7, 8, 10, 11, 12, 13, 14, 15]

/-- Gives each position the next channel. -/
def assignChannels : List UInt8 → List Position → Except MidiFault (List (Position × Instrument))
  | _, [] => .ok []
  | [], position :: _ => .error (.noChannel position)
  | channel :: channels, position :: rest => do
    let plan ← assignChannels channels rest
    return (position, { channel }) :: plan

/-- The instruments of the settings or, if there are none, the positions of the score in order. -/
def trackPlan (score : Score) (settings : Settings) : Except MidiFault (List (Position × Instrument)) :=
  if settings.instruments.isEmpty then assignChannels freeChannels score.positions
  else .ok settings.instruments.entries

end Gamelan.Midi
