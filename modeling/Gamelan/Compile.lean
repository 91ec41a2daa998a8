import Gamelan.Manuscript.Yaml
import Gamelan.Midi.Render
import Gamelan.Arrangement

namespace Gamelan

/-- Reads a score and sets up its performance. Findings on its directives are passed over. -/
def prepare (text : String) (settings : Settings) : Except Error Performance := do
  settings.validate.mapError .settings
  let score ← (Score.parse text).mapError .score
  return (← score.arrange settings).performance

/-- The bytes of a score's file. -/
def compile (text : String) (settings : Settings) : Except Error Midi.Bytes := do
  (((← prepare text settings).render settings)).1

/-- The beats of a score as they are performed, for a position or for none. -/
def trace (text : String) (settings : Settings) (position? : Option Position) :
    Except Error (Array Played) := do
  ((← prepare text settings).walk position?).1

end Gamelan
