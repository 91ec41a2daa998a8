import Gamelan.Midi.Tempo

namespace Gamelan.Midi

/-- A note with a key as it sounds: how, and at which ticks its onset and its end are. -/
structure Sound where
  key : UInt8
  loudness : Int
  onset : UInt32
  stop : UInt32
  deriving DecidableEq, Repr

/-- A note is never silent. -/
def Sound.velocity (x : Sound) : UInt8 := UInt8.ofNat (min (max x.loudness 1) 127).toNat

/-- Whether a number has room in 32 bits, one of them for its sign. -/
def isInt32 (n : Int) : Bool := -2147483648 ≤ n && n ≤ 2147483647

/-- A note begins at the tick of its onset, and ends at least one tick later. There is none after the last tick, and no
velocity for a loudness without room. -/
def noteEvents (channel : UInt8) (x : Sound) : Except Error (List Timed) :=
  if isInt32 x.loudness then
    match successor? x.onset with
    | none => .error .overflow
    | some later =>
      .ok [⟨x.onset, 2, .noteOn channel x.key x.velocity⟩, ⟨max x.stop later, 1, .noteOff channel x.key 0⟩]
  else .error .overflow

/-- What sounds on a beat that begins at a time: its notes one after the other, for a rule that turns times into
ticks. The loudness is that of the onset. -/
def beatSounds (tick : Float → UInt32) (dynamics : Span) (start duration : Float) (notes : List Note) : List Sound :=
  (sweep (fun offset (n : Note) =>
    let sounds := match n.key? with
      | none => []
      | some key => [{
          key := key &&& 0x7f
          loudness := interpolate dynamics (offset / duration)
          onset := tick (start + offset)
          stop := tick (start + offset + n.duration) }]
    (offset + n.duration, sounds)) 0 notes).2

/-- What a position plays on one beat of the performance. -/
structure PlayedMeasure where
  duration : Float
  dynamics : Span
  notes : List Note

/-- The time when the last of some measures ends, and what sounds in them. -/
def playMeasures (tick : Float → UInt32) (measures : List PlayedMeasure) : Float × List Sound :=
  sweep (fun start m =>
    (start + m.duration, beatSounds tick m.dynamics start m.duration m.notes)) 0 measures

/-- The track of a position: its name, its sound and its notes. -/
def partTrack (tick : Float → UInt32) (position : Position) (instrument : Instrument)
    (measures : List PlayedMeasure) : Except Error Track := do
  let channel := instrument.channel &&& 0x0f
  let (stop, sounds) := playMeasures tick measures
  let events ← sounds.mapM (noteEvents channel)
  return finishTrack (⟨0, 0, .trackName position⟩ ::
    ⟨0, 0, .programChange channel (instrument.program &&& 0x7f)⟩ :: events.flatten) (tick stop)

end Gamelan.Midi
