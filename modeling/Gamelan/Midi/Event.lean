namespace Gamelan.Midi

inductive Event where
  | trackName (name : String)
  /-- The duration of a beat in microseconds, which takes 24 bits. -/
  | tempo (microseconds : UInt32)
  | endOfTrack
  | programChange (channel program : UInt8)
  | noteOff (channel key velocity : UInt8)
  | noteOn (channel key velocity : UInt8)
  deriving DecidableEq, Repr

/-- An event at a tick. Of events at one tick those of lower order come first. -/
structure Timed where
  tick : UInt32
  order : Nat
  event : Event
  deriving DecidableEq, Repr

/-- An event with the ticks since the event before it, which take 28 bits. -/
structure Spaced where
  delta : UInt32
  event : Event
  deriving DecidableEq, Repr

abbrev Track := List Spaced

end Gamelan.Midi
