namespace Gamelan

/-- The name of a part of the ensemble, such as `gangsa`. -/
abbrev Position := String

/-- Where and when a change of tempo or dynamics takes place. An empty list matches everything. -/
structure Extent where
  firstBeat : Nat := 1
  /-- How many beats the change takes; none if it is sudden. -/
  beatCount : Int32 := 0
  passes : List UInt32 := []
  iterations : List UInt32 := []
  deriving DecidableEq, Repr

/-- Beat numbers count from one within the gongan. -/
inductive Directive where
  /-- Names a beat. -/
  | label (name : String) (beat : Nat)
  /-- Goes on at a label after a beat, by default the last one, on some passes or on all. -/
  | goto (label : String) (fromBeat? : Option Nat) (passes : List UInt32) (cycle? : Option UInt32)
  /-- Plays the gongan several times. -/
  | loop (count : UInt32)
  /-- Plays the gongans of these labels one after the other. -/
  | sequence (labels : List String)
  /-- Moves the tempo to a number of beats per minute. -/
  | tempo (value : Int32) (extent : Extent)
  /-- Moves the dynamics to a mark such as `ff`, for some positions or for all. -/
  | dynamics (mark : String) (extent : Extent) (positions : List Position)
  deriving DecidableEq, Repr

end Gamelan
