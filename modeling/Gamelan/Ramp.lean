import Gamelan.Error

namespace Gamelan

/-- The values of a quantity at the start and at the end of a beat. -/
structure Span where
  start : Int32
  stop : Int32
  deriving DecidableEq, Repr

namespace Ramp

/-- How far a running ramp has come. -/
structure Status where
  initial : Int32
  /-- How many beats it has taken. -/
  step : UInt32
  span : Span
  deriving DecidableEq, Repr

end Ramp

/-- A move of a quantity to a target over a number of beats. Each beat takes its share of what is left, so a ramp ends on
its target however the division rounds. -/
structure Ramp where
  quantity : Quantity
  target : Int32
  /-- How many beats the ramp takes; none if the change is sudden. -/
  length : UInt32
  positions : List Position := []
  passes : List UInt32 := []
  iterations : List UInt32 := []
  status? : Option Ramp.Status := none
  deriving DecidableEq, Repr

namespace Ramp

/-- A ramp that takes place everywhere. A negative length is refused, and so is a target that is out
of range. -/
def make (quantity : Quantity) (target length : Int32) : Except RampFault Ramp :=
  if length < 0 then .error (.negativeLength length)
  else if !quantity.accepts target then .error (.target quantity target)
  else .ok { quantity, target, length := length.toUInt32 }

/-- Whether the ramp takes place for a position, on a pass and in a repetition. An empty list matches
everything, but a position is needed where positions are listed. -/
def isFor (r : Ramp) (position? : Option Position) (pass iteration : UInt32) : Bool :=
  (r.positions.isEmpty || position?.any (r.positions.contains ·)) &&
    (r.passes.isEmpty || r.passes.contains pass) &&
    (r.iterations.isEmpty || r.iterations.contains iteration)

/-- Starts the ramp from a value. A sudden change is at its target at once. -/
def start (r : Ramp) (initial : Int32) : Ramp :=
  let value := if r.length = 0 then r.target else initial
  { r with status? := some ⟨initial, 0, ⟨value, value⟩⟩ }

def clear (r : Ramp) : Ramp := { r with status? := none }

def Status.isComplete (s : Status) (length : UInt32) : Bool :=
  length ≤ s.step && s.span.start == s.span.stop

def isComplete (r : Ramp) : Bool := r.status?.any (·.isComplete r.length)

/-- One beat on. A beat begins with the value at which the one before it ended, and takes its share of
the way that is left; the division truncates, so no beat goes too far. -/
def Status.next (s : Status) (target : Int32) (length : UInt32) : Status :=
  let step := s.step + 1
  if length < step then { s with step, span := ⟨target, target⟩ }
  else
    let start := s.span.stop
    let left := (length - step + 1).toInt32
    { s with step, span := ⟨start, start + (target - start) / left⟩ }

/-- Takes a running ramp one beat on, unless it is complete. -/
def next (r : Ramp) : Ramp :=
  { r with status? := r.status?.map fun s =>
      if s.isComplete r.length then s else s.next r.target r.length }

/-- The values on the current beat, if the ramp is running. -/
def span? (r : Ramp) : Option Span := r.status?.map (·.span)

end Ramp

end Gamelan
