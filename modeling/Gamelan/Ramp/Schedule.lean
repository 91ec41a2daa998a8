import Gamelan.Ramp
import Gamelan.Score

namespace Gamelan

/-- All ramps of one quantity. One of them is active at any time. The first one is the default, which is active at the
beginning and belongs to no beat. -/
structure Schedule where
  ramps : Array Ramp
  /-- The ramps that may begin at a beat, as indices in the order they were added. -/
  byBeat : SortedMap BeatId (List Nat) := .empty
  active : Nat := 0
  deriving DecidableEq

namespace Schedule

/-- A schedule with a default alone, which has to be in the range of the quantity. -/
def ofDefault (quantity : Quantity) (value : Int32) : Except RampFault Schedule := do
  let r ← Ramp.make quantity value 0
  return { ramps := #[r.start value] }

def add (s : Schedule) (b : BeatId) (r : Ramp) : Schedule :=
  { s with
    ramps := s.ramps.push r
    byBeat := s.byBeat.alter b [] (· ++ [s.ramps.size]) }

def default (s : Schedule) : Int32 := (s.ramps[0]?).elim 0 (·.target)

/-- Back to the beginning: no ramp runs but the default. -/
def reset (s : Schedule) : Schedule :=
  { s with
    ramps := (s.ramps.map (·.clear)).modify 0 (·.start s.default)
    active := 0 }

/-- The values on the current beat. -/
def span (s : Schedule) : Span :=
  ((s.ramps[s.active]?).bind (·.span?)).getD ⟨s.default, s.default⟩

/-- The first ramp of a beat that takes place now. -/
def starting? (s : Schedule) (b : BeatId) (position? : Option Position) (pass iteration : UInt32) :
    Option Nat :=
  ((s.byBeat.get? b).getD []).find? fun i => (s.ramps[i]?).any (·.isFor position? pass iteration)

/-- Makes another ramp the active one. It starts from the value reached so far. -/
def activate (s : Schedule) (i : Nat) : Schedule :=
  let reached := s.span.stop
  { s with
    ramps := (s.ramps.modify s.active (·.clear)).modify i (·.start reached)
    active := i }

/-- Arrives at a beat: a ramp that begins there takes over, unless it is active already, and the active
ramp goes one beat on. -/
def enter (s : Schedule) (b : BeatId) (position? : Option Position) (pass iteration : UInt32) :
    Schedule :=
  let s :=
    match s.starting? b position? pass iteration with
    | some i => if i = s.active then s else s.activate i
    | none => s
  { s with ramps := s.ramps.modify s.active (·.next) }

end Schedule

end Gamelan
