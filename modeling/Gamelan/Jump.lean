import Gamelan.Counter
import Gamelan.Score

namespace Gamelan

/-- A target is a beat, or no beat, which ends the performance. -/
abbrev Target := Option BeatId

/-- What a target is registered for: one pass, or all passes without a target of their own. -/
inductive PassKey where
  | pass (n : UInt32)
  | otherwise
  deriving DecidableEq, Repr

/-- Where a performance goes on after a beat, by the pass that the beat is on. -/
structure Jump where
  passes : SortedMap UInt32 Target := .empty
  otherwise? : Option Target := none
  /-- The pass the beat is on. -/
  counter : Counter
  deriving DecidableEq

namespace Jump

/-- The cycle of a jump that is given none. -/
def defaultCycle : UInt32 := 99

def ofCycle (cycle : UInt32) : Jump := { counter := { cycle } }

/-- Goes on at the same target on every pass. -/
def straight (target : Target) : Jump := { ofCycle defaultCycle with otherwise? := some target }

def set (j : Jump) (key : PassKey) (target : Target) : Jump :=
  match key with
  | .pass n => { j with passes := j.passes.insert n target }
  | .otherwise => { j with otherwise? := some target }

def setCycle (j : Jump) (cycle : UInt32) : Jump := { j with counter := { j.counter with cycle } }

def reset (j : Jump) : Jump := { j with counter := j.counter.reset }

def increment (j : Jump) : Jump := { j with counter := j.counter.increment }

def setCounter (j : Jump) (n : UInt32) : Jump := { j with counter := j.counter.set n }

def target? (j : Jump) : PassKey → Option Target
  | .pass n => j.passes.get? n
  | .otherwise => j.otherwise?

/-- The target on the current pass: its own one, else the one for other passes, else none. -/
def nextBeat? (j : Jump) : Option BeatId :=
  ((j.passes.get? j.counter.value).or j.otherwise?).join

/-- The highest pass with a target of its own, zero if there is none. -/
def maxPass (j : Jump) : UInt32 := j.passes.keys.getLastD 0

/-- Takes over the targets of another jump; those for other passes only if wanted. -/
def extend (j other : Jump) (skipOtherwise : Bool) : Jump where
  passes := other.passes.entries.foldl (fun m (n, target) => m.insert n target) j.passes
  otherwise? := if skipOtherwise then j.otherwise? else other.otherwise?.or j.otherwise?
  counter := j.counter

end Jump

end Gamelan
