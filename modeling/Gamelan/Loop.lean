import Gamelan.Counter
import Gamelan.Score

namespace Gamelan

/-- The repetition of a gongan: from its last beat back to its first, a number of times. -/
structure Loop where
  fromBeat : BeatId
  toBeat : BeatId
  /-- The repetition the gongan is on. -/
  counter : Counter
  deriving DecidableEq, Repr

namespace Loop

def ofCount (fromBeat toBeat : BeatId) (count : UInt32) : Loop := ⟨fromBeat, toBeat, { cycle := count }⟩

def reset (l : Loop) : Loop := { l with counter := l.counter.reset }

def increment (l : Loop) : Loop := { l with counter := l.counter.increment }

/-- Goes back while repetitions remain, and only from the beat where the loop ends. -/
def nextBeat? (l : Loop) (b : BeatId) : Option BeatId :=
  if b = l.fromBeat ∧ l.counter.value < l.counter.cycle then some l.toBeat else none

end Loop

end Gamelan
