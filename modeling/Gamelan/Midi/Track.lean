import Gamelan.Midi.Event
import Gamelan.Sweep

namespace Gamelan.Midi

/-- The low 28 bits, which is what a distance has room for. -/
def mask28 (n : UInt32) : UInt32 := n &&& 0x0fffffff

def Timed.isBefore (a b : Timed) : Bool := a.tick < b.tick || (a.tick == b.tick && a.order ≤ b.order)

/-- The distances between events in order, from a tick on, and the tick of the last event. -/
def space (start : UInt32) (events : List Timed) : UInt32 × Track :=
  sweep (fun before e => (e.tick, [⟨mask28 (e.tick - before), e.event⟩])) start events

/-- The track of events in any order that ends at a tick, or with its last event if that is later.
Events of equal tick and order stay in the order given. -/
def finishTrack (events : List Timed) (stop : UInt32) : Track :=
  let (last, track) := space 0 (events.mergeSort Timed.isBefore)
  let rest := if last ≤ stop then stop - last else 0
  track ++ [⟨mask28 rest, .endOfTrack⟩]

end Gamelan.Midi
