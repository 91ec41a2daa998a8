import Gamelan.Jump
import Gamelan.Loop
import Gamelan.Ramp.Schedule
import Gamelan.Settings

namespace Gamelan

inductive Cursor where
  | notStarted
  | at (beat : BeatId)
  | finished
  deriving DecidableEq, Repr

/-- One beat as it is performed. -/
structure Played where
  beat : BeatId
  fullId : String
  pass : UInt32
  iteration : UInt32
  tempo : Span
  dynamics : Span
  deriving DecidableEq, Repr

/-- A walk from beat to beat, along the loops and jumps that are set up, with the tempo and the dynamics of every beat. -/
structure Performance where
  score : Score
  maxSteps : Nat
  /-- The jump of each beat; a beat without one goes on to the next beat of the score. -/
  jumps : Array (Option Jump)
  /-- The loops of the gongans that have one. -/
  loops : SortedMap Nat Loop := .empty
  tempo : Schedule
  dynamics : Schedule
  cursor : Cursor := .notStarted
  /-- Whose part is performed, if it is that of one position. -/
  position? : Option Position := none
  /-- How many beats have been asked for. -/
  steps : Nat := 0

namespace Performance

/-- A performance without loops, jumps and changes. -/
def ofScore (score : Score) (settings : Settings) : Except Error Performance := do
  let tempo ← (Schedule.ofDefault .tempo settings.defaultTempo).mapError .ramp
  let dynamics ← (Schedule.ofDefault .dynamics settings.defaultVelocity).mapError .ramp
  return {
    score, tempo, dynamics
    maxSteps := settings.maxSteps
    jumps := Array.replicate score.beats.size none }

section Setup

def findJump? (p : Performance) (b : BeatId) : Option Jump := (p.jumps[b]?).join

/-- The jump of a beat, or the one that it has as long as none is set up. -/
def jump (p : Performance) (b : BeatId) : Jump :=
  (p.findJump? b).getD (.straight (p.score.next? b))

def setJump (p : Performance) (b : BeatId) (j : Jump) : Performance :=
  { p with jumps := p.jumps.setIfInBounds b (some j) }

def modifyJump (p : Performance) (b : BeatId) (f : Jump → Jump) : Performance := p.setJump b (f (p.jump b))

/-- Sets up the jump that a beat has anyway. -/
def createJump (p : Performance) (b : BeatId) : Performance := p.setJump b (p.jump b)

def extendJump (p : Performance) (b : BeatId) (other : Jump) (skipOtherwise : Bool) : Performance :=
  p.modifyJump b (·.extend other skipOtherwise)

/-- Goes on from one beat to another, on these passes or, if there are none, on all others. -/
def addGoto (p : Performance) (fromBeat toBeat : BeatId) (passes : List UInt32)
    (cycle? : Option UInt32) : Performance :=
  p.modifyJump fromBeat fun j =>
    let j :=
      if passes.isEmpty then j.set .otherwise (some toBeat)
      else passes.foldl (fun j n => j.set (.pass n) (some toBeat)) j
    cycle?.elim j j.setCycle

/-- The loop of the gongan that a beat belongs to. -/
def loopAt? (p : Performance) (b : BeatId) : Option Loop := p.loops.get? (p.score.gonganOf b)

def setLoop (p : Performance) (gongan : Nat) (l : Loop) : Performance :=
  { p with loops := p.loops.insert gongan l }

def hasLoop (p : Performance) (gongan : Nat) : Bool := p.loops.contains gongan

def addRamp (p : Performance) (quantity : Quantity) (b : BeatId) (r : Ramp) : Performance :=
  match quantity with
  | .tempo => { p with tempo := p.tempo.add b r }
  | .dynamics => { p with dynamics := p.dynamics.add b r }

end Setup

/-- Back to the beginning, for a position or for none: all counters, the values and the steps. -/
def reset (p : Performance) (position? : Option Position) : Performance :=
  { p with
    jumps := p.jumps.map (·.map Jump.reset)
    loops := p.loops.mapValues Loop.reset
    tempo := p.tempo.reset
    dynamics := p.dynamics.reset
    cursor := .notStarted
    position?
    steps := 0 }

def currentBeat? (p : Performance) : Option BeatId :=
  match p.cursor with
  | .at b => some b
  | _ => none

/-- The pass of the current beat, zero without one. -/
def currentPass (p : Performance) : UInt32 :=
  ((p.currentBeat?.bind p.findJump?).map (·.counter.value)).getD 0

/-- The repetition of the current beat's gongan; without a loop it is the first. -/
def currentIteration (p : Performance) : UInt32 :=
  ((p.currentBeat?.bind p.loopAt?).map fun l => max l.counter.value 1).getD 1

/-- Where the performance goes on after a beat. A loop that is not done comes before the jump. -/
def target? (p : Performance) (b : BeatId) : Option BeatId × Performance :=
  match (p.loopAt? b).bind (·.nextBeat? b) with
  | some target => (some target, p)
  | none => ((p.jump b).nextBeat?, p.createJump b)

/-- Arriving at the first beat of a loop begins a repetition. -/
def countIteration (p : Performance) (b : BeatId) : Performance :=
  match p.loopAt? b with
  | some l => if l.toBeat = b then p.setLoop (p.score.gonganOf b) l.increment else p
  | none => p

/-- Repetitions after the first are not new passes. -/
def countPass (p : Performance) (b : BeatId) : Performance :=
  if (p.loopAt? b).all (·.counter.value ≤ 1) then p.modifyJump b Jump.increment else p

/-- The beats in front of a beat where a gongan is entered take over its pass. -/
def adoptPass (p : Performance) (b : BeatId) : Performance :=
  let pass := (p.jump b).counter.value
  (p.score.earlierBeats b).foldl (fun p earlier => p.modifyJump earlier (·.setCounter pass)) (p.createJump b)

/-- Counts the arrival at a beat from another one, or at the beginning. -/
def arrive (p : Performance) (from? : Option BeatId) (b : BeatId) : Performance :=
  let p := (p.countIteration b).countPass b
  let entered := from?.all fun a => p.score.gonganOf a ≠ p.score.gonganOf b
  if entered && !(p.score.earlierBeats b).isEmpty then p.adoptPass b else p

/-- Takes tempo and dynamics to the current beat. -/
def enterRamps (p : Performance) (b : BeatId) : Performance :=
  let pass := p.currentPass
  let iteration := p.currentIteration
  { p with
    tempo := p.tempo.enter b p.position? pass iteration
    dynamics := p.dynamics.enter b p.position? pass iteration }

/-- Performs the next beat. At the end of the flow there is none; after that, or beyond the limit, it
is an error to go on. -/
def next (p : Performance) : Except Error (Option BeatId) × Performance :=
  match p.cursor with
  | .finished => (.error .finished, p)
  | .notStarted => go none p.score.firstBeat? p
  | .at b => let (target?, p) := p.target? b; go (some b) target? p
where
  go (from? to? : Option BeatId) (p : Performance) : Except Error (Option BeatId) × Performance :=
    match to? with
    | none => (.ok none, { p with cursor := .finished })
    | some b =>
      let p := { p with steps := p.steps + 1 }
      if p.maxSteps < p.steps then (.error (.stepLimit p.maxSteps), p)
      else (.ok (some b), ({ p.arrive from? b with cursor := .at b }).enterRamps b)

/-- The current beat as it is performed. -/
def played (p : Performance) (b : BeatId) : Played where
  beat := b
  fullId := p.score.fullId b
  pass := p.currentPass
  iteration := p.currentIteration
  tempo := p.tempo.span
  dynamics := p.dynamics.span

section Steps

variable {p q : Performance} {b : BeatId}

theorem foldl_modifyJump_steps (p : Performance) (bs : List BeatId) (f : Jump → Jump) :
    (bs.foldl (fun p b => p.modifyJump b f) p).maxSteps = p.maxSteps ∧
      (bs.foldl (fun p b => p.modifyJump b f) p).steps = p.steps := by
  induction bs generalizing p with
  | nil => exact ⟨rfl, rfl⟩
  | cons b bs ih => exact ih (p.modifyJump b f)

theorem countIteration_steps (p : Performance) (b : BeatId) :
    (p.countIteration b).maxSteps = p.maxSteps ∧ (p.countIteration b).steps = p.steps := by
  rw [countIteration]
  split
  · split <;> exact ⟨rfl, rfl⟩
  · exact ⟨rfl, rfl⟩

theorem countPass_steps (p : Performance) (b : BeatId) :
    (p.countPass b).maxSteps = p.maxSteps ∧ (p.countPass b).steps = p.steps := by
  rw [countPass]
  split <;> exact ⟨rfl, rfl⟩

theorem arrive_steps (p : Performance) (from? : Option BeatId) (b : BeatId) :
    (p.arrive from? b).maxSteps = p.maxSteps ∧ (p.arrive from? b).steps = p.steps := by
  have hiteration := p.countIteration_steps b
  have hpass := (p.countIteration b).countPass_steps b
  rw [hiteration.1, hiteration.2] at hpass
  rw [arrive]
  split
  · have hadopted := (((p.countIteration b).countPass b).createJump b).foldl_modifyJump_steps
      (((p.countIteration b).countPass b).score.earlierBeats b)
      (·.setCounter (((p.countIteration b).countPass b).jump b).counter.value)
    exact ⟨hadopted.1.trans hpass.1, hadopted.2.trans hpass.2⟩
  · exact hpass

theorem target?_steps (p : Performance) (b : BeatId) :
    (p.target? b).2.maxSteps = p.maxSteps ∧ (p.target? b).2.steps = p.steps := by
  rw [target?]
  split <;> exact ⟨rfl, rfl⟩

theorem go_eq_beat {from? to? : Option BeatId} (h : next.go from? to? p = (.ok (some b), q)) :
    q.maxSteps = p.maxSteps ∧ q.steps = p.steps + 1 ∧ p.steps < p.maxSteps := by
  cases to? with
  | none => cases h
  | some b =>
    rw [next.go] at h
    have hsteps := ({ p with steps := p.steps + 1 } : Performance).arrive_steps from? b
    by_cases hlimit : p.maxSteps < p.steps + 1
    · simp only [if_pos hlimit] at h
      cases h
    · simp only [if_neg hlimit] at h
      cases h
      exact ⟨hsteps.1, hsteps.2, Nat.lt_of_succ_le (Nat.le_of_not_lt hlimit)⟩

/-- A beat is one step, and it stays within the limit. This is what brings a performance to its end. -/
theorem next_eq_beat (h : p.next = (.ok (some b), q)) :
    q.maxSteps = p.maxSteps ∧ q.steps = p.steps + 1 ∧ p.steps < p.maxSteps := by
  rw [next] at h
  split at h
  · cases h
  · exact go_eq_beat h
  next a _ =>
    have hgo := go_eq_beat (p := (p.target? a).2) h
    rwa [(p.target?_steps a).1, (p.target?_steps a).2] at hgo

end Steps

/-- Performs what is left, after the beats performed so far. -/
def finish (acc : Array Played) (p : Performance) : Except Error (Array Played) × Performance :=
  match _h : p.next with
  | (.error e, q) => (.error e, q)
  | (.ok none, q) => (.ok acc, q)
  | (.ok (some b), q) => finish (acc.push (q.played b)) q
termination_by p.maxSteps - p.steps
decreasing_by
  obtain ⟨hmax, hsteps, hlimit⟩ := next_eq_beat _h
  rw [hmax, hsteps]
  omega

section Finish

variable {p q : Performance} {acc : Array Played}

theorem finish_of_error {e : Error} (h : p.next = (.error e, q)) : finish acc p = (.error e, q) := by
  rw [finish]
  split <;> simp_all

theorem finish_of_end (h : p.next = (.ok none, q)) : finish acc p = (.ok acc, q) := by
  rw [finish]
  split <;> simp_all

theorem finish_of_beat {b : BeatId} (h : p.next = (.ok (some b), q)) :
    finish acc p = finish (acc.push (q.played b)) q := by
  rw [finish]
  split <;> simp_all

end Finish

/-- Performs the whole score for a position or for none. -/
def walk (p : Performance) (position? : Option Position) : Except Error (Array Played) × Performance :=
  finish #[] (p.reset position?)

end Performance

end Gamelan
