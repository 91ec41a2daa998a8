import Gamelan.Proofs.Performance.Step
import Gamelan.Proofs.Score.Lookups

namespace Gamelan

namespace Checked

/-- The jump of a beat. Here and in all that follows a lookup that finds nothing gives none, where the performance
itself has a default. -/
def jump (p : Performance) (b : BeatId) : Option Jump := do
  let beat ← p.score.beats[b]?
  return (p.findJump? b).getD (.straight beat.next?)

def modifyJump (p : Performance) (b : BeatId) (f : Jump → Jump) : Option Performance := do
  let j ← jump p b
  return p.setJump b (f j)

def loopAt (p : Performance) (b : BeatId) : Option (Option Loop) := do
  let beat ← p.score.beats[b]?
  return p.loops.get? beat.gongan

def currentIteration (p : Performance) : Option UInt32 :=
  match p.currentBeat? with
  | none => some 1
  | some b => do
    let loop? ← loopAt p b
    return (loop?.map fun l => max l.counter.value 1).getD 1

def target (p : Performance) (b : BeatId) : Option (Option BeatId × Performance) := do
  let loop? ← loopAt p b
  match loop?.bind (·.nextBeat? b) with
  | some target => return (some target, p)
  | none =>
    let j ← jump p b
    return (j.nextBeat?, p.setJump b j)

def countIteration (p : Performance) (b : BeatId) : Option Performance := do
  let beat ← p.score.beats[b]?
  match p.loops.get? beat.gongan with
  | some l => return if l.toBeat = b then p.setLoop beat.gongan l.increment else p
  | none => return p

def countPass (p : Performance) (b : BeatId) : Option Performance := do
  let loop? ← loopAt p b
  if loop?.all (·.counter.value ≤ 1) then modifyJump p b Jump.increment else return p

/-- The slice of the gongan is taken only if there are beats in front of the one that is entered. -/
def adoptPass (p : Performance) (b : BeatId) : Option Performance := do
  let beat ← p.score.beats[b]?
  let g ← p.score.gongan? beat.gongan
  let j ← jump p b
  let earlier ← g.take? (beat.index - 1)
  earlier.foldlM (fun p e => modifyJump p e (·.setCounter j.counter.value)) (p.setJump b j)

/-- Whether the gongan of a beat is entered from another one or at the beginning. -/
def enters (s : Score) (from? : Option BeatId) (beat : Beat) : Option Bool :=
  match from? with
  | none => some true
  | some a => do
    let before ← s.beats[a]?
    return before.gongan ≠ beat.gongan

def arrive (p : Performance) (from? : Option BeatId) (b : BeatId) : Option Performance := do
  let beat ← p.score.beats[b]?
  let p ← countIteration p b
  let p ← countPass p b
  let entered ← enters p.score from? beat
  if entered && 1 < beat.index then adoptPass p b else return p

def enterRamps (p : Performance) (b : BeatId) : Option Performance := do
  let pass := p.currentPass
  let iteration ← currentIteration p
  return { p with
    tempo := p.tempo.enter b p.position? pass iteration
    dynamics := p.dynamics.enter b p.position? pass iteration }

def next (p : Performance) : Option (Except Error (Option BeatId) × Performance) :=
  match p.cursor with
  | .finished => some (.error .finished, p)
  | .notStarted => go none p.score.firstBeat? p
  | .at b => do
    let (target?, p) ← target p b
    go (some b) target? p
where
  go (from? to? : Option BeatId) (p : Performance) : Option (Except Error (Option BeatId) × Performance) :=
    match to? with
    | none => some (.ok none, { p with cursor := .finished })
    | some b =>
      let p := { p with steps := p.steps + 1 }
      if p.maxSteps < p.steps then some (.error (.stepLimit p.maxSteps), p)
      else do
        let q ← arrive p from? b
        let q ← enterRamps { q with cursor := .at b } b
        return (.ok (some b), q)

end Checked

namespace Performance

variable {p : Performance} {b : BeatId}

section Lookups

variable {beat : Beat} {g : Gongan} (h : p.score.StandsAt b beat g)

include h

theorem checked_jump : Checked.jump p b = some (p.jump b) := by
  rw [Checked.jump, jump, h.found, h.next?_eq]
  rfl

theorem checked_modifyJump (f : Jump → Jump) : Checked.modifyJump p b f = some (p.modifyJump b f) := by
  rw [Checked.modifyJump, checked_jump h]
  rfl

theorem checked_loopAt : Checked.loopAt p b = some (p.loopAt? b) := by
  rw [Checked.loopAt, loopAt?, h.found, h.gonganOf_eq]
  rfl

theorem checked_target : Checked.target p b = some (p.target? b) := by
  rw [Checked.target, target?, checked_loopAt h, checked_jump h]
  simp only [Option.bind_eq_bind, Option.bind_some]
  cases (p.loopAt? b).bind (·.nextBeat? b) <;> rfl

theorem checked_countIteration : Checked.countIteration p b = some (p.countIteration b) := by
  rw [Checked.countIteration, countIteration, loopAt?, h.found, h.gonganOf_eq]
  simp only [Option.bind_eq_bind, Option.bind_some]
  cases p.loops.get? beat.gongan <;> rfl

theorem checked_countPass : Checked.countPass p b = some (p.countPass b) := by
  rw [Checked.countPass, countPass, checked_loopAt h, checked_modifyJump h]
  simp only [Option.bind_eq_bind, Option.bind_some]
  split <;> rfl

end Lookups

section Placed

variable (hs : p.score.IsPlaced)

include hs

theorem checked_currentIteration (hb : ∀ b, p.currentBeat? = some b → b < p.score.beats.size) :
    Checked.currentIteration p = some p.currentIteration := by
  rw [Checked.currentIteration, currentIteration]
  cases hcurrent : p.currentBeat? with
  | none => rfl
  | some b =>
    obtain ⟨beat, g, h⟩ := hs.exists_standsAt (hb b hcurrent)
    simp only
    rw [checked_loopAt h]
    rfl

theorem checked_foldlM_modifyJump (f : Jump → Jump) {bs : List BeatId} (hbs : ∀ b ∈ bs, b < p.score.beats.size) :
    bs.foldlM (fun p b => Checked.modifyJump p b f) p = some (bs.foldl (fun p b => p.modifyJump b f) p) := by
  induction bs generalizing p with
  | nil => rfl
  | cons b bs ih =>
    obtain ⟨hb, hbs⟩ := List.forall_mem_cons.1 hbs
    obtain ⟨beat, g, h⟩ := hs.exists_standsAt hb
    rw [List.foldlM_cons, checked_modifyJump h]
    exact ih (p := p.modifyJump b f) hs hbs

theorem checked_adoptPass (hb : b < p.score.beats.size) : Checked.adoptPass p b = some (p.adoptPass b) := by
  obtain ⟨beat, g, h⟩ := hs.exists_standsAt hb
  have hearlier := checked_foldlM_modifyJump (p := p.createJump b) hs (·.setCounter (p.jump b).counter.value)
    fun c hc => h.lt_of_mem_earlierBeats hc
  rw [Checked.adoptPass, h.found]
  simp only [Option.bind_eq_bind, Option.bind_some]
  rw [h.home, checked_jump h, Option.bind_some, Option.bind_some, h.take?_eq, Option.bind_some]
  exact hearlier

theorem checked_enters {from? : Option BeatId} (hfrom : ∀ a, from? = some a → a < p.score.beats.size) {beat : Beat}
    {g : Gongan} (h : p.score.StandsAt b beat g) :
    Checked.enters p.score from? beat = some (from?.all fun a => p.score.gonganOf a ≠ p.score.gonganOf b) := by
  cases from? with
  | none => rfl
  | some a =>
    obtain ⟨before, g', h'⟩ := hs.exists_standsAt (hfrom a rfl)
    rw [Checked.enters, h'.found, Option.all_some, h'.gonganOf_eq, h.gonganOf_eq]
    rfl

theorem checked_arrive {from? : Option BeatId} (hfrom : ∀ a, from? = some a → a < p.score.beats.size)
    (hb : b < p.score.beats.size) : Checked.arrive p from? b = some (p.arrive from? b) := by
  obtain ⟨beat, g, h⟩ := hs.exists_standsAt hb
  -- Counting leaves the score alone, so the beat still stands where it stood.
  have hscore : ((p.countIteration b).countPass b).score = p.score := by
    rw [countPass_score, countIteration_score]
  have hpass : Checked.countPass (p.countIteration b) b = some ((p.countIteration b).countPass b) :=
    checked_countPass ((p.countIteration_score b).symm ▸ h)
  rw [Checked.arrive, arrive, h.found]
  simp only [Option.bind_eq_bind, Option.bind_some, checked_countIteration h, hpass, hscore, checked_enters hs hfrom h,
    h.isEmpty_earlierBeats]
  have hindex : (!decide (beat.index ≤ 1)) = decide (1 < beat.index) := by
    rw [← decide_not]
    exact decide_eq_decide.2 Nat.not_le
  rw [hindex]
  split
  · exact checked_adoptPass (hscore.symm ▸ hs) (hscore.symm ▸ hb)
  · rfl

theorem checked_enterRamps (hcursor : ∀ c, p.currentBeat? = some c → c < p.score.beats.size) (b : BeatId) :
    Checked.enterRamps p b = some (p.enterRamps b) := by
  rw [Checked.enterRamps, checked_currentIteration hs hcursor]
  rfl

theorem checked_go {from? to? : Option BeatId} (hfrom : ∀ a, from? = some a → a < p.score.beats.size)
    (hto : ∀ b, to? = some b → b < p.score.beats.size) :
    Checked.next.go from? to? p = some (next.go from? to? p) := by
  cases to? with
  | none => rfl
  | some b =>
    have hb := hto b rfl
    have harrive := checked_arrive (p := { p with steps := p.steps + 1 }) hs hfrom hb
    have hscore := arrive_score { p with steps := p.steps + 1 } from? b
    generalize hq : ({ p with steps := p.steps + 1 } : Performance).arrive from? b = q at harrive hscore
    have hramps := checked_enterRamps (p := { q with cursor := .at b }) (hscore.symm ▸ hs)
      (fun c hc => Option.some.inj hc ▸ hscore.symm ▸ hb) b
    simp only [Checked.next.go, next.go]
    split
    · rfl
    · rw [harrive, Option.bind_eq_bind, Option.bind_some, hramps, hq]
      rfl

/-- A step finds what it looks up if the current beat and the next one are in the score. -/
theorem checked_next (hcursor : ∀ b, p.currentBeat? = some b → b < p.score.beats.size)
    (hdestination : ∀ b, p.destination? = some b → b < p.score.beats.size) : Checked.next p = some p.next := by
  rw [Checked.next, next]
  cases hp : p.cursor with
  | finished => rfl
  | notStarted =>
    refine checked_go hs (fun a ha => by cases ha) fun b hb => hdestination b ?_
    rw [destination?, hp]
    exact hb
  | «at» c =>
    have hc := hcursor c (currentBeat?_eq_some_iff.2 hp)
    obtain ⟨beat, g, h⟩ := hs.exists_standsAt hc
    have hscore := p.target?_score c
    rw [destination?, hp] at hdestination
    simp only [checked_target h, Option.bind_eq_bind, Option.bind_some]
    refine checked_go (hscore.symm ▸ hs) (fun a ha => ?_) fun b hb => hscore.symm ▸ hdestination b hb
    exact Option.some.inj ha ▸ hscore.symm ▸ hc

end Placed

end Performance

end Gamelan
