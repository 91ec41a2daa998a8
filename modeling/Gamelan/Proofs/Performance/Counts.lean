import Gamelan.Proofs.Performance.Jumps

namespace Gamelan.Performance

/-- One change of a counter: a loop begins a repetition, a beat is on a new pass, or a beat takes over the
pass of a later one where its gongan is entered. -/
inductive Count where
  | iteration (gongan : Nat)
  | pass (beat : BeatId)
  | adopted (beat : BeatId) (pass : UInt32)
  deriving DecidableEq

/-- What a change does to the counters. -/
def Count.apply (p : Performance) : Count → Performance
  | iteration g => (p.loops.get? g).elim p fun l => p.setLoop g l.increment
  | pass b => p.modifyJump b Jump.increment
  | adopted b n => p.modifyJump b (·.setCounter n)

/-- Whether a change advances or rewrites the pass of a beat, or advances the loop of its gongan. -/
def Count.isFor (s : Score) (b : BeatId) : Count → Prop
  | iteration g => g = s.gonganOf b
  | pass c => c = b
  | adopted c _ => c = b

instance (s : Score) (b : BeatId) (c : Count) : Decidable (c.isFor s b) :=
  match c with
  | .iteration g => inferInstanceAs (Decidable (g = s.gonganOf b))
  | .pass c => inferInstanceAs (Decidable (c = b))
  | .adopted c _ => inferInstanceAs (Decidable (c = b))

theorem Count.apply_score (p : Performance) (c : Count) : (c.apply p).score = p.score := by
  cases c with
  | iteration g =>
    rw [Count.apply]
    cases p.loops.get? g <;> rfl
  | pass b => rfl
  | adopted b n => rfl

/-- Changes that are not for a beat leave its jump and the loop of its gongan alone. -/
theorem foldl_apply_of_not_isFor {p : Performance} {b : BeatId} {cs : List Count}
    (h : ∀ u ∈ cs, ¬ u.isFor p.score b) :
    (cs.foldl Count.apply p).jump b = p.jump b ∧ (cs.foldl Count.apply p).loopAt? b = p.loopAt? b := by
  induction cs generalizing p with
  | nil => exact ⟨rfl, rfl⟩
  | cons u cs ih =>
    have hrest := ih (p := u.apply p) fun v hv => by
      rw [Count.apply_score]
      exact h v (.tail _ hv)
    have hu := h u (.head _)
    rw [List.foldl_cons, hrest.1, hrest.2]
    cases u with
    | iteration n =>
      rw [Count.apply]
      cases hl : p.loops.get? n with
      | none => exact ⟨rfl, rfl⟩
      | some l =>
        refine ⟨rfl, ?_⟩
        change (p.loops.insert n l.increment).get? (p.score.gonganOf b) = _
        rw [SortedMap.get?_insert, if_neg (Ne.symm hu)]
        rfl
    | pass c => exact ⟨p.jump_modifyJump_of_ne (Ne.symm hu) _, rfl⟩
    | adopted c n => exact ⟨p.jump_modifyJump_of_ne (Ne.symm hu) _, rfl⟩

/-- Whether an arrival enters a gongan: it comes from another gongan, or it is the first one. -/
def enters (p : Performance) (from? : Option BeatId) (b : BeatId) : Bool :=
  from?.all fun a => p.score.gonganOf a ≠ p.score.gonganOf b

/-- All changes of counters on the arrival at a beat, in order. -/
def counts (p : Performance) (from? : Option BeatId) (b : BeatId) : List Count :=
  let q := p.countIteration b
  let pass := ((q.countPass b).jump b).counter.value
  (if (p.loopAt? b).any (·.toBeat = b) then [.iteration (p.score.gonganOf b)] else []) ++
    (if (q.loopAt? b).all (·.counter.value ≤ 1) then [.pass b] else []) ++
    (if p.enters from? b then (p.score.earlierBeats b).map (.adopted · pass) else [])

theorem countIteration_eq_foldl (p : Performance) (b : BeatId) :
    p.countIteration b = (if (p.loopAt? b).any (·.toBeat = b) then
      [Count.iteration (p.score.gonganOf b)] else []).foldl Count.apply p := by
  rw [countIteration]
  cases hl : p.loopAt? b with
  | none => simp
  | some l =>
    have hget : p.loops.get? (p.score.gonganOf b) = some l := hl
    by_cases hto : l.toBeat = b
    · simp [hto, Count.apply, hget]
    · simp [hto]

@[simp] theorem countIteration_score (p : Performance) (b : BeatId) : (p.countIteration b).score = p.score := by
  rw [countIteration]
  split
  · split <;> rfl
  · rfl

theorem countPass_eq_foldl (p : Performance) (b : BeatId) :
    p.countPass b = (if (p.loopAt? b).all (·.counter.value ≤ 1) then [Count.pass b] else []).foldl Count.apply p := by
  rw [countPass]
  split <;> rfl

@[simp] theorem countPass_score (p : Performance) (b : BeatId) : (p.countPass b).score = p.score := by
  rw [countPass]
  split <;> rfl

theorem adoptPass_score (p : Performance) (b : BeatId) : (p.adoptPass b).score = p.score :=
  List.foldlRecOn (motive := fun q : Performance => q.score = p.score) _ _ rfl fun _ hq _ _ => hq

theorem arrive_score (p : Performance) (from? : Option BeatId) (b : BeatId) : (p.arrive from? b).score = p.score := by
  rw [arrive]
  split
  · rw [adoptPass_score, countPass_score, countIteration_score]
  · rw [countPass_score, countIteration_score]

theorem target?_score (p : Performance) (b : BeatId) : (p.target? b).2.score = p.score := by
  rw [target?]
  split <;> rfl

theorem go_score (p : Performance) (from? to? : Option BeatId) : (next.go from? to? p).2.score = p.score := by
  cases to? with
  | none => rfl
  | some b =>
    rw [next.go]
    split
    · rfl
    · exact arrive_score _ from? b

/-- A performance keeps its score. -/
theorem next_score (p : Performance) : p.next.2.score = p.score := by
  rw [next]
  split
  · rfl
  · exact p.go_score none _
  · exact ((p.target? _).2.go_score _ _).trans (p.target?_score _)

namespace IsComplete

variable {p : Performance}

theorem apply (hp : p.IsComplete) (c : Count) : (c.apply p).IsComplete := by
  cases c with
  | iteration g =>
    rw [Count.apply]
    cases p.loops.get? g with
    | none => exact hp
    | some l => exact hp
  | pass b => exact hp.setJump b _
  | adopted b n => exact hp.setJump b _

theorem foldl_apply (hp : p.IsComplete) (cs : List Count) : (cs.foldl Count.apply p).IsComplete := by
  induction cs generalizing p with
  | nil => exact hp
  | cons c cs ih => exact ih (hp.apply c)

/-- Where all jumps are set up, an arrival changes counters and nothing else. -/
theorem arrive_eq (hp : p.IsComplete) (from? : Option BeatId) (b : BeatId) :
    p.arrive from? b = (p.counts from? b).foldl Count.apply p := by
  have hcounted : (p.countIteration b).countPass b =
      ((if (p.loopAt? b).any (·.toBeat = b) then [Count.iteration (p.score.gonganOf b)] else []) ++
        (if ((p.countIteration b).loopAt? b).all (·.counter.value ≤ 1) then [Count.pass b] else [])).foldl
          Count.apply p := by
    rw [List.foldl_append, ← countIteration_eq_foldl, ← countPass_eq_foldl]
  have hcomplete : ((p.countIteration b).countPass b).IsComplete := by
    rw [hcounted]
    exact hp.foldl_apply _
  rw [counts, List.foldl_append, ← hcounted, arrive]
  simp only [countPass_score, countIteration_score]
  change (if p.enters from? b && !(p.score.earlierBeats b).isEmpty then
    ((p.countIteration b).countPass b).adoptPass b else _) = _
  cases p.enters from? b with
  | false => rfl
  | true =>
    cases hearlier : p.score.earlierBeats b with
    | nil => rfl
    | cons first rest =>
      simp [hearlier, adoptPass, hcomplete.createJump_eq, List.foldl_map, Count.apply]

end IsComplete

end Gamelan.Performance
