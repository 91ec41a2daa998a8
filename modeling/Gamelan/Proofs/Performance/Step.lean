import Gamelan.Proofs.Performance.Counts

namespace Gamelan.Performance

/-- The beat that the flow goes on to, none where it ends. -/
def destination? (p : Performance) : Option BeatId :=
  match p.cursor with
  | .notStarted => p.score.firstBeat?
  | .at b => (p.target? b).1
  | .finished => none

/-- The performance on its next beat, once that beat is known and within the limit. -/
def visit (p : Performance) (b : BeatId) : Performance :=
  { ({ p with steps := p.steps + 1 }).arrive p.currentBeat? b with cursor := .at b }.enterRamps b

theorem target?_snd (p : Performance) (b : BeatId) : (p.target? b).2 = p ∨ (p.target? b).2 = p.createJump b := by
  rw [target?]
  split
  · exact .inl rfl
  · exact .inr rfl

/-- A running loop comes before the jump. -/
theorem target?_fst (p : Performance) (b : BeatId) :
    (p.target? b).1 = ((p.loopAt? b).bind (·.nextBeat? b)).or (p.jump b).nextBeat? := by
  rw [target?]
  cases (p.loopAt? b).bind (·.nextBeat? b) <;> rfl

theorem currentBeat?_eq_some_iff {p : Performance} {b : BeatId} : p.currentBeat? = some b ↔ p.cursor = .at b := by
  rw [currentBeat?]
  cases p.cursor <;> simp

/-- From the current beat the flow goes where the loop leads that is running, or else the jump. -/
theorem destination?_eq_of_currentBeat? {p : Performance} {b : BeatId} (h : p.currentBeat? = some b) :
    p.destination? = ((p.loopAt? b).bind (·.nextBeat? b)).or (p.jump b).nextBeat? := by
  rw [destination?, currentBeat?_eq_some_iff.1 h]
  exact p.target?_fst b

/-- Counting changes jumps and loops only. -/
theorem apply_eq (p : Performance) (c : Count) :
    c.apply p = { p with jumps := (c.apply p).jumps, loops := (c.apply p).loops } := by
  cases c with
  | iteration g =>
    rw [Count.apply]
    cases p.loops.get? g <;> rfl
  | pass b => rfl
  | adopted b n => rfl

theorem foldl_apply_eq (p : Performance) (cs : List Count) :
    cs.foldl Count.apply p =
      { p with jumps := (cs.foldl Count.apply p).jumps, loops := (cs.foldl Count.apply p).loops } := by
  induction cs generalizing p with
  | nil => rfl
  | cons c cs ih =>
    have hhead := apply_eq p c
    have htail := ih (c.apply p)
    rw [List.foldl_cons]
    generalize cs.foldl Count.apply (c.apply p) = r at htail ⊢
    rw [htail, hhead]

/-- Neither the limit nor the number of steps matters to the counters. -/
theorem apply_limit (p : Performance) (m n : Nat) (c : Count) :
    c.apply { p with maxSteps := m, steps := n } = { c.apply p with maxSteps := m, steps := n } := by
  cases c with
  | iteration g =>
    rw [Count.apply, Count.apply]
    cases p.loops.get? g <;> rfl
  | pass b => rfl
  | adopted b n => rfl

theorem foldl_apply_limit (p : Performance) (m n : Nat) (cs : List Count) :
    cs.foldl Count.apply { p with maxSteps := m, steps := n } =
      { cs.foldl Count.apply p with maxSteps := m, steps := n } := by
  induction cs generalizing p with
  | nil => rfl
  | cons c cs ih => rw [List.foldl_cons, apply_limit, ih, List.foldl_cons]

theorem counts_limit (p : Performance) (m n : Nat) (from? : Option BeatId) (b : BeatId) :
    ({ p with maxSteps := m, steps := n } : Performance).counts from? b = p.counts from? b := by
  have hiteration : ({ p with maxSteps := m, steps := n } : Performance).countIteration b =
      { p.countIteration b with maxSteps := m, steps := n } := by
    rw [countIteration_eq_foldl, countIteration_eq_foldl, ← foldl_apply_limit]
    rfl
  have hpass : ({ p.countIteration b with maxSteps := m, steps := n } : Performance).countPass b =
      { (p.countIteration b).countPass b with maxSteps := m, steps := n } := by
    rw [countPass_eq_foldl, countPass_eq_foldl, ← foldl_apply_limit]
    rfl
  rw [counts, hiteration, hpass]
  rfl

theorem visit_cursor (p : Performance) (b : BeatId) : (p.visit b).cursor = .at b := rfl

theorem foldl_apply_loops (p : Performance) {cs : List Count} (h : ∀ u ∈ cs, ∀ n, u ≠ .iteration n) :
    (cs.foldl Count.apply p).loops = p.loops := by
  induction cs generalizing p with
  | nil => rfl
  | cons u cs ih =>
    rw [List.foldl_cons, ih _ fun v hv => h v (.tail _ hv)]
    cases u with
    | iteration n => exact absurd rfl (h _ (.head _) n)
    | pass b => rfl
    | adopted b n => rfl

namespace IsComplete

variable {p q : Performance}

theorem visit_eq (hp : p.IsComplete) (b : BeatId) :
    p.visit b = enterRamps { p with
      jumps := ((p.counts p.currentBeat? b).foldl Count.apply p).jumps
      loops := ((p.counts p.currentBeat? b).foldl Count.apply p).loops
      cursor := .at b
      steps := p.steps + 1 } b := by
  have hsteps : ({ p with steps := p.steps + 1 } : Performance).IsComplete := hp
  rw [Performance.visit, hsteps.arrive_eq, counts_limit, foldl_apply_limit, foldl_apply_eq]

theorem visit_score (hp : p.IsComplete) (b : BeatId) : (p.visit b).score = p.score := by
  rw [hp.visit_eq, enterRamps]

theorem visit_maxSteps (hp : p.IsComplete) (b : BeatId) : (p.visit b).maxSteps = p.maxSteps := by
  rw [hp.visit_eq, enterRamps]

theorem visit_steps (hp : p.IsComplete) (b : BeatId) : (p.visit b).steps = p.steps + 1 := by
  rw [hp.visit_eq, enterRamps]

theorem visit_jump (hp : p.IsComplete) (b c : BeatId) :
    (p.visit b).jump c = ((p.counts p.currentBeat? b).foldl Count.apply p).jump c := by
  rw [hp.visit_eq, foldl_apply_eq]
  rfl

theorem visit_loopAt? (hp : p.IsComplete) (b c : BeatId) :
    (p.visit b).loopAt? c = ((p.counts p.currentBeat? b).foldl Count.apply p).loopAt? c := by
  rw [hp.visit_eq, foldl_apply_eq]
  rfl

/-- Whether a new pass begins is decided by the loop as it is on arrival, which is how it stays. -/
theorem visit_loops (hp : p.IsComplete) (c : BeatId) : (p.visit c).loops = (p.countIteration c).loops := by
  have hvisit : (p.visit c).loops = ((p.counts p.currentBeat? c).foldl Count.apply p).loops := by
    rw [hp.visit_eq]
    rfl
  rw [hvisit, counts, List.append_assoc, List.foldl_append, ← countIteration_eq_foldl]
  refine foldl_apply_loops _ ?_
  intro u hu n
  rcases List.mem_append.1 hu with hu | hu
  · split at hu
    · rw [List.mem_singleton.1 hu]
      simp
    · cases hu
  · split at hu
    · obtain ⟨e, -, rfl⟩ := List.mem_map.1 hu
      simp
    · cases hu

/-- On a visit, tempo and dynamics enter the beat on the pass and in the repetition that it is played in. -/
theorem visit_tempo (hp : p.IsComplete) (b : BeatId) : (p.visit b).tempo =
    p.tempo.enter b p.position? (p.visit b).currentPass (p.visit b).currentIteration := by
  rw [hp.visit_eq]
  rfl

theorem visit (hp : p.IsComplete) (b : BeatId) : (p.visit b).IsComplete := by
  have hsteps : ({ p with steps := p.steps + 1 } : Performance).IsComplete := hp
  have harrive : (({ p with steps := p.steps + 1 } : Performance).arrive p.currentBeat? b).IsComplete := by
    rw [hsteps.arrive_eq]
    exact hsteps.foldl_apply _
  exact harrive

theorem reset (hp : p.IsComplete) (position? : Option Position) : (p.reset position?).IsComplete := by
  refine ⟨by simpa [Performance.reset] using hp.1, ?_⟩
  intro b hb
  obtain ⟨j, hj⟩ := hp.2 b (by simpa [Performance.reset] using hb)
  exact ⟨j.reset, by simp [Performance.reset, hj]⟩

/-- A step of a performance whose jumps are all set up: an error changes at most the number of steps, the
end only the cursor, and a beat is visited. -/
theorem next_eq (hp : p.IsComplete) :
    p.next =
      if p.cursor = .finished then (.error .finished, p)
      else match p.destination? with
        | none => (.ok none, { p with cursor := .finished })
        | some b =>
          if p.maxSteps ≤ p.steps then (.error (.stepLimit p.maxSteps), { p with steps := p.steps + 1 })
          else (.ok (some b), p.visit b) := by
  have hgo (from? to? : Option BeatId) (hfrom : from? = p.currentBeat?) :
      Performance.next.go from? to? p = match to? with
        | none => (.ok none, { p with cursor := .finished })
        | some b =>
          if p.maxSteps ≤ p.steps then (.error (.stepLimit p.maxSteps), { p with steps := p.steps + 1 })
          else (.ok (some b), p.visit b) := by
    cases to? with
    | none => rfl
    | some b => simp only [Performance.next.go, Performance.visit, hfrom, Nat.lt_succ_iff]
  rw [Performance.next]
  cases hcursor : p.cursor with
  | notStarted => simpa [destination?, hcursor] using hgo none _ (by simp [currentBeat?, hcursor])
  | «at» b =>
    have hleave : (p.target? b).2 = p := by
      rcases target?_snd p b with h | h
      · exact h
      · rw [h, hp.createJump_eq]
    simp only [hleave, reduceCtorEq, if_false]
    simpa [destination?, hcursor] using hgo (some b) (p.target? b).1 (by simp [currentBeat?, hcursor])
  | finished => rfl

/-- A step visits a beat, or it changes at most the cursor and the number of steps. -/
theorem next_cases (hp : p.IsComplete) :
    (∃ b, p.next = (.ok (some b), p.visit b)) ∨
      (∀ b, p.next.1 ≠ .ok (some b)) ∧ ∃ cursor steps, p.next.2 = { p with cursor, steps } := by
  rw [hp.next_eq]
  by_cases hfinished : p.cursor = .finished
  · rw [if_pos hfinished]
    exact .inr ⟨nofun, p.cursor, p.steps, rfl⟩
  · rw [if_neg hfinished]
    cases p.destination? with
    | none => exact .inr ⟨nofun, .finished, p.steps, rfl⟩
    | some b =>
      by_cases hreached : p.maxSteps ≤ p.steps
      · simp only [if_pos hreached]
        exact .inr ⟨nofun, p.cursor, p.steps + 1, rfl⟩
      · simp only [if_neg hreached]
        exact .inl ⟨b, rfl⟩

theorem next (hp : p.IsComplete) : p.next.2.IsComplete := by
  rcases hp.next_cases with ⟨b, hb⟩ | ⟨-, cursor, steps, hstay⟩
  · rw [hb]
    exact hp.visit b
  · rw [hstay]
    exact hp

/-- The next beat is performed if the flow has one and the limit is not reached. -/
theorem next_eq_beat_iff (hp : p.IsComplete) {b : BeatId} :
    p.next = (.ok (some b), q) ↔ p.destination? = some b ∧ p.steps < p.maxSteps ∧ q = p.visit b := by
  rw [hp.next_eq]
  by_cases hcursor : p.cursor = .finished
  · simp [hcursor, destination?]
  · rw [if_neg hcursor]
    cases p.destination? with
    | none => simp
    | some c =>
      by_cases hlimit : p.maxSteps ≤ p.steps
      · simp [hlimit, Nat.not_lt.2 hlimit]
      · simp only [hlimit, if_false, Prod.mk.injEq, Except.ok.injEq, Option.some.injEq,
          Nat.lt_of_not_le hlimit, true_and]
        constructor
        · rintro ⟨rfl, rfl⟩
          exact ⟨rfl, rfl⟩
        · rintro ⟨rfl, rfl⟩
          exact ⟨rfl, rfl⟩

/-- The performance ends if the flow has no next beat, whatever the limit. -/
theorem next_eq_end_iff (hp : p.IsComplete) :
    p.next.1 = .ok none ↔ p.cursor ≠ .finished ∧ p.destination? = none := by
  rw [hp.next_eq]
  by_cases hcursor : p.cursor = .finished
  · simp [hcursor]
  · rw [if_neg hcursor]
    cases p.destination? with
    | none => simp [hcursor]
    | some b =>
      simp only [reduceCtorEq, and_false, iff_false]
      split <;> simp

/-- On its way a performance fails by the limit only. -/
theorem next_error (hp : p.IsComplete) (hcursor : p.cursor ≠ .finished) {e : Error} (h : p.next.1 = .error e) :
    e = .stepLimit p.maxSteps := by
  rw [hp.next_eq, if_neg hcursor] at h
  cases hdestination : p.destination? with
  | none => simp [hdestination] at h
  | some b =>
    simp only [hdestination] at h
    split at h
    · exact (Except.error.inj h).symm
    · cases h

/-- A step fails by the limit if the flow goes on and the limit is reached. -/
theorem next_eq_limit_iff (hp : p.IsComplete) :
    p.next.1 = .error (.stepLimit p.maxSteps) ↔ p.destination?.isSome ∧ p.maxSteps ≤ p.steps := by
  rw [hp.next_eq]
  by_cases hcursor : p.cursor = .finished
  · simp [hcursor, destination?]
  · rw [if_neg hcursor]
    cases p.destination? with
    | none => simp
    | some b =>
      by_cases hlimit : p.maxSteps ≤ p.steps <;> simp [hlimit]

end IsComplete

end Gamelan.Performance
