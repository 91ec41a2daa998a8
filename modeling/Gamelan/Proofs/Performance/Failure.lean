import Gamelan.Proofs.Performance.History

namespace Gamelan.Performance

variable {p : Performance}

/-- Where the flow goes on does not depend on the limit. -/
theorem destination?_limit (p : Performance) (m n : Nat) :
    ({ p with maxSteps := m, steps := n } : Performance).destination? = p.destination? := by
  rw [destination?, destination?]
  cases p.cursor with
  | notStarted => rfl
  | «at» b =>
    simp only [target?_fst]
    rfl
  | finished => rfl

/-- Once it is finished, a performance stays as it is. -/
theorem after_next_of_finished (hcursor : p.cursor = .finished) (n : Nat) :
    p.after (List.replicate n .next) = p := by
  have hnext : p.next.2 = p := by rw [next, hcursor]
  induction n with
  | zero => rfl
  | succ n ih =>
    change p.next.2.after (List.replicate n .next) = p
    rw [hnext, ih]

namespace IsComplete

/-- A step fails behind the end, or where the flow goes on and the limit is reached. -/
theorem next_eq_error_iff (hp : p.IsComplete) {e : Error} :
    p.next.1 = .error e ↔ p.cursor = .finished ∧ e = .finished ∨
      p.destination?.isSome ∧ p.maxSteps ≤ p.steps ∧ e = .stepLimit p.maxSteps := by
  rw [hp.next_eq]
  by_cases hcursor : p.cursor = .finished
  · simp [hcursor, destination?, eq_comm]
  · rw [if_neg hcursor]
    cases p.destination? with
    | none => simp [hcursor]
    | some b =>
      by_cases hlimit : p.maxSteps ≤ p.steps
      · simp [hcursor, hlimit, eq_comm]
      · simp [hcursor, hlimit]

/-- A step that fails changes nothing but the number of steps. -/
theorem next_of_error (hp : p.IsComplete) {e : Error} (h : p.next.1 = .error e) :
    p.next.2 = { p with steps := p.next.2.steps } ∧ p.steps ≤ p.next.2.steps := by
  have hnext := hp.next_eq
  rcases hp.next_eq_error_iff.1 h with ⟨hcursor, -⟩ | ⟨hdestination, hlimit, -⟩
  · rw [if_pos hcursor] at hnext
    rw [hnext]
    exact ⟨rfl, Nat.le_refl _⟩
  · obtain ⟨b, hb⟩ := Option.isSome_iff_exists.1 hdestination
    have hcursor : p.cursor ≠ .finished := by
      intro hcursor
      simp [destination?, hcursor] at hb
    rw [if_neg hcursor, hb] at hnext
    simp only [if_pos hlimit] at hnext
    rw [hnext]
    exact ⟨rfl, Nat.le_succ _⟩

/-- At the end of the flow a step changes the cursor only. -/
theorem next_of_end (hp : p.IsComplete) (h : p.next.1 = .ok none) : p.next.2 = { p with cursor := .finished } := by
  obtain ⟨hcursor, hdestination⟩ := hp.next_eq_end_iff.1 h
  rw [hp.next_eq, if_neg hcursor, hdestination]

/-- What has failed once fails again and again: the error depends on the number of steps only by the limit, which they
do not come back to. -/
theorem after_next_of_error (hp : p.IsComplete) {e : Error} (h : p.next.1 = .error e) (n : Nat) :
    let q := p.after (List.replicate n .next)
    q.next.1 = .error e ∧ q = { p with steps := q.steps } := by
  induction n generalizing p with
  | zero => exact ⟨h, rfl⟩
  | succ n ih =>
    obtain ⟨hsame, hsteps⟩ := hp.next_of_error h
    have hagain : p.next.2.next.1 = .error e := by
      refine hp.next.next_eq_error_iff.2 ?_
      rw [hsame, destination?_limit]
      exact (hp.next_eq_error_iff.1 h).imp id fun ⟨hdestination, hlimit, he⟩ =>
        ⟨hdestination, Nat.le_trans hlimit hsteps, he⟩
    obtain ⟨herror, hrest⟩ := ih hp.next hagain
    exact ⟨herror, hrest.trans (congrArg (fun r : Performance =>
      { r with steps := (p.next.2.after (List.replicate n .next)).steps }) hsame)⟩

end IsComplete

/-- A step that fails changes nothing but the number of steps: the current beat, its pass and repetition, the position,
the values and all counters stay. The same error comes back with every further step until a reset. After the end of
the flow it is the error of a performance that is finished, and only the cursor has changed. A reset forgets all that,
so a walk is as if nothing had failed. -/
theorem failure_changes_nothing {s : Score} {settings : Settings} {a : Arrangement} (ha : s.arrange settings = .ok a)
    (calls : List Call) :
    let p := a.performance.after calls
    (∀ e, p.next.1 = .error e → ∀ n,
      let q := p.after (List.replicate n .next)
      q.next.1 = .error e ∧ q = { p with steps := q.steps } ∧
        ∀ position?, q.reset position? = p.reset position? ∧ q.walk position? = p.walk position?) ∧
    (p.next.1 = .ok none → ∀ n,
      let q := p.next.2.after (List.replicate n .next)
      q.next.1 = .error .finished ∧ q = { p with cursor := .finished } ∧
        ∀ position?, q.reset position? = p.reset position? ∧ q.walk position? = p.walk position?) := by
  intro p
  have hp : p.IsComplete := (Score.arrange_isComplete ha).after calls
  constructor
  · intro e he n q
    obtain ⟨herror, hsame⟩ := hp.after_next_of_error he n
    have hreset (position? : Option Position) : q.reset position? = p.reset position? := by
      rw [show q = _ from hsame]
      rfl
    exact ⟨herror, hsame, fun position? => ⟨hreset position?, walk_congr (hreset position?)⟩⟩
  · intro hend n q
    have hsame : q = { p with cursor := .finished } := by
      have hfinished := hp.next_of_end hend
      rw [← hfinished]
      exact after_next_of_finished (by rw [hfinished]) n
    have hreset (position? : Option Position) : q.reset position? = p.reset position? := by
      rw [hsame]
      rfl
    refine ⟨?_, hsame, fun position? => ⟨hreset position?, walk_congr (hreset position?)⟩⟩
    rw [hsame]
    rfl

/-- A flow that never ends, asked for three beats more than its limit allows. -/
theorem failure_changes_nothing_at_limit :
    let m : Manuscript := { gongans := [
      { directives := [.label "A" 1, .loop 2, .tempo 90 { beatCount := 2 }], beats := [{}, {}] },
      { directives := [.goto "A" none [] none], beats := [{}] }] }
    ∃ s a, m.toScore = .ok s ∧ s.arrange { maxSteps := 4 } = .ok a ∧
      let p := a.performance.after [.walk none, .reset (some "gangsa"), .next, .next, .next, .next]
      let q := p.after [.next, .next, .next]
      p.next.1 = .error (.stepLimit 4) ∧ q.next.1 = .error (.stepLimit 4) ∧ q.steps = 7 ∧
        q = { p with steps := q.steps } ∧ q.walk none = p.walk none := by
  intro m
  have harrangement : ∃ s a, m.toScore = .ok s ∧ s.arrange { maxSteps := 4 } = .ok a ∧
      let p := a.performance.after [.walk none, .reset (some "gangsa"), .next, .next, .next, .next]
      p.destination?.isSome ∧ p.maxSteps = 4 ∧ p.steps = 4 ∧ (p.after [.next, .next, .next]).steps = 7 :=
    Manuscript.exists_arrangement (by decide +kernel)
  obtain ⟨s, a, hs, ha, hdestination, hlimit, hsteps, hmore⟩ := harrangement
  have herror := ((Score.arrange_isComplete ha).after _).next_eq_error_iff.2
    (.inr ⟨hdestination, by rw [hlimit, hsteps], rfl⟩)
  rw [hlimit] at herror
  obtain ⟨hagain, hsame, hforgotten⟩ := (failure_changes_nothing ha _).1 _ herror 3
  exact ⟨s, a, hs, ha, herror, hagain, hmore, hsame, (hforgotten none).2⟩

end Gamelan.Performance
