import Gamelan.Proofs.Performance.Visits

namespace Gamelan.Performance

/-- The beats that are on no pass are those that have been neither performed nor skipped. -/
def Tracks (a : Performance) (bs : List BeatId) (p : Performance) : Prop :=
  ∀ b, (p.jump b).counter.value = 0 ↔ b ∉ bs ∧ a.score.NeverSkips b bs

variable {a p q : Performance} {bs : List BeatId} {b c : BeatId}

namespace Reached

variable (h : Reached a bs p) (ha : a.IsArranged)

include h ha

/-- A beat is on a pass where it is performed in the first repetition, and where it has been on one before. -/
theorem one_le_currentPass_iff (hdestination : p.destination? = some b) : 1 ≤ (p.visit b).currentPass ↔
    (p.visit b).currentIteration = 1 ∨ (p.jump b).counter.value ≠ 0 := by
  have hone (n : UInt32) : 1 ≤ n ↔ n ≠ 0 := by
    rw [← UInt32.pos_iff_ne_zero, UInt32.le_iff_toNat_le, UInt32.lt_iff_toNat_lt]
    exact Iff.rfl
  rw [hone, currentPass_eq (b := b) rfl, currentIteration_eq_one_iff (b := b) rfl,
    h.jump_visit ha hdestination, if_pos rfl]
  split
  next hround =>
    have hnext : (p.jump b).increment.counter.value ≠ 0 := ((h.isBounded ha).jumps b).increment_value_ne_zero
    simp [hround, hnext]
  next hround => simp [hround]

/-- An arrival on a pass puts its beat on one, and those that it skips. -/
theorem tracks_visit (hdestination : p.destination? = some c) (htracks : Tracks a bs p)
    (hpass : 1 ≤ (p.visit c).currentPass) : Tracks a (bs ++ [c]) (p.visit c) := by
  have hvalue : ((p.visit c).jump c).counter.value ≠ 0 := by
    rw [currentPass_eq (b := c) rfl] at hpass
    intro hzero
    rw [hzero] at hpass
    exact absurd hpass (by decide)
  intro b
  rw [h.neverSkips_concat_iff ha hdestination]
  by_cases hbc : b = c
  · subst hbc
    simp [hvalue]
  · rw [h.jump_visit ha hdestination, if_neg hbc]
    by_cases hskips : p.enters p.currentBeat? c ∧ b ∈ p.score.earlierBeats c
    · have hzero := ((h.isBounded ha).jumps b).set_value_eq_zero_iff.not.2 hvalue
      rw [if_pos hskips]
      exact iff_of_false hzero fun hnot => hnot.2.2 hskips
    · rw [if_neg hskips, htracks b]
      simp [hbc, hskips]

/-- As long as all arrivals are on a pass, those beats are on none that have been neither performed nor skipped. -/
theorem tracks (hpasses : ∀ bs p b, Reached a bs p → p.destination? = some b → Tracks a bs p →
    p.steps < p.maxSteps → 1 ≤ (p.visit b).currentPass) : Tracks a bs p := by
  induction h with
  | start position? =>
    intro b
    rw [Performance.jump_reset]
    exact iff_of_true rfl ⟨List.not_mem_nil, .nil⟩
  | visit h hdestination hroom ih =>
    exact h.tracks_visit ha hdestination ih (hpasses _ _ _ h hdestination ih hroom)

omit ha in
/-- What is reached for a position is reached without one, as far as the flow is concerned. -/
theorem exists_follow (ha : a.IsComplete) : ∃ q, (a.reset none).follow bs = some q ∧ p.bare = q.bare := by
  obtain ⟨position?, hp⟩ := ha.reached_iff.1 h
  exact (ha.reset position?).follow_bare_congr (ha.reset none) (reset_bare_congr rfl position? none) hp

end Reached

/-- Whatever is asked of a performance, all beats are performed on a pass, from the first one on, if and only if beats
that are performed for the first time, and have not been skipped before, are performed in the first repetition. A loop
that is left on its way stands in a later one when its gongan is entered again. -/
theorem passes_begin_with_one_iff {m : Manuscript} {s : Score} {settings : Settings} {a : Arrangement}
    (hs : m.toScore = .ok s) (ha : s.arrange settings = .ok a) :
    (∀ calls b q, (a.performance.after calls).next = (.ok (some b), q) → 1 ≤ q.currentPass) ↔
      ∀ before b q, (a.performance.reset none).follow (before ++ [b]) = some q → b ∉ before →
        s.NeverSkips b before → q.currentIteration = 1 := by
  have harranged := Score.arrange_isArranged (Manuscript.toScore_isPlaced hs) ha
  have hcomplete := harranged.complete
  have hscore := (Score.arrange_score ha).1
  have hnext {b : BeatId} {q : Performance} := hcomplete.next_after_iff (b := b) (q := q) harranged.fresh.reset_eq
  constructor
  · intro hpasses before b q hq hb hskips
    obtain ⟨p, hp, hdestination, hroom, rfl⟩ := Reached.concat_iff.1 (hcomplete.reached_iff.2 ⟨none, hq⟩)
    have hvisit {bs : List BeatId} {p : Performance} {c : BeatId} (h : Reached a.performance bs p)
        (hdestination : p.destination? = some c) (hroom : p.steps < p.maxSteps) : 1 ≤ (p.visit c).currentPass := by
      obtain ⟨calls, hcalls⟩ := hnext.2 ⟨bs, h.visit hdestination hroom⟩
      exact hpasses calls c _ hcalls
    have htracks := hp.tracks harranged fun bs p c h hdestination _ hroom => hvisit h hdestination hroom
    have hzero := (htracks b).2 ⟨hb, hscore ▸ hskips⟩
    exact ((hp.one_le_currentPass_iff harranged hdestination).1 (hvisit hp hdestination hroom)).resolve_right
      fun hne => hne hzero
  · intro hfirst calls b q hq
    have hvisit : ∀ bs p c, Reached a.performance bs p → p.destination? = some c → Tracks a.performance bs p →
        p.steps < p.maxSteps → 1 ≤ (p.visit c).currentPass := by
      intro bs p c h hdestination htracks hroom
      refine (h.one_le_currentPass_iff harranged hdestination).2 ?_
      by_cases hnew : c ∉ bs ∧ a.performance.score.NeverSkips c bs
      · obtain ⟨r, hr, hbare⟩ := (h.visit hdestination hroom).exists_follow hcomplete
        have hiteration : (p.visit c).bare.currentIteration = r.bare.currentIteration := by rw [hbare]
        exact .inl (hiteration.trans (hfirst bs c r hr hnew.1 (hscore ▸ hnew.2)))
      · exact .inr fun hzero => hnew ((htracks c).1 hzero)
    obtain ⟨bs, hreached⟩ := hnext.1 ⟨calls, hq⟩
    obtain ⟨p, hp, hdestination, hroom, rfl⟩ := Reached.concat_iff.1 hreached
    exact hvisit bs p b hp hdestination (hp.tracks harranged hvisit) hroom

/-- A loop that is played to its end, and a way back into the middle of its gongan. -/
theorem passes_begin_with_one_of_full_loop :
    let m : Manuscript := { gongans := [
      { directives := [.label "A" 2, .loop 2], beats := [{}, {}] },
      { directives := [.goto "A" none [1] none], beats := [{}] }] }
    ∃ s a, m.toScore = .ok s ∧ s.arrange {} = .ok a ∧
      ∀ calls b q, (a.performance.after calls).next = (.ok (some b), q) → 1 ≤ q.currentPass := by
  intro m
  let flow : List BeatId := [0, 1, 0, 1, 2, 1, 2]
  have harrangement : ∃ s a, m.toScore = .ok s ∧ s.arrange {} = .ok a ∧
      (((a.performance.reset none).follow flow).any (·.next.1.toOption = some none)) ∧
      ∀ n < flow.length, ((a.performance.reset none).follow (flow.take (n + 1))).all fun q =>
        (q.currentBeat?.all (· ∈ flow.take n)) || q.currentIteration = 1 :=
    Manuscript.exists_arrangement (by decide +kernel)
  obtain ⟨s, a, hs, ha, hrun, hrounds⟩ := harrangement
  obtain ⟨r, hr, hend⟩ := (Option.any_eq_true _ _).1 hrun
  refine ⟨s, a, hs, ha, (passes_begin_with_one_iff hs ha).2 ?_⟩
  intro before b q hq hb _
  have hpart := isPrefix_of_follow hq hr (toOption_eq_some_iff.1 (of_decide_eq_true hend))
  have hlength : before.length + [b].length ≤ flow.length := List.length_append ▸ hpart.length_le
  have hbefore := List.prefix_iff_eq_take.1 ((List.prefix_append before [b]).trans hpart)
  have hround := hrounds before.length hlength
  have hcurrent := ((Score.arrange_isComplete ha).reset none).follow_concat hq
  rw [List.prefix_iff_eq_take, List.length_append] at hpart
  rw [← hbefore, ← List.length_singleton (a := b), ← hpart, hq, Option.all_some, hcurrent] at hround
  simpa [hb] using hround

/-- The second beat is reached for the first time when the loop, which the first beat has left for the third, has gone
on to its second round. -/
theorem passes_begin_with_zero_in_second_round :
    let m : Manuscript := { gongans := [
      { directives := [.loop 2, .label "B" 2, .label "C" 3, .goto "C" (some 1) [] none], beats := [{}, {}, {}] },
      { directives := [.goto "B" none [1] none], beats := [{}] }] }
    ∃ s a q, m.toScore = .ok s ∧ s.arrange {} = .ok a ∧
      (a.performance.after [.next, .next, .next, .next, .next]).next = (.ok (some 1), q) ∧ ¬ 1 ≤ q.currentPass := by
  intro m
  have harrangement : ∃ s a, m.toScore = .ok s ∧ s.arrange {} = .ok a ∧
      (a.performance.after [.next, .next, .next, .next, .next]).next.1.toOption = some (some 1) ∧
      ¬ 1 ≤ (a.performance.after [.next, .next, .next, .next, .next]).next.2.currentPass :=
    Manuscript.exists_arrangement (by decide +kernel)
  obtain ⟨s, a, hs, ha, hnext, hpass⟩ := harrangement
  exact ⟨s, a, _, hs, ha, Prod.ext (toOption_eq_some_iff.1 hnext) rfl, hpass⟩

end Gamelan.Performance
