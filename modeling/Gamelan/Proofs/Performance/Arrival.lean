import Gamelan.Proofs.Performance.Returns

namespace Gamelan

theorem Jump.setCounter_setCounter (j : Jump) (n : UInt32) : (j.setCounter n).setCounter n = j.setCounter n := rfl

namespace Performance

variable {p : Performance} {b c : BeatId}

theorem currentPass_eq (h : p.currentBeat? = some b) : p.currentPass = (p.jump b).counter.value := by
  rw [currentPass, h, jump]
  cases hfind : p.findJump? b <;> simp [hfind, Jump.straight, Jump.ofCycle]

theorem currentIteration_eq (h : p.currentBeat? = some b) :
    p.currentIteration = (p.loopAt? b).elim 1 fun l => max l.counter.value 1 := by
  rw [currentIteration, h]
  cases hl : p.loopAt? b <;> simp [hl]

theorem currentIteration_eq_one_iff (h : p.currentBeat? = some b) :
    p.currentIteration = 1 ↔ (p.loopAt? b).all (·.counter.value ≤ 1) := by
  rw [currentIteration_eq h]
  cases p.loopAt? b with
  | none => simp
  | some l =>
    simp only [Option.elim_some, Option.all_some, decide_eq_true_eq]
    rw [← UInt32.toNat_inj, UInt32.toNat_max, UInt32.le_iff_toNat_le]
    change max l.counter.value.toNat 1 = 1 ↔ l.counter.value.toNat ≤ 1
    omega

theorem jump_countIteration (p : Performance) (c b : BeatId) : (p.countIteration c).jump b = p.jump b := by
  rw [countIteration]
  split
  · split <;> rfl
  · rfl

/-- Beats that take over a pass stand on it, as far as their cycles allow. -/
theorem jump_foldl_setCounter (p : Performance) (es : List BeatId) (n : UInt32) (b : BeatId) :
    (es.foldl (fun p e => p.modifyJump e (·.setCounter n)) p).jump b =
      if b ∈ es ∧ b < p.jumps.size then (p.jump b).setCounter n else p.jump b := by
  induction es generalizing p with
  | nil => simp
  | cons e es ih =>
    rw [List.foldl_cons, ih, size_modifyJump, jump_modifyJump]
    by_cases hbe : b = e
    · subst hbe
      by_cases hb : b < p.jumps.size <;> simp [hb, Jump.setCounter_setCounter]
    · simp [hbe]

theorem jump_foldl_adopted (p : Performance) {es : List BeatId} (hes : ∀ e ∈ es, e < p.jumps.size) (n : UInt32)
    (b : BeatId) : ((es.map (Count.adopted · n)).foldl Count.apply p).jump b =
      if b ∈ es then (p.jump b).setCounter n else p.jump b := by
  rw [List.foldl_map]
  refine (p.jump_foldl_setCounter es n b).trans (if_congr ?_ rfl rfl)
  exact and_iff_left_of_imp (hes b)

namespace IsComplete

variable (hp : p.IsComplete)

include hp

/-- A loop begins its next repetition on the arrival at the first beat of its gongan, and on no other one. -/
theorem loopAt?_visit (hs : p.score.IsPlaced) (hloops : p.HasOwnLoops) (c b : BeatId) : (p.visit c).loopAt? b =
    if c = p.score.firstBeatOf b then (p.loopAt? b).map Loop.increment else p.loopAt? b := by
  cases hb : p.loopAt? b with
  | none =>
    have hsome := hp.isSome_loopAt?_visit c b
    rw [hb, Option.isSome_none, Option.isSome_eq_false_iff, Option.isNone_iff_eq_none] at hsome
    rw [hsome, Option.map_none, ite_self]
  | some l =>
    obtain ⟨hto, hof⟩ := hloops.toBeat_eq hs hb
    rw [loopAt?, hp.visit_loops, hp.visit_score, countIteration]
    by_cases hc : c = p.score.firstBeatOf b
    · subst hc
      have hcl : p.loopAt? (p.score.firstBeatOf b) = some l := by rwa [loopAt?, hof]
      simp only [hcl, hto, if_true]
      rw [setLoop, hof, SortedMap.get?_insert_self, Option.map_some]
    · rw [if_neg hc]
      cases hcl : p.loopAt? c with
      | none => exact hb
      | some k =>
        simp only
        split
        next hk =>
          -- The loop of another gongan.
          rw [setLoop, SortedMap.get?_insert, if_neg]
          · exact hb
          · intro hsame
            rw [loopAt?, ← hsame] at hcl
            obtain rfl := Option.some.inj (hb.symm.trans hcl)
            exact hc (hk.symm.trans hto)
        · exact hb

/-- A beat is on a new pass in the first repetition. -/
theorem jump_countPass (hc : c < p.score.beats.size) (b : BeatId) : ((p.countIteration c).countPass c).jump b =
    if b = c ∧ ((p.visit c).loopAt? c).all (·.counter.value ≤ 1) then (p.jump b).increment else p.jump b := by
  have hloop : (p.countIteration c).loopAt? c = (p.visit c).loopAt? c := by
    rw [loopAt?, loopAt?, hp.visit_loops, hp.visit_score, countIteration_score]
  rw [countPass, hloop]
  split
  next hround =>
    have hsize : c < (p.countIteration c).jumps.size := by
      rwa [countIteration_eq_foldl, (hp.foldl_apply _).1, ← countIteration_eq_foldl, countIteration_score]
    rw [jump_modifyJump]
    by_cases hbc : b = c
    · rw [if_pos ⟨hbc, hsize⟩, if_pos ⟨hbc, hround⟩, hbc, jump_countIteration]
    · rw [if_neg fun h => hbc h.1, if_neg fun h => hbc h.1, jump_countIteration]
  next hround => rw [if_neg fun h => hround h.2, jump_countIteration]

/-- What an arrival does to the jumps: the beat itself is on a new pass in the first repetition, and where it is
entered from another gongan, the beats in front of it take over the pass that it is on then. -/
theorem jump_visit (hs : p.score.IsPlaced) (hc : c < p.score.beats.size) (b : BeatId) : (p.visit c).jump b =
    if b = c then if ((p.visit c).loopAt? c).all (·.counter.value ≤ 1) then (p.jump c).increment else p.jump c
    else if p.enters p.currentBeat? c ∧ b ∈ p.score.earlierBeats c then
      (p.jump b).setCounter ((p.visit c).jump c).counter.value
    else p.jump b := by
  have hcounted : ((p.countIteration c).countPass c).IsComplete := by
    rw [countPass_eq_foldl, countIteration_eq_foldl]
    exact (hp.foldl_apply _).foldl_apply _
  have hearlier (e : BeatId) (he : e ∈ p.score.earlierBeats c) : e < c := hs.lt_of_mem_earlierBeats hc he
  have hvisit (e : BeatId) : (p.visit c).jump e =
      if p.enters p.currentBeat? c ∧ e ∈ p.score.earlierBeats c then
        (((p.countIteration c).countPass c).jump e).setCounter (((p.countIteration c).countPass c).jump c).counter.value
      else ((p.countIteration c).countPass c).jump e := by
    rw [hp.visit_jump, counts, List.foldl_append, List.foldl_append, ← countIteration_eq_foldl, ← countPass_eq_foldl]
    cases p.enters p.currentBeat? c with
    | false => simp
    | true =>
      simp only [if_true, true_and]
      refine jump_foldl_adopted _ (fun d hd => ?_) _ e
      rw [hcounted.1, countPass_score, countIteration_score]
      exact Nat.lt_trans (hearlier d hd) hc
  have hself : (p.visit c).jump c = ((p.countIteration c).countPass c).jump c := by
    rw [hvisit, if_neg fun h => Nat.lt_irrefl c (hearlier c h.2)]
  by_cases hbc : b = c
  · rw [if_pos hbc, hbc, hself, hp.jump_countPass hc]
    simp only [true_and]
  · have hkept : ((p.countIteration c).countPass c).jump b = p.jump b := by
      rw [hp.jump_countPass hc, if_neg fun h => hbc h.1]
    rw [if_neg hbc, hvisit, hself, hkept]

end IsComplete

end Performance

end Gamelan
