import Gamelan.Proofs.Performance.Reached
import Mathlib.Data.List.Chain

namespace Gamelan

/-- Whether some beats come one after the other without an entry to a gongan behind one of its beats. -/
def Score.NeverSkips (s : Score) (b : BeatId) (bs : List BeatId) : Prop :=
  bs.IsChain fun c d => s.gonganOf c = s.gonganOf d ∨ b ∉ s.earlierBeats d

instance (s : Score) (b : BeatId) (bs : List BeatId) : Decidable (s.NeverSkips b bs) :=
  inferInstanceAs (Decidable (List.IsChain _ bs))

namespace Performance

variable {a p : Performance} {bs : List BeatId} {b c : BeatId}

namespace Reached

variable (h : Reached a bs p) (ha : a.IsArranged)

include h ha

/-- The next beat is an entry behind a beat, or skips nothing. -/
theorem neverSkips_concat_iff (hdestination : p.destination? = some c) : a.score.NeverSkips b (bs ++ [c]) ↔
    a.score.NeverSkips b bs ∧ ¬ (p.enters p.currentBeat? c ∧ b ∈ p.score.earlierBeats c) := by
  rw [Score.NeverSkips, List.isChain_append, Score.NeverSkips, enters, h.score ha.complete, h.currentBeat?_eq]
  refine and_congr_right fun _ => ?_
  cases hlast : bs.getLast? with
  | none =>
    -- The flow begins with the first beat of all, which has none in front of it.
    obtain rfl := List.getLast?_eq_none_iff.1 hlast
    obtain ⟨position?, hp⟩ := ha.complete.reached_iff.1 h
    obtain rfl := Option.some.inj hp
    obtain ⟨hsize, rfl⟩ := Score.firstBeat?_eq_some_iff.1 hdestination
    have hfirst : a.score.earlierBeats 0 = [] := by
      rw [ha.placed.earlierBeats_eq hsize, Nat.zero_sub]
      rfl
    simp [hfirst]
  | some d => simpa using Decidable.or_iff_not_imp_left

theorem neverSkips_of_last (hlast : a.score.lastBeatOf b = b) : a.score.NeverSkips b bs := by
  induction h with
  | start position? => exact .nil
  | visit h hdestination hroom ih =>
    refine (h.neverSkips_concat_iff ha hdestination).2 ⟨ih, fun hskips => ?_⟩
    rw [h.score ha.complete] at hskips
    exact ha.placed.not_mem_earlierBeats (h.destination?_lt ha hdestination) hlast hskips.2

/-- Without a loop, and as long as it is not skipped, a beat counts how often it is performed. -/
theorem pass_value (hloop : a.loopAt? b = none) (hskips : a.score.NeverSkips b bs) :
    (p.jump b).counter.value.toNat = Counter.valueAfter (a.jump b).counter.cycle.toNat (bs.count b) := by
  induction h with
  | start position? =>
    rw [Performance.jump_reset]
    rfl
  | @visit bs p c h hdestination hroom ih =>
    obtain ⟨hbefore, hstays⟩ := (h.neverSkips_concat_iff ha hdestination).1 hskips
    rw [h.jump_visit ha hdestination, List.count_append, List.count_singleton]
    by_cases hbc : b = c
    · subst hbc
      have hnone : (p.visit b).loopAt? b = none := by
        have hreset := (h.visit hdestination hroom).loopAt?_reset ha b
        rwa [hloop, Option.map_eq_none_iff] at hreset
      rw [if_pos rfl, hnone, if_pos Option.all_none, if_pos (beq_self_eq_true b), ← h.jump_cycle ha b]
      refine Counter.toNat_increment ((h.isBounded ha).jumps b).cycle_pos ?_
      rw [h.jump_cycle ha b]
      exact ih hbefore
    · rw [if_neg hbc, if_neg hstays, if_neg (by simpa using Ne.symm hbc), Nat.add_zero]
      exact ih hbefore

end Reached

/-- The pass of a beat in a gongan without a loop is the number of visits to it, which goes round in the cycle of its
jump, as long as the gongan is not entered behind the beat; to its last beat that cannot happen. What comes next is
the target of the jump for that pass, or else the one for other passes; without one the performance ends there. -/
theorem pass_is_number_of_visits {m : Manuscript} {s : Score} {settings : Settings} {a : Arrangement}
    (hs : m.toScore = .ok s) (ha : s.arrange settings = .ok a) (calls : List Call) (position? : Option Position)
    {before : List BeatId} {b : BeatId} {q : Performance}
    (hq : ((a.performance.after calls).reset position?).follow (before ++ [b]) = some q)
    (hloop : a.performance.loopAt? b = none) (hskips : s.lastBeatOf b = b ∨ s.NeverSkips b before) :
    q.currentPass.toNat = before.count b % (a.performance.jump b).counter.cycle.toNat + 1 ∧
      q.next.1 = match (a.performance.jump b).targetOn? q.currentPass with
        | none => .ok none
        | some t =>
          if before.length + 1 < settings.maxSteps then .ok (some t) else .error (.stepLimit settings.maxSteps) := by
  have harranged := Score.arrange_isArranged (Manuscript.toScore_isPlaced hs) ha
  obtain ⟨hscore, hlimit⟩ := Score.arrange_score ha
  rw [harranged.complete.reset_after] at hq
  have hreached := harranged.complete.reached_iff.2 ⟨position?, hq⟩
  obtain ⟨p, hp, hdestination, -⟩ := Reached.concat_iff.1 hreached
  have hcurrent : q.currentBeat? = some b := by rw [hreached.currentBeat?_eq, List.getLast?_concat]
  have hnever : a.performance.score.NeverSkips b (before ++ [b]) := by
    rcases hskips with hlast | hnever
    · exact hreached.neverSkips_of_last harranged (hscore ▸ hlast)
    · refine (hp.neverSkips_concat_iff harranged hdestination).2 ⟨hscore ▸ hnever, fun hskips => ?_⟩
      rw [hp.score harranged.complete] at hskips
      have hlt := harranged.placed.lt_of_mem_earlierBeats (hp.destination?_lt harranged hdestination) hskips.2
      exact Nat.lt_irrefl b hlt
  constructor
  · rw [currentPass_eq hcurrent, hreached.pass_value harranged hloop hnever, List.count_append,
      List.count_singleton_self, Counter.valueAfter, if_neg (Nat.succ_ne_zero _), Nat.add_sub_cancel]
  · have hqloop : q.loopAt? b = none := by
      have hreset := hreached.loopAt?_reset harranged b
      rwa [hloop, Option.map_eq_none_iff] at hreset
    obtain ⟨hsteps, hmax⟩ := hreached.steps harranged.complete
    rw [(hreached.isComplete harranged.complete).next_fst hreached.cursor_ne_finished,
      hreached.destination?_eq harranged hcurrent, hqloop, Option.bind_none, Option.none_or, hsteps, hmax, hlimit,
      List.length_append, List.length_singleton]
    cases (a.performance.jump b).targetOn? q.currentPass with
    | none => rfl
    | some t =>
      by_cases hroom : before.length + 1 < settings.maxSteps
      · simp only [if_pos hroom, if_neg (Nat.not_le.2 hroom)]
      · simp only [if_neg hroom, if_pos (Nat.not_lt.1 hroom)]

/-- The first of two beats is left for another gongan on its third pass, and on no other one. -/
theorem pass_is_number_of_visits_on_third :
    let m : Manuscript := { gongans := [
      { directives := [.label "A" 1, .goto "C" (some 1) [3] (some 3)], beats := [{}, {}] },
      { directives := [.goto "A" none [1, 2] none], beats := [{}] },
      { directives := [.label "C" 1, .loop 2], beats := [{}] }] }
    ∃ s a q, m.toScore = .ok s ∧ s.arrange {} = .ok a ∧
      ((a.performance.after [.next, .walk none]).reset none).follow ([0, 1, 2, 0, 1, 2] ++ [0]) = some q ∧
      a.performance.loopAt? 0 = none ∧ s.lastBeatOf 0 ≠ 0 ∧ s.NeverSkips 0 [0, 1, 2, 0, 1, 2] ∧
      q.currentPass.toNat = 3 ∧ q.next.1 = .ok (some 3) := by
  intro m
  have harrangement : ∃ s a, m.toScore = .ok s ∧ s.arrange {} = .ok a ∧
      ((((a.performance.after [.next, .walk none]).reset none).follow ([0, 1, 2, 0, 1, 2] ++ [0])).any
        (·.currentPass = 3)) ∧
      a.performance.loopAt? 0 = none ∧ s.lastBeatOf 0 ≠ 0 ∧ s.NeverSkips 0 [0, 1, 2, 0, 1, 2] ∧
      (a.performance.jump 0).counter.cycle = 3 ∧ (a.performance.jump 0).targetOn? 3 = some 3 :=
    Manuscript.exists_arrangement (by decide +kernel)
  obtain ⟨s, a, hs, ha, hrun, hloop, hlast, hskips, hcycle, htarget⟩ := harrangement
  obtain ⟨q, hq, hthird⟩ := (Option.any_eq_true _ _).1 hrun
  obtain ⟨hpass, hnext⟩ := pass_is_number_of_visits hs ha [.next, .walk none] none hq hloop (.inr hskips)
  rw [hcycle] at hpass
  rw [of_decide_eq_true hthird, htarget] at hnext
  exact ⟨s, a, q, hs, ha, hq, hloop, hlast, hskips, hpass, hnext⟩

end Performance

end Gamelan
