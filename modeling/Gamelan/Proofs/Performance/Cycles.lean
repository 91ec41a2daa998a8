import Gamelan.Proofs.Performance.Arrival
import Gamelan.Proofs.Performance.Beginning
import Gamelan.Proofs.Performance.History
import Gamelan.Proofs.Performance.Passes

namespace Gamelan

namespace Counter

/-- A counter that stands within its cycle. -/
structure IsBounded (c : Counter) : Prop where
  cycle : 0 < c.cycle
  value : c.value ≤ c.cycle

variable {c : Counter}

theorem isBounded_of_valueAfter (hcycle : 0 < c.cycle) {n : Nat} (h : c.value.toNat = valueAfter c.cycle.toNat n) :
    c.IsBounded := by
  refine ⟨hcycle, UInt32.le_iff_toNat_le.2 ?_⟩
  rw [h]
  exact valueAfter_le (UInt32.lt_iff_toNat_lt.1 hcycle) n

theorem IsFresh.isBounded (h : c.IsFresh) : c.IsBounded := ⟨h.cycle, h.value ▸ UInt32.le_of_lt h.cycle⟩

namespace IsBounded

variable (h : c.IsBounded)

include h

theorem cycle_pos : 0 < c.cycle.toNat := UInt32.lt_iff_toNat_lt.1 h.cycle

theorem toNat_increment : c.increment.value.toNat = valueAfter c.cycle.toNat (c.value.toNat + 1) :=
  Counter.toNat_increment h.cycle_pos (valueAfter_of_le (UInt32.le_iff_toNat_le.1 h.value)).symm

theorem increment : c.increment.IsBounded := isBounded_of_valueAfter h.cycle h.toNat_increment

theorem set (n : UInt32) : (c.set n).IsBounded :=
  isBounded_of_valueAfter h.cycle (toNat_set h.cycle_pos n)

theorem reset : c.reset.IsBounded := ⟨h.cycle, UInt32.le_of_lt h.cycle⟩

theorem increment_value_ne_zero : c.increment.value ≠ 0 := by
  have hnext := h.toNat_increment
  intro hzero
  rw [hzero] at hnext
  exact Nat.succ_ne_zero _ (valueAfter_eq_zero_iff.1 hnext.symm)

theorem set_value_eq_zero_iff {n : UInt32} : (c.set n).value = 0 ↔ n = 0 := by
  rw [← UInt32.toNat_inj, toNat_set h.cycle_pos, ← UInt32.toNat_inj]
  exact valueAfter_eq_zero_iff

end IsBounded

end Counter

namespace Performance

/-- All counters stand within their cycles. -/
def IsBounded (p : Performance) : Prop := p.EachCounter Counter.IsBounded

variable {p : Performance}

theorem IsFresh.isBounded (hp : p.IsFresh) : p.IsBounded := hp.counters.imp fun _ hc => hc.isBounded

namespace IsBounded

theorem apply (hp : p.IsBounded) (u : Count) : (u.apply p).IsBounded := by
  cases u with
  | iteration n =>
    rw [Count.apply]
    cases hl : p.loops.get? n with
    | none => exact hp
    | some l => exact hp.setLoop n (hp.loops n l hl).increment
  | pass b => exact hp.modifyJump b fun j hj => hj.increment
  | adopted b n => exact hp.modifyJump b (f := (·.setCounter n)) fun j hj => hj.set n

theorem foldl_apply (hp : p.IsBounded) (us : List Count) : (us.foldl Count.apply p).IsBounded := by
  induction us generalizing p with
  | nil => exact hp
  | cons u us ih => exact ih (hp.apply u)

theorem visit (hcomplete : p.IsComplete) (hp : p.IsBounded) (b : BeatId) : (p.visit b).IsBounded := by
  have hcounted := hp.foldl_apply (p.counts p.currentBeat? b)
  refine ⟨fun c => ?_, fun n l hl => hcounted.loops n l ?_⟩
  · rw [hcomplete.visit_jump]
    exact hcounted.jumps c
  · rwa [hcomplete.visit_eq] at hl

theorem reset (hp : p.IsBounded) (position? : Option Position) : (p.reset position?).IsBounded := by
  refine ⟨fun b => ?_, fun n l hl => ?_⟩
  · rw [jump_reset]
    exact (hp.jumps b).reset
  · change (p.loops.mapValues Loop.reset).get? n = some l at hl
    rw [SortedMap.get?_mapValues] at hl
    obtain ⟨k, hk, rfl⟩ := Option.map_eq_some_iff.1 hl
    exact (hp.loops n k hk).reset

theorem next (hcomplete : p.IsComplete) (hp : p.IsBounded) : p.next.2.IsBounded := by
  rcases hcomplete.next_cases with ⟨b, hb⟩ | ⟨-, cursor, steps, hstay⟩
  · rw [hb]
    exact hp.visit hcomplete b
  · rw [hstay]
    exact ⟨hp.jumps, hp.loops⟩

end IsBounded

/-- Whatever has been asked of a performance, its jumps and loops are those that are set up, their counters stand
within their cycles, and so do the pass and the repetition of the current beat; the repetition is at least the first,
and without a loop it is no other. -/
theorem counters_within_cycles {s : Score} {settings : Settings} {a : Arrangement}
    (ha : s.arrange settings = .ok a) (calls : List Call) :
    let p := a.performance.after calls
    (∀ b, (p.jump b).reset = a.performance.jump b ∧ (p.jump b).counter.value ≤ (p.jump b).counter.cycle) ∧
      (∀ n, (p.loops.get? n).map Loop.reset = a.performance.loops.get? n ∧
        ∀ l, p.loops.get? n = some l → l.counter.value ≤ l.counter.cycle) ∧
      ∀ b, p.currentBeat? = some b →
        1 ≤ p.currentIteration ∧ p.currentIteration ≤ (p.loopAt? b).elim 1 (·.counter.cycle) ∧
          p.currentPass ≤ (p.jump b).counter.cycle := by
  intro p
  have hcomplete := Score.arrange_isComplete ha
  have hfresh := Score.arrange_isFresh ha
  obtain ⟨-, hbounded⟩ : p.IsComplete ∧ p.IsBounded :=
    after_invariant (I := fun p => p.IsComplete ∧ p.IsBounded)
      (fun p position? hp => ⟨hp.1.reset position?, hp.2.reset position?⟩)
      (fun p hp => ⟨hp.1.next, hp.2.next hp.1⟩) calls ⟨hcomplete, hfresh.isBounded⟩
  have hsame := hcomplete.reset_after calls none
  refine ⟨fun b => ⟨?_, (hbounded.jumps b).value⟩, fun n => ⟨?_, fun l hl => (hbounded.loops n l hl).value⟩, ?_⟩
  · exact (jump_reset_congr hsame b).trans (hfresh.jump_reset b)
  · exact (loops_reset_congr hsame n).trans (hfresh.loops_reset n)
  · intro b hb
    rw [currentIteration_eq hb, currentPass_eq hb, ← and_assoc]
    refine ⟨?_, (hbounded.jumps b).value⟩
    cases hl : p.loopAt? b with
    | none => exact ⟨UInt32.le_refl 1, UInt32.le_refl 1⟩
    | some l =>
      have hcounter := hbounded.loops _ l hl
      have hpos := UInt32.lt_iff_toNat_lt.1 hcounter.cycle
      have hvalue := UInt32.le_iff_toNat_le.1 hcounter.value
      rw [Option.elim_some, Option.elim_some, UInt32.le_iff_toNat_le, UInt32.le_iff_toNat_le, UInt32.toNat_max]
      exact ⟨Nat.le_max_right _ _, Nat.max_le.2 ⟨hvalue, hpos⟩⟩

/-- A gongan is entered at its third beat on pass 2, which the first beat does not have. -/
theorem counters_within_cycles_of_skipped_beat :
    let m : Manuscript := { gongans := [
      { directives := [.label "X" 1, .goto "M" none [1, 2] none], beats := [{}] },
      { directives := [.label "N" 2, .label "M" 3, .goto "N" (some 1) [1] (some 1)], beats := [{}, {}, {}] },
      { directives := [.loop 2, .goto "X" none [1] none], beats := [{}] }] }
    let calls : List Call := [.walk none, .reset (some "gangsa"), .next, .next, .next, .next, .next, .next]
    ∃ s a, m.toScore = .ok s ∧ s.arrange {} = .ok a ∧
      (a.performance.after calls).currentBeat? = some 3 ∧ (a.performance.after calls).currentPass = 2 ∧
      ((a.performance.after calls).jump 1).counter.cycle = 1 ∧
      (∀ b, ((a.performance.after calls).jump b).counter.value ≤ ((a.performance.after calls).jump b).counter.cycle) ∧
      1 ≤ (a.performance.after calls).currentIteration := by
  intro m calls
  have harrangement : ∃ s a, m.toScore = .ok s ∧ s.arrange {} = .ok a ∧
      (a.performance.after calls).currentBeat? = some 3 ∧ (a.performance.after calls).currentPass = 2 ∧
      ((a.performance.after calls).jump 1).counter.cycle = 1 :=
    Manuscript.exists_arrangement (by decide +kernel)
  obtain ⟨s, a, hs, ha, hcurrent, hpass, hcycle⟩ := harrangement
  obtain ⟨hjumps, -, hbeat⟩ := counters_within_cycles ha calls
  exact ⟨s, a, hs, ha, hcurrent, hpass, hcycle, fun b => (hjumps b).2, (hbeat 3 hcurrent).1⟩

end Performance

end Gamelan
