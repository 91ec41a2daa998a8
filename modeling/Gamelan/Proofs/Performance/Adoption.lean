import Gamelan.Proofs.Performance.Complete
import Gamelan.Proofs.Performance.Cycles
import Mathlib.Logic.Function.Iterate

namespace Gamelan

namespace Counter

/-- An increment counts one up from the value or, at the end of the cycle, from zero, and never overflows. -/
theorem toNat_increment_eq (c : Counter) :
    c.increment.value.toNat = (if c.cycle ≤ c.value then 0 else c.value.toNat) + 1 := by
  rw [increment]
  by_cases hend : c.cycle ≤ c.value
  · rw [if_pos hend, if_pos hend]
    rfl
  · have hlt := UInt32.lt_iff_toNat_lt.1 (UInt32.not_le.1 hend)
    have hbound := c.cycle.toNat_lt
    rw [if_neg hend, if_neg hend, UInt32.toNat_add, UInt32.toNat_one, Nat.mod_eq_of_lt (by omega)]

/-- A cycle of zero counts like a cycle of one. -/
theorem increment_value_eq_max (c : Counter) :
    c.increment.value = ({ c with cycle := max c.cycle 1 } : Counter).increment.value := by
  rw [← UInt32.toNat_inj, toNat_increment_eq, toNat_increment_eq]
  simp only [UInt32.le_iff_toNat_le, UInt32.toNat_max, UInt32.toNat_one]
  split <;> split <;> omega

theorem toNat_max_one_pos (cycle : UInt32) : 0 < (max cycle 1).toNat := by
  rw [UInt32.toNat_max, UInt32.toNat_one]
  exact Nat.lt_of_lt_of_le Nat.one_pos (Nat.le_max_right _ _)

/-- A counter that counts up from zero stands where it has counted to, whatever its cycle. -/
theorem iterate_increment_reset (c : Counter) (n : Nat) :
    (increment^[n] c.reset).cycle = c.cycle ∧
      (increment^[n] c.reset).value.toNat = valueAfter (max c.cycle 1).toNat n := by
  induction n with
  | zero => exact ⟨rfl, rfl⟩
  | succ n ih =>
    obtain ⟨hcycle, hvalue⟩ := ih
    rw [Function.iterate_succ_apply']
    refine ⟨hcycle, ?_⟩
    rw [increment_value_eq_max, hcycle]
    exact toNat_increment (c := ⟨max c.cycle 1, (increment^[n] c.reset).value⟩) (toNat_max_one_pos c.cycle) hvalue

theorem toNat_set_eq (c : Counter) (n : UInt32) :
    (c.set n).value.toNat = valueAfter (max c.cycle 1).toNat n.toNat := by
  have hsame : c.set n = { ({ c with cycle := max c.cycle 1 } : Counter).set n with cycle := c.cycle } := by
    have hmax : max (max c.cycle 1) 1 = max c.cycle 1 := by
      rw [← UInt32.toNat_inj, UInt32.toNat_max, UInt32.toNat_max, Nat.max_assoc, Nat.max_self]
    simp only [set, hmax]
  rw [hsame]
  exact toNat_set (c := { c with cycle := max c.cycle 1 }) (toNat_max_one_pos c.cycle) n

/-- To set a counter is to count from zero. -/
theorem iterate_increment_reset_eq_set (c : Counter) (n : UInt32) : increment^[n.toNat] c.reset = c.set n := by
  obtain ⟨hcycle, hvalue⟩ := c.iterate_increment_reset n.toNat
  rw [← c.toNat_set_eq] at hvalue
  rw [show increment^[n.toNat] c.reset = ⟨c.cycle, (c.set n).value⟩ from
    congrArg₂ Counter.mk hcycle (UInt32.toNat_inj.1 hvalue)]
  rfl

end Counter

namespace Jump

/-- Increments a jump a number of times. The values that the increments give come with the jump at the end. -/
def countUp (j : Jump) : Nat → List UInt32 × Jump
  | 0 => ([], j)
  | n + 1 => (j.increment.counter.value :: (j.increment.countUp n).1, (j.increment.countUp n).2)

theorem countUp_eq (j : Jump) (n : Nat) :
    j.countUp n = ((List.range n).map fun k => (Counter.increment^[k + 1] j.counter).value,
      { j with counter := Counter.increment^[n] j.counter }) := by
  induction n generalizing j with
  | zero => rfl
  | succ n ih =>
    rw [countUp, ih, List.range_succ_eq_map, List.map_cons, List.map_map]
    rfl

/-- Counting goes on where it has ended before. -/
theorem countUp_add (j : Jump) (m n : Nat) : (j.countUp (m + n)).2 = ((j.countUp m).2.countUp n).2 := by
  simp only [countUp_eq]
  rw [Nat.add_comm, Function.iterate_add_apply]

theorem countUp_reset_snd (j : Jump) (n : UInt32) : (j.reset.countUp n.toNat).2 = j.setCounter n := by
  rw [countUp_eq, setCounter, ← Counter.iterate_increment_reset_eq_set]
  rfl

end Jump

namespace Performance

theorem jump_adoptPass (p : Performance) {b e : BeatId} (he : e ∈ p.score.earlierBeats b) (hsize : e < p.jumps.size) :
    (p.adoptPass b).jump e = (p.jump e).setCounter (p.jump b).counter.value := by
  rw [adoptPass, jump_foldl_setCounter, size_createJump, if_pos ⟨he, hsize⟩, jump_createJump]

/-- To set the pass of a jump to a number is to count to it from the beginning, and to go on counting from there is to
set it to a greater number. The pass runs from one to the cycle again and again, where a cycle of zero is one of one,
and no increment overflows. So a beat that takes over a pass where its gongan is entered behind it is on the pass that
it would have reached if it had been performed that often. -/
theorem adopted_pass_is_counted :
    (∀ j : Jump,
      (∀ n : UInt32, (j.reset.countUp n.toNat).2 = j.setCounter n ∧ (j.setCounter n).counter.value.toNat =
        if n = 0 then 0 else (n.toNat - 1) % max j.counter.cycle.toNat 1 + 1) ∧
      (∀ n : Nat, (j.reset.countUp n).1.map UInt32.toNat =
        (List.range n).map fun k => k % max j.counter.cycle.toNat 1 + 1) ∧
      (∀ n m : UInt32, n.toNat + m.toNat < 2 ^ 32 →
        ((j.setCounter n).countUp m.toNat).2 = j.setCounter (n + m)) ∧
      j.increment.counter.value.toNat =
        (if j.counter.cycle ≤ j.counter.value then 0 else j.counter.value.toNat) + 1) ∧
    ∀ (p : Performance) (b e : BeatId), e ∈ p.score.earlierBeats b → e < p.jumps.size →
      (p.adoptPass b).jump e = ((p.jump e).reset.countUp (p.jump b).counter.value.toNat).2 := by
  have hmax (j : Jump) : (max j.counter.cycle 1).toNat = max j.counter.cycle.toNat 1 :=
    UInt32.toNat_max _ _
  refine ⟨fun j => ⟨fun n => ⟨j.countUp_reset_snd n, ?_⟩, fun n => ?_, fun n m hfits => ?_, ?_⟩, ?_⟩
  · rw [Jump.setCounter, Counter.toNat_set_eq, hmax, Counter.valueAfter]
    exact if_congr (by rw [← UInt32.toNat_inj]; rfl) rfl rfl
  · rw [Jump.countUp_eq, List.map_map]
    refine List.map_congr_left fun k _ => ?_
    rw [Function.comp_apply, ← hmax]
    exact (j.counter.iterate_increment_reset (k + 1)).2
  · have hsum : (n + m).toNat = n.toNat + m.toNat := by rw [UInt32.toNat_add, Nat.mod_eq_of_lt hfits]
    rw [← j.countUp_reset_snd, ← j.countUp_reset_snd, hsum, Jump.countUp_add]
  · exact j.counter.toNat_increment_eq
  · intro p b e he hsize
    rw [Jump.countUp_reset_snd, p.jump_adoptPass he hsize]

/-- A gongan is entered at its third beat on the second pass; its first beat is of a cycle of zero or of one. Counting
goes on up to the largest number there is. -/
theorem adopted_pass_is_counted_at_limit :
    let m : Manuscript := { gongans := [
      { directives := [.label "N" 2, .goto "N" (some 1) [1] (some 1)], beats := [{}, {}, {}] }] }
    let j : Jump := { Jump.straight (some 3) with counter := ⟨0, 8⟩ }
    ((j.setCounter 4294967290).countUp 5).2 = j.setCounter 4294967295 ∧
      ∃ s a, m.toScore = .ok s ∧ s.arrange {} = .ok a ∧
        let p := a.performance.modifyJump 2 (·.setCounter 2)
        (p.jump 2).counter.value = 2 ∧ 0 ∈ p.score.earlierBeats 2 ∧ ((p.adoptPass 2).jump 0).counter.value = 1 ∧
          (p.adoptPass 2).jump 0 = ((p.jump 0).reset.countUp 2).2 := by
  intro m j
  refine ⟨(adopted_pass_is_counted.1 j).2.2.1 4294967290 5 (by decide), ?_⟩
  have harrangement : ∃ s a, m.toScore = .ok s ∧ s.arrange {} = .ok a ∧
      let p := a.performance.modifyJump 2 (·.setCounter 2)
      (p.jump 2).counter.value = 2 ∧ 0 ∈ p.score.earlierBeats 2 ∧ 0 < p.jumps.size ∧
        ((p.adoptPass 2).jump 0).counter.value = 1 :=
    Manuscript.exists_arrangement (by decide +kernel)
  obtain ⟨s, a, hs, ha, hpass, hearlier, hsize, hadopted⟩ := harrangement
  have hcounted := adopted_pass_is_counted.2 _ 2 0 hearlier hsize
  rw [hpass] at hcounted
  exact ⟨s, a, hs, ha, hpass, hearlier, hadopted, hcounted⟩

end Performance

end Gamelan
