import Gamelan.Proofs.Arrangement.Invariant
import Gamelan.Proofs.Ramp.Progress
import Mathlib.Logic.Function.Iterate
import Mathlib.Order.Monotone.Basic

namespace Gamelan.Ramp

/-- How far a ramp has come after `k` of its beats, if it has `distance` to go in `length` beats: every beat takes the
same whole share, and as many of the last beats as the division leaves over take one more. -/
def covered (distance length k : Nat) : Nat := distance / length * k + (k - (length - distance % length))

section Covered

variable {distance length k : Nat}

theorem covered_zero (distance length : Nat) : covered distance length 0 = 0 := by
  rw [covered, Nat.mul_zero, Nat.zero_add, Nat.zero_sub]

theorem covered_length (hlength : 0 < length) : covered distance length length = distance := by
  have hmod := Nat.mod_lt distance hlength
  rw [covered, Nat.sub_sub_self (Nat.le_of_lt hmod), Nat.div_add_mod']

/-- The next share is what a whole division of the way that is left by the beats that are left gives. -/
theorem covered_succ (hk : k < length) :
    covered distance length (k + 1) =
      covered distance length k + (distance - covered distance length k) / (length - k) := by
  have hmod := Nat.mod_lt distance (Nat.zero_lt_of_lt hk)
  have hsplit := Nat.div_add_mod' distance length
  obtain ⟨left, rfl⟩ := Nat.exists_eq_add_of_lt hk
  have hleft : k + left + 1 - k = left + 1 := by omega
  rw [covered, covered, hleft]
  generalize distance / (k + left + 1) = share at *
  generalize distance % (k + left + 1) = rest at *
  by_cases hrest : rest ≤ left
  · -- The beats that take one more are still to come.
    have hnone : k - (k + left + 1 - rest) = 0 := by omega
    have hnext : k + 1 - (k + left + 1 - rest) = 0 := by omega
    have hway : distance - share * k = (left + 1) * share + rest := by
      rw [← hsplit, Nat.mul_comm (left + 1), Nat.mul_add, Nat.mul_add, Nat.mul_add]
      omega
    simp only [hnone, hnext, Nat.add_zero]
    rw [hway, Nat.mul_add_div (Nat.succ_pos left), Nat.div_eq_of_lt (Nat.lt_succ_of_le hrest), Nat.mul_succ]
    rfl
  · -- All beats that are left take one more.
    have hway : distance - (share * k + (k - (k + left + 1 - rest))) = (left + 1) * (share + 1) := by
      rw [← hsplit, Nat.mul_add, Nat.mul_add, Nat.mul_add, Nat.add_mul, Nat.mul_comm left share]
      omega
    rw [hway, Nat.mul_div_cancel_left _ (Nat.succ_pos left), Nat.mul_succ]
    omega

/-- Two shares differ by one at most. -/
theorem covered_succ_cases (distance length k : Nat) :
    covered distance length (k + 1) = covered distance length k + distance / length ∨
      covered distance length (k + 1) = covered distance length k + (distance / length + 1) := by
  rw [covered, covered, Nat.mul_succ]
  generalize distance / length = share
  generalize length - distance % length = few
  omega

theorem covered_le (hk : k ≤ length) : covered distance length k ≤ distance := by
  rcases Nat.eq_zero_or_pos length with rfl | hlength
  · rw [Nat.le_zero.1 hk, covered_zero]
    exact Nat.zero_le _
  · have hmono : Monotone (covered distance length) := by
      refine monotone_nat_of_le_succ fun k => ?_
      rcases covered_succ_cases distance length k with h | h <;> exact h ▸ Nat.le_add_right _ _
    have hle := hmono hk
    rwa [covered_length hlength] at hle

end Covered

/-- The value of a ramp after `k` of its beats. -/
def course (initial target : Int) (length k : Nat) : Int :=
  initial + (target - initial).sign * covered (target - initial).natAbs length k

section Course

variable {initial target : Int} {length k : Nat}

theorem course_zero (initial target : Int) (length : Nat) : course initial target length 0 = initial := by
  rw [course, covered_zero, Int.natCast_zero, Int.mul_zero, Int.add_zero]

/-- A division that truncates treats both directions alike. -/
theorem sign_mul_tdiv (way : Int) (n m : Nat) : (way.sign * n).tdiv m = way.sign * (n / m : Nat) := by
  rcases Int.sign_trichotomy way with h | h | h
  · rw [h, Int.one_mul, Int.one_mul, Int.ofNat_tdiv]
  · rw [h, Int.zero_mul, Int.zero_mul, Int.zero_tdiv]
  · rw [h, Int.neg_one_mul, Int.neg_one_mul, Int.neg_tdiv, Int.ofNat_tdiv]

/-- The next value is what a share of the way that is left makes of this one. -/
theorem course_succ (hk : k < length) :
    course initial target length (k + 1) =
      course initial target length k + (target - course initial target length k).tdiv (length - k) := by
  have hle : covered (target - initial).natAbs length k ≤ (target - initial).natAbs := covered_le (Nat.le_of_lt hk)
  have hway : target - course initial target length k =
      (target - initial).sign * ((target - initial).natAbs - covered (target - initial).natAbs length k : Nat) := by
    rw [Int.natCast_sub hle, Int.mul_sub, Int.sign_mul_natAbs, course]
    omega
  rw [hway, ← Int.natCast_sub (Nat.le_of_lt hk), sign_mul_tdiv, course, course, covered_succ hk, Int.natCast_add,
    Int.mul_add]
  omega

/-- A value of a ramp that has `length` beats to go from one value to another moves by a share of the way. -/
theorem course_succ_cases (initial target : Int) (length k : Nat) :
    course initial target length (k + 1) = course initial target length k +
        (target - initial).sign * ((target - initial).natAbs / length : Nat) ∨
      course initial target length (k + 1) = course initial target length k +
        (target - initial).sign * ((target - initial).natAbs / length + 1 : Nat) := by
  rw [course, course]
  rcases covered_succ_cases (target - initial).natAbs length k with h | h
  · rw [h, Int.natCast_add, Int.mul_add, ← Int.add_assoc]
    exact .inl rfl
  · rw [h, Int.natCast_add, Int.mul_add, ← Int.add_assoc]
    exact .inr rfl

end Course

section Run

variable {quantity : Quantity} {target : Int32} {length : UInt32} {s : Status}

/-- While a ramp has beats to go, it is not complete, and a share of the way that is left makes the next value. -/
theorem Status.IsSound.next_of_lt (hs : s.IsSound quantity target length) (htarget : quantity.accepts target)
    (hlength : length.toNat < 2 ^ 31) (hlt : s.step < length) :
    s.isComplete length = false ∧ (s.next target length).step.toNat = s.step.toNat + 1 ∧
      (s.next target length).span.stop.toInt =
        s.span.stop.toInt + (target.toInt - s.span.stop.toInt).tdiv (length.toNat - s.step.toNat) := by
  have hexact := hs.nextIsExact htarget hlength
  have hle : s.step + 1 ≤ length := by
    rw [UInt32.le_iff_toNat_le, hexact.step]
    exact UInt32.lt_iff_toNat_lt.1 hlt
  refine ⟨by simp [isComplete, UInt32.not_le.2 hlt], ?_, ?_⟩
  · rw [Status.next, if_neg (UInt32.not_lt.2 hle), hexact.step]
  · rw [Status.next, if_neg (UInt32.not_lt.2 hle)]
    exact (hexact.share hle).stop

/-- A ramp that has no beats to go has none after the next beat. -/
theorem le_step_next (hs : s.IsSound quantity target length) (hlength : length.toNat < 2 ^ 31)
    (htarget : quantity.accepts target) (hge : length ≤ s.step) : length ≤ (s.next target length).step := by
  have hexact := hs.nextIsExact htarget hlength
  have hstep : (s.next target length).step = s.step + 1 := by
    rw [Status.next]
    split <;> rfl
  rw [hstep, UInt32.le_iff_toNat_le, hexact.step]
  exact Nat.le_succ_of_le (UInt32.le_iff_toNat_le.1 hge)

end Run

variable {quantity : Quantity} {r : Ramp} {initial : Int32}

/-- On each beat a running ramp is on its course until it has come to its target, where it stays. -/
theorem exists_iterate_next (hr : r.IsSound quantity) (hpos : 0 < r.length.toNat) (hinitial : quantity.accepts initial)
    (k : Nat) :
    ∃ s : Status, next^[k] (r.start initial) = { r with status? := some s } ∧
      s.IsSound quantity r.target r.length ∧
      (k ≤ r.length.toNat → s.step.toNat = k ∧
        s.span.stop.toInt = course initial.toInt r.target.toInt r.length.toNat k) ∧
      (r.length.toNat ≤ k → r.length ≤ s.step) := by
  induction k with
  | zero =>
    have hnot : r.length ≠ 0 := by
      rintro hzero
      rw [hzero] at hpos
      exact Nat.lt_irrefl 0 hpos
    refine ⟨_, rfl, (hr.start hinitial).status _ rfl, fun _ => ⟨rfl, ?_⟩, fun hle => ?_⟩
    · rw [course_zero]
      exact congrArg Int32.toInt (if_neg hnot)
    · exact absurd hle (Nat.not_le.2 hpos)
  | succ k ih =>
    obtain ⟨s, hiter, hs, hon, hpast⟩ := ih
    rw [Function.iterate_succ_apply', hiter]
    rcases Nat.lt_or_ge k r.length.toNat with hlt | hge
    · obtain ⟨hstep, hstop⟩ := hon (Nat.le_of_lt hlt)
      have hbefore : s.step < r.length := by
        rw [UInt32.lt_iff_toNat_lt, hstep]
        exact hlt
      obtain ⟨hgoing, hstep', hstop'⟩ := hs.next_of_lt hr.target hr.length hbefore
      have hsound := (hs.next hr.target hr.length hgoing).1
      refine ⟨s.next r.target r.length, by simp [next, hgoing], hsound, fun _ => ?_, ?_⟩
      · rw [hstep', hstop', hstop, hstep, course_succ hlt]
        exact ⟨rfl, rfl⟩
      · intro hle
        rw [UInt32.le_iff_toNat_le, hstep', hstep]
        exact hle
    · have hover := hpast hge
      refine ⟨if s.isComplete r.length then s else s.next r.target r.length, rfl, ?_, fun hle => ?_, fun _ => ?_⟩
      · split
        · exact hs
        next hgoing => exact (hs.next hr.target hr.length (by simpa using hgoing)).1
      · omega
      · split
        · exact hover
        · exact le_step_next hs hr.length hr.target hover

/-- On each of its beats a ramp goes on from one value of its course to the next, which is a whole share of the way or
one more, towards the target and never past it. It is at the target on the last of its beats and stays there. -/
theorem span_iterate_next {target length : Int32} (hr : make quantity target length = .ok r) (hlength : 1 ≤ length)
    (hinitial : quantity.accepts initial) (k : Nat) :
    ∃ span, (next^[k] (r.start initial)).span? = some span ∧
      (1 ≤ k → k ≤ length.toInt.toNat →
        span.start.toInt = course initial.toInt target.toInt length.toInt.toNat (k - 1) ∧
          span.stop.toInt = course initial.toInt target.toInt length.toInt.toNat k) ∧
      (length.toInt.toNat < k → span = ⟨target, target⟩) ∧
      (k = length.toInt.toNat → span.stop = target) ∧
      span.LeadsTo target ∧
      (1 ≤ k → k ≤ length.toInt.toNat →
        ∃ share ∈ [(target.toInt - initial.toInt).natAbs / length.toInt.toNat,
            (target.toInt - initial.toInt).natAbs / length.toInt.toNat + 1],
          span.stop.toInt = span.start.toInt + (target.toInt - initial.toInt).sign * (share : Nat)) := by
  have hsound := isSound_of_make hr
  have hle : (1 : Int) ≤ length.toInt := Int32.le_iff_toInt_le.1 hlength
  obtain rfl := eq_of_make hr
  have htoNat : length.toUInt32.toNat = length.toInt.toNat :=
    Int32.toNat_toUInt32_of_le (Int32.le_iff_toInt_le.2 (Int.le_trans (by decide) hle))
  have hpos : 0 < length.toInt.toNat := by omega
  rw [← htoNat] at hpos ⊢
  cases k with
  | zero =>
    obtain ⟨s, hiter, hs, -⟩ := exists_iterate_next hsound hpos hinitial 0
    exact ⟨s.span, congrArg span? hiter, nofun, fun h => absurd h (Nat.not_lt_zero _),
      fun h => absurd hpos (h ▸ Nat.lt_irrefl 0), hs.leads, nofun⟩
  | succ k =>
    obtain ⟨s, hiter, hs, hon, hpast⟩ := exists_iterate_next hsound hpos hinitial k
    obtain ⟨t, hiter', ht, hon', hpast'⟩ := exists_iterate_next hsound hpos hinitial (k + 1)
    have hstart : t.span.start = s.span.stop := by
      rw [Function.iterate_succ_apply', hiter] at hiter'
      have hrunning : IsSound quantity { quantity, target, length := length.toUInt32, status? := some s } :=
        ⟨hsound.target, hsound.length, fun _ h => Option.some.inj h ▸ hs⟩
      obtain ⟨t', ht', -, hstart⟩ := hrunning.exists_next rfl
      rw [hiter'] at ht'
      exact Option.some.inj ht' ▸ hstart
    have harrived (hge : length.toUInt32.toNat ≤ k + 1) : t.span.stop = target := ht.arrived (hpast' hge)
    have hvalues (hle : k + 1 ≤ length.toUInt32.toNat) :
        t.span.start.toInt = course initial.toInt target.toInt length.toUInt32.toNat k ∧
          t.span.stop.toInt = course initial.toInt target.toInt length.toUInt32.toNat (k + 1) := by
      rw [hstart]
      exact ⟨(hon (Nat.le_of_succ_le hle)).2, (hon' hle).2⟩
    refine ⟨t.span, congrArg span? hiter', fun _ => hvalues, fun hlt => ?_,
      fun hlast => harrived (Nat.le_of_eq hlast.symm), ht.leads, fun _ hle => ?_⟩
    · have hbefore : s.span.stop = target := hs.arrived (hpast (Nat.le_of_lt_succ hlt))
      have hspan : t.span = ⟨t.span.start, t.span.stop⟩ := rfl
      rw [hspan, hstart, hbefore, harrived (Nat.le_of_lt hlt)]
    · obtain ⟨hfrom, hto⟩ := hvalues hle
      rw [hfrom, hto]
      rcases course_succ_cases initial.toInt target.toInt length.toUInt32.toNat k with h | h
      · exact ⟨_, .head _, h⟩
      · exact ⟨_, .tail _ (.head _), h⟩

/-- From 13 to 3 in four beats, a ramp takes two shares of two and two of three. On its third beat it goes on from 9
to 6. -/
theorem span_iterate_next_of_uneven :
    ∃ r : Ramp, make .dynamics 3 4 = .ok r ∧ (1 : Int32) ≤ 4 ∧ Quantity.dynamics.accepts 13 ∧
      ∃ span, (next^[3] (r.start 13)).span? = some span ∧ span.start.toInt = 9 ∧ span.stop.toInt = 6 := by
  have hr : make .dynamics 3 4 = .ok { quantity := .dynamics, target := 3, length := 4 } := rfl
  have hlength : (1 : Int32) ≤ 4 := by decide
  have hinitial : Quantity.dynamics.accepts 13 := by decide
  obtain ⟨span, hspan, hvalues, -⟩ := span_iterate_next hr hlength hinitial 3
  obtain ⟨hstart, hstop⟩ := hvalues (by decide) (by decide)
  exact ⟨_, hr, hlength, hinitial, span, hspan, hstart, hstop⟩

end Gamelan.Ramp
