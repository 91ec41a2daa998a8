import Gamelan.Ramp
import Mathlib.Algebra.Group.Nat.Defs
import Mathlib.Data.Int.Basic

namespace Gamelan

/-- The values of both quantities are small whole numbers. -/
theorem Quantity.bounds_of_accepts {quantity : Quantity} {v : Int32} (h : quantity.accepts v) :
    0 ≤ v.toInt ∧ v.toInt ≤ 1000 := by
  cases quantity with
  | tempo =>
    have hrange : minTempo ≤ v ∧ v ≤ maxTempo := by simpa [accepts, isTempo] using h
    have hlow : (4 : Int) ≤ v.toInt := Int32.le_iff_toInt_le.1 hrange.1
    have hhigh : v.toInt ≤ (1000 : Int) := Int32.le_iff_toInt_le.1 hrange.2
    omega
  | dynamics =>
    have hrange : 0 ≤ v ∧ v ≤ 127 := by simpa [accepts, isVelocity] using h
    have hlow : (0 : Int) ≤ v.toInt := Int32.le_iff_toInt_le.1 hrange.1
    have hhigh : v.toInt ≤ (127 : Int) := Int32.le_iff_toInt_le.1 hrange.2
    omega

/-- A range has no gaps. -/
theorem Quantity.accepts_of_le {quantity : Quantity} {low v high : Int32} (hlow : quantity.accepts low)
    (hhigh : quantity.accepts high) (hle : low ≤ v) (hge : v ≤ high) : quantity.accepts v := by
  cases quantity with
  | tempo =>
    simp only [accepts, isTempo, Bool.and_eq_true, decide_eq_true_eq] at hlow hhigh ⊢
    exact ⟨Int32.le_trans hlow.1 hle, Int32.le_trans hge hhigh.2⟩
  | dynamics =>
    simp only [accepts, isVelocity, Bool.and_eq_true, decide_eq_true_eq] at hlow hhigh ⊢
    exact ⟨Int32.le_trans hlow.1 hle, Int32.le_trans hge hhigh.2⟩

/-- Whether a value moves towards a target on a beat: where it ends lies between its beginning and the target, both
included. -/
def Span.LeadsTo (span : Span) (target : Int32) : Prop :=
  span.start ≤ span.stop ∧ span.stop ≤ target ∨ target ≤ span.stop ∧ span.stop ≤ span.start

/-- A value that does not move leads anywhere. -/
theorem Span.leadsTo_of_steady {span : Span} (h : span.start = span.stop) (target : Int32) : span.LeadsTo target := by
  rcases Int32.le_total span.stop target with hle | hle
  · exact .inl ⟨h ▸ Int32.le_refl _, hle⟩
  · exact .inr ⟨hle, h ▸ Int32.le_refl _⟩

theorem Quantity.accepts_stop {quantity : Quantity} {span : Span} {target : Int32} (h : span.LeadsTo target)
    (hstart : quantity.accepts span.start) (htarget : quantity.accepts target) : quantity.accepts span.stop := by
  rcases h with ⟨hstop, hle⟩ | ⟨hle, hstop⟩
  · exact accepts_of_le hstart htarget hstop hle
  · exact accepts_of_le htarget hstart hle hstop

namespace Ramp

variable {quantity : Quantity} {target : Int32} {length : UInt32} {s : Status}

/-- The beats that are left for a share of the way, the one of this share included. -/
def Status.left (s : Status) (length : UInt32) : Int32 := (length - (s.step + 1) + 1).toInt32

/-- The operations that take a share of the way that is left give what they give on whole numbers without bounds, and
the divisor is not zero. -/
structure Status.ShareIsExact (s : Status) (target : Int32) (length : UInt32) : Prop where
  difference : (length - (s.step + 1)).toNat = length.toNat - (s.step.toNat + 1)
  successor : (length - (s.step + 1) + 1).toNat = length.toNat - s.step.toNat
  left : (s.left length).toInt = length.toNat - s.step.toNat
  divisor : 0 < (s.left length).toInt
  way : (target - s.span.stop).toInt = target.toInt - s.span.stop.toInt
  share : ((target - s.span.stop) / s.left length).toInt =
    (target.toInt - s.span.stop.toInt).tdiv (length.toNat - s.step.toNat)
  stop : (s.span.stop + (target - s.span.stop) / s.left length).toInt =
    s.span.stop.toInt + (target.toInt - s.span.stop.toInt).tdiv (length.toNat - s.step.toNat)

/-- The same for all operations that take a ramp one beat on. -/
structure Status.NextIsExact (s : Status) (target : Int32) (length : UInt32) : Prop where
  step : (s.step + 1).toNat = s.step.toNat + 1
  share : s.step + 1 ≤ length → s.ShareIsExact target length

/-- A ramp on its way: its values are in range, it has taken no more beats than it can take, and it leads to its
target, where it is after the last of its beats. -/
structure Status.IsSound (quantity : Quantity) (target : Int32) (length : UInt32) (s : Status) : Prop where
  start : quantity.accepts s.span.start
  leads : s.span.LeadsTo target
  arrived : length ≤ s.step → s.span.stop = target
  passed : length < s.step → s.span.start = target
  step : s.step.toNat ≤ length.toNat + 1

/-- A share of a way lies between nothing and the whole way. -/
theorem share_between (way : Int) {left : Int} (hleft : 0 < left) :
    0 ≤ way.tdiv left ∧ way.tdiv left ≤ way ∨ way ≤ way.tdiv left ∧ way.tdiv left ≤ 0 := by
  rcases Int.le_total 0 way with hway | hway
  · exact .inl ⟨Int.tdiv_nonneg hway (Int.le_of_lt hleft), Int.tdiv_le_self left hway⟩
  · have hback := Int.neg_nonneg_of_nonpos hway
    have hlow := Int.tdiv_le_self left hback
    have hhigh := Int.tdiv_nonneg hback (Int.le_of_lt hleft)
    rw [Int.neg_tdiv] at hlow hhigh
    omega

theorem Status.shareIsExact (hlength : length.toNat < 2 ^ 31) (hstep : s.step + 1 ≤ length)
    (hnext : (s.step + 1).toNat = s.step.toNat + 1) (htarget : quantity.accepts target)
    (hstop : quantity.accepts s.span.stop) : s.ShareIsExact target length := by
  have hle := UInt32.le_iff_toNat_le.1 hstep
  have hdifference : (length - (s.step + 1)).toNat = length.toNat - (s.step.toNat + 1) := by
    rw [UInt32.toNat_sub_of_le _ _ hstep, hnext]
  have hsuccessor : (length - (s.step + 1) + 1).toNat = length.toNat - s.step.toNat := by
    rw [UInt32.toNat_add, hdifference, UInt32.toNat_one, Nat.mod_eq_of_lt (by omega)]
    omega
  have hleft : (s.left length).toInt = length.toNat - s.step.toNat := by
    rw [left, ← UInt32.ofNat_toNat (x := length - (s.step + 1) + 1), UInt32.toInt32_ofNat',
      Int32.toInt_ofNat_of_lt (by omega), hsuccessor]
    omega
  have hdivisor : 0 < (s.left length).toInt := by
    rw [hleft]
    omega
  obtain ⟨htarget0, htarget1⟩ := Quantity.bounds_of_accepts htarget
  obtain ⟨hstop0, hstop1⟩ := Quantity.bounds_of_accepts hstop
  have hway : (target - s.span.stop).toInt = target.toInt - s.span.stop.toInt := by
    rw [Int32.toInt_sub, Int.bmod_eq_of_le (by omega) (by omega)]
  have hshare : ((target - s.span.stop) / s.left length).toInt =
      (target.toInt - s.span.stop.toInt).tdiv (length.toNat - s.step.toNat) := by
    rw [Int32.toInt_div_of_ne_right, hway, hleft]
    rintro hminus
    rw [hminus] at hdivisor
    exact absurd hdivisor (by decide)
  refine ⟨hdifference, hsuccessor, hleft, hdivisor, hway, hshare, ?_⟩
  have hbetween := share_between (target.toInt - s.span.stop.toInt) (hleft ▸ hdivisor)
  rw [Int32.toInt_add, hshare, Int.bmod_eq_of_le (by omega) (by omega)]

namespace Status.IsSound

variable (hs : s.IsSound quantity target length)

include hs

/-- A ramp that is not complete has a beat more to take at most. -/
theorem step_le (hgoing : s.isComplete length = false) : s.step ≤ length := by
  by_contra hlt
  have hover := UInt32.not_le.1 hlt
  have harrived := hs.arrived (UInt32.le_of_lt hover)
  simp [isComplete, UInt32.le_of_lt hover, hs.passed hover, harrived] at hgoing

variable (htarget : quantity.accepts target)

include htarget

theorem stop : quantity.accepts s.span.stop := Quantity.accepts_stop hs.leads hs.start htarget

/-- On a ramp that is not too long no operation overflows. -/
theorem nextIsExact (hlength : length.toNat < 2 ^ 31) : s.NextIsExact target length := by
  have hstep : (s.step + 1).toNat = s.step.toNat + 1 := by
    have hbound := hs.step
    rw [UInt32.toNat_add, UInt32.toNat_one, Nat.mod_eq_of_lt (by omega)]
  exact ⟨hstep, fun hle => shareIsExact hlength hle hstep htarget (hs.stop htarget)⟩

/-- One beat on, a ramp that is not complete begins where it has ended before, and goes on towards its target. -/
theorem next (hlength : length.toNat < 2 ^ 31) (hgoing : s.isComplete length = false) :
    (s.next target length).IsSound quantity target length ∧ (s.next target length).span.start = s.span.stop := by
  have hexact := hs.nextIsExact htarget hlength
  have hstep := UInt32.le_iff_toNat_le.1 (hs.step_le hgoing)
  rw [Status.next]
  by_cases hover : length < s.step + 1
  · -- The ramp has taken all its beats, so it is at its target already.
    have hlt := UInt32.lt_iff_toNat_lt.1 hover
    rw [hexact.step] at hlt
    have harrived := hs.arrived (UInt32.le_iff_toNat_le.2 (by omega))
    rw [if_pos hover]
    refine ⟨⟨htarget, Span.leadsTo_of_steady rfl target, fun _ => rfl, fun _ => rfl, ?_⟩, harrived.symm⟩
    rw [hexact.step]
    omega
  · have hle := UInt32.not_lt.1 hover
    have hshare := hexact.share hle
    rw [if_neg hover]
    refine ⟨⟨hs.stop htarget, ?_, ?_, fun hlt => absurd hlt hover, ?_⟩, rfl⟩
    · have hbetween := share_between (target.toInt - s.span.stop.toInt) (hshare.left ▸ hshare.divisor)
      have hstop := hshare.stop
      simp only [Span.LeadsTo, Int32.le_iff_toInt_le]
      change _ ∧ _ ∨ _ ∧ _
      rw [left] at hstop
      omega
    · -- On the last beat one share is left, which is all of the way.
      intro hlast
      have hstop := hshare.stop
      have hone : (length.toNat : Int) - s.step.toNat = 1 := by
        have heq := Nat.le_antisymm (UInt32.le_iff_toNat_le.1 hlast) (UInt32.le_iff_toNat_le.1 hle)
        rw [hexact.step] at heq
        omega
      rw [hone, Int.tdiv_one] at hstop
      refine Int32.toInt_inj.1 ?_
      rw [left] at hstop
      rw [hstop]
      omega
    · rw [hexact.step]
      omega

end Status.IsSound

/-- A ramp with a target in range and a length that is a count of beats, on its way if it is running. -/
structure IsSound (quantity : Quantity) (r : Ramp) : Prop where
  target : quantity.accepts r.target
  length : r.length.toNat < 2 ^ 31
  status : ∀ s, r.status? = some s → s.IsSound quantity r.target r.length

namespace IsSound

variable {r : Ramp} (hr : r.IsSound quantity)

include hr

theorem clear : r.clear.IsSound quantity := ⟨hr.target, hr.length, nofun⟩

theorem start {initial : Int32} (hinitial : quantity.accepts initial) : (r.start initial).IsSound quantity := by
  refine ⟨hr.target, hr.length, fun s hs => ?_⟩
  obtain rfl := Option.some.inj hs
  refine ⟨?_, Span.leadsTo_of_steady rfl _, fun hlength => ?_, fun hlength => ?_, Nat.zero_le _⟩
  · dsimp only
    split
    · exact hr.target
    · exact hinitial
  · exact if_pos (UInt32.le_zero_iff.1 hlength)
  · exact absurd hlength UInt32.not_lt_zero

/-- On its next beat a running ramp begins where it has ended before. -/
theorem exists_next {s : Status} (hs : r.status? = some s) :
    ∃ t, r.next.status? = some t ∧ t.IsSound quantity r.target r.length ∧ t.span.start = s.span.stop := by
  have hsound := hr.status s hs
  rw [Ramp.next, hs]
  cases hcomplete : s.isComplete r.length with
  | true =>
    have hsteady : s.span.start = s.span.stop := by
      simp only [Status.isComplete, Bool.and_eq_true, beq_iff_eq] at hcomplete
      exact hcomplete.2
    exact ⟨s, by simp [hcomplete], hsound, hsteady⟩
  | false =>
    obtain ⟨hnext, hstart⟩ := hsound.next hr.target hr.length hcomplete
    exact ⟨s.next r.target r.length, by simp [hcomplete], hnext, hstart⟩

theorem next : r.next.IsSound quantity := by
  refine ⟨hr.target, hr.length, fun t ht => ?_⟩
  obtain ⟨s, hs, -⟩ := Option.map_eq_some_iff.1 ht
  obtain ⟨t', ht', hsound, -⟩ := hr.exists_next hs
  obtain rfl := Option.some.inj (ht.symm.trans ht')
  exact hsound

end IsSound

end Ramp

end Gamelan
