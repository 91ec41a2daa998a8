import Mathlib
import Gamelan.Proofs.Score.Notation

namespace Gamelan

open Float.Model Float.Model.UnpackedFloat

/-- A number has no minus sign. The one that stands for no number has no sign at all. -/
def Unsigned : UnpackedFloat → Prop
  | .notANumber => True
  | .infinity s | .zero s | .finite s .. => s = .positive

namespace Unsigned

theorem not_lt_zero {x : UnpackedFloat} (h : Unsigned x) (s : Sign) : x.compare (.zero s) ≠ some .lt := by
  cases x with
  | notANumber => nofun
  | infinity t | zero t | finite t m e hm =>
    obtain rfl : t = .positive := h
    nofun

theorem of_zero_lt {x : UnpackedFloat} {s : Sign} (h : (UnpackedFloat.zero s).compare x = some .lt) :
    Unsigned x := by
  cases x with
  | notANumber => trivial
  | infinity t | zero t | finite t m e hm => cases t <;> first | rfl | cases h

theorem round (spec : Format) (m : Nat) (e : Int) : Unsigned (UnpackedFloat.round spec .positive m e) := by
  simp only [UnpackedFloat.round, roundWithAccuracy]
  split <;> rfl

theorem normalize (spec : Format) (m : Nat) (e : Int) : Unsigned (UnpackedFloat.normalize spec m e .positive) := by
  rw [UnpackedFloat.normalize]
  split
  next hlt =>
    have := Int.compare_eq_lt.1 hlt
    omega
  · rfl
  · exact round spec _ e

theorem add (spec : Format) {x y : UnpackedFloat} (hx : Unsigned x) (hy : Unsigned y) :
    Unsigned (UnpackedFloat.add spec x y) := by
  cases x with
  | notANumber => cases y <;> trivial
  | infinity s =>
    obtain rfl : s = .positive := hx
    cases y with
    | notANumber | zero | finite => trivial
    | infinity t =>
      obtain rfl : t = .positive := hy
      rfl
  | zero s =>
    obtain rfl : s = .positive := hx
    cases y with
    | notANumber | infinity | finite => exact hy
    | zero t =>
      obtain rfl : t = .positive := hy
      rfl
  | finite s m e hm =>
    obtain rfl : s = .positive := hx
    cases y with
    | notANumber | infinity => exact hy
    | zero t => rfl
    | finite t m' e' hm' =>
      obtain rfl : t = .positive := hy
      exact normalize spec _ _

theorem unpackSign_pack {spec : Format} {x : UnpackedFloat} (h : Unsigned x) :
    unpackSign (pack spec x) = Sign.positive.toBitVec := by
  cases x with
  | notANumber => exact unpackSign_packComponents ..
  | infinity s | zero s =>
    obtain rfl : s = .positive := h
    exact unpackSign_packComponents ..
  | finite s m e hm =>
    obtain rfl : s = .positive := h
    rw [UnpackedFloat.pack]
    split
    · exact unpackSign_packComponents ..
    · split <;> exact unpackSign_packComponents ..

theorem unpack {spec : Format} {bits : BitVec spec.numBits} (h : unpackSign bits = Sign.positive.toBitVec) :
    Unsigned (UnpackedFloat.unpack spec bits) := by
  have hsign : Sign.ofBitVec (unpackSign bits) = .positive := by rw [h, Sign.ofBitVec_toBitVec]
  rw [UnpackedFloat.unpack]
  simp only [hsign]
  split
  · split <;> trivial
  · split
    · split <;> rfl
    · rfl

end Unsigned

/-- A sum of a number above zero and one without a minus sign is not below zero. -/
theorem not_add_lt_zero {x y : Float} (hx : 0 < x) (hy : Unsigned y.toModel.unpack) : ¬ x + y < 0 := by
  have hx : Unsigned x.toModel.unpack := .of_zero_lt (beq_iff_eq.1 (of_decide_eq_true hx))
  have hsum : Unsigned (x + y).toModel.unpack := .unpack (Unsigned.unpackSign_pack (hx.add _ hy))
  exact fun hlt => hsum.not_lt_zero .positive (beq_iff_eq.1 (of_decide_eq_true hlt))

namespace Manuscript

/-- No notes fit every beat that has a duration. -/
theorem checkNotes_nil {duration : Float} (h : isDuration duration) (gongan index : Nat) (position : Position) :
    checkNotes gongan index duration position [] = .ok () := by
  have hpositive : 0 < duration := of_decide_eq_true (Bool.and_eq_true_iff.1 h).2
  have htolerance : Unsigned tolerance.toModel.unpack := rfl
  exact if_neg (not_add_lt_zero hpositive htolerance)

end Manuscript

end Gamelan
