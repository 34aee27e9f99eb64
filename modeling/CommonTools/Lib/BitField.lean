import Mathlib.Algebra.Order.Ring.Nat
import Mathlib.Tactic.Common

/-! # Fields of a word

A field is a number of bits next to each other. Storing a value clears them first, and a
field that does not overlap keeps what it holds. -/
namespace CommonTools.Lib

variable {w : Nat}

/-- Ones at `width` places from `place` on. -/
def fieldMask (w place width : Nat) : BitVec w := ((1#w <<< width) - 1#w) <<< place

def getField (place width : Nat) (u : BitVec w) : BitVec w :=
  (u &&& fieldMask w place width) >>> place

/-- The bits of `v` go into the field as they are. -/
def setField (place width : Nat) (v u : BitVec w) : BitVec w :=
  (u &&& ~~~fieldMask w place width) ||| (v <<< place)

section
variable {place width place' width' i : Nat} {u v : BitVec w}

theorem getLsbD_fieldMask (hw : width < w) :
    (fieldMask w place width).getLsbD i = decide (i < w ∧ place ≤ i ∧ i < place + width) := by
  have hones : ((1#w <<< width) - 1#w).toNat = 2 ^ width - 1 := by
    have hlt : 2 ^ width < 2 ^ w := Nat.pow_lt_pow_right (by omega) hw
    have hpos : 0 < 2 ^ width := Nat.two_pow_pos width
    have hone : 1 % 2 ^ w = 1 := Nat.mod_eq_of_lt (by omega)
    have hshift : (1#w <<< width).toNat = 2 ^ width := by
      rw [BitVec.toNat_shiftLeft, BitVec.toNat_ofNat, hone, Nat.shiftLeft_eq, Nat.one_mul,
        Nat.mod_eq_of_lt hlt]
    rw [BitVec.toNat_sub, hshift, BitVec.toNat_ofNat, hone]
    rw [show 2 ^ w - 1 + 2 ^ width = 2 ^ width - 1 + 2 ^ w by omega, Nat.add_mod_right,
      Nat.mod_eq_of_lt (by omega)]
  rw [fieldMask, BitVec.getLsbD_shiftLeft, ← BitVec.testBit_toNat, hones,
    Nat.testBit_two_pow_sub_one, Bool.eq_iff_iff]
  simp only [Bool.and_eq_true, Bool.not_eq_true', decide_eq_true_eq, decide_eq_false_iff_not]
  omega

theorem getLsbD_of_lt (hv : v.toNat < 2 ^ width) (hi : width ≤ i) : v.getLsbD i = false := by
  rw [← BitVec.testBit_toNat]
  exact Nat.testBit_lt_two_pow (Nat.lt_of_lt_of_le hv (Nat.pow_le_pow_right (by omega) hi))

theorem getLsbD_getField (hw : place + width ≤ w) (hwidth : width < w) :
    (getField place width u).getLsbD i = (decide (i < width) && u.getLsbD (place + i)) := by
  rw [getField, BitVec.getLsbD_ushiftRight, BitVec.getLsbD_and, getLsbD_fieldMask hwidth,
    Bool.and_comm]
  congr 1
  simp only [decide_eq_decide]
  omega

theorem getLsbD_setField (hw : place + width ≤ w) (hwidth : width < w) (hv : v.toNat < 2 ^ width) :
    (setField place width v u).getLsbD i =
      if place ≤ i ∧ i < place + width then v.getLsbD (i - place) else u.getLsbD i := by
  rw [setField, BitVec.getLsbD_or, BitVec.getLsbD_and, BitVec.getLsbD_not,
    getLsbD_fieldMask hwidth, BitVec.getLsbD_shiftLeft]
  by_cases hiw : i < w
  · by_cases hlow : i < place
    · simp [hiw, hlow, Nat.not_le.mpr hlow]
    · by_cases hin : i < place + width
      · simp [hiw, hlow, hin, Nat.not_lt.mp hlow]
      · simp [hiw, hlow, hin, getLsbD_of_lt hv (show width ≤ i - place by omega)]
  · have hout : ¬ (place ≤ i ∧ i < place + width) := by omega
    simp [hiw, hout, BitVec.getLsbD_of_ge u i (Nat.not_lt.mp hiw)]

theorem getField_congr (hw : place + width ≤ w) (hwidth : width < w)
    (h : ∀ i, place ≤ i → i < place + width → u.getLsbD i = v.getLsbD i) :
    getField place width u = getField place width v := by
  refine BitVec.eq_of_getLsbD_eq fun i hi => ?_
  rw [getLsbD_getField hw hwidth, getLsbD_getField hw hwidth]
  by_cases hlt : i < width
  · rw [h (place + i) (by omega) (by omega)]
  · simp [hlt]

theorem getField_setField (hw : place + width ≤ w) (hwidth : width < w)
    (hv : v.toNat < 2 ^ width) : getField place width (setField place width v u) = v := by
  refine BitVec.eq_of_getLsbD_eq fun i hi => ?_
  rw [getLsbD_getField hw hwidth, getLsbD_setField hw hwidth hv]
  by_cases hlt : i < width
  · simp [hlt]
  · simp [hlt, getLsbD_of_lt hv (Nat.not_lt.mp hlt)]

/-- A field that does not overlap is left alone. -/
theorem getField_setField_of_disjoint (hw : place + width ≤ w) (hwidth : width < w)
    (hw' : place' + width' ≤ w) (hwidth' : width' < w) (hv : v.toNat < 2 ^ width)
    (h : place' + width' ≤ place ∨ place + width ≤ place') :
    getField place' width' (setField place width v u) = getField place' width' u := by
  refine getField_congr hw' hwidth' fun i hlow hhigh => ?_
  rw [getLsbD_setField hw hwidth hv, if_neg (by omega)]

end

end CommonTools.Lib
