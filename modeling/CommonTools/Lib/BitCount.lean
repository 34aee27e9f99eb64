import Mathlib.InformationTheory.Hamming
import Mathlib.Tactic.Common

/-! # Counting the bits in which two words differ

`clearCount` is the loop that clears the lowest set bit until none is left.
It counts `setBits`, and on an exclusive or that is the Hamming distance. -/
namespace CommonTools.Lib
open Finset

/-! ## The lowest set bit -/

/-- `n & (n - 1)` is `n` without one of its bits. -/
theorem exists_testBit_clear (n : Nat) (hn : n ≠ 0) :
    ∃ k, n.testBit k ∧ ∀ i, (n &&& (n - 1)).testBit i = (n.testBit i && decide (i ≠ k)) := by
  induction n using Nat.strong_induction_on with
  | _ n ih =>
    rcases Nat.mod_two_eq_zero_or_one n with hpar | hpar
    · -- an even number has its lowest bit where its half has it
      obtain ⟨k, hk, hclear⟩ := ih (n / 2) (by omega) (by omega)
      have hhalf : (n - 1) / 2 = n / 2 - 1 := by omega
      refine ⟨k + 1, by rwa [Nat.testBit_succ], fun i => ?_⟩
      cases i with
      | zero => simp [Nat.testBit_zero, hpar]
      | succ i =>
        have := hclear i
        rw [Nat.testBit_and] at this ⊢
        rw [Nat.testBit_succ, Nat.testBit_succ, hhalf, this]
        simp
    · have hhalf : (n - 1) / 2 = n / 2 := by omega
      refine ⟨0, by simp [Nat.testBit_zero, hpar], fun i => ?_⟩
      cases i with
      | zero => simp [Nat.testBit_zero, show (n - 1) % 2 = 0 by omega]
      | succ i =>
        rw [Nat.testBit_and, Nat.testBit_succ, Nat.testBit_succ, hhalf]
        simp

section Word
variable {w : Nat}

def setBits (v : BitVec w) : Finset (Fin w) := univ.filter fun i => v.getLsbD i

@[simp] theorem mem_setBits {v : BitVec w} {i : Fin w} : i ∈ setBits v ↔ v.getLsbD i := by
  simp [setBits]

theorem setBits_zero : setBits (0 : BitVec w) = ∅ := by
  ext i; simp

theorem card_setBits_clear {v : BitVec w} (hv : v ≠ 0) :
    (setBits (v &&& (v - 1))).card + 1 = (setBits v).card := by
  have hpos : v.toNat ≠ 0 := fun h => hv (BitVec.eq_of_toNat_eq (by simpa using h))
  have hw : 1 < 2 ^ w := by have := v.isLt; omega
  have hone : (1 : BitVec w).toNat = 1 := by
    rw [BitVec.ofNat_eq_ofNat, BitVec.toNat_ofNat, Nat.mod_eq_of_lt hw]
  have hsub : (v - 1).toNat = v.toNat - 1 := by
    rw [BitVec.toNat_sub_of_le (by rw [BitVec.le_def, hone]; omega), hone]
  obtain ⟨k, hk, hclear⟩ := exists_testBit_clear v.toNat hpos
  have hkw : k < w := by
    by_contra hge
    rw [Nat.testBit_lt_two_pow (Nat.lt_of_lt_of_le v.isLt
      (Nat.pow_le_pow_right (by decide) (by omega)))] at hk
    exact absurd hk (by decide)
  have herase : setBits (v &&& (v - 1)) = (setBits v).erase ⟨k, hkw⟩ := by
    ext i
    have hi := hclear i
    rw [← hsub, ← BitVec.toNat_and, BitVec.testBit_toNat, BitVec.testBit_toNat] at hi
    rw [mem_setBits, hi, mem_erase, mem_setBits]
    simp [Fin.ext_iff, and_comm]
  rw [herase]
  exact card_erase_add_one (mem_setBits.mpr (by rwa [BitVec.testBit_toNat] at hk))

/-- `while (val) { ++dist; val &= val - 1; }`; `none` when the steps do not
suffice. -/
def clearCount : Nat → BitVec w → Nat → Option Nat
  | n, val, dist =>
    if val = 0 then some dist
    else match n with
      | 0 => none
      | n + 1 => clearCount n (val &&& (val - 1)) (dist + 1)

theorem clearCount_eq {n : Nat} : ∀ {val : BitVec w} (dist : Nat), (setBits val).card ≤ n →
    clearCount n val dist = some (dist + (setBits val).card) := by
  induction n with
  | zero =>
    intro val dist hn
    have hval : val = 0 := by
      by_contra hne
      have := card_setBits_clear hne
      omega
    rw [clearCount, if_pos hval, hval, setBits_zero]
    rfl
  | succ n ih =>
    intro val dist hn
    rw [clearCount]
    split
    · rename_i hval
      rw [hval, setBits_zero]
      rfl
    · rename_i hne
      have := card_setBits_clear hne
      rw [ih (dist + 1) (by omega)]
      exact congrArg some (by omega)

/-! ## The distance -/

/-- The bits of a word as a function of the position. -/
def bitsOf (v : BitVec w) : Fin w → Bool := fun i => v.getLsbD i

/-- The number of positions in which two words differ. -/
def bitDist (a b : BitVec w) : Nat := hammingDist (bitsOf a) (bitsOf b)

theorem card_setBits_xor (a b : BitVec w) : (setBits (a ^^^ b)).card = bitDist a b := by
  unfold bitDist hammingDist
  congr 1
  ext i
  simp [bitsOf]

theorem bitDist_le (a b : BitVec w) : bitDist a b ≤ w := by
  have hle := @hammingDist_le_card_fintype (Fin w) (fun _ => Bool) _ _ (bitsOf a) (bitsOf b)
  rwa [Fintype.card_fin] at hle

/-- Words that differ in a block differ in a position of the block. -/
theorem exists_differing {a b : BitVec w} {lo len : Nat}
    (h : a.extractLsb' lo len ≠ b.extractLsb' lo len) :
    ∃ i ∈ setBits (a ^^^ b), lo ≤ i.val ∧ i.val < lo + len := by
  by_contra hno
  refine h (BitVec.eq_of_getLsbD_eq fun j hj => ?_)
  rw [BitVec.getLsbD_extractLsb', BitVec.getLsbD_extractLsb', decide_eq_true hj]
  by_cases hw : lo + j < w
  · by_contra hne
    refine hno ⟨⟨lo + j, hw⟩, ?_, by simp, by simpa using hj⟩
    rw [mem_setBits, BitVec.getLsbD_xor]
    simpa using hne
  · rw [BitVec.getLsbD_of_ge _ _ (by omega), BitVec.getLsbD_of_ge _ _ (by omega)]

/-! ## A metric -/

theorem bitDist_eq_zero {a b : BitVec w} : bitDist a b = 0 ↔ a = b := by
  rw [bitDist, hammingDist_eq_zero]
  refine ⟨fun h => BitVec.eq_of_getLsbD_eq fun i hi => congrFun h ⟨i, hi⟩, fun h => by rw [h]⟩

theorem bitDist_comm (a b : BitVec w) : bitDist a b = bitDist b a := hammingDist_comm _ _

theorem bitDist_triangle (a b c : BitVec w) : bitDist a c ≤ bitDist a b + bitDist b c :=
  hammingDist_triangle _ _ _

/-- Words that both change in the same bits keep their distance. -/
theorem bitDist_xor_right (a b c : BitVec w) : bitDist (a ^^^ c) (b ^^^ c) = bitDist a b := by
  rw [← card_setBits_xor, ← card_setBits_xor]
  congr 2
  rw [BitVec.xor_assoc, BitVec.xor_comm b c, ← BitVec.xor_assoc c c b, BitVec.xor_self,
    BitVec.zero_xor]

/-! ## Counting by blocks -/

/-- The bits of a word are those of its blocks. -/
theorem card_setBits_blocks {m n : Nat} (v : BitVec (m * n)) :
    (setBits v).card = ∑ i : Fin m, (setBits (v.extractLsb' (n * i) n)).card := by
  rw [setBits, card_filter, ← finProdFinEquiv.sum_comp, Fintype.sum_prod_type]
  refine sum_congr rfl fun i _ => ?_
  rw [setBits, card_filter]
  refine sum_congr rfl fun j _ => ?_
  rw [BitVec.getLsbD_extractLsb', decide_eq_true j.isLt, Bool.true_and, finProdFinEquiv_apply_val,
    Nat.add_comm]

end Word

end CommonTools.Lib
