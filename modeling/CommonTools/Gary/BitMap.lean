import Mathlib.Algebra.BigOperators.Fin
import CommonTools.Simhash.HashSign

/-! # Two population counts

`GetBitMapCount` adds up the bytes of a word with a table, `hamming_dist` clears
one bit after the other. -/
namespace CommonTools.Gary
open CommonTools.Lib

def BYTE_COUNTS : List Nat :=
  [0, 1, 1, 2, 1, 2, 2, 3, 1, 2, 2, 3, 2, 3, 3, 4,
    1, 2, 2, 3, 2, 3, 3, 4, 2, 3, 3, 4, 3, 4, 4, 5,
    1, 2, 2, 3, 2, 3, 3, 4, 2, 3, 3, 4, 3, 4, 4, 5,
    2, 3, 3, 4, 3, 4, 4, 5, 3, 4, 4, 5, 4, 5, 5, 6,
    1, 2, 2, 3, 2, 3, 3, 4, 2, 3, 3, 4, 3, 4, 4, 5,
    2, 3, 3, 4, 3, 4, 4, 5, 3, 4, 4, 5, 4, 5, 5, 6,
    2, 3, 3, 4, 3, 4, 4, 5, 3, 4, 4, 5, 4, 5, 5, 6,
    3, 4, 4, 5, 4, 5, 5, 6, 4, 5, 5, 6, 5, 6, 6, 7,
    1, 2, 2, 3, 2, 3, 3, 4, 2, 3, 3, 4, 3, 4, 4, 5,
    2, 3, 3, 4, 3, 4, 4, 5, 3, 4, 4, 5, 4, 5, 5, 6,
    2, 3, 3, 4, 3, 4, 4, 5, 3, 4, 4, 5, 4, 5, 5, 6,
    3, 4, 4, 5, 4, 5, 5, 6, 4, 5, 5, 6, 5, 6, 6, 7,
    2, 3, 3, 4, 3, 4, 4, 5, 3, 4, 4, 5, 4, 5, 5, 6,
    3, 4, 4, 5, 4, 5, 5, 6, 4, 5, 5, 6, 5, 6, 6, 7,
    3, 4, 4, 5, 4, 5, 5, 6, 4, 5, 5, 6, 5, 6, 6, 7,
    4, 5, 5, 6, 5, 6, 6, 7, 5, 6, 6, 7, 6, 7, 7, 8]

/-- `GetBitMapCount`, over the eight bytes from the lowest on. -/
def getBitMapCount (bitMap : BitVec 64) : Option Nat :=
  (List.finRange 8).foldlM (fun udwCount i => do
    some (udwCount + (← BYTE_COUNTS[(bitMap.extractLsb' (8 * i.val) 8 &&& 0xFF).toNat]?))) 0

theorem byteCounts_eq : BYTE_COUNTS =
    (List.range 256).map fun n => ((List.range 8).map fun i => (n.testBit i).toNat).sum := by
  decide +kernel

theorem byteCounts_get (b : BitVec 8) :
    BYTE_COUNTS[(b &&& 0xFF).toNat]? = some (setBits b).card := by
  have hmask : b &&& 0xFF = b := BitVec.and_allOnes
  have hcard : (setBits b).card = ((List.range 8).map fun i => (b.toNat.testBit i).toNat).sum := by
    have hbit : ∀ i : Fin 8,
        (if b.getLsbD i then 1 else 0) = (b.toNat.testBit i).toNat := fun i => by
      rw [BitVec.testBit_toNat]
      cases b.getLsbD i <;> rfl
    rw [setBits, Finset.card_filter, Finset.sum_congr rfl fun i _ => hbit i,
      ← Finset.sum_range fun i => (b.toNat.testBit i).toNat]
    rfl
  rw [hmask, byteCounts_eq, hcard, List.getElem?_map, List.getElem?_range b.isLt, Option.map_some]

theorem foldlM_add {ι : Type} {f : ι → Option Nat} {g : ι → Nat} (h : ∀ i, f i = some (g i)) :
    ∀ (l : List ι) (n : Nat), l.foldlM (fun sum i => do some (sum + (← f i))) n =
      some (n + (l.map g).sum) := by
  intro l
  induction l with
  | nil =>
    intro _
    rfl
  | cons i l ih =>
    intro n
    simp only [List.foldlM_cons, h i, Option.bind_eq_bind, Option.bind_some]
    exact (ih (n + g i)).trans (by rw [List.map_cons, List.sum_cons, Nat.add_assoc])

theorem getBitMapCount_eq (bitMap : BitVec 64) :
    getBitMapCount bitMap = some (setBits bitMap).card := by
  rw [getBitMapCount, foldlM_add fun i => byteCounts_get _, Nat.zero_add, ← List.ofFn_eq_map,
    List.sum_ofFn]
  exact congrArg some (@card_setBits_blocks 8 8 bitMap).symm

/-- **The two counts agree, and they give a metric.** -/
theorem popcounts_agree (a b c : BitVec 64) :
    ∃ ab bc ac : Nat, Simhash.hammingDist a b = some ab ∧ Simhash.hammingDist b c = some bc ∧
      Simhash.hammingDist a c = some ac ∧
      ab = (Finset.univ.filter fun i : Fin 64 => a.getLsbD i ≠ b.getLsbD i).card ∧
      getBitMapCount (a ^^^ b) = some ab ∧ (ab = 0 ↔ a = b) ∧
      Simhash.hammingDist b a = some ab ∧ ac ≤ ab + bc ∧
      Simhash.hammingDist (a ^^^ c) (b ^^^ c) = some ab := by
  refine ⟨bitDist a b, bitDist b c, bitDist a c, Simhash.hammingDist_eq a b,
    Simhash.hammingDist_eq b c, Simhash.hammingDist_eq a c, rfl, ?_, bitDist_eq_zero, ?_,
    bitDist_triangle a b c, ?_⟩
  · rw [getBitMapCount_eq, card_setBits_xor]
  · rw [Simhash.hammingDist_eq, bitDist_comm]
  · rw [Simhash.hammingDist_eq, bitDist_xor_right]

end CommonTools.Gary
