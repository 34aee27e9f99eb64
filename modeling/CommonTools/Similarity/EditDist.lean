import CommonTools.Lib.Loop
import CommonTools.Lib.Subsequence

/-! # The edit distance of two texts

The distance counts words put in and taken out; a word in the place of another
counts as both. The cell `(i, j)` of the table is the distance of the first `i`
words and the first `j` words. -/
namespace CommonTools.Similarity
open CommonTools.Lib

/-- The cells of the table. A new table holds anything. -/
abbrev Table := Nat → Nat → Int

def Table.set (ptr : Table) (i j : Nat) (v : Int) : Table :=
  Function.update ptr i (Function.update (ptr i) j v)

/-- The function `min` of the source. -/
def minInt (i j : Int) : Int := if i > j then j else i

section
variable {α : Type} [DecidableEq α]

def fillCell (str1 str2 : List α) (i j : Nat) (ptr : Table) : Table :=
  let tmp := minInt (ptr i (j - 1) + 1) (ptr (i - 1) j + 1)
  let d := if str1[i - 1]? = str2[j - 1]? then 0 else 2
  ptr.set i j (minInt tmp (ptr (i - 1) (j - 1) + d))

/-- `EditDist::edit`, with what the new table holds. Lengths and costs are `int`s: the texts
have less than `2^31` words together. -/
def edit (new : Table) (str1 str2 : List α) : Int :=
  let max1 := str1.length
  let max2 := str2.length
  let ptr := loop 0 (max1 + 1) (fun i ptr => ptr.set i 0 i) new
  let ptr := loop 0 (max2 + 1) (fun j ptr => ptr.set 0 j j) ptr
  let ptr := loop 1 max1
    (fun i ptr => loop 1 max2 (fun j ptr => fillCell str1 str2 i j ptr) ptr) ptr
  ptr max1 max2

end

/-! ## Cells -/

theorem Table.set_same (ptr : Table) (i j : Nat) (v : Int) : ptr.set i j v i j = v := by
  rw [Table.set, Function.update_self, Function.update_self]

theorem Table.set_other (ptr : Table) {i j i' j' : Nat} (v : Int) (h : ¬ (i' = i ∧ j' = j)) :
    ptr.set i j v i' j' = ptr i' j' := by
  rw [Table.set]
  by_cases hi : i' = i
  · subst hi
    rw [Function.update_self, Function.update_of_ne fun hj => h ⟨rfl, hj⟩]
  · rw [Function.update_of_ne hi]

theorem minInt_eq (i j : Int) : minInt i j = min i j := by
  rw [minInt]
  split <;> omega

section
variable {α : Type} {A B : List α}

/-- The cell holds the distance that a longest common subsequence leaves. -/
def CellDone (A B : List α) (ptr : Table) (i j : Nat) : Prop :=
  ∃ n, IsLcs (A.take i) (B.take j) n ∧ ptr i j = i + j - 2 * n

theorem word_eq_iff {i j : Nat} (hi : i < A.length) (hj : j < B.length) :
    A[i]? = B[j]? ↔ A[i] = B[j] := by
  rw [List.getElem?_eq_getElem hi, List.getElem?_eq_getElem hj, Option.some.injEq]

theorem cellDone_fillCell [DecidableEq α] {ptr : Table} {i j : Nat} (hi : i < A.length)
    (hj : j < B.length) (hleft : CellDone A B ptr (i + 1) j) (hup : CellDone A B ptr i (j + 1))
    (hdiag : CellDone A B ptr i j) :
    CellDone A B (fillCell A B (i + 1) (j + 1) ptr) (i + 1) (j + 1) := by
  obtain ⟨left, hl, hleft⟩ := hleft
  obtain ⟨up, hu, hup⟩ := hup
  obtain ⟨diag, hd, hdiag⟩ := hdiag
  rw [← List.take_append_getElem hi] at hl
  rw [← List.take_append_getElem hj] at hu
  have hsnoc := hl.snoc hu hd
  rw [List.take_append_getElem hi, List.take_append_getElem hj] at hsnoc
  refine ⟨_, hsnoc, ?_⟩
  rw [fillCell, Table.set_same]
  simp only [Nat.add_sub_cancel, minInt_eq, hleft, hup, hdiag, word_eq_iff hi hj]
  split <;> omega

/-- Row by row the table is filled up to the cell `(i, j)`. -/
def Filled (A B : List α) (i j : Nat) (ptr : Table) : Prop :=
  ∀ i' j', i' ≤ A.length → j' ≤ B.length →
    i' = 0 ∨ j' = 0 ∨ i' < i ∨ (i' = i ∧ j' < j) → CellDone A B ptr i' j'

/-- What the first row and the first column hold after the first two loops. -/
theorem border_values (max1 max2 : Nat) (new : Table) :
    let ptr := loop 0 (max2 + 1) (fun j ptr => ptr.set 0 j j)
      (loop 0 (max1 + 1) (fun i ptr => ptr.set i 0 i) new)
    (∀ j ≤ max2, ptr 0 j = (j : Int)) ∧ ∀ i ≤ max1, ptr i 0 = (i : Int) := by
  have hcol : ∀ i < 0 + (max1 + 1),
      loop 0 (max1 + 1) (fun i ptr => ptr.set i 0 i) new i 0 = (i : Int) := by
    refine loop_invariant (fun k (ptr : Table) => ∀ i < k, ptr i 0 = (i : Int)) 0
      (fun i hi => absurd hi (Nat.not_lt_zero i)) fun k ptr _ _ ih i hi => ?_
    by_cases heq : i = k
    · subst heq
      exact Table.set_same _ _ _ _
    · rw [Table.set_other _ _ fun h => heq h.1]
      exact ih i (by omega)
  have hrow : (∀ j < 0 + (max2 + 1), loop 0 (max2 + 1) (fun j ptr => ptr.set 0 j j)
        (loop 0 (max1 + 1) (fun i ptr => ptr.set i 0 i) new) 0 j = (j : Int)) ∧
      ∀ i < 0 + (max1 + 1), loop 0 (max2 + 1) (fun j ptr => ptr.set 0 j j)
        (loop 0 (max1 + 1) (fun i ptr => ptr.set i 0 i) new) i 0 = (i : Int) := by
    refine loop_invariant (fun k (ptr : Table) => (∀ j < k, ptr 0 j = (j : Int)) ∧
        ∀ i < 0 + (max1 + 1), ptr i 0 = (i : Int)) 0
      ⟨fun j hj => absurd hj (Nat.not_lt_zero j), hcol⟩ fun k ptr _ _ ih => ?_
    refine ⟨fun j hj => ?_, fun i hi => ?_⟩
    · by_cases heq : j = k
      · subst heq
        exact Table.set_same _ _ _ _
      · rw [Table.set_other _ _ fun h => heq h.2]
        exact ih.1 j (by omega)
    · by_cases heq : i = 0 ∧ 0 = k
      · obtain ⟨rfl, rfl⟩ := heq
        exact Table.set_same _ _ _ _
      · rw [Table.set_other _ _ heq]
        exact ih.2 i hi
  exact ⟨fun j hj => hrow.1 j (by omega), fun i hi => hrow.2 i (by omega)⟩

theorem filled_border (A B : List α) (new : Table) :
    Filled A B 1 1 (loop 0 (B.length + 1) (fun j ptr => ptr.set 0 j j)
      (loop 0 (A.length + 1) (fun i ptr => ptr.set i 0 i) new)) := by
  intro i j hi hj hdone
  obtain ⟨hrow, hcol⟩ := border_values A.length B.length new
  by_cases hi0 : i = 0
  · subst hi0
    refine ⟨0, isLcs_nil_left _, ?_⟩
    rw [hrow j hj]
    omega
  · have hj0 : j = 0 := by omega
    subst hj0
    refine ⟨0, isLcs_nil_right _, ?_⟩
    rw [hcol i hi]
    omega

/-- **The distance counts insertions and deletions.** -/
theorem edit_eq_lcs [DecidableEq α] (new : Table) (A B : List α) :
    ∃ n, IsLcs A B n ∧ edit new A B = A.length + B.length - 2 * n := by
  have hall := RightTo.rows (fun t => t) (fillCell A B)
    (fun i j v => ∃ n, IsLcs (A.take i) (B.take j) n ∧ v = i + j - 2 * n) ?_ ?_
    (filled_border A B new)
  · obtain ⟨n, hn, hcell⟩ := hall.corner
    rw [List.take_length, List.take_length] at hn
    exact ⟨n, hn, hcell⟩
  · intro i j ptr i' j' hother
    exact Table.set_other _ _ hother
  · intro i j ptr hi hj hleft hup hdiag
    exact cellDone_fillCell hi hj hleft hup hdiag

end

end CommonTools.Similarity
