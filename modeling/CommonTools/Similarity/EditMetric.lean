import CommonTools.Lib.EditScript
import CommonTools.Similarity.EditDist

/-! # The two edit distances

The source has `EditDist::edit` twice, under `Similarity/editDist` and under
`include/common`. The two differ in what a word in the place of another costs. -/
namespace CommonTools.Similarity
open CommonTools.Lib

section
variable {α : Type} [DecidableEq α]

def fillCellBy (sub : Int) (str1 str2 : List α) (i j : Nat) (ptr : Table) : Table :=
  let tmp := minInt (ptr i (j - 1) + 1) (ptr (i - 1) j + 1)
  let d := if str1[i - 1]? = str2[j - 1]? then 0 else sub
  ptr.set i j (minInt tmp (ptr (i - 1) (j - 1) + d))

/-- `EditDist::edit`, with the cost of a word in the place of another and with what
the new table holds. -/
def editBy (sub : Int) (new : Table) (str1 str2 : List α) : Int :=
  let max1 := str1.length
  let max2 := str2.length
  let ptr := loop 0 (max1 + 1) (fun i ptr => ptr.set i 0 i) new
  let ptr := loop 0 (max2 + 1) (fun j ptr => ptr.set 0 j j) ptr
  let ptr := loop 1 max1
    (fun i ptr => loop 1 max2 (fun j ptr => fillCellBy sub str1 str2 i j ptr) ptr) ptr
  ptr max1 max2

theorem edit_eq_editBy (new : Table) (str1 str2 : List α) :
    edit new str1 str2 = editBy 2 new str1 str2 := rfl

end

section
variable {α : Type} [DecidableEq α] {sub : Nat} {A B : List α}

/-- What the cell `(i, j)` has to hold. -/
def IsDistAt (sub : Nat) (A B : List α) (i j : Nat) (v : Int) : Prop :=
  ∃ n : Nat, IsEditDist sub (A.take i) (B.take j) n ∧ v = n

theorem isDistAt_fillCellBy {ptr : Table} {i j : Nat} (hi : i < A.length) (hj : j < B.length)
    (hleft : IsDistAt sub A B (i + 1) j (ptr (i + 1) j))
    (hup : IsDistAt sub A B i (j + 1) (ptr i (j + 1)))
    (hdiag : IsDistAt sub A B i j (ptr i j)) :
    IsDistAt sub A B (i + 1) (j + 1)
      (fillCellBy sub A B (i + 1) (j + 1) ptr (i + 1) (j + 1)) := by
  obtain ⟨left, hl, hleft⟩ := hleft
  obtain ⟨up, hu, hup⟩ := hup
  obtain ⟨diag, hd, hdiag⟩ := hdiag
  rw [← List.take_append_getElem hi] at hl
  rw [← List.take_append_getElem hj] at hu
  have hsnoc := hl.snoc hu hd
  rw [List.take_append_getElem hi, List.take_append_getElem hj] at hsnoc
  refine ⟨_, hsnoc, ?_⟩
  unfold fillCellBy
  rw [Table.set_same]
  simp only [Nat.add_sub_cancel, minInt_eq, hleft, hup, hdiag, word_eq_iff hi hj, pairCost]
  split <;> omega

/-- The first column and the first row hold the distances to the empty text. -/
theorem isDistAt_border (A B : List α) (new : Table) :
    RightTo (IsDistAt sub A B) A.length B.length 1 1
      (loop 0 (B.length + 1) (fun j (ptr : Table) => ptr.set 0 j j)
        (loop 0 (A.length + 1) (fun i (ptr : Table) => ptr.set i 0 i) new)) := by
  intro i j hi hj hdone
  obtain ⟨hrow, hcol⟩ := border_values A.length B.length new
  by_cases hi0 : i = 0
  · subst hi0
    have hdist := (isEditDist_nil_right sub (B.take j)).symm
    rw [List.length_take_of_le hj] at hdist
    exact ⟨j, hdist, hrow j hj⟩
  · have hj0 : j = 0 := by omega
    subst hj0
    have hdist := isEditDist_nil_right sub (A.take i)
    rw [List.length_take_of_le hi] at hdist
    exact ⟨i, hdist, hcol i hi⟩

/-- **The table holds the cost of a cheapest script.** -/
theorem editBy_isEditDist (sub : Nat) (new : Table) (A B : List α) :
    ∃ n : Nat, IsEditDist sub A B n ∧ editBy sub new A B = n := by
  have hall := RightTo.rows (fun t => t) (fillCellBy sub A B) (IsDistAt sub A B) ?_ ?_
    (isDistAt_border A B new)
  · obtain ⟨n, hn, hcell⟩ := hall.corner
    rw [List.take_length, List.take_length] at hn
    exact ⟨n, hn, hcell⟩
  · intro i j ptr i' j' hother
    exact Table.set_other _ _ hother
  · intro i j ptr hi hj hleft hup hdiag
    exact isDistAt_fillCellBy hi hj hleft hup hdiag

theorem edit_isEditDist (new : Table) (A B : List α) :
    ∃ n : Nat, IsEditDist 2 A B n ∧ edit new A B = n := by
  rw [edit_eq_editBy]
  exact editBy_isEditDist 2 new A B

/-- What the new table holds does not matter. -/
theorem edit_new (new new' : Table) (A B : List α) : edit new A B = edit new' A B := by
  obtain ⟨n, hdist, hn⟩ := edit_isEditDist new A B
  obtain ⟨n', hdist', hn'⟩ := edit_isEditDist new' A B
  rw [hn, hn', hdist.unique hdist']

end

end CommonTools.Similarity
