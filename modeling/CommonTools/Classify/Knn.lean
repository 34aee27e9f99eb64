import CommonTools.Lib.Best
import CommonTools.Lib.Text
import CommonTools.Similarity.EditMetric

/-! # The nearest training row

`KNN_::nearest` compares every row with the smallest distance so far and never gives that
one a first value. -/
namespace CommonTools.Classify.Knn
open CommonTools.Lib CommonTools.Similarity

section
variable {α : Type} [DecidableEq α]

/-- One round of the loop: the row and its number. Every call of `edit` has a new table. -/
def nearestRound (new : Nat → Table) (predictVec : List α) :
    Int × Nat → List α × Nat → Int × Nat
  | (min_d, min_i), (row, i) =>
    let d := edit (new i) predictVec row
    if d < min_d then (d, i) else (min_d, min_i)

/-- `KNN_::nearest`, with what the tables, `min_d` and `min_i` hold at entry. -/
def nearest (new : Nat → Table) (min_d : Int) (min_i : Nat) (predictVec : List α)
    (dataVec : List (List α)) : Int :=
  (dataVec.zipIdx.foldl (nearestRound new predictVec) (min_d, min_i)).1

/-- The distances of a query to the training rows. -/
def distances (blank : Table) (predictVec : List α) (dataVec : List (List α)) : Set Int :=
  {d | ∃ row ∈ dataVec, d = edit blank predictVec row}

variable {predictVec : List α} {dataVec : List (List α)}

theorem nearest_eq (new : Nat → Table) (blank : Table) (min_d : Int) (min_i : Nat) :
    nearest new min_d min_i predictVec dataVec =
      (bestOf (· < ·) (fun r : List α × Nat => edit blank predictVec r.1) Prod.snd (min_d, min_i)
        dataVec.zipIdx).1 := by
  have hround : nearestRound new predictVec =
      takeBetter (· < ·) (fun r : List α × Nat => edit blank predictVec r.1) Prod.snd := by
    funext best r
    simp only [nearestRound, takeBetter, edit_new (new r.2) blank]
  rw [nearest, hround, bestOf]

/-- What is returned is not larger than a distance nor than what `min_d` held at entry, and is
one of these. -/
theorem nearest_spec (new : Nat → Table) (blank : Table) (min_d : Int) (min_i : Nat) :
    let r := nearest new min_d min_i predictVec dataVec
    (r = min_d ∨ r ∈ distances blank predictVec dataVec) ∧ r ≤ min_d ∧
      r ∈ lowerBounds (distances blank predictVec dataVec) := by
  intro r
  have hr : r = _ := nearest_eq new blank min_d min_i
  have hcases := @bestOf_cases _ _ _ (· < ·) _
    (fun r : List α × Nat => edit blank predictVec r.1) Prod.snd (min_d, min_i) dataVec.zipIdx _
  have hleast := @bestOf_unbeaten _ _ _ (· < ·) _
    (fun r : List α × Nat => edit blank predictVec r.1) Prod.snd (min_d, min_i) dataVec.zipIdx _
  rw [← hr] at hleast
  refine ⟨?_, not_lt.mp hleast.1, ?_⟩
  · rcases hcases with hkept | ⟨⟨row, i⟩, hmem, hbest, -⟩
    · exact .inl (by rw [hr, hkept])
    · exact .inr ⟨row, List.fst_mem_of_mem_zipIdx hmem, by rw [hr, hbest]⟩
  · intro d hd
    obtain ⟨row, hrow, rfl⟩ := hd
    obtain ⟨i, hi, rfl⟩ := List.getElem_of_mem hrow
    exact not_lt.mp (hleast.2 (dataVec[i], i) (by simp [List.mem_zipIdx_iff_getElem?]))

/-- **`nearest` returns the smallest distance exactly when some training row is not farther
away than what `min_d` holds at entry.** -/
theorem nearest_isLeast_iff (new : Nat → Table) (blank : Table) (min_d : Int) (min_i : Nat)
    (predictVec : List α) (dataVec : List (List α)) :
    IsLeast (distances blank predictVec dataVec) (nearest new min_d min_i predictVec dataVec) ↔
      ∃ row ∈ dataVec, edit blank predictVec row ≤ min_d := by
  obtain ⟨hcases, hle, hlow⟩ :=
    @nearest_spec _ _ predictVec dataVec new blank min_d min_i
  constructor
  · intro h
    obtain ⟨row, hrow, hd⟩ := h.1
    exact ⟨row, hrow, hd ▸ hle⟩
  · intro h
    obtain ⟨row, hrow, hnear⟩ := h
    refine ⟨?_, hlow⟩
    rcases hcases with hkept | hmem
    -- the first value is kept only when no row is nearer, so this row is as far away
    · have hlow : min_d ≤ edit blank predictVec row := hkept ▸ hlow ⟨row, hrow, rfl⟩
      exact ⟨row, hrow, hkept.trans (le_antisymm hlow hnear)⟩
    · exact hmem

end

/-- With 0 in `min_d` at entry, two different words are at distance 0. -/
theorem nearest_zero :
    ¬ IsLeast (distances (fun _ _ => 0) [ascii "a"] [[ascii "b"]])
      (nearest (fun _ _ _ => 0) 0 0 [ascii "a"] [[ascii "b"]]) := by
  have hret : nearest (fun _ _ _ => 0) 0 0 [ascii "a"] [[ascii "b"]] = 0 := by decide
  have hdist : edit (fun _ _ => 0) [ascii "a"] [ascii "b"] = 2 := by decide
  intro h
  obtain ⟨row, hrow, hd⟩ := h.1
  rw [List.mem_singleton.mp hrow, hdist, hret] at hd
  simp at hd

end CommonTools.Classify.Knn
