import Mathlib.Algebra.Field.Rat
import Mathlib.Algebra.Order.Group.Unbundled.Abs
import Mathlib.Algebra.Order.Ring.Rat
import CommonTools.Speech.DtwReads

/-! # The cheapest warping path

For samples that are not too many, the cell `distance[I-1][J-1]` holds the cost of a cheapest
path, whatever stands behind the samples in memory. -/
namespace CommonTools.Speech
open CommonTools.Lib CommonTools.Http

section
variable {K : Type} [Field K] [LinearOrder K]

/-- A vector with what stands behind it in memory. -/
def inMemory (A : List K) (behind : Int → K) : Samples K :=
  ⟨A.length, fun i => some ((at? A i).getD (behind i))⟩

/-- How far two samples are apart. -/
def sampleDistance (A B : List K) (i j : Nat) : K := |A.getD i 0 - B.getD j 0|

/-- A cell among the samples holds the cost of a cheapest path to it. -/
def CheapestAt (A B : List K) (j i : Nat) (v : K) : Prop :=
  i < A.length → j < B.length → IsLeast (warpCosts (sampleDistance A B) i j) v

/-- The table with the second sequence first, the way the loops go through it. -/
def byColumns (distance : Cells K) (j i : Nat) : K := distance i j

end

section
variable {K : Type} [Field K] [LinearOrder K] [IsStrictOrderedRing K]
variable {A B : List K} {c : Nat → Nat → K}

omit [Field K] [IsStrictOrderedRing K] in
theorem MIN_eq (a b : K) : MIN a b = min a b := by
  unfold MIN
  split
  · rename_i h
    exact (min_eq_left h.le).symm
  · rename_i h
    exact (min_eq_right (not_lt.mp h)).symm

theorem ABS_eq (a : K) : ABS a = |a| := by
  unfold ABS
  split
  · rename_i h
    exact (abs_of_pos h).symm
  · rename_i h
    exact (abs_of_nonpos (not_lt.mp h)).symm

theorem columns_cheapest (hA : 0 < A.length)
    (hc : ∀ i < A.length, c i 0 = sampleDistance A B i 0) (I : Nat) (new : Cells K) :
    ∀ i < 1 + I, CheapestAt A B 0 i (loop 1 I (columnRound c) (new.set 0 0 (2 * c 0 0)) i 0) := by
  refine loop_invariant
    (fun k (distance : Cells K) => ∀ i < k, CheapestAt A B 0 i (distance i 0)) 1 ?_ ?_
  · intro i hi _ _
    obtain rfl : i = 0 := by omega
    rw [Cells.set_same, hc 0 hA, two_mul, ← two_nsmul]
    exact isLeast_warpCosts_zero _
  · intro k distance hlo _ ih i hi
    by_cases heq : i = k
    · subst heq
      obtain ⟨i, rfl⟩ := Nat.exists_eq_add_of_le' hlo
      intro hi' hj'
      rw [columnRound, Cells.set_same, Nat.add_sub_cancel, hc _ hi']
      exact isLeast_warpCosts_first (ih i (by omega) (by omega) hj')
    · rw [columnRound, Cells.set_other _ _ fun h => heq h.1]
      exact ih i (by omega)

/-- The first row leaves the first column as it is. -/
theorem rows_cheapest (hc : ∀ j < B.length, c 0 j = sampleDistance A B 0 j) {I : Nat} (J : Nat)
    {distance : Cells K} (hA : 0 < A.length)
    (hcolumn : ∀ i < 1 + I, CheapestAt A B 0 i (distance i 0)) :
    (∀ i < 1 + I, CheapestAt A B 0 i (loop 1 J (rowRound c) distance i 0)) ∧
      ∀ j < 1 + J, CheapestAt A B j 0 (loop 1 J (rowRound c) distance 0 j) := by
  refine loop_invariant (fun k (distance : Cells K) =>
    (∀ i < 1 + I, CheapestAt A B 0 i (distance i 0)) ∧
      ∀ j < k, CheapestAt A B j 0 (distance 0 j)) 1 ⟨hcolumn, ?_⟩ ?_
  · intro j hj
    obtain rfl : j = 0 := by omega
    exact hcolumn 0 (by omega)
  · intro k distance hlo _ ih
    obtain ⟨ihcolumn, ihrow⟩ := ih
    obtain ⟨k, rfl⟩ := Nat.exists_eq_add_of_le' hlo
    constructor
    · intro i hi
      rw [rowRound, Cells.set_other _ _ fun h => absurd h.2 (by omega)]
      exact ihcolumn i hi
    · intro j hj
      by_cases heq : j = k + 1
      · subst heq
        intro _ hj'
        rw [rowRound, Cells.set_same, Nat.add_sub_cancel, hc _ hj']
        exact isLeast_warpCosts_second (ihrow k (by omega) hA (by omega))
      · rw [rowRound, Cells.set_other _ _ fun h => heq h.2]
        exact ihrow j (by omega)

/-- Every cell among the samples holds the cost of a cheapest path to it. -/
theorem filled_cheapest (hA : 0 < A.length) (hB : 0 < B.length)
    (hc : ∀ i < A.length, ∀ j < B.length, c i j = sampleDistance A B i j) (I J : Nat)
    (new : Cells K) :
    RightTo (CheapestAt A B) J I (1 + J) 1 (byColumns (filled c I J new)) := by
  refine RightTo.rows byColumns (fun j i distance => cellRound c i j distance) _ ?_ ?_ ?_
  · intro j i distance j' i' hother
    exact Cells.set_other _ _ fun h => hother ⟨h.2, h.1⟩
  · intro j i distance _ _ hup hleft hdiag hi hj
    rw [byColumns, cellRound, Cells.set_same, MIN_eq, MIN_eq, hc _ hi _ hj, two_mul, ← two_nsmul]
    exact isLeast_warpCosts_cell (hup (by omega) hj) (hdiag (by omega) (by omega))
      (hleft hi (by omega))
  · have hcolumn := columns_cheapest (B := B) hA (fun i hi => hc i hi 0 hB) I new
    obtain ⟨hcolumn, hrow⟩ := rows_cheapest (hc 0 hA) J hA hcolumn
    intro j i hj hi hborder
    by_cases hj0 : j = 0
    · subst hj0
      exact hcolumn i (by omega)
    · obtain rfl : i = 0 := by omega
      exact hrow j (by omega)

/-! ## The function -/

omit [IsStrictOrderedRing K] in
theorem inMemory_cost (A B : List K) (behindA behindB : Int → K) (i j : Nat) :
    sampleCost (inMemory A behindA).read (inMemory B behindB).read 0 0 i j =
      some (ABS ((at? A i).getD (behindA i) - (at? B j).getD (behindB j))) := by
  simp [sampleCost, inMemory]

omit [LinearOrder K] [IsStrictOrderedRing K] in
theorem at?_getD {A : List K} {i : Nat} (h : i < A.length) (other : K) :
    (at? A i).getD other = A.getD i 0 := by
  rw [at?_natCast, List.getElem?_eq_getElem h, List.getD_eq_getElem?_getD,
    List.getElem?_eq_getElem h]
  rfl

/-- What a run leaves in the table and gives back. -/
theorem dtwDistanceFun_ok (hA : A ≠ []) (hB : B ≠ []) (hlenA : (A.length : Int) ≤ DTWMAXNUM)
    (hlenB : (B.length : Int) ≤ DTWMAXNUM) (behindA behindB : Int → K) (r : Int) (new : Cells K) :
    ∃ distance : Cells K, IsLeast (warpCosts (sampleDistance A B) (A.length - 1) (B.length - 1))
        (distance (A.length - 1) (B.length - 1)) ∧
      dtwDistanceFun (inMemory A behindA) (inMemory B behindB) r new =
        .ok (distance, distance (A.length - 1) (B.length - 1) *
          ((|(A.length : Int) - B.length| + 1 : Int) : K) /
            ((A.length + B.length + 1 : Int) : K)) := by
  have hposA := List.length_pos_iff.mpr hA
  have hposB := List.length_pos_iff.mpr hB
  have hI : clampSize (toInt32 (inMemory A behindA).size) = A.length := by
    rw [inMemory, toInt32_small hlenA, clampSize_eq hlenA]
  have hJ : clampSize (toInt32 (inMemory B behindB).size) = B.length := by
    rw [inMemory, toInt32_small hlenB, clampSize_eq hlenB]
  have hcost : ∀ i < A.length, ∀ j < B.length,
      ABS ((at? A i).getD (behindA i) - (at? B j).getD (behindB j)) = sampleDistance A B i j := by
    intro i hi j hj
    rw [ABS_eq, at?_getD hi, at?_getD hj, sampleDistance]
  rw [dtwDistanceFun, hI, hJ, dtwRun, if_neg (by omega)]
  dsimp only
  rw [Int.toNat_natCast, Int.toNat_natCast,
    fillTable_some fun i _ j _ => inMemory_cost A B behindA behindB i j]
  generalize loop 0 A.length _ new = allocated
  refine ⟨filled (fun i j => ABS ((at? A i).getD (behindA i) - (at? B j).getD (behindB j)))
    A.length B.length allocated, ?_, ?_⟩
  · exact filled_cheapest hposA hposB hcost A.length B.length allocated (B.length - 1)
      (A.length - 1) (by omega) (by omega) (by omega) (by omega) (by omega)
  · dsimp only
    rw [if_neg (by omega), show ((A.length : Int) - 1).toNat = A.length - 1 by omega,
      show ((B.length : Int) - 1).toNat = B.length - 1 by omega]

omit [IsStrictOrderedRing K] in
/-- With the samples exchanged a cheapest path costs what it did. -/
theorem isLeast_sampleDistance_swap {i j : Nat} {v : K} :
    IsLeast (warpCosts (sampleDistance B A) j i) v ↔
      IsLeast (warpCosts (sampleDistance A B) i j) v := by
  have hswap : sampleDistance B A = fun j i => sampleDistance A B i j := by
    funext j i
    exact abs_sub_comm _ _
  rw [hswap, warpCosts_swap]

/-- **The last cell among the samples holds the cost of a cheapest path, and with the samples
exchanged the value is the same.** -/
theorem dtwDistanceFun_optimal (hA : A ≠ []) (hB : B ≠ [])
    (hlenA : (A.length : Int) ≤ DTWMAXNUM) (hlenB : (B.length : Int) ≤ DTWMAXNUM)
    (behindA behindB : Int → K) (r : Int) (new : Cells K) :
    ∃ distance dist,
      dtwDistanceFun (inMemory A behindA) (inMemory B behindB) r new = .ok (distance, dist) ∧
      IsLeast (warpCosts (sampleDistance A B) (A.length - 1) (B.length - 1))
        (distance (A.length - 1) (B.length - 1)) ∧
      ∀ behindA' behindB' r' new', ∃ distance',
        dtwDistanceFun (inMemory B behindB') (inMemory A behindA') r' new' =
          .ok (distance', dist) := by
  obtain ⟨distance, hleast, hrun⟩ := dtwDistanceFun_ok hA hB hlenA hlenB behindA behindB r new
  refine ⟨distance, _, hrun, hleast, fun behindA' behindB' r' new' => ?_⟩
  obtain ⟨distance', hleast', hrun'⟩ :=
    dtwDistanceFun_ok hB hA hlenB hlenA behindB' behindA' r' new'
  have hsame := hleast'.unique (isLeast_sampleDistance_swap.mpr hleast)
  refine ⟨distance', ?_⟩
  rw [hrun', hsame, abs_sub_comm, Int.add_comm (B.length : Int)]

theorem dtwDistanceFun_optimal_two : ∃ distance dist,
    dtwDistanceFun (inMemory ([1, 3] : List ℚ) fun _ => 7) (inMemory [2] fun _ => 9) 3
        (fun _ _ => 0) = .ok (distance, dist) ∧
      IsLeast (warpCosts (sampleDistance [1, 3] [2]) 1 0) (distance 1 0) ∧
      ∀ behindA' behindB' r' new', ∃ distance',
        dtwDistanceFun (inMemory ([2] : List ℚ) behindB') (inMemory [1, 3] behindA') r' new' =
          .ok (distance', dist) :=
  dtwDistanceFun_optimal (by simp) (by simp) (by simp [DTWMAXNUM]) (by simp [DTWMAXNUM]) _ _ 3 _

end

end CommonTools.Speech
