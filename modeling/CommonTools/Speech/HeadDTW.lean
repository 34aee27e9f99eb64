import Mathlib.Algebra.Order.Field.Basic
import CommonTools.Http.Message
import CommonTools.Lib.Loop
import CommonTools.Lib.PartialList
import CommonTools.Lib.WarpPath

/-! # Dynamic time warping

The table `distance` is filled from the first row and the first column on, one row and one
column beyond the samples, which the functions read there. The cell that counts depends on the
cells before it only, and it holds the cost of a cheapest warping path. -/
namespace CommonTools.Speech
open CommonTools.Lib CommonTools.Http

/-! ## `headDTW.cpp` -/

/-- The cells of the table `distance`. A new table holds anything. -/
abbrev Cells (K : Type) := Nat → Nat → K

def Cells.set {K : Type} (distance : Cells K) (i j : Nat) (v : K) : Cells K :=
  Function.update distance i (Function.update (distance i) j v)

/-- A vector as the functions see it: its size, and what a read at an index gives. -/
structure Samples (K : Type) where
  size : Nat
  read : Int → Option K

/-- How a call fails: `new` throws for a negative number, a sample is read at an index that
gives nothing, or a cell outside of the table is used. -/
inductive Fault where
  | badAlloc
  | outside
  | table
deriving DecidableEq

def DTWMAXNUM : Int := 2000

section
variable {K : Type} [Field K] [LinearOrder K]

def ABS (a : K) : K := if a > 0 then a else -a

def MIN (a b : K) : K := if a < b then a else b

/-- `ABS(A[i+begin1]-B[j+begin2])`. -/
def sampleCost (A B : Int → Option K) (begin1 begin2 : Int) (i j : Nat) : Option K := do
  some (ABS ((← A (i + begin1)) - (← B (j + begin2))))

def fillCell (cost : Nat → Nat → Option K) (i j : Nat) (distance : Cells K) :
    Option (Cells K) := do
  let g1 := distance (i - 1) j + (← cost i j)
  let g2 := distance (i - 1) (j - 1) + 2 * (← cost i j)
  let g3 := distance i (j - 1) + (← cost i j)
  let g2 := MIN g1 g2
  let g3 := MIN g2 g3
  some (distance.set i j g3)

def fillTable (cost : Nat → Nat → Option K) (I J : Nat) (distance : Cells K) :
    Option (Cells K) := do
  let distance := distance.set 0 0 (2 * (← cost 0 0))
  let distance ← loopM 1 I
    (fun i distance => do some (distance.set i 0 (distance (i - 1) 0 + (← cost i 0)))) distance
  let distance ← loopM 1 J
    (fun j distance => do some (distance.set 0 j (distance 0 (j - 1) + (← cost 0 j)))) distance
  loopM 1 J (fun j distance => loopM 1 I (fun i distance => fillCell cost i j distance) distance)
    distance

/-- The part that the three functions share: the table and the value returned. `new` is what
the allocated table holds; the loop that writes `DTWVERYBIG` into it comes first. -/
def dtwRun (A B : Int → Option K) (begin1 begin2 I J : Int) (new : Cells K) :
    Except Fault (Cells K × K) :=
  if I + 1 < 0 ∨ (0 < I + 1 ∧ J + 1 < 0) then .error .badAlloc
  else
    let distance := loop 0 I.toNat
      (fun i distance => loop 0 J.toNat (fun j distance => distance.set i j 100000000) distance) new
    match fillTable (sampleCost A B begin1 begin2) I.toNat J.toNat distance with
    | none => .error .outside
    | some distance =>
      if I < 1 ∨ J < 1 then .error .table
      else
        .ok (distance, distance (I - 1).toNat (J - 1).toNat * ((|I - J| + 1 : Int) : K) /
          ((I + J + 1 : Int) : K))

/-- `if(I>DTWMAXNUM) I = DTWMAXNUM;`. -/
def clampSize (I : Int) : Int := if I > DTWMAXNUM then DTWMAXNUM else I

/-- `DTWDistanceFun` of two vectors. -/
def dtwDistanceFun (A B : Samples K) (_r : Int) (new : Cells K) : Except Fault (Cells K × K) :=
  dtwRun A.read B.read 0 0 (clampSize (toInt32 A.size)) (clampSize (toInt32 B.size)) new

/-- `DTWDistanceFun` of the samples between positions. The early return leaves `distance`. -/
def dtwDistanceFunBetween (A : Samples K) (begin1 end1 : Int) (B : Samples K) (begin2 end2 : Int)
    (_r : Int) (new : Cells K) : Except Fault (Cells K × K) :=
  if A.size = 0 ∨ B.size = 0 then .ok (new, -1)
  else
    dtwRun A.read B.read begin1 begin2 (clampSize (toInt32 (end1 + 1 - begin1)))
      (clampSize (toInt32 (end2 + 1 - begin2))) new

def dtwDistanceFunOri (A B : Samples K) (_r : Int) (new : Cells K) : Except Fault (Cells K × K) :=
  let I := toInt32 A.size
  let J := toInt32 B.size
  if I > DTWMAXNUM ∨ J > DTWMAXNUM then .ok (new, -1) else dtwRun A.read B.read 0 0 I J new

end

/-! ## The table -/

theorem Cells.set_same {K : Type} (distance : Cells K) (i j : Nat) (v : K) :
    distance.set i j v i j = v := by
  rw [Cells.set, Function.update_self, Function.update_self]

theorem Cells.set_other {K : Type} (distance : Cells K) {i j i' j' : Nat} (v : K)
    (h : ¬ (i' = i ∧ j' = j)) : distance.set i j v i' j' = distance i' j' := by
  rw [Cells.set]
  by_cases hi : i' = i
  · subst hi
    rw [Function.update_self, Function.update_of_ne fun hj => h ⟨rfl, hj⟩]
  · rw [Function.update_of_ne hi]

section
variable {K : Type} [Field K] [LinearOrder K] {c : Nat → Nat → K}

/-- A round of the inner loop with all samples there. -/
def cellRound (c : Nat → Nat → K) (i j : Nat) (distance : Cells K) : Cells K :=
  distance.set i j (MIN (MIN (distance (i - 1) j + c i j) (distance (i - 1) (j - 1) + 2 * c i j))
    (distance i (j - 1) + c i j))

def columnRound (c : Nat → Nat → K) (i : Nat) (distance : Cells K) : Cells K :=
  distance.set i 0 (distance (i - 1) 0 + c i 0)

def rowRound (c : Nat → Nat → K) (j : Nat) (distance : Cells K) : Cells K :=
  distance.set 0 j (distance 0 (j - 1) + c 0 j)

def border (c : Nat → Nat → K) (I J : Nat) (distance : Cells K) : Cells K :=
  loop 1 J (rowRound c) (loop 1 I (columnRound c) (distance.set 0 0 (2 * c 0 0)))

def filled (c : Nat → Nat → K) (I J : Nat) (distance : Cells K) : Cells K :=
  loop 1 J (fun j distance => loop 1 I (fun i distance => cellRound c i j distance) distance)
    (border c I J distance)

/-- With all samples there the table is filled. -/
theorem fillTable_some {cost : Nat → Nat → Option K} {I J : Nat}
    (h : ∀ i ≤ I, ∀ j ≤ J, cost i j = some (c i j)) (distance : Cells K) :
    fillTable cost I J distance = some (filled c I J distance) := by
  have hcolumn : ∀ distance, loopM 1 I
      (fun i distance => do some (distance.set i 0 (distance (i - 1) 0 + (← cost i 0)))) distance =
        some (loop 1 I (columnRound c) distance) :=
    loopM_some fun i distance _ hi => by rw [h i (by omega) 0 (Nat.zero_le J)]; rfl
  have hrow : ∀ distance, loopM 1 J
      (fun j distance => do some (distance.set 0 j (distance 0 (j - 1) + (← cost 0 j)))) distance =
        some (loop 1 J (rowRound c) distance) :=
    loopM_some fun j distance _ hj => by rw [h 0 (Nat.zero_le I) j (by omega)]; rfl
  have hcells : ∀ distance, loopM 1 J (fun j distance => loopM 1 I
      (fun i distance => fillCell cost i j distance) distance) distance =
        some (loop 1 J (fun j distance => loop 1 I (fun i distance => cellRound c i j distance)
          distance) distance) :=
    loopM_some fun j distance _ hj => loopM_some
      (fun i distance _ hi => by rw [fillCell, h i (by omega) j (by omega)]; rfl) distance
  rw [fillTable, h 0 (Nat.zero_le I) 0 (Nat.zero_le J)]
  simp only [Option.bind_eq_bind, Option.bind_some] at hcolumn hrow hcells ⊢
  rw [hcolumn, Option.bind_some, hrow, Option.bind_some, hcells]
  rfl

end

end CommonTools.Speech
