import Mathlib.Algebra.Order.Monoid.Defs
import Mathlib.Data.List.Basic
import Mathlib.Order.Bounds.Basic
import Mathlib.Tactic.Common

/-! # Warping paths

A warping path goes from `(0, 0)` by steps to the right, down and along the diagonal. It pays
for each cell it enters, twice for the first cell and after a diagonal step. The cheapest path
to a cell is a cheapest path to one of the three cells before it with one step more. -/
namespace CommonTools.Lib

inductive WarpStep where
  | first
  | second
  | both
deriving DecidableEq

namespace WarpStep

/-- `first` goes on in the first sequence, `second` in the second one. -/
def move : WarpStep → Nat × Nat → Nat × Nat
  | first, (i, j) => (i + 1, j)
  | second, (i, j) => (i, j + 1)
  | both, (i, j) => (i + 1, j + 1)

def weight : WarpStep → Nat
  | first => 1
  | second => 1
  | both => 2

def swap : WarpStep → WarpStep
  | first => second
  | second => first
  | both => both

theorem move_swap (s : WarpStep) (p : Nat × Nat) : s.swap.move p.swap = (s.move p).swap := by
  cases s <;> rfl

theorem weight_swap (s : WarpStep) : s.swap.weight = s.weight := by cases s <;> rfl

end WarpStep

def warpEnd (path : List WarpStep) : Nat × Nat := path.foldl (fun p s => s.move p) (0, 0)

section
variable {K : Type} [AddCommMonoid K]

/-- What a path pays for its cells from the cell `p` on. -/
def stepsCost (c : Nat → Nat → K) : Nat × Nat → List WarpStep → K
  | _, [] => 0
  | p, s :: path => s.weight • c (s.move p).1 (s.move p).2 + stepsCost c (s.move p) path

def warpCost (c : Nat → Nat → K) (path : List WarpStep) : K := 2 • c 0 0 + stepsCost c (0, 0) path

/-- The costs of the paths to the cell `(i, j)`. -/
def warpCosts (c : Nat → Nat → K) (i j : Nat) : Set K :=
  {x | ∃ path, warpEnd path = (i, j) ∧ warpCost c path = x}

variable {c c' : Nat → Nat → K} {i j : Nat} {x : K}

theorem warpEnd_concat (path : List WarpStep) (s : WarpStep) :
    warpEnd (path ++ [s]) = s.move (warpEnd path) := by simp [warpEnd]

theorem stepsCost_concat (s : WarpStep) : ∀ (p : Nat × Nat) (path : List WarpStep),
    let q := s.move (path.foldl (fun p s => s.move p) p)
    stepsCost c p (path ++ [s]) = stepsCost c p path + s.weight • c q.1 q.2
  | p, [] => by simp [stepsCost]
  | p, t :: path => by
    have ih := stepsCost_concat s (t.move p) path
    simp only [List.cons_append, stepsCost, List.foldl_cons] at ih ⊢
    rw [ih, add_assoc]

theorem warpCost_concat (path : List WarpStep) (s : WarpStep) :
    warpCost c (path ++ [s]) = warpCost c path +
      s.weight • c (warpEnd (path ++ [s])).1 (warpEnd (path ++ [s])).2 := by
  rw [warpCost, stepsCost_concat, warpCost, warpEnd_concat, add_assoc]
  rfl

theorem mem_warpCosts_iff : x ∈ warpCosts c i j ↔
    ((i, j) = (0, 0) ∧ x = 2 • c 0 0) ∨
      ∃ (s : WarpStep) (p : Nat × Nat) (y : K), s.move p = (i, j) ∧ y ∈ warpCosts c p.1 p.2 ∧
        x = y + s.weight • c i j := by
  constructor
  · intro h
    obtain ⟨path, hend, rfl⟩ := h
    rcases List.eq_nil_or_concat' path with rfl | ⟨before, s, rfl⟩
    · exact .inl ⟨hend.symm, by simp [warpCost, stepsCost]⟩
    · refine .inr ⟨s, warpEnd before, warpCost c before, ?_, ⟨before, rfl, rfl⟩, ?_⟩
      · rw [← warpEnd_concat, hend]
      · rw [warpCost_concat, hend]
  · intro h
    rcases h with ⟨h0, rfl⟩ | ⟨s, p, y, hmove, ⟨before, hbefore, rfl⟩, rfl⟩
    · exact ⟨[], h0.symm, by simp [warpCost, stepsCost]⟩
    · have hend : warpEnd (before ++ [s]) = (i, j) := by rw [warpEnd_concat, hbefore, hmove]
      exact ⟨before ++ [s], hend, by rw [warpCost_concat, hend]⟩

theorem foldl_move_swap : ∀ (path : List WarpStep) (p : Nat × Nat),
    (path.map WarpStep.swap).foldl (fun p s => s.move p) p.swap =
      (path.foldl (fun p s => s.move p) p).swap
  | [], _ => rfl
  | s :: path, p => by
    rw [List.map_cons, List.foldl_cons, List.foldl_cons, s.move_swap]
    exact foldl_move_swap path (s.move p)

theorem stepsCost_swap (c : Nat → Nat → K) : ∀ (path : List WarpStep) (p : Nat × Nat),
    stepsCost c p.swap (path.map WarpStep.swap) = stepsCost (fun i j => c j i) p path
  | [], _ => rfl
  | s :: path, p => by
    rw [List.map_cons, stepsCost, stepsCost, s.move_swap, s.weight_swap,
      stepsCost_swap c path (s.move p)]
    rfl

/-- With the sequences exchanged every path costs what it did. -/
theorem warpCosts_swap (c : Nat → Nat → K) (i j : Nat) :
    warpCosts (fun i j => c j i) j i = warpCosts c i j := by
  have hsub : ∀ (c : Nat → Nat → K) (i j : Nat),
      warpCosts (fun i j => c j i) j i ⊆ warpCosts c i j := by
    intro c i j x hx
    obtain ⟨path, hend, rfl⟩ := hx
    refine ⟨path.map WarpStep.swap, ?_, ?_⟩
    · exact (foldl_move_swap path (0, 0)).trans (congrArg Prod.swap hend)
    · exact congrArg (2 • c 0 0 + ·) (stepsCost_swap c path (0, 0))
  exact (hsub c i j).antisymm (hsub (fun i j => c j i) j i)

end

/-! ## Cheapest paths -/

section
variable {K : Type} [AddCommMonoid K] [LinearOrder K] [IsOrderedAddMonoid K]
variable {c : Nat → Nat → K} {i j : Nat} {up left diag : K}

omit [IsOrderedAddMonoid K] in
theorem isLeast_warpCosts_zero (c : Nat → Nat → K) : IsLeast (warpCosts c 0 0) (2 • c 0 0) := by
  refine ⟨mem_warpCosts_iff.mpr (.inl ⟨rfl, rfl⟩), fun x hx => ?_⟩
  rcases mem_warpCosts_iff.mp hx with ⟨-, rfl⟩ | ⟨s, p, y, hmove, -, -⟩
  · exact le_refl _
  · cases s <;> simp [WarpStep.move] at hmove

theorem isLeast_warpCosts_first (h : IsLeast (warpCosts c i 0) up) :
    IsLeast (warpCosts c (i + 1) 0) (up + c (i + 1) 0) := by
  refine ⟨mem_warpCosts_iff.mpr (.inr ⟨.first, (i, 0), up, rfl, h.1, ?_⟩), fun x hx => ?_⟩
  · rw [WarpStep.weight, one_nsmul]
  · rcases mem_warpCosts_iff.mp hx with ⟨h0, -⟩ | ⟨s, p, y, hmove, hy, rfl⟩
    · simp at h0
    · cases s <;> simp [WarpStep.move, Prod.ext_iff] at hmove
      obtain ⟨hi, hj⟩ := hmove
      rw [hi, hj] at hy
      rw [WarpStep.weight, one_nsmul]
      exact add_le_add_left (h.2 hy) _

theorem isLeast_warpCosts_second (h : IsLeast (warpCosts c 0 j) left) :
    IsLeast (warpCosts c 0 (j + 1)) (left + c 0 (j + 1)) := by
  rw [← warpCosts_swap] at h ⊢
  exact isLeast_warpCosts_first h

/-- The last step to an inner cell comes from above, from the left or from the diagonal. -/
theorem isLeast_warpCosts_cell (hup : IsLeast (warpCosts c i (j + 1)) up)
    (hdiag : IsLeast (warpCosts c i j) diag) (hleft : IsLeast (warpCosts c (i + 1) j) left) :
    IsLeast (warpCosts c (i + 1) (j + 1))
      (min (min (up + c (i + 1) (j + 1)) (diag + 2 • c (i + 1) (j + 1)))
        (left + c (i + 1) (j + 1))) := by
  constructor
  · refine min_rec' _ (min_rec' _ ?_ ?_) ?_
    · exact mem_warpCosts_iff.mpr (.inr ⟨.first, (i, j + 1), up, rfl, hup.1, by
        rw [WarpStep.weight, one_nsmul]⟩)
    · exact mem_warpCosts_iff.mpr (.inr ⟨.both, (i, j), diag, rfl, hdiag.1, rfl⟩)
    · exact mem_warpCosts_iff.mpr (.inr ⟨.second, (i + 1, j), left, rfl, hleft.1, by
        rw [WarpStep.weight, one_nsmul]⟩)
  · intro x hx
    rcases mem_warpCosts_iff.mp hx with ⟨h0, -⟩ | ⟨s, p, y, hmove, hy, rfl⟩
    · simp at h0
    · cases s with
      | first =>
        simp only [WarpStep.move, Prod.ext_iff, Nat.add_right_cancel_iff] at hmove
        obtain ⟨hi, hj⟩ := hmove
        rw [hi, hj] at hy
        rw [WarpStep.weight, one_nsmul]
        exact min_le_of_left_le (min_le_of_left_le (add_le_add_left (hup.2 hy) _))
      | second =>
        simp only [WarpStep.move, Prod.ext_iff, Nat.add_right_cancel_iff] at hmove
        obtain ⟨hi, hj⟩ := hmove
        rw [hi, hj] at hy
        rw [WarpStep.weight, one_nsmul]
        exact min_le_of_right_le (add_le_add_left (hleft.2 hy) _)
      | both =>
        simp only [WarpStep.move, Prod.ext_iff, Nat.add_right_cancel_iff] at hmove
        obtain ⟨hi, hj⟩ := hmove
        rw [hi, hj] at hy
        exact min_le_of_left_le (min_le_of_right_le (add_le_add_left (hdiag.2 hy) _))

end

end CommonTools.Lib
