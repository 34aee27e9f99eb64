import Mathlib.Algebra.BigOperators.Ring.Finset

/-! # Sums over weighted names

A list gives weights to names, the same name more than once. A sum in which
every weight counts with a factor of its name only sees what each name weighs in
total. -/
namespace CommonTools.Lib
open Finset

variable {σ K : Type} [DecidableEq σ] [CommRing K]

def totalWeight (s : σ) (l : List (σ × K)) : K := ((l.filter fun p => p.1 = s).map Prod.snd).sum

/-- Every weight with the factor of its name. -/
def weightedSum (factor : σ → K) (l : List (σ × K)) : K := (l.map fun p => factor p.1 * p.2).sum

theorem totalWeight_cons (s : σ) (p : σ × K) (l : List (σ × K)) :
    totalWeight s (p :: l) = (if p.1 = s then p.2 else 0) + totalWeight s l := by
  rw [totalWeight, totalWeight]
  by_cases h : p.1 = s
  · rw [List.filter_cons_of_pos (by simpa using h), if_pos h, List.map_cons, List.sum_cons]
  · rw [List.filter_cons_of_neg (by simpa using h), if_neg h, zero_add]

omit [DecidableEq σ] in
theorem weightedSum_cons (factor : σ → K) (p : σ × K) (l : List (σ × K)) :
    weightedSum factor (p :: l) = factor p.1 * p.2 + weightedSum factor l := by
  rw [weightedSum, List.map_cons, List.sum_cons, weightedSum]

theorem totalWeight_append (s : σ) (l m : List (σ × K)) :
    totalWeight s (l ++ m) = totalWeight s l + totalWeight s m := by
  rw [totalWeight, List.filter_append, List.map_append, List.sum_append, totalWeight, totalWeight]

theorem totalWeight_perm (s : σ) {l m : List (σ × K)} (h : l.Perm m) :
    totalWeight s l = totalWeight s m := ((h.filter _).map _).sum_eq

theorem totalWeight_scale (s : σ) (c : K) (l : List (σ × K)) :
    totalWeight s (l.map fun p => (p.1, c * p.2)) = c * totalWeight s l := by
  induction l with
  | nil => exact (mul_zero c).symm
  | cons p l ih =>
    rw [List.map_cons, totalWeight_cons, totalWeight_cons, ih, mul_add, mul_ite, mul_zero]

/-- A name that is not in the list weighs nothing. -/
theorem totalWeight_of_notMem {s : σ} {l : List (σ × K)} (h : s ∉ l.map Prod.fst) :
    totalWeight s l = 0 := by
  rw [totalWeight, List.filter_eq_nil_iff.mpr]
  · rfl
  · intro p hp
    simpa using fun heq : p.1 = s => h (List.mem_map.mpr ⟨p, hp, heq⟩)

/-- A list with one entry for each of some names. -/
theorem totalWeight_of_nodup {names : List σ} (hnd : names.Nodup) (w : σ → K) (s : σ) :
    totalWeight s (names.map fun n => (n, w n)) = if s ∈ names then w s else 0 := by
  induction names with
  | nil => rfl
  | cons n names ih =>
    obtain ⟨hn, hnd⟩ := List.nodup_cons.mp hnd
    rw [List.map_cons, totalWeight_cons, ih hnd]
    by_cases h : n = s
    · subst h
      rw [if_pos rfl, if_neg hn, if_pos List.mem_cons_self, add_zero]
    · have hmem : s ∈ n :: names ↔ s ∈ names := by simp [Ne.symm h]
      rw [if_neg h, zero_add]
      simp only [hmem]

theorem weightedSum_eq_sum (factor : σ → K) {names : Finset σ} {l : List (σ × K)}
    (h : ∀ p ∈ l, p.1 ∈ names) :
    weightedSum factor l = ∑ s ∈ names, factor s * totalWeight s l := by
  induction l with
  | nil => exact (sum_eq_zero fun s _ => mul_zero (factor s)).symm
  | cons p l ih =>
    have hrest := ih fun q hq => h q (List.mem_cons_of_mem _ hq)
    have hsplit : ∀ s, factor s * totalWeight s (p :: l) =
        (if p.1 = s then factor s * p.2 else 0) + factor s * totalWeight s l := fun s => by
      rw [totalWeight_cons, mul_add, mul_ite, mul_zero]
    rw [sum_congr rfl fun s _ => hsplit s, sum_add_distrib, ← hrest, sum_ite_eq,
      if_pos (h p List.mem_cons_self), weightedSum_cons]

/-- **Only totals count.** Totals that are `c` times as large, for all names with
a factor, give a sum `c` times as large. -/
theorem weightedSum_totals {factor : σ → K} {c : K} {l m : List (σ × K)}
    (h : ∀ s, factor s ≠ 0 → totalWeight s m = c * totalWeight s l) :
    weightedSum factor m = c * weightedSum factor l := by
  have hl : ∀ p ∈ l, p.1 ∈ ((l ++ m).map Prod.fst).toFinset := fun p hp =>
    List.mem_toFinset.mpr (List.mem_map_of_mem (List.mem_append_left _ hp))
  have hm : ∀ p ∈ m, p.1 ∈ ((l ++ m).map Prod.fst).toFinset := fun p hp =>
    List.mem_toFinset.mpr (List.mem_map_of_mem (List.mem_append_right _ hp))
  rw [weightedSum_eq_sum factor hl, weightedSum_eq_sum factor hm, mul_sum]
  refine sum_congr rfl fun s _ => ?_
  by_cases hs : factor s = 0
  · rw [hs, zero_mul, zero_mul, mul_zero]
  · rw [h s hs]
    exact mul_left_comm _ _ _

end CommonTools.Lib
