import Mathlib.Data.List.InsertIdx
import Mathlib.Data.List.Sort

/-! # Stable sorting by insertion

A new element goes behind all elements with the same key or a smaller one. Elements
inserted one after another stand in ascending order, those with the same key in the order
in which they came. -/
namespace CommonTools.Lib

variable {α κ : Type} [LinearOrder κ] {key : α → κ}

/-- `sorted` is `l` in ascending order, elements with the same key in their order in `l`. -/
structure StableSort (key : α → κ) (l sorted : List α) : Prop where
  perm : sorted.Perm l
  ascending : sorted.Pairwise fun a b => key a ≤ key b
  stable : ∀ k, sorted.filter (key · = k) = l.filter (key · = k)

theorem StableSort.nil : StableSort key [] [] := ⟨.refl [], .nil, fun _ => rfl⟩

/-- Put an element in front of the first one with a larger key. -/
def insertBehind (key : α → κ) (a : α) (l : List α) : List α :=
  l.orderedInsert (fun a b => key a < key b) a

theorem insertBehind_cons_lt {a b : α} {l : List α} (h : key a < key b) :
    insertBehind key a (b :: l) = a :: b :: l := by
  simp [insertBehind, h]

theorem insertBehind_cons_not_lt {a b : α} {l : List α} (h : ¬ key a < key b) :
    insertBehind key a (b :: l) = b :: insertBehind key a l := by
  simp [insertBehind, h]

theorem insertIdx_findIdx (a : α) (l : List α) :
    l.insertIdx ((l.map key).findIdx (key a < ·)) a = insertBehind key a l := by
  induction l with
  | nil => rfl
  | cons b l ih =>
    by_cases h : key a < key b
    · simp [insertBehind_cons_lt h, List.findIdx_cons, h]
    · rw [insertBehind_cons_not_lt h, List.map_cons, List.findIdx_cons, decide_eq_false h,
        cond_false, List.insertIdx_succ_cons, ih]

theorem map_insertBehind (a : α) (l : List α) :
    (l.map key).insertIdx ((l.map key).findIdx (key a < ·)) (key a) =
      (insertBehind key a l).map key := by
  rw [← insertIdx_findIdx, List.map_insertIdx]

theorem insertBehind_of_all {a : α} {l : List α} (h : (l.map key).findIdx (key a < ·) = l.length) :
    insertBehind key a l = l ++ [a] := by
  rw [← insertIdx_findIdx, h, List.insertIdx_length_self]

section
variable {a : α} {l : List α}

theorem ascending_insertBehind (hl : l.Pairwise fun a b => key a ≤ key b) :
    (insertBehind key a l).Pairwise fun a b => key a ≤ key b := by
  induction l with
  | nil => simp [insertBehind]
  | cons b l ih =>
    obtain ⟨hb, hrest⟩ := List.pairwise_cons.mp hl
    by_cases h : key a < key b
    · rw [insertBehind_cons_lt h]
      refine List.pairwise_cons.mpr ⟨fun c hc => ?_, hl⟩
      rcases List.mem_cons.mp hc with rfl | hc
      · exact h.le
      · exact h.le.trans (hb c hc)
    · rw [insertBehind_cons_not_lt h]
      refine List.pairwise_cons.mpr ⟨fun c hc => ?_, ih hrest⟩
      rcases (List.mem_orderedInsert _).mp hc with rfl | hc
      · exact not_lt.mp h
      · exact hb c hc

/-- Among the elements with its key the new one is the last. -/
theorem filter_insertBehind (hl : l.Pairwise fun a b => key a ≤ key b) (k : κ) :
    (insertBehind key a l).filter (key · = k) = (l ++ [a]).filter (key · = k) := by
  induction l with
  | nil => rfl
  | cons b l ih =>
    obtain ⟨hb, hrest⟩ := List.pairwise_cons.mp hl
    by_cases h : key a < key b
    · rw [insertBehind_cons_lt h, List.filter_append]
      by_cases hk : key a = k
      · -- behind the new element all keys are larger
        have hnone : (b :: l).filter (key · = k) = [] := by
          refine List.filter_eq_nil_iff.mpr fun c hc heq => ?_
          have heq : key c = key a := by rw [of_decide_eq_true heq, hk]
          rcases List.mem_cons.mp hc with rfl | hc
          · exact h.ne' heq
          · exact (h.trans_le (hb c hc)).ne' heq
        rw [hnone, List.filter_cons_of_pos (by simpa using hk), hnone]
        simp [hk]
      · simp [hk]
    · rw [insertBehind_cons_not_lt h, List.cons_append, List.filter_cons, List.filter_cons,
        ih hrest]

end

/-- Inserting the next element sorts one more element. -/
theorem StableSort.insertBehind {l sorted : List α} (h : StableSort key l sorted) (a : α) :
    StableSort key (l ++ [a]) (insertBehind key a sorted) where
  perm :=
    (List.perm_orderedInsert _ a sorted).trans
      ((h.perm.cons a).trans (List.perm_append_singleton a l).symm)
  ascending := ascending_insertBehind h.ascending
  stable k := by
    rw [filter_insertBehind h.ascending, List.filter_append, h.stable k, ← List.filter_append]

end CommonTools.Lib
