import Mathlib.Data.List.Basic
import Mathlib.Order.Bounds.Basic
import Mathlib.Tactic.Common

/-! # Longest common subsequences

The length of a longest common subsequence of two lists, by their last
elements. -/
namespace CommonTools.Lib

variable {α : Type}

def commonLengths (A B : List α) : Set Nat :=
  {n | ∃ c : List α, c.Sublist A ∧ c.Sublist B ∧ c.length = n}

theorem commonLengths_mono {A A' B B' : List α} (hA : A.Sublist A') (hB : B.Sublist B') :
    commonLengths A B ⊆ commonLengths A' B' := by
  rintro n ⟨c, hc, hc', rfl⟩
  exact ⟨c, hc.trans hA, hc'.trans hB, rfl⟩

/-- `n` is the length of a longest common subsequence. -/
def IsLcs (A B : List α) (n : Nat) : Prop := IsGreatest (commonLengths A B) n

theorem isLcs_nil_right (A : List α) : IsLcs A [] 0 := by
  refine ⟨⟨[], List.nil_sublist _, List.nil_sublist _, rfl⟩, ?_⟩
  rintro n ⟨c, -, hc, rfl⟩
  rw [List.sublist_nil.mp hc, List.length_nil]

theorem isLcs_nil_left (B : List α) : IsLcs [] B 0 := by
  refine ⟨⟨[], List.nil_sublist _, List.nil_sublist _, rfl⟩, ?_⟩
  rintro n ⟨c, hc, -, rfl⟩
  rw [List.sublist_nil.mp hc, List.length_nil]

/-- A subsequence does without the last element or ends with it. -/
theorem sublist_snoc {c A : List α} {a : α} (h : c.Sublist (A ++ [a])) :
    c.Sublist A ∨ ∃ c', c = c' ++ [a] ∧ c'.Sublist A := by
  obtain ⟨c₁, c₂, rfl, h₁, h₂⟩ := List.sublist_append_iff.mp h
  cases List.sublist_singleton.mp h₂ with
  | inl hnil =>
    rw [hnil, List.append_nil]
    exact .inl h₁
  | inr hone => exact .inr ⟨c₁, by rw [hone], h₁⟩

theorem IsLcs.snoc [DecidableEq α] {A B : List α} {a b : α} {left up diag : Nat}
    (hleft : IsLcs (A ++ [a]) B left) (hup : IsLcs A (B ++ [b]) up) (hdiag : IsLcs A B diag) :
    IsLcs (A ++ [a]) (B ++ [b]) (max (max left up) (if a = b then diag + 1 else diag)) := by
  have hA := List.sublist_append_left A [a]
  have hB := List.sublist_append_left B [b]
  constructor
  · have hends : (if a = b then diag + 1 else diag) ∈ commonLengths (A ++ [a]) (B ++ [b]) := by
      split
      · rename_i heq
        subst heq
        obtain ⟨c, hcA, hcB, rfl⟩ := hdiag.1
        exact ⟨c ++ [a], hcA.append_right [a], hcB.append_right [a], by simp⟩
      · exact commonLengths_mono hA hB hdiag.1
    refine max_rec' _ (max_rec' _ ?_ ?_) hends
    · exact commonLengths_mono (List.Sublist.refl _) hB hleft.1
    · exact commonLengths_mono hA (List.Sublist.refl _) hup.1
  · rintro n ⟨c, hcA, hcB, rfl⟩
    rcases sublist_snoc hcB with hinB | ⟨cB, rfl, hinB⟩
    · have hle : c.length ≤ left := hleft.2 ⟨c, hcA, hinB, rfl⟩
      omega
    · rcases sublist_snoc hcA with hinA | ⟨cA, heq, hinA⟩
      · have hle : (cB ++ [b]).length ≤ up := hup.2 ⟨_, hinA, hcB, rfl⟩
        omega
      · -- both ends are matched
        obtain ⟨rfl, hends⟩ := List.append_inj' heq rfl
        have hle : cB.length ≤ diag := hdiag.2 ⟨cB, hinA, hinB, rfl⟩
        rw [List.length_append, List.length_singleton, if_pos (List.singleton_inj.mp hends).symm]
        omega

end CommonTools.Lib
