import Mathlib.Data.List.Basic
import Mathlib.Data.List.Induction
import Mathlib.Tactic.Common

/-! # The last pair with a key

What a map that is filled pair by pair keeps for a key comes from the last pair with that key. -/
namespace CommonTools.Lib

variable {κ ν : Type} {l before before' : List (κ × ν)} {k : κ} {v v' : ν}

/-- `(k, v)` stands behind `before`, and no pair behind it has its key. -/
def IsLast (l before : List (κ × ν)) (k : κ) (v : ν) : Prop :=
  ∃ after, l = before ++ (k, v) :: after ∧ ∀ e ∈ after, e.1 ≠ k

theorem not_isLast_nil : ¬ IsLast ([] : List (κ × ν)) before k v := by simp [IsLast]

theorem isLast_concat_iff {e : κ × ν} : IsLast (l ++ [e]) before k v ↔
    (e = (k, v) ∧ before = l) ∨ (e.1 ≠ k ∧ IsLast l before k v) := by
  constructor
  · intro h
    obtain ⟨after, heq, hnone⟩ := h
    rcases List.eq_nil_or_concat' after with rfl | ⟨after, last, rfl⟩
    · obtain ⟨hl, he⟩ := List.append_inj' heq rfl
      exact .inl ⟨List.head_eq_of_cons_eq he, hl.symm⟩
    · rw [← List.cons_append, ← List.append_assoc] at heq
      obtain ⟨hl, he⟩ := List.append_inj' heq rfl
      obtain rfl := List.head_eq_of_cons_eq he
      exact .inr ⟨hnone e (by simp), after, hl, fun x hx => hnone x (by simp [hx])⟩
  · intro h
    rcases h with ⟨rfl, rfl⟩ | ⟨hne, after, rfl, hnone⟩
    · exact ⟨[], rfl, by simp⟩
    · refine ⟨after ++ [e], by simp, fun x hx => ?_⟩
      rcases List.mem_append.mp hx with hx | hx
      · exact hnone x hx
      · rw [List.mem_singleton.mp hx]
        exact hne

theorem IsLast.unique : ∀ {l : List (κ × ν)}, IsLast l before k v → IsLast l before' k v' →
    before = before' ∧ v = v' := by
  intro l
  induction l using List.reverseRecOn with
  | nil =>
    intro h
    exact absurd h not_isLast_nil
  | append_singleton l e ih =>
    intro h h'
    rcases isLast_concat_iff.mp h with ⟨he, rfl⟩ | ⟨hne, h⟩
    · rcases isLast_concat_iff.mp h' with ⟨he', rfl⟩ | ⟨hne', -⟩
      · rw [he] at he'
        exact ⟨rfl, (Prod.mk.inj he').2⟩
      · exact absurd (by rw [he]) hne'
    · rcases isLast_concat_iff.mp h' with ⟨he', -⟩ | ⟨-, h'⟩
      · exact absurd (by rw [he']) hne
      · exact ih h h'

end CommonTools.Lib
