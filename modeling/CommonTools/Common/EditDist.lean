import CommonTools.Similarity.EditMetric

/-! # The edit distance of `include/common`

Here a word in the place of another costs 1. The distance is that of
Levenshtein; it and the one of `Similarity/editDist` are metrics within a factor
of 2 of each other. -/
namespace CommonTools.Common
open CommonTools.Lib CommonTools.Similarity

variable {α : Type} [DecidableEq α]

/-- `EditDist::edit`, with what the new table holds. Lengths and costs are `int`s: the texts
have less than `2^31` words together. -/
def edit (new : Table) (str1 str2 : List α) : Int := editBy 1 new str1 str2

/-- **The distance is the length of a shortest script.** -/
theorem edit_isLeast (new : Table) (A B : List α) :
    ∃ n : Nat, edit new A B = n ∧
      IsLeast {m | ∃ script : List (Edit α), Turns script A B ∧ script.length = m} n := by
  obtain ⟨n, hdist, hn⟩ := editBy_isEditDist 1 new A B
  refine ⟨n, hn, ?_⟩
  unfold IsEditDist scriptCosts at hdist
  simp only [scriptCost_one] at hdist
  exact hdist

/-- A distance that is computed in a new table. -/
structure IsMetric (d : Table → List α → List α → Int) : Prop where
  eq_zero_iff : ∀ new A B, d new A B = 0 ↔ A = B
  symm : ∀ new new' A B, d new A B = d new' B A
  triangle : ∀ new new' new'' A B C, d new A C ≤ d new' A B + d new'' B C

theorem isMetric_editBy {sub : Nat} (hsub : 0 < sub) :
    IsMetric (fun new (A B : List α) => editBy sub new A B) where
  eq_zero_iff new A B := by
    obtain ⟨n, hdist, hn⟩ := editBy_isEditDist sub new A B
    rw [hn, Int.natCast_eq_zero]
    exact hdist.eq_zero_iff hsub
  symm new new' A B := by
    obtain ⟨n, hdist, hn⟩ := editBy_isEditDist sub new A B
    obtain ⟨n', hdist', hn'⟩ := editBy_isEditDist sub new' B A
    rw [hn, hn', hdist.unique hdist'.symm]
  triangle new new' new'' A B C := by
    obtain ⟨k, hac, hk⟩ := editBy_isEditDist sub new A C
    obtain ⟨m, hab, hm⟩ := editBy_isEditDist sub new' A B
    obtain ⟨n, hbc, hn⟩ := editBy_isEditDist sub new'' B C
    have hle := hab.triangle hbc hac
    rw [hk, hm, hn]
    omega

/-- **Both distances are metrics, and each bounds the other.** -/
theorem edit_metrics :
    IsMetric (@Similarity.edit α _) ∧ IsMetric (@edit α _) ∧
      ∀ new new' (A B : List α), edit new A B ≤ Similarity.edit new' A B ∧
        Similarity.edit new' A B ≤ 2 * edit new A B := by
  refine ⟨isMetric_editBy Nat.two_pos, isMetric_editBy Nat.one_pos, fun new new' A B => ?_⟩
  obtain ⟨m, hone, hm⟩ := editBy_isEditDist 1 new A B
  obtain ⟨n, htwo, hn⟩ := edit_isEditDist new' A B
  have hle : m ≤ 1 * n := htwo.scale Nat.one_pos (by omega) hone
  have hle' : n ≤ 2 * m := hone.scale Nat.two_pos (by omega) htwo
  have hm : edit new A B = m := hm
  rw [hn, hm]
  omega

end CommonTools.Common
