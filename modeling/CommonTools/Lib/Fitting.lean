import Mathlib.Data.List.Basic
import Mathlib.Tactic.Common

/-! # Blocks that fit

A text of blocks is cut to a number of elements between two blocks. Taking blocks as long as
they fit gives the longest such part. -/
namespace CommonTools.Lib

variable {α : Type}

/-- The blocks from the front on, as long as they fit. -/
def fitting : Nat → List (List α) → List α
  | _, [] => []
  | len, b :: blocks => if b.length ≤ len then b ++ fitting (len - b.length) blocks else []

/-- `p` is the longest of the parts that end between two blocks and have at most `len`
elements. -/
def LongestPart (len : Nat) (blocks : List (List α)) (p : List α) : Prop :=
  (∃ k, p = (blocks.take k).flatten) ∧ p.length ≤ len ∧
    ∀ k, (blocks.take k).flatten.length ≤ len → (blocks.take k).flatten.length ≤ p.length

section
variable {len : Nat} {blocks : List (List α)}

theorem fitting_length_le : ∀ {blocks : List (List α)} {len : Nat},
    (fitting len blocks).length ≤ len
  | [], len => Nat.zero_le len
  | b :: blocks, len => by
    rw [fitting]
    split
    · rename_i hb
      have ih := @fitting_length_le blocks (len - b.length)
      rw [List.length_append]
      omega
    · exact Nat.zero_le len

theorem fitting_eq_flatten : ∀ {blocks : List (List α)} {len : Nat},
    blocks.flatten.length ≤ len → fitting len blocks = blocks.flatten
  | [], _, _ => rfl
  | b :: blocks, len, h => by
    rw [List.flatten_cons, List.length_append] at h
    rw [fitting, if_pos (by omega), fitting_eq_flatten (by omega), List.flatten_cons]

theorem fitting_take : ∀ (blocks : List (List α)) (len : Nat),
    ∃ k, fitting len blocks = (blocks.take k).flatten
  | [], _ => ⟨0, rfl⟩
  | b :: blocks, len => by
    rw [fitting]
    split
    · obtain ⟨k, hk⟩ := fitting_take blocks (len - b.length)
      refine ⟨k + 1, ?_⟩
      rw [hk, List.take_succ_cons, List.flatten_cons]
    · exact ⟨0, rfl⟩

theorem fitting_initial (blocks : List (List α)) (len : Nat) :
    fitting len blocks <+: blocks.flatten := by
  obtain ⟨k, hk⟩ := fitting_take blocks len
  refine ⟨(blocks.drop k).flatten, ?_⟩
  rw [hk, ← List.flatten_append, List.take_append_drop]

theorem length_le_fitting : ∀ {blocks : List (List α)} {len : Nat} (k : Nat),
    (blocks.take k).flatten.length ≤ len →
      (blocks.take k).flatten.length ≤ (fitting len blocks).length
  | [], _, k, _ => by
    rw [List.take_nil]
    exact Nat.zero_le _
  | _ :: _, _, 0, _ => Nat.zero_le _
  | b :: blocks, len, k + 1, h => by
    rw [List.take_succ_cons, List.flatten_cons, List.length_append] at h ⊢
    have ih := @length_le_fitting blocks (len - b.length) k (by omega)
    rw [fitting, if_pos (by omega), List.length_append]
    omega

theorem longestPart_iff {p : List α} : LongestPart len blocks p ↔ p = fitting len blocks := by
  obtain ⟨k', hk'⟩ := fitting_take blocks len
  constructor
  · rintro ⟨⟨k, rfl⟩, hlen, hmax⟩
    have hle := length_le_fitting k hlen
    have hge := hmax k' (hk' ▸ fitting_length_le)
    rw [← hk'] at hge
    have hpre : (blocks.take k).flatten <+: blocks.flatten := by
      refine ⟨(blocks.drop k).flatten, ?_⟩
      rw [← List.flatten_append, List.take_append_drop]
    exact (List.prefix_of_prefix_length_le hpre (fitting_initial blocks len) hle).eq_of_length
      (Nat.le_antisymm hle hge)
  · rintro rfl
    exact ⟨⟨k', hk'⟩, fitting_length_le, fun k => length_le_fitting k⟩

end

end CommonTools.Lib
