import Mathlib.Data.List.Basic
import Mathlib.Data.List.TakeWhile
import Mathlib.Tactic.Common

/-! # The newest values of a list, and cutting the dead ones off

A list is in order of age with the newest value at the end. Cutting a list
from the front is safe when no live value among the newest ones goes. -/
namespace CommonTools.Lib

variable {α : Type}

def newest (n : Nat) (l : List α) : List α := l.drop (l.length - n)

/-- The newest `n` values without the dead ones at their front. -/
def liveNewest (dead : α → Bool) (n : Nat) (l : List α) : List α := (newest n l).dropWhile dead

/-- Only values at the front went, and none that is live and among the newest
`n`. -/
structure KeepsLive (dead : α → Bool) (n : Nat) (before after : List α) : Prop where
  suffix : after <:+ before
  keeps : ∀ i v, before[i]? = some v → before.length ≤ i + n → dead v = false →
    before.length ≤ i + after.length

theorem length_newest (n : Nat) (l : List α) : (newest n l).length = min n l.length := by
  rw [newest, List.length_drop]
  omega

theorem length_liveNewest_le (dead : α → Bool) (n : Nat) (l : List α) :
    (liveNewest dead n l).length ≤ l.length :=
  (List.dropWhile_suffix dead).length_le.trans (List.drop_suffix _ l).length_le

theorem length_takeWhile_add (dead : α → Bool) (l : List α) :
    (l.takeWhile dead).length + (l.dropWhile dead).length = l.length := by
  rw [← List.length_append, List.takeWhile_append_dropWhile]

/-- The value after the leading dead ones is live. -/
theorem live_after_takeWhile {dead : α → Bool} {l : List α} (h : l.dropWhile dead ≠ []) :
    ∃ v, l[(l.takeWhile dead).length]? = some v ∧ dead v = false := by
  obtain ⟨v, rest, hrest⟩ := List.exists_cons_of_ne_nil h
  refine ⟨v, ?_, ?_⟩
  · have hat : (l.takeWhile dead ++ v :: rest)[(l.takeWhile dead).length]? = some v := by
      rw [List.getElem?_append_right (Nat.le_refl _), Nat.sub_self]
      rfl
    rwa [← hrest, List.takeWhile_append_dropWhile] at hat
  · have hhead := List.head?_dropWhile_not dead l
    rw [hrest] at hhead
    simpa using hhead

/-- A live value stands behind the leading dead ones. -/
theorem length_takeWhile_le {dead : α → Bool} {l : List α} {i : Nat} {v : α}
    (hv : l[i]? = some v) (hlive : dead v = false) : (l.takeWhile dead).length ≤ i := by
  by_contra hlt
  rw [Nat.not_le] at hlt
  have hmem : v ∈ l.takeWhile dead := by
    rw [← List.takeWhile_append_dropWhile (p := dead) (l := l),
      List.getElem?_append_left hlt] at hv
    exact List.mem_of_getElem? hv
  rw [List.mem_takeWhile_imp hmem] at hlive
  cases hlive

/-- **When a cut keeps the live values**: it leaves at least what follows the
leading dead ones. -/
theorem keepsLive_drop_iff (dead : α → Bool) (n m : Nat) (l : List α) :
    KeepsLive dead n l (l.drop m) ↔ (liveNewest dead n l).length ≤ l.length - m := by
  have hsplit := length_takeWhile_add dead (newest n l)
  rw [length_newest] at hsplit
  constructor
  · intro h
    by_cases hnil : liveNewest dead n l = []
    · rw [hnil]; exact Nat.zero_le _
    · obtain ⟨v, hv, hlive⟩ := live_after_takeWhile hnil
      rw [newest, List.getElem?_drop] at hv
      have hkeep := h.keeps _ v hv (by omega) hlive
      rw [List.length_drop] at hkeep
      rw [liveNewest]
      rw [← newest] at hkeep
      omega
  · intro hle
    refine ⟨List.drop_suffix m l, fun i v hv hnew hlive => ?_⟩
    have hlt : i < l.length := (List.getElem?_eq_some_iff.mp hv).1
    have hat : (newest n l)[i - (l.length - n)]? = some v := by
      rw [newest, List.getElem?_drop, Nat.add_sub_cancel' (by omega), hv]
    have hbehind := length_takeWhile_le hat hlive
    rw [liveNewest] at hle
    rw [List.length_drop]
    omega

theorem keepsLive_refl (dead : α → Bool) (n : Nat) (l : List α) : KeepsLive dead n l l :=
  ⟨List.suffix_refl l, fun _ _ _ _ _ => Nat.le_add_left _ _⟩

/-- Which values are dead decides what is left. -/
theorem length_liveNewest_congr {dead : α → Bool} {l l' : List α}
    (h : l.map dead = l'.map dead) (n : Nat) :
    (liveNewest dead n l).length = (liveNewest dead n l').length := by
  have hflags : ∀ l : List α, (liveNewest dead n l).length =
      (liveNewest id n (l.map dead)).length := fun l => by
    rw [liveNewest, liveNewest, newest, newest, List.length_map, ← List.map_drop,
      List.dropWhile_map, List.length_map]
    rfl
  rw [hflags l, hflags l', h]

end CommonTools.Lib
