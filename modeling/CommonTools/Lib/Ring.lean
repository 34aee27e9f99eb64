import Mathlib.Logic.Function.Basic
import Mathlib.Data.List.Nodup
import Mathlib.Tactic.Common

/-! # Doubly linked rings

The nodes of a ring are addresses; two functions hold the pointers stored at
them. `Linked` reads a stretch of nodes in both directions, a `Ring` is a
stretch from the sentinel back to itself. Insertion behind the sentinel and
deletion anywhere keep rings, and an address outside the stretch may hold
anything. -/
namespace CommonTools.Lib

variable {α : Type}

/-- From `a` the nodes `xs` and then `b`, forwards along `next` and backwards
along `prev`. -/
def Linked (next prev : α → α) : α → List α → α → Prop
  | a, [], b => next a = b ∧ prev b = a
  | a, x :: xs, b => (next a = x ∧ prev x = a) ∧ Linked next prev x xs b

/-- The nodes of the ring through the sentinel `h`, in the order of `next`. -/
structure Ring (next prev : α → α) (h : α) (xs : List α) : Prop where
  nodup : (h :: xs).Nodup
  linked : Linked next prev h xs h

section
variable {next prev next' prev' : α → α}

/-- Only the pointers along the stretch matter. -/
theorem Linked.congr : ∀ {xs : List α} {a b : α}, Linked next prev a xs b →
    (∀ p ∈ a :: xs, next' p = next p) → (∀ p ∈ xs ++ [b], prev' p = prev p) →
    Linked next' prev' a xs b
  | [], a, b, h, hnext, hprev => by
    obtain ⟨hn, hp⟩ := h
    refine ⟨?_, ?_⟩
    · rw [hnext a List.mem_cons_self, hn]
    · rw [hprev b (by simp), hp]
  | x :: xs, a, b, h, hnext, hprev => by
    obtain ⟨⟨hn, hp⟩, hrest⟩ := h
    refine ⟨⟨?_, ?_⟩, hrest.congr ?_ ?_⟩
    · rw [hnext a List.mem_cons_self, hn]
    · rw [hprev x (by simp), hp]
    · exact fun p hin => hnext p (List.mem_cons_of_mem a hin)
    · exact fun p hin => hprev p (List.mem_cons_of_mem x hin)

theorem Linked.next_mem : ∀ {xs : List α} {a b : α}, Linked next prev a xs b → next a ∈ xs ++ [b]
  | [], _, _, h => by rw [h.1]; simp
  | _ :: _, _, _, h => by rw [h.1.1]; simp

theorem Linked.prev_mem : ∀ {xs : List α} {a b : α}, Linked next prev a xs b → prev b ∈ a :: xs
  | [], _, _, h => by rw [h.2]; simp
  | _ :: _, a, _, h => List.mem_cons_of_mem a h.2.prev_mem

theorem Linked.prev_eq : ∀ {xs : List α} {a b : α}, Linked next prev a xs b →
    prev b = (a :: xs).getLast (List.cons_ne_nil a xs)
  | [], _, _, h => h.2
  | x :: xs, a, b, h => by
    rw [List.getLast_cons (List.cons_ne_nil x xs)]
    exact h.2.prev_eq

theorem linked_append : ∀ {xs : List α} {a y b : α} {ys : List α},
    Linked next prev a (xs ++ y :: ys) b ↔ Linked next prev a xs y ∧ Linked next prev y ys b := by
  intro xs
  induction xs with
  | nil =>
    intro _ _ _ _
    exact Iff.rfl
  | cons x xs ih =>
    intro a y b ys
    show (next a = x ∧ prev x = a) ∧ Linked next prev x (xs ++ y :: ys) b ↔
      ((next a = x ∧ prev x = a) ∧ Linked next prev x xs y) ∧ Linked next prev y ys b
    exact (and_congr_right fun _ => ih).trans and_assoc.symm

/-! ## Deletion -/

variable [DecidableEq α]

/-- The two stretches around `y` are joined when its neighbours are told of
each other. -/
theorem Linked.delete : ∀ {xs : List α} {a y b : α} {ys : List α},
    Linked next prev a xs y → Linked next prev y ys b →
    (a :: xs ++ y :: ys).Nodup → b ∉ xs ++ y :: ys →
    Linked (Function.update next (prev y) (next y)) (Function.update prev (next y) (prev y))
      a (xs ++ ys) b
  | [], a, y, b, [], hl, hr, _, _ => by
    rw [hl.2, hr.1]
    exact ⟨Function.update_self .., Function.update_self ..⟩
  | [], a, y, b, z :: zs, hl, hr, hnd, hb => by
    obtain ⟨⟨hz, -⟩, hrest⟩ := hr
    rw [hl.2, hz]
    simp only [List.cons_append, List.nil_append, List.nodup_cons, List.mem_cons, not_or] at hnd hb
    refine ⟨⟨Function.update_self .., Function.update_self ..⟩, hrest.congr ?_ ?_⟩
    · intro p hp
      refine Function.update_of_ne ?_ _ _
      rintro rfl
      cases List.mem_cons.mp hp with
      | inl he => exact hnd.1.2.1 he
      | inr hin => exact hnd.1.2.2 hin
    · intro p hp
      refine Function.update_of_ne ?_ _ _
      rintro rfl
      cases List.mem_append.mp hp with
      | inl hin => exact hnd.2.2.1 hin
      | inr he => exact hb.2.1 (List.mem_singleton.mp he).symm
  | x :: xs, a, y, b, ys, hl, hr, hnd, hb => by
    obtain ⟨⟨hx, ha⟩, hl⟩ := hl
    have hnd' := (List.nodup_cons.mp hnd).2
    have hb' : b ∉ xs ++ y :: ys := fun hin => hb (List.mem_cons_of_mem x hin)
    refine ⟨⟨?_, ?_⟩, hl.delete hr hnd' hb'⟩
    · rw [Function.update_of_ne ?_, hx]
      intro he
      have hin : a ∈ x :: xs := he ▸ hl.prev_mem
      exact (List.nodup_cons.mp hnd).1 (List.mem_append_left _ hin)
    · rw [Function.update_of_ne ?_, ha]
      intro he
      have hin : x ∈ ys ++ [b] := he ▸ hr.next_mem
      cases List.mem_append.mp hin with
      | inl hin =>
        exact (List.nodup_cons.mp hnd').1 (List.mem_append_right xs (List.mem_cons_of_mem y hin))
      | inr he => exact hb (List.mem_singleton.mp he ▸ List.mem_cons_self)

end

/-! ## Rings -/

namespace Ring
variable {next prev : α → α} {h : α}

theorem empty (hn : next h = h) (hp : prev h = h) : Ring next prev h [] :=
  ⟨List.nodup_singleton h, hn, hp⟩

/-- The sentinel points to the first node, or to itself. -/
theorem next_head {xs : List α} (r : Ring next prev h xs) : next h = xs.head?.getD h := by
  cases xs with
  | nil => exact r.linked.1
  | cons x xs => exact r.linked.1.1

theorem prev_head {xs : List α} (r : Ring next prev h xs) : prev h = xs.getLast?.getD h := by
  rw [r.linked.prev_eq]
  cases xs with
  | nil => rfl
  | cons x xs =>
    rw [List.getLast_cons (List.cons_ne_nil x xs),
      List.getLast?_eq_some_getLast (List.cons_ne_nil x xs)]
    rfl

variable [DecidableEq α]

theorem insert {xs : List α} (r : Ring next prev h xs) {x : α} (hx : x ∉ h :: xs) :
    Ring (Function.update (Function.update next x (next h)) h x)
      (Function.update (Function.update prev (next h) x) x h) h (x :: xs) := by
  obtain ⟨hnd, hl⟩ := r
  simp only [List.mem_cons, not_or] at hx
  obtain ⟨hxh, hxs⟩ := hx
  have hhxs := (List.nodup_cons.mp hnd).1
  refine ⟨?_, ⟨Function.update_self .., Function.update_self ..⟩, ?_⟩
  · refine List.nodup_cons.mpr ⟨?_, List.nodup_cons.mpr ⟨hxs, (List.nodup_cons.mp hnd).2⟩⟩
    intro hin
    cases List.mem_cons.mp hin with
    | inl he => exact hxh he.symm
    | inr hin => exact hhxs hin
  · cases xs with
    | nil =>
      rw [hl.1]
      refine ⟨?_, ?_⟩
      · rw [Function.update_of_ne hxh, Function.update_self]
      · rw [Function.update_of_ne (Ne.symm hxh), Function.update_self]
    | cons y ys =>
      obtain ⟨⟨hy, -⟩, hrest⟩ := hl
      rw [hy]
      simp only [List.mem_cons, not_or] at hxs hhxs
      have hyys := (List.nodup_cons.mp (List.nodup_cons.mp hnd).2).1
      refine ⟨⟨?_, ?_⟩, hrest.congr ?_ ?_⟩
      · rw [Function.update_of_ne hxh, Function.update_self]
      · rw [Function.update_of_ne (Ne.symm hxs.1), Function.update_self]
      · intro p hp
        have hph : p ≠ h := by
          rintro rfl
          exact (List.nodup_cons.mp hnd).1 hp
        have hpx : p ≠ x := by
          rintro rfl
          cases List.mem_cons.mp hp with
          | inl he => exact hxs.1 he
          | inr hin => exact hxs.2 hin
        rw [Function.update_of_ne hph, Function.update_of_ne hpx]
      · intro p hp
        have hpx : p ≠ x := by
          rintro rfl
          cases List.mem_append.mp hp with
          | inl hin => exact hxs.2 hin
          | inr he => exact hxh (List.mem_singleton.mp he)
        have hpy : p ≠ y := by
          rintro rfl
          cases List.mem_append.mp hp with
          | inl hin => exact hyys hin
          | inr he => exact hhxs.1 (List.mem_singleton.mp he).symm
        rw [Function.update_of_ne hpx, Function.update_of_ne hpy]

theorem delete {xs ys : List α} {y : α} (r : Ring next prev h (xs ++ y :: ys)) :
    Ring (Function.update next (prev y) (next y)) (Function.update prev (next y) (prev y)) h
      (xs ++ ys) := by
  obtain ⟨hnd, hl⟩ := r
  obtain ⟨hleft, hright⟩ := linked_append.mp hl
  refine ⟨?_, hleft.delete hright hnd (List.nodup_cons.mp hnd).1⟩
  refine hnd.sublist (List.Sublist.cons_cons h ?_)
  exact List.Sublist.append_left (List.sublist_cons_self y ys) xs

end Ring

end CommonTools.Lib
