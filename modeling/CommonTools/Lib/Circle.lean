import CommonTools.Lib.Ring

/-! # Circles

A circle is a ring without a sentinel: any member may be the first. The first one can be
taken out like the others, and two circles are joined at their ends. -/
namespace CommonTools.Lib

variable {α : Type} {next prev next' prev' : α → α}

/-- The members of a circle from its first one on. -/
def Circle (next prev : α → α) : List α → Prop
  | [] => True
  | x :: xs => Ring next prev x xs

namespace Circle
variable {x y : α} {xs ys l : List α}

theorem nodup (h : Circle next prev l) : l.Nodup := by
  cases l with
  | nil => exact List.nodup_nil
  | cons x xs => exact Ring.nodup h

/-- Only the pointers of the members matter. -/
theorem congr (h : Circle next prev l) (hnext : ∀ p ∈ l, next' p = next p)
    (hprev : ∀ p ∈ l, prev' p = prev p) : Circle next' prev' l := by
  cases l with
  | nil => trivial
  | cons x xs =>
    refine ⟨h.nodup, (Ring.linked h).congr hnext fun p hp => hprev p ?_⟩
    rw [List.mem_append, List.mem_singleton] at hp
    rw [List.mem_cons]
    exact hp.symm

theorem rotate (h : Circle next prev (x :: y :: xs)) : Circle next prev (y :: (xs ++ [x])) := by
  obtain ⟨hnd, hxy, hlinked⟩ := h
  refine ⟨?_, linked_append.mpr ⟨hlinked, hxy⟩⟩
  rw [← List.cons_append]
  exact (List.perm_append_singleton x (y :: xs)).nodup_iff.mpr hnd

theorem next_eq (h : Circle next prev (xs ++ x :: y :: ys)) : next x = y := by
  cases xs with
  | nil => exact (Ring.linked h).1.1
  | cons z xs =>
    have hlinked : Linked next prev z (xs ++ x :: y :: ys) z := Ring.linked h
    exact (linked_append.mp hlinked).2.1.1

/-- Behind the last member the circle closes. -/
theorem next_last (h : Circle next prev (xs ++ [x])) : next x = (xs ++ [x]).head (by simp) := by
  cases xs with
  | nil => exact (Ring.linked h).1
  | cons z xs =>
    have hlinked : Linked next prev z (xs ++ [x]) z := Ring.linked h
    exact (linked_append.mp hlinked).2.1

theorem next_mem (h : Circle next prev l) (hx : x ∈ l) : next x ∈ l := by
  obtain ⟨xs, ys, rfl⟩ := List.append_of_mem hx
  cases ys with
  | nil =>
    rw [h.next_last]
    exact List.head_mem _
  | cons y ys =>
    rw [h.next_eq]
    simp

theorem prev_head (h : Circle next prev (x :: xs)) :
    prev x = (x :: xs).getLast (List.cons_ne_nil x xs) := (Ring.linked h).prev_eq

theorem prev_mem (h : Circle next prev l) (hx : x ∈ l) : prev x ∈ l := by
  cases l with
  | nil => simp at hx
  | cons z zs =>
    by_cases hz : x = z
    · rw [hz, h.prev_head]
      exact List.getLast_mem _
    · obtain ⟨xs, ys, hsplit⟩ := List.append_of_mem (List.mem_of_ne_of_mem hz hx)
      have hlinked : Linked next prev z zs z := Ring.linked h
      rw [hsplit] at hlinked ⊢
      have hin := (linked_append.mp hlinked).1.prev_mem
      rw [← List.cons_append]
      exact List.mem_append_left _ hin

section
variable [DecidableEq α]

/-- A member taken out, also the first one. -/
theorem erase (h : Circle next prev l) (hy : y ∈ l) :
    Circle (Function.update next (prev y) (next y)) (Function.update prev (next y) (prev y))
      (l.erase y) := by
  cases l with
  | nil => simp at hy
  | cons x xs =>
    by_cases hyx : y = x
    · subst hyx
      rw [List.erase_cons_head]
      cases xs with
      | nil => trivial
      | cons z xs =>
        have hring : Ring next prev z (xs ++ y :: []) := h.rotate
        have hdel := hring.delete
        rwa [List.append_nil] at hdel
    · have hin : y ∈ xs := List.mem_of_ne_of_mem hyx hy
      obtain ⟨ys, zs, rfl⟩ := List.append_of_mem hin
      have hout : y ∉ ys := by
        have hnd := (List.nodup_cons.mp h.nodup).2
        exact fun hmem => (List.nodup_append.mp hnd).2.2 y hmem y List.mem_cons_self rfl
      rw [List.erase_cons_tail (by simpa using Ne.symm hyx), List.erase_append_right _ hout,
        List.erase_cons_head]
      exact Ring.delete h

/-- The last pointer of a stretch turned to another node. -/
theorem linked_turn : ∀ {xs : List α} {a b c : α}, Linked next prev a xs b → (a :: xs).Nodup →
    c ∉ xs → Linked (Function.update next (prev b) c) (Function.update prev c (prev b)) a xs c
  | [], a, b, c, h, _, _ => by
    rw [h.2]
    exact ⟨Function.update_self .., Function.update_self ..⟩
  | x :: xs, a, b, c, h, hnd, hc => by
    obtain ⟨⟨hax, hxa⟩, hrest⟩ := h
    rw [List.mem_cons, not_or] at hc
    refine ⟨⟨?_, ?_⟩, linked_turn hrest (List.nodup_cons.mp hnd).2 hc.2⟩
    · rw [Function.update_of_ne ?_, hax]
      intro he
      exact (List.nodup_cons.mp hnd).1 (he ▸ hrest.prev_mem)
    · rw [Function.update_of_ne (Ne.symm hc.1), hxa]

/-- Two circles joined behind the last member of the first. -/
theorem append (h : Circle next prev (x :: xs)) (h' : Circle next prev (y :: ys))
    (hdisj : ∀ p ∈ x :: xs, p ∉ y :: ys) :
    Circle (Function.update (Function.update next (prev y) x) (prev x) y)
      (Function.update (Function.update prev y (prev x)) x (prev y)) (x :: xs ++ y :: ys) := by
  have hx : prev x ∈ x :: xs := h.prev_mem List.mem_cons_self
  have hy : prev y ∈ y :: ys := h'.prev_mem List.mem_cons_self
  have hnd := List.nodup_cons.mp h.nodup
  have hnd' := List.nodup_cons.mp h'.nodup
  have hxy : x ≠ y := fun he => hdisj x List.mem_cons_self (he ▸ List.mem_cons_self)
  refine ⟨?_, linked_append.mpr ⟨?_, ?_⟩⟩
  · show (x :: xs ++ y :: ys).Nodup
    exact List.nodup_append.mpr ⟨h.nodup, h'.nodup, fun p hp q hq he => hdisj p hp (he ▸ hq)⟩
  · refine (linked_turn (Ring.linked h) h.nodup ?_).congr (fun p hp => ?_) fun p hp => ?_
    · exact fun hin => hdisj y (List.mem_cons_of_mem x hin) List.mem_cons_self
    · by_cases hpx : p = prev x
      · rw [hpx, Function.update_self, Function.update_self]
      · rw [Function.update_of_ne hpx, Function.update_of_ne hpx, Function.update_of_ne ?_]
        rintro rfl
        exact hdisj _ hp hy
    · refine Function.update_of_ne ?_ _ _
      rintro rfl
      rcases List.mem_append.mp hp with hin | hin
      · exact hnd.1 hin
      · exact hxy (List.mem_singleton.mp hin)
  · refine (linked_turn (Ring.linked h') h'.nodup ?_).congr (fun p hp => ?_) fun p hp => ?_
    · exact fun hin => hdisj x List.mem_cons_self (List.mem_cons_of_mem y hin)
    · refine Function.update_of_ne ?_ _ _
      rintro rfl
      exact hdisj _ hx hp
    · by_cases hpx : p = x
      · rw [hpx, Function.update_self, Function.update_self]
      · rw [Function.update_of_ne hpx, Function.update_of_ne hpx, Function.update_of_ne ?_]
        rintro rfl
        rcases List.mem_append.mp hp with hin | hin
        · exact hnd'.1 hin
        · exact hpx (List.mem_singleton.mp hin)

end

/-! ## Circles of numbers -/

/-- The numbers from `a` on, up to the one in front of `b`. -/
theorem linked_range {next prev : Nat → Nat} {b : Nat} : ∀ {n a : Nat},
    (∀ i, a ≤ i → i < a + n → next i = i + 1 ∧ prev (i + 1) = i) → next (a + n) = b →
    prev b = a + n → Linked next prev a (List.range' (a + 1) n) b
  | 0, _, _, hn, hp => ⟨hn, hp⟩
  | n + 1, a, h, hn, hp => by
    refine ⟨h a (Nat.le_refl a) (by omega), linked_range (fun i hlow hhigh => ?_) ?_ ?_⟩
    · exact h i (by omega) (by omega)
    · rw [← hn, Nat.add_right_comm, Nat.add_assoc]
    · rw [hp, Nat.add_right_comm, Nat.add_assoc]

theorem circle_range {next prev : Nat → Nat} {a n : Nat}
    (h : ∀ i, a ≤ i → i < a + n → next i = i + 1 ∧ prev (i + 1) = i) (hn : next (a + n) = a)
    (hp : prev a = a + n) : Circle next prev (List.range' a (n + 1)) := by
  rw [List.range'_succ]
  refine ⟨?_, linked_range h hn hp⟩
  rw [← List.range'_succ]
  exact List.nodup_range'

end Circle

end CommonTools.Lib
