import Mathlib.Data.List.Induction
import Mathlib.Logic.Function.Basic

/-! # Trees of words

Nodes with at most one edge for each letter form a tree when every node stands
for one word: the root for the empty one, and the end of an edge for the word of
its start with the letter behind it. `path` says which node stands for which
word; nodes without a word do not belong to the tree. -/
namespace CommonTools.Lib

variable {P α : Type}

structure PathTree (root : P) (next : P → α → Option P) (path : P → Option (List α)) : Prop where
  root_iff : ∀ p, path p = some [] ↔ p = root
  next_iff : ∀ {p u}, path p = some u → ∀ c q, next p c = some q ↔ path q = some (u ++ [c])
  closed : ∀ {q u c}, path q = some (u ++ [c]) → ∃ p, path p = some u

/-- Follow the edges for the letters of a word. -/
def follow (next : P → α → Option P) : P → List α → Option P
  | p, [] => some p
  | p, c :: w => (next p c).bind fun q => follow next q w

theorem follow_append (next : P → α → Option P) : ∀ (w v : List α) (p : P),
    follow next p (w ++ v) = (follow next p w).bind fun q => follow next q v := by
  intro w
  induction w with
  | nil =>
    intro _ _
    rfl
  | cons c w ih =>
    intro v p
    rw [List.cons_append, follow, follow, Option.bind_assoc]
    exact congrArg _ (funext fun q => ih v q)

namespace PathTree
variable {root : P} {next : P → α → Option P} {path : P → Option (List α)}

theorem path_root (h : PathTree root next path) : path root = some [] := (h.root_iff root).mpr rfl

theorem single [DecidableEq P] (hnext : ∀ c, next root c = none) :
    PathTree root next fun p => if p = root then some [] else none where
  root_iff p := by simp
  next_iff {p u} hp c q := by
    split at hp
    · rename_i hroot
      cases hp
      rw [hroot, hnext]
      simp
    · cases hp
  closed {q u c} hq := by
    split at hq <;> simp at hq

theorem unique (h : PathTree root next path) :
    ∀ {w : List α} {p q : P}, path p = some w → path q = some w → p = q := by
  intro w
  induction w using List.reverseRecOn with
  | nil =>
    intro p q hp hq
    rw [(h.root_iff p).mp hp, (h.root_iff q).mp hq]
  | append_singleton u c _ =>
    intro p q hp hq
    obtain ⟨p', hp'⟩ := h.closed hp
    have hpq := (h.next_iff hp' c p).mpr hp
    rw [(h.next_iff hp' c q).mpr hq] at hpq
    exact (Option.some.inj hpq).symm

/-- Some node stands for every initial part of a word. -/
theorem closed_append (h : PathTree root next path) {u : List α} :
    ∀ {w : List α} {q : P}, path q = some (u ++ w) → ∃ p, path p = some u := by
  intro w
  induction w using List.reverseRecOn with
  | nil => exact fun {q} hq => ⟨q, by rwa [List.append_nil] at hq⟩
  | append_singleton w c ih =>
    intro q hq
    rw [← List.append_assoc] at hq
    obtain ⟨p, hp⟩ := h.closed hq
    exact ih hp

/-- Following a word ends at the node that stands for the longer word. -/
theorem follow_iff_from (h : PathTree root next path) :
    ∀ {w u : List α} {p q : P}, path p = some u → (follow next p w = some q ↔ path q = some (u ++ w))
  | [], u, p, q, hp => by
    rw [follow, List.append_nil, Option.some.injEq]
    constructor
    · rintro rfl
      exact hp
    · exact fun hq => h.unique hp hq
  | c :: w, u, p, q, hp => by
    have happ : u ++ c :: w = u ++ [c] ++ w := by simp
    rw [follow, happ]
    cases hc : next p c with
    | some p' => exact h.follow_iff_from ((h.next_iff hp c p').mp hc)
    | none =>
      rw [Option.bind_none]
      refine ⟨fun hn => (nomatch hn), fun hq => ?_⟩
      obtain ⟨p', hp'⟩ := h.closed_append hq
      rw [(h.next_iff hp c p').mpr hp'] at hc
      cases hc

theorem follow_iff (h : PathTree root next path) {w : List α} {q : P} :
    follow next root w = some q ↔ path q = some w := by
  rw [h.follow_iff_from h.path_root, List.nil_append]

/-- A new leaf behind `p`. Its own edges are gone, whatever they were. -/
theorem grow [DecidableEq P] (h : PathTree root next path) {next' : P → α → Option P} {p q : P}
    {u : List α} {c : α} (hp : path p = some u) (hfree : next p c = none) (hq : path q = none)
    (hleaf : ∀ x, next' q x = none) (hlink : next' p c = some q)
    (hkeep : ∀ r x, r ≠ q → ¬ (r = p ∧ x = c) → next' r x = next r x) :
    PathTree root next' (Function.update path q (some (u ++ [c]))) := by
  have hpq : p ≠ q := fun he => by
    rw [he, hq] at hp
    cases hp
  have hout : ∀ {s}, path s ≠ some (u ++ [c]) := fun hs => by
    rw [(h.next_iff hp c _).mpr hs] at hfree
    cases hfree
  have hold : ∀ {s v}, s ≠ q → Function.update path q (some (u ++ [c])) s = some v →
      path s = some v := fun hs hv => by rwa [Function.update_of_ne hs] at hv
  refine ⟨fun r => ?_, fun {r v} hr x s => ?_, fun {s v x} hs => ?_⟩
  · by_cases hr : r = q
    · rw [hr, Function.update_self]
      refine ⟨fun he => by simp at he, fun he => ?_⟩
      rw [he, h.path_root] at hq
      cases hq
    · rw [Function.update_of_ne hr]
      exact h.root_iff r
  · by_cases hrq : r = q
    · rw [hrq, Function.update_self] at hr
      cases hr
      rw [hrq, hleaf]
      refine ⟨fun hn => (nomatch hn), fun hs => ?_⟩
      by_cases hsq : s = q
      · rw [hsq, Function.update_self] at hs
        simp at hs
      · obtain ⟨t, ht⟩ := h.closed (hold hsq hs)
        exact absurd ht hout
    · replace hr := hold hrq hr
      by_cases hedge : r = p ∧ x = c
      · obtain ⟨rfl, rfl⟩ := hedge
        cases hp.symm.trans hr
        rw [hlink, Option.some.injEq]
        constructor
        · rintro rfl
          exact Function.update_self ..
        · intro hs
          by_contra hsq
          exact hout (hold (Ne.symm hsq) hs)
      · rw [hkeep r x hrq hedge, h.next_iff hr]
        by_cases hsq : s = q
        · rw [hsq, hq, Function.update_self]
          refine ⟨fun hn => (nomatch hn), fun hs => ?_⟩
          obtain ⟨rfl, hx⟩ := List.append_inj' (Option.some.inj hs) rfl
          cases hx
          exact absurd ⟨h.unique hr hp, rfl⟩ hedge
        · rw [Function.update_of_ne hsq]
  · by_cases hsq : s = q
    · rw [hsq, Function.update_self] at hs
      obtain ⟨rfl, -⟩ := List.append_inj' (Option.some.inj hs) rfl
      exact ⟨p, by rw [Function.update_of_ne hpq, hp]⟩
    · obtain ⟨t, ht⟩ := h.closed (hold hsq hs)
      refine ⟨t, ?_⟩
      rw [Function.update_of_ne ?_, ht]
      rintro rfl
      rw [hq] at ht
      cases ht

end PathTree

end CommonTools.Lib
