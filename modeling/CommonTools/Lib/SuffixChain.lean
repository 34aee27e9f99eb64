import Mathlib.Data.List.Infix
import Mathlib.Data.List.Nodup
import Mathlib.Data.List.Perm.Subperm
import Mathlib.Tactic.Common

/-! # Suffixes that a prefix-closed language contains

`chain S w` lists the suffixes of `w` in `S` from the longest to the shortest.
An automaton that remembers the longest one walks the others along failure
links, because the chain of a member of the chain is its rest. -/
namespace CommonTools.Lib

section
variable {α : Type} [DecidableEq α]

/-- The suffixes of `w` in `S`, the longest first. -/
def chain (S : List (List α)) (w : List α) : List (List α) := w.tails.filter (· ∈ S)

/-- The longest suffix of `w` in `S`. -/
def longest (S : List (List α)) (w : List α) : List α := (chain S w).headD []

/-- `S` holds the empty word and every prefix of a word it holds. -/
structure PrefixClosed (S : List (List α)) : Prop where
  nil : [] ∈ S
  init : ∀ w c, w ++ [c] ∈ S → w ∈ S

variable {S : List (List α)}

theorem mem_chain {w u : List α} : u ∈ chain S w ↔ u <:+ w ∧ u ∈ S := by
  simp [chain]

theorem chain_nil (h : [] ∈ S) : chain S [] = [[]] := by
  simp [chain, h]

theorem chain_cons (a : α) (w : List α) :
    chain S (a :: w) = if a :: w ∈ S then (a :: w) :: chain S w else chain S w := by
  simp [chain, List.filter_cons]

theorem chain_ne_nil (h : [] ∈ S) (w : List α) : chain S w ≠ [] :=
  List.ne_nil_of_mem (mem_chain.mpr ⟨List.nil_suffix, h⟩)

theorem longest_mem_chain (h : [] ∈ S) (w : List α) : longest S w ∈ chain S w := by
  obtain ⟨u, rest, hc⟩ := List.exists_cons_of_ne_nil (chain_ne_nil h w)
  simp [longest, hc]

theorem longest_mem (h : [] ∈ S) (w : List α) : longest S w ∈ S :=
  (mem_chain.mp (longest_mem_chain h w)).2

theorem longest_suffix (h : [] ∈ S) (w : List α) : longest S w <:+ w :=
  (mem_chain.mp (longest_mem_chain h w)).1

theorem longest_length_le (h : [] ∈ S) (w : List α) : (longest S w).length ≤ w.length :=
  (longest_suffix h w).length_le

theorem longest_nil : longest S [] = [] := by
  by_cases h : [] ∈ S <;> simp [longest, chain, h]

/-- A word has the chain of its longest suffix. -/
theorem chain_longest (h : [] ∈ S) : ∀ w, chain S (longest S w) = chain S w
  | [] => by rw [longest_nil]
  | a :: w => by
    have hw := chain_longest h w
    by_cases hin : a :: w ∈ S
    · simp [longest, chain_cons, hin]
    · rw [longest, chain_cons, if_neg hin]
      exact hw

/-- Every suffix in `S` is one of the longest. -/
theorem suffix_longest (h : [] ∈ S) {v w : List α} (hv : v ∈ S) (hw : v <:+ w) :
    v <:+ longest S w :=
  (mem_chain.mp (chain_longest h w ▸ mem_chain.mpr ⟨hw, hv⟩)).1

/-- One more letter: the members that it extends, and the empty word. -/
theorem chain_append_singleton (hS : PrefixClosed S) (w : List α) (c : α) :
    chain S (w ++ [c]) =
      ((chain S w).filter fun u => u ++ [c] ∈ S).map (· ++ [c]) ++ [[]] := by
  induction w with
  | nil =>
    rw [List.nil_append, chain_cons, chain_nil hS.nil]
    by_cases h : [c] ∈ S <;> simp [h]
  | cons a w ih =>
    rw [List.cons_append, chain_cons, chain_cons, ih]
    by_cases h : a :: (w ++ [c]) ∈ S
    · have hw : a :: w ∈ S := hS.init (a :: w) c h
      simp [h, hw]
    · by_cases hw : a :: w ∈ S <;> simp [h, hw]

/-- The longest suffix after one more letter is the first member of the chain
that the letter extends. -/
theorem longest_append_singleton (hS : PrefixClosed S) (w : List α) (c : α) :
    longest S (w ++ [c]) =
      (((chain S w).find? fun u => u ++ [c] ∈ S).map (· ++ [c])).getD [] := by
  rw [longest, chain_append_singleton hS, ← List.head?_filter]
  cases hf : (chain S w).filter fun u => u ++ [c] ∈ S <;> simp

/-- Only the longest suffix matters for the next one. -/
theorem longest_longest_append (hS : PrefixClosed S) (w : List α) (c : α) :
    longest S (longest S w ++ [c]) = longest S (w ++ [c]) := by
  rw [longest_append_singleton hS, longest_append_singleton hS, chain_longest hS.nil]

theorem longest_eq_self {w : List α} (h : w ∈ S) : longest S w = w := by
  cases w with
  | nil => exact longest_nil
  | cons a w => simp [longest, chain_cons, h]

theorem longest_cons_of_notMem {a : α} {w : List α} (h : a :: w ∉ S) :
    longest S (a :: w) = longest S w := by
  rw [longest, chain_cons, if_neg h, ← longest]

/-- What a missing word leaves to its proper suffixes. -/
theorem longest_append_of_notMem (hS : PrefixClosed S) {w : List α} {c : α}
    (h : w ++ [c] ∉ S) : longest S (w ++ [c]) = longest S (longest S w.tail ++ [c]) := by
  cases w with
  | nil => rw [List.tail_nil, longest_nil]
  | cons a w =>
    rw [List.tail_cons, longest_longest_append hS, List.cons_append]
    exact longest_cons_of_notMem h

theorem longest_singleton_ne_nil {w : List α} {c : α} (h : [] ∈ S) (hc : [c] ∈ S) :
    longest S (w ++ [c]) ≠ [] := fun hnil =>
  absurd (hnil ▸ suffix_longest h hc (List.suffix_append w [c])) (by simp)

/-- A last letter is found in all proper suffixes' chains exactly when it is a
word itself. -/
theorem longest_tail_ne_nil_iff (hS : PrefixClosed S) :
    (∀ w ∈ S, 2 ≤ w.length → longest S w.tail ≠ []) ↔ ∀ w c, w ++ [c] ∈ S → [c] ∈ S := by
  constructor
  · intro hfound
    have hall : ∀ n, ∀ w c, w.length ≤ n → w ++ [c] ∈ S → [c] ∈ S := by
      intro n
      induction n with
      | zero =>
        intro w c hn hw
        rwa [List.eq_nil_of_length_eq_zero (Nat.le_zero.mp hn)] at hw
      | succ n ih =>
        intro w c hn hw
        by_cases hnil : w = []
        · rwa [hnil] at hw
        · -- the longest proper suffix ends with the letter too, and is shorter
          have hpos := List.length_pos_iff.mpr hnil
          have hne := hfound _ hw (by rw [List.length_append, List.length_singleton]; omega)
          have hsuffix := longest_suffix hS.nil (w ++ [c]).tail
          have hmem := longest_mem hS.nil (w ++ [c]).tail
          rw [List.tail_append_of_ne_nil hnil] at hne hsuffix hmem
          rcases List.suffix_concat_iff.mp hsuffix with he | ⟨u, he, hu⟩
          · exact absurd he hne
          · have hle := hu.length_le
            rw [List.length_tail] at hle
            exact ih u c (by omega) (he ▸ hmem)
    exact fun w c => hall w.length w c (Nat.le_refl _)
  · intro hroot w hw hlen hnil
    rcases List.eq_nil_or_concat' w with rfl | ⟨v, c, rfl⟩
    · simp at hlen
    · have hne : v ≠ [] := by
        rintro rfl
        simp at hlen
      rw [List.tail_append_of_ne_nil hne] at hnil
      exact longest_singleton_ne_nil hS.nil (hroot v c hw) hnil

theorem chain_pairwise (w : List α) :
    (chain S w).Pairwise fun u v => v.length < u.length := by
  induction w with
  | nil =>
    by_cases h : [] ∈ S <;> simp [chain, h]
  | cons a w ih =>
    rw [chain_cons]
    split
    · refine List.pairwise_cons.mpr ⟨fun v hv => ?_, ih⟩
      exact Nat.lt_succ_of_le (mem_chain.mp hv).1.length_le
    · exact ih

omit [DecidableEq α] in
theorem PrefixClosed.mem_of_prefix (hS : PrefixClosed S) {u v : List α} (hv : v ∈ S)
    (hu : u <+: v) : u ∈ S := by
  induction v using List.reverseRecOn with
  | nil => rwa [List.prefix_nil.mp hu]
  | append_singleton v c ih =>
    rcases List.prefix_concat_iff.mp hu with rfl | hu
    · exact hv
    · exact ih (hS.init v c hv) hu

omit [DecidableEq α] in
/-- A word of `S` has no more letters than `S` has nonempty words. -/
theorem PrefixClosed.length_lt (hS : PrefixClosed S) {w : List α} (hw : w ∈ S) :
    w.length < S.length := by
  have hsub : (List.range (w.length + 1)).map (w.take ·) ⊆ S := by
    intro u hu
    obtain ⟨i, _, rfl⟩ := List.mem_map.mp hu
    exact hS.mem_of_prefix hw (List.take_prefix i w)
  have hnd : ((List.range (w.length + 1)).map (w.take ·)).Nodup := by
    refine List.Nodup.map_on (fun i hi j hj h => ?_) List.nodup_range
    have hlen := congrArg List.length h
    rw [List.mem_range] at hi hj
    simp only [List.length_take] at hlen
    omega
  have hle := (List.subperm_of_subset hnd hsub).length_le
  rw [List.length_map, List.length_range] at hle
  exact hle

end

/-- `u` is the longest proper suffix of `w` among the words with `P`. -/
structure LongestProper {α : Type} (P : List α → Prop) (w u : List α) : Prop where
  holds : P u
  suffix : u <:+ w
  shorter : u.length < w.length
  longest : ∀ v, P v → v <:+ w → v.length < w.length → v.length ≤ u.length

/-- The longest proper suffix is looked for behind the first letter. -/
theorem longestProper_cons {α : Type} [DecidableEq α] {S : List (List α)} (h : [] ∈ S) (a : α)
    (w : List α) : LongestProper (· ∈ S) (a :: w) (Lib.longest S w) where
  holds := longest_mem h w
  suffix := (longest_suffix h w).trans (List.suffix_cons a w)
  shorter := Nat.lt_succ_of_le (longest_length_le h w)
  longest v hv hsuffix hshorter := by
    rcases List.suffix_cons_iff.mp hsuffix with rfl | hsuffix
    · exact absurd hshorter (Nat.lt_irrefl _)
    · exact (suffix_longest h hv hsuffix).length_le

end CommonTools.Lib
