import Mathlib.Data.List.Infix
import Mathlib.Tactic.Common

/-! # First occurrences

`find needle s` is the first position at which `needle` stands in `s`, as
`std::string::find` and `strstr` look for it. What is decided by a part of the
text stays decided when more text follows. -/
namespace CommonTools.Lib

variable {α : Type}

section
variable [DecidableEq α]

def find (needle s : List α) : Option Nat := s.tails.findIdx? (needle.isPrefixOf ·)

theorem find_eq_some_iff {needle s : List α} {i : Nat} : find needle s = some i ↔
    (i ≤ s.length ∧ needle <+: s.drop i) ∧ ∀ j < i, ¬ needle <+: s.drop j := by
  rw [find, List.findIdx?_eq_some_iff_getElem]
  constructor
  · rintro ⟨hi, hp, hfirst⟩
    rw [List.length_tails, Nat.lt_succ_iff] at hi
    refine ⟨⟨hi, ?_⟩, fun j hj hpre => hfirst j hj ?_⟩
    · rwa [List.getElem_tails, List.isPrefixOf_iff_prefix] at hp
    · rwa [List.getElem_tails, List.isPrefixOf_iff_prefix]
  · rintro ⟨⟨hi, hp⟩, hfirst⟩
    refine ⟨by rw [List.length_tails]; omega, ?_, fun j hj hpre => hfirst j hj ?_⟩
    · rwa [List.getElem_tails, List.isPrefixOf_iff_prefix]
    · rwa [List.getElem_tails, List.isPrefixOf_iff_prefix] at hpre

end

section
variable {needle s : List α} {i : Nat}

theorem prefix_drop_append {k : Nat} (hk : k + needle.length ≤ s.length) (t : List α) :
    needle <+: (s ++ t).drop k ↔ needle <+: s.drop k := by
  rw [List.drop_append_of_le_length (by omega)]
  constructor
  · intro hpre
    refine List.prefix_of_prefix_length_le hpre (List.prefix_append _ _) ?_
    rw [List.length_drop]
    omega
  · intro hpre
    exact hpre.trans (List.prefix_append _ _)

variable [DecidableEq α]

theorem find_isSome {a b : List α} (h : s = a ++ (needle ++ b)) : (find needle s).isSome := by
  rw [find, List.findIdx?_isSome, List.any_eq_true]
  refine ⟨needle ++ b, (List.mem_tails _ _).mpr ⟨a, h.symm⟩, ?_⟩
  rw [List.isPrefixOf_iff_prefix]
  exact List.prefix_append needle b

/-- The search finds exactly what stands in the text. -/
theorem find_isSome_iff : (find needle s).isSome ↔ needle <:+: s := by
  constructor
  · intro h
    obtain ⟨i, hi⟩ := Option.isSome_iff_exists.mp h
    exact (find_eq_some_iff.mp hi).1.2.isInfix.trans (List.drop_suffix i s).isInfix
  · intro h
    obtain ⟨a, b, hab⟩ := h
    exact find_isSome (a := a) (b := b) (by rw [← hab, List.append_assoc])

/-- The search goes on behind an element where the needle does not stand. -/
theorem find_cons {c : α} (hno : ¬ needle <+: c :: s) (h : find needle s = some i) :
    find needle (c :: s) = some (i + 1) := by
  obtain ⟨⟨hi, hp⟩, hfirst⟩ := find_eq_some_iff.mp h
  refine find_eq_some_iff.mpr ⟨⟨Nat.succ_le_succ hi, hp⟩, fun j hj hpre => ?_⟩
  cases j with
  | zero => exact hno hpre
  | succ j => exact hfirst j (Nat.lt_of_succ_lt_succ hj) hpre

/-- A text without the first element of the needle is passed over. -/
theorem find_skip {c : α} (h : find (c :: needle) s = some i) :
    ∀ {line : List α}, c ∉ line → find (c :: needle) (line ++ s) = some (line.length + i) := by
  intro line
  induction line with
  | nil =>
    intro _
    exact by rw [List.length_nil, Nat.zero_add]; exact h
  | cons d line ih =>
    intro hline
    obtain ⟨hd, hrest⟩ := not_or.mp (mt List.mem_cons.mpr hline)
    have hno : ¬ c :: needle <+: d :: (line ++ s) := fun hpre =>
      hd (List.cons_prefix_cons.mp hpre).1
    rw [List.cons_append, List.length_cons, Nat.succ_add]
    exact find_cons hno (ih hrest)

theorem find_le (h : find needle s = some i) : i + needle.length ≤ s.length := by
  obtain ⟨⟨hi, hp⟩, -⟩ := find_eq_some_iff.mp h
  have hle := hp.length_le
  rw [List.length_drop] at hle
  omega

/-- What follows does not change where the first occurrence is. -/
theorem find_append (h : find needle s = some i) (t : List α) : find needle (s ++ t) = some i := by
  have hle := find_le h
  obtain ⟨⟨hi, hp⟩, hfirst⟩ := find_eq_some_iff.mp h
  refine find_eq_some_iff.mpr ⟨⟨?_, (prefix_drop_append hle t).mpr hp⟩, fun j hj hpre => ?_⟩
  · rw [List.length_append]
    omega
  · exact hfirst j hj ((prefix_drop_append (by omega) t).mp hpre)

/-- An occurrence that lies in a part is found in the part. -/
theorem find_of_append {t : List α} (h : find needle (s ++ t) = some i)
    (hle : i + needle.length ≤ s.length) : find needle s = some i := by
  obtain ⟨⟨hi, hp⟩, hfirst⟩ := find_eq_some_iff.mp h
  refine find_eq_some_iff.mpr ⟨⟨by omega, (prefix_drop_append hle t).mp hp⟩, fun j hj hpre => ?_⟩
  exact hfirst j hj ((prefix_drop_append (by omega) t).mpr hpre)

/-- Nothing in front of the first occurrence matters. -/
theorem find_drop {k : Nat} (h : find needle s = some i) (hk : k ≤ i) :
    find needle (s.drop k) = some (i - k) := by
  obtain ⟨⟨hi, hp⟩, hfirst⟩ := find_eq_some_iff.mp h
  refine find_eq_some_iff.mpr ⟨⟨?_, ?_⟩, fun j hj hpre => ?_⟩
  · rw [List.length_drop]
    omega
  · rw [List.drop_drop, Nat.add_sub_cancel' hk]
    exact hp
  · rw [List.drop_drop] at hpre
    exact hfirst (k + j) (by omega) hpre

/-- A part without an occurrence ends before the first one does. -/
theorem lt_of_find_none {t : List α} (h : find needle (s ++ t) = some i)
    (hnone : find needle s = none) :
    s.length < i + needle.length := by
  by_contra hle
  rw [find_of_append h (by omega)] at hnone
  cases hnone

end

end CommonTools.Lib
