import Mathlib.Data.List.Basic
import Mathlib.Tactic.Common

/-! # Words between separators

A list is split at separators of any kind and put together again with one
separator between the parts that are not empty. A reader with three states does
this from left to right. -/
namespace CommonTools.Lib

variable {α : Type} {p : α → Bool} {sep c : α} {s w : List α}

/-- The parts between the separators, without the empty ones. -/
def words (p : α → Bool) (s : List α) : List (List α) :=
  (s.splitOnP p).filter fun w => !w.isEmpty

/-- The words with one separator in between. -/
def spaced (sep : α) (p : α → Bool) (s : List α) : List α := [sep].intercalate (words p s)

/-! ## Reading words -/

theorem words_nil : words p [] = [] := by simp [words]

theorem words_append_sep (hw : ∀ d ∈ w, p d = false) (hne : w ≠ []) (h : p c = true) :
    words p (w ++ c :: s) = w :: words p s := by
  unfold words
  rw [List.splitOnP_append_cons_of_forall_mem hw c h, List.filter_cons_of_pos]
  simpa using hne

theorem words_self (hw : ∀ d ∈ w, p d = false) (hne : w ≠ []) : words p w = [w] := by
  unfold words
  rw [List.splitOnP_eq_singleton hw, List.filter_cons_of_pos, List.filter_nil]
  simpa using hne

theorem splitOnP_part : ∀ {s w : List α}, w ∈ s.splitOnP p → ∀ d ∈ w, d ∈ s ∧ p d = false := by
  intro s
  induction s with
  | nil =>
    intro w hw
    simp only [List.splitOnP_nil, List.mem_singleton] at hw
    subst hw
    intro d hd
    cases hd
  | cons c s ih =>
    intro w hw d hd
    obtain ⟨v, vs, hsplit⟩ := List.exists_cons_of_ne_nil (List.splitOnP_ne_nil p s)
    rw [List.splitOnP_cons_eq_if_modifyHead] at hw
    cases hc : p c with
    | true =>
      rw [hc, if_pos rfl] at hw
      rcases List.mem_cons.mp hw with rfl | hw
      · cases hd
      · exact (ih hw d hd).imp_left (List.mem_cons_of_mem c)
    | false =>
      rw [hc, if_neg Bool.false_ne_true, hsplit, List.modifyHead_cons] at hw
      rw [hsplit] at ih
      rcases List.mem_cons.mp hw with rfl | hw
      · rcases List.mem_cons.mp hd with rfl | hd
        · exact ⟨List.mem_cons_self, hc⟩
        · exact (ih List.mem_cons_self d hd).imp_left (List.mem_cons_of_mem c)
      · exact (ih (List.mem_cons_of_mem v hw) d hd).imp_left (List.mem_cons_of_mem c)

theorem words_word (hw : w ∈ words p s) : w ≠ [] ∧ ∀ d ∈ w, d ∈ s ∧ p d = false := by
  obtain ⟨hpart, hne⟩ := List.mem_filter.mp hw
  exact ⟨by simpa using hne, splitOnP_part hpart⟩

/-! ## One separator in between -/

theorem intercalate_cons (sep : α) (w : List α) (ws : List (List α)) :
    [sep].intercalate (w :: ws) = w ++ ws.flatMap (sep :: ·) := by
  induction ws generalizing w with
  | nil => simp
  | cons v ws ih =>
    rw [List.intercalate_cons_cons, ih, List.flatMap_cons, List.append_assoc]
    rfl

theorem words_intercalate (hsep : p sep = true) : ∀ {ws : List (List α)},
    (∀ w ∈ ws, w ≠ [] ∧ ∀ d ∈ w, p d = false) → words p ([sep].intercalate ws) = ws := by
  intro ws
  induction ws with
  | nil =>
    intro _
    exact words_nil
  | cons w ws ih =>
    intro hws
    obtain ⟨hne, hw⟩ := hws w List.mem_cons_self
    have hrest := ih fun v hv => hws v (List.mem_cons_of_mem w hv)
    cases ws with
    | nil =>
      rw [intercalate_cons, List.flatMap_nil, List.append_nil]
      exact words_self hw hne
    | cons v ws =>
      rw [List.intercalate_cons_cons, List.append_assoc, List.singleton_append,
        words_append_sep hw hne hsep, hrest]

theorem spaced_spaced (hsep : p sep = true) (s : List α) :
    spaced sep p (spaced sep p s) = spaced sep p s := by
  unfold spaced
  rw [words_intercalate hsep]
  intro w hw
  obtain ⟨hne, hword⟩ := words_word hw
  exact ⟨hne, fun d hd => (hword d hd).2⟩

/-- What is spaced is made of the list and the separator. -/
theorem mem_spaced (h : c ∈ spaced sep p s) : c = sep ∨ c ∈ s := by
  unfold spaced at h
  cases hws : words p s with
  | nil =>
    rw [hws] at h
    cases h
  | cons w ws =>
    have hword : ∀ v ∈ w :: ws, ∀ d ∈ v, d ∈ s := by
      intro v hv d hd
      exact ((words_word (hws ▸ hv)).2 d hd).1
    rw [hws, intercalate_cons] at h
    rcases List.mem_append.mp h with h | h
    · exact .inr (hword w List.mem_cons_self c h)
    · obtain ⟨v, hv, hc⟩ := List.mem_flatMap.mp h
      rcases List.mem_cons.mp hc with rfl | hc
      · exact .inl rfl
      · exact .inr (hword v (List.mem_cons_of_mem w hv) c hc)

/-! ## From left to right -/

/-- Where a reader stands: in front of the first word, in a word, or behind one. -/
inductive Spacing where
  | before
  | inside
  | behind
deriving DecidableEq

def respace (sep : α) (p : α → Bool) : Spacing → List α → List α
  | _, [] => []
  | .before, c :: s => if p c then respace sep p .before s else c :: respace sep p .inside s
  | .inside, c :: s => if p c then respace sep p .behind s else c :: respace sep p .inside s
  | .behind, c :: s => if p c then respace sep p .behind s else sep :: c :: respace sep p .inside s

theorem respace_split : ∀ {s w : List α} {ws : List (List α)}, s.splitOnP p = w :: ws →
    respace sep p .before s = [sep].intercalate ((w :: ws).filter fun w => !w.isEmpty) ∧
      respace sep p .inside s = w ++ (ws.filter fun w => !w.isEmpty).flatMap (sep :: ·) ∧
      respace sep p .behind s = ((w :: ws).filter fun w => !w.isEmpty).flatMap (sep :: ·) := by
  intro s
  induction s with
  | nil =>
    intro w ws h
    rw [List.splitOnP_nil] at h
    obtain ⟨rfl, rfl⟩ := List.cons.inj h
    exact ⟨rfl, rfl, rfl⟩
  | cons c s ih =>
    intro w ws h
    obtain ⟨v, vs, hsplit⟩ := List.exists_cons_of_ne_nil (List.splitOnP_ne_nil p s)
    obtain ⟨hbefore, hinside, hbehind⟩ := ih hsplit
    rw [List.splitOnP_cons_eq_if_modifyHead] at h
    cases hc : p c with
    | true =>
      rw [hc, if_pos rfl, hsplit] at h
      obtain ⟨rfl, rfl⟩ := List.cons.inj h
      rw [respace, respace, respace, hc, if_pos rfl, if_pos rfl, if_pos rfl, hbefore, hbehind]
      exact ⟨rfl, rfl, rfl⟩
    | false =>
      rw [hc, if_neg Bool.false_ne_true, hsplit, List.modifyHead_cons] at h
      obtain ⟨rfl, rfl⟩ := List.cons.inj h
      rw [respace, respace, respace, hc, if_neg Bool.false_ne_true, if_neg Bool.false_ne_true,
        if_neg Bool.false_ne_true, hinside, List.filter_cons_of_pos rfl, intercalate_cons,
        List.flatMap_cons]
      exact ⟨rfl, rfl, rfl⟩

theorem respace_before (s : List α) : respace sep p .before s = spaced sep p s := by
  obtain ⟨w, ws, hsplit⟩ := List.exists_cons_of_ne_nil (List.splitOnP_ne_nil p s)
  unfold spaced words
  rw [hsplit]
  exact (respace_split hsplit).1

/-- Replacing separators by separators does not matter. -/
theorem respace_map {q : α → Bool} {f : α → α} (hq : ∀ c, q (f c) = p c)
    (hf : ∀ c, p c = false → f c = c) : ∀ (st : Spacing) (s : List α),
    respace sep q st (s.map f) = respace sep p st s := by
  intro st s
  induction s generalizing st with
  | nil => rw [List.map_nil, respace, respace]
  | cons c s ih =>
    cases hc : p c with
    | true =>
      cases st
      all_goals rw [List.map_cons, respace, respace, hq, hc, if_pos rfl, if_pos rfl, ih]
    | false =>
      cases st
      all_goals
        rw [List.map_cons, respace, respace, hq, hc, if_neg Bool.false_ne_true,
          if_neg Bool.false_ne_true, hf c hc, ih]

/-- How much is written for what was read. -/
theorem respace_length_le : ∀ (st : Spacing) (s : List α),
    (respace sep p st s).length ≤ s.length + if st = .behind then 1 else 0 := by
  intro st s
  induction s generalizing st with
  | nil =>
    rw [respace]
    exact Nat.zero_le _
  | cons c s ih =>
    have hbefore := ih .before
    have hinside := ih .inside
    have hbehind := ih .behind
    rw [if_neg (by decide), Nat.add_zero] at hbefore hinside
    rw [if_pos rfl] at hbehind
    cases st with
    | before =>
      rw [respace]
      split
      · exact Nat.le_succ_of_le hbefore
      · exact Nat.succ_le_succ hinside
    | inside =>
      rw [respace]
      split
      · exact hbehind
      · exact Nat.succ_le_succ hinside
    | behind =>
      rw [respace]
      split
      · exact Nat.le_succ_of_le hbehind
      · exact Nat.succ_le_succ (Nat.succ_le_succ hinside)

end CommonTools.Lib
