import Mathlib.Data.List.Basic

/-! # Consecutive spans of a flat list

Segments laid one after the other in one list are found again by their spans.
A span is half-open: it starts where the one before it stops. -/
namespace CommonTools.Lib

section
variable {α : Type}

/-- The part of `flat` from the start to the stop of a span. -/
def slice (flat : List α) (span : Nat × Nat) : List α := (flat.take span.2).drop span.1

/-- Where each segment lies when the first one starts at `off`. -/
def spans : Nat → List (List α) → List (Nat × Nat)
  | _, [] => []
  | off, seg :: segs => (off, off + seg.length) :: spans (off + seg.length) segs

@[simp] theorem spans_length : ∀ (off : Nat) (segs : List (List α)),
    (spans off segs).length = segs.length
  | _, [] => rfl
  | off, seg :: segs => by rw [spans, List.length_cons, spans_length, List.length_cons]

/-- A further segment lies behind all others. -/
theorem spans_concat (seg : List α) : ∀ (off : Nat) (segs : List (List α)),
    spans off (segs ++ [seg]) = spans off segs ++
      [(off + segs.flatten.length, off + segs.flatten.length + seg.length)]
  | _, [] => rfl
  | off, s :: segs => by
    rw [List.cons_append, spans, spans_concat seg, spans, List.flatten_cons, List.length_append,
      Nat.add_assoc off, List.cons_append]

/-- The span of a segment shows that segment. -/
theorem slice_spans : ∀ {segs : List (List α)} {i : Nat} {seg : List α} (pre : List α),
    segs[i]? = some seg →
      ∃ span, (spans pre.length segs)[i]? = some span ∧ slice (pre ++ segs.flatten) span = seg
  | s :: segs, 0, seg, pre, h => by
    obtain rfl : s = seg := by simpa using h
    refine ⟨(pre.length, pre.length + s.length), rfl, ?_⟩
    rw [slice, List.flatten_cons, List.take_length_add_append, List.take_left, List.drop_left]
  | s :: segs, i + 1, seg, pre, h => by
    have ih := slice_spans (pre ++ s) (by simpa using h : segs[i]? = some seg)
    rwa [List.length_append, List.append_assoc, ← List.flatten_cons] at ih

/-- Every span belongs to a segment and ends inside the list. -/
theorem mem_spans : ∀ {segs : List (List α)} {off : Nat} {span : Nat × Nat},
    span ∈ spans off segs →
      ∃ seg ∈ segs, span.2 = span.1 + seg.length ∧ span.2 ≤ off + segs.flatten.length
  | s :: segs, off, span, h => by
    rw [List.flatten_cons, List.length_append]
    rcases List.mem_cons.mp h with rfl | h
    · exact ⟨s, List.mem_cons_self, rfl, by dsimp only; omega⟩
    · obtain ⟨seg, hseg, hlen, hstop⟩ := mem_spans h
      exact ⟨seg, List.mem_cons_of_mem s hseg, hlen, by omega⟩

end

/-! ## Spans without gaps -/

/-- The spans lead from `off` to `stop`, each starting where the one before it
stops. -/
def Adjacent : Nat → List (Nat × Nat) → Nat → Prop
  | off, [], stop => off = stop
  | off, span :: l, stop => span.1 = off ∧ span.1 ≤ span.2 ∧ Adjacent span.2 l stop

theorem adjacent_spans {α : Type} : ∀ (off : Nat) (segs : List (List α)),
    Adjacent off (spans off segs) (off + segs.flatten.length)
  | _, [] => rfl
  | off, seg :: segs => by
    refine ⟨rfl, Nat.le_add_right _ _, ?_⟩
    rw [List.flatten_cons, List.length_append, ← Nat.add_assoc]
    exact adjacent_spans _ segs

theorem Adjacent.start_le : ∀ {off stop : Nat} {l : List (Nat × Nat)}, Adjacent off l stop →
    ∀ span ∈ l, off ≤ span.1
  | off, stop, s :: l, h, span, hs => by
    obtain ⟨rfl, hle, hl⟩ := h
    rcases List.mem_cons.mp hs with rfl | hs
    · exact Nat.le_refl _
    · exact Nat.le_trans hle (hl.start_le span hs)

theorem Adjacent.disjoint : ∀ {off stop : Nat} {l : List (Nat × Nat)}, Adjacent off l stop →
    l.Pairwise fun a b => a.2 ≤ b.1
  | _, _, [], _ => List.Pairwise.nil
  | _, _, _ :: _, h => List.Pairwise.cons h.2.2.start_le h.2.2.disjoint

end CommonTools.Lib
