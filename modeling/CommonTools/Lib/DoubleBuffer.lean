import Mathlib.Logic.Function.Basic
import Mathlib.Tactic.Common

/-! # Two buffers and an index

Readers use the buffer under the index. A load writes the other one and turns
the index only when it reports zero, so readers see what the last such load
has written, whatever the failed ones left in the spare buffer. -/
namespace CommonTools.Lib

structure DoubleBuffer (β : Type) where
  buffers : Fin 2 → β
  index : Fin 2

namespace DoubleBuffer
variable {α β : Type} (load : α → β → Int × β)

def visible (d : DoubleBuffer β) : β := d.buffers d.index

def spare (d : DoubleBuffer β) : β := d.buffers (1 - d.index)

def writeSpare (d : DoubleBuffer β) (b : β) : DoubleBuffer β :=
  { d with buffers := Function.update d.buffers (1 - d.index) b }

/-- Load into the spare buffer and turn on success. -/
def attempt (d : DoubleBuffer β) (a : α) : DoubleBuffer β :=
  let (ret, b) := load a d.spare
  let d := d.writeSpare b
  if ret = 0 then { d with index := 1 - d.index } else d

def run (d : DoubleBuffer β) (l : List α) : DoubleBuffer β := l.foldl (attempt load) d

/-- No attempt of the run succeeds. -/
def AllFail : DoubleBuffer β → List α → Prop
  | _, [] => True
  | d, a :: l => (load a d.spare).1 ≠ 0 ∧ AllFail (attempt load d a) l

theorem spare_ne (i : Fin 2) : i ≠ 1 - i := by
  revert i; decide

@[simp] theorem visible_writeSpare (d : DoubleBuffer β) (b : β) :
    (d.writeSpare b).visible = d.visible := by
  simp only [visible, writeSpare, Function.update_of_ne (spare_ne d.index)]

theorem visible_attempt (d : DoubleBuffer β) (a : α) :
    (attempt load d a).visible =
      if (load a d.spare).1 = 0 then (load a d.spare).2 else d.visible := by
  by_cases h : (load a d.spare).1 = 0
  · simp only [attempt, h, if_true, visible, writeSpare, Function.update_self]
  · simp only [attempt, h, if_false, visible_writeSpare]

/-- Failed attempts change nothing that is visible. -/
theorem AllFail.visible {d : DoubleBuffer β} {l : List α} (h : AllFail load d l) :
    (run load d l).visible = d.visible := by
  induction l generalizing d with
  | nil => rfl
  | cons a l ih =>
    rw [run, List.foldl_cons, ← run, ih h.2, visible_attempt, if_neg h.1]

/-- **Readers see the last successful load.** -/
theorem run_visible (d : DoubleBuffer β) (l : List α) :
    AllFail load d l ∨ ∃ before a after, l = before ++ a :: after ∧
      (load a (run load d before).spare).1 = 0 ∧
      AllFail load (run load d (before ++ [a])) after ∧
      (run load d l).visible = (load a (run load d before).spare).2 := by
  induction l generalizing d with
  | nil => exact .inl trivial
  | cons a l ih =>
    rcases ih (attempt load d a) with hfail | ⟨before, b, after, rfl, hok, hfail, hvis⟩
    · by_cases ha : (load a d.spare).1 = 0
      · refine .inr ⟨[], a, l, rfl, ha, hfail, ?_⟩
        rw [run, List.foldl_cons, ← run, hfail.visible, visible_attempt, if_pos ha]
        rfl
      · exact .inl ⟨ha, hfail⟩
    · exact .inr ⟨a :: before, b, after, rfl, hok, hfail, hvis⟩

end DoubleBuffer

end CommonTools.Lib
