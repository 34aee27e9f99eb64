import CommonTools.Lib.SortRange

/-! # Accesses to a range of memory

Memory is a function of an index, and an access outside of the range has no result. -/
namespace CommonTools.Lib

/-- The indices that may be used. -/
structure Window where
  lo : Int
  up : Int

namespace Window
variable {β : Type} (w : Window)

def read (m : Int → β) (i : Int) : Option β :=
  if w.lo ≤ i ∧ i ≤ w.up then some (m i) else none

def write (m : Int → β) (i : Int) (v : β) : Option (Int → β) :=
  if w.lo ≤ i ∧ i ≤ w.up then some (Function.update m i v) else none

/-- Two elements change places, the first one by way of a copy. -/
def exchange (i j : Int) (m : Int → β) : Option (Int → β) := do
  let a ← w.read m i
  let b ← w.read m j
  let m ← w.write m i b
  w.write m j a

variable {w} {m : Int → β} {i j : Int}

theorem read_eq (hlo : w.lo ≤ i) (hup : i ≤ w.up) : w.read m i = some (m i) := if_pos ⟨hlo, hup⟩

theorem read_outside (h : ¬ (w.lo ≤ i ∧ i ≤ w.up)) : w.read m i = none := if_neg h

theorem write_eq (hlo : w.lo ≤ i) (hup : i ≤ w.up) (v : β) :
    w.write m i v = some (Function.update m i v) := if_pos ⟨hlo, hup⟩

theorem write_outside (h : ¬ (w.lo ≤ i ∧ i ≤ w.up)) (v : β) : w.write m i v = none := if_neg h

theorem exchange_eq (hi : w.lo ≤ i ∧ i ≤ w.up) (hj : w.lo ≤ j ∧ j ≤ w.up) :
    w.exchange i j m = some fun k => m (Equiv.swap i j k) := by
  unfold exchange
  simp only [read_eq hi.1 hi.2, read_eq hj.1 hj.2, write_eq hi.1 hi.2, write_eq hj.1 hj.2,
    Option.bind_eq_bind, Option.bind_some]
  rw [Rearranged.update_update]

theorem exchange_comm (hi : w.lo ≤ i ∧ i ≤ w.up) (hj : w.lo ≤ j ∧ j ≤ w.up) :
    w.exchange i j m = w.exchange j i m := by
  rw [exchange_eq hi hj, exchange_eq hj hi, Equiv.swap_comm]

end Window

end CommonTools.Lib
