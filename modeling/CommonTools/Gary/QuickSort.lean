import Mathlib.Order.Defs.LinearOrder
import CommonTools.Lib.Window

/-! # `QuickSortAsc`

Quicksort with a stack of its own. Memory is a function of an index, and an access
outside of the range that the function was called with has no meaning here. Indices
are `TINT32`s; among them only the sum of the two ends of a range can leave `TINT32`,
and it wraps around. The loops are bounded by `rounds`. -/
namespace CommonTools.Gary
open CommonTools.Lib

/-- The `TINT32` that a wider or unsigned number is passed as. -/
def tint32 (x : Int) : Int := (BitVec.ofInt 32 x).toInt

theorem tint32_eq {x : Int} (h0 : -2 ^ 31 ≤ x) (h : x < 2 ^ 31) : tint32 x = x := by
  rw [tint32, BitVec.toInt_ofInt]
  exact Int.bmod_eq_of_le (by omega) (by omega)

theorem tint32_neg {x : Int} (h : 2 ^ 31 ≤ x) (hlt : x < 2 ^ 32) : tint32 x < 0 := by
  rw [tint32, BitVec.toInt_ofInt, Int.bmod_def]
  omega

section
variable {T : Type} [LinearOrder T] (w : Window)

/-! ## Small ranges -/

/-- `if (pBuf[i] > pBuf[j])` exchange them. -/
def putInOrder (i j : Int) (pBuf : Int → T) : Option (Int → T) := do
  let a ← w.read pBuf i
  let b ← w.read pBuf j
  if b < a then w.exchange i j pBuf else some pBuf

/-- `for (j = dwRight; j > dwLeft; j--)`, `count` rounds of it. -/
def bubble : Nat → Int → (Int → T) → Option (Int → T)
  | 0, _, pBuf => some pBuf
  | count + 1, j, pBuf => do
    let a ← w.read pBuf j
    let b ← w.read pBuf (j - 1)
    let pBuf ← if a < b then w.exchange j (j - 1) pBuf else some pBuf
    bubble count (j - 1) pBuf

/-- `while (V < pBuf[k-1])`. -/
def sink (V : T) : Nat → Int → (Int → T) → Option (Int → T)
  | 0, _, _ => none
  | rounds + 1, k, pBuf => do
    let a ← w.read pBuf (k - 1)
    if V < a then
      let pBuf ← w.write pBuf k a
      let pBuf ← w.write pBuf (k - 1) V
      sink V rounds (k - 1) pBuf
    else some pBuf

/-- `for (j = dwLeft+2; j <= dwRight; j++)`, `count` rounds of it. -/
def insertion (rounds : Nat) : Nat → Int → (Int → T) → Option (Int → T)
  | 0, _, pBuf => some pBuf
  | count + 1, j, pBuf => do
    let V ← w.read pBuf j
    let pBuf ← sink w V rounds j pBuf
    insertion rounds count (j + 1) pBuf

def sortSmall (rounds : Nat) (dwLeft dwRight : Int) (pBuf : Int → T) : Option (Int → T) := do
  let pBuf ← bubble w (dwRight - dwLeft).toNat dwRight pBuf
  insertion w rounds (dwRight - dwLeft - 1).toNat (dwLeft + 2) pBuf

/-! ## Splitting a range -/

/-- The middle element goes in front of the last, and these two and the first are put
in order. -/
def medianOfThree (dwLeft dwRight : Int) (pBuf : Int → T) : Option (Int → T) := do
  let j := dwRight - 1
  let pBuf ← w.exchange (tint32 (dwLeft + dwRight) >>> (1 : Nat)) j pBuf
  let pBuf ← putInOrder w j dwRight pBuf
  let pBuf ← putInOrder w dwLeft dwRight pBuf
  putInOrder w dwLeft j pBuf

/-- `while (pBuf[++k] < V)`. -/
def scanRight (V : T) (pBuf : Int → T) : Nat → Int → Option Int
  | 0, _ => none
  | rounds + 1, k => do
    let a ← w.read pBuf (k + 1)
    if a < V then scanRight V pBuf rounds (k + 1) else some (k + 1)

/-- `while (pBuf[--j] > V) if (j == k) break`. -/
def scanLeft (V : T) (k : Int) (pBuf : Int → T) : Nat → Int → Option Int
  | 0, _ => none
  | rounds + 1, j => do
    let a ← w.read pBuf (j - 1)
    if V < a then
      if j - 1 = k then some (j - 1) else scanLeft V k pBuf rounds (j - 1)
    else some (j - 1)

/-- The loop without a condition; it returns `k`. -/
def partitionLoop (V : T) (rounds : Nat) : Nat → Int → Int → (Int → T) → Option (Int × (Int → T))
  | 0, _, _, _ => none
  | n + 1, k, j, pBuf => do
    let k ← scanRight w V pBuf rounds k
    let j ← scanLeft w V k pBuf rounds j
    if j ≤ k then some (k, pBuf)
    else
      let pBuf ← w.exchange k j pBuf
      partitionLoop V rounds n k j pBuf

/-- From the choice of `V` to its place `k`. -/
def partition (rounds : Nat) (dwLeft dwRight : Int) (pBuf : Int → T) :
    Option (Int × (Int → T)) := do
  let pBuf ← medianOfThree w dwLeft dwRight pBuf
  let V ← w.read pBuf (dwRight - 1)
  let (k, pBuf) ← partitionLoop w V rounds rounds dwLeft (dwRight - 1) pBuf
  let pBuf ← w.exchange (dwRight - 1) k pBuf
  some (k, pBuf)

/-! ## The stack -/

/-- `for (i=1, j=dwRight-1; j>>=1; i++)`. -/
def stackRounds : Nat → Int → Int → Option Int
  | 0, _, _ => none
  | rounds + 1, i, j =>
    let j := j >>> (1 : Nat)
    if j ≠ 0 then stackRounds rounds (i + 1) j else some i

/-- Two pushes on a stack of `size` numbers, the top of which stands first. -/
def push (size : Int) (dwLeft dwRight : Int) (stack : List (Int × Int)) :
    Option (List (Int × Int)) :=
  if 2 * (stack.length + 1) ≤ size then some ((dwLeft, dwRight) :: stack) else none

/-- The loop over the stack, which holds `i` numbers, two for each range. -/
def sortLoop (size : Int) (rounds : Nat) :
    Nat → List (Int × Int) → (Int → T) → Option (Int × (Int → T))
  | _, [], pBuf => some (0, pBuf)
  | 0, _ :: _, _ => none
  | n + 1, (dwLeft, dwRight) :: stack, pBuf =>
    if dwRight - dwLeft < 16 then do
      let pBuf ← sortSmall w rounds dwLeft dwRight pBuf
      sortLoop size rounds n stack pBuf
    else do
      let (k, pBuf) ← partition w rounds dwLeft dwRight pBuf
      let dwStackSize := size - 4
      if dwStackSize ≤ 2 * stack.length then some (-1, pBuf)
      else
        let stack ← if k + 1 < dwRight then push size (k + 1) dwRight stack else some stack
        let stack ← if dwLeft < k - 1 then push size dwLeft (k - 1) stack else some stack
        sortLoop size rounds n stack pBuf

end

/-- `QuickSortAsc`: the returned number and the memory. -/
def quickSortAsc {T : Type} [LinearOrder T] (pBuf : Int → T) (dwLeft dwRight : Int) :
    Option (Int × (Int → T)) :=
  if dwRight ≤ dwLeft then some (0, pBuf)
  else do
    let rounds := (dwRight - dwLeft).toNat + 2
    let i ← stackRounds (dwRight.toNat + 1) 1 (dwRight - 1)
    let size := i <<< (6 : Nat)
    let stack ← push size dwLeft dwRight []
    sortLoop ⟨dwLeft, dwRight⟩ size rounds rounds stack pBuf

end CommonTools.Gary
