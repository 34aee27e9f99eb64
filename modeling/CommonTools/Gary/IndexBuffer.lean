import Mathlib.Data.Nat.Log
import CommonTools.Gary.PriorSort

/-! # The index buffer of `CPriorSort`

The calls on a `CPriorSort` from its constructor on, with `QuickSortAsc` as it is and
with `m_udwpIdxBuff` as an array: an access outside of it is told apart from all else
that has no meaning. -/
namespace CommonTools.Gary
open CommonTools.Lib

/-- Why a call has no meaning: an access outside of `m_udwpIdxBuff`, or anything else. -/
inductive Fault
  | idxBuff
  | other
  deriving DecidableEq

def orFault {α : Type} (fault : Fault) : Option α → Except Fault α
  | some a => .ok a
  | none => .error fault

/-- `QuickSortAsc` on an array. -/
def sortArray {T : Type} [LinearOrder T] (pBuf : List T) (dwLeft dwRight : Int) : Option (List T) :=
  match pBuf with
  | [] => if dwRight ≤ dwLeft then some [] else none
  | d :: _ =>
    if dwRight ≤ dwLeft ∨ 0 ≤ dwLeft ∧ dwRight < pBuf.length then do
      let (_, memory) ← quickSortAsc (fun i => pBuf.getD i.toNat d) dwLeft dwRight
      some ((List.range pBuf.length).map fun i : Nat => memory i)
    else none

/-- A `CPriorSort` with what stands in its index buffer. -/
structure IndexedSort (T : Type) extends PriorSort T where
  m_udwpIdxBuff : Int → Nat

namespace IndexedSort
variable {T : Type}

/-- The constructor; `new` leaves any content behind. -/
def construct (udwMaxElemNum : Nat) (m_tpValues : Fin udwMaxElemNum → T)
    (m_udwpIdxBuff : Int → Nat) : IndexedSort T where
  m_udwMaxElemNum := udwMaxElemNum
  m_udwMaxSortElemNum := 0
  m_tpValues := List.ofFn m_tpValues
  udwStackSize := Nat.log 2 udwMaxElemNum + 20
  m_udwCurrElemNum := 0
  is_sort := false
  m_udwpIdxBuff

/-- The places of `m_udwpIdxBuff`. -/
def places (s : IndexedSort T) : Window := ⟨0, s.udwStackSize - 1⟩

variable [LinearOrder T]

/-- The loop of `Heapify`, which has `dwStackPos` as the top of its stack. -/
def stackLoop (w : Window) (m_udwMaxSortElemNum : Nat) (dwKeyPos : Int) :
    Nat → Int → (Int → Nat) → List T → Except Fault ((Int → Nat) × List T)
  | 0, _, _, _ => .error .other
  | rounds + 1, dwStackPos, m_udwpIdxBuff, m_tpValues =>
    if dwStackPos < dwKeyPos then .ok (m_udwpIdxBuff, m_tpValues)
    else do
      let udwIdx ← orFault .idxBuff (w.read m_udwpIdxBuff dwStackPos)
      let dwStackPos := dwStackPos - 1
      let udwMinIdx ← orFault .other
        (PriorSort.smaller m_udwMaxSortElemNum m_tpValues (leftPrior udwIdx) udwIdx)
      let udwMinIdx ← orFault .other
        (PriorSort.smaller m_udwMaxSortElemNum m_tpValues (rightPrior udwIdx) udwMinIdx)
      if udwMinIdx ≠ udwIdx then
        let tValue ← orFault .other m_tpValues[udwIdx]?
        let value ← orFault .other m_tpValues[udwMinIdx]?
        let m_tpValues := (m_tpValues.set udwIdx value).set udwMinIdx tValue
        let dwStackPos := dwStackPos + 1
        let m_udwpIdxBuff ← orFault .idxBuff (w.write m_udwpIdxBuff dwStackPos udwMinIdx)
        stackLoop w m_udwMaxSortElemNum dwKeyPos rounds dwStackPos m_udwpIdxBuff m_tpValues
      else stackLoop w m_udwMaxSortElemNum dwKeyPos rounds dwStackPos m_udwpIdxBuff m_tpValues

/-- `Heapify`, with a loop of at most `rounds` rounds. -/
def heapify (rounds : Nat) (s : IndexedSort T) (dwKeyPos : Int) :
    Except Fault (IndexedSort T) := do
  let udwIdx := (BitVec.ofInt 32 dwKeyPos).toNat
  let m_udwpIdxBuff ← orFault .idxBuff (s.places.write s.m_udwpIdxBuff dwKeyPos udwIdx)
  let (m_udwpIdxBuff, m_tpValues) ←
    stackLoop s.places s.m_udwMaxSortElemNum dwKeyPos rounds dwKeyPos m_udwpIdxBuff s.m_tpValues
  .ok { s with m_udwpIdxBuff, m_tpValues }

def add (rounds : Nat) (s : IndexedSort T) (tValue : T) : Except Fault (IndexedSort T) :=
  if s.m_udwCurrElemNum < s.m_udwMaxSortElemNum then
    if (s.m_tpValues.take s.m_udwCurrElemNum).contains tValue then .ok s
    else if s.m_udwCurrElemNum < s.m_tpValues.length then do
      let m_tpValues := s.m_tpValues.set s.m_udwCurrElemNum tValue
      let m_udwCurrElemNum := s.m_udwCurrElemNum + 1
      let m_tpValues ←
        if m_udwCurrElemNum = s.m_udwMaxSortElemNum then
          orFault .other (sortArray m_tpValues 0 (tint32 (s.m_udwMaxSortElemNum - 1)))
        else .ok m_tpValues
      .ok { s with m_udwCurrElemNum, m_tpValues }
    else .error .other
  else if s.m_udwCurrElemNum = s.m_udwMaxSortElemNum then do
    let first ← orFault .other s.m_tpValues[0]?
    if tValue ≤ first then .ok s
    else
      match (s.m_tpValues.take s.m_udwCurrElemNum).idxOf? tValue with
      | some i => s.heapify rounds (tint32 i)
      | none => heapify rounds { s with m_tpValues := s.m_tpValues.set 0 tValue } 0
  else .ok s

/-- The calls on a `CPriorSort` with room for `udwMaxElemNum` values. -/
inductive Call (T : Type) (udwMaxElemNum : Nat)
  | reset (udwMaxSortElemNum : Nat) (hle : udwMaxSortElemNum ≤ udwMaxElemNum)
  | add (tValue : T)

def call {udwMaxElemNum : Nat} (rounds : Nat) (s : IndexedSort T) :
    Call T udwMaxElemNum → Except Fault (IndexedSort T)
  | .reset udwMaxSortElemNum _ => .ok { s with toPriorSort := s.reset udwMaxSortElemNum }
  | .add tValue => s.add rounds tValue

end IndexedSort

end CommonTools.Gary
