import Mathlib.Data.Finset.Sort
import CommonTools.Gary.QuickSort
import CommonTools.Lib.Heap
import CommonTools.Lib.TopN

/-! # `CPriorSort`

The `n` largest values of a search. Up to `n` values stand in a row as they
come; from then on they form a heap whose first place has the smallest one. -/
namespace CommonTools.Gary
open CommonTools.Lib

/-- The counts are `TUINT32`s; `udwStackSize` is the length of `m_udwpIdxBuff`. -/
structure PriorSort (T : Type) where
  m_udwMaxElemNum : Nat
  m_udwMaxSortElemNum : Nat
  m_tpValues : List T
  udwStackSize : Nat
  m_udwCurrElemNum : Nat
  is_sort : Bool

/-- `LEFT_PRIOR` and `RIGHT_PRIOR` on a `TUINT32`. -/
def leftPrior (i : Nat) : Nat := i <<< 1 % 2 ^ 32

def rightPrior (i : Nat) : Nat := (i <<< 1 + 1) % 2 ^ 32

namespace PriorSort
variable {T : Type} [LinearOrder T]

def reset (p : PriorSort T) (udwMaxSortElemNum : Nat) : PriorSort T :=
  { p with
    m_udwCurrElemNum := 0
    m_udwMaxSortElemNum :=
      if 0 < udwMaxSortElemNum then udwMaxSortElemNum else p.m_udwMaxElemNum
    is_sort := false }

/-- `udwIdx` or the given child, whichever has the smaller value. -/
def smaller (m_udwMaxSortElemNum : Nat) (m_tpValues : List T) (udwChildIdx udwIdx : Nat) :
    Option Nat :=
  if udwChildIdx < m_udwMaxSortElemNum then do
    let child ← m_tpValues[udwChildIdx]?
    let value ← m_tpValues[udwIdx]?
    some (if child < value then udwChildIdx else udwIdx)
  else some udwIdx

/-- The loop of `Heapify`. The stack has one place, from which `udwIdx` is taken
and in which the next one is put, so the rounds go on at one index. -/
def heapifyLoop (m_udwMaxSortElemNum : Nat) : Nat → List T → Nat → Option (List T)
  | 0, _, _ => none
  | rounds + 1, m_tpValues, udwIdx => do
    let udwMinIdx ← smaller m_udwMaxSortElemNum m_tpValues (leftPrior udwIdx) udwIdx
    let udwMinIdx ← smaller m_udwMaxSortElemNum m_tpValues (rightPrior udwIdx) udwMinIdx
    if udwMinIdx ≠ udwIdx then
      let tValue ← m_tpValues[udwIdx]?
      let value ← m_tpValues[udwMinIdx]?
      heapifyLoop m_udwMaxSortElemNum rounds ((m_tpValues.set udwIdx value).set udwMinIdx tValue)
        udwMinIdx
    else some m_tpValues

/-- `Heapify`; the stack starts at the place `dwKeyPos` of the index buffer. -/
def heapify (p : PriorSort T) (dwKeyPos : Int) : Option (PriorSort T) :=
  if 0 ≤ dwKeyPos ∧ dwKeyPos < p.udwStackSize then
    (heapifyLoop p.m_udwMaxSortElemNum (p.m_udwMaxSortElemNum + 1) p.m_tpValues
      dwKeyPos.toNat).map fun m_tpValues => { p with m_tpValues }
  else none

section
variable (quickSortAsc : List T → Int → Int → List T)

def add (p : PriorSort T) (tValue : T) : Option (PriorSort T) :=
  if p.m_udwCurrElemNum < p.m_udwMaxSortElemNum then
    if tValue ∈ p.m_tpValues.take p.m_udwCurrElemNum then some p
    else if p.m_udwCurrElemNum < p.m_tpValues.length then
      let m_tpValues := p.m_tpValues.set p.m_udwCurrElemNum tValue
      let m_udwCurrElemNum := p.m_udwCurrElemNum + 1
      some { p with
        m_udwCurrElemNum
        m_tpValues :=
          if m_udwCurrElemNum = p.m_udwMaxSortElemNum then
            quickSortAsc m_tpValues 0 (tint32 (p.m_udwMaxSortElemNum - 1))
          else m_tpValues }
    else none
  else if p.m_udwCurrElemNum = p.m_udwMaxSortElemNum then do
    let first ← p.m_tpValues[0]?
    if tValue ≤ first then some p
    else
      match (p.m_tpValues.take p.m_udwCurrElemNum).idxOf? tValue with
      | some i => p.heapify (tint32 i)
      | none => heapify { p with m_tpValues := p.m_tpValues.set 0 tValue } 0
  else some p

def addAll (p : PriorSort T) (tValues : List T) : Option (PriorSort T) :=
  tValues.foldlM (add quickSortAsc) p

/-- `FillResult`: the first `dwResNum` values. -/
def fillResult (p : PriorSort T) : List T × PriorSort T :=
  let p := if p.is_sort then p else
    { p with
      m_tpValues := quickSortAsc p.m_tpValues 0 (tint32 (p.m_udwCurrElemNum - 1)), is_sort := true }
  (p.m_tpValues.take p.m_udwCurrElemNum, p)

end

end PriorSort

end CommonTools.Gary
