import CommonTools.Lib.CString
import CommonTools.Lib.PathTree

/-! # `CDictionary`

A tree with 256 edges for each node, whose nodes come from a pool of fixed size.
The index of a node is its place in the pool, with a minus sign as long as no
word ends there. -/
namespace CommonTools.Gary
open CommonTools.Lib

/-- A pointer to the root, or into `m_pNodeBuf`. -/
inductive NodePtr where
  | root
  | pool (i : Nat)
deriving DecidableEq

structure SCharNode where
  dwIndex : Int
  next : UInt8 → Option NodePtr

/-- `Reset` of a node, and its constructor. -/
def SCharNode.reset : SCharNode := ⟨0, fun _ => none⟩

/-- The memory of the root and of the pool; `m_dwCurNodeIndex` is a `TINT32`. -/
structure Dictionary where
  node : NodePtr → SCharNode
  m_dwCurNodeIndex : Int

namespace Dictionary

def setNode (d : Dictionary) (p : NodePtr) (n : SCharNode) : Dictionary :=
  { d with node := Function.update d.node p n }

@[simp] theorem setNode_self (d : Dictionary) (p : NodePtr) (n : SCharNode) :
    (d.setNode p n).node p = n := Function.update_self ..

theorem setNode_of_ne (d : Dictionary) {p r : NodePtr} (n : SCharNode) (h : r ≠ p) :
    (d.setNode p n).node r = d.node r := Function.update_of_ne h ..

@[simp] theorem setNode_cur (d : Dictionary) (p : NodePtr) (n : SCharNode) :
    (d.setNode p n).m_dwCurNodeIndex = d.m_dwCurNodeIndex := rfl

def new : Dictionary := ⟨fun _ => .reset, 1⟩

/-- `Reset`: the nodes of the pool stay as they are. -/
def reset (d : Dictionary) : Dictionary := { d.setNode .root .reset with m_dwCurNodeIndex := 1 }

/-- `LookUp` with two arguments; a null pointer counts as the empty word. -/
def lookUp (d : Dictionary) (pWord : Bytes) : Int :=
  if pWord = [] then 0
  else
    match follow (fun p c => (d.node p).next c) .root pWord with
    | none => 0
    | some p => (d.node p).dwIndex

section
variable (T_udwDicSize : Nat)

/-- `AllocateNode`; the inner `none` is `NULL`. At the largest `TINT32` the
increment has no meaning. -/
def allocateNode (d : Dictionary) : Option (Option NodePtr × Dictionary) :=
  if T_udwDicSize ≤ (BitVec.ofInt 32 d.m_dwCurNodeIndex).toNat then some (none, d)
  else if d.m_dwCurNodeIndex = 2 ^ 31 - 1 then none
  else
    let pNode := .pool d.m_dwCurNodeIndex.toNat
    let d := d.setNode pNode { SCharNode.reset with dwIndex := -d.m_dwCurNodeIndex }
    some (some pNode, { d with m_dwCurNodeIndex := d.m_dwCurNodeIndex + 1 })

/-- The loop of `AddWord` from `pCurNode` on; the inner `none` is a return
because no node is left. -/
def addLoop : NodePtr → Bytes → Dictionary → Option (Option NodePtr × Dictionary)
  | pCurNode, [], d => some (some pCurNode, d)
  | pCurNode, c :: pWord, d =>
    match (d.node pCurNode).next c with
    | some p => addLoop p pWord d
    | none => do
      match ← d.allocateNode T_udwDicSize with
      | (none, d) => some (none, d)
      | (some pNewNode, d) =>
        let cur := d.node pCurNode
        let d := d.setNode pCurNode { cur with next := Function.update cur.next c (some pNewNode) }
        addLoop pNewNode pWord d

def addWord (d : Dictionary) (pWord : Bytes) : Option (Int × Dictionary) :=
  if pWord = [] then some (0, d)
  else do
    match ← addLoop T_udwDicSize .root pWord d with
    | (none, d) => some (0, d)
    | (some pCurNode, d) =>
      let cur := d.node pCurNode
      let dwIndex := if cur.dwIndex < 0 then -cur.dwIndex else cur.dwIndex
      some (dwIndex, d.setNode pCurNode { cur with dwIndex })

/-! ## Runs -/

inductive Call where
  | addWord (pWord : Bytes)
  | reset

/-- What `AddWord` returned since the last `Reset`, in order. -/
abbrev History := List (Bytes × Int)

def call : Call → History × Dictionary → Option (History × Dictionary)
  | .addWord pWord, (past, d) =>
    (d.addWord T_udwDicSize pWord).map fun (dwIndex, d) => (past ++ [(pWord, dwIndex)], d)
  | .reset, (_, d) => some ([], d.reset)

def run (calls : List Call) : Option (History × Dictionary) :=
  calls.foldlM (fun s c => call T_udwDicSize c s) ([], new)

end

end Dictionary

end CommonTools.Gary
