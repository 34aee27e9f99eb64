import CommonTools.Index.CommonIndexSearch

/-! # `CDlgLogIndex`: searching all terms of a query

The posting lists of the terms are intersected. The first shortest list drives
the search; every other list keeps a cursor, and a binary search looks for the
document behind it. -/
namespace CommonTools.Index
open CommonTools.Lib CommonIndex

abbrev DlgIndex (W : Type) (HASH_BASIC : Nat) :=
  CommonIndex (DlgDocType W) DlgInvType DlgKeyType HASH_BASIC

/-- The posting list of a term: a pointer into `m_inv_buf` and a length. -/
structure InvResult where
  inv : Option Int
  inv_num : Int
deriving DecidableEq, Repr

structure InvNumInfo where
  min_inv_size : Int
  max_inv_size : Int
  min_index : Nat
  max_index : Nat
deriving DecidableEq, Repr

/-- The constructor of `InvNumInfo`; `min_inv_size` starts at `INT_MAX`. -/
def InvNumInfo.init : InvNumInfo := ⟨2 ^ 31 - 1, 0, 0, 0⟩

/-- Account for the list at position `index` of `inv_results`. -/
def InvNumInfo.note (info : InvNumInfo) (index : Nat) (inv_num : Int) : InvNumInfo :=
  let info := if info.max_inv_size < inv_num then
      { info with max_inv_size := inv_num, max_index := index } else info
  if inv_num < info.min_inv_size then
    { info with min_inv_size := inv_num, min_index := index } else info

namespace DlgLogIndex
variable {W : Type} {HASH_BASIC : Nat} [Pod W] [NeZero HASH_BASIC]

/-- The list of one term; `inv_num` keeps its zero when there is none. -/
def invResult (ix : DlgIndex W HASH_BASIC) (part : Bytes) : Option InvResult := do
  match ← ix.getInv part with
  | some (inv, inv_num) => some ⟨some inv, inv_num⟩
  | none => some ⟨none, 0⟩

def getInvResults (ix : DlgIndex W HASH_BASIC) :
    List Bytes → InvNumInfo → List InvResult → Option (InvNumInfo × List InvResult)
  | [], num_info, inv_results => some (num_info, inv_results)
  | part :: parts, num_info, inv_results => do
    let result ← invResult ix part
    getInvResults ix parts (num_info.note inv_results.length result.inv_num)
      (inv_results ++ [result])

/-- `*(inv + i)`. -/
def invAt (ix : DlgIndex W HASH_BASIC) (inv : Option Int) (i : Int) : Option DlgInvType := do
  at? (ix.m_inv_buf.getD []) ((← inv) + i)

/-- `BinarySearch` in the positions from `offset` up to, not including,
`max_pos`. -/
def binarySearch (ix : DlgIndex W HASH_BASIC) (doc_id : Int) (inv : Option Int)
    (offset max_pos : Int) : Option Int := do
  let right := max_pos - 1
  let found ← bisect (fun left right => left + (right - left) / 2)
    (fun mid => (invAt ix inv mid).map fun node => compare doc_id (InvType.docId node))
    (right - offset + 1).toNat offset right
  some (found.getD (-1))

/-- The loop of `SearchDoc` from list `i` on, with the cursors of these lists.
A list without the document ends the search when `missEnds` is set. -/
def searchDocFrom (missEnds : Bool) (ix : DlgIndex W HASH_BASIC) (doc_id : Int) (min_index : Nat) :
    Nat → List InvResult → List Int → Option (Int × List Int)
  | _, [], index_begins => some (0, index_begins)
  | _, _ :: _, [] => none
  | i, result :: inv_results, begin :: index_begins =>
    if i = min_index then do
      let (ret, index_begins) ← searchDocFrom missEnds ix doc_id min_index (i + 1) inv_results
        index_begins
      some (ret, begin :: index_begins)
    else do
      let doc_index ← binarySearch ix doc_id result.inv begin result.inv_num
      if doc_index < 0 ∧ missEnds then some (-1, begin :: index_begins)
      else do
        let (ret, index_begins) ← searchDocFrom missEnds ix doc_id min_index (i + 1) inv_results
          index_begins
        -- the next search in this list starts behind the document found
        some (ret, (if doc_index < 0 then begin else doc_index + 1) :: index_begins)

def searchDoc (ix : DlgIndex W HASH_BASIC) (doc_id : Int) (inv_results : List InvResult)
    (min_index : Nat) (index_begins : List Int) : Option (Int × List Int) :=
  searchDocFrom true ix doc_id min_index 0 inv_results index_begins

/-- One round of the loop of `UnionInvResult`: posting `i` of the driving
list. The state is the cursors and the documents found. -/
def unionRound (ix : DlgIndex W HASH_BASIC) (inv_results : List InvResult) (min_index : Nat)
    (driving : Option Int) (state : List Int × List Int) (i : Nat) :
    Option (List Int × List Int) := do
  let inv ← invAt ix driving i
  let (ret, index_begins) ← searchDoc ix (InvType.docId inv) inv_results min_index state.1
  some (index_begins, if 0 ≤ ret then state.2 ++ [getDoc inv] else state.2)

/-- `UnionInvResult`: the return value and the documents, as offsets in
`m_doc_buf`. -/
def unionInvResult (ix : DlgIndex W HASH_BASIC) (inv_results : List InvResult)
    (num_info : InvNumInfo) (docs : List Int) : Option (Int × List Int) :=
  if num_info.min_inv_size = 0 then some (0, docs)
  else do
    let driving ← inv_results[num_info.min_index]?
    let (_, docs) ← (List.range driving.inv_num.toNat).foldlM
      (unionRound ix inv_results num_info.min_index driving.inv)
      (inv_results.map fun _ => 0, docs)
    some (docs.length, docs)

end DlgLogIndex

end CommonTools.Index
