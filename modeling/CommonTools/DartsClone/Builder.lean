import Mathlib.Data.List.Sort
import Mathlib.Logic.Function.Basic
import CommonTools.DartsClone.DoubleArray

/-! # Building a double array

The builder gives every node of the trie an offset under which the units of its children are
empty. Empty units of the last 16 blocks form a circle that is searched for such an offset;
a block that leaves it is fixed. Behind the units come the suffixes with their values. -/
namespace CommonTools.DartsClone
open CommonTools.Lib

def BLOCK_SIZE : Nat := 256
def NUM_OF_UNFIXED_BLOCKS : Nat := 16

structure DoubleArrayExtra where
  is_fixed : Bool := false
  next : Nat := 0
  is_used : Bool := false
  prev : Nat := 0

/-- The members of `DoubleArrayBuilder` while the trie is built. There is no extra where
`extras_` has no block or a null pointer. -/
structure DoubleArrayBuilder where
  units_ : List (BitVec 32) := []
  extras_ : Nat → Option DoubleArrayExtra := fun _ => none
  num_of_blocks : Nat := 0
  unfixed_index_ : Nat := 0

namespace DoubleArrayBuilder

def num_of_units (b : DoubleArrayBuilder) : Nat := b.units_.length

def extras (b : DoubleArrayBuilder) (index : Nat) : Except Failure DoubleArrayExtra :=
  defined (b.extras_ index)

/-- A call of a setter of `extras(index)`. -/
def setExtra (b : DoubleArrayBuilder) (index : Nat) (set : DoubleArrayExtra → DoubleArrayExtra) :
    Except Failure DoubleArrayBuilder := do
  let e ← b.extras index
  .ok { b with extras_ := Function.update b.extras_ index (some (set e)) }

/-- A call of a setter of `units(index)`. -/
def setUnit (b : DoubleArrayBuilder) (index : Nat)
    (set : BitVec 32 → Except Failure (BitVec 32)) : Except Failure DoubleArrayBuilder := do
  let unit ← defined b.units_[index]?
  let unit ← set unit
  .ok { b with units_ := b.units_.set index unit }

/-! ## Empty units -/

/-- `reserve_index` for an index below the number of units. -/
def takeIndex (b : DoubleArrayBuilder) (index : Nat) : Except Failure DoubleArrayBuilder := do
  let e ← b.extras index
  assert !e.is_fixed
  let b :=
    if index = b.unfixed_index_ then
      if e.next = index then { b with unfixed_index_ := b.num_of_units }
      else { b with unfixed_index_ := e.next }
    else b
  let b ← b.setExtra e.prev fun p => { p with next := e.next }
  let e ← b.extras index
  let b ← b.setExtra e.next fun n => { n with prev := e.prev }
  b.setExtra index fun e => { e with is_fixed := true }

/-- The loop in `fix_block` for an offset that is not in use, and zero without one. -/
def findUnused (b : DoubleArrayBuilder) : List Nat → Except Failure Nat
  | [] => .ok 0
  | offset :: rest => do
    let e ← b.extras offset
    if !e.is_used then .ok offset else b.findUnused rest

/-- The loop in `fix_block` over the empty units in front of `end_`. Each round takes one,
so that `n` rounds are enough for a block of that size. -/
def fixLoop (end_ unused_offset : Nat) : Nat → DoubleArrayBuilder →
    Except Failure DoubleArrayBuilder
  | 0, _ => .error .undefined
  | n + 1, b =>
    if b.unfixed_index_ < end_ then do
      let unfixed_index := b.unfixed_index_
      let b ← b.takeIndex unfixed_index
      let b ← b.setUnit unfixed_index fun u =>
        .ok (setLabel (UInt8.ofNat (unfixed_index ^^^ unused_offset)) u)
      fixLoop end_ unused_offset n b
    else .ok b

def fixBlock (b : DoubleArrayBuilder) (block_id : Nat) : Except Failure DoubleArrayBuilder := do
  assert (block_id < b.num_of_blocks)
  let begin_ := block_id * BLOCK_SIZE
  let end_ := begin_ + BLOCK_SIZE
  if b.unfixed_index_ ≥ end_ then .ok b
  else do
    let unused_offset ← b.findUnused (List.range' begin_ BLOCK_SIZE)
    let e ← b.extras unused_offset
    assert !e.is_used
    fixLoop end_ unused_offset (BLOCK_SIZE + 1) b

/-- `extras(i - 1).set_next(i)` and `extras(i).set_prev(i - 1)`. -/
def linkPair (b : DoubleArrayBuilder) (i : Nat) : Except Failure DoubleArrayBuilder := do
  let b ← b.setExtra (i - 1) fun e => { e with next := i }
  b.setExtra i fun e => { e with prev := i - 1 }

/-- The end of `expand_trie`: the units from `src` up to and without `dest` become a circle,
and then one circle with the others. -/
def linkBlock (b : DoubleArrayBuilder) (src dest : Nat) : Except Failure DoubleArrayBuilder := do
  let b ← (List.range' (src + 1) (dest - (src + 1))).foldlM linkPair b
  let b ← b.setExtra src fun e => { e with prev := dest - 1 }
  let b ← b.setExtra (dest - 1) fun e => { e with next := src }
  let head ← b.extras b.unfixed_index_
  let b ← b.setExtra src fun e => { e with prev := head.prev }
  let b ← b.setExtra (dest - 1) fun e => { e with next := b.unfixed_index_ }
  let head ← b.extras b.unfixed_index_
  let b ← b.setExtra head.prev fun e => { e with next := src }
  b.setExtra b.unfixed_index_ fun e => { e with prev := dest - 1 }

/-- `expand_trie`. Past 16 blocks the new block takes over the extras of the block that has
just been fixed. -/
def expandTrie (b : DoubleArrayBuilder) : Except Failure DoubleArrayBuilder := do
  let src_num_of_units := b.num_of_units
  let src_num_of_blocks := b.num_of_blocks
  let dest_num_of_units := src_num_of_units + BLOCK_SIZE
  let dest_num_of_blocks := src_num_of_blocks + 1
  let b ←
    if dest_num_of_blocks > NUM_OF_UNFIXED_BLOCKS then
      b.fixBlock (src_num_of_blocks - NUM_OF_UNFIXED_BLOCKS)
    else .ok b
  let b : DoubleArrayBuilder :=
    { b with
      units_ := b.units_ ++ List.replicate BLOCK_SIZE 0
      num_of_blocks := dest_num_of_blocks
      extras_ := fun i =>
        if src_num_of_units ≤ i ∧ i < dest_num_of_units then some {}
        else if dest_num_of_blocks > NUM_OF_UNFIXED_BLOCKS ∧
          i / BLOCK_SIZE = src_num_of_blocks - NUM_OF_UNFIXED_BLOCKS then none
        else b.extras_ i }
  b.linkBlock src_num_of_units dest_num_of_units

def reserveIndex (b : DoubleArrayBuilder) (index : Nat) : Except Failure DoubleArrayBuilder := do
  let b ← if index ≥ b.num_of_units then b.expandTrie else .ok b
  b.takeIndex index

/-- Fixes the blocks that are still open. -/
def fixAllBlocks (b : DoubleArrayBuilder) : Except Failure DoubleArrayBuilder :=
  let begin_ :=
    if b.num_of_blocks > NUM_OF_UNFIXED_BLOCKS then b.num_of_blocks - NUM_OF_UNFIXED_BLOCKS else 0
  (List.range' begin_ (b.num_of_blocks - begin_)).foldlM fixBlock b

/-! ## Offsets -/

/-- No unit for the other labels is taken. -/
def hasCollision (b : DoubleArrayBuilder) (offset_index : Nat) :
    List UInt8 → Except Failure Bool
  | [] => .ok false
  | l :: labels => do
    let e ← b.extras (offset_index ^^^ l.toNat)
    if e.is_fixed then .ok true else b.hasCollision offset_index labels

/-- The loop over the circle of empty units. A circle has no more members than there are
units. -/
def scanOffsets (b : DoubleArrayBuilder) (index : Nat) (first : UInt8) (others : List UInt8) :
    Nat → Nat → Except Failure (Option Nat)
  | 0, _ => .error .undefined
  | n + 1, unfixed_index => do
    let offset_index := unfixed_index ^^^ first.toNat
    let offset := index ^^^ offset_index
    let e ← b.extras offset_index
    let fits ←
      if !e.is_used && (offset % OFFSET_MAX == 0 || offset / OFFSET_MAX == 0) then do
        let has_collision ← b.hasCollision offset_index others
        .ok !has_collision
      else .ok false
    if fits then .ok (some offset_index)
    else
      let e ← b.extras unfixed_index
      if e.next ≠ b.unfixed_index_ then b.scanOffsets index first others n e.next else .ok none

def findOffsetIndex (b : DoubleArrayBuilder) (index : Nat) (labels : List UInt8) :
    Except Failure Nat := do
  let found ←
    if b.unfixed_index_ < b.num_of_units then do
      let first ← defined labels.head?
      b.scanOffsets index first labels.tail b.num_of_units b.unfixed_index_
    else .ok none
  match found with
  | some offset_index => .ok offset_index
  | none => .ok (b.num_of_units ||| (index &&& 0xFF))

/-! ## The trie -/

end DoubleArrayBuilder

/-- `DoubleArrayKeyRange`, with the keys between its iterators. -/
structure DoubleArrayKeyRange where
  keys : List DoubleArrayKey
  index : Nat

/-- `labels`, `next_ranges` and the keys from `next_begin` on, in the loop over a range. -/
structure Listing where
  labels : List UInt8
  next_ranges : List (List DoubleArrayKey)
  part : List DoubleArrayKey

/-- The loop that lists the labels and the next ranges. -/
def listRanges : List DoubleArrayKey → Listing → Option Listing
  | [], l => some { l with next_ranges := l.next_ranges ++ [l.part] }
  | it :: rest, l => do
    let c ← it.char 0
    let l : Listing :=
      if l.labels.getLast? ≠ some c then
        ⟨l.labels ++ [c], l.next_ranges ++ [l.part], []⟩
      else l
    listRanges rest { l with part := l.part ++ [it.incr] }

namespace DoubleArrayBuilder

/-- Reserves the units of the children, from the last label on, and pushes their ranges. -/
def reserveChildren (offset_index : Nat) : List (UInt8 × List DoubleArrayKey) →
    DoubleArrayBuilder → List DoubleArrayKeyRange →
      Except Failure (DoubleArrayBuilder × List DoubleArrayKeyRange)
  | [], b, range_stack => .ok (b, range_stack)
  | (l, keys) :: rest, b, range_stack => do
    let child_index := offset_index ^^^ l.toNat
    let b ← b.reserveIndex child_index
    let b ← b.setUnit child_index fun u => .ok (setLabel l u)
    reserveChildren offset_index rest b (⟨keys, child_index⟩ :: range_stack)

/-- One range that is not a leaf: its node gets an offset and its children their units. -/
def arrange (b : DoubleArrayBuilder) (range : DoubleArrayKeyRange)
    (range_stack : List DoubleArrayKeyRange) :
    Except Failure (DoubleArrayBuilder × List DoubleArrayKeyRange) := do
  let first ← defined (range.keys.head?.bind fun k => k.char 0)
  let b ←
    if first = 0 then b.setUnit range.index fun u => .ok (setIsEnd u) else .ok b
  let l ← defined (listRanges range.keys ⟨[first], [], []⟩)
  assert (l.labels.length == l.next_ranges.length)
  let offset_index ← b.findOffsetIndex range.index l.labels
  let b ← b.setUnit range.index (setOffset (range.index ^^^ offset_index))
  let (b, range_stack) ←
    b.reserveChildren offset_index (l.labels.zip l.next_ranges).reverse range_stack
  let b ← b.setExtra offset_index fun e => { e with is_used := true }
  .ok (b, range_stack)

/-- `build_trie_subroutine`. The ranges cut `keys_` into parts and come from the stack in
their order, so the keys of the leaves are `keys_`, with the suffixes that are left of them.
Every round takes a node of the trie from the stack; `n` bounds their number. -/
def buildTrieSubroutine : Nat → DoubleArrayBuilder → List DoubleArrayKeyRange →
    List DoubleArrayKey → Except Failure (DoubleArrayBuilder × List DoubleArrayKey)
  | _, b, [], leaves => .ok (b, leaves)
  | 0, _, _ :: _, _ => .error .undefined
  | n + 1, b, range :: range_stack, leaves =>
    match range.keys with
    | [k] =>
      if range.index ≠ 0 then do
        let b ← b.setUnit range.index fun u => .ok (setIsLeaf u)
        buildTrieSubroutine n b range_stack (leaves ++ [{ k.decr with index := range.index }])
      else do
        let (b, range_stack) ← b.arrange range range_stack
        buildTrieSubroutine n b range_stack leaves
    | _ => do
      let (b, range_stack) ← b.arrange range range_stack
      buildTrieSubroutine n b range_stack leaves

/-- The root and every character of a key with its terminator. -/
def nodeBound (keys_ : List DoubleArrayKey) : Nat :=
  1 + (keys_.map fun k => k.key_.length).sum

def buildTrie (keys_ : List DoubleArrayKey) :
    Except Failure (DoubleArrayBuilder × List DoubleArrayKey) := do
  let b : DoubleArrayBuilder := {}
  let b ← b.reserveIndex 0
  let b ← b.reserveIndex 1
  let b ← b.setExtra 0 fun e => { e with is_used := true }
  let b ← b.setUnit 0 (setOffset 1)
  let b ← b.setUnit 0 fun u => .ok (setLabel 0 u)
  let b ← b.setUnit 1 fun u => .ok (setLabel 1 u)
  let (b, leaves) ←
    if keys_ ≠ [] then buildTrieSubroutine (nodeBound keys_) b [⟨keys_, 0⟩] [] else .ok (b, [])
  let b ← b.fixAllBlocks
  let b ← b.setUnit 1 (setOffset b.num_of_units)
  .ok (b, leaves)

end DoubleArrayBuilder

/-! ## The suffixes -/

/-- `tail[tail_index_] = byte`, in the memory of the units. -/
def pokeByte (units_ : List (BitVec 32)) (tail_index_ : Nat) (byte : UInt8) : List (BitVec 32) :=
  units_.modify (tail_index_ / 4) fun u =>
    setField (8 * (tail_index_ % 4)) 8 (BitVec.ofNat 32 byte.toNat) u

structure Tail where
  units_ : List (BitVec 32)
  tail_index_ : Nat

def Tail.appendByte (t : Tail) (byte : UInt8) : Tail :=
  let units_ := if t.tail_index_ ≥ 4 * t.units_.length then t.units_ ++ [0] else t.units_
  ⟨pokeByte units_ t.tail_index_ byte, t.tail_index_ + 1⟩

/-- `append_suffix`, with the terminator. -/
def Tail.appendSuffix (t : Tail) (key : DoubleArrayKey) : Tail := key.key_.foldl appendByte t

def Tail.appendValue (t : Tail) (value : BitVec 32) : Tail :=
  (Pod.toBytes value).foldl appendByte t

/-- The variables of the loop in `arrange_suffixes`; `last` is `keys_[i - 1]`. -/
structure Suffixes where
  tail : Tail
  base_link : Nat
  values : List (BitVec 32)
  last : Option DoubleArrayKey

/-- One round of the loop in `arrange_suffixes`. -/
def Suffixes.round (s : Suffixes) (key : DoubleArrayKey) : Except Failure Suffixes := do
  let is_suffix := s.last.any fun last => key.isSuffixOf last
  let value_id := if is_suffix then s.values.idxOf key.value else 0
  let (s, value_id) : Suffixes × Nat :=
    if !is_suffix || value_id ≥ VALUE_ID_MAX then
      ({ s with
          base_link := s.base_link + 4 * s.values.length + (key.length + 1)
          values := []
          tail := s.tail.appendSuffix key }, 0)
    else (s, value_id)
  let unit ← defined s.tail.units_[key.index]?
  let unit ← setLink (s.base_link - key.length - 1) (setValueId value_id unit)
  let s := { s with tail := { s.tail with units_ := s.tail.units_.set key.index unit } }
  if value_id = s.values.length then
    .ok { s with
      values := s.values ++ [key.value], tail := s.tail.appendValue key.value, last := some key }
  else .ok { s with last := some key }

/-- `arrange_suffixes`, with `std::stable_sort` in suffix order. -/
def arrangeSuffixes (units_ : List (BitVec 32)) (keys_ : List DoubleArrayKey) :
    Except Failure (List (BitVec 32)) := do
  let keys_ := keys_.mergeSort fun a b => !b.reversedComparisonFunc a
  let s ← keys_.foldlM Suffixes.round ⟨⟨units_, 4 * units_.length⟩, 0, [], none⟩
  .ok s.tail.units_

/-- `DoubleArray::build` with values: the units of the new array. -/
def build (keys : List (Bytes × Int)) : Except Failure (List (BitVec 32)) := do
  let internal_keys ← internalKeys [] keys
  let (b, keys_) ← DoubleArrayBuilder.buildTrie internal_keys
  let new_units ← arrangeSuffixes b.units_ keys_
  assert (new_units != [])
  .ok new_units

end CommonTools.DartsClone
