import CommonTools.Lib.Layout
import CommonTools.Lib.Partition
import CommonTools.Lib.Bisect

/-! # `CHashVector_Enhanced`

A hash table of vectors of nodes. The words live in one buffer and a node
holds only its word's offset. Items are added first, then the buckets are
sorted, and from then on the table is only searched, here or, after
`writeFile` and `readInFile`, in another process. -/
namespace CommonTools.Index
open CommonTools.Lib

/-- What `CHashVector_Enhanced` uses of its NODETYPE. `assign dst src` is the
type's own `operator=`: what `dst` holds after `dst = src`. -/
class NodeType (N : Type) extends Pod N where
  wordOffset : N → Int
  setWordOffset : Nat → N → N
  assign : N → N → N
  /-- an object whose members were never written -/
  uninit : N
  size_pos : 0 < size
  wordOffset_set : ∀ k n, k < 2 ^ 31 → wordOffset (setWordOffset k n) = k
  set_set : ∀ j k n, setWordOffset j (setWordOffset k n) = setWordOffset j n

open NodeType

structure HashVector (N : Type) (HASH_BASIC : Nat) where
  data : Fin HASH_BASIC → List N
  m_charVect : Bytes
  /-- `none` is the null pointer -/
  m_wordsBuf : Option Bytes
  m_wordsBufSize : BitVec 64

namespace HashVector
variable {N : Type} [NodeType N] {HASH_BASIC : Nat}

def empty : HashVector N HASH_BASIC := ⟨fun _ => [], [], none, 0⟩

/-- `index ^= (index << 5) + (index >> 2) + *str++`; a `char` is signed. -/
def hashStep (index : BitVec 32) (c : UInt8) : BitVec 32 :=
  index ^^^ ((index <<< 5) + (index >>> 2) + c.toBitVec.signExtend 32)

def getHashValue (HASH_BASIC : Nat) [NeZero HASH_BASIC] (str : Bytes) : Fin HASH_BASIC :=
  Fin.ofNat HASH_BASIC ((cstr str).foldl hashStep 0).toNat

def addItem [NeZero HASH_BASIC] (h : HashVector N HASH_BASIC) (item : N) (word : Bytes) :
    HashVector N HASH_BASIC :=
  let item := setWordOffset h.m_charVect.length item
  let hashValue := getHashValue HASH_BASIC word
  { h with
    m_charVect := pushCString h.m_charVect word
    data := Function.update h.data hashValue (h.data hashValue ++ [item]) }

/-! ## Sorting the buckets -/

/-- `m_wordsBuf + node.word_offset`, read as a C string. -/
def wordAt (wordsBuf : Bytes) (n : N) : Option Bytes := cstrAt wordsBuf (wordOffset n)

/-- `strcmp(word of node, pchKeyValue) < 0`. -/
def below (wordsBuf pchKeyValue : Bytes) (n : N) : Option Bool := do
  some (strcmp (← wordAt wordsBuf n) pchKeyValue == .lt)

def partition (wordsBuf : Bytes) (vect : List N) (left right : Int) :
    Option (List N × Int) := do
  let key := left
  let pchKeyValue ← wordAt wordsBuf (← at? vect key)
  if right = left + 1 then
    let word ← wordAt wordsBuf (← at? vect right)
    if strcmp pchKeyValue word = .gt then
      some (← wap assign uninit vect key right, right)
    else some (vect, right)
  else
    let left := left + 1
    let (vect, left, right) ← exchange (below wordsBuf pchKeyValue) (wap assign uninit) key
      (right - left).toNat vect left right
    -- the two scans met on one element: it may still belong to the right part
    let right ← if right = left then
        if ← below wordsBuf pchKeyValue (← at? vect right) then some right else some (right - 1)
      else some right
    if right = key then some (vect, right)
    else some (← wap assign uninit vect key right, right)

/-- The recursion depth is at most the number of elements, so a bucket's
length is enough for the first argument. Positions are `int`s: a bucket has
less than `2^31` nodes. -/
def qSort (wordsBuf : Bytes) : Nat → List N → Int → Int → Option (List N)
  | 0, vect, left, right => if left < right then none else some vect
  | n + 1, vect, left, right =>
    if left < right then do
      let (vect, key) ← partition wordsBuf vect left right
      let vect ← qSort wordsBuf n vect left (key - 1)
      qSort wordsBuf n vect (key + 1) right
    else some vect

/-- `QSort(nodeVect, 0, nodeVect.size()-1)`. -/
def sortBucket (wordsBuf : Bytes) (nodeVect : List N) : Option (List N) :=
  qSort wordsBuf nodeVect.length nodeVect 0 (nodeVect.length - 1)

/-- The buckets are independent, so their order does not matter. -/
def sort (h : HashVector N HASH_BASIC) : Option (HashVector N HASH_BASIC) :=
  let buf := h.m_charVect
  if ok : ∀ i, (sortBucket buf (h.data i)).isSome then
    some { h with
      m_wordsBuf := some buf
      data := fun i => (sortBucket buf (h.data i)).get (ok i) }
  else none

/-! ## Searching -/

/-- `strcmp(word, m_wordsBuf+vect[i].word_offset)`. -/
def compareAt (wordsBuf word : Bytes) (vect : List N) (i : Int) : Option Ordering := do
  some (strcmp word (← wordAt wordsBuf (← at? vect i)))

/-- The search of `Find` inside one bucket. The inner `none` is the null
pointer. With up to `2^30` nodes `left + right` is an `int`. -/
def findIn (wordsBuf word : Bytes) (vect : List N) : Option (Option N) := do
  match ← bisect (fun left right => (left + right) / 2) (compareAt wordsBuf word vect)
    vect.length 0 (vect.length - 1) with
  | some mid => some (some (← at? vect mid))
  | none => some none

def find [NeZero HASH_BASIC] (h : HashVector N HASH_BASIC) (word : Bytes) :
    Option (Option N) :=
  findIn (h.m_wordsBuf.getD []) (cstr word) (h.data (getHashValue HASH_BASIC word))

/-! ## The file -/

/-- Copy the words of one bucket behind `buf` and point the nodes at the
copies. -/
def relocate (charVect : Bytes) : Bytes → List N → Option (Bytes × List N)
  | buf, [] => some (buf, [])
  | buf, node :: rest => do
    let word_offset := BitVec.ofInt 32 (wordOffset node)
    let word ← cstrAt charVect word_offset.toNat
    let (buf', rest) ← relocate charVect (buf ++ word ++ [0]) rest
    some (buf', setWordOffset buf.length node :: rest)

def relocateAll (charVect : Bytes) : Bytes → List (List N) → Option (Bytes × List (List N))
  | buf, [] => some (buf, [])
  | buf, vect :: rest => do
    let (buf, vect) ← relocate charVect buf vect
    let (buf, rest) ← relocateAll charVect buf rest
    some (buf, vect :: rest)

/-- One bucket in the file: its index, its size, its nodes. -/
def bucketBytes (i : Nat) (vect : List N) : Bytes :=
  Pod.toBytes (BitVec.ofNat 32 i) ++ Pod.toBytes (BitVec.ofNat 32 vect.length) ++ block vect

def bucketsBytes : Nat → List (List N) → Bytes
  | _, [] => []
  | i, vect :: rest => bucketBytes i vect ++ bucketsBytes (i + 1) rest

/-- Every `fwrite` succeeds, so the file grows by exactly the bytes written.
The words must fill the `m_wordsBufSize` bytes that were allocated: fewer
would write uninitialised memory, more would leave the buffer. -/
def writeFile (h : HashVector N HASH_BASIC) : Option (Bytes × HashVector N HASH_BASIC) := do
  let m_wordsBufSize := BitVec.ofNat 64 h.m_charVect.length
  let (buf, buckets) ← relocateAll h.m_charVect [] (List.ofFn h.data)
  if buf.length = m_wordsBufSize.toNat then
    let bytes := Pod.toBytes m_wordsBufSize ++ buf ++
      Pod.toBytes (BitVec.ofNat 32 HASH_BASIC) ++ bucketsBytes 0 buckets
    some (bytes, { h with
      m_wordsBufSize, m_wordsBuf := none, data := fun i => buckets.getD i [] })
  else none

/-- The loop of `ReadInFile` over the buckets. The counts of its reads are not
checked; `junk` is what `index` and `vectSize` held before. -/
def readBuckets (junk : Nat → Nat → UInt8) :
    Nat → Nat → (Fin HASH_BASIC → List N) → Bytes → Option ((Fin HASH_BASIC → List N) × Bytes)
  | 0, _, data, file => some (data, file)
  | n + 1, i, data, file =>
    let r := fread (fresh junk (5 + 2 * i) 4) 4 1 file
    let index := (Pod.ofBytes r.mem : BitVec 32).toNat
    if hi : index < HASH_BASIC then
      let s := fread (fresh junk (6 + 2 * i) 4) 4 1 r.rest
      let vectSize := (Pod.ofBytes s.mem : BitVec 32).toNat
      if 0 < vectSize then
        let zeroed := List.replicate (Pod.size N * vectSize) 0
        let b := fread zeroed (Pod.size N) vectSize s.rest
        readBuckets junk n (i + 1) (Function.update data ⟨index, hi⟩ (unblock N vectSize b.mem))
          b.rest
      else readBuckets junk n (i + 1) (Function.update data ⟨index, hi⟩ []) s.rest
    else none

def readInFile (junk : Nat → Nat → UInt8) (h : HashVector N HASH_BASIC) (file : Bytes) :
    Option (Bool × HashVector N HASH_BASIC × Bytes) :=
  let r := fread (Pod.toBytes h.m_wordsBufSize) 8 1 file
  let m_wordsBufSize : BitVec 64 := Pod.ofBytes r.mem
  let b := fread (fresh junk 3 m_wordsBufSize.toNat) 1 m_wordsBufSize.toNat r.rest
  let h := { h with m_wordsBufSize, m_wordsBuf := some b.mem }
  if b.count ≠ m_wordsBufSize.toNat then some (false, h, b.rest)
  else
    let s := fread (fresh junk 4 4) 4 1 b.rest
    let hashSize := (Pod.ofBytes s.mem : BitVec 32).toNat
    if s.count ≠ 1 then some (false, h, s.rest)
    else if hashSize ≠ HASH_BASIC then some (false, h, s.rest)
    else (readBuckets junk hashSize 0 h.data s.rest).map fun (data, rest) =>
      (true, { h with data }, rest)

def clear (h : HashVector N HASH_BASIC) : HashVector N HASH_BASIC :=
  { h with data := fun _ => [], m_charVect := [], m_wordsBuf := none }

end HashVector

end CommonTools.Index
