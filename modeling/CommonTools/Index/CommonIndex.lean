import Std.Data.TreeMap.Lemmas
import CommonTools.Index.HashVector

/-! # `CommonIndex`

The generic inverted index: documents with their texts in one buffer, the
postings of all words in another, and the hash table from a word to its range
of postings. `add` fills it, `save` writes it, `load` reads it for searching. -/
namespace CommonTools.Index
open CommonTools.Lib

/-! ## What the index asks of its node types -/

/-- DOC_TYPE: the offset of the text and the static weight. -/
class DocType (D : Type) (W : outParam Type) extends Pod D where
  wordOffset : D → Int
  setWordOffset : Nat → D → D
  weight : D → W
  size_pos : 0 < size
  wordOffset_set : ∀ k d, k < 2 ^ 31 → wordOffset (setWordOffset k d) = k

/-- INV_TYPE: the document the posting belongs to. -/
class InvType (I : Type) extends Pod I where
  docId : I → Int
  setDocId : Nat → I → I
  size_pos : 0 < size
  docId_set : ∀ k i, k < 2 ^ 31 → docId (setDocId k i) = k

/-- KEY_TYPE: a node of the hash table with a half-open range of postings. -/
class KeyType (N : Type) extends NodeType N where
  keyBegin : N → Int
  keyEnd : N → Int
  /-- a fresh `indexNode` after its `begin` and `end` are assigned -/
  ofRange : Nat → Nat → N
  begin_set : ∀ k n, keyBegin (setWordOffset k n) = keyBegin n
  end_set : ∀ k n, keyEnd (setWordOffset k n) = keyEnd n
  begin_ofRange : ∀ b e, b < 2 ^ 31 → keyBegin (ofRange b e) = b
  end_ofRange : ∀ b e, e < 2 ^ 31 → keyEnd (ofRange b e) = e

/-- `std::map` from words to postings, in the order of the words. -/
abbrev IndexMap (I : Type) := Std.TreeMap Bytes (List I)

/-- The default HASH_BASIC, which every `CommonIndex` of the source uses. -/
abbrev hashBasic : Nat := 11111

/-- The bucket count of `m_index` stays a parameter. -/
structure CommonIndex (D I N : Type) (HASH_BASIC : Nat) where
  m_char_buf : Option Bytes
  m_num_char : BitVec 32
  m_doc_buf : Option (List D)
  m_num_doc : BitVec 32
  m_inv_buf : Option (List I)
  m_num_inv : BitVec 32
  m_index : HashVector N HASH_BASIC
  m_char_vect : Bytes
  m_doc_vect : List D
  m_inv_vect : List I
  m_index_map : IndexMap I

namespace CommonIndex
variable {D I N W : Type} {HASH_BASIC : Nat}
variable [DocType D W] [InvType I] [KeyType N] [NeZero HASH_BASIC]

def empty : CommonIndex D I N HASH_BASIC :=
  ⟨none, 0, none, 0, none, 0, HashVector.empty, [], [], [], ∅⟩

/-! ## Adding documents -/

/-- `m_index_map[key].push_back(inv_node)`. -/
def pushPosting (map : IndexMap I) (key : Bytes) (inv_node : I) : IndexMap I :=
  map.alter (cstr key) fun v => some (v.getD [] ++ [inv_node])

/-- The part that all overloads of `Add` share: store the text and the
document. -/
def pushDoc (ix : CommonIndex D I N HASH_BASIC) (doc_node : D) (doc_text : Bytes) :
    CommonIndex D I N HASH_BASIC :=
  let doc_node := DocType.setWordOffset ix.m_char_vect.length doc_node
  { ix with
    m_char_vect := pushCString ix.m_char_vect doc_text
    m_doc_vect := ix.m_doc_vect ++ [doc_node] }

/-- The loop over the keys and, in step with it, the postings. With fewer
postings than keys the iterator leaves `inv_vect`. -/
def pushPostings (doc_id : Nat) : IndexMap I → List Bytes → List I → Option (IndexMap I)
  | map, [], _ => some map
  | _, _ :: _, [] => none
  | map, key :: keys, inv :: invs =>
    pushPostings doc_id (pushPosting map key (InvType.setDocId doc_id inv)) keys invs

/-- `Add(key_vect, inv_vect, doc_node, doc_text)`. -/
def add (ix : CommonIndex D I N HASH_BASIC) (key_vect : List Bytes) (inv_vect : List I) (doc_node : D)
    (doc_text : Bytes) : Option (CommonIndex D I N HASH_BASIC) := do
  let doc_id := ix.m_doc_vect.length
  let ix := ix.pushDoc doc_node doc_text
  some { ix with m_index_map := ← pushPostings doc_id ix.m_index_map key_vect inv_vect }

/-- `Add(key_vect, inv_node, doc_node, doc_text)`: one posting for all keys. -/
def addSame (ix : CommonIndex D I N HASH_BASIC) (key_vect : List Bytes) (inv_node : I) (doc_node : D)
    (doc_text : Bytes) : Option (CommonIndex D I N HASH_BASIC) :=
  ix.add key_vect (key_vect.map fun _ => inv_node) doc_node doc_text

/-- `Add(key_word, inv_node, doc_node, doc_text)`. -/
def addOne (ix : CommonIndex D I N HASH_BASIC) (key_word : Bytes) (inv_node : I) (doc_node : D)
    (doc_text : Bytes) : Option (CommonIndex D I N HASH_BASIC) :=
  ix.add [key_word] [inv_node] doc_node doc_text

/-! ## Sorting a posting list by document weight -/

section QSort
variable [LE W] [LT W] [DecidableLE W] [DecidableLT W]

/-- `m_doc_vect[inv.doc_id].weight`. -/
def weightOf (docs : List D) (inv : I) : Option W :=
  (at? docs (InvType.docId inv)).map DocType.weight

/-- `weight >= key_value`. -/
def notBelow (docs : List D) (key_value : W) (inv : I) : Option Bool := do
  some (decide (key_value ≤ (← weightOf docs inv)))

def partition (docs : List D) (vect : List I) (left right : Int) : Option (List I × Int) := do
  -- two elements in the wrong order; in the right order the general case runs
  let swapped ← if right = left + 1 then do
      let weightRight ← weightOf docs (← at? vect right)
      let weightLeft ← weightOf docs (← at? vect left)
      some (decide (weightLeft < weightRight))
    else some false
  if swapped then some (← swap vect left right, right)
  else
    let key := left
    let key_value ← weightOf docs (← at? vect key)
    let left := left + 1
    let (vect, left, right) ← exchange (notBelow docs key_value) swap key
      (right - left).toNat vect left right
    let right ← if right = left then
        if ← notBelow docs key_value (← at? vect right) then some right else some (right - 1)
      else some right
    if right = key then some (vect, right) else some (← swap vect key right, right)

/-- `QSort`. Positions are `int`s: a word has less than `2^31` postings. -/
def qSort (docs : List D) : Nat → List I → Int → Int → Option (List I)
  | 0, vect, left, right => if left < right then none else some vect
  | n + 1, vect, left, right =>
    if left < right then do
      let (vect, key) ← partition docs vect left right
      let vect ← qSort docs n vect left (key - 1)
      qSort docs n vect (key + 1) right
    else some vect

/-! ## Building the table -/

/-- One round of the loop over `m_index_map`. -/
def moveWord (is_need_sort : Bool) (ix : CommonIndex D I N HASH_BASIC) (entry : Bytes × List I) :
    Option (CommonIndex D I N HASH_BASIC) := do
  let inv_vect ← if is_need_sort then
      qSort ix.m_doc_vect entry.2.length entry.2 0 (entry.2.length - 1)
    else some entry.2
  let m_inv_vect := ix.m_inv_vect ++ inv_vect
  let indexNode : N := KeyType.ofRange ix.m_inv_vect.length m_inv_vect.length
  some { ix with m_inv_vect, m_index := ix.m_index.addItem indexNode entry.1 }

def changeToHVIndex (ix : CommonIndex D I N HASH_BASIC) (is_need_sort : Bool) :
    Option (CommonIndex D I N HASH_BASIC) := do
  let ix ← ix.m_index_map.toList.foldlM (moveWord is_need_sort) ix
  some { ix with m_index := ← ix.m_index.sort }

/-! ## The file -/

/-- `fwrite(&vect[0], sizeof(T), num, fp)` with an `int` count. -/
def fwriteInts {α : Type} [Pod α] (num : BitVec 32) (vect : List α) : Option Bytes :=
  if num.toInt < 0 then none else some (block (vect.take num.toNat))

/-- `Save`, with every `fwrite` successful. -/
def save (ix : CommonIndex D I N HASH_BASIC) (is_need_sort : Bool) :
    Option (Bytes × CommonIndex D I N HASH_BASIC) := do
  let ix ← ix.changeToHVIndex is_need_sort
  let m_num_char := BitVec.ofNat 32 ix.m_char_vect.length
  let m_num_doc := BitVec.ofNat 32 ix.m_doc_vect.length
  let m_num_inv := BitVec.ofNat 32 ix.m_inv_vect.length
  let chars ← if m_num_char.toInt < 0 then none
    else some (ix.m_char_vect.take m_num_char.toNat)
  let docs ← fwriteInts m_num_doc ix.m_doc_vect
  let invs ← fwriteInts m_num_inv ix.m_inv_vect
  let (words, m_index) ← ix.m_index.writeFile
  some (Pod.toBytes m_num_char ++ chars ++ (Pod.toBytes m_num_doc ++ docs) ++
    (Pod.toBytes m_num_inv ++ invs) ++ words,
    { ix with m_num_char, m_num_doc, m_num_inv, m_index })

end QSort

def clear (ix : CommonIndex D I N HASH_BASIC) : CommonIndex D I N HASH_BASIC :=
  { (empty : CommonIndex D I N HASH_BASIC) with m_index := ix.m_index.clear }

/-- What reading `T m_buf[m_num]` leaves: whether both reads were complete, the
member `m_num`, the buffer if it was allocated, and the rest of the file. -/
structure BlockRead where
  ok : Bool
  num : BitVec 32
  buf : Option Bytes
  rest : Bytes

/-- Read a count and the block behind it; `none` is the exception of `new` for
a negative size. -/
def readBlock (size : Nat) (junk : Nat → Nat → UInt8) (tag : Nat) (m_num : BitVec 32)
    (file : Bytes) : Option BlockRead :=
  let r := fread (Pod.toBytes m_num) 4 1 file
  let num : BitVec 32 := Pod.ofBytes r.mem
  if r.count ≠ 1 then some ⟨false, num, none, r.rest⟩
  else if num.toInt < 0 then none
  else
    let b := fread (fresh junk tag (size * num.toNat)) size num.toNat r.rest
    some ⟨b.count == num.toNat, num, some b.mem, b.rest⟩

/-- `Load`: the return value and the index it leaves. -/
def load (junk : Nat → Nat → UInt8) (ix : CommonIndex D I N HASH_BASIC) (file : Bytes) :
    Option (Int × CommonIndex D I N HASH_BASIC) := do
  let ix := ix.clear
  let r ← readBlock 1 junk 0 ix.m_num_char file
  let ix := { ix with m_num_char := r.num, m_char_buf := r.buf }
  if !r.ok then return (-1, ix)
  let r ← readBlock (Pod.size D) junk 1 ix.m_num_doc r.rest
  let ix := { ix with m_num_doc := r.num, m_doc_buf := r.buf.map (unblock D r.num.toNat) }
  if !r.ok then return (-1, ix)
  let r ← readBlock (Pod.size I) junk 2 ix.m_num_inv r.rest
  let ix := { ix with m_num_inv := r.num, m_inv_buf := r.buf.map (unblock I r.num.toNat) }
  if !r.ok then return (-1, ix)
  let (ok, m_index, _) ← ix.m_index.readInFile junk r.rest
  if !ok then return (-1, { ix with m_index })
  return (0, { ix with m_index })

/-! ## Searching -/

/-- `GetInv`: the offset of the returned pointer in `m_inv_buf`, and `num_inv`.
The inner `none` is the null pointer. -/
def getInv (ix : CommonIndex D I N HASH_BASIC) (key_word : Bytes) : Option (Option (Int × Int)) := do
  match ← ix.m_index.find key_word with
  | some key_node =>
    some (some (KeyType.keyBegin key_node, KeyType.keyEnd key_node - KeyType.keyBegin key_node))
  | none => some none

/-- The postings behind the pointer and count that `getInv` returns. -/
def walk (ix : CommonIndex D I N HASH_BASIC) (inv_list num_inv : Int) : Option (List I) :=
  (List.range num_inv.toNat).mapM fun i : Nat => at? (ix.m_inv_buf.getD []) (inv_list + i)

/-- `GetDoc`: the offset of the returned pointer in `m_doc_buf`. -/
def getDoc (inv_node : I) : Int := InvType.docId inv_node

/-- `GetDocText` of the document at offset `doc_node` of `m_doc_buf`. -/
def getDocText (ix : CommonIndex D I N HASH_BASIC) (doc_node : Int) : Option Bytes := do
  let doc ← at? (ix.m_doc_buf.getD []) doc_node
  cstrAt (ix.m_char_buf.getD []) (DocType.wordOffset doc)

end CommonIndex

/-! ## The node types of the two users -/

theorem toInt_ofNat32 {k : Nat} (h : k < 2 ^ 31) : (BitVec.ofNat 32 k).toInt = k := by
  rw [BitVec.toInt_eq_toNat_of_lt (by rw [BitVec.toNat_ofNat]; omega), BitVec.toNat_ofNat]
  omega

theorem toInt_ofNat64 {k : Nat} (h : k < 2 ^ 31) : (BitVec.ofNat 64 k).toInt = k := by
  rw [BitVec.toInt_eq_toNat_of_lt (by rw [BitVec.toNat_ofNat]; omega), BitVec.toNat_ofNat]
  omega

structure DefaultDocType (W : Type) where
  word_offset : BitVec 32
  weight : W

structure DefaultInvType where
  doc_id : BitVec 32

/-- Its `operator=` assigns `word_offset` to itself. -/
structure DefaultKeyType where
  word_offset : BitVec 32
  begin : BitVec 32
  end_ : BitVec 32

structure DlgDocType (W : Type) where
  word_offset : BitVec 64
  weight : W

structure DlgInvType where
  occ : BitVec 32
  occ_len : BitVec 32
  occ_filed : BitVec 32
  doc_id : BitVec 32

/-- Its `operator=` assigns `word_offset` to itself. -/
structure DlgKeyType where
  begin : BitVec 32
  end_ : BitVec 32
  word_offset : BitVec 64

instance {W : Type} [Pod W] : DocType (DefaultDocType W) W where
  toPod := podOf (fun d => (d.word_offset, d.weight)) (fun p => ⟨p.1, p.2⟩) fun _ => rfl
  wordOffset d := d.word_offset.toInt
  setWordOffset k d := { d with word_offset := BitVec.ofNat 32 k }
  weight d := d.weight
  size_pos := Nat.lt_of_lt_of_le (by decide : 0 < 4) (Nat.le_add_right 4 _)
  wordOffset_set _ _ h := toInt_ofNat32 h

/-- Four bytes of padding follow the weight. -/
instance {W : Type} [Pod W] : DocType (DlgDocType W) W where
  toPod := podPadded
    (podOf (fun d => (d.word_offset, d.weight)) (fun p => ⟨p.1, p.2⟩) fun _ => rfl) 4
  wordOffset d := d.word_offset.toInt
  setWordOffset k d := { d with word_offset := BitVec.ofNat 64 k }
  weight d := d.weight
  size_pos := Nat.lt_of_lt_of_le (by decide : 0 < 4) (Nat.le_add_left 4 _)
  wordOffset_set _ _ h := toInt_ofNat64 h

instance : InvType DefaultInvType where
  toPod := podOf DefaultInvType.doc_id DefaultInvType.mk fun _ => rfl
  docId i := i.doc_id.toInt
  setDocId k i := { i with doc_id := BitVec.ofNat 32 k }
  size_pos := by decide
  docId_set _ _ h := toInt_ofNat32 h

instance : InvType DlgInvType where
  toPod := podOf (fun i => (i.occ, i.occ_len, i.occ_filed, i.doc_id))
    (fun p => ⟨p.1, p.2.1, p.2.2.1, p.2.2.2⟩) fun _ => rfl
  docId i := i.doc_id.toInt
  setDocId k i := { i with doc_id := BitVec.ofNat 32 k }
  size_pos := by decide
  docId_set _ _ h := toInt_ofNat32 h

instance : KeyType DefaultKeyType where
  toPod := podOf (fun n => (n.word_offset, n.begin, n.end_)) (fun p => ⟨p.1, p.2.1, p.2.2⟩)
    fun _ => rfl
  wordOffset n := n.word_offset.toInt
  setWordOffset k n := { n with word_offset := BitVec.ofNat 32 k }
  assign dst src := { dst with begin := src.begin, end_ := src.end_ }
  uninit := ⟨0, 0, 0⟩
  size_pos := by decide
  wordOffset_set _ _ h := toInt_ofNat32 h
  set_set _ _ _ := rfl
  keyBegin n := n.begin.toInt
  keyEnd n := n.end_.toInt
  ofRange b e := ⟨0, BitVec.ofNat 32 b, BitVec.ofNat 32 e⟩
  begin_set _ _ := rfl
  end_set _ _ := rfl
  begin_ofRange _ _ h := toInt_ofNat32 h
  end_ofRange _ _ h := toInt_ofNat32 h

instance : KeyType DlgKeyType where
  toPod := podOf (fun n => (n.begin, n.end_, n.word_offset)) (fun p => ⟨p.1, p.2.1, p.2.2⟩)
    fun _ => rfl
  wordOffset n := n.word_offset.toInt
  setWordOffset k n := { n with word_offset := BitVec.ofNat 64 k }
  assign dst src := { dst with begin := src.begin, end_ := src.end_ }
  uninit := ⟨0, 0, 0⟩
  size_pos := by decide
  wordOffset_set _ _ h := toInt_ofNat64 h
  set_set _ _ _ := rfl
  keyBegin n := n.begin.toInt
  keyEnd n := n.end_.toInt
  ofRange b e := ⟨BitVec.ofNat 32 b, BitVec.ofNat 32 e, 0⟩
  begin_set _ _ := rfl
  end_set _ _ := rfl
  begin_ofRange _ _ h := toInt_ofNat32 h
  end_ofRange _ _ h := toInt_ofNat32 h

end CommonTools.Index
