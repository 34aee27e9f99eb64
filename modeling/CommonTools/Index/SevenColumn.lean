import CommonTools.Index.IndexDa

/-! # The seven-column index

Each record is a query with rewrites of seven texts. Every column has a buffer
of its own, in which the texts of one query lie together; `outputIndexFile`
numbers the queries and keeps for each number where its texts begin and end.
`loadIndex` reads everything back, array by array. -/
namespace CommonTools.Index.SevenColumn
open CommonTools.Lib CommonTools.Index.IndexDa

/-- `BEGIN_END`: the offsets of the first and of the last byte. -/
structure BeginEnd where
  begin_ : BitVec 32
  end_ : BitVec 32
deriving DecidableEq

instance : Pod BeginEnd := podOf (fun e => (e.begin_, e.end_)) (fun p => ⟨p.1, p.2⟩) fun _ => rfl

structure PosReform where
  vr : Bytes
  label : Bytes
  pos_type : Bytes
  reform : Bytes
  item_query : Bytes
  data : Bytes
  iswappc : Bytes
deriving DecidableEq

structure WhiteBlackListTmp where
  query : Bytes
  vr_pos_reform : List PosReform
deriving DecidableEq

def comp2 (v1 v2 : WhiteBlackListTmp) : Bool := compare v1.query v2.query == .lt

/-- The seven columns, which the source tells apart by the suffix of its
variables. -/
inductive Column where
  | vr
  | label
  | type
  | reform
  | itemquery
  | data
  | iswappc
deriving DecidableEq

/-- The member that goes into a column. -/
def PosReform.text (p : PosReform) : Column → Bytes
  | .vr => p.vr
  | .label => p.label
  | .type => p.pos_type
  | .reform => p.reform
  | .itemquery => p.item_query
  | .data => p.data
  | .iswappc => p.iswappc

/-! ## Writing -/

/-- `char_vect_…`, `begin_end_…`, `begin_…` and `end_…` of one column. -/
structure ColumnVect where
  char_vect : Bytes
  begin_end : List BeginEnd
  begin_ : BitVec 32
  end_ : BitVec 32

/-- `char_vect_push_(content, char_vect, end)`; the comparison of two pointers
in it is never true. -/
def ColumnVect.push (c : ColumnVect) (content : Bytes) : ColumnVect :=
  { c with
    char_vect := pushCString c.char_vect content
    end_ := c.end_ + BitVec.ofNat 32 ((cstr content).length + 1) }

/-- `BEGIN_END b_e(begin, end - 1); begin_end.push_back(b_e)`. -/
def ColumnVect.pushBeginEnd (c : ColumnVect) : ColumnVect :=
  { c with begin_end := c.begin_end ++ [⟨c.begin_, c.end_ - 1⟩] }

/-- The variables of the loop in `OutputIndexFile`. -/
structure Building where
  column : Column → ColumnVect
  da_key_map : Std.TreeMap Bytes (BitVec 32)
  char_vect_querylen : List (BitVec 32)
  num : BitVec 32
  prequery : Bytes
  query : Bytes

def Building.init : Building := ⟨fun _ => ⟨[], [], 0, 0⟩, ∅, [], 0, [], []⟩

/-- The last query is complete: its offsets, its number and its length. -/
def Building.pushQuery (b : Building) (query : Bytes) : Building :=
  { b with
    column := fun c => (b.column c).pushBeginEnd
    da_key_map := b.da_key_map.insert query b.num
    num := b.num + 1
    char_vect_querylen := b.char_vect_querylen ++ [BitVec.ofNat 32 query.length] }

/-- `begin = end` in every column. -/
def Building.beginQuery (b : Building) : Building :=
  { b with column := fun c => { b.column c with begin_ := (b.column c).end_ } }

def Building.pushReform (b : Building) (vr_pos_reform : PosReform) : Building :=
  { b with column := fun c => (b.column c).push (vr_pos_reform.text c) }

def Building.round (b : Building) (itr : WhiteBlackListTmp) : Building :=
  let b := { b with query := itr.query }
  let b := if b.prequery = [] then { b with prequery := b.query } else b
  if b.query = [] then b
  else
    let b := if b.prequery ≠ b.query then (b.pushQuery b.prequery).beginQuery else b
    let b := itr.vr_pos_reform.foldl Building.pushReform b
    { b with prequery := b.query }

/-- The loop and the push of the last query behind it. -/
def outputLoop (vect : List WhiteBlackListTmp) : Building :=
  let b := vect.foldl Building.round .init
  b.pushQuery b.query

/-- `begin_end_len` and all of `begin_end`. -/
def writeBeginEnd (begin_end : List BeginEnd) : Bytes :=
  let begin_end_len := BitVec.ofNat 32 begin_end.length
  Pod.toBytes begin_end_len ++ block begin_end

/-- `m_len_char` and as many items of `char_vect`. -/
def writeChars {α : Type} [Pod α] (char_vect : List α) : Bytes :=
  let m_len_char := BitVec.ofNat 32 char_vect.length
  Pod.toBytes m_len_char ++ block (char_vect.take m_len_char.toNat)

/-- What is written behind the double array. -/
def Building.arrays (b : Building) : Bytes :=
  writeBeginEnd (b.column .vr).begin_end ++
  writeBeginEnd (b.column .label).begin_end ++
  writeBeginEnd (b.column .type).begin_end ++
  writeBeginEnd (b.column .reform).begin_end ++
  writeBeginEnd (b.column .itemquery).begin_end ++
  writeBeginEnd (b.column .data).begin_end ++
  writeBeginEnd (b.column .iswappc).begin_end ++
  writeChars (b.column .vr).char_vect ++
  writeChars (b.column .label).char_vect ++
  writeChars (b.column .type).char_vect ++
  writeChars (b.column .reform).char_vect ++
  writeChars (b.column .itemquery).char_vect ++
  writeChars (b.column .data).char_vect ++
  writeChars (b.column .iswappc).char_vect ++
  writeChars b.char_vect_querylen

/-- `OutputIndexFile`: the return value and the file, with every `fwrite`
successful. `sort` is `std::sort` with `comp2`. -/
def outputIndexFile (d : Darts) (sort : List WhiteBlackListTmp → List WhiteBlackListTmp)
    (vect : List WhiteBlackListTmp) : Int × Bytes :=
  let b := outputLoop (sort vect)
  let units := d.build (daKeys b.da_key_map)
  let da_size := BitVec.ofNat 32 (units.length * 4)
  let file := Pod.toBytes (0 : BitVec 32) ++ Pod.toBytes da_size
  -- `save` fails without units
  if units.length = 0 then (-1, file)
  else
    let file := file ++ block units ++ b.arrays
    (0, file ++ Pod.toBytes (BitVec.ofNat 32 file.length))

/-! ## Reading -/

/-- An array read from a file: its count, its items, and the unread part. -/
structure ArrayRead (α : Type) where
  len : BitVec 32
  items : List α
  rest : Bytes

/-- Read a count and as many items into new memory; a short read is an error. -/
def readArray (α : Type) [Pod α] (junk : Nat → Nat → UInt8) (tag : Nat) (file : Bytes) :
    Option (ArrayRead α) :=
  let r := fread (fresh junk tag 4) 4 1 file
  if r.count ≠ 1 then none
  else
    let len : BitVec 32 := Pod.ofBytes r.mem
    let r := fread (fresh junk (tag + 1) (Pod.size α * len.toNat)) (Pod.size α) len.toNat r.rest
    if r.count ≠ len.toNat then none else some ⟨len, unblock α len.toNat r.mem, r.rest⟩

structure WhiteBlackIndex where
  da_ : List (BitVec 32)
  begin_end : Column → List BeginEnd
  begin_end_length : BitVec 32
  buf : Column → Bytes
  buf_len : Column → BitVec 32
  buf_querylen : List (BitVec 32)
  buf_querylen_len : BitVec 32
  m_len_ : BitVec 32

/-- `LoadIndex` with the memory in `junk`; `none` is the return value `-1`. -/
def loadIndex (junk : Nat → Nat → UInt8) (index_file : Bytes) : Option WhiteBlackIndex := do
  let r := fread (Pod.toBytes (0 : BitVec 32)) 4 1 index_file
  let r := fread (Pod.toBytes (0 : BitVec 32)) 4 1 r.rest
  if r.count ≠ 1 then none
  else
    let da_size : BitVec 32 := Pod.ofBytes r.mem
    let da_ ← dartsOpen junk index_file (4 + 4) da_size.toNat
    let begin_end_vr ← readArray BeginEnd junk 1 (index_file.drop (4 + 4 + da_size.toNat))
    let begin_end_label ← readArray BeginEnd junk 3 begin_end_vr.rest
    let begin_end_type ← readArray BeginEnd junk 5 begin_end_label.rest
    let begin_end_reform ← readArray BeginEnd junk 7 begin_end_type.rest
    let begin_end_itemquery ← readArray BeginEnd junk 9 begin_end_reform.rest
    let begin_end_data ← readArray BeginEnd junk 11 begin_end_itemquery.rest
    let begin_end_iswappc ← readArray BeginEnd junk 13 begin_end_data.rest
    let buf_vr ← readArray UInt8 junk 15 begin_end_iswappc.rest
    let buf_label ← readArray UInt8 junk 17 buf_vr.rest
    let buf_type ← readArray UInt8 junk 19 buf_label.rest
    let buf_reform ← readArray UInt8 junk 21 buf_type.rest
    let buf_itemquery ← readArray UInt8 junk 23 buf_reform.rest
    let buf_data ← readArray UInt8 junk 25 buf_itemquery.rest
    let buf_iswappc ← readArray UInt8 junk 27 buf_data.rest
    let buf_querylen ← readArray (BitVec 32) junk 29 buf_iswappc.rest
    some
      { da_ := da_
        begin_end := fun
          | .vr => begin_end_vr.items
          | .label => begin_end_label.items
          | .type => begin_end_type.items
          | .reform => begin_end_reform.items
          | .itemquery => begin_end_itemquery.items
          | .data => begin_end_data.items
          | .iswappc => begin_end_iswappc.items
        begin_end_length := begin_end_vr.len
        buf := fun
          | .vr => buf_vr.items
          | .label => buf_label.items
          | .type => buf_type.items
          | .reform => buf_reform.items
          | .itemquery => buf_itemquery.items
          | .data => buf_data.items
          | .iswappc => buf_iswappc.items
        buf_len := fun
          | .vr => buf_vr.len
          | .label => buf_label.len
          | .type => buf_type.len
          | .reform => buf_reform.len
          | .itemquery => buf_itemquery.len
          | .data => buf_data.len
          | .iswappc => buf_iswappc.len
        buf_querylen := buf_querylen.items
        buf_querylen_len := buf_querylen.len
        -- assigned with the length of every column but two, last for this one
        m_len_ := buf_iswappc.len }

end CommonTools.Index.SevenColumn
