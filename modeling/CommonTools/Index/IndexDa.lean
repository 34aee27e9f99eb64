import Mathlib.Logic.Function.Basic
import Std.Data.TreeMap.Lemmas
import CommonTools.Lib.Layout

/-! # The double-array index

Queries go into a double array with the offset of their text in one buffer of
extends; the extends of one query are joined. `outputIndexFile` writes both,
`loadIndex` reads them and `daSearch` answers one query. -/
namespace CommonTools.Index.IndexDa
open CommonTools.Lib

/-- `Darts::DoubleArray` as far as it is not read here: what `build` makes of
keys and values, and the search for a zero-terminated string in its units. -/
structure Darts where
  build : List (Bytes × Int) → List (BitVec 32)
  exactMatchSearch : List (BitVec 32) → Bytes → Int

structure ST where
  query : Bytes
  extend : Bytes
deriving DecidableEq

def comp (v1 v2 : ST) : Bool := compare v1.query v2.query == .lt

def isBlank (b : UInt8) : Bool := b == 32 || b == 9 || b == 13 || b == 10

/-- `spaceGary::StringTrim`: cut from the first to the last byte that is no
blank. -/
def stringTrim (strItem : Bytes) : Bytes :=
  let left : Int := (strItem.takeWhile isBlank).length
  let right : Int := strItem.length - 1 - (strItem.reverse.takeWhile isBlank).length
  if right < left then [] else (strItem.drop left.toNat).take (right - left + 1).toNat

/-! ## Writing -/

/-- The variables of the loop in `OutputIndexFile`. -/
structure Building where
  char_vect_extend : Bytes
  dic_map : Std.TreeMap Bytes (BitVec 32)
  extend : Bytes
  start : BitVec 32
  end_ : BitVec 32
  prequery : Bytes

def Building.init : Building := ⟨[], ∅, [], 0, 0, []⟩

/-- `char_vect_push_(extend.c_str(), char_vect_extend, end)`. -/
def Building.pushExtend (b : Building) : Building :=
  { b with
    char_vect_extend := pushCString b.char_vect_extend b.extend
    end_ := b.end_ + BitVec.ofNat 32 ((cstr b.extend).length + 1) }

/-- The text between two extends of one query. -/
def separator : Bytes := [124, 124, 124]

/-- One round up to the check for the last index. -/
def Building.round (b : Building) (v : ST) : Building :=
  if b.dic_map.contains (cstr v.query) then
    { b with extend := b.extend ++ (separator ++ stringTrim v.extend) }
  else
    let b :=
      if b.prequery ≠ [] then
        let b := b.pushExtend
        { b with start := b.end_ }
      else b
    { b with dic_map := b.dic_map.insert v.query b.start, extend := stringTrim v.extend }

/-- The loop; the last round pushes what has been joined. -/
def outputLoop : List ST → Building → Building
  | [], b => b
  | v :: rest, b =>
    let b := b.round v
    let b := if rest = [] then b.pushExtend else b
    outputLoop rest { b with prequery := v.query }

/-- `da_key_vect` and `da_value_vect`, an `int32_t` for each offset. -/
def daKeys (dic_map : Std.TreeMap Bytes (BitVec 32)) : List (Bytes × Int) :=
  dic_map.toList.map fun itr => (cstr itr.1, itr.2.toInt)

/-- `OutputIndexFile`: the return value and the file, with every `fwrite`
successful. `sort` is `std::sort` with `comp`. -/
def outputIndexFile (d : Darts) (sort : List ST → List ST) (vect : List ST) : Int × Bytes :=
  let b := outputLoop (sort vect) .init
  let units := d.build (daKeys b.dic_map)
  let da_size := BitVec.ofNat 32 (units.length * 4)
  let file := Pod.toBytes (0 : BitVec 32) ++ Pod.toBytes da_size
  -- `save` fails without units
  if units.length = 0 then (-1, file)
  else
    let size_ := BitVec.ofNat 32 b.char_vect_extend.length
    let file := file ++ block units ++ Pod.toBytes size_ ++ b.char_vect_extend
    (0, file ++ Pod.toBytes (BitVec.ofNat 32 file.length))

/-! ## Reading -/

/-- `Darts::DoubleArray::open`; a size of zero means up to the end of the file. -/
def dartsOpen (junk : Nat → Nat → UInt8) (file : Bytes) (offset size : Nat) :
    Option (List (BitVec 32)) :=
  let size := if size = 0 then file.length - offset else size
  let r := fread (fresh junk 0 (4 * (size / 4))) 4 (size / 4) (file.drop offset)
  if r.count ≠ size / 4 then none else some (unblock (BitVec 32) (size / 4) r.mem)

/-- The members of `DA_SEARCH` after a load. -/
structure DaIndex where
  DaSearch : List (BitVec 32)
  Search_Buf : Bytes
  Search_Buf_begin_end_len : BitVec 32

/-- `LoadIndex` with the memory in `junk`; `none` is the return value `-1`. -/
def loadIndex (junk : Nat → Nat → UInt8) (index_file : Bytes) : Option DaIndex := do
  let r := fread (Pod.toBytes (0 : BitVec 32)) 4 1 index_file
  let r := fread (Pod.toBytes (0 : BitVec 32)) 4 1 r.rest
  if r.count ≠ 1 then none
  else
    let da_size : BitVec 32 := Pod.ofBytes r.mem
    let da ← dartsOpen junk index_file (4 + 4) da_size.toNat
    let r := fread (fresh junk 1 4) 4 1 (index_file.drop (4 + 4 + da_size.toNat))
    if r.count ≠ 1 then none
    else
      let buf_extend_len : BitVec 32 := Pod.ofBytes r.mem
      let r := fread (fresh junk 2 buf_extend_len.toNat) 1 buf_extend_len.toNat r.rest
      if r.count ≠ buf_extend_len.toNat then none else some ⟨da, r.mem, buf_extend_len⟩

/-- The key under which an answer is stored. -/
def daName : Bytes := [100, 97]

/-- `DA_Search`: the map of answers it leaves. -/
def daSearch (d : Darts) (index : DaIndex) (dest_norm : Bytes)
    (index_text : Bytes → Option Bytes) : Option (Bytes → Option Bytes) :=
  let ret := d.exactMatchSearch index.DaSearch (cstr dest_norm)
  if -1 < ret ∧ ret.toNat < index.Search_Buf_begin_end_len.toNat then do
    let out ← cstrAt index.Search_Buf ret
    some (Function.update index_text daName (some out))
  else some index_text

end CommonTools.Index.IndexDa
