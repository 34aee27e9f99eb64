import Mathlib.Logic.Function.Basic
import CommonTools.Lib.CString

/-! # Requests, stored values and results of the simhash server -/
namespace CommonTools.Simhash
open CommonTools.Lib

/-- A hit has a Hamming distance below this. -/
abbrev DISTANCE : Nat := 5

inductive Strategy where
  | APPEND
  | COMPARE
  | APPCOM
  | DELETE
deriving DecidableEq, Repr

inductive Pattern where
  | FULLTEXT
  | PARAGRAPH
  | SENTENCE
deriving DecidableEq, Repr

/-- The first `datasize` bytes of `userdata`, at most RAW_DATA_MAX_SIZE. -/
abbrev UserData := { b : Bytes // b.length ≤ 64 }

/-- `value_t`. A timestamp of zero never expires. -/
structure Value where
  simid : BitVec 64
  docid : BitVec 64
  timestamp : BitVec 32
  userdata : UserData
deriving DecidableEq

/-- `rpush_t`: a key with its list. A list read from the server fits a reply
buffer of `u_int` size, so an `int` can count it. -/
structure RPush where
  key : Bytes
  value : List Value
  value_lt : value.length < 2 ^ 31

structure Simval where
  key : Bytes
  val : Value
deriving DecidableEq

structure SimInput where
  key : Bytes
  docid : BitVec 64
  hitdelay : Bool
  pattern : Pattern
  hamdis : Int
  expiretime : BitVec 32
  strategy : Strategy
  privatedata : UserData

/-- `sim_output_t`: the hits by distance. The last count is that of
`simrate`. -/
structure SimOutput where
  simdis : Fin DISTANCE → List Simval
  simrate : List Simval
  counts : Fin (DISTANCE + 1) → Int

/-- `sim_output_init` clears the lists; the counts keep what memory held. -/
def SimOutput.init (junk : Fin (DISTANCE + 1) → Int) : SimOutput := ⟨fun _ => [], [], junk⟩

/-- `proconf_t`. -/
structure Proconf where
  pattern : Pattern
  fulltext_expire_time : BitVec 32
  paragraph_expire_time : BitVec 32
  sentence_expire_time : BitVec 32
  private_data_len : BitVec 32
  max_redis_list : BitVec 32
  user_key_len : BitVec 32
  permanentKeys : List Bytes
deriving DecidableEq

/-- The check that a value is expired at the time `now`. -/
def Value.expired (now : BitVec 32) (v : Value) : Bool :=
  decide (v.timestamp ≤ now ∧ v.timestamp ≠ 0)

end CommonTools.Simhash
