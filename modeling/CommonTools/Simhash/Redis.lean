import CommonTools.Lib.ListStore
import CommonTools.Simhash.HashSign
import CommonTools.Simhash.RedisKey

/-! # The commands of a request

The writing functions return the commands they send, with every command
successful. `LRANGE` reads whole lists, the values that `LREM` looks for are
compared with all their members, and an `RPUSH` of no values changes nothing. -/
namespace CommonTools.Simhash
open CommonTools.Lib

abbrev Store := ListStore Bytes Value

abbrev Command := Cmd Bytes Value

/-- The `int` that a wider or unsigned value becomes. -/
def intOf (x : Int) : Int := (BitVec.ofInt 32 x).toInt

theorem intOf_eq {x : Int} (hlo : -2 ^ 31 ≤ x) (hhi : x < 2 ^ 31) : intOf x = x := by
  rw [intOf, BitVec.toInt_ofInt]
  exact Int.bmod_eq_of_le (by omega) (by omega)

/-! ## Reading -/

/-- `redis_ltrim_ahead`. The unsigned limit is negated and stored in an `int`;
a start that is not negative sends nothing. -/
def redisLtrimAhead (rediskey : List Bytes) (pconf : Proconf) : List Command :=
  let start := (0 - pconf.max_redis_list).toInt
  if 0 ≤ start then [] else rediskey.map fun key => .ltrim key start (-1)

/-- `redis_get_value`: the lists as they are, and the store it leaves. `APPEND`
reads nothing and cuts the lists instead. -/
def redisGetValue (input : SimInput) (rediskey : List Bytes) (pconf : Proconf) (store : Store) :
    Option (List RPush × Store) :=
  if input.strategy = .APPEND then some ([], Cmd.execAll store (redisLtrimAhead rediskey pconf))
  else do
    let redisvalue ← rediskey.mapM fun key =>
      if h : (keepRange (store key) 0 (-1)).length < 2 ^ 31 then
        some (⟨key, keepRange (store key) 0 (-1), h⟩ : RPush)
      else none
    some (redisvalue, store)

/-! ## Hits -/

/-- `redis_del_value`: each hit is removed once by its old value. -/
def redisDelValue (input : SimInput) (output : SimOutput) : List Command :=
  if input.strategy = .APPEND ∨ input.hitdelay = false then []
  else (List.finRange DISTANCE).flatMap fun i =>
    if output.counts i.castSucc ≤ 0 then []
    else (output.simdis i).map fun sv => .lrem sv.key 1 sv.val

def redisKeyIsPermanent (userkey : Bytes) (pconf : Proconf) : Bool :=
  pconf.permanentKeys.any fun key => userkey == key

def hitExpireTime (pconf : Proconf) : Pattern → BitVec 32
  | .FULLTEXT => pconf.fulltext_expire_time
  | .PARAGRAPH => pconf.paragraph_expire_time
  | .SENTENCE => pconf.sentence_expire_time

/-- The loop over the distances that collects the hits under `key`; the last
round takes `simrate`. -/
def hitValues (output : SimOutput) (timestamp : BitVec 32) (key : Bytes) : List Value :=
  (List.finRange (DISTANCE + 1)).flatMap fun k =>
    if output.counts k ≤ 0 then []
    else
      let simv := if h : k.val < DISTANCE then output.simdis ⟨k, h⟩ else output.simrate
      (simv.filter fun sv => key = sv.key).map fun sv => { sv.val with timestamp }

/-- `redis_expire_key`; `seconds` is an `int`. -/
def redisExpireKey (input : SimInput) (rediskey : List Bytes) : List Command :=
  rediskey.map fun key => .expire key input.expiretime.toInt

/-- The values that `redis_insert_value` collects for `key`. -/
def insertValues (sign : BitVec 64) (input : SimInput) (output : SimOutput) (pconf : Proconf)
    (timestamp : BitVec 32) (key : Bytes) : List Value :=
  let keyIsPermanent := redisKeyIsPermanent input.key pconf
  let hits :=
    -- a permanent key does not delay the time of its values
    if input.strategy = .APPEND ∨ input.hitdelay = false ∨ keyIsPermanent then []
    else hitValues output (timestamp + hitExpireTime pconf input.pattern) key
  let new :=
    if input.strategy = .COMPARE then []
    else [⟨sign, input.docid, if keyIsPermanent then 0 else timestamp + input.expiretime,
      input.privatedata⟩]
  hits ++ new

/-- `redis_insert_value` at the time `timestamp`: the return value and the
commands. The result of the deletion is not looked at. -/
def redisInsertValue (rediskey : List Bytes) (sign : BitVec 64) (input : SimInput)
    (output : SimOutput) (_delres : Int) (existSameDoc : Bool) (pconf : Proconf)
    (timestamp : BitVec 32) : Int × List Command :=
  let keyIsPermanent := redisKeyIsPermanent input.key pconf
  if keyIsPermanent ∧ existSameDoc then (-1, [])
  else
    let kv := rediskey.map fun key => (key, insertValues sign input output pconf timestamp key)
    if kv.length = 0 ∨ (kv.flatMap Prod.snd).length = 0 then (0, [])
    else
      let expire := if (input.strategy = .APPEND ∨ input.strategy = .APPCOM) ∧ ¬ keyIsPermanent then
        redisExpireKey input rediskey else []
      (0, (kv.map fun e => .rpush e.1 e.2) ++ expire)

/-! ## Trimming -/

/-- The loop that counts expired values, from the oldest on. -/
def skipExpired (timestamp : BitVec 32) : List Value → Int → Int
  | [], index => index
  | v :: rest, index => if v.expired timestamp then skipExpired timestamp rest (index + 1) else index

/-- The start of the `LTRIM` for one list; `none` when none is sent. -/
def trimStart (redis_max_list expire_value_check_num timestamp : BitVec 32) (val : RPush) :
    Option Int :=
  let size := val.value.length
  if size = 0 then none
  else
    let truncate : Bool := decide (0 < redis_max_list.toNat ∧ redis_max_list.toNat < size)
    let index := if truncate then (0 - redis_max_list).toInt else 0
    let st := if truncate then size - redis_max_list.toNat else 0
    let index :=
      if expire_value_check_num.toNat ≤ size then
        let index := skipExpired timestamp (val.value.drop st) index
        if truncate ∧ 0 ≤ index then intOf size else index
      else index
    if index = 0 then none
    else if index < 0 then some index
    else if index < intOf size then some (intOf (index - size))
    else some index

/-- `redis_ltrim_value` at the time `timestamp`, on the lists read before. -/
def redisLtrimValue (input : SimInput) (redisvalue : List RPush) (pconf : Proconf)
    (expire_value_check_num timestamp : BitVec 32) : List Command :=
  if input.strategy = .APPEND then []
  else redisvalue.filterMap fun val =>
    (trimStart pconf.max_redis_list expire_value_check_num timestamp val).map fun start =>
      .ltrim val.key start (-1)

/-! ## A request -/

def requestKeys (input : SimInput) (sign : BitVec 64) : List Bytes :=
  (makeRedisKey (some input.key) input.pattern sign []).2

/-- What a request has done before it trims: the lists that it read, the store
at that time, what it reports, and the store in the end. -/
structure Compared where
  redisvalue : List RPush
  fetched : Store
  output : SimOutput
  existSameDoc : Bool
  store : Store

/-- The part of `sim_process` between the signature and the trimming, with the
time of the comparison and that of the insertion. -/
def compareAndInsert (input : SimInput) (sign : BitVec 64) (pconf : Proconf)
    (junk : Fin (DISTANCE + 1) → Int) (compareTime insertTime : BitVec 32) (store : Store) :
    Option Compared := do
  let rediskey := requestKeys input sign
  let (redisvalue, fetched) ← redisGetValue input rediskey pconf store
  let (output, existSameDoc) ← getSimilarDoc redisvalue sign (.init junk) input false compareTime
  let store := Cmd.execAll fetched (redisDelValue input output)
  let store := Cmd.execAll store
    (redisInsertValue rediskey sign input output 0 existSameDoc pconf insertTime).2
  some ⟨redisvalue, fetched, output, existSameDoc, store⟩

end CommonTools.Simhash
