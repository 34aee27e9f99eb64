import CommonTools.Lib.DoubleBuffer
import CommonTools.Simhash.Redis

/-! # Product configuration

The loader fills a hash map with one record per product; the reload daemon
switches between two maps. -/
namespace CommonTools.Simhash
open CommonTools.Lib

/-- The hash map as far as the loader relies on it: `set` inserts exactly when
it reports `insertSec`, which it does not for a key that is there. -/
structure Hashmap (κ ν : Type) [DecidableEq κ] where
  Table : Type
  insertSec : Int
  clear : Table → Int × Table
  set : Table → κ → ν → Int × Table
  get : Table → κ → Option ν
  get_clear : ∀ t, (clear t).1 = 0 → ∀ k, get (clear t).2 k = none
  get_set : ∀ t k v, (set t k v).1 = insertSec →
    get (set t k v).2 = Function.update (get t) k (some v)
  get_set_refused : ∀ t k v, (set t k v).1 ≠ insertSec → get (set t k v).2 = get t
  set_present : ∀ t k v, (get t k).isSome → (set t k v).1 ≠ insertSec

/-- One entry of `[product][restrict]`. -/
structure Product where
  pid : Bytes
  pattern : BitVec 32
  fullTextExpireTime : BitVec 32
  paragraphExpireTime : BitVec 32
  sentenceExpireTime : BitVec 32
  privateDataLen : BitVec 32
  maxRedisList : BitVec 32
  userKeyMaxLen : BitVec 32
  permanentkey : List Bytes
deriving DecidableEq

/-- `cnum > SENTENCE`. -/
def Product.badPattern (p : Product) : Bool := decide (2 < p.pattern.toNat)

/-- A declared record: all fields but `permanentKeys` are written before they
are stored. -/
def Proconf.declared : Proconf := ⟨.FULLTEXT, 0, 0, 0, 0, 0, 0, []⟩

/-- The fields of a product go into the one record of the loop; its keys are
pushed behind those that are there. -/
def Proconf.read (ctmp : Proconf) (p : Product) : Proconf where
  pattern := if p.pattern = 0 then .FULLTEXT else if p.pattern = 1 then .PARAGRAPH else .SENTENCE
  fulltext_expire_time := p.fullTextExpireTime
  paragraph_expire_time := p.paragraphExpireTime
  sentence_expire_time := p.sentenceExpireTime
  private_data_len := p.privateDataLen
  max_redis_list := p.maxRedisList
  user_key_len := p.userKeyMaxLen
  permanentKeys := ctmp.permanentKeys ++ p.permanentkey

section
variable (hm : Hashmap Bytes Proconf)

/-- The loop over the products with the result variable `ret`. -/
def loadLoop : List Product → Proconf → Int → hm.Table → Int × hm.Table
  | [], _, _, table => (0, table)
  | p :: rest, ctmp, ret, table =>
    if p.badPattern then (ret, table)
    else
      let ctmp := ctmp.read p
      let (ret, table) := hm.set table p.pid ctmp
      if hm.insertSec ≠ ret then (ret, table) else loadLoop rest ctmp ret table

/-- `load_product_conf` on a file with these products, or on one that the
configuration library does not load. -/
def loadProductConf (file : Option (List Product)) (table : hm.Table) : Int × hm.Table :=
  match file with
  | none => (-1, table)
  | some products =>
    let (res, table) := hm.clear table
    if res ≠ 0 then (-1, table)
    else if products.length = 0 then (-1, table)
    else loadLoop hm products .declared (-1) table

/-- `g_proconf` and `g_index`. -/
abbrev Globals := DoubleBuffer hm.Table

/-- One reload by `conf_ontime_reload`, of a file that has changed. -/
def confOntimeReload (globals : Globals hm) (file : Option (List Product)) : Globals hm :=
  globals.attempt (loadProductConf hm) file

/-- `g_proconf[g_index].get(pid, &pconf)`. -/
def getProconf (globals : Globals hm) (pid : Bytes) : Option Proconf :=
  hm.get globals.visible pid

end

end CommonTools.Simhash
