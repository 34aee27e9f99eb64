import CommonTools.Simhash.Request

/-! # A deletion that fails

The insertion gets the return value of the deletion. Its comment leaves the hits
alone after a -1, and the code never looks at it. -/
namespace CommonTools.Simhash
open CommonTools.Lib

/-! ## The return value of the deletion -/

/-- Which of the calls of `redis_del_value` succeed. -/
structure DelCalls where
  get_ubclient_buf : Bool
  lrem_msg_pack : Bool
  redis_cmd_send : Bool
  redis_other_cmd_unpack : Bool
  deriving DecidableEq

/-- `redis_del_value` with its calls: the return value and the store, where a
batch that fails removes nothing. -/
def redisDelValueWith (input : SimInput) (output : SimOutput) (calls : DelCalls) (store : Store) :
    Int × Store :=
  if input.strategy = .APPEND ∨ input.hitdelay = false then (0, store)
  else if calls.get_ubclient_buf = false then (-1, store)
  else if (redisDelValue input output).length = 0 then (0, store)
  else if calls.lrem_msg_pack = false then (-1, store)
  else if calls.redis_cmd_send = false then (-1, store)
  else if calls.redis_other_cmd_unpack = false then (-1, store)
  else (0, Cmd.execAll store (redisDelValue input output))

/-- A request with the calls of its deletion: what that returned, what was sent
for the insertion and the store in the end. -/
structure Attempted where
  res : Int
  inserted : List Command
  store : Store

/-- `compareAndInsert` with the calls of the deletion. -/
def compareAndInsertWith (input : SimInput) (sign : BitVec 64) (pconf : Proconf)
    (junk : Fin (DISTANCE + 1) → Int) (compareTime insertTime : BitVec 32) (calls : DelCalls)
    (store : Store) : Option Attempted := do
  let rediskey := requestKeys input sign
  let (redisvalue, fetched) ← redisGetValue input rediskey pconf store
  let (output, existSameDoc) ← getSimilarDoc redisvalue sign (.init junk) input false compareTime
  let (res, store) := redisDelValueWith input output calls fetched
  let inserted :=
    (redisInsertValue rediskey sign input output res existSameDoc pconf insertTime).2
  some ⟨res, inserted, Cmd.execAll store inserted⟩

section
variable {input : SimInput} {sign : BitVec 64} {pconf : Proconf}
variable {junk : Fin (DISTANCE + 1) → Int} {compareTime insertTime : BitVec 32}
variable {calls : DelCalls} {store : Store} {output : SimOutput}

/-- A deletion that returns -1 was asked for and leaves the store as it was. -/
theorem redisDelValueWith_failed (h : (redisDelValueWith input output calls store).1 = -1) :
    input.strategy ≠ .APPEND ∧ input.hitdelay = true ∧
      (redisDelValueWith input output calls store).2 = store := by
  by_cases hrun : input.strategy = .APPEND ∨ input.hitdelay = false
  · rw [redisDelValueWith, if_pos hrun] at h
    cases h
  · rw [redisDelValueWith, if_neg hrun] at h ⊢
    rw [not_or, Bool.not_eq_false] at hrun
    refine ⟨hrun.1, hrun.2, ?_⟩
    split_ifs at h ⊢
    all_goals rfl

/-- When all calls succeed the deletion is that of `compareAndInsert`. -/
theorem redisDelValueWith_succeeds (input : SimInput) (output : SimOutput) (store : Store) :
    redisDelValueWith input output ⟨true, true, true, true⟩ store =
      (0, Cmd.execAll store (redisDelValue input output)) := by
  simp only [redisDelValueWith, Bool.true_eq_false, if_false]
  split_ifs with hrun hlen
  · rw [redisDelValue, if_pos hrun]
    rfl
  · rw [List.length_eq_zero_iff.mp hlen]
    rfl
  · rfl

theorem compareAndInsertWith_succeeds :
    (compareAndInsertWith input sign pconf junk compareTime insertTime ⟨true, true, true, true⟩
        store).map Attempted.store =
      (compareAndInsert input sign pconf junk compareTime insertTime store).map
        Compared.store := by
  rw [compareAndInsertWith, compareAndInsert]
  dsimp only
  cases redisGetValue input (requestKeys input sign) pconf store with
  | none => rfl
  | some read =>
    simp only [Option.bind_eq_bind, Option.bind_some, redisDelValueWith_succeeds]
    cases getSimilarDoc read.1 sign (.init junk) input false compareTime <;> rfl

/-! ## What the insertion sends -/

theorem insertValues_of_rpush {keys : List Bytes} {delres : Int} {existSameDoc : Bool}
    {key : Bytes} {values : List Value}
    (h : .rpush key values ∈
      (redisInsertValue keys sign input output delres existSameDoc pconf insertTime).2) :
    values = insertValues sign input output pconf insertTime key ∧ key ∈ keys := by
  rw [redisInsertValue] at h
  dsimp only at h
  split at h
  · exact absurd h List.not_mem_nil
  · split at h
    · exact absurd h List.not_mem_nil
    · rcases List.mem_append.mp h with h | h
      · rw [List.map_map] at h
        obtain ⟨k, hk, heq⟩ := List.mem_map.mp h
        obtain ⟨rfl, rfl⟩ := Cmd.rpush.inj heq
        exact ⟨rfl, hk⟩
      · split at h
        · obtain ⟨k, -, heq⟩ := List.mem_map.mp h
          cases heq
        · exact absurd h List.not_mem_nil

/-- A key that has values to insert gets them. -/
theorem rpush_mem {keys : List Bytes} {delres : Int} {existSameDoc : Bool}
    (hperm : redisKeyIsPermanent input.key pconf = false) {key : Bytes} (hk : key ∈ keys)
    (hvals : insertValues sign input output pconf insertTime key ≠ []) :
    .rpush key (insertValues sign input output pconf insertTime key) ∈
      (redisInsertValue keys sign input output delres existSameDoc pconf insertTime).2 := by
  rw [redisInsertValue]
  simp only [hperm, Bool.false_eq_true, false_and, if_false]
  rw [if_neg]
  · refine List.mem_append_left _ ?_
    rw [List.map_map]
    exact List.mem_map.mpr ⟨key, hk, rfl⟩
  · rw [not_or, List.length_map]
    refine ⟨Nat.ne_of_gt (List.length_pos_of_mem hk), fun hlen => hvals ?_⟩
    have hall := List.flatMap_eq_nil_iff.mp (List.length_eq_zero_iff.mp hlen)
    exact hall (key, _) (List.mem_map.mpr ⟨key, hk, rfl⟩)

/-! ## A request after a failed deletion -/

/-- The steps of a request whose deletion has returned -1. -/
structure FailedSteps (input : SimInput) (sign : BitVec 64) (pconf : Proconf)
    (compareTime insertTime : BitVec 32) (store : Store) (r : Attempted) : Prop where
  strategy : input.strategy ≠ .APPEND
  hitdelay : input.hitdelay = true
  insert : ∃ redisvalue output existSameDoc,
    Read store (requestKeys input sign) redisvalue ∧
      (input.pattern = .FULLTEXT → Reported sign input compareTime redisvalue output) ∧
      r.inserted = (redisInsertValue (requestKeys input sign) sign input output (-1) existSameDoc
        pconf insertTime).2 ∧
      r.store = Cmd.execAll store r.inserted

theorem compareAndInsertWith_failed {r : Attempted}
    (h : compareAndInsertWith input sign pconf junk compareTime insertTime calls store = some r)
    (hres : r.res = -1) : FailedSteps input sign pconf compareTime insertTime store r := by
  obtain ⟨⟨redisvalue, fetched⟩, hget, h⟩ := Option.bind_eq_some_iff.mp h
  obtain ⟨⟨output, existSameDoc⟩, hsim, h⟩ := Option.bind_eq_some_iff.mp h
  obtain rfl := Option.some.inj h
  obtain ⟨hs, hd, hsame⟩ := redisDelValueWith_failed hres
  obtain ⟨hread, rfl⟩ := redisGetValue_read hget hs
  refine ⟨hs, hd, redisvalue, output, existSameDoc, hread,
    fun hp => (getSimilarDoc_fulltext hsim hs hp).1, ?_, ?_⟩
  · exact congrArg (fun res => (redisInsertValue (requestKeys input sign) sign input output res
      existSameDoc pconf insertTime).2) hres
  · exact congrArg (Cmd.execAll · _) hsame

section
variable {redisvalue : List RPush}

/-- The insertion takes the hits with their new time, and the request's own
document. -/
theorem insertValues_fulltext (hs : input.strategy ≠ .APPEND) (hd : input.hitdelay = true)
    (hp : input.pattern = .FULLTEXT) (hperm : redisKeyIsPermanent input.key pconf = false)
    (key : Bytes) : insertValues sign input output pconf insertTime key =
      hitValues output (insertTime + pconf.fulltext_expire_time) key ++
        if input.strategy = .COMPARE then [] else [ownValue input sign insertTime] := by
  simp [insertValues, hs, hd, hperm, hp, hitExpireTime, ownValue]

theorem hit_mem_insertValues (hs : input.strategy ≠ .APPEND) (hd : input.hitdelay = true)
    (hp : input.pattern = .FULLTEXT) (hperm : redisKeyIsPermanent input.key pconf = false)
    (hread : Read store (requestKeys input sign) redisvalue)
    (hrep : Reported sign input compareTime redisvalue output) {key : Bytes}
    (hk : key ∈ requestKeys input sign) {v : Value} (hv : v ∈ store key)
    (hit : isHit sign input compareTime v = true) :
    { v with timestamp := insertTime + pconf.fulltext_expire_time } ∈
      insertValues sign input output pconf insertTime key := by
  rw [insertValues_fulltext hs hd hp hperm]
  refine List.mem_append_left _ ?_
  refine (hrep.hitValues_perm hread (requestKeys_nodup input sign) _ hk).mem_iff.mpr ?_
  exact List.mem_map.mpr ⟨v, List.mem_filter.mpr ⟨hv, hit⟩, rfl⟩

/-- Without hits only the request's own document is pushed. -/
theorem insertValues_own (hs : input.strategy ≠ .APPEND) (hd : input.hitdelay = true)
    (hp : input.pattern = .FULLTEXT) (hperm : redisKeyIsPermanent input.key pconf = false)
    (hread : Read store (requestKeys input sign) redisvalue)
    (hrep : Reported sign input compareTime redisvalue output) {key : Bytes}
    (hk : key ∈ requestKeys input sign)
    (hno : ∀ v ∈ store key, isHit sign input compareTime v = false) :
    ∀ v ∈ insertValues sign input output pconf insertTime key, v.docid = input.docid := by
  have hhits := hrep.hitValues_perm hread (requestKeys_nodup input sign)
    (insertTime + pconf.fulltext_expire_time) hk
  rw [List.filter_eq_nil_iff.mpr fun v hv => by simp [hno v hv]] at hhits
  intro v hv
  rw [insertValues_fulltext hs hd hp hperm, hhits.eq_nil, List.nil_append] at hv
  split at hv
  · exact absurd hv List.not_mem_nil
  · rw [List.mem_singleton.mp hv]
    rfl

end

/-- What a request may send and leave when it puts no hit back. -/
structure NoneReinserted (input : SimInput) (store : Store) (r : Attempted) : Prop where
  inserted : ∀ key values, .rpush key values ∈ r.inserted → ∀ v ∈ values, v.docid = input.docid
  store : ∀ key docid, docid ≠ input.docid →
    (r.store key).countP (·.docid = docid) ≤ (store key).countP (·.docid = docid)

/-- **When a failed deletion puts nothing back.** The insertion goes on as if
the hits were gone, so there must be none. -/
theorem failed_delete_reinserts_iff {r : Attempted}
    (h : compareAndInsertWith input sign pconf junk compareTime insertTime calls store = some r)
    (hres : r.res = -1) (hp : input.pattern = .FULLTEXT)
    (hperm : redisKeyIsPermanent input.key pconf = false) :
    NoneReinserted input store r ↔
      ∀ key ∈ requestKeys input sign, ∀ v ∈ store key, isHit sign input compareTime v = false := by
  obtain ⟨hs, hd, redisvalue, output, existSameDoc, hread, hrep, hinserted, hstore⟩ :=
    compareAndInsertWith_failed h hres
  have hrep := hrep hp
  constructor
  · intro hnone key hk v hv
    by_contra hit
    rw [Bool.not_eq_false] at hit
    have hin : { v with timestamp := insertTime + pconf.fulltext_expire_time } ∈
        insertValues sign input output pconf insertTime key :=
      hit_mem_insertValues hs hd hp hperm hread hrep hk hv hit
    have hpush := hinserted ▸ rpush_mem hperm hk (List.ne_nil_of_mem hin)
    exact (of_decide_eq_true hit).1 (hnone.inserted key _ hpush _ hin).symm
  · intro hno
    have hown : ∀ {key}, key ∈ requestKeys input sign →
        ∀ v ∈ insertValues sign input output pconf insertTime key, v.docid = input.docid :=
      fun hk => insertValues_own hs hd hp hperm hread hrep hk (hno _ hk)
    refine ⟨fun key values hpush => ?_, fun key docid hdoc => ?_⟩
    · rw [hinserted] at hpush
      obtain ⟨rfl, hk⟩ := insertValues_of_rpush hpush
      exact hown hk
    · rw [hstore, hinserted, insert_apply (requestKeys_nodup input sign) _ (by simp [hperm])]
      split_ifs with hk hexp
      · exact Nat.zero_le _
      · have hzero : (insertValues sign input output pconf insertTime key).countP
            (·.docid = docid) = 0 := by
          rw [List.countP_eq_zero]
          intro v hv heq
          exact hdoc ((of_decide_eq_true heq).symm.trans (hown hk v hv))
        rw [List.countP_append, hzero, Nat.add_zero]
      · exact Nat.le_refl _

end

/-! ### A refused batch -/

/-- The server refuses the batch. -/
def refused : DelCalls := ⟨true, true, true, false⟩

/-- The hit is under its key twice. -/
theorem failed_delete_reinserts :
    ∃ r, compareAndInsertWith (ordinaryInput 100) 1 ordinaryConf (fun _ => 0) 50 50 refused
        (sharedStore [similarValue]) = some r ∧
      r.res = -1 ∧ (r.store sharedKey).countP (·.docid = similarValue.docid) = 2 ∧
        ¬ NoneReinserted (ordinaryInput 100) (sharedStore [similarValue]) r := by
  have hrun : (compareAndInsertWith (ordinaryInput 100) 1 ordinaryConf (fun _ => 0) 50 50 refused
      (sharedStore [similarValue])).map (fun r =>
        (r.res, (r.store sharedKey).countP (·.docid = similarValue.docid))) =
      some (-1, 2) := by decide +kernel
  obtain ⟨r, hr, hres⟩ := Option.map_eq_some_iff.mp hrun
  obtain ⟨hres, hcount⟩ := Prod.mk.inj hres
  refine ⟨r, hr, hres, hcount, fun hnone => ?_⟩
  have hle := hnone.store sharedKey similarValue.docid (by decide)
  rw [hcount] at hle
  exact absurd hle (by decide)

/-- A document that is not similar, and one whose time is over. -/
def noHits : List Value :=
  [{ similarValue with simid := BitVec.allOnes 64 }, { similarValue with timestamp := 20 }]

/-- Without a buffer the deletion fails even with no hit to delete. -/
theorem failed_delete_reinserts_iff_none :
    ∃ r, compareAndInsertWith (ordinaryInput 100) 1 ordinaryConf (fun _ => 0) 50 50
        ⟨false, true, true, true⟩ (sharedStore noHits) = some r ∧
      NoneReinserted (ordinaryInput 100) (sharedStore noHits) r := by
  have hrun : (compareAndInsertWith (ordinaryInput 100) 1 ordinaryConf (fun _ => 0) 50 50
      ⟨false, true, true, true⟩ (sharedStore noHits)).map Attempted.res = some (-1) := by
    decide +kernel
  obtain ⟨r, hr, hres⟩ := Option.map_eq_some_iff.mp hrun
  have hno : ∀ v ∈ noHits, isHit 1 (ordinaryInput 100) 50 v = false := by decide +kernel
  refine ⟨r, hr, (failed_delete_reinserts_iff hr hres rfl (by decide)).mpr fun key _ v hv => ?_⟩
  rw [sharedStore] at hv
  split at hv
  · exact hno v hv
  · exact absurd hv List.not_mem_nil

end CommonTools.Simhash
