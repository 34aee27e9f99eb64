import CommonTools.Simhash.RedisSound

/-! # What a request does to the store

A request on a permanent key takes its hits out of their lists and does not
put them back. A request on another key keeps every value, with a new time for
the hits, as long as its own `EXPIRE` leaves the keys alive. -/
namespace CommonTools.Simhash
open CommonTools.Lib

section
variable {input : SimInput} {sign : BitVec 64} {pconf : Proconf}
variable {junk : Fin (DISTANCE + 1) → Int} {compareTime insertTime : BitVec 32} {store : Store}
variable {r : Compared}

structure Steps (input : SimInput) (sign : BitVec 64) (pconf : Proconf)
    (junk : Fin (DISTANCE + 1) → Int) (compareTime insertTime : BitVec 32) (store : Store)
    (r : Compared) : Prop where
  get : redisGetValue input (requestKeys input sign) pconf store = some (r.redisvalue, r.fetched)
  similar : getSimilarDoc r.redisvalue sign (.init junk) input false compareTime =
    some (r.output, r.existSameDoc)
  store : r.store = Cmd.execAll (Cmd.execAll r.fetched (redisDelValue input r.output))
    (redisInsertValue (requestKeys input sign) sign input r.output 0 r.existSameDoc pconf
      insertTime).2

theorem compareAndInsert_steps
    (h : compareAndInsert input sign pconf junk compareTime insertTime store = some r) :
    Steps input sign pconf junk compareTime insertTime store r := by
  obtain ⟨⟨redisvalue, fetched⟩, hget, h⟩ := Option.bind_eq_some_iff.mp h
  obtain ⟨⟨output, existSameDoc⟩, hsim, h⟩ := Option.bind_eq_some_iff.mp h
  obtain rfl := Option.some.inj h
  exact ⟨hget, hsim, rfl⟩

/-- Whether a value is a hit of the request and has been taken out of the list
under `key`. -/
def takenOut (input : SimInput) (sign : BitVec 64) (compareTime : BitVec 32) (key : Bytes)
    (v : Value) : Bool :=
  decide (input.strategy ≠ .APPEND ∧ input.pattern = .FULLTEXT ∧ input.hitdelay = true) &&
    (requestKeys input sign).contains key && isHit sign input compareTime v

theorem takenOut_iff {key : Bytes} {v : Value} :
    takenOut input sign compareTime key v = true ↔
      (input.strategy ≠ .APPEND ∧ input.pattern = .FULLTEXT ∧ input.hitdelay = true) ∧
        key ∈ requestKeys input sign ∧ isHit sign input compareTime v = true := by
  rw [takenOut, Bool.and_eq_true, Bool.and_eq_true, decide_eq_true_iff, List.contains_iff_mem,
    and_assoc]

/-- Only `APPEND` changes the store before the deletion. -/
theorem Steps.read (h : Steps input sign pconf junk compareTime insertTime store r)
    (hs : input.strategy ≠ .APPEND) :
    Read r.fetched (requestKeys input sign) r.redisvalue ∧ r.fetched = store := by
  obtain ⟨hread, heq⟩ := redisGetValue_read h.get hs
  exact ⟨heq ▸ hread, heq⟩

/-- A request that takes hits out takes all of them. -/
theorem takenOut_eq_isHit {key : Bytes} (hs : input.strategy ≠ .APPEND)
    (hp : input.pattern = .FULLTEXT) (hd : input.hitdelay = true)
    (hk : key ∈ requestKeys input sign) :
    takenOut input sign compareTime key = isHit sign input compareTime := by
  funext v
  rw [Bool.eq_iff_iff, takenOut_iff]
  exact ⟨fun h => h.2.2, fun h => ⟨⟨hs, hp, hd⟩, hk, h⟩⟩

theorem takenOut_eq_false {key : Bytes}
    (h : input.strategy = .APPEND ∨ input.hitdelay = false ∨ key ∉ requestKeys input sign)
    (v : Value) : takenOut input sign compareTime key v = false := by
  rw [← Bool.not_eq_true, takenOut_iff]
  rintro ⟨⟨hs, -, hd⟩, hk, -⟩
  rcases h with h | h | h
  · exact hs h
  · rw [hd] at h
    cases h
  · exact h hk

/-- The store between deletion and insertion. -/
theorem Steps.del_apply (h : Steps input sign pconf junk compareTime insertTime store r)
    (key : Bytes) :
    Cmd.execAll r.fetched (redisDelValue input r.output) key =
      (r.fetched key).filter (!takenOut input sign compareTime key ·) := by
  by_cases hrun : input.strategy ≠ .APPEND ∧ input.pattern = .FULLTEXT ∧ input.hitdelay = true
  · obtain ⟨hs, hp, hd⟩ := hrun
    have hrep := (getSimilarDoc_fulltext h.similar hs hp).1
    rw [hrep.del_apply (h.read hs).1 (requestKeys_nodup input sign) hs hd key]
    by_cases hk : key ∈ requestKeys input sign
    · rw [if_pos hk, takenOut_eq_isHit hs hp hd hk]
    · have hno := @takenOut_eq_false input sign compareTime key (.inr (.inr hk))
      simp [hk, hno]
  · have hnil : redisDelValue input r.output = [] := by
      refine redisDelValue_eq_nil ?_
      by_cases hs : input.strategy = .APPEND
      · exact .inl hs
      · by_cases hp : input.pattern = .FULLTEXT
        · refine .inr (.inl ?_)
          rw [← Bool.not_eq_true]
          exact fun hd => hrun ⟨hs, hp, hd⟩
        · refine .inr (.inr fun d => ?_)
          rw [(getSimilarDoc_other h.similar (.inr hp)).1]
          rfl
    have hno : ∀ v, takenOut input sign compareTime key v = false := fun v => by
      rw [← Bool.not_eq_true, takenOut_iff]
      exact fun hout => hrun hout.1
    rw [hnil]
    simp [hno, Cmd.execAll]

/-! ## Permanent keys -/

/-- The list under a key loses the values taken out and gains at most the
request's own document. -/
theorem Steps.permanent (h : Steps input sign pconf junk compareTime insertTime store r)
    (hperm : redisKeyIsPermanent input.key pconf = true) (key : Bytes) :
    ∃ new : List Value, (∀ v ∈ new, v.docid = input.docid) ∧
      r.store key = (r.fetched key).filter (!takenOut input sign compareTime key ·) ++ new := by
  rw [h.store]
  by_cases hex : r.existSameDoc = true
  · refine ⟨[], by simp, ?_⟩
    rw [redisInsertValue]
    simp only [hperm, hex, and_self, if_true, List.append_nil]
    exact h.del_apply key
  · rw [insert_apply (requestKeys_nodup input sign) _ (fun hgo => hex hgo.2), h.del_apply key]
    have hexp : ¬ expiresKeys input pconf := fun he => by
      rw [he.2.1] at hperm
      exact absurd hperm (by decide)
    by_cases hk : key ∈ requestKeys input sign
    · refine ⟨_, fun v hv => ?_, by rw [if_pos hk, if_neg hexp]⟩
      simp only [insertValues, hperm, or_true, if_true, List.nil_append] at hv
      split at hv
      · exact absurd hv List.not_mem_nil
      · rw [List.mem_singleton.mp hv]
    · exact ⟨[], by simp, by rw [if_neg hk, List.append_nil]⟩

/-- Two values with the same identifiers are hits together unless one of them
is expired. -/
theorem isHit_of_same {v v' : Value} (hit : isHit sign input compareTime v = true)
    (hsim : v'.simid = v.simid) (hdoc : v'.docid = v.docid)
    (hlive : v'.expired compareTime = false) : isHit sign input compareTime v' = true := by
  have h := of_decide_eq_true hit
  exact decide_eq_true ⟨hdoc ▸ h.1, hlive, hsim ▸ h.2.2⟩

/-- **When a permanent key loses nothing.** Every pair of identifiers stays
under its key exactly when each live similar value has an expired copy there. -/
theorem permanent_keeps_iff
    (h : compareAndInsert input sign pconf junk compareTime insertTime store = some r)
    (hperm : redisKeyIsPermanent input.key pconf = true)
    (hs : input.strategy = .COMPARE ∨ input.strategy = .APPCOM) (hd : input.hitdelay = true) :
    (∀ key, ∀ v ∈ store key, ∃ v' ∈ r.store key, v'.simid = v.simid ∧ v'.docid = v.docid) ↔
      (input.pattern = .FULLTEXT → ∀ key ∈ requestKeys input sign, ∀ v ∈ store key,
        v.docid ≠ input.docid → v.expired compareTime = false →
        (bitDist v.simid sign : Int) ≤ input.hamdis →
        ∃ v' ∈ store key, v'.expired compareTime = true ∧ v'.simid = v.simid ∧
          v'.docid = v.docid) := by
  have hsteps := compareAndInsert_steps h
  have hne : input.strategy ≠ .APPEND := by
    rcases hs with hs | hs <;> rw [hs] <;> decide
  have hfetched := (hsteps.read hne).2
  constructor
  · intro hkeep hp key hk v hv hdoc hlive hdist
    have hit : isHit sign input compareTime v = true := decide_eq_true ⟨hdoc.symm, hlive, hdist⟩
    obtain ⟨v', hv', hsim', hdoc'⟩ := hkeep key v hv
    obtain ⟨new, hnew, hstore⟩ := hsteps.permanent hperm key
    rw [hstore, hfetched] at hv'
    rcases List.mem_append.mp hv' with hv' | hv'
    · obtain ⟨hin, hout⟩ := List.mem_filter.mp hv'
      refine ⟨v', hin, ?_, hsim', hdoc'⟩
      by_contra hlive'
      have hit' := isHit_of_same hit hsim' hdoc' (by simpa using hlive')
      rw [takenOut_iff.mpr ⟨⟨hne, hp, hd⟩, hk, hit'⟩] at hout
      cases hout
    · exact absurd (hdoc'.symm.trans (hnew v' hv')) hdoc
  · intro hcond key v hv
    obtain ⟨new, -, hstore⟩ := hsteps.permanent hperm key
    by_cases hout : takenOut input sign compareTime key v = true
    · obtain ⟨⟨-, hp, -⟩, hk, hit⟩ := takenOut_iff.mp hout
      have hhit := of_decide_eq_true hit
      obtain ⟨v', hv', hexp, hsim, hdoc⟩ := hcond hp key hk v hv hhit.1.symm hhit.2.1 hhit.2.2
      have hstay : takenOut input sign compareTime key v' = false := by
        simp [takenOut, isHit, hexp]
      rw [hstore, hfetched]
      exact ⟨v', List.mem_append_left _ (List.mem_filter.mpr ⟨hv', by simp [hstay]⟩), hsim, hdoc⟩
    · rw [hstore, hfetched]
      exact ⟨v, List.mem_append_left _ (List.mem_filter.mpr ⟨hv, by simpa using hout⟩), rfl, rfl⟩

end

/-! ### A permanent key that loses a value -/

/-- A `COMPARE` request on the permanent key `k`. -/
def permanentInput : SimInput :=
  ⟨[byteOf 'k'], 1, true, .FULLTEXT, 3, 100, .COMPARE, ⟨[], by decide⟩⟩

def permanentConf : Proconf := ⟨.FULLTEXT, 10, 10, 10, 64, 10, 64, [[byteOf 'k']]⟩

/-- Another document with the same signature. -/
def similarValue : Value := ⟨1, 2, 0, ⟨[], by decide⟩⟩

/-- The key `F:k:1`, which holds that document alone. -/
def sharedKey : Bytes := [byteOf 'F', byteOf ':', byteOf 'k', byteOf ':', byteOf '1']

def sharedStore (values : List Value) : Store := fun key => if key = sharedKey then values else []

theorem permanent_loses_value :
    redisKeyIsPermanent permanentInput.key permanentConf = true ∧
      ∃ r, compareAndInsert permanentInput 1 permanentConf (fun _ => 0) 50 50
          (sharedStore [similarValue]) = some r ∧
        ¬ ∀ key, ∀ v ∈ sharedStore [similarValue] key, ∃ v' ∈ r.store key,
          v'.simid = v.simid ∧ v'.docid = v.docid := by
  refine ⟨by decide, ?_⟩
  have hrun : (compareAndInsert permanentInput 1 permanentConf (fun _ => 0) 50 50
      (sharedStore [similarValue])).map (fun r => r.store sharedKey) = some [] := by decide +kernel
  obtain ⟨r, hr, hnil⟩ := Option.map_eq_some_iff.mp hrun
  refine ⟨r, hr, fun hkeep => ?_⟩
  obtain ⟨v', hv', -⟩ := hkeep sharedKey similarValue (by decide)
  rw [hnil] at hv'
  exact absurd hv' List.not_mem_nil

/-- With an expired copy in front the pair stays. -/
theorem permanent_keeps_iff_copy :
    ∃ r, compareAndInsert permanentInput 1 permanentConf (fun _ => 0) 50 50
        (sharedStore [{ similarValue with timestamp := 20 }, similarValue]) = some r ∧
      ∀ key, ∀ v ∈ sharedStore [{ similarValue with timestamp := 20 }, similarValue] key,
        ∃ v' ∈ r.store key, v'.simid = v.simid ∧ v'.docid = v.docid := by
  obtain ⟨r, hr⟩ := Option.isSome_iff_exists.mp (by decide +kernel :
    (compareAndInsert permanentInput 1 permanentConf (fun _ => 0) 50 50
      (sharedStore [{ similarValue with timestamp := 20 }, similarValue])).isSome = true)
  refine ⟨r, hr, (permanent_keeps_iff hr (by decide) (.inl rfl) rfl).mpr
    fun _ key _ v hv _ _ _ => ?_⟩
  by_cases hk : key = sharedKey
  · subst hk
    refine ⟨{ similarValue with timestamp := 20 }, by decide, by decide, ?_⟩
    rcases List.mem_cons.mp hv with rfl | hv
    · exact ⟨rfl, rfl⟩
    · rw [List.mem_singleton.mp hv]
      exact ⟨rfl, rfl⟩
  · simp [sharedStore, hk] at hv

/-! ## Other keys -/

section
variable {input : SimInput} {sign : BitVec 64} {pconf : Proconf}
variable {junk : Fin (DISTANCE + 1) → Int} {compareTime insertTime : BitVec 32} {store : Store}
variable {r : Compared}

/-- The value is in the list of hits that the request reports for `key`. -/
def reported (output : SimOutput) (key : Bytes) (v : Value) : Bool :=
  decide (∃ d, Simval.mk key v ∈ output.simdis d)

theorem Steps.reported_iff (h : Steps input sign pconf junk compareTime insertTime store r)
    (hp : input.pattern = .FULLTEXT) {key : Bytes} {v : Value} (hv : v ∈ r.fetched key) :
    reported r.output key v = true ↔
      input.strategy ≠ .APPEND ∧ key ∈ requestKeys input sign ∧
        isHit sign input compareTime v = true := by
  rw [reported, decide_eq_true_iff]
  by_cases hs : input.strategy = .APPEND
  · rw [(getSimilarDoc_other h.similar (.inl hs)).1]
    simp [SimOutput.init, hs]
  · have hrep := (getSimilarDoc_fulltext h.similar hs hp).1
    have hentries := (h.read hs).1.entries
    have hmem : ∀ d, Simval.mk key v ∈ r.output.simdis d ↔
        key ∈ requestKeys input sign ∧ isHit sign input compareTime v = true ∧
          bitDist v.simid sign = d.val := fun d => by
      rw [hrep.simdis d, hitsAt, List.mem_filter, hentries]
      simp [hv]
    simp only [hmem]
    constructor
    · rintro ⟨d, hk, hit, -⟩
      exact ⟨hs, hk, hit⟩
    · rintro ⟨-, hk, hit⟩
      have hentry : Simval.mk key v ∈ entries r.redisvalue := by
        rw [hentries]
        exact List.mem_flatMap.mpr ⟨key, hk, List.mem_map.mpr ⟨v, hv, rfl⟩⟩
      exact ⟨⟨_, hrep.near _ hentry hit⟩, hk, hit, rfl⟩

/-- Changing the members with a property, as taking them out and adding the
changed ones. -/
theorem filter_append_map_perm {α : Type} (p : α → Bool) (g : α → α) (l : List α) :
    (l.filter (!p ·) ++ (l.filter p).map g).Perm (l.map fun x => if p x then g x else x) := by
  have hyes : (l.filter p).map (fun x => if p x then g x else x) = (l.filter p).map g :=
    List.map_congr_left fun x hx => if_pos (List.mem_filter.mp hx).2
  have hno : (l.filter (!p ·)).map (fun x => if p x then g x else x) = l.filter (!p ·) := by
    conv_rhs => rw [← List.map_id (l.filter (!p ·))]
    exact List.map_congr_left fun x hx => if_neg (by simpa using (List.mem_filter.mp hx).2)
  have hsplit := (List.filter_append_perm p l).map fun x => if p x then g x else x
  rw [List.map_append, hyes, hno] at hsplit
  exact List.perm_append_comm.trans hsplit

/-- The entry for the document of the request. -/
def ownValue (input : SimInput) (sign : BitVec 64) (insertTime : BitVec 32) : Value :=
  ⟨sign, input.docid, insertTime + input.expiretime, input.privatedata⟩

/-- With a delay the reported hits are those taken out. -/
theorem Steps.reported_eq_takenOut
    (h : Steps input sign pconf junk compareTime insertTime store r)
    (hp : input.pattern = .FULLTEXT) {key : Bytes} {v : Value} (hv : v ∈ r.fetched key) :
    (input.hitdelay && reported r.output key v) = takenOut input sign compareTime key v := by
  rw [Bool.eq_iff_iff, Bool.and_eq_true, h.reported_iff hp hv, takenOut_iff]
  constructor
  · rintro ⟨hd, hs, hk, hit⟩
    exact ⟨⟨hs, hp, hd⟩, hk, hit⟩
  · rintro ⟨⟨hs, -, hd⟩, hk, hit⟩
    exact ⟨hd, hs, hk, hit⟩

/-- What the insertion collects of the hits is what the deletion has taken out,
with one new time. -/
theorem Steps.hits_perm (h : Steps input sign pconf junk compareTime insertTime store r)
    (hp : input.pattern = .FULLTEXT) {key : Bytes} (hk : key ∈ requestKeys input sign)
    (timestamp : BitVec 32) :
    (if input.strategy = .APPEND ∨ input.hitdelay = false then []
      else hitValues r.output timestamp key).Perm
      (((r.fetched key).filter (takenOut input sign compareTime key)).map fun v =>
        { v with timestamp }) := by
  by_cases hrun : input.strategy = .APPEND ∨ input.hitdelay = false
  · have hnone := @takenOut_eq_false input sign compareTime key (hrun.imp id .inl)
    rw [if_pos hrun, List.filter_eq_nil_iff.mpr fun v _ => by simp [hnone v]]
    rfl
  · rw [if_neg hrun]
    rw [not_or, Bool.not_eq_false] at hrun
    rw [takenOut_eq_isHit hrun.1 hp hrun.2 hk]
    exact (getSimilarDoc_fulltext h.similar hrun.1 hp).1.hitValues_perm (h.read hrun.1).1
      (requestKeys_nodup input sign) timestamp hk

/-- Each value as the request leaves it, and what the request adds. -/
theorem Steps.conserves (h : Steps input sign pconf junk compareTime insertTime store r)
    (hp : input.pattern = .FULLTEXT) (hperm : redisKeyIsPermanent input.key pconf = false)
    (hexp : ¬ expiresKeys input pconf) (key : Bytes) :
    (r.store key).Perm
      ((r.fetched key).map (fun v => if input.hitdelay && reported r.output key v then
          { v with timestamp := insertTime + pconf.fulltext_expire_time } else v) ++
        if input.strategy ≠ .COMPARE ∧ key ∈ requestKeys input sign then
          [ownValue input sign insertTime] else []) := by
  have hgo : ¬ (redisKeyIsPermanent input.key pconf = true ∧ r.existSameDoc = true) := by
    simp [hperm]
  have hins := @insert_apply sign input r.output _ (requestKeys_nodup input sign) 0 _ pconf
    insertTime (Cmd.execAll r.fetched (redisDelValue input r.output)) hgo key
  rw [← h.store, h.del_apply key] at hins
  have hmap : (r.fetched key).map (fun v => if input.hitdelay && reported r.output key v then
      { v with timestamp := insertTime + pconf.fulltext_expire_time } else v) =
      (r.fetched key).map fun v => if takenOut input sign compareTime key v then
        { v with timestamp := insertTime + pconf.fulltext_expire_time } else v :=
    List.map_congr_left fun v hv => by rw [h.reported_eq_takenOut hp hv]
  rw [hmap]
  by_cases hk : key ∈ requestKeys input sign
  · have hnew : insertValues sign input r.output pconf insertTime key =
        (if input.strategy = .APPEND ∨ input.hitdelay = false then [] else
          hitValues r.output (insertTime + pconf.fulltext_expire_time) key) ++
        if input.strategy ≠ .COMPARE ∧ key ∈ requestKeys input sign then
          [ownValue input sign insertTime] else [] := by
      simp [insertValues, hperm, hp, hitExpireTime, hk, ownValue]
    rw [hins, if_pos hk, if_neg hexp, hnew, ← List.append_assoc]
    exact (((h.hits_perm hp hk _).append_left _).trans (filter_append_map_perm _ _ _)).append_right _
  · have hnone := @takenOut_eq_false input sign compareTime key (.inr (.inr hk))
    rw [hins, if_neg hk]
    simp [hnone, hk]

/-- What a value says apart from its time. -/
def Value.content (v : Value) : BitVec 64 × BitVec 64 × UserData := (v.simid, v.docid, v.userdata)

/-- **A request on another key conserves the store.** With an `EXPIRE` in the
future the request adds its own document at most, and changes the time of
reported hits only. -/
theorem request_conserves
    (h : compareAndInsert input sign pconf junk compareTime insertTime store = some r)
    (hp : input.pattern = .FULLTEXT) (hperm : redisKeyIsPermanent input.key pconf = false)
    (hs : input.strategy = .COMPARE ∨
      (input.strategy = .APPEND ∨ input.strategy = .APPCOM) ∧ 0 < input.expiretime.toInt) :
    (input.strategy ≠ .APPEND → r.fetched = store) ∧ ∀ key,
      ((r.store key).map Value.content).Perm ((r.fetched key).map Value.content ++
        if input.strategy ≠ .COMPARE ∧ key ∈ requestKeys input sign then
          [(sign, input.docid, input.privatedata)] else []) ∧
      (r.store key).Perm
        ((r.fetched key).map (fun v => if input.hitdelay && reported r.output key v then
            { v with timestamp := insertTime + pconf.fulltext_expire_time } else v) ++
          if input.strategy ≠ .COMPARE ∧ key ∈ requestKeys input sign then
            [ownValue input sign insertTime] else []) := by
  have hsteps := compareAndInsert_steps h
  have hexp : ¬ expiresKeys input pconf := by
    rintro ⟨happ, -, hle⟩
    rcases hs with hs | ⟨-, hlt⟩
    · rcases happ with happ | happ <;> rw [hs] at happ <;> cases happ
    · omega
  refine ⟨fun hne => (hsteps.read hne).2, fun key => ?_⟩
  have hvalues := hsteps.conserves hp hperm hexp key
  refine ⟨?_, hvalues⟩
  have hcontent := hvalues.map Value.content
  rw [List.map_append, List.map_map] at hcontent
  have hsame : ∀ v : Value, (Value.content ∘ fun v => if input.hitdelay && reported r.output key v
      then { v with timestamp := insertTime + pconf.fulltext_expire_time } else v) v = v.content := by
    intro v
    dsimp only [Function.comp_apply]
    split <;> rfl
  rw [List.map_congr_left fun v _ => hsame v] at hcontent
  refine hcontent.trans (.of_eq ?_)
  split <;> rfl

end

/-! ### A request whose `EXPIRE` is due at once -/

/-- An `APPCOM` request on the ordinary key `k`. -/
def ordinaryInput (expiretime : BitVec 32) : SimInput :=
  { permanentInput with strategy := .APPCOM, expiretime }

def ordinaryConf : Proconf := { permanentConf with permanentKeys := [] }

theorem request_expires_keys :
    redisKeyIsPermanent (ordinaryInput 0).key ordinaryConf = false ∧
      ∃ r, compareAndInsert (ordinaryInput 0) 1 ordinaryConf (fun _ => 0) 50 50
          (sharedStore [similarValue]) = some r ∧
        ¬ ∀ key, ((r.store key).map Value.content).Perm
          ((sharedStore [similarValue] key).map Value.content ++
            if key ∈ requestKeys (ordinaryInput 0) 1 then
              [(1, (ordinaryInput 0).docid, (ordinaryInput 0).privatedata)] else []) := by
  refine ⟨by decide, ?_⟩
  have hrun : (compareAndInsert (ordinaryInput 0) 1 ordinaryConf (fun _ => 0) 50 50
      (sharedStore [similarValue])).map (fun r => r.store sharedKey) = some [] := by decide +kernel
  obtain ⟨r, hr, hnil⟩ := Option.map_eq_some_iff.mp hrun
  refine ⟨r, hr, fun hkeep => ?_⟩
  have hlen := (hkeep sharedKey).length_eq
  rw [hnil, List.length_append] at hlen
  simp [sharedStore] at hlen
  omega

/-- With a hundred seconds left the other document stays, with a new time. -/
theorem request_conserves_hundred :
    ∃ r, compareAndInsert (ordinaryInput 100) 1 ordinaryConf (fun _ => 0) 50 50
        (sharedStore [similarValue]) = some r ∧
      (r.store sharedKey).Perm
        [{ similarValue with timestamp := 60 }, ownValue (ordinaryInput 100) 1 50] := by
  have hrun : (compareAndInsert (ordinaryInput 100) 1 ordinaryConf (fun _ => 0) 50 50
      (sharedStore [similarValue])).map (fun r => reported r.output sharedKey similarValue) =
        some true := by decide +kernel
  obtain ⟨r, hr, hhit⟩ := Option.map_eq_some_iff.mp hrun
  have hkey : sharedKey ∈ requestKeys (ordinaryInput 100) 1 := by decide +kernel
  obtain ⟨hfetched, hkeep⟩ := request_conserves hr rfl (by decide) (.inr ⟨.inr rfl, by decide⟩)
  have hperm := (hkeep sharedKey).2
  rw [hfetched (by decide), if_pos ⟨by decide, hkey⟩] at hperm
  refine ⟨r, hr, hperm.trans (.of_eq ?_)⟩
  simp [sharedStore, ordinaryInput, permanentInput, hhit, ordinaryConf, permanentConf]

end CommonTools.Simhash
