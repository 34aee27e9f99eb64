import CommonTools.Lib.Newest
import CommonTools.Simhash.Request

/-! # Trimming after a request

The start of the `LTRIM` is counted on the list that was read, and the command
meets the list as the request has left it. -/
namespace CommonTools.Simhash
open CommonTools.Lib

/-! ## The start of the trim -/

/-- The values that `redis_ltrim_value` looks at. -/
def window (max : BitVec 32) (l : List Value) : List Value :=
  if 0 < max.toNat then newest max.toNat l else l

/-- The values that it means to keep. -/
def kept (max check now : BitVec 32) (l : List Value) : List Value :=
  if check.toNat ≤ l.length then (window max l).dropWhile (Value.expired now) else window max l

theorem skipExpired_eq (now : BitVec 32) :
    ∀ (l : List Value) (index : Int),
      skipExpired now l index = index + (l.takeWhile (Value.expired now)).length := by
  intro l
  induction l with
  | nil =>
    intro index
    exact by simp [skipExpired]
  | cons v l ih =>
    intro index
    rw [skipExpired, List.takeWhile_cons]
    split
    · rw [ih, List.length_cons]
      omega
    · simp

theorem length_window (max : BitVec 32) (l : List Value) :
    (window max l).length = if 0 < max.toNat then min max.toNat l.length else l.length := by
  rw [window]
  split
  · exact length_newest _ l
  · rfl

/-- A limit below the length of a list is a small `int`. -/
theorem toInt_neg_limit {max : BitVec 32} (h : max.toNat < 2 ^ 31) :
    (0 - max).toInt = -(max.toNat : Int) := by
  rw [show 0 - max = -max from BitVec.zero_sub max, BitVec.toInt_neg,
    BitVec.toInt_eq_toNat_of_lt (by omega)]
  exact Int.bmod_eq_of_le (by omega) (by omega)

/-- The start that keeps `k` of `n` values: nothing is sent when all are kept,
and the whole length when none is. -/
def startFor (n k : Nat) : Option Int :=
  if k = n then none else if k = 0 then some (n : Int) else some (-(k : Int))

/-- An index that keeps `k` of `n` values, counted from either end. -/
theorem start_of_index {n k : Nat} {index : Int} (hk : k ≤ n) (hlt : n < 2 ^ 31)
    (hindex : index = n - k ∨ (index = -k ∧ 0 < k ∧ k < n)) :
    (if index = 0 then none else if index < 0 then some index
      else if index < n then some (intOf (index - n)) else some index) = startFor n k := by
  rw [startFor]
  rcases hindex with rfl | ⟨rfl, hpos, hless⟩
  · rw [intOf_eq (by omega) (by omega), if_neg (by omega : ¬ (n : Int) - k < 0)]
    by_cases hkn : k = n
    · rw [if_pos hkn, if_pos (by omega)]
    · rw [if_neg hkn, if_neg (by omega)]
      by_cases hk0 : k = 0
      · rw [if_pos hk0, if_neg (by omega), hk0]
        simp
      · rw [if_neg hk0, if_pos (by omega)]
        congr 1
        omega
  · rw [if_neg (by omega), if_pos (by omega), if_neg (by omega), if_neg (by omega)]

theorem trimStart_eq (max check now : BitVec 32) (val : RPush) :
    trimStart max check now val =
      startFor val.value.length (kept max check now val.value).length := by
  obtain ⟨key, l, hlt⟩ := val
  have hsize : intOf l.length = l.length := intOf_eq (by omega) (by omega)
  have hwindow := length_window max l
  have hsplit := length_takeWhile_add (Value.expired now) (window max l)
  by_cases hempty : l.length = 0
  · have hnil : (kept max check now l).length = l.length := by
      rw [kept]
      split
      · split at hwindow <;> omega
      · split at hwindow <;> omega
    rw [startFor, if_pos hnil, trimStart]
    exact if_pos hempty
  · by_cases htrunc : 0 < max.toNat ∧ max.toNat < l.length
    · have hstart : l.drop (l.length - max.toNat) = window max l := by
        rw [window, if_pos htrunc.1, newest]
      rw [if_pos htrunc.1] at hwindow
      simp only [trimStart, if_neg hempty, htrunc, and_self, decide_true, if_true, true_and, hstart,
        skipExpired_eq, toInt_neg_limit (Nat.lt_trans htrunc.2 hlt), hsize]
      refine start_of_index ?_ hlt ?_
      all_goals
        rw [kept]
        split
        · omega
        · omega
    · have hall : window max l = l := by
        rw [window]
        split
        · rw [newest, show l.length - max.toNat = 0 by omega, List.drop_zero]
        · rfl
      have hkept : (kept max check now l).length =
          if check.toNat ≤ l.length then (l.dropWhile (Value.expired now)).length
          else l.length := by
        rw [kept, hall]
        split <;> rfl
      rw [hall] at hsplit
      simp only [trimStart, if_neg hempty, htrunc, decide_false, Bool.false_eq_true, false_and,
        if_false, List.drop_zero, skipExpired_eq, hsize, hkept]
      refine start_of_index ?_ hlt (.inl ?_)
      all_goals
        split
        · omega
        · omega

/-! ## What the trim does -/

/-- How many values the trim takes from the front of the list `l` when the list
that was read had `n` values, `k` of them kept. -/
def cut (n k : Nat) (l : List Value) : Nat :=
  if k = n then 0 else if k = 0 then n else l.length - k

theorem startFor_apply (n k : Nat) (key : Bytes) (l : List Value) :
    ((startFor n k).toList.map fun start => (.ltrim key start (-1) : Command)).foldl
      (fun l c => c.apply l) l = l.drop (cut n k l) := by
  rw [startFor, cut]
  by_cases hkn : k = n
  · simp [hkn]
  · rw [if_neg hkn, if_neg hkn]
    by_cases hk0 : k = 0
    · rw [if_pos hk0, if_pos hk0]
      exact keepRange_natCast l n
    · rw [if_neg hk0, if_neg hk0]
      exact keepRange_neg l (Nat.pos_of_ne_zero hk0)

section
variable {input : SimInput} {pconf : Proconf} {check now : BitVec 32}

/-- The commands for one key, of lists read under different keys. -/
theorem redisLtrimValue_filter (hs : input.strategy ≠ .APPEND) {read : Store} {keys : List Bytes}
    {redisvalue : List RPush} (hread : Read read keys redisvalue) (hnd : keys.Nodup)
    (key : Bytes) :
    (redisLtrimValue input redisvalue pconf check now).filter (·.key = key) =
      if key ∈ keys then
        (startFor (read key).length
          (kept pconf.max_redis_list check now (read key)).length).toList.map
            fun start => .ltrim key start (-1)
      else [] := by
  rw [redisLtrimValue, if_neg hs, List.filterMap_eq_flatMap_toList]
  induction hread with
  | nil => rfl
  | @cons k e keys rest he _ ih =>
    obtain ⟨hnot, hnd⟩ := List.nodup_cons.mp hnd
    rw [List.flatMap_cons, List.filter_append, ih hnd, trimStart_eq, he.1, he.2]
    have hone : ∀ start : Option Int,
        ((start.map fun st => (.ltrim k st (-1) : Command)).toList.filter (·.key = key)) =
          if k = key then start.toList.map fun st => .ltrim key st (-1) else [] := fun start => by
      by_cases hk : k = key
      · subst hk
        cases start <;> simp [Cmd.key]
      · cases start <;> simp [Cmd.key, hk]
    rw [hone]
    by_cases hk : k = key
    · subst hk
      rw [if_pos rfl, if_neg hnot, if_pos List.mem_cons_self, List.append_nil]
    · have hmem : key ∈ k :: keys ↔ key ∈ keys := by simp [Ne.symm hk]
      rw [if_neg hk, List.nil_append]
      simp only [hmem]

theorem redisLtrimValue_apply (hs : input.strategy ≠ .APPEND) {read : Store} {keys : List Bytes}
    {redisvalue : List RPush} (hread : Read read keys redisvalue) (hnd : keys.Nodup)
    (store : Store) (key : Bytes) :
    Cmd.execAll store (redisLtrimValue input redisvalue pconf check now) key =
      if key ∈ keys then
        (store key).drop (cut (read key).length
          (kept pconf.max_redis_list check now (read key)).length (store key))
      else store key := by
  rw [Cmd.execAll_apply, redisLtrimValue_filter hs hread hnd]
  split
  · exact startFor_apply _ _ _ _
  · rfl

end

/-! ## A list that nobody has changed -/

theorem kept_suffix (max check now : BitVec 32) (l : List Value) : kept max check now l <:+ l := by
  have hwindow : window max l <:+ l := by
    rw [window]
    split
    · exact List.drop_suffix _ l
    · exact List.suffix_rfl
  rw [kept]
  split
  · exact (List.dropWhile_suffix (Value.expired now)).trans hwindow
  · exact hwindow

/-- Applied to the list that was read, the trim leaves the values to keep. -/
theorem drop_cut_kept (max check now : BitVec 32) (l : List Value) :
    l.drop (cut l.length (kept max check now l).length l) = kept max check now l := by
  have hsuffix := kept_suffix max check now l
  have hdrop : cut l.length (kept max check now l).length l =
      l.length - (kept max check now l).length := by
    rw [cut]
    split
    · omega
    · split <;> omega
  rw [hdrop]
  exact (List.suffix_iff_eq_drop.mp hsuffix).symm

theorem Read.mem {store : Store} {keys : List Bytes} {redisvalue : List RPush}
    (h : Read store keys redisvalue) {val : RPush} (hval : val ∈ redisvalue) :
    val.key ∈ keys ∧ val.value = store val.key := by
  obtain ⟨i, hi, rfl⟩ := List.getElem_of_mem hval
  obtain ⟨hkey, hlist⟩ := List.Forall₂.get h (by rw [List.Forall₂.length_eq h]; exact hi) hi
  rw [List.get_eq_getElem, List.get_eq_getElem] at hkey hlist
  rw [hkey]
  exact ⟨List.getElem_mem _, hlist⟩

theorem startFor_eq_none_iff {n k : Nat} : startFor n k = none ↔ k = n := by
  rw [startFor]
  split
  · exact iff_of_true rfl ‹_›
  · refine iff_of_false ?_ ‹_›
    split <;> exact Option.some_ne_none _

/-- **The suffix that a trim keeps.** -/
theorem redisLtrimValue_suffix {input : SimInput} {sign : BitVec 64} {pconf : Proconf}
    {store fetched : Store} {redisvalue : List RPush}
    (h : redisGetValue input (requestKeys input sign) pconf store = some (redisvalue, fetched))
    (check now : BitVec 32) :
    ∀ val ∈ redisvalue,
      Cmd.execAll fetched (redisLtrimValue input redisvalue pconf check now) val.key =
          kept pconf.max_redis_list check now val.value ∧
        ((∀ start stop, .ltrim val.key start stop ∉
            redisLtrimValue input redisvalue pconf check now) ↔
          kept pconf.max_redis_list check now val.value = val.value) := by
  intro val hval
  by_cases hs : input.strategy = .APPEND
  · -- nothing is read
    rw [redisGetValue, if_pos hs] at h
    obtain ⟨rfl, -⟩ := Prod.mk.inj (Option.some.inj h)
    exact absurd hval List.not_mem_nil
  obtain ⟨hread, rfl⟩ := redisGetValue_read h hs
  obtain ⟨hkey, hlist⟩ := hread.mem hval
  have hnd := requestKeys_nodup input sign
  constructor
  · rw [redisLtrimValue_apply hs hread hnd, if_pos hkey, ← hlist]
    exact drop_cut_kept _ _ _ _
  · have hfilter :
        (redisLtrimValue input redisvalue pconf check now).filter (·.key = val.key) = _ :=
      redisLtrimValue_filter hs hread hnd val.key
    rw [if_pos hkey, ← hlist] at hfilter
    constructor
    · intro hnone
      have hstart : startFor val.value.length
          (kept pconf.max_redis_list check now val.value).length = none := by
        rw [Option.eq_none_iff_forall_ne_some]
        intro start hsome
        rw [hsome] at hfilter
        have hmem : .ltrim val.key start (-1) ∈
            (redisLtrimValue input redisvalue pconf check now).filter (·.key = val.key) := by
          rw [hfilter]
          exact List.mem_singleton_self _
        exact hnone start (-1) (List.mem_of_mem_filter hmem)
      exact (kept_suffix _ _ _ _).eq_of_length (startFor_eq_none_iff.mp hstart)
    · intro hall start stop hmem
      rw [hall, startFor_eq_none_iff.mpr rfl] at hfilter
      exact (List.filter_eq_nil_iff.mp hfilter _ hmem) (decide_eq_true rfl)

/-- An expired value in front of one that lives on. -/
def expiredThenLive : List Value :=
  [{ similarValue with timestamp := 20 }, { similarValue with timestamp := 90 }]

/-- The older of the two goes. -/
theorem redisLtrimValue_suffix_two :
    ∃ redisvalue fetched, redisGetValue permanentInput (requestKeys permanentInput 1) ordinaryConf
        (sharedStore expiredThenLive) = some (redisvalue, fetched) ∧
      ∀ val ∈ redisvalue,
        Cmd.execAll fetched (redisLtrimValue permanentInput redisvalue ordinaryConf 2 50) val.key =
          kept ordinaryConf.max_redis_list 2 50 val.value := by
  obtain ⟨⟨redisvalue, fetched⟩, hr⟩ := Option.isSome_iff_exists.mp (by decide +kernel :
    (redisGetValue permanentInput (requestKeys permanentInput 1) ordinaryConf
      (sharedStore expiredThenLive)).isSome = true)
  exact ⟨redisvalue, fetched, hr, fun val hval => (redisLtrimValue_suffix hr 2 50 val hval).1⟩

/-! ## The list that the trim meets -/

/-- Some list of the request holds its document already. -/
def sameDocStored (input : SimInput) (sign : BitVec 64) (store : Store) : Bool :=
  (requestKeys input sign).any fun key => (store key).any fun v => decide (input.docid = v.docid)

/-- What a full-text request adds to the list of one of its keys: the hits in
their old order, and its own document. -/
def addedUnder (input : SimInput) (sign : BitVec 64) (pconf : Proconf)
    (compareTime insertTime : BitVec 32) (store : Store) (key : Bytes) : List Value :=
  let permanent := redisKeyIsPermanent input.key pconf
  let hits :=
    if permanent then []
    else ((store key).filter (takenOut input sign compareTime key)).map fun v =>
      { v with timestamp := insertTime + pconf.fulltext_expire_time }
  let new :=
    if input.strategy = .COMPARE ∨ (permanent ∧ sameDocStored input sign store) then []
    else [⟨sign, input.docid, if permanent then 0 else insertTime + input.expiretime,
      input.privatedata⟩]
  hits ++ new

/-- What the request leaves there. -/
def leftUnder (input : SimInput) (sign : BitVec 64) (pconf : Proconf)
    (compareTime insertTime : BitVec 32) (store : Store) (key : Bytes) : List Value :=
  if expiresKeys input pconf then []
  else (store key).filter (!takenOut input sign compareTime key ·) ++
    addedUnder input sign pconf compareTime insertTime store key

/-- When a trim is safe, from the list that was read and the list that is left.
The trim only goes wrong where expired values lead the newest ones. -/
def TrimFits (max check now : BitVec 32) (read left : List Value) : Prop :=
  0 < max.toNat → check.toNat ≤ read.length →
    (∃ v, (newest max.toNat read).head? = some v ∧ v.expired now = true) →
    (liveNewest (Value.expired now) max.toNat left).length ≤
      if liveNewest (Value.expired now) max.toNat read = [] then left.length - read.length
      else (liveNewest (Value.expired now) max.toNat read).length

theorem cut_fits_iff (max check now : BitVec 32) (read left : List Value) :
    (liveNewest (Value.expired now) max.toNat left).length ≤
        left.length - cut read.length (kept max check now read).length left ↔
      TrimFits max check now read left := by
  have hleft := length_liveNewest_le (Value.expired now) max.toNat left
  have hnew := (List.dropWhile_suffix (l := newest max.toNat left) (Value.expired now)).length_le
  rw [← liveNewest, length_newest] at hnew
  by_cases hmax : 0 < max.toNat
  · have hwindow : window max read = newest max.toNat read := if_pos hmax
    have hlen := length_newest max.toNat read
    -- the trim keeps the whole window
    have hwhole : kept max check now read = newest max.toNat read →
        (liveNewest (Value.expired now) max.toNat left).length ≤
          left.length - cut read.length (kept max check now read).length left := fun hkept => by
      rw [hkept, cut]
      split
      · exact hleft
      · split <;> omega
    by_cases hcheck : check.toNat ≤ read.length
    · have hkept : kept max check now read = liveNewest (Value.expired now) max.toNat read := by
        rw [kept, if_pos hcheck, hwindow, liveNewest]
      rcases hn : newest max.toNat read with _ | ⟨v, rest⟩
      · refine iff_of_true (hwhole (by rw [hkept, liveNewest, hn]; rfl)) fun _ _ hv => ?_
        rw [hn] at hv
        obtain ⟨v, hv, -⟩ := hv
        cases hv
      · by_cases hv : v.expired now = true
        · have hshort : (liveNewest (Value.expired now) max.toNat read).length < read.length := by
            have hrest := (List.dropWhile_suffix (l := rest) (Value.expired now)).length_le
            rw [hn, List.length_cons] at hlen
            rw [liveNewest, hn, List.dropWhile_cons_of_pos hv]
            omega
          have hfits : TrimFits max check now read left ↔
              (liveNewest (Value.expired now) max.toNat left).length ≤
                if liveNewest (Value.expired now) max.toNat read = [] then
                  left.length - read.length
                else (liveNewest (Value.expired now) max.toNat read).length :=
            ⟨fun h => h hmax hcheck ⟨v, by rw [hn]; rfl, hv⟩, fun h _ _ _ => h⟩
          rw [hfits, hkept, cut, if_neg (Nat.ne_of_lt hshort)]
          simp only [List.length_eq_zero_iff]
          split
          · rfl
          · omega
        · refine iff_of_true (hwhole ?_) fun _ _ hex => ?_
          · rw [hkept, liveNewest, hn, List.dropWhile_cons_of_neg hv]
          · obtain ⟨v', hhead, hexp⟩ := hex
            rw [hn] at hhead
            obtain rfl := Option.some.inj hhead
            exact absurd hexp hv
    · refine iff_of_true (hwhole ?_) fun _ hc => absurd hc hcheck
      rw [kept, if_neg hcheck, hwindow]
  · refine iff_of_true ?_ fun h => absurd h hmax
    omega

section
variable {input : SimInput} {sign : BitVec 64} {pconf : Proconf}
variable {junk : Fin (DISTANCE + 1) → Int} {compareTime insertTime : BitVec 32} {store : Store}
variable {r : Compared}

theorem Steps.existSameDoc (h : Steps input sign pconf junk compareTime insertTime store r)
    (hp : input.pattern = .FULLTEXT) (hs : input.strategy ≠ .APPEND) :
    r.existSameDoc = sameDocStored input sign store := by
  obtain ⟨hread, hfetched⟩ := h.read hs
  rw [(getSimilarDoc_fulltext h.similar hs hp).2, hread.entries, hfetched, Bool.false_or,
    List.any_flatMap, sameDocStored]
  simp only [List.any_map, Function.comp_def]

/-- The hits come back with one time, so their order does not matter. -/
theorem Steps.insertValues_expired
    (h : Steps input sign pconf junk compareTime insertTime store r)
    (hp : input.pattern = .FULLTEXT) (hs : input.strategy ≠ .APPEND)
    (hgo : ¬ (redisKeyIsPermanent input.key pconf = true ∧ r.existSameDoc = true)) {key : Bytes}
    (hk : key ∈ requestKeys input sign) (now : BitVec 32) :
    (insertValues sign input r.output pconf insertTime key).map (Value.expired now) =
      (addedUnder input sign pconf compareTime insertTime store key).map (Value.expired now) := by
  rw [h.existSameDoc hp hs] at hgo
  simp only [insertValues, addedUnder, hgo, or_false, List.map_append]
  congr 1
  by_cases hperm : redisKeyIsPermanent input.key pconf = true
  · simp [hperm]
  · have hflags := (h.hits_perm hp hk (insertTime + pconf.fulltext_expire_time)).map
      (Value.expired now)
    rw [(h.read hs).2] at hflags
    -- all flags are those of the new time
    have hall : (((store key).filter (takenOut input sign compareTime key)).map fun v : Value =>
        { v with timestamp := insertTime + pconf.fulltext_expire_time }).map (Value.expired now) =
        List.replicate ((store key).filter (takenOut input sign compareTime key)).length
          (decide (insertTime + pconf.fulltext_expire_time ≤ now ∧
            insertTime + pconf.fulltext_expire_time ≠ 0)) := by
      refine List.eq_replicate_iff.mpr ⟨by rw [List.length_map, List.length_map], fun b hb => ?_⟩
      rw [List.map_map] at hb
      obtain ⟨v, -, rfl⟩ := List.mem_map.mp hb
      rfl
    rw [hall, List.perm_replicate] at hflags
    simp only [hperm, Bool.false_eq_true, or_false, if_false, hitExpireTime, hp, hflags, hall]

theorem Steps.left_expired (h : Steps input sign pconf junk compareTime insertTime store r)
    (hp : input.pattern = .FULLTEXT) (hs : input.strategy ≠ .APPEND) {key : Bytes}
    (hk : key ∈ requestKeys input sign) (now : BitVec 32) :
    (r.store key).map (Value.expired now) =
      (leftUnder input sign pconf compareTime insertTime store key).map (Value.expired now) := by
  have hdel := h.del_apply key
  rw [(h.read hs).2] at hdel
  rw [h.store, (h.read hs).2, leftUnder]
  by_cases hgo : redisKeyIsPermanent input.key pconf = true ∧ r.existSameDoc = true
  · have hexp : ¬ expiresKeys input pconf := fun he => by
      rw [he.2.1] at hgo
      exact absurd hgo.1 (by decide)
    have hsame := h.existSameDoc hp hs
    rw [hgo.2] at hsame
    have hcmds : (redisInsertValue (requestKeys input sign) sign input r.output 0 r.existSameDoc
        pconf insertTime).2 = [] := by
      rw [redisInsertValue]
      simp only [hgo, and_self, if_true]
    rw [hcmds]
    simp only [addedUnder, hgo.1, ← hsame, and_self, or_true, if_true, if_neg hexp,
      List.append_nil]
    exact congrArg _ hdel
  · rw [insert_apply (requestKeys_nodup input sign) _ hgo, if_pos hk, hdel]
    split
    · rfl
    · rw [List.map_append, List.map_append, h.insertValues_expired hp hs hgo hk]

/-- **When a trim keeps every live value.** -/
theorem trim_keeps_live_iff
    (h : compareAndInsert input sign pconf junk compareTime insertTime store = some r)
    (hp : input.pattern = .FULLTEXT) (hs : input.strategy = .COMPARE ∨ input.strategy = .APPCOM)
    (check trimTime : BitVec 32) :
    (∀ key, KeepsLive (Value.expired trimTime) pconf.max_redis_list.toNat (r.store key)
        (Cmd.execAll r.store (redisLtrimValue input r.redisvalue pconf check trimTime) key)) ↔
      ∀ key ∈ requestKeys input sign, TrimFits pconf.max_redis_list check trimTime (store key)
        (leftUnder input sign pconf compareTime insertTime store key) := by
  have hsteps := compareAndInsert_steps h
  have hne : input.strategy ≠ .APPEND := by
    rcases hs with hs | hs <;> rw [hs] <;> decide
  obtain ⟨hread, hfetched⟩ := hsteps.read hne
  rw [hfetched] at hread
  have hkey : ∀ key ∈ requestKeys input sign,
      (KeepsLive (Value.expired trimTime) pconf.max_redis_list.toNat (r.store key)
        (Cmd.execAll r.store (redisLtrimValue input r.redisvalue pconf check trimTime) key) ↔
      TrimFits pconf.max_redis_list check trimTime (store key)
        (leftUnder input sign pconf compareTime insertTime store key)) := fun key hk => by
    have hflags := hsteps.left_expired hp hne hk trimTime
    have hlen : (r.store key).length =
        (leftUnder input sign pconf compareTime insertTime store key).length := by
      simpa using congrArg List.length hflags
    rw [redisLtrimValue_apply hne hread (requestKeys_nodup input sign), if_pos hk,
      keepsLive_drop_iff, length_liveNewest_congr hflags, ← cut_fits_iff, cut, cut, hlen]
  constructor
  · exact fun hall key hk => (hkey key hk).mp (hall key)
  · intro hfits key
    by_cases hk : key ∈ requestKeys input sign
    · exact (hkey key hk).mpr (hfits key hk)
    · rw [redisLtrimValue_apply hne hread (requestKeys_nodup input sign), if_neg hk]
      exact keepsLive_refl _ _ _

end

/-! ### A trim that takes a live value -/

/-- The start is one from the end, and by then the request's own document is
the last. -/
theorem trim_takes_live :
    ∃ r, compareAndInsert { ordinaryInput 100 with hitdelay := false } 1 ordinaryConf (fun _ => 0)
        50 50 (sharedStore expiredThenLive) = some r ∧
      ¬ ∀ key, KeepsLive (Value.expired 50) ordinaryConf.max_redis_list.toNat (r.store key)
        (Cmd.execAll r.store (redisLtrimValue { ordinaryInput 100 with hitdelay := false }
          r.redisvalue ordinaryConf 2 50) key) := by
  have hrun : (compareAndInsert { ordinaryInput 100 with hitdelay := false } 1 ordinaryConf
      (fun _ => 0) 50 50 (sharedStore expiredThenLive)).map (fun r =>
        (r.store sharedKey, Cmd.execAll r.store (redisLtrimValue
          { ordinaryInput 100 with hitdelay := false } r.redisvalue ordinaryConf 2 50) sharedKey)) =
      some (expiredThenLive ++ [ownValue (ordinaryInput 100) 1 50],
        [ownValue (ordinaryInput 100) 1 50]) := by decide +kernel
  obtain ⟨r, hr, hlists⟩ := Option.map_eq_some_iff.mp hrun
  refine ⟨r, hr, fun hkeep => ?_⟩
  have hshared := (hkeep sharedKey).keeps 1 { similarValue with timestamp := 90 }
  rw [(Prod.mk.inj hlists).1, (Prod.mk.inj hlists).2] at hshared
  exact absurd (hshared (by decide) (by decide) (by decide)) (by decide)

/-- A request that only compares leaves the length and keeps the live value. -/
theorem trim_keeps_live_iff_compare :
    ∃ r, compareAndInsert { permanentInput with hitdelay := false } 1 ordinaryConf (fun _ => 0)
        50 50 (sharedStore expiredThenLive) = some r ∧
      ∀ key, KeepsLive (Value.expired 50) ordinaryConf.max_redis_list.toNat (r.store key)
        (Cmd.execAll r.store (redisLtrimValue { permanentInput with hitdelay := false }
          r.redisvalue ordinaryConf 2 50) key) := by
  obtain ⟨r, hr⟩ := Option.isSome_iff_exists.mp (by decide +kernel :
    (compareAndInsert { permanentInput with hitdelay := false } 1 ordinaryConf (fun _ => 0)
      50 50 (sharedStore expiredThenLive)).isSome = true)
  refine ⟨r, hr, (trim_keeps_live_iff hr rfl (.inl rfl) 2 50).mpr fun key _ => ?_⟩
  by_cases hk : key = sharedKey
  · subst hk
    intro _ _ _
    decide +kernel
  · intro _ hcheck _
    rw [sharedStore, if_neg hk] at hcheck
    exact absurd hcheck (by decide)

end CommonTools.Simhash
