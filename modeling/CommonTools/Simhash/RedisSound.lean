import Mathlib.Data.List.FinRange
import CommonTools.Lib.PartialList
import CommonTools.Simhash.Redis

/-! # The store after a request

`redisDelValue` takes the hits out of the lists of the request's keys and
`redisInsertValue` puts them back at the end. Both visit the hits of a key by
distance, so what they see of one list is a rearrangement of its hits. -/
namespace CommonTools.Simhash
open CommonTools.Lib

theorem requestKeys_nodup (input : SimInput) (sign : BitVec 64) :
    (requestKeys input sign).Nodup := makeRedisKey_nodup _ _ _

/-! ## The lists that were read -/

/-- The request has read the lists of `keys` from `store`. -/
def Read (store : Store) (keys : List Bytes) (redisvalue : List RPush) : Prop :=
  List.Forall₂ (fun key e => e.key = key ∧ e.value = store key) keys redisvalue

theorem redisGetValue_read {input : SimInput} {keys : List Bytes} {pconf : Proconf}
    {store fetched : Store} {redisvalue : List RPush}
    (h : redisGetValue input keys pconf store = some (redisvalue, fetched))
    (hs : input.strategy ≠ .APPEND) : Read store keys redisvalue ∧ fetched = store := by
  rw [redisGetValue, if_neg hs] at h
  obtain ⟨read, hread, h⟩ := Option.bind_eq_some_iff.mp h
  obtain ⟨rfl, rfl⟩ := Prod.mk.inj (Option.some.inj h)
  refine ⟨(forall₂_of_mapM hread).imp fun {key e} he => ?_, rfl⟩
  split at he
  · obtain rfl := Option.some.inj he
    exact ⟨rfl, keepRange_all _⟩
  · cases he

theorem Read.entries {store : Store} {keys : List Bytes} {redisvalue : List RPush}
    (h : Read store keys redisvalue) :
    entries redisvalue = keys.flatMap fun key => (store key).map (Simval.mk key) := by
  induction h with
  | nil => rfl
  | cons he _ ih =>
    rw [Simhash.entries, List.flatMap_cons, ← Simhash.entries, ih, List.flatMap_cons, he.1, he.2]

/-- Of all entries those under one key are its list. -/
theorem entries_under {store : Store} {keys : List Bytes} (hnd : keys.Nodup) (k : Bytes) :
    ((keys.flatMap fun key => (store key).map (Simval.mk key)).filter fun sv => sv.key = k).map
      Simval.val = if k ∈ keys then store k else [] := by
  induction keys with
  | nil => rfl
  | cons key keys ih =>
    obtain ⟨hnot, hnd⟩ := List.nodup_cons.mp hnd
    rw [List.flatMap_cons, List.filter_append, List.map_append, ih hnd, List.filter_map,
      List.map_map]
    by_cases hk : key = k
    · subst hk
      simp [Function.comp_def, hnot]
    · simp [Function.comp_def, hk, Ne.symm hk]

/-! ## The hits of one key -/

theorem flatMap_classes_perm {α : Type} (p : α → Bool) (f : α → Nat) (l : List α) :
    ∀ n, ((List.range n).flatMap fun d => l.filter fun x => p x && f x == d).Perm
      (l.filter fun x => p x && decide (f x < n))
  | 0 => by simp
  | n + 1 => by
    rw [List.range_succ, List.flatMap_append, List.flatMap_singleton]
    refine ((flatMap_classes_perm p f l n).append_right _).trans ?_
    have hsplit := List.filter_append_perm (fun x => decide (f x < n))
      (l.filter fun x => p x && decide (f x < n + 1))
    rw [List.filter_filter, List.filter_filter] at hsplit
    have hlow : (fun x => decide (f x < n) && (p x && decide (f x < n + 1))) =
        fun x => p x && decide (f x < n) := by
      funext x
      by_cases hlt : f x < n
      · simp [hlt, Nat.lt_succ_of_lt hlt]
      · simp [hlt]
    have hhigh : (fun x => !decide (f x < n) && (p x && decide (f x < n + 1))) =
        fun x => p x && f x == n := by
      funext x
      rcases Nat.lt_trichotomy (f x) n with hlt | heq | hgt
      · simp [hlt, Nat.ne_of_lt hlt]
      · simp [heq]
      · simp [Nat.not_le.mpr hgt, Nat.ne_of_gt hgt]
    rwa [hlow, hhigh] at hsplit

/-- The reported hits in the order of their distance. -/
def reportedHits (output : SimOutput) : List Simval :=
  (List.finRange DISTANCE).flatMap output.simdis

section
variable {sign : BitVec 64} {input : SimInput} {now : BitVec 32} {redisvalue : List RPush}
variable {output : SimOutput}

theorem Reported.guard (h : Reported sign input now redisvalue output) {β : Type}
    (g : Simval → β) (d : Fin DISTANCE) :
    (if output.counts d.castSucc ≤ 0 then [] else (output.simdis d).map g) =
      (output.simdis d).map g := by
  split
  · rename_i hle
    rw [h.counts d] at hle
    have hnil : output.simdis d = [] := List.length_eq_zero_iff.mp (by omega)
    rw [hnil, List.map_nil]
  · rfl

/-- The reported hits under a key are the hits of its list, rearranged. -/
theorem Reported.hits_perm (h : Reported sign input now redisvalue output) {store : Store}
    {keys : List Bytes} (hread : Read store keys redisvalue) (hnd : keys.Nodup) (k : Bytes) :
    (((reportedHits output).filter fun sv => sv.key = k).map Simval.val).Perm
      ((if k ∈ keys then store k else []).filter (isHit sign input now)) := by
  have hclasses : ((reportedHits output).filter fun sv => sv.key = k).map Simval.val =
      (List.range DISTANCE).flatMap fun d => (if k ∈ keys then store k else []).filter fun v =>
        isHit sign input now v && bitDist v.simid sign == d := by
    rw [← entries_under hnd k, ← hread.entries, reportedHits, List.filter_flatMap,
      List.map_flatMap, ← List.map_coe_finRange_eq_range, List.flatMap_map]
    refine List.flatMap_congr fun d _ => ?_
    rw [h.simdis d, hitsAt, List.filter_comm, List.filter_map]
    rfl
  rw [hclasses]
  refine (flatMap_classes_perm _ _ _ _).trans (.of_eq (List.filter_congr fun v hv => ?_))
  cases hit : isHit sign input now v with
  | false => rfl
  | true =>
    have hin : k ∈ keys := by
      by_contra hno
      rw [if_neg hno] at hv
      exact List.not_mem_nil hv
    rw [if_pos hin] at hv
    have hentry : ⟨k, v⟩ ∈ Simhash.entries redisvalue := by
      rw [hread.entries]
      exact List.mem_flatMap.mpr ⟨k, hin, List.mem_map.mpr ⟨v, hv, rfl⟩⟩
    simpa using h.near ⟨k, v⟩ hentry hit

/-! ## `redis_del_value` -/

/-- The deletion takes the reported hits out by value, whatever the lists hold
by then. -/
theorem Reported.del_store (h : Reported sign input now redisvalue output)
    (hs : input.strategy ≠ .APPEND) (hd : input.hitdelay = true) (store : Store) (k : Bytes) :
    Cmd.execAll store (redisDelValue input output) k =
      (store k).diff (((reportedHits output).filter fun sv => sv.key = k).map Simval.val) := by
  have hcmds : redisDelValue input output =
      ((reportedHits output).map fun sv => (sv.key, sv.val)).map fun p => .lrem p.1 1 p.2 := by
    rw [redisDelValue, if_neg (by simp [hs, hd]), reportedHits, List.map_map, List.map_flatMap]
    exact List.flatMap_congr fun d _ => h.guard _ d
  have hvals : (((reportedHits output).map fun sv => (sv.key, sv.val)).filter (·.1 = k)).map
      Prod.snd = ((reportedHits output).filter fun sv => sv.key = k).map Simval.val := by
    rw [List.filter_map, List.map_map]
    rfl
  rw [hcmds, Cmd.execAll_lrem_one, hvals]

/-- The deletion takes exactly the hits out of the lists that were read. -/
theorem Reported.del_apply (h : Reported sign input now redisvalue output) {store : Store}
    {keys : List Bytes} (hread : Read store keys redisvalue) (hnd : keys.Nodup)
    (hs : input.strategy ≠ .APPEND) (hd : input.hitdelay = true) (k : Bytes) :
    Cmd.execAll store (redisDelValue input output) k =
      if k ∈ keys then (store k).filter (!isHit sign input now ·) else store k := by
  rw [h.del_store hs hd, (h.hits_perm hread hnd k).diff_left]
  split
  · exact diff_filter _ _
  · simp

/-- Without hits, without a delay or for new documents only, nothing is
deleted. -/
theorem redisDelValue_eq_nil
    (h : input.strategy = .APPEND ∨ input.hitdelay = false ∨ ∀ d, output.simdis d = []) :
    redisDelValue input output = [] := by
  rw [redisDelValue]
  split
  · rfl
  · rename_i hno
    rw [not_or] at hno
    have hnil := (h.resolve_left hno.1).resolve_left hno.2
    rw [List.flatMap_eq_nil_iff]
    intro d _
    rw [hnil d]
    split <;> rfl

/-! ## `redis_insert_value` -/

/-- The hits of a key go back with a new time. -/
theorem Reported.hitValues_perm (h : Reported sign input now redisvalue output) {store : Store}
    {keys : List Bytes} (hread : Read store keys redisvalue) (hnd : keys.Nodup)
    (timestamp : BitVec 32) {k : Bytes} (hk : k ∈ keys) :
    (hitValues output timestamp k).Perm
      (((store k).filter (isHit sign input now)).map fun v => { v with timestamp }) := by
  have hperm := (h.hits_perm hread hnd k).map fun v : Value => { v with timestamp }
  rw [if_pos hk] at hperm
  refine .trans (.of_eq ?_) hperm
  have hlast : output.counts (Fin.last DISTANCE) ≤ 0 := Int.le_of_eq h.simrate
  rw [hitValues, List.finRange_succ_last, List.flatMap_append, List.flatMap_singleton,
    if_pos hlast, List.append_nil, List.flatMap_map, reportedHits, List.filter_flatMap,
    List.map_flatMap, List.map_flatMap]
  refine List.flatMap_congr fun d _ => ?_
  have hcount := h.counts d
  rw [List.map_map]
  split
  · rename_i hle
    have hnil : output.simdis d = [] := List.length_eq_zero_iff.mp (by omega)
    rw [hnil]; rfl
  · have hlt : (d.castSucc : Fin (DISTANCE + 1)).val < DISTANCE := d.isLt
    have hfilter : (output.simdis d).filter (fun sv => decide (k = sv.key)) =
        (output.simdis d).filter fun sv => decide (sv.key = k) :=
      List.filter_congr fun sv _ => decide_eq_decide.mpr eq_comm
    rw [dif_pos hlt]
    exact congrArg (List.map _) hfilter

/-- Whether the request ends with an `EXPIRE` that deletes its keys. -/
def expiresKeys (input : SimInput) (pconf : Proconf) : Prop :=
  (input.strategy = .APPEND ∨ input.strategy = .APPCOM) ∧
    redisKeyIsPermanent input.key pconf = false ∧ input.expiretime.toInt ≤ 0

instance (input : SimInput) (pconf : Proconf) : Decidable (expiresKeys input pconf) := by
  unfold expiresKeys; infer_instance

/-- The insertion appends to the list of every key of the request. -/
theorem insert_apply {keys : List Bytes} (hnd : keys.Nodup) {delres : Int} {existSameDoc : Bool}
    {pconf : Proconf} {timestamp : BitVec 32} (store : Store)
    (hgo : ¬ (redisKeyIsPermanent input.key pconf ∧ existSameDoc)) (k : Bytes) :
    Cmd.execAll store
      (redisInsertValue keys sign input output delres existSameDoc pconf timestamp).2 k =
      if k ∈ keys then
        if expiresKeys input pconf then []
        else store k ++ insertValues sign input output pconf timestamp k
      else store k := by
  have hnew : insertValues sign input output pconf timestamp k = [] → ¬ expiresKeys input pconf := by
    intro hnil hexp
    have hcomp : input.strategy ≠ .COMPARE := by
      rcases hexp.1 with h | h <;> rw [h] <;> decide
    simp only [insertValues, if_neg hcomp] at hnil
    exact absurd (List.append_eq_nil_iff.mp hnil).2 (by simp)
  rw [redisInsertValue]
  simp only [if_neg hgo]
  split
  · rename_i hempty
    by_cases hk : k ∈ keys
    · have hvals : insertValues sign input output pconf timestamp k = [] := by
        rcases hempty with hempty | hempty
        · rw [List.length_map] at hempty
          rw [List.length_eq_zero_iff.mp hempty] at hk
          exact absurd hk List.not_mem_nil
        · have hall := List.flatMap_eq_nil_iff.mp (List.length_eq_zero_iff.mp hempty)
          exact hall (k, _) (List.mem_map.mpr ⟨k, hk, rfl⟩)
      rw [if_pos hk, if_neg (hnew hvals), hvals, List.append_nil]
      rfl
    · rw [if_neg hk]; rfl
  · rw [Cmd.execAll_append, List.map_map]
    have hpush := Cmd.execAll_map_nodup hnd
      (fun key => .rpush key (insertValues sign input output pconf timestamp key)) (fun _ => rfl)
      store k
    by_cases hexp : (input.strategy = .APPEND ∨ input.strategy = .APPCOM) ∧
        ¬ redisKeyIsPermanent input.key pconf
    · rw [if_pos hexp, redisExpireKey, Cmd.execAll_map_nodup hnd _ (fun _ => rfl)]
      by_cases hk : k ∈ keys
      · rw [if_pos hk, if_pos hk]
        rw [if_pos hk] at hpush
        have hiff : expiresKeys input pconf ↔ input.expiretime.toInt ≤ 0 := by
          simp [expiresKeys, hexp.1, hexp.2]
        simp only [hiff]
        exact congrArg (fun l => if input.expiretime.toInt ≤ 0 then [] else l) hpush
      · rw [if_neg hk, if_neg hk]
        rw [if_neg hk] at hpush
        exact hpush
    · have hno : ¬ expiresKeys input pconf := fun he => hexp ⟨he.1, by simp [he.2.1]⟩
      rw [if_neg hexp]
      by_cases hk : k ∈ keys
      · rw [if_pos hk, if_neg hno]
        rw [if_pos hk] at hpush
        exact hpush
      · rw [if_neg hk]
        rw [if_neg hk] at hpush
        exact hpush

end

end CommonTools.Simhash
