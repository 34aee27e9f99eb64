import Mathlib.Algebra.Order.Group.Multiset
import Mathlib.Data.Fintype.BigOperators
import CommonTools.Lib.Runs
import CommonTools.Simhash.Request

/-! # Compare requests at the same time

Each request reads its lists, later deletes the hits that it read, and later
still pushes them again with a new time. The server takes one batch at a time,
and the batches of different requests may fall between each other. A request
pushes what it has read, whether its deletion still finds it or not. -/
namespace CommonTools.Simhash
open CommonTools.Lib

/-- A request that compares full texts, delays its hits and has no permanent
key, with the times of its comparison and its insertion. -/
structure CompareRequest where
  input : SimInput
  sign : BitVec 64
  pconf : Proconf
  junk : Fin (DISTANCE + 1) → Int
  compareTime : BitVec 32
  insertTime : BitVec 32
  strategy : input.strategy = .COMPARE
  pattern : input.pattern = .FULLTEXT
  hitdelay : input.hitdelay = true
  permanent : redisKeyIsPermanent input.key pconf = false

def CompareRequest.rediskey (q : CompareRequest) : List Bytes := requestKeys q.input q.sign

/-- Where a request is: before `LRANGE`, before `LREM`, before `RPUSH`, or
through. -/
inductive Phase where
  | start
  | read (redisvalue : List RPush)
  | deleted (redisvalue : List RPush) (output : SimOutput) (existSameDoc : Bool)
  | done

structure Shared (n : Nat) where
  store : Store
  phase : Fin n → Phase

/-- All requests before their first command. -/
def Shared.init {n : Nat} (store : Store) : Shared n := ⟨store, fun _ => .start⟩

/-- The next batch of request `i`. -/
def stepRequest {n : Nat} (requests : Fin n → CompareRequest) (s : Shared n) (i : Fin n) :
    Option (Shared n) :=
  let q := requests i
  match s.phase i with
  | .start => do
    let (redisvalue, store) ← redisGetValue q.input q.rediskey q.pconf s.store
    some ⟨store, Function.update s.phase i (.read redisvalue)⟩
  | .read redisvalue => do
    let (output, existSameDoc) ← getSimilarDoc redisvalue q.sign (.init q.junk) q.input false
      q.compareTime
    some ⟨Cmd.execAll s.store (redisDelValue q.input output),
      Function.update s.phase i (.deleted redisvalue output existSameDoc)⟩
  | .deleted _ output existSameDoc =>
    some ⟨Cmd.execAll s.store (redisInsertValue q.rediskey q.sign q.input output 0 existSameDoc
        q.pconf q.insertTime).2,
      Function.update s.phase i .done⟩
  | .done => none

/-- With nothing in between the three batches are the request of
`compareAndInsert`. -/
theorem stepRequest_alone {n : Nat} {requests : Fin n → CompareRequest} {i : Fin n} {store : Store}
    {phase : Fin n → Phase} {q : CompareRequest} (hq : requests i = q) (hp : phase i = .start) :
    [i, i, i].foldlM (stepRequest requests) ⟨store, phase⟩ =
      (compareAndInsert q.input q.sign q.pconf q.junk q.compareTime q.insertTime store).map
        fun r => ⟨r.store, Function.update phase i .done⟩ := by
  subst hq
  have hstart : stepRequest requests ⟨store, phase⟩ i =
      (redisGetValue (requests i).input (requests i).rediskey (requests i).pconf store).bind
        fun r => some ⟨r.2, Function.update phase i (.read r.1)⟩ := by
    simp only [stepRequest, hp]
    rfl
  rw [List.foldlM_cons, hstart, compareAndInsert]
  simp only [Option.bind_eq_bind, Option.bind_assoc, Option.map_bind]
  refine congrArg _ ?_
  funext r
  obtain ⟨redisvalue, fetched⟩ := r
  simp only [Option.bind_some, List.foldlM_cons, List.foldlM_nil, stepRequest,
    Function.update_self, Option.bind_eq_bind, Option.bind_assoc, Function.comp_apply,
    Option.map_bind]
  refine congrArg _ ?_
  funext r
  simp only [Function.update_idem, Option.map_some]
  rfl

/-! ## What a request owes -/

/-- The identifiers of the values, as often as they occur. -/
def pairs (values : List Value) : Multiset (BitVec 64 × BitVec 64) :=
  (values : Multiset Value).map fun v => (v.simid, v.docid)

theorem pairs_append (a b : List Value) : pairs (a ++ b) = pairs a + pairs b := by
  rw [pairs, ← Multiset.coe_add, Multiset.map_add]
  rfl

theorem pairs_perm {a b : List Value} (h : a.Perm b) : pairs a = pairs b := by
  rw [pairs, pairs, Multiset.coe_eq_coe.mpr h]

theorem pairs_timestamp (values : List Value) (timestamp : BitVec 32) :
    pairs (values.map fun v => { v with timestamp }) = pairs values := by
  rw [pairs, pairs, ← Multiset.map_coe, Multiset.map_map]
  rfl

/-- Taking values out and putting them back loses nothing. -/
theorem pairs_le_diff (list out : List Value) :
    pairs list ≤ pairs (list.diff out) + pairs out := by
  rw [pairs, pairs, pairs, ← Multiset.coe_sub, ← Multiset.map_add]
  exact Multiset.map_le_map le_tsub_add

/-- It gains nothing either exactly when all the values were there. -/
theorem pairs_diff_eq_iff (list out : List Value) :
    pairs (list.diff out) + pairs out = pairs list ↔ ∀ v, out.count v ≤ list.count v := by
  simp only [← Multiset.coe_count, ← Multiset.le_iff_count]
  rw [pairs, pairs, pairs, ← Multiset.coe_sub, ← Multiset.map_add]
  constructor
  · intro h
    have hcard := congrArg Multiset.card h
    rw [Multiset.card_map, Multiset.card_map] at hcard
    have heq : (list : Multiset Value) = list - out + out :=
      Multiset.eq_of_le_of_card_le le_tsub_add (le_of_eq hcard)
    rw [heq]
    exact Multiset.le_add_left _ _
  · intro h
    rw [tsub_add_cancel_of_le h]

/-- What of the lists that the request has read is a hit under the key. -/
def CompareRequest.hits (q : CompareRequest) (redisvalue : List RPush) (k : Bytes) : List Value :=
  (((entries redisvalue).filter fun sv => sv.key = k).map Simval.val).filter
    (isHit q.sign q.input q.compareTime)

/-- What the request still has to push. -/
def owed (q : CompareRequest) : Phase → Bytes → Multiset (BitVec 64 × BitVec 64)
  | .start, _ => 0
  | .read _, _ => 0
  | .deleted redisvalue _ _, k => pairs (q.hits redisvalue k)
  | .done, _ => 0

def account {n : Nat} (requests : Fin n → CompareRequest) (s : Shared n) (k : Bytes) :
    Multiset (BitVec 64 × BitVec 64) :=
  pairs (s.store k) + ∑ i, owed (requests i) (s.phase i) k

/-- The account when request `i` changes its phase to `p`. -/
theorem account_update {n : Nat} (requests : Fin n → CompareRequest) (store : Store)
    (phase : Fin n → Phase) (i : Fin n) (p : Phase) (k : Bytes) :
    account requests ⟨store, Function.update phase i p⟩ k =
      pairs (store k) + (owed (requests i) p k +
        ∑ j ∈ Finset.univ.erase i, owed (requests j) (phase j) k) := by
  have hothers : ∑ j ∈ Finset.univ.erase i, owed (requests j) (Function.update phase i p j) k =
      ∑ j ∈ Finset.univ.erase i, owed (requests j) (phase j) k :=
    Finset.sum_congr rfl fun j hj => by rw [Function.update_of_ne (Finset.ne_of_mem_erase hj)]
  rw [account, ← Finset.add_sum_erase _ _ (Finset.mem_univ i)]
  simp only [Function.update_self, hothers]

theorem account_eq {n : Nat} (requests : Fin n → CompareRequest) (s : Shared n) (i : Fin n)
    (k : Bytes) :
    account requests s k = pairs (s.store k) + (owed (requests i) (s.phase i) k +
      ∑ j ∈ Finset.univ.erase i, owed (requests j) (s.phase j) k) := by
  have h := account_update requests s.store s.phase i (s.phase i) k
  rwa [Function.update_eq_self] at h

/-! ## One batch -/

/-- What a phase remembers comes from the store. -/
def Phase.Fits (q : CompareRequest) : Phase → Prop
  | .start => True
  | .read redisvalue => ∃ old, Read old q.rediskey redisvalue
  | .deleted redisvalue output _ =>
    (∃ old, Read old q.rediskey redisvalue) ∧
      Reported q.sign q.input q.compareTime redisvalue output
  | .done => True

/-- Each hit of request `i` that is about to be deleted is in its list as often
as it was read. -/
def AllFound {n : Nat} (requests : Fin n → CompareRequest) (s : Shared n) (i : Fin n) : Prop :=
  ∀ redisvalue, s.phase i = .read redisvalue →
    ∀ k v, ((requests i).hits redisvalue k).count v ≤ (s.store k).count v

section
variable {q : CompareRequest} {old : Store} {redisvalue : List RPush} {output : SimOutput}

theorem CompareRequest.not_append (q : CompareRequest) : q.input.strategy ≠ .APPEND := by
  rw [q.strategy]
  decide

/-- The hits as they are in the store that was read. -/
theorem CompareRequest.hits_eq (hread : Read old q.rediskey redisvalue) (k : Bytes) :
    q.hits redisvalue k =
      (if k ∈ q.rediskey then old k else []).filter (isHit q.sign q.input q.compareTime) := by
  rw [CompareRequest.hits, hread.entries]
  exact congrArg _ (entries_under (requestKeys_nodup _ _) k)

/-- The deletion takes the hits out by value. -/
theorem CompareRequest.del_apply (hread : Read old q.rediskey redisvalue)
    (hrep : Reported q.sign q.input q.compareTime redisvalue output) (store : Store) (k : Bytes) :
    Cmd.execAll store (redisDelValue q.input output) k =
      (store k).diff (q.hits redisvalue k) := by
  rw [hrep.del_store q.not_append q.hitdelay, q.hits_eq hread]
  exact (hrep.hits_perm hread (requestKeys_nodup _ _) k).diff_left _

/-- The insertion puts the identifiers of the hits back. -/
theorem CompareRequest.insert_pairs (hread : Read old q.rediskey redisvalue)
    (hrep : Reported q.sign q.input q.compareTime redisvalue output) (existSameDoc : Bool)
    (store : Store) (k : Bytes) :
    pairs (Cmd.execAll store (redisInsertValue q.rediskey q.sign q.input output 0 existSameDoc
      q.pconf q.insertTime).2 k) = pairs (store k) + pairs (q.hits redisvalue k) := by
  have hgo : ¬ (redisKeyIsPermanent q.input.key q.pconf ∧ existSameDoc) := by simp [q.permanent]
  have hexp : ¬ expiresKeys q.input q.pconf := by simp [expiresKeys, q.strategy]
  have hins := @insert_apply q.sign q.input output _ (requestKeys_nodup q.input q.sign) 0 _ q.pconf
    q.insertTime store hgo k
  rw [← CompareRequest.rediskey] at hins
  rw [hins, q.hits_eq hread]
  by_cases hk : k ∈ q.rediskey
  · have hvals : insertValues q.sign q.input output q.pconf q.insertTime k =
        hitValues output (q.insertTime + q.pconf.fulltext_expire_time) k := by
      simp [insertValues, q.strategy, q.pattern, q.hitdelay, q.permanent, hitExpireTime]
    rw [if_pos hk, if_pos hk, if_neg hexp, hvals, pairs_append,
      pairs_perm (hrep.hitValues_perm hread (requestKeys_nodup _ _) _ hk), pairs_timestamp]
  · rw [if_neg hk, if_neg hk]
    exact (add_zero _).symm

end

section
variable {n : Nat} {requests : Fin n → CompareRequest} {s s' : Shared n} {i : Fin n}

/-- What one batch does: it reads, deletes what its request has read, or pushes
what its request has deleted. -/
theorem stepRequest_cases (h : stepRequest requests s i = some s') :
    (∃ redisvalue, s.phase i = .start ∧ Read s.store (requests i).rediskey redisvalue ∧
      s' = ⟨s.store, Function.update s.phase i (.read redisvalue)⟩) ∨
    (∃ redisvalue output existSameDoc, s.phase i = .read redisvalue ∧
      Reported (requests i).sign (requests i).input (requests i).compareTime redisvalue output ∧
      s' = ⟨Cmd.execAll s.store (redisDelValue (requests i).input output),
        Function.update s.phase i (.deleted redisvalue output existSameDoc)⟩) ∨
    (∃ redisvalue output existSameDoc, s.phase i = .deleted redisvalue output existSameDoc ∧
      s' = ⟨Cmd.execAll s.store (redisInsertValue (requests i).rediskey (requests i).sign
          (requests i).input output 0 existSameDoc (requests i).pconf (requests i).insertTime).2,
        Function.update s.phase i .done⟩) := by
  cases hp : s.phase i with
  | start =>
    simp only [stepRequest, hp] at h
    obtain ⟨⟨redisvalue, store⟩, hget, h⟩ := Option.bind_eq_some_iff.mp h
    obtain ⟨hread, rfl⟩ := redisGetValue_read hget (requests i).not_append
    exact .inl ⟨redisvalue, rfl, hread, (Option.some.inj h).symm⟩
  | read redisvalue =>
    simp only [stepRequest, hp] at h
    obtain ⟨⟨output, existSameDoc⟩, hsim, h⟩ := Option.bind_eq_some_iff.mp h
    have hrep := (getSimilarDoc_fulltext hsim (requests i).not_append (requests i).pattern).1
    exact .inr (.inl ⟨redisvalue, output, existSameDoc, rfl, hrep, (Option.some.inj h).symm⟩)
  | deleted redisvalue output existSameDoc =>
    simp only [stepRequest, hp] at h
    exact .inr (.inr ⟨redisvalue, output, existSameDoc, rfl, (Option.some.inj h).symm⟩)
  | done =>
    simp only [stepRequest, hp] at h
    cases h

theorem stepRequest_others (h : stepRequest requests s i = some s') {j : Fin n} (hj : j ≠ i) :
    s'.phase j = s.phase j := by
  obtain ⟨_, -, -, rfl⟩ | ⟨_, _, _, -, -, rfl⟩ | ⟨_, _, _, -, rfl⟩ := stepRequest_cases h
  all_goals exact Function.update_of_ne hj ..

theorem stepRequest_fits (hfits : ∀ j, (s.phase j).Fits (requests j))
    (h : stepRequest requests s i = some s') : ∀ j, (s'.phase j).Fits (requests j) := by
  have hupdate : ∀ {p : Phase}, p.Fits (requests i) →
      ∀ j, (Function.update s.phase i p j).Fits (requests j) := fun {p} hp j => by
    by_cases hj : j = i
    · subst hj
      rwa [Function.update_self]
    · rw [Function.update_of_ne hj]
      exact hfits j
  obtain ⟨redisvalue, -, hread, rfl⟩ | ⟨redisvalue, output, e, hp, hrep, rfl⟩ |
    ⟨redisvalue, output, e, hp, rfl⟩ := stepRequest_cases h
  · exact hupdate ⟨s.store, hread⟩
  · have hfit := hfits i
    rw [hp] at hfit
    exact hupdate ⟨hfit, hrep⟩
  · exact hupdate trivial

/-- A batch keeps the account, but for a deletion that misses a hit. -/
theorem stepRequest_account (hfits : ∀ j, (s.phase j).Fits (requests j))
    (h : stepRequest requests s i = some s') :
    account requests s ≤ account requests s' ∧
      (account requests s' = account requests s ↔ AllFound requests s i) := by
  have hfit := hfits i
  obtain ⟨redisvalue, hp, -, rfl⟩ | ⟨redisvalue, output, e, hp, hrep, rfl⟩ |
    ⟨redisvalue, output, e, hp, rfl⟩ := stepRequest_cases h
  · have hsame : account requests ⟨s.store, Function.update s.phase i (.read redisvalue)⟩ =
        account requests s := funext fun k => by
      rw [account_update, account_eq requests s i, hp]
      rfl
    refine ⟨le_of_eq hsame.symm, fun _ redisvalue' hp' => ?_, fun _ => hsame⟩
    rw [hp] at hp'
    cases hp'
  · rw [hp] at hfit
    obtain ⟨old, hread⟩ := hfit
    -- what the other requests owe stands on both sides
    have hbefore : ∀ k, account requests s k = pairs (s.store k) +
        ∑ j ∈ Finset.univ.erase i, owed (requests j) (s.phase j) k := fun k => by
      rw [account_eq requests s i, hp, owed, zero_add]
    have hafter : ∀ k, account requests ⟨Cmd.execAll s.store (redisDelValue (requests i).input
        output), Function.update s.phase i (.deleted redisvalue output e)⟩ k =
        pairs ((s.store k).diff ((requests i).hits redisvalue k)) +
          pairs ((requests i).hits redisvalue k) +
        ∑ j ∈ Finset.univ.erase i, owed (requests j) (s.phase j) k := fun k => by
      rw [account_update, (requests i).del_apply hread hrep, owed, add_assoc]
    refine ⟨fun k => ?_, ?_⟩
    · rw [hbefore, hafter]
      exact add_le_add_left (pairs_le_diff _ _) _
    · rw [funext_iff]
      simp only [hbefore, hafter, add_left_inj, pairs_diff_eq_iff]
      constructor
      · intro hfound redisvalue' hp'
        rw [hp] at hp'
        obtain rfl := Phase.read.inj hp'
        exact hfound
      · intro hfound
        exact hfound redisvalue hp
  · rw [hp] at hfit
    obtain ⟨⟨old, hread⟩, hrep⟩ := hfit
    have hsame : account requests ⟨Cmd.execAll s.store (redisInsertValue (requests i).rediskey
        (requests i).sign (requests i).input output 0 e (requests i).pconf
        (requests i).insertTime).2, Function.update s.phase i .done⟩ = account requests s :=
      funext fun k => by
        rw [account_update, account_eq requests s i, hp,
          (requests i).insert_pairs hread hrep, owed, owed, zero_add, add_assoc]
    refine ⟨le_of_eq hsame.symm, fun _ redisvalue' hp' => ?_, fun _ => hsame⟩
    rw [hp] at hp'
    cases hp'

end

/-! ## Every interleaving -/

section
variable {n : Nat} {requests : Fin n → CompareRequest}

/-- A deletion right after its own reading finds everything. -/
theorem allFound_of_read {s : Shared n} {i : Fin n} {redisvalue : List RPush}
    (hread : Read s.store (requests i).rediskey redisvalue) (hp : s.phase i = .read redisvalue) :
    AllFound requests s i := by
  intro redisvalue' hp' k v
  rw [hp] at hp'
  obtain rfl := Phase.read.inj hp'
  rw [(requests i).hits_eq hread]
  refine (List.filter_sublist.count_le v).trans ?_
  split
  · exact le_refl _
  · exact Nat.zero_le _

/-- Requests that run one after another miss nothing. -/
theorem serial_found :
    ∀ {l : List (Fin n)} {s s' : Shared n}, (∀ j, s.phase j = .start ∨ s.phase j = .done) →
      (l.flatMap fun i => [i, i, i]).foldlM (stepRequest requests) s = some s' →
      Throughout (stepRequest requests) (AllFound requests) s (l.flatMap fun i => [i, i, i]) := by
  intro l
  induction l with
  | nil =>
    intro s _ _ _
    exact .nil s
  | cons i l ih =>
    intro s s' hidle h
    obtain ⟨s₁, hread, h⟩ := foldlM_cons_some.mp h
    obtain ⟨s₂, hdel, h⟩ := foldlM_cons_some.mp h
    obtain ⟨s₃, hins, h⟩ := foldlM_cons_some.mp h
    have hstart : s.phase i = .start := by
      refine (hidle i).resolve_right fun hdone => ?_
      simp only [stepRequest, hdone] at hread
      cases hread
    have hfirst : AllFound requests s i := fun redisvalue hp => by
      rw [hstart] at hp
      cases hp
    -- each of the three steps is the one that its phase allows
    have hmid : ∃ redisvalue, Read s₁.store (requests i).rediskey redisvalue ∧
        s₁.phase i = .read redisvalue := by
      obtain ⟨redisvalue, -, hgot, rfl⟩ | ⟨_, _, _, hp, -⟩ | ⟨_, _, _, hp, -⟩ :=
        stepRequest_cases hread
      · exact ⟨redisvalue, hgot, Function.update_self ..⟩
      all_goals
        rw [hstart] at hp
        cases hp
    obtain ⟨redisvalue, hgot, hp₁⟩ := hmid
    have hp₂ : ∃ output e, s₂.phase i = .deleted redisvalue output e := by
      obtain ⟨_, hp, -⟩ | ⟨_, output, e, hp, -, rfl⟩ | ⟨_, _, _, hp, -⟩ := stepRequest_cases hdel
      all_goals
        rw [hp₁] at hp
        cases hp
      exact ⟨output, e, Function.update_self ..⟩
    obtain ⟨output, e, hp₂⟩ := hp₂
    have hp₃ : s₃.phase i = .done := by
      obtain ⟨_, hp, -⟩ | ⟨_, _, _, hp, -⟩ | ⟨_, _, _, -, rfl⟩ := stepRequest_cases hins
      · rw [hp₂] at hp
        cases hp
      · rw [hp₂] at hp
        cases hp
      · exact Function.update_self ..
    have hthird : AllFound requests s₂ i := fun redisvalue' hp => by
      rw [hp₂] at hp
      cases hp
    rw [List.flatMap_cons]
    refine (throughout_cons hread).mpr ⟨hfirst, (throughout_cons hdel).mpr
      ⟨allFound_of_read hgot hp₁, (throughout_cons hins).mpr
        ⟨hthird, ih (fun j => ?_) h⟩⟩⟩
    by_cases hj : j = i
    · exact .inr (hj ▸ hp₃)
    · rw [stepRequest_others hins hj, stepRequest_others hdel hj, stepRequest_others hread hj]
      exact hidle j

/-- When no request owes anything the account is the store. -/
theorem account_settled {s : Shared n} (h : ∀ i, owed (requests i) (s.phase i) = fun _ => 0)
    (k : Bytes) : account requests s k = pairs (s.store k) := by
  rw [account, Finset.sum_eq_zero fun i _ => congrFun (h i) k, add_zero]

/-- **Requests that interleave conserve the store exactly when none of them
misses a hit.** Whatever the order of the batches, every key ends with the pairs
of identifiers that it had if and only if every deletion finds all that its
request has read. -/
theorem interleaved_conserve_iff {store : Store} {order : List (Fin n)} {s : Shared n}
    (hrun : order.foldlM (stepRequest requests) (.init store) = some s)
    (hdone : ∀ i, s.phase i = .done) :
    (∀ k, pairs (s.store k) = pairs (store k)) ↔
      Throughout (stepRequest requests) (AllFound requests) (.init store) order := by
  have hstart : ∀ k, account requests (.init store) k = pairs (store k) :=
    account_settled fun _ => rfl
  have hend : ∀ k, account requests s k = pairs (s.store k) :=
    account_settled fun i => by rw [hdone i]; rfl
  have hfits : ∀ i, ((Shared.init store).phase i).Fits (requests i) := fun _ => trivial
  have hiff := @run_account_eq_iff _ _ _ (stepRequest requests) _
    (fun s => ∀ i, (s.phase i).Fits (requests i)) (account requests) (AllFound requests)
    stepRequest_fits (fun hI h => (stepRequest_account hI h).1)
    (fun hI h => (stepRequest_account hI h).2) order _ _ hfits hrun
  rw [← hiff, funext_iff]
  simp only [hstart, hend]

end

/-! ### Two requests on one value -/

/-- A `COMPARE` request that finds `similarValue`. -/
def compareRequest : CompareRequest where
  input := permanentInput
  sign := 1
  pconf := ordinaryConf
  junk := fun _ => 0
  compareTime := 50
  insertTime := 50
  strategy := rfl
  pattern := rfl
  hitdelay := rfl
  permanent := by decide

/-- Both read before either deletes, so both push. -/
theorem interleaved_duplicate :
    ∃ s, [0, 1, 0, 1, 0, 1].foldlM (stepRequest fun _ : Fin 2 => compareRequest)
        (.init (sharedStore [similarValue])) = some s ∧ (∀ i, s.phase i = .done) ∧
      ¬ ∀ k, pairs (s.store k) = pairs (sharedStore [similarValue] k) := by
  have hrun : ([0, 1, 0, 1, 0, 1].foldlM (stepRequest fun _ : Fin 2 => compareRequest)
      (.init (sharedStore [similarValue]))).map (fun s =>
        ((s.store sharedKey).length, match s.phase 0, s.phase 1 with
          | .done, .done => true
          | _, _ => false)) = some (2, true) := by decide +kernel
  obtain ⟨s, hs, hend⟩ := Option.map_eq_some_iff.mp hrun
  obtain ⟨hlen, hdone⟩ := Prod.mk.inj hend
  refine ⟨s, hs, ?_, fun hsame => ?_⟩
  · split at hdone
    · rename_i h0 h1
      exact Fin.forall_fin_two.mpr ⟨h0, h1⟩
    · cases hdone
  · have hcard := congrArg Multiset.card (hsame sharedKey)
    rw [pairs, pairs, Multiset.card_map, Multiset.card_map, Multiset.coe_card, hlen] at hcard
    simp [sharedStore] at hcard

/-- One after the other they keep it. -/
theorem interleaved_conserve_iff_serial :
    ∃ s, [0, 0, 0, 1, 1, 1].foldlM (stepRequest fun _ : Fin 2 => compareRequest)
        (.init (sharedStore [similarValue])) = some s ∧
      ∀ k, pairs (s.store k) = pairs (sharedStore [similarValue] k) := by
  have hrun : ([0, 0, 0, 1, 1, 1].foldlM (stepRequest fun _ : Fin 2 => compareRequest)
      (.init (sharedStore [similarValue]))).map (fun s => match s.phase 0, s.phase 1 with
        | .done, .done => true
        | _, _ => false) = some true := by decide +kernel
  obtain ⟨s, hs, hdone⟩ := Option.map_eq_some_iff.mp hrun
  have hall : ∀ i, s.phase i = .done := by
    split at hdone
    · rename_i h0 h1
      exact Fin.forall_fin_two.mpr ⟨h0, h1⟩
    · cases hdone
  exact ⟨s, hs, (interleaved_conserve_iff hs hall).mpr
    (@serial_found _ _ [0, 1] _ _ (fun _ => .inl rfl) hs)⟩

end CommonTools.Simhash
