import CommonTools.Index.DlgLogIndexSound

/-! # A document found more than once

A word that stands twice in a document has two postings for it. `CDlgIndex`
looks for the other terms without asking whether they are there, so it returns
the driving list as it is; `CDlgLogIndex` returns a part of it. -/
namespace CommonTools.Index
open CommonTools.Lib CommonIndex DlgLogIndex

/-! ## The index that keeps every document -/

namespace CDlgIndex
variable {W : Type} {HASH_BASIC : Nat}

/-- `SearchDoc`; a term without the document does not end it. -/
def searchDoc (ix : DlgIndex W HASH_BASIC) (doc_id : Int) (inv_results : List InvResult)
    (min_index : Nat) (index_begins : List Int) : Option (Int × List Int) :=
  searchDocFrom false ix doc_id min_index 0 inv_results index_begins

def unionRound (ix : DlgIndex W HASH_BASIC) (inv_results : List InvResult) (min_index : Nat)
    (driving : Option Int) (state : List Int × List Int) (i : Nat) :
    Option (List Int × List Int) := do
  let inv ← invAt ix driving i
  let (ret, index_begins) ← searchDoc ix (InvType.docId inv) inv_results min_index state.1
  some (index_begins, if 0 ≤ ret then state.2 ++ [getDoc inv] else state.2)

/-- `UnionInvResult`: the return value and the documents. A term without
postings does not end it either. -/
def unionInvResult (ix : DlgIndex W HASH_BASIC) (inv_results : List InvResult)
    (num_info : InvNumInfo) (docs : List Int) : Option (Int × List Int) := do
  let driving ← inv_results[num_info.min_index]?
  let (_, docs) ← (List.range driving.inv_num.toNat).foldlM
    (unionRound ix inv_results num_info.min_index driving.inv)
    (inv_results.map fun _ => 0, docs)
  some (docs.length, docs)

def Cursor (begin : Int) : Prop := ∃ b : Nat, begin = b

theorem searchDocFrom_succeeds {ix : DlgIndex W HASH_BASIC} (min_index : Nat) (d : Int) :
    ∀ {i : Nat} {rs : List InvResult} {lists : List (List Int)} {begins : List Int},
      List.Forall₂ (View ix) rs lists → (∀ docs ∈ lists, Rising docs) →
      begins.length = rs.length → (∀ begin ∈ begins, Cursor begin) →
      ∃ begins', searchDocFrom false ix d min_index i rs begins = some (0, begins') ∧
        begins'.length = rs.length ∧ ∀ begin ∈ begins', Cursor begin
  | i, [], [], [], .nil, _, _, hc => ⟨[], rfl, rfl, hc⟩
  | i, r :: rs, docs :: lists, begin :: begins, .cons hv hvs, hr, hlen, hc => by
    obtain ⟨hb, hc⟩ := List.forall_mem_cons.mp hc
    obtain ⟨begins', hrest, hlen', hc'⟩ := searchDocFrom_succeeds min_index d (i := i + 1) hvs
      (fun l hl => hr l (List.mem_cons_of_mem docs hl)) (Nat.succ.inj hlen) hc
    by_cases hi : i = min_index
    · refine ⟨begin :: begins', ?_, congrArg Nat.succ hlen', List.forall_mem_cons.mpr ⟨hb, hc'⟩⟩
      simp only [searchDocFrom, if_pos hi, hrest, Option.bind_eq_bind, Option.bind_some]
    · obtain ⟨b, rfl⟩ := hb
      obtain ⟨doc_index, hs, hnext⟩ : ∃ doc_index,
          binarySearch ix d r.inv b r.inv_num = some doc_index ∧
            Cursor (if doc_index < 0 then (b : Int) else doc_index + 1) := by
        rcases binarySearch_spec hv (hr docs List.mem_cons_self) d b with ⟨m, hs, -⟩ | ⟨hs, -⟩
        · exact ⟨m, hs, m + 1, by rw [if_neg (by omega)]; omega⟩
        · exact ⟨-1, hs, b, if_pos (by decide)⟩
      refine ⟨(if doc_index < 0 then (b : Int) else doc_index + 1) :: begins', ?_,
        congrArg Nat.succ hlen', List.forall_mem_cons.mpr ⟨hnext, hc'⟩⟩
      simp only [searchDocFrom, if_neg hi, hs, hrest, Option.bind_eq_bind, Option.bind_some,
        Bool.false_eq_true, and_false, if_false]

/-- The loop over the driving list takes every posting. -/
theorem unionRound_run {ix : DlgIndex W HASH_BASIC} (min_index : Nat) {rs : List InvResult}
    {lists : List (List Int)} {driving : InvResult} {docs : List Int}
    (hv : View ix driving docs) (hvs : List.Forall₂ (View ix) rs lists)
    (hr : ∀ docs ∈ lists, Rising docs) :
    ∀ k ≤ docs.length, ∃ begins : List Int, begins.length = rs.length ∧
      (∀ begin ∈ begins, Cursor begin) ∧
      (List.range k).foldlM (unionRound ix rs min_index driving.inv) (rs.map fun _ => 0, []) =
        some (begins, docs.take k)
  | 0, _ => by
    refine ⟨rs.map fun _ => 0, List.length_map _, fun begin hb => ?_, rfl⟩
    obtain ⟨r, -, rfl⟩ := List.mem_map.mp hb
    exact ⟨0, rfl⟩
  | k + 1, hk => by
    obtain ⟨begins, hlen, hc, hrun⟩ := unionRound_run min_index hv hvs hr k (Nat.le_of_succ_le hk)
    obtain ⟨inv, hinv, hid⟩ := Option.map_eq_some_iff.mp (hv.read k hk)
    obtain ⟨begins', hs, hlen', hc'⟩ := searchDocFrom_succeeds min_index (InvType.docId inv)
      (i := 0) hvs hr hlen hc
    refine ⟨begins', hlen', hc', ?_⟩
    rw [List.range_succ, List.foldlM_append, hrun, List.take_succ_eq_append_getElem hk, ← hid]
    simp [unionRound, searchDoc, hinv, hs, getDoc]

theorem unionInvResult_spec {ix : DlgIndex W HASH_BASIC} {rs : List InvResult}
    {lists : List (List Int)} (num_info : InvNumInfo) (driving : List Int)
    (hvs : List.Forall₂ (View ix) rs lists) (hr : ∀ docs ∈ lists, Rising docs)
    (hd : lists[num_info.min_index]? = some driving) :
    unionInvResult ix rs num_info [] = some ((driving.length : Int), driving) := by
  obtain ⟨hlt, hget⟩ := List.getElem?_eq_some_iff.mp hd
  obtain ⟨hlen, hall⟩ := List.forall₂_iff_get.mp hvs
  have hrlt : num_info.min_index < rs.length := hlen ▸ hlt
  have hv : View ix rs[num_info.min_index] driving := hget ▸ hall _ hrlt hlt
  obtain ⟨begins, -, -, hrun⟩ := unionRound_run num_info.min_index hv hvs hr driving.length
    (Nat.le_refl _)
  rw [List.take_length] at hrun
  rw [unionInvResult, List.getElem?_eq_getElem hrlt]
  simp only [hv.inv_num, Int.toNat_natCast, hrun, Option.bind_eq_bind, Option.bind_some]

end CDlgIndex

/-! ## Repeated words -/

section
variable {W : Type}

/-- The postings of a word are of different documents when no document repeats
the word. -/
theorem postings_nodup_iff (w : Bytes) :
    ∀ (id : Nat) (adds : List (AddCall (DlgDocType W) DlgInvType)), id + adds.length < 2 ^ 31 →
      (((postings id adds w).map InvType.docId).Nodup ↔ ∀ c ∈ adds, c.key_vect.count w ≤ 1)
  | id, [], _ => by simp [postings]
  | id, c :: rest, hlt => by
    rw [List.length_cons] at hlt
    have hone : (c.postings id w).map InvType.docId =
        List.replicate (c.key_vect.count w) (id : Int) := by
      have hlen := postings_length w id [c]
      rw [postings, postings, List.append_nil, keysOf, List.flatMap_singleton] at hlen
      refine List.eq_replicate_iff.mpr ⟨by rw [List.length_map, hlen], fun d hd => ?_⟩
      obtain ⟨inv, hinv, rfl⟩ := List.mem_map.mp hd
      exact AddCall.docId_of_mem hinv (by omega)
    have hlater := (postings_rising w (id + 1) rest (by omega)).1
    rw [postings, List.map_append, List.nodup_append, hone, List.nodup_replicate,
      postings_nodup_iff w (id + 1) rest (by omega), List.forall_mem_cons]
    refine and_congr_right fun _ => and_iff_left ?_
    rintro a ha b hb rfl
    obtain ⟨inv, hinv, heq⟩ := List.mem_map.mp hb
    have hle := hlater inv hinv
    rw [heq, List.eq_of_mem_replicate ha] at hle
    omega

/-- The term that drives the search: the first with the fewest postings. -/
structure Driving (adds : List (AddCall (DlgDocType W) DlgInvType)) (parts : List Bytes)
    (min_index : Nat) (w : Bytes) : Prop where
  term : parts[min_index]? = some w
  shortest : FirstShortest (parts.map fun v => (keysOf adds).count v) min_index
    ((keysOf adds).count w)

/-- No document repeats the driving term. -/
def DrivingOnce (adds : List (AddCall (DlgDocType W) DlgInvType)) (parts : List Bytes) : Prop :=
  ∀ min_index w, Driving adds parts min_index w → ∀ c ∈ adds, c.key_vect.count w ≤ 1

theorem firstShortest_unique {sizes : List Nat} {i j m n : Nat} (h : FirstShortest sizes i m)
    (h' : FirstShortest sizes j n) : i = j := by
  have hle := h.least n (List.mem_of_getElem? h'.here)
  have hge := h'.least m (List.mem_of_getElem? h.here)
  rcases Nat.lt_trichotomy i j with hlt | heq | hlt
  · have hfirst := h'.first i m hlt h.here
    omega
  · exact heq
  · have hfirst := h.first j n hlt h'.here
    omega

variable [Pod W]

/-- What both searches return for a query on a loaded index. -/
theorem unionInvResult_both {ix : DlgIndex W hashBasic}
    {adds : List (AddCall (DlgDocType W) DlgInvType)} (ha : ix.Answers adds) (hs : Sizes adds)
    {parts : List Bytes} (hne : parts ≠ []) (hparts : ∀ w ∈ parts, NulFree w) :
    ∃ num_info inv_results w docs, getInvResults ix parts .init [] = some (num_info, inv_results) ∧
      Driving adds parts num_info.min_index w ∧
      CDlgIndex.unionInvResult ix inv_results num_info [] =
        some ((((postings 0 adds w).map InvType.docId).length : Int),
          (postings 0 adds w).map InvType.docId) ∧
      DlgLogIndex.unionInvResult ix inv_results num_info [] = some ((docs.length : Int), docs) ∧
      docs.Sublist ((postings 0 adds w).map InvType.docId) ∧
      num_info.min_inv_size = (postings 0 adds w).length ∧
      List.Forall₂ (View ix) inv_results
        (parts.map fun v => (postings 0 adds v).map InvType.docId) := by
  have hposted : ∀ w ∈ parts, Posted ix w (postings 0 adds w) := fun w hw =>
    posted_of_answers ha hs (hparts w hw)
  have hadds : 0 + adds.length < 2 ^ 31 := by
    rw [Nat.zero_add]
    exact Nat.lt_of_le_of_lt (length_le_textsOf adds) hs.texts
  have hrise : ∀ docs ∈ parts.map fun w => (postings 0 adds w).map InvType.docId, Rising docs := by
    intro docs hdocs
    obtain ⟨w, -, rfl⟩ := List.mem_map.mp hdocs
    exact (postings_rising w 0 adds hadds).2
  obtain ⟨info, rs, hget, hvs, hnoted⟩ := getInvResults_spec [] hposted rfl
    (⟨by simp, by decide, .inl ⟨rfl, rfl⟩⟩ : Noted .init [])
  rw [List.nil_append] at hget hnoted
  obtain ⟨size, hsize, hfirst⟩ := hnoted.firstShortest (by simpa using hne)
    (by simpa using fun w hw => (hposted w hw).1)
  obtain ⟨w, hw, hwlen⟩ := Option.map_eq_some_iff.mp
    ((List.getElem?_map).symm.trans hfirst.here)
  have hlist : (parts.map fun w => (postings 0 adds w).map InvType.docId)[info.min_index]? =
      some ((postings 0 adds w).map InvType.docId) := by
    rw [List.getElem?_map, hw]
    rfl
  obtain ⟨docs, hunion, hsub, -⟩ := DlgLogIndex.unionInvResult_spec info _ hvs hrise hlist
    (by rw [hsize, List.length_map, hwlen])
  refine ⟨info, rs, w, docs, hget, ⟨hw, ?_⟩, CDlgIndex.unionInvResult_spec info _ hvs hrise hlist,
    hunion, hsub, by rw [hsize, hwlen], hvs⟩
  simp only [postings_length] at hfirst hwlen
  rwa [hwlen]

/-- **When no document is found twice.** -/
theorem unionInvResult_nodup_iff [LE W] [LT W] [DecidableLE W] [DecidableLT W]
    {adds : List (AddCall (DlgDocType W) DlgInvType)} (hs : Sizes adds)
    {built saved other ix : DlgIndex W hashBasic} {bytes : Bytes} {junk : Nat → Nat → UInt8}
    (hadd : (empty : DlgIndex W hashBasic).addAll adds = some built)
    (hsave : built.save false = some (bytes, saved)) (hload : other.load junk bytes = some (0, ix))
    {parts : List Bytes} (hne : parts ≠ []) (hparts : ∀ w ∈ parts, NulFree w) :
    ∃ num_info inv_results docs logDocs,
      getInvResults ix parts .init [] = some (num_info, inv_results) ∧
      CDlgIndex.unionInvResult ix inv_results num_info [] = some ((docs.length : Int), docs) ∧
      DlgLogIndex.unionInvResult ix inv_results num_info [] =
        some ((logDocs.length : Int), logDocs) ∧
      (docs.Nodup ∧ logDocs.Nodup ↔ DrivingOnce adds parts) := by
  obtain ⟨built', saved', bytes', hadd', hsave', hloads⟩ :=
    addAll_save_load DlgKeyType (by decide : hashBasic < 2 ^ 32) hs
  obtain rfl := Option.some.inj (hadd.symm.trans hadd')
  obtain ⟨rfl, rfl⟩ := Prod.mk.inj (Option.some.inj (hsave.symm.trans hsave'))
  obtain ⟨ix', hload', hloaded⟩ := hloads junk other
  obtain rfl := (Prod.mk.inj (Option.some.inj (hload.symm.trans hload'))).2
  obtain ⟨info, rs, w, docs, hget, hdriving, hall, hsome, hsub, -⟩ :=
    unionInvResult_both (hloaded.answers hs) hs hne hparts
  have hadds : 0 + adds.length < 2 ^ 31 := by
    rw [Nat.zero_add]
    exact Nat.lt_of_le_of_lt (length_le_textsOf adds) hs.texts
  refine ⟨info, rs, _, docs, hget, hall, hsome, ?_⟩
  rw [and_iff_left_of_imp fun hnd => hsub.nodup hnd, postings_nodup_iff w 0 adds hadds]
  constructor
  · intro honce min_index v hv
    obtain rfl := firstShortest_unique hv.shortest hdriving.shortest
    obtain rfl := Option.some.inj (hv.term.symm.trans hdriving.term)
    exact honce
  · exact fun honce => honce _ w hdriving

end

/-! ### A document that repeats a word -/

/-- Two lists with one document twice: the second search finds the posting
behind the first. -/
theorem unionInvResult_twice {W : Type} {HASH_BASIC : Nat} {ix : DlgIndex W HASH_BASIC}
    {r q : InvResult} {num_info : InvNumInfo} (hr : View ix r [0, 0]) (hq : View ix q [0, 0])
    (hindex : num_info.min_index = 0) (hsize : num_info.min_inv_size ≠ 0) :
    DlgLogIndex.unionInvResult ix [r, q] num_info [] = some (2, [0, 0]) := by
  obtain ⟨a, ha, ha0⟩ := Option.map_eq_some_iff.mp (hr.read 0 (by decide))
  obtain ⟨b, hb, hb0⟩ := Option.map_eq_some_iff.mp (hr.read 1 (by decide))
  obtain ⟨c, hc, hc0⟩ := Option.map_eq_some_iff.mp (hq.read 0 (by decide))
  obtain ⟨d, hd, hd0⟩ := Option.map_eq_some_iff.mp (hq.read 1 (by decide))
  have hrn : r.inv_num = 2 := hr.inv_num
  have hqn : q.inv_num = 2 := hq.inv_num
  simp only [Nat.cast_zero, Nat.cast_one, List.getElem_cons_zero, List.getElem_cons_succ]
    at ha hb hc hd ha0 hb0 hc0 hd0
  have hfirst : binarySearch ix 0 q.inv 0 2 = some 0 := by simp [binarySearch, bisect, hc, hc0]
  have hsecond : binarySearch ix 0 q.inv 1 2 = some 1 := by simp [binarySearch, bisect, hd, hd0]
  simp [DlgLogIndex.unionInvResult, hindex, hsize, hrn, List.range_succ, DlgLogIndex.unionRound,
    DlgLogIndex.searchDoc, searchDocFrom, ha, hb, ha0, hb0, hqn, hfirst, hsecond, getDoc]

/-- One document with the word `b` twice. -/
def repeatedCall : List (AddCall (DlgDocType (BitVec 32)) DlgInvType) :=
  [⟨[[98], [98]], [⟨0, 1, 0, 0⟩, ⟨0, 1, 0, 0⟩], ⟨0, 5⟩, [98, 98], rfl, by decide, by decide⟩]

/-- For the query `b b` both searches find it twice. -/
theorem unionInvResult_repeats :
    ∃ (built saved ix : DlgIndex (BitVec 32) hashBasic) (bytes : Bytes) (num_info : InvNumInfo)
      (inv_results : List InvResult),
      (empty : DlgIndex (BitVec 32) hashBasic).addAll repeatedCall = some built ∧
      built.save false = some (bytes, saved) ∧
      (empty : DlgIndex (BitVec 32) hashBasic).load (fun _ _ => 0) bytes = some (0, ix) ∧
      getInvResults ix [[98], [98]] .init [] = some (num_info, inv_results) ∧
      CDlgIndex.unionInvResult ix inv_results num_info [] = some (2, [0, 0]) ∧
      DlgLogIndex.unionInvResult ix inv_results num_info [] = some (2, [0, 0]) ∧
      ¬ ([0, 0] : List Int).Nodup := by
  have hs : Sizes repeatedCall := ⟨by decide, by decide, by decide⟩
  obtain ⟨built, saved, bytes, hadd, hsave, hloads⟩ :=
    addAll_save_load DlgKeyType (by decide : hashBasic < 2 ^ 32) hs
  obtain ⟨ix, hload, hloaded⟩ := hloads (fun _ _ => 0) empty
  obtain ⟨info, rs, w, docs, hget, hdriving, hall, -, -, hsize, hvs⟩ :=
    unionInvResult_both (hloaded.answers hs) hs (List.cons_ne_nil [98] [[98]]) (by decide)
  have hw : w = [98] := by simpa using List.mem_of_getElem? hdriving.term
  subst hw
  have hindex : info.min_index = 0 := by
    by_contra hne
    exact absurd (hdriving.shortest.first 0 _ (Nat.pos_of_ne_zero hne) rfl) (Nat.lt_irrefl _)
  obtain ⟨r, tail, hr, htail, rfl⟩ := List.forall₂_cons_right_iff.mp hvs
  obtain ⟨q, last, hq, hlast, rfl⟩ := List.forall₂_cons_right_iff.mp htail
  obtain rfl := List.forall₂_nil_right_iff.mp hlast
  exact ⟨built, saved, ix, bytes, info, [r, q], hadd, hsave, hload, hget, hall,
    unionInvResult_twice hr hq hindex (by rw [hsize]; decide), by decide⟩

/-- No document of `twoCalls` repeats a word. -/
theorem unionInvResult_nodup_iff_twoCalls :
    ∃ (built saved ix : DlgIndex (BitVec 32) hashBasic) (bytes : Bytes),
      (empty : DlgIndex (BitVec 32) hashBasic).addAll twoCalls = some built ∧
      built.save false = some (bytes, saved) ∧
      (empty : DlgIndex (BitVec 32) hashBasic).load (fun _ _ => 0) bytes = some (0, ix) ∧
      ∃ num_info inv_results docs logDocs,
        getInvResults ix [[98], [98]] .init [] = some (num_info, inv_results) ∧
        CDlgIndex.unionInvResult ix inv_results num_info [] = some ((docs.length : Int), docs) ∧
        DlgLogIndex.unionInvResult ix inv_results num_info [] =
          some ((logDocs.length : Int), logDocs) ∧
        docs.Nodup ∧ logDocs.Nodup := by
  have hs : Sizes twoCalls := ⟨by decide, by decide, by decide⟩
  obtain ⟨built, saved, bytes, hadd, hsave, hloads⟩ :=
    addAll_save_load DlgKeyType (by decide : hashBasic < 2 ^ 32) hs
  obtain ⟨ix, hload, -⟩ := hloads (fun _ _ => 0) empty
  obtain ⟨info, rs, docs, logDocs, hget, hall, hsome, hiff⟩ :=
    @unionInvResult_nodup_iff (BitVec 32) _ _ _ _ _ twoCalls hs built saved empty ix bytes
      (fun _ _ => 0) hadd hsave hload [[98], [98]] (List.cons_ne_nil _ _) (by decide)
  refine ⟨built, saved, ix, bytes, hadd, hsave, hload, info, rs, docs, logDocs, hget, hall, hsome,
    hiff.mpr fun min_index w hw => ?_⟩
  have hterm : w = [98] := by
    have hmem := List.mem_of_getElem? hw.term
    simpa using hmem
  subst hterm
  decide

end CommonTools.Index
