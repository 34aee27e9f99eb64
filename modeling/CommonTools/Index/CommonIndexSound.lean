import CommonTools.Index.HashVectorSound
import CommonTools.Index.CommonIndex

/-! # A saved index is a faithful inverted index

`postings` says what a word's list must be, from the calls of `add` alone. The
proof follows the data: the map of postings while documents are added, the
flat ranges that `changeToHVIndex` cuts out of it, the bytes of `save`, and
the buffers that `load` reads. -/
namespace CommonTools.Index.CommonIndex
open CommonTools.Lib HashVector NodeType

variable {D I N W : Type} {HASH_BASIC : Nat}

/-! ## The calls and what they mean -/

/-- One call of `add`. Keys and texts come from C strings, and the postings
are as many as the keys. -/
structure AddCall (D I : Type) where
  key_vect : List Bytes
  inv_vect : List I
  doc_node : D
  doc_text : Bytes
  same_length : key_vect.length = inv_vect.length
  keys_nulFree : ∀ k ∈ key_vect, NulFree k
  text_nulFree : NulFree doc_text

/-- The postings of one call under `w`, marked with the call's number. -/
def AddCall.postings [InvType I] (id : Nat) (c : AddCall D I) (w : Bytes) : List I :=
  ((c.key_vect.zip c.inv_vect).filter fun p => p.1 = w).map fun p => InvType.setDocId id p.2

/-- The postings under `w` of all calls, in call order, calls numbered from
`id`. -/
def postings [InvType I] (id : Nat) : List (AddCall D I) → Bytes → List I
  | [], _ => []
  | c :: rest, w => c.postings id w ++ postings (id + 1) rest w

/-- The texts of the calls, each with its terminator. -/
def textsOf (adds : List (AddCall D I)) : Bytes := adds.flatMap fun c => c.doc_text ++ [0]

/-- All buffers stay below `2^31`. -/
structure Sizes (adds : List (AddCall D I)) : Prop where
  texts : (textsOf adds).length < 2 ^ 31
  invs : (adds.map fun c => c.key_vect.length).sum < 2 ^ 31
  words : ((adds.flatMap AddCall.key_vect).dedup.map fun w => w.length + 1).sum < 2 ^ 31

/-! ## The map of postings -/

section Map
variable [InvType I]

/-- The map holds the lists `f`; an empty list has no entry. -/
def MapHolds (map : IndexMap I) (f : Bytes → List I) : Prop :=
  ∀ w, map[w]? = if f w = [] then none else some (f w)

omit [InvType I] in
theorem MapHolds.pushPosting {map : IndexMap I} {f : Bytes → List I} (h : MapHolds map f)
    {key : Bytes} (hk : NulFree key) (inv : I) :
    MapHolds (pushPosting map key inv) fun w => f w ++ if key = w then [inv] else [] := by
  intro w
  rw [CommonIndex.pushPosting, cstr_eq_self hk, Std.TreeMap.getElem?_alter]
  by_cases hw : key = w
  · subst hw
    by_cases hf : f key = [] <;> simp [h key, hf]
  · have hne : compare key w ≠ .eq := fun hc => hw (Std.compare_eq_iff_eq.mp hc)
    simp [hw, hne, h w]

theorem MapHolds.pushPostings (id : Nat) :
    ∀ {keys : List Bytes} {invs : List I} {map : IndexMap I} {f : Bytes → List I},
      MapHolds map f → keys.length = invs.length → (∀ k ∈ keys, NulFree k) →
      ∃ map', pushPostings id map keys invs = some map' ∧
        MapHolds map' fun w => f w ++
          ((keys.zip invs).filter fun p => p.1 = w).map fun p => InvType.setDocId id p.2
  | [], invs, map, f, h, _, _ => ⟨map, by cases invs <;> rfl, by simpa using h⟩
  | _ :: _, [], _, _, _, hlen, _ => by simp at hlen
  | key :: keys, inv :: invs, map, f, h, hlen, hk => by
    have hstep := h.pushPosting (hk key (by simp)) (InvType.setDocId id inv)
    obtain ⟨map', hp, hm⟩ := hstep.pushPostings id (by simpa using hlen)
      fun k hk' => hk k (by simp [hk'])
    refine ⟨map', hp, fun w => ?_⟩
    have hlist : (f w ++ if key = w then [InvType.setDocId id inv] else []) ++
        ((keys.zip invs).filter fun p => p.1 = w).map (fun p => InvType.setDocId id p.2) =
        f w ++ (((key :: keys).zip (inv :: invs)).filter fun p => p.1 = w).map
          fun p => InvType.setDocId id p.2 := by
      by_cases hw : key = w <;> simp [hw]
    beta_reduce
    rw [← hlist]
    exact hm w

theorem postings_append (w : Bytes) :
    ∀ (id : Nat) (a b : List (AddCall D I)),
      postings id (a ++ b) w = postings id a w ++ postings (id + a.length) b w
  | id, [], b => by simp [postings]
  | id, c :: a, b => by
    have hid : id + 1 + a.length = id + (a.length + 1) := by omega
    simp [postings, postings_append w (id + 1) a b, hid]

theorem AddCall.postings_eq_nil (id : Nat) (c : AddCall D I) (w : Bytes) :
    c.postings id w = [] ↔ w ∉ c.key_vect := by
  have hfst : (c.key_vect.zip c.inv_vect).map Prod.fst = c.key_vect :=
    List.map_fst_zip (Nat.le_of_eq c.same_length)
  have hmem : w ∈ c.key_vect ↔ w ∈ (c.key_vect.zip c.inv_vect).map Prod.fst := by rw [hfst]
  rw [AddCall.postings, List.map_eq_nil_iff, List.filter_eq_nil_iff, hmem]
  constructor
  · intro h hw
    obtain ⟨p, hp, rfl⟩ := List.mem_map.mp hw
    exact h p hp (by simp)
  · intro h p hp
    simpa using fun he => h (List.mem_map.mpr ⟨p, hp, he⟩)

/-- A word has no postings exactly when it was never a key. -/
theorem postings_eq_nil (w : Bytes) :
    ∀ (id : Nat) (adds : List (AddCall D I)),
      postings id adds w = [] ↔ ∀ c ∈ adds, w ∉ c.key_vect
  | _, [] => by simp [postings]
  | id, c :: rest => by
    simp [postings, AddCall.postings_eq_nil, postings_eq_nil w (id + 1) rest]

end Map

variable [DocType D W] [InvType I]

/-! ## After the calls of `add` -/

def addAll (ix : CommonIndex D I N HASH_BASIC) (adds : List (AddCall D I)) :
    Option (CommonIndex D I N HASH_BASIC) :=
  adds.foldlM (fun ix c => ix.add c.key_vect c.inv_vect c.doc_node c.doc_text) ix

/-- A stored document shows the text of its call. -/
def Shows (buf : Bytes) (doc : D) (c : AddCall D I) : Prop :=
  cstrAt buf (DocType.wordOffset doc) = some c.doc_text

/-- The state of the index after the calls `adds`. -/
structure Built (ix : CommonIndex D I N HASH_BASIC) (adds : List (AddCall D I)) : Prop where
  chars : ix.m_char_vect = textsOf adds
  docs : List.Forall₂ (Shows ix.m_char_vect) ix.m_doc_vect adds
  map : MapHolds ix.m_index_map (postings 0 adds)
  invs : ix.m_inv_vect = []
  index : ix.m_index = HashVector.empty

theorem built_empty : Built (empty : CommonIndex D I N HASH_BASIC) ([] : List (AddCall D I)) :=
  ⟨rfl, .nil, fun w => by simp [empty, postings], rfl, rfl⟩

/-- One call stores its document and puts its postings in the map. -/
theorem add_map {ix : CommonIndex D I N HASH_BASIC} {adds : List (AddCall D I)}
    (hdocs : ix.m_doc_vect.length = adds.length) (h : MapHolds ix.m_index_map (postings 0 adds))
    (c : AddCall D I) :
    ∃ map', ix.add c.key_vect c.inv_vect c.doc_node c.doc_text =
        some { ix.pushDoc c.doc_node c.doc_text with m_index_map := map' } ∧
      MapHolds map' (postings 0 (adds ++ [c])) := by
  obtain ⟨map', hp, hm⟩ := h.pushPostings adds.length c.same_length c.keys_nulFree
  refine ⟨map', ?_, fun w => ?_⟩
  · have hp' : CommonIndex.pushPostings ix.m_doc_vect.length
        (ix.pushDoc c.doc_node c.doc_text).m_index_map c.key_vect c.inv_vect = some map' := by
      rw [hdocs]; exact hp
    simp only [CommonIndex.add, hp', Option.bind_eq_bind, Option.bind_some]
  · rw [postings_append w 0 adds [c], Nat.zero_add, postings, postings, List.append_nil]
    exact hm w

theorem Built.add {ix : CommonIndex D I N HASH_BASIC} {adds : List (AddCall D I)} (h : Built ix adds)
    (c : AddCall D I) (hlt : (textsOf adds).length < 2 ^ 31) :
    ∃ ix', ix.add c.key_vect c.inv_vect c.doc_node c.doc_text = some ix' ∧
      Built ix' (adds ++ [c]) := by
  have hpos : ix.m_char_vect.length < 2 ^ 31 := by rw [h.chars]; exact hlt
  obtain ⟨map', hadd, hm⟩ := add_map h.docs.length_eq h.map c
  have hpush : pushCString ix.m_char_vect c.doc_text = ix.m_char_vect ++ (c.doc_text ++ [0]) := by
    simp [c.text_nulFree]
  refine ⟨_, hadd, ?_, ?_, hm, h.invs, h.index⟩
  · simp only [pushDoc]
    rw [hpush, h.chars]
    simp [textsOf]
  · simp only [pushDoc, hpush]
    refine List.rel_append (h.docs.imp fun d c hs => cstrAt_append hs _) (.cons ?_ .nil)
    have := cstrAt_written c.text_nulFree ix.m_char_vect []
    simpa [Shows, DocType.wordOffset_set _ _ hpos] using this

section
variable {key_vect : List Bytes} {key_word doc_text : Bytes} (inv_node : I) (doc_node : D)

/-- The call with one posting for all keys. -/
def AddCall.same (hkeys : ∀ k ∈ key_vect, NulFree k) (htext : NulFree doc_text) : AddCall D I where
  key_vect
  inv_vect := key_vect.map fun _ => inv_node
  doc_node
  doc_text
  same_length := (List.length_map _).symm
  keys_nulFree := hkeys
  text_nulFree := htext

variable {ix : CommonIndex D I N HASH_BASIC} {adds : List (AddCall D I)}

/-- One posting for all keys is one for each of them. -/
theorem Built.addSame (h : Built ix adds) (hlt : (textsOf adds).length < 2 ^ 31)
    (hkeys : ∀ k ∈ key_vect, NulFree k) (htext : NulFree doc_text) :
    ∃ ix', ix.addSame key_vect inv_node doc_node doc_text = some ix' ∧
      Built ix' (adds ++ [.same inv_node doc_node hkeys htext]) :=
  h.add (.same inv_node doc_node hkeys htext) hlt

/-- One key with its posting is a call with one key. -/
theorem Built.addOne (h : Built ix adds) (hlt : (textsOf adds).length < 2 ^ 31)
    (hkey : NulFree key_word) (htext : NulFree doc_text) :
    ∃ ix', ix.addOne key_word inv_node doc_node doc_text = some ix' ∧
      Built ix' (adds ++
        [.same inv_node doc_node (List.forall_mem_singleton.mpr hkey) htext]) :=
  h.add (.same inv_node doc_node (List.forall_mem_singleton.mpr hkey) htext) hlt

end

theorem Built.addAll {more : List (AddCall D I)} :
    ∀ {ix : CommonIndex D I N HASH_BASIC} {adds : List (AddCall D I)}, Built ix adds →
      (textsOf (adds ++ more)).length < 2 ^ 31 →
      ∃ ix', ix.addAll more = some ix' ∧ Built ix' (adds ++ more) := by
  induction more with
  | nil => intro ix adds h _; exact ⟨ix, rfl, by simpa using h⟩
  | cons c more ih =>
    intro ix adds h hlt
    have hpre : (textsOf adds).length < 2 ^ 31 := by
      rw [textsOf, List.flatMap_append, List.length_append, ← textsOf] at hlt
      omega
    obtain ⟨ix1, hadd, hb⟩ := h.add c hpre
    obtain ⟨ix', hall, hb'⟩ := ih hb (by simpa using hlt)
    refine ⟨ix', ?_, by simpa using hb'⟩
    simp only [CommonIndex.addAll, List.foldlM_cons, hadd, Option.bind_eq_bind, Option.bind_some]
    exact hall

theorem addAll_empty {adds : List (AddCall D I)} (htexts : (textsOf adds).length < 2 ^ 31) :
    ∃ ix, (empty : CommonIndex D I N HASH_BASIC).addAll adds = some ix ∧ Built ix adds := by
  have hempty : Built (empty : CommonIndex D I N HASH_BASIC) ([] : List (AddCall D I)) :=
    built_empty
  obtain ⟨ix, hadd, hb⟩ := hempty.addAll htexts
  exact ⟨ix, hadd, hb⟩

/-! ## The words of the map -/

/-- All keys of all calls, with repetitions. -/
def keysOf (adds : List (AddCall D I)) : List Bytes := adds.flatMap AddCall.key_vect

omit [DocType D W] [InvType I] in
theorem keysOf_cons (c : AddCall D I) (rest : List (AddCall D I)) :
    keysOf (c :: rest) = c.key_vect ++ keysOf rest := List.flatMap_cons

omit [DocType D W] in
theorem postings_length (w : Bytes) :
    ∀ (id : Nat) (adds : List (AddCall D I)),
      (postings id adds w).length = (keysOf adds).count w
  | _, [] => rfl
  | id, c :: rest => by
    have hfst : (c.key_vect.zip c.inv_vect).map Prod.fst = c.key_vect :=
      List.map_fst_zip (Nat.le_of_eq c.same_length)
    have hcount : (c.postings id w).length = c.key_vect.count w := by
      conv_rhs => rw [← hfst, List.count, List.countP_map]
      rw [AddCall.postings, List.length_map, ← List.countP_eq_length_filter]
      exact List.countP_congr fun p _ => by simp
    rw [postings, List.length_append, postings_length w (id + 1) rest, hcount, keysOf_cons,
      List.count_append]

omit [DocType D W] in
theorem MapHolds.mem_keys {map : IndexMap I} {adds : List (AddCall D I)}
    (h : MapHolds map (postings 0 adds)) (w : Bytes) :
    w ∈ map.toList.map Prod.fst ↔ w ∈ keysOf adds := by
  have hkey : w ∈ keysOf adds ↔ postings 0 adds w ≠ [] := by
    simp [keysOf, postings_eq_nil]
  have hget : w ∈ map.toList.map Prod.fst ↔ ∃ v, map[w]? = some v := by
    rw [List.mem_map]
    constructor
    · rintro ⟨⟨w, v⟩, hm, rfl⟩
      exact ⟨v, Std.TreeMap.mem_toList_iff_getElem?_eq_some.mp hm⟩
    · rintro ⟨v, hv⟩
      exact ⟨(w, v), Std.TreeMap.mem_toList_iff_getElem?_eq_some.mpr hv, rfl⟩
  rw [hget, hkey, h w]
  by_cases hp : postings 0 adds w = [] <;> simp [hp]

omit [DocType D W] in
theorem MapHolds.keys_perm {map : IndexMap I} {adds : List (AddCall D I)}
    (h : MapHolds map (postings 0 adds)) :
    (map.toList.map Prod.fst).Perm (keysOf adds).dedup := by
  have hnd : (map.toList.map Prod.fst).Nodup := by
    rw [List.Nodup, List.pairwise_map]
    exact Std.TreeMap.distinct_keys_toList.imp fun hne heq => hne (Std.compare_eq_iff_eq.mpr heq)
  rw [List.perm_ext_iff_of_nodup hnd (List.nodup_dedup _)]
  intro w
  rw [h.mem_keys w, List.mem_dedup]

omit [DocType D W] in
theorem MapHolds.mem_toList {map : IndexMap I} {adds : List (AddCall D I)}
    (h : MapHolds map (postings 0 adds)) {w : Bytes} {v : List I} (hm : (w, v) ∈ map.toList) :
    v = postings 0 adds w := by
  rw [Std.TreeMap.mem_toList_iff_getElem?_eq_some, h w] at hm
  split at hm
  · cases hm
  · exact (Option.some.inj hm).symm

omit [DocType D W] in
/-- The flat posting buffer has one entry for every key of every call. -/
theorem MapHolds.invs_length {map : IndexMap I} {adds : List (AddCall D I)}
    (h : MapHolds map (postings 0 adds)) :
    (map.toList.flatMap Prod.snd).length = (adds.map fun c => c.key_vect.length).sum := by
  have hlen : map.toList.map (fun e => e.2.length) =
      (map.toList.map Prod.fst).map fun w => (keysOf adds).count w := by
    rw [List.map_map]
    refine List.map_congr_left fun e he => ?_
    rw [h.mem_toList he, postings_length]
    rfl
  calc (map.toList.flatMap Prod.snd).length
      = (map.toList.map fun e => e.2.length).sum := by rw [List.length_flatMap]
    _ = ((keysOf adds).dedup.map fun w => (keysOf adds).count w).sum := by
        rw [hlen, (h.keys_perm.map _).sum_eq]
    _ = (keysOf adds).length := by
        convert List.sum_map_count_dedup_eq_length (keysOf adds)
        rfl
    _ = (adds.map fun c => c.key_vect.length).sum := by rw [keysOf, List.length_flatMap]

/-! ## Cutting the map into ranges -/

section Table
variable [KeyType N] [NeZero HASH_BASIC]

/-- The items that `changeToHVIndex` adds to the table, starting with `b`
postings already moved. -/
def ranges : Nat → List (Bytes × List I) → List (Bytes × N)
  | _, [] => []
  | b, (w, v) :: rest => (w, KeyType.ofRange b (b + v.length)) :: ranges (b + v.length) rest

omit [DocType D W] [InvType I] in
theorem ranges_fst : ∀ (b : Nat) (L : List (Bytes × List I)),
    (ranges b L : List (Bytes × N)).map Prod.fst = L.map Prod.fst
  | _, [] => rfl
  | b, (w, v) :: rest => by simp [ranges, ranges_fst (b + v.length) rest]

omit [DocType D W] [InvType I] in
/-- A range is where its word's postings lie in the flat buffer. -/
theorem mem_ranges {w : Bytes} {item : N} :
    ∀ {b : Nat} {L : List (Bytes × List I)}, (w, item) ∈ ranges b L →
      ∃ pre v post, (w, v) ∈ L ∧ L.flatMap Prod.snd = pre ++ v ++ post ∧
        item = KeyType.ofRange (b + pre.length) (b + pre.length + v.length)
  | _, [], h => by simp [ranges] at h
  | b, (w', v') :: rest, h => by
    rcases List.mem_cons.mp h with h | h
    · obtain ⟨rfl, rfl⟩ := Prod.mk.inj h
      exact ⟨[], v', rest.flatMap Prod.snd, by simp, by simp, by simp⟩
    · obtain ⟨pre, v, post, hm, hflat, hitem⟩ := mem_ranges h
      refine ⟨v' ++ pre, v, post, by simp [hm], by simp [hflat], ?_⟩
      rw [hitem, List.length_append, Nat.add_assoc b]

theorem foldlM_moveWord [LE W] [LT W] [DecidableLE W] [DecidableLT W] :
    ∀ (L : List (Bytes × List I)) (ix : CommonIndex D I N HASH_BASIC),
      L.foldlM (moveWord false) ix = some { ix with
        m_inv_vect := ix.m_inv_vect ++ L.flatMap Prod.snd
        m_index := ix.m_index.addAll (ranges ix.m_inv_vect.length L) }
  | [], ix => by simp [HashVector.addAll, ranges]
  | (w, v) :: rest, ix => by
    have hstep : moveWord false ix (w, v) = some { ix with
        m_inv_vect := ix.m_inv_vect ++ v
        m_index := ix.m_index.addItem
          (KeyType.ofRange ix.m_inv_vect.length (ix.m_inv_vect ++ v).length) w } := rfl
    rw [List.foldlM_cons, hstep, Option.bind_eq_bind, Option.bind_some, foldlM_moveWord rest]
    simp [ranges, HashVector.addAll]

omit [DocType D W] [InvType I] in
theorem ranges_ascending (map : IndexMap I) :
    Ascending (ranges 0 map.toList : List (Bytes × N)) := by
  have hL : (map.toList.map Prod.fst).Pairwise fun a b => strcmp a b = .lt := by
    rw [List.pairwise_map]
    exact (Std.TreeMap.ordered_keys_toList : map.toList.Pairwise fun a b => compare a.1 b.1 = .lt)
  rw [← @ranges_fst I N _ 0, List.pairwise_map] at hL
  exact hL

omit [DocType D W] in
theorem ranges_words {map : IndexMap I} {adds : List (AddCall D I)}
    (h : MapHolds map (postings 0 adds)) :
    (wordsOf (ranges 0 map.toList : List (Bytes × N))).length =
      ((keysOf adds).dedup.map fun w => w.length + 1).sum := by
  have hfst : (ranges 0 map.toList : List (Bytes × N)).map (fun e => e.1.length + 1) =
      (map.toList.map Prod.fst).map fun w => w.length + 1 := by
    rw [← @ranges_fst I N _ 0, List.map_map]; rfl
  rw [wordsOf_length, hfst, (h.keys_perm.map _).sum_eq]

omit [DocType D W] in
theorem ranges_nulFree {map : IndexMap I} {adds : List (AddCall D I)}
    (h : MapHolds map (postings 0 adds)) :
    ∀ e ∈ (ranges 0 map.toList : List (Bytes × N)), NulFree e.1 := by
  intro e he
  have hm : e.1 ∈ (ranges 0 map.toList : List (Bytes × N)).map Prod.fst :=
    List.mem_map.mpr ⟨e, he, rfl⟩
  rw [ranges_fst, h.mem_keys, keysOf, List.mem_flatMap] at hm
  obtain ⟨c, _, hk⟩ := hm
  exact c.keys_nulFree _ hk

/-- The index after the loop over the map and the sort of the table. -/
theorem changeToHVIndex_built [LE W] [LT W] [DecidableLE W] [DecidableLT W]
    {ix : CommonIndex D I N HASH_BASIC} {adds : List (AddCall D I)}
    (h : Built ix adds) (hs : Sizes adds) :
    ∃ table : HashVector N HASH_BASIC,
      ix.changeToHVIndex false = some { ix with
        m_inv_vect := ix.m_index_map.toList.flatMap Prod.snd, m_index := table } ∧
      Filled table (ranges 0 ix.m_index_map.toList) := by
  have hwords : (wordsOf ([] ++ ranges 0 ix.m_index_map.toList : List (Bytes × N))).length
      < 2 ^ 31 := by
    rw [List.nil_append, ranges_words h.map]; exact hs.words
  have hempty : Filled (HashVector.empty : HashVector N HASH_BASIC) [] := filled_empty
  have hf := hempty.addAll (ranges_nulFree h.map) hwords
  rw [List.nil_append] at hf
  obtain ⟨table, hsort, hfilled⟩ := sort_of_filled hf (ranges_ascending ix.m_index_map)
  have hfold := foldlM_moveWord ix.m_index_map.toList ix
  rw [h.invs, h.index, List.nil_append, List.length_nil] at hfold
  refine ⟨table, ?_, hfilled⟩
  simp only [changeToHVIndex, hfold, hsort, Option.bind_eq_bind, Option.bind_some]

/-! ## The file -/

theorem readBlock_written {size n : Nat} {b : Bytes} (junk : Nat → Nat → UInt8) (tag : Nat)
    (m_num : BitVec 32) (rest : Bytes) (hsize : 0 < size) (hb : b.length = size * n)
    (hn : n < 2 ^ 31) :
    readBlock size junk tag m_num (Pod.toBytes (BitVec.ofNat 32 n) ++ (b ++ rest)) =
      some ⟨true, BitVec.ofNat 32 n, some b, rest⟩ := by
  have hnum : (BitVec.ofNat 32 n).toNat = n := by
    rw [BitVec.toNat_ofNat, Nat.mod_eq_of_lt (by omega)]
  have hpos : ¬ (BitVec.ofNat 32 n).toInt < 0 := by rw [toInt_ofNat32 hn]; omega
  have hfull := fread_full (fresh junk tag (size * n)) b rest hsize hb (fresh_length _ _ _)
  have hold : (Pod.toBytes m_num).length = 4 := Pod.length_toBytes m_num
  simp only [readBlock, fread_u32 _ _ _ hold, Pod.ofBytes_toBytes, ne_eq, not_true, if_false,
    if_neg hpos, hnum, hfull, beq_self_eq_true]

/-- What the index read from the file of `adds` holds. -/
structure Loaded (ix : CommonIndex D I N HASH_BASIC) (adds : List (AddCall D I)) : Prop where
  chars : ix.m_char_buf.getD [] = textsOf adds
  docs : List.Forall₂ (Shows (textsOf adds)) (ix.m_doc_buf.getD []) adds
  index : ∃ map : IndexMap I, MapHolds map (postings 0 adds) ∧
    ix.m_inv_buf.getD [] = map.toList.flatMap Prod.snd ∧
    Searchable ix.m_index (ranges 0 map.toList)

omit [DocType D W] [InvType I] [KeyType N] [NeZero HASH_BASIC] in
theorem length_le_textsOf (adds : List (AddCall D I)) : adds.length ≤ (textsOf adds).length := by
  induction adds with
  | nil => exact Nat.le_refl 0
  | cons c rest ih =>
    rw [textsOf, List.flatMap_cons, List.length_append, ← textsOf]
    simp
    omega

theorem fwriteInts_all {α : Type} [Pod α] {l : List α} (h : l.length < 2 ^ 31) :
    fwriteInts (BitVec.ofNat 32 l.length) l = some (block l) := by
  have hnum : (BitVec.ofNat 32 l.length).toNat = l.length := by
    rw [BitVec.toNat_ofNat, Nat.mod_eq_of_lt (by omega)]
  rw [fwriteInts, toInt_ofNat32 h, if_neg (by omega), hnum, List.take_length]

/-- The file of an index: three counted blocks and the table. -/
def indexBytes (chars : Bytes) (docs : List D) (invs : List I) (words : Bytes) : Bytes :=
  Pod.toBytes (BitVec.ofNat 32 chars.length) ++ chars ++
    (Pod.toBytes (BitVec.ofNat 32 docs.length) ++ block docs) ++
    (Pod.toBytes (BitVec.ofNat 32 invs.length) ++ block invs) ++ words

theorem save_of_changed [LE W] [LT W] [DecidableLE W] [DecidableLT W]
    {ix ix' : CommonIndex D I N HASH_BASIC} {words : Bytes}
    {saved : HashVector N HASH_BASIC} (hchange : ix.changeToHVIndex false = some ix')
    (hchars : ix'.m_char_vect.length < 2 ^ 31) (hdocs : ix'.m_doc_vect.length < 2 ^ 31)
    (hinvs : ix'.m_inv_vect.length < 2 ^ 31)
    (hwrite : ix'.m_index.writeFile = some (words, saved)) :
    ∃ ix'', ix.save false =
      some (indexBytes ix'.m_char_vect ix'.m_doc_vect ix'.m_inv_vect words, ix'') := by
  have hnum : (BitVec.ofNat 32 ix'.m_char_vect.length).toNat = ix'.m_char_vect.length := by
    rw [BitVec.toNat_ofNat, Nat.mod_eq_of_lt (by omega)]
  have hpos : ¬ (BitVec.ofNat 32 ix'.m_char_vect.length).toInt < 0 := by
    rw [toInt_ofNat32 hchars]; omega
  simp only [save, hchange, fwriteInts_all hdocs, fwriteInts_all hinvs, hwrite, if_neg hpos, hnum,
    List.take_length, Option.bind_eq_bind, Option.bind_some, indexBytes]
  exact ⟨_, rfl⟩

omit [NeZero HASH_BASIC] in
theorem load_indexBytes {chars : Bytes} {docs : List D} {invs : List I} {words rest : Bytes}
    {ix : CommonIndex D I N HASH_BASIC} {table : HashVector N HASH_BASIC}
    (junk : Nat → Nat → UInt8) (hchars : chars.length < 2 ^ 31) (hdocs : docs.length < 2 ^ 31)
    (hinvs : invs.length < 2 ^ 31)
    (hread : HashVector.readInFile junk ix.m_index.clear words = some (true, table, rest)) :
    ix.load junk (indexBytes chars docs invs words) = some (0, { ix.clear with
      m_char_buf := some chars, m_num_char := BitVec.ofNat 32 chars.length
      m_doc_buf := some docs, m_num_doc := BitVec.ofNat 32 docs.length
      m_inv_buf := some invs, m_num_inv := BitVec.ofNat 32 invs.length
      m_index := table }) := by
  have hlen : ∀ {n : Nat}, n < 2 ^ 31 → (BitVec.ofNat 32 n).toNat = n := fun {n} h => by
    rw [BitVec.toNat_ofNat, Nat.mod_eq_of_lt (by omega)]
  have h1 := readBlock_written junk 0 ix.clear.m_num_char
    (Pod.toBytes (BitVec.ofNat 32 docs.length) ++ (block docs ++
      (Pod.toBytes (BitVec.ofNat 32 invs.length) ++ (block invs ++ words))))
    Nat.one_pos (Nat.one_mul chars.length).symm hchars
  have h2 := readBlock_written junk 1 ix.clear.m_num_doc
    (Pod.toBytes (BitVec.ofNat 32 invs.length) ++ (block invs ++ words)) (DocType.size_pos (D := D))
    (block_length docs) hdocs
  have h3 := readBlock_written junk 2 ix.clear.m_num_inv words (InvType.size_pos (I := I))
    (block_length invs) hinvs
  have hclear : ix.clear.m_index = ix.m_index.clear := rfl
  simp only [load, indexBytes, List.append_assoc, h1, h2, h3, hclear, hread, Option.bind_eq_bind,
    Option.bind_some, Option.map_some, Bool.not_true, Bool.false_eq_true, if_false, hlen hdocs,
    hlen hinvs, unblock_block]
  rfl

/-- What `Save` of a built index writes, given what its table writes. -/
theorem save_built [LE W] [LT W] [DecidableLE W] [DecidableLT W] {ix : CommonIndex D I N HASH_BASIC}
    {adds : List (AddCall D I)} (h : Built ix adds) (hs : Sizes adds) :
    ∃ table : HashVector N HASH_BASIC, Filled table (ranges 0 ix.m_index_map.toList) ∧
      (ix.m_char_vect.length < 2 ^ 31 ∧ ix.m_doc_vect.length < 2 ^ 31 ∧
        (ix.m_index_map.toList.flatMap Prod.snd).length < 2 ^ 31 ∧
        (wordsOf (ranges 0 ix.m_index_map.toList : List (Bytes × N))).length < 2 ^ 31) ∧
      ∀ {words : Bytes} {written : HashVector N HASH_BASIC},
        table.writeFile = some (words, written) → ∃ saved, ix.save false = some
          (indexBytes ix.m_char_vect ix.m_doc_vect (ix.m_index_map.toList.flatMap Prod.snd) words,
            saved) := by
  obtain ⟨table, hchange, hfilled⟩ := changeToHVIndex_built h hs
  have hchars : ix.m_char_vect.length < 2 ^ 31 := by rw [h.chars]; exact hs.texts
  have hdocs : ix.m_doc_vect.length < 2 ^ 31 := by
    rw [h.docs.length_eq]; exact Nat.lt_of_le_of_lt (length_le_textsOf adds) hs.texts
  have hinvs : (ix.m_index_map.toList.flatMap Prod.snd).length < 2 ^ 31 := by
    rw [h.map.invs_length]; exact hs.invs
  have hwords : (wordsOf (ranges 0 ix.m_index_map.toList : List (Bytes × N))).length < 2 ^ 31 := by
    rw [ranges_words h.map]; exact hs.words
  exact ⟨table, hfilled, ⟨hchars, hdocs, hinvs, hwords⟩, fun hwrite =>
    save_of_changed hchange hchars hdocs hinvs hwrite⟩

/-- `Save` of a built index and `Load` of that file by any other index. -/
theorem load_save [LE W] [LT W] [DecidableLE W] [DecidableLT W] (hb : HASH_BASIC < 2 ^ 32)
    {ix : CommonIndex D I N HASH_BASIC}
    {adds : List (AddCall D I)} (h : Built ix adds) (hs : Sizes adds) :
    ∃ bytes saved, ix.save false = some (bytes, saved) ∧
      ∀ junk (other : CommonIndex D I N HASH_BASIC), ∃ loaded,
        other.load junk bytes = some (0, loaded) ∧ Loaded loaded adds := by
  obtain ⟨table, hfilled, ⟨hchars, hdocs, hinvs, hwords⟩, hsave⟩ := save_built h hs
  obtain ⟨words, written, hwrite, hread⟩ := readInFile_writeFile hb hfilled hwords
  obtain ⟨saved, hsave⟩ := hsave hwrite
  refine ⟨_, saved, hsave, fun junk other => ?_⟩
  obtain ⟨loaded, hload, hsearch⟩ := hread junk other.m_index.clear []
  rw [List.append_nil] at hload
  refine ⟨_, load_indexBytes junk hchars hdocs hinvs hload, h.chars, ?_,
    ix.m_index_map, h.map, rfl, hsearch⟩
  have := h.docs
  rwa [h.chars] at this

variable (N) in
/-- An index built from nothing, its file, and what any other index loads from it. -/
theorem addAll_save_load [LE W] [LT W] [DecidableLE W] [DecidableLT W] (hb : HASH_BASIC < 2 ^ 32)
    {adds : List (AddCall D I)} (hs : Sizes adds) :
    ∃ (built saved : CommonIndex D I N HASH_BASIC) (bytes : Bytes),
      (empty : CommonIndex D I N HASH_BASIC).addAll adds = some built ∧
      built.save false = some (bytes, saved) ∧
      ∀ junk (other : CommonIndex D I N HASH_BASIC), ∃ loaded,
        other.load junk bytes = some (0, loaded) ∧ Loaded loaded adds := by
  obtain ⟨built, hadd, hbuilt⟩ : ∃ built : CommonIndex D I N HASH_BASIC,
      empty.addAll adds = some built ∧ Built built adds := addAll_empty hs.texts
  obtain ⟨bytes, saved, hsave, hloads⟩ := load_save hb hbuilt hs
  exact ⟨built, saved, bytes, hadd, hsave, hloads⟩

end Table

end CommonTools.Index.CommonIndex
