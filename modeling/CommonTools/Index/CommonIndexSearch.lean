import CommonTools.Index.CommonIndexSound

/-! # Searching a loaded index

`getInv` on an index that was saved and loaded walks the postings of a word,
and every posting leads back to the text of the call that added it. -/
namespace CommonTools.Index.CommonIndex
open CommonTools.Lib HashVector NodeType

variable {D I N W : Type} {HASH_BASIC : Nat}
variable [DocType D W] [InvType I] [KeyType N] [NeZero HASH_BASIC]

/-- The index answers every search for a C string as the calls `adds` say. -/
structure Answers (ix : CommonIndex D I N HASH_BASIC) (adds : List (AddCall D I)) : Prop where
  missing : ∀ w, NulFree w → (ix.getInv w = some none ↔ ∀ c ∈ adds, w ∉ c.key_vect)
  found : ∀ w, NulFree w → (∃ c ∈ adds, w ∈ c.key_vect) →
    ∃ inv_list num_inv, ix.getInv w = some (some (inv_list, num_inv)) ∧
      ix.walk inv_list num_inv = some (postings 0 adds w)
  call : ∀ w, ∀ inv ∈ postings 0 adds w, ∃ (id : Nat) (c : AddCall D I),
    adds[id]? = some c ∧ inv ∈ c.postings id w ∧ InvType.docId inv = id ∧
    ix.getDocText (getDoc inv) = some c.doc_text

/-! ## From a node of the table to the postings -/

omit [NeZero HASH_BASIC] in
theorem keyBegin_congr {node item : N} (h : ∀ k, setWordOffset k node = setWordOffset k item) :
    KeyType.keyBegin node = KeyType.keyBegin item := by
  rw [← KeyType.begin_set 0 node, h 0, KeyType.begin_set]

omit [NeZero HASH_BASIC] in
theorem keyEnd_congr {node item : N} (h : ∀ k, setWordOffset k node = setWordOffset k item) :
    KeyType.keyEnd node = KeyType.keyEnd item := by
  rw [← KeyType.end_set 0 node, h 0, KeyType.end_set]

/-- The range of a word shows its postings. -/
theorem Loaded.walk {ix : CommonIndex D I N HASH_BASIC} {adds : List (AddCall D I)}
    (h : Loaded ix adds) (hs : Sizes adds) {w : Bytes} (hw : NulFree w) :
    (∃ inv_list num_inv, ix.getInv w = some (some (inv_list, num_inv)) ∧
      ix.walk inv_list num_inv = some (postings 0 adds w) ∧ w ∈ keysOf adds) ∨
    (ix.getInv w = some none ∧ w ∉ keysOf adds) := by
  obtain ⟨map, hmap, hbuf, hsearch⟩ := h.index
  rcases find_spec hsearch (ranges_ascending map) hw with ⟨node, item, hf, hmem, hp⟩ | ⟨hf, hno⟩
  · obtain ⟨pre, v, post, hv, hflat, rfl⟩ := mem_ranges hmem
    have hlen : (pre ++ v ++ post).length < 2 ^ 31 := by
      rw [← hflat, hmap.invs_length]; exact hs.invs
    rw [List.length_append, List.length_append] at hlen
    rw [Nat.zero_add] at hp
    have hb := (keyBegin_congr hp).trans (KeyType.begin_ofRange _ _ (by omega))
    have he := (keyEnd_congr hp).trans (KeyType.end_ofRange _ _ (by omega))
    have hnum : ((pre.length + v.length : Nat) - (pre.length : Nat) : Int).toNat = v.length := by
      omega
    refine .inl ⟨_, _, by simp only [getInv, hf, Option.bind_eq_bind, Option.bind_some]; rfl, ?_, ?_⟩
    · rw [CommonIndex.walk, hb, he, hbuf, hflat, hnum, mapM_at?_middle, hmap.mem_toList hv]
    · rw [← hmap.mem_keys]
      exact List.mem_map.mpr ⟨_, hv, rfl⟩
  · refine .inr ⟨by simp only [getInv, hf, Option.bind_eq_bind, Option.bind_some], fun hk => ?_⟩
    rw [← hmap.mem_keys, ← @ranges_fst I N _ 0, List.mem_map] at hk
    obtain ⟨e, he, rfl⟩ := hk
    exact hno e.2 he

/-! ## From a posting to its call -/

omit [DocType D W] [KeyType N] [NeZero HASH_BASIC] in
/-- Every posting belongs to one call and carries its number. -/
theorem mem_postings {w : Bytes} {inv : I} :
    ∀ {id : Nat} {adds : List (AddCall D I)}, inv ∈ postings id adds w →
      ∃ (k : Nat) (c : AddCall D I), adds[k]? = some c ∧ inv ∈ c.postings (id + k) w
  | _, [], h => by simp [postings] at h
  | id, c :: rest, h => by
    rcases List.mem_append.mp h with h | h
    · exact ⟨0, c, rfl, h⟩
    · obtain ⟨k, c', hk, hin⟩ := mem_postings h
      exact ⟨k + 1, c', hk, by rwa [Nat.add_assoc, Nat.add_comm 1] at hin⟩

omit [DocType D W] [KeyType N] [NeZero HASH_BASIC] in
theorem AddCall.docId_of_mem {c : AddCall D I} {id : Nat} {w : Bytes} {inv : I}
    (h : inv ∈ c.postings id w) (hid : id < 2 ^ 31) : InvType.docId inv = id := by
  obtain ⟨p, _, rfl⟩ := List.mem_map.mp h
  exact InvType.docId_set id p.2 hid

theorem Loaded.answers {ix : CommonIndex D I N HASH_BASIC} {adds : List (AddCall D I)}
    (h : Loaded ix adds) (hs : Sizes adds) : Answers ix adds := by
  have hkey : ∀ w, w ∈ keysOf adds ↔ ∃ c ∈ adds, w ∈ c.key_vect := fun w => List.mem_flatMap
  refine ⟨fun w hw => ?_, fun w hw hin => ?_, fun w inv hinv => ?_⟩
  · rcases h.walk hs hw with ⟨b, n, hget, _, hin⟩ | ⟨hget, hout⟩
    · obtain ⟨c, hc, hwc⟩ := (hkey w).mp hin
      exact ⟨fun hn => by rw [hget] at hn; simp at hn, fun hno => absurd hwc (hno c hc)⟩
    · exact ⟨fun _ c hc hwc => hout ((hkey w).mpr ⟨c, hc, hwc⟩), fun _ => hget⟩
  · rcases h.walk hs hw with ⟨b, n, hget, hwalk, _⟩ | ⟨_, hout⟩
    · exact ⟨b, n, hget, hwalk⟩
    · exact absurd ((hkey w).mpr hin) hout
  · obtain ⟨id, c, hc, hin⟩ := mem_postings hinv
    rw [Nat.zero_add] at hin
    have hidlt : id < adds.length := (List.getElem?_eq_some_iff.mp hc).1
    have hid := AddCall.docId_of_mem hin
      (Nat.lt_of_lt_of_le hidlt (Nat.le_of_lt (Nat.lt_of_le_of_lt (length_le_textsOf adds) hs.texts)))
    refine ⟨id, c, hc, hin, hid, ?_⟩
    obtain ⟨hlen, hshow⟩ := List.forall₂_iff_get.mp h.docs
    have hdoc := hshow id (hlen ▸ hidlt) hidlt
    have hget : (adds.get ⟨id, hidlt⟩) = c := (List.getElem?_eq_some_iff.mp hc).2
    rw [hget] at hdoc
    rw [getDocText, getDoc, hid, at?_natCast, List.getElem?_eq_getElem (hlen ▸ hidlt),
      Option.bind_eq_bind, Option.bind_some, h.chars]
    exact hdoc

/-- **A saved and loaded index is a faithful inverted index.** -/
theorem load_save_answers [LE W] [LT W] [DecidableLE W] [DecidableLT W]
    (adds : List (AddCall D I)) (hs : Sizes adds) :
    ∃ (ix : CommonIndex D I N hashBasic) (bytes : Bytes) (saved : CommonIndex D I N hashBasic),
      (empty : CommonIndex D I N hashBasic).addAll adds = some ix ∧
      ix.save false = some (bytes, saved) ∧
      ∀ junk (other : CommonIndex D I N hashBasic), ∃ loaded,
        other.load junk bytes = some (0, loaded) ∧ loaded.Answers adds := by
  obtain ⟨ix, saved, bytes, hadd, hsave, hload⟩ := addAll_save_load N (by decide : hashBasic < 2 ^ 32) hs
  refine ⟨ix, bytes, saved, hadd, hsave, fun junk other => ?_⟩
  obtain ⟨loaded, hl, hloaded⟩ := hload junk other
  exact ⟨loaded, hl, hloaded.answers hs⟩

/-- Two documents that share the word `b`. -/
def twoCalls : List (AddCall (DlgDocType (BitVec 32)) DlgInvType) :=
  [⟨[[97], [98]], [⟨0, 1, 0, 0⟩, ⟨1, 1, 0, 0⟩], ⟨0, 5⟩, [104, 105], rfl, by decide, by decide⟩,
    ⟨[[98]], [⟨0, 1, 1, 0⟩], ⟨0, 7⟩, [106], rfl, by decide, by decide⟩]

theorem load_save_answers_twoCalls :
    ∃ (ix : CommonIndex (DlgDocType (BitVec 32)) DlgInvType DlgKeyType hashBasic) (bytes : Bytes)
      (saved : CommonIndex (DlgDocType (BitVec 32)) DlgInvType DlgKeyType hashBasic),
      empty.addAll twoCalls = some ix ∧ ix.save false = some (bytes, saved) ∧
      ∀ junk (other : CommonIndex (DlgDocType (BitVec 32)) DlgInvType DlgKeyType hashBasic),
        ∃ loaded, other.load junk bytes = some (0, loaded) ∧ loaded.Answers twoCalls :=
  load_save_answers twoCalls ⟨by decide, by decide, by decide⟩

end CommonTools.Index.CommonIndex
