import CommonTools.Index.CommonIndexSearch

/-! # Index files that end too early

`load` checks what it reads of the counts, the blocks, the words and the number
of buckets. `readInFile` does not look at what it gets of the buckets: where
the file ends there, they stay empty or zeroed, or an index that was never read
decides where the next one goes. -/
namespace CommonTools.Index
open CommonTools.Lib NodeType

/-! ## How long the file of a table is -/

namespace HashVector
variable {N : Type} [NodeType N] {HASH_BASIC : Nat}

/-- The number of nodes in all buckets. -/
def nodes (h : HashVector N HASH_BASIC) : Nat := ∑ i, (h.data i).length

omit [NodeType N] in
theorem nodes_empty : (empty : HashVector N HASH_BASIC).nodes = 0 :=
  Finset.sum_eq_zero fun _ _ => rfl

theorem nodes_addItem [NeZero HASH_BASIC] (h : HashVector N HASH_BASIC) (item : N) (word : Bytes) :
    (h.addItem item word).nodes = h.nodes + 1 := by
  have hdata : ∀ i, ((h.addItem item word).data i).length =
      (h.data i).length + if i = getHashValue HASH_BASIC word then 1 else 0 := by
    intro i
    simp only [addItem]
    by_cases hi : i = getHashValue HASH_BASIC word
    · subst hi
      rw [Function.update_self, List.length_append, List.length_singleton, if_pos rfl]
    · rw [Function.update_of_ne hi, if_neg hi, Nat.add_zero]
  rw [nodes, nodes, Finset.sum_congr rfl fun i _ => hdata i, Finset.sum_add_distrib,
    Finset.sum_ite_eq' Finset.univ, if_pos (Finset.mem_univ _)]

theorem nodes_sort {h table : HashVector N HASH_BASIC} (hsort : h.sort = some table) :
    table.nodes = h.nodes :=
  Finset.sum_congr rfl fun i _ => @qSort_keeps _ _ (fun v => v.length = (h.data i).length)
    (fun hv hw => (wap_length hw).trans hv) _ _ _ _ _ _ rfl ((sort_bucket hsort).2 i)

/-- A filled table has a node for every item. -/
theorem Filled.nodes [NeZero HASH_BASIC] {h : HashVector N HASH_BASIC} {entries : List (Bytes × N)}
    (hf : Filled h entries) : h.nodes = entries.length := by
  have hsum := @sum_bucketOf N HASH_BASIC _ (fun _ => 1) entries
  rw [List.map_const', List.sum_replicate, smul_eq_mul, Nat.mul_one] at hsum
  rw [← hsum]
  refine Finset.sum_congr rfl fun i _ => ?_
  rw [(hf.buckets i).length_eq, List.map_const', List.sum_replicate, smul_eq_mul, Nat.mul_one]

theorem relocate_length {charVect : Bytes} : ∀ {vect vect' : List N} {buf buf' : Bytes},
    relocate charVect buf vect = some (buf', vect') → vect'.length = vect.length := by
  intro vect
  induction vect with
  | nil =>
    intro vect' buf buf' h
    cases h
    rfl
  | cons node vect ih =>
    intro vect' buf buf' h
    rw [relocate] at h
    obtain ⟨word, -, h⟩ := Option.bind_eq_some_iff.mp h
    obtain ⟨⟨buf₁, vect₁⟩, hrel, h⟩ := Option.bind_eq_some_iff.mp h
    cases h
    rw [List.length_cons, List.length_cons, ih hrel]

theorem relocateAll_lengths {charVect : Bytes} :
    ∀ {buckets buckets' : List (List N)} {buf buf' : Bytes},
      relocateAll charVect buf buckets = some (buf', buckets') →
      buckets'.map List.length = buckets.map List.length := by
  intro buckets
  induction buckets with
  | nil =>
    intro buckets' buf buf' h
    cases h
    rfl
  | cons vect buckets ih =>
    intro buckets' buf buf' h
    rw [relocateAll] at h
    obtain ⟨⟨buf₁, vect₁⟩, hrel, h⟩ := Option.bind_eq_some_iff.mp h
    obtain ⟨⟨buf₂, buckets₂⟩, hrels, h⟩ := Option.bind_eq_some_iff.mp h
    cases h
    rw [List.map_cons, List.map_cons, relocate_length hrel, ih hrels]

theorem bucketsBytes_length : ∀ (i : Nat) (buckets : List (List N)),
    (bucketsBytes i buckets).length =
      8 * buckets.length + Pod.size N * (buckets.map List.length).sum
  | _, [] => rfl
  | i, vect :: buckets => by
    have h32 : ∀ v : BitVec 32, (Pod.toBytes v).length = 4 := Pod.length_toBytes
    rw [bucketsBytes, bucketBytes, List.length_append, List.length_append, List.length_append, h32,
      h32, block_length, bucketsBytes_length (i + 1) buckets, List.length_cons, List.map_cons,
      List.sum_cons, Nat.mul_add (Pod.size N)]
    omega

/-- What `writeFile` writes, and how much of it are buckets. -/
theorem writeFile_shape {h saved : HashVector N HASH_BASIC} {bytes : Bytes}
    (hwrite : h.writeFile = some (bytes, saved)) :
    ∃ words, ∃ buckets : List (List N), bytes = fileBytes HASH_BASIC words buckets ∧
      words.length < 2 ^ 64 ∧
      (bucketsBytes 0 buckets).length = 8 * HASH_BASIC + Pod.size N * h.nodes := by
  obtain ⟨⟨words, buckets⟩, hrel, hwrite⟩ := Option.bind_eq_some_iff.mp hwrite
  dsimp only at hwrite
  split at hwrite
  · rename_i hsize
    have hnum : BitVec.ofNat 64 h.m_charVect.length = BitVec.ofNat 64 words.length := by
      rw [hsize, BitVec.ofNat_toNat, BitVec.setWidth_eq]
    have hlengths := relocateAll_lengths hrel
    have hcount : buckets.length = HASH_BASIC := by
      rw [← List.length_map , hlengths, List.length_map, List.length_ofFn]
    cases hwrite
    refine ⟨words, buckets, ?_, ?_, ?_⟩
    · rw [fileBytes, hnum]
    · rw [hsize]
      exact BitVec.isLt _
    · rw [bucketsBytes_length, hcount, hlengths, List.map_ofFn, List.sum_ofFn]
      rfl
  · cases hwrite

/-! ## A table that ends too early -/

/-- Too little behind the size of the words. -/
theorem readInFile_short (junk : Nat → Nat → UInt8) {h : HashVector N HASH_BASIC} {file : Bytes}
    {r : FileRead} (hr : fread (Pod.toBytes h.m_wordsBufSize) 8 1 file = r)
    (hshort : r.rest.length < (Pod.ofBytes r.mem : BitVec 64).toNat + 4) :
    ∃ table rest, readInFile junk h file = some (false, table, rest) := by
  rw [readInFile, hr]
  dsimp only
  generalize (Pod.ofBytes r.mem : BitVec 64) = size at hshort ⊢
  by_cases hwords : r.rest.length < size.toNat
  · have hcount := (fread_short (fresh junk 3 size.toNat)
      (show r.rest.length < 1 * size.toNat by omega)).1
    rw [if_pos (Nat.ne_of_lt hcount)]
    exact ⟨_, _, rfl⟩
  · have hrest : (fread (fresh junk 3 size.toNat) 1 size.toNat r.rest).rest.length < 4 * 1 := by
      rw [fread, List.length_drop]
      omega
    have hcount := (fread_short (fresh junk 4 4) hrest).1
    split
    · exact ⟨_, _, rfl⟩
    · rw [if_pos (Nat.ne_of_lt hcount)]
      exact ⟨_, _, rfl⟩

/-- `ReadInFile` fails exactly in front of the buckets. -/
theorem readInFile_fails_iff (hb : HASH_BASIC < 2 ^ 32) (junk : Nat → Nat → UInt8)
    (h : HashVector N HASH_BASIC) {words : Bytes} (hwords : words.length < 2 ^ 64)
    (buckets : List (List N)) (k : Nat) :
    (∃ table rest, readInFile junk h ((fileBytes HASH_BASIC words buckets).take k) =
      some (false, table, rest)) ↔ k < 12 + words.length := by
  have hsize : (BitVec.ofNat 64 words.length).toNat = words.length := by
    rw [BitVec.toNat_ofNat, Nat.mod_eq_of_lt hwords]
  have hbasic : (BitVec.ofNat 32 HASH_BASIC).toNat = HASH_BASIC := by
    rw [BitVec.toNat_ofNat, Nat.mod_eq_of_lt hb]
  have hold : (Pod.toBytes h.m_wordsBufSize).length = 8 := Pod.length_toBytes h.m_wordsBufSize
  have h32 : ∀ v : BitVec 32, (Pod.toBytes v).length = 4 := Pod.length_toBytes
  have h64 : ∀ v : BitVec 64, (Pod.toBytes v).length = 8 := Pod.length_toBytes
  have hfile : (fileBytes HASH_BASIC words buckets).take k =
      (Pod.toBytes (BitVec.ofNat 64 words.length)).take k ++
        (words ++ (Pod.toBytes (BitVec.ofNat 32 HASH_BASIC) ++ bucketsBytes 0 buckets)).take
          (k - 8) := by
    rw [fileBytes, List.append_assoc, List.append_assoc, List.take_append, h64]
  by_cases hk : k < 8
  · -- nothing is left for the words and the number of buckets
    refine ⟨fun _ => by omega, fun _ => readInFile_short junk rfl ?_⟩
    have hlen : ((fileBytes HASH_BASIC words buckets).take k).length < 8 * 1 := by
      rw [List.length_take]
      omega
    rw [(fread_short _ hlen).2, List.length_nil]
    omega
  · have hall : (Pod.toBytes (BitVec.ofNat 64 words.length)).take k =
        Pod.toBytes (BitVec.ofNat 64 words.length) := List.take_of_length_le (by rw [h64]; omega)
    rw [hall] at hfile
    have hread := fread_u64 (BitVec.ofNat 64 words.length) _ ((words ++ (Pod.toBytes
      (BitVec.ofNat 32 HASH_BASIC) ++ bucketsBytes 0 buckets)).take (k - 8)) hold
    by_cases hcut : k < 12 + words.length
    · refine ⟨fun _ => hcut, fun _ => readInFile_short junk (hfile.symm ▸ hread) ?_⟩
      rw [Pod.ofBytes_toBytes, hsize, List.length_take]
      omega
    · refine ⟨?_, fun hlt => absurd hlt hcut⟩
      rintro ⟨table, rest, hfail⟩
      have hrest : (words ++ (Pod.toBytes (BitVec.ofNat 32 HASH_BASIC) ++
          bucketsBytes 0 buckets)).take (k - 8) =
          words ++ (Pod.toBytes (BitVec.ofNat 32 HASH_BASIC) ++
            (bucketsBytes 0 buckets).take (k - 8 - words.length - 4)) := by
        rw [List.take_append, List.take_of_length_le (by omega), List.take_append, h32,
          List.take_of_length_le (by rw [h32]; omega)]
      have hbytes := fread_bytes words (fresh junk 3 words.length)
        (Pod.toBytes (BitVec.ofNat 32 HASH_BASIC) ++
          (bucketsBytes 0 buckets).take (k - 8 - words.length - 4)) (fresh_length ..)
      rw [hrest] at hfile hread
      rw [hfile] at hfail
      simp only [readInFile, hread, Pod.ofBytes_toBytes, hsize, hbytes,
        fread_u32 _ _ _ (fresh_length junk _ 4), hbasic, ne_eq, not_true, if_false] at hfail
      -- the loop over the buckets does not report a failure
      obtain ⟨⟨data, left⟩, -, hr⟩ := Option.map_eq_some_iff.mp hfail
      cases hr

/-- Where no bucket is left and memory was zero before, all buckets stay empty. -/
theorem readBuckets_zero [NeZero HASH_BASIC] : ∀ n i : Nat,
    readBuckets (fun _ _ => 0) n i (fun _ : Fin HASH_BASIC => ([] : List N)) [] =
      some (fun _ => [], [])
  | 0, _ => rfl
  | n + 1, i => by
    have hread : ∀ tag, (Pod.ofBytes (fread (fresh (fun _ _ => 0) tag 4) 4 1 []).mem : BitVec 32) =
        0 := fun _ => rfl
    have hrest : ∀ tag, (fread (fresh (fun _ _ => 0) tag 4) 4 1 []).rest = [] := fun _ => rfl
    have hzero : (0 : BitVec 32).toNat = 0 := rfl
    simp only [readBuckets, hrest, hread, hzero, Nat.lt_irrefl, if_false,
      dif_pos (Nat.pos_of_neZero HASH_BASIC)]
    have hsame : Function.update (fun _ : Fin HASH_BASIC => ([] : List N))
        ⟨0, Nat.pos_of_neZero HASH_BASIC⟩ [] = fun _ => [] := Function.update_eq_self _ _
    rw [hsame]
    exact readBuckets_zero n (i + 1)

/-- A table that ends behind the number of its buckets is read as one without
nodes. -/
theorem readInFile_zero [NeZero HASH_BASIC] (hb : HASH_BASIC < 2 ^ 32) (h : HashVector N HASH_BASIC)
    {words : Bytes} (hwords : words.length < 2 ^ 64) :
    ∃ table, readInFile (fun _ _ => 0) h.clear (Pod.toBytes (BitVec.ofNat 64 words.length) ++
        words ++ Pod.toBytes (BitVec.ofNat 32 HASH_BASIC)) = some (true, table, []) ∧
      ∀ i, table.data i = [] := by
  have hsize : (BitVec.ofNat 64 words.length).toNat = words.length := by
    rw [BitVec.toNat_ofNat, Nat.mod_eq_of_lt hwords]
  have hbasic : (BitVec.ofNat 32 HASH_BASIC).toNat = HASH_BASIC := by
    rw [BitVec.toNat_ofNat, Nat.mod_eq_of_lt hb]
  have hold : (Pod.toBytes h.clear.m_wordsBufSize).length = 8 := Pod.length_toBytes _
  have hbytes := fread_bytes words (fresh (fun _ _ => 0) 3 words.length)
    (Pod.toBytes (BitVec.ofNat 32 HASH_BASIC)) (fresh_length ..)
  have hnum := fread_u32 (BitVec.ofNat 32 HASH_BASIC) (fresh (fun _ _ => 0) 4 4) []
    (fresh_length ..)
  rw [List.append_nil] at hnum
  have hbuckets := @readBuckets_zero N _ HASH_BASIC _ HASH_BASIC 0
  rw [List.append_assoc]
  simp only [readInFile, fread_u64 _ _ _ hold, Pod.ofBytes_toBytes, hsize, hbytes, hnum, hbasic,
    ne_eq, not_true, if_false]
  rw [show h.clear.data = fun _ => [] from rfl, hbuckets]
  exact ⟨_, rfl, fun _ => rfl⟩

end HashVector

/-! ## A file that ends too early -/

namespace CommonIndex
variable {D I N W : Type} {HASH_BASIC : Nat}

theorem readBlock_short {size : Nat} (junk : Nat → Nat → UInt8) (tag : Nat) (m_num : BitVec 32)
    {num : BitVec 32} (hnum : 0 ≤ num.toInt) (b rest : Bytes) {k : Nat}
    (hk : k < 4 + size * num.toNat) :
    ∃ r, readBlock size junk tag m_num ((Pod.toBytes num ++ (b ++ rest)).take k) = some r ∧
      r.ok = false := by
  have hold : (Pod.toBytes m_num).length = 4 := Pod.length_toBytes m_num
  have h32 : (Pod.toBytes num).length = 4 := Pod.length_toBytes num
  by_cases hhead : k < 4
  · have hcount := (fread_short (Pod.toBytes m_num) (show ((Pod.toBytes num ++ (b ++ rest)).take
      k).length < 4 * 1 by rw [List.length_take]; omega)).1
    rw [readBlock]
    dsimp only
    rw [if_pos (Nat.ne_of_lt hcount)]
    exact ⟨_, rfl, rfl⟩
  · have hfile : (Pod.toBytes num ++ (b ++ rest)).take k =
        Pod.toBytes num ++ (b ++ rest).take (k - 4) := by
      rw [List.take_append, h32, List.take_of_length_le (by omega)]
    have hcount := (fread_short (fresh junk tag (size * num.toNat))
      (show ((b ++ rest).take (k - 4)).length < size * num.toNat by
        rw [List.length_take]
        omega)).1
    simp only [readBlock, hfile, fread_u32 _ _ _ hold, Pod.ofBytes_toBytes, ne_eq, not_true,
      if_false, if_neg (Int.not_lt.mpr hnum)]
    exact ⟨_, rfl, beq_false_of_ne (Nat.ne_of_lt hcount)⟩

theorem readBlock_take {size : Nat} (hsize : 0 < size) (junk : Nat → Nat → UInt8) (tag : Nat)
    (m_num : BitVec 32) {num : BitVec 32} (hnum : 0 ≤ num.toInt) {b : Bytes}
    (hb : b.length = size * num.toNat) (rest : Bytes) {k : Nat} (hk : 4 + b.length ≤ k) :
    readBlock size junk tag m_num ((Pod.toBytes num ++ (b ++ rest)).take k) =
      some ⟨true, num, some b, rest.take (k - (4 + b.length))⟩ := by
  have h32 : (Pod.toBytes num).length = 4 := Pod.length_toBytes num
  have hlt : num.toNat < 2 ^ 31 := by
    rw [BitVec.toInt_eq_toNat_cond] at hnum
    have := num.isLt
    split at hnum <;> omega
  have hself : BitVec.ofNat 32 num.toNat = num := by rw [BitVec.ofNat_toNat, BitVec.setWidth_eq]
  have hfile : (Pod.toBytes num ++ (b ++ rest)).take k =
      Pod.toBytes num ++ (b ++ rest.take (k - (4 + b.length))) := by
    rw [List.take_append, h32, List.take_of_length_le (by omega), List.take_append,
      List.take_of_length_le (by omega), Nat.sub_sub]
  have hread := readBlock_written junk tag m_num (rest.take (k - (4 + b.length))) hsize hb hlt
  rwa [hself, ← hfile] at hread

section Load
variable [DocType D W] [InvType I] [KeyType N] [NeZero HASH_BASIC]

omit [NeZero HASH_BASIC] in
/-- `Load` fails in front of the table, or where `ReadInFile` does. -/
theorem load_fails_iff (junk : Nat → Nat → UInt8) (other : CommonIndex D I N HASH_BASIC)
    {numChar numDoc numInv : BitVec 32} {chars docs invs : Bytes} (words : Bytes)
    (hnums : 0 ≤ numChar.toInt ∧ 0 ≤ numDoc.toInt ∧ 0 ≤ numInv.toInt)
    (hchars : chars.length = 1 * numChar.toNat) (hdocs : docs.length = Pod.size D * numDoc.toNat)
    (hinvs : invs.length = Pod.size I * numInv.toNat) (k : Nat) :
    (∃ ix, other.load junk ((Pod.toBytes numChar ++ chars ++ (Pod.toBytes numDoc ++ docs) ++
        (Pod.toBytes numInv ++ invs) ++ words).take k) = some (-1, ix)) ↔
      k < 12 + chars.length + docs.length + invs.length ∨
      ∃ table rest, HashVector.readInFile junk other.m_index.clear
        (words.take (k - (12 + chars.length + docs.length + invs.length))) =
          some (false, table, rest) := by
  obtain ⟨hc, hd, hi⟩ := hnums
  simp only [List.append_assoc]
  by_cases hk1 : k < 4 + chars.length
  · obtain ⟨r, hread, hok⟩ := readBlock_short junk 0 other.clear.m_num_char hc chars
      (Pod.toBytes numDoc ++ (docs ++ (Pod.toBytes numInv ++ (invs ++ words)))) (hchars ▸ hk1)
    refine ⟨fun _ => .inl (by omega), fun _ => ?_⟩
    simp only [load, hread, hok, Option.bind_eq_bind, Option.bind_some]
    exact ⟨_, rfl⟩
  · have h1 := readBlock_take Nat.one_pos junk 0 other.clear.m_num_char hc hchars
      (Pod.toBytes numDoc ++ (docs ++ (Pod.toBytes numInv ++ (invs ++ words))))
      (Nat.le_of_not_lt hk1)
    by_cases hk2 : k < 4 + chars.length + (4 + docs.length)
    · obtain ⟨r, hread, hok⟩ := readBlock_short junk 1 other.clear.m_num_doc hd docs
        (Pod.toBytes numInv ++ (invs ++ words))
        (show k - (4 + chars.length) < 4 + Pod.size D * numDoc.toNat by omega)
      refine ⟨fun _ => .inl (by omega), fun _ => ?_⟩
      simp only [load, h1, hread, hok, Option.bind_eq_bind, Option.bind_some]
      exact ⟨_, rfl⟩
    · have h2 := readBlock_take (@DocType.size_pos D W _) junk 1 other.clear.m_num_doc hd hdocs
        (Pod.toBytes numInv ++ (invs ++ words))
        (show 4 + docs.length ≤ k - (4 + chars.length) by omega)
      by_cases hk3 : k < 4 + chars.length + (4 + docs.length) + (4 + invs.length)
      · obtain ⟨r, hread, hok⟩ := readBlock_short junk 2 other.clear.m_num_inv hi invs words
          (show k - (4 + chars.length) - (4 + docs.length) < 4 + Pod.size I * numInv.toNat by omega)
        refine ⟨fun _ => .inl (by omega), fun _ => ?_⟩
        simp only [load, h1, h2, hread, hok, Option.bind_eq_bind, Option.bind_some]
        exact ⟨_, rfl⟩
      · have h3 := readBlock_take (@InvType.size_pos I _) junk 2 other.clear.m_num_inv hi hinvs
          words (show 4 + invs.length ≤ k - (4 + chars.length) - (4 + docs.length) by omega)
        have hleft : k - (4 + chars.length) - (4 + docs.length) - (4 + invs.length) =
            k - (12 + chars.length + docs.length + invs.length) := by omega
        have hclear : other.clear.m_index = other.m_index.clear := rfl
        rw [hleft] at h3
        simp only [load, h1, h2, h3, hclear, Option.bind_eq_bind, Option.bind_some]
        generalize HashVector.readInFile junk other.m_index.clear _ = read
        rw [or_iff_right (by omega)]
        -- the return value is that of `ReadInFile`
        constructor
        · rintro ⟨loaded, hload⟩
          rcases read with _ | ⟨_ | _, table, rest⟩
          · cases hload
          · exact ⟨table, rest, rfl⟩
          · cases hload
        · rintro ⟨table, rest, rfl⟩
          exact ⟨_, rfl⟩

/-! ## How much of a saved index is checked -/

omit [KeyType N] [NeZero HASH_BASIC] in
theorem addAll_map {more : List (AddCall D I)} :
    ∀ {adds : List (AddCall D I)} {ix ix' : CommonIndex D I N HASH_BASIC},
      ix.m_doc_vect.length = adds.length → MapHolds ix.m_index_map (postings 0 adds) →
      ix.addAll more = some ix' →
      MapHolds ix'.m_index_map (postings 0 (adds ++ more)) ∧ ix'.m_index = ix.m_index := by
  induction more with
  | nil =>
    intro adds ix ix' _ hmap h
    cases h
    rw [List.append_nil]
    exact ⟨hmap, rfl⟩
  | cons c more ih =>
    intro adds ix ix' hdocs hmap h
    obtain ⟨map', hadd, hmap'⟩ := add_map hdocs hmap c
    rw [CommonIndex.addAll, List.foldlM_cons, hadd] at h
    have hlen : (ix.m_doc_vect ++ [DocType.setWordOffset ix.m_char_vect.length c.doc_node]).length =
        (adds ++ [c]).length := by
      rw [List.length_append, List.length_append, hdocs]
      rfl
    obtain ⟨hall, hindex⟩ := @ih (adds ++ [c]) _ _ hlen hmap' h
    rw [List.append_assoc] at hall
    exact ⟨hall, hindex⟩

variable [LE W] [LT W] [DecidableLE W] [DecidableLT W]

theorem nodes_moveWord {is_need_sort : Bool} {ix ix' : CommonIndex D I N HASH_BASIC}
    {entry : Bytes × List I} (h : moveWord is_need_sort ix entry = some ix') :
    ix'.m_index.nodes = ix.m_index.nodes + 1 := by
  cases is_need_sort with
  | false =>
    cases h
    exact HashVector.nodes_addItem ..
  | true =>
    obtain ⟨inv_vect, -, h⟩ := Option.bind_eq_some_iff.mp h
    cases h
    exact HashVector.nodes_addItem ..

theorem nodes_moveWords {is_need_sort : Bool} :
    ∀ {L : List (Bytes × List I)} {ix ix' : CommonIndex D I N HASH_BASIC},
      L.foldlM (moveWord is_need_sort) ix = some ix' →
      ix'.m_index.nodes = ix.m_index.nodes + L.length := by
  intro L
  induction L with
  | nil =>
    intro ix ix' h
    cases h
    rfl
  | cons entry L ih =>
    intro ix ix' h
    rw [List.foldlM_cons] at h
    obtain ⟨mid, hmove, h⟩ := Option.bind_eq_some_iff.mp h
    rw [ih h, nodes_moveWord hmove, List.length_cons]
    omega

/-- The table has one node for every word. -/
theorem nodes_changeToHVIndex {ix ix' : CommonIndex D I N HASH_BASIC} {is_need_sort : Bool}
    (h : ix.changeToHVIndex is_need_sort = some ix') :
    ix'.m_index.nodes = ix.m_index.nodes + ix.m_index_map.toList.length := by
  obtain ⟨mid, hmove, h⟩ := Option.bind_eq_some_iff.mp h
  obtain ⟨table, hsort, h⟩ := Option.bind_eq_some_iff.mp h
  cases h
  exact (HashVector.nodes_sort hsort).trans (nodes_moveWords hmove)

theorem fwriteInts_length {α : Type} [Pod α] {l : List α} {b : Bytes}
    (h : fwriteInts (BitVec.ofNat 32 l.length) l = some b) :
    0 ≤ (BitVec.ofNat 32 l.length).toInt ∧
      b.length = Pod.size α * (BitVec.ofNat 32 l.length).toNat := by
  rw [fwriteInts] at h
  split at h
  · cases h
  · cases h
    refine ⟨by omega, ?_⟩
    rw [block_length, List.length_take, BitVec.toNat_ofNat, Nat.min_eq_left (Nat.mod_le _ _)]

/-- What `Save` writes in front of the buckets is all that `Load` checks. -/
theorem load_save_fails_iff (hb : HASH_BASIC < 2 ^ 32) {ix saved : CommonIndex D I N HASH_BASIC}
    {is_need_sort : Bool} {bytes : Bytes} (hsave : ix.save is_need_sort = some (bytes, saved))
    (k : Nat) (junk : Nat → Nat → UInt8) (other : CommonIndex D I N HASH_BASIC) :
    (∃ loaded, other.load junk (bytes.take k) = some (-1, loaded)) ↔
      k + (8 * HASH_BASIC + Pod.size N * (ix.m_index.nodes + ix.m_index_map.toList.length)) <
        bytes.length := by
  obtain ⟨ix', hchange, hsave⟩ := Option.bind_eq_some_iff.mp hsave
  dsimp only at hsave
  split at hsave
  · cases hsave
  · rename_i hnum
    obtain ⟨chars, hchars, hsave⟩ := Option.bind_eq_some_iff.mp hsave
    cases hchars
    obtain ⟨docs, hdocs, hsave⟩ := Option.bind_eq_some_iff.mp hsave
    obtain ⟨invs, hinvs, hsave⟩ := Option.bind_eq_some_iff.mp hsave
    obtain ⟨⟨file, table⟩, hwrite, hsave⟩ := Option.bind_eq_some_iff.mp hsave
    cases hsave
    obtain ⟨words, buckets, rfl, hwords, htail⟩ := HashVector.writeFile_shape hwrite
    obtain ⟨hnumDoc, hlenDoc⟩ := fwriteInts_length hdocs
    obtain ⟨hnumInv, hlenInv⟩ := fwriteInts_length hinvs
    have hlenChar : (ix'.m_char_vect.take (BitVec.ofNat 32 ix'.m_char_vect.length).toNat).length =
        1 * (BitVec.ofNat 32 ix'.m_char_vect.length).toNat := by
      rw [List.length_take, BitVec.toNat_ofNat, Nat.min_eq_left (Nat.mod_le _ _), Nat.one_mul]
    have h32 : ∀ v : BitVec 32, (Pod.toBytes v).length = 4 := Pod.length_toBytes
    have h64 : ∀ v : BitVec 64, (Pod.toBytes v).length = 8 := Pod.length_toBytes
    rw [load_fails_iff junk other _ ⟨Int.not_lt.mp hnum, hnumDoc, hnumInv⟩ hlenChar hlenDoc hlenInv,
      HashVector.readInFile_fails_iff hb junk _ hwords, ← nodes_changeToHVIndex hchange, ← htail]
    simp only [List.length_append, HashVector.fileBytes, h32, h64]
    omega

/-- **When a cut index is refused.** `Load` of the first bytes of a saved index
fails exactly when they end in front of the buckets, which take eight bytes each
and a node for every key. -/
theorem load_truncated_iff {adds : List (AddCall D I)} {ix saved : CommonIndex D I N hashBasic}
    (hadd : (empty : CommonIndex D I N hashBasic).addAll adds = some ix) {is_need_sort : Bool}
    {bytes : Bytes} (hsave : ix.save is_need_sort = some (bytes, saved)) (k : Nat)
    (junk : Nat → Nat → UInt8) (other : CommonIndex D I N hashBasic) :
    (∃ loaded, other.load junk (bytes.take k) = some (-1, loaded)) ↔
      k + (8 * hashBasic + Pod.size N * (keysOf adds).dedup.length) < bytes.length := by
  obtain ⟨hmap, hindex⟩ := addAll_map rfl built_empty.map hadd
  rw [List.nil_append] at hmap
  have hkeys : ix.m_index_map.toList.length = (keysOf adds).dedup.length := by
    rw [← hmap.keys_perm.length_eq, List.length_map]
  have hnodes : ix.m_index.nodes = 0 := by
    rw [hindex]
    exact HashVector.nodes_empty
  rw [load_save_fails_iff (by decide) hsave, hkeys, hnodes, Nat.zero_add]

/-- The file of an index whose buffers fit. -/
theorem saved_of_sizes {adds : List (AddCall D I)} (hs : Sizes adds) :
    ∃ (ix saved : CommonIndex D I N hashBasic) (chars : Bytes) (docs : List D) (invs : List I)
      (words : Bytes) (buckets : List (List N)), empty.addAll adds = some ix ∧
      ix.save false =
        some (indexBytes chars docs invs (HashVector.fileBytes hashBasic words buckets), saved) ∧
      chars.length < 2 ^ 31 ∧ docs.length < 2 ^ 31 ∧ invs.length < 2 ^ 31 ∧
      words.length < 2 ^ 64 ∧ (HashVector.bucketsBytes 0 buckets).length =
        8 * hashBasic + Pod.size N * (keysOf adds).dedup.length := by
  obtain ⟨ix, hadd, hb⟩ : ∃ ix : CommonIndex D I N hashBasic,
      empty.addAll adds = some ix ∧ Built ix adds := addAll_empty hs.texts
  obtain ⟨table, hfilled, ⟨hchars, hdocs, hinvs, hwords⟩, hsave⟩ := save_built hb hs
  obtain ⟨_, _, written, hwrite, -⟩ := HashVector.writeFile_of_filled hfilled hwords
  obtain ⟨saved, hsave⟩ := hsave hwrite
  obtain ⟨words, buckets, heq, hlen, htail⟩ := HashVector.writeFile_shape hwrite
  have hnodes : table.nodes = (keysOf adds).dedup.length := by
    rw [hfilled.nodes, ← hb.map.keys_perm.length_eq, ← @ranges_fst I N _ 0, List.length_map]
  rw [heq] at hsave
  rw [hnodes] at htail
  exact ⟨ix, saved, _, _, _, words, buckets, hadd, hsave, hchars, hdocs, hinvs, hlen, htail⟩

end Load

/-! ### Two documents -/

theorem sizes_twoCalls : Sizes twoCalls := ⟨by decide, by decide, by decide⟩

theorem load_truncated_iff_twoCalls : ∃ ix bytes saved,
    (empty : CommonIndex (DlgDocType (BitVec 32)) DlgInvType DlgKeyType hashBasic).addAll twoCalls =
      some ix ∧ ix.save false = some (bytes, saved) ∧
      ∀ k junk (other : CommonIndex (DlgDocType (BitVec 32)) DlgInvType DlgKeyType hashBasic),
        (∃ loaded, other.load junk (bytes.take k) = some (-1, loaded)) ↔
          k + (8 * hashBasic + 32) < bytes.length := by
  obtain ⟨ix, saved, chars, docs, invs, words, buckets, hadd, hsave, -⟩ :=
    @saved_of_sizes _ _ DlgKeyType _ _ _ _ _ _ _ _ _ sizes_twoCalls
  exact ⟨ix, _, saved, hadd, hsave, fun k junk other => load_truncated_iff hadd hsave k junk other⟩

/-- Without its buckets the index is accepted, and no word is found. -/
theorem load_truncated_accepted : ∃ ix bytes saved,
    (empty : CommonIndex (DlgDocType (BitVec 32)) DlgInvType DlgKeyType hashBasic).addAll twoCalls =
      some ix ∧ ix.save false = some (bytes, saved) ∧
      bytes.length - (8 * hashBasic + 32) < bytes.length ∧
      ∃ loaded, (empty : CommonIndex (DlgDocType (BitVec 32)) DlgInvType DlgKeyType hashBasic).load
          (fun _ _ => 0) (bytes.take (bytes.length - (8 * hashBasic + 32))) = some (0, loaded) ∧
        ∀ word, loaded.getInv word = some none := by
  obtain ⟨ix, saved, chars, docs, invs, words, buckets, hadd, hsave, hchars, hdocs, hinvs, hwords,
    htail⟩ := @saved_of_sizes _ _ DlgKeyType _ _ _ _ _ _ _ _ _ sizes_twoCalls
  have hkeys : Pod.size DlgKeyType * (keysOf twoCalls).dedup.length = 32 := by decide
  rw [hkeys] at htail
  obtain ⟨table, hread, hempty⟩ := HashVector.readInFile_zero (by decide)
    (empty : CommonIndex (DlgDocType (BitVec 32)) DlgInvType DlgKeyType hashBasic).m_index hwords
  generalize hhead : Pod.toBytes (BitVec.ofNat 64 words.length) ++ words ++
    Pod.toBytes (BitVec.ofNat 32 hashBasic) = head at hread
  have hsplit : indexBytes chars docs invs (HashVector.fileBytes hashBasic words buckets) =
      indexBytes chars docs invs head ++ HashVector.bucketsBytes 0 buckets := by
    simp only [indexBytes, HashVector.fileBytes, hhead, List.append_assoc]
  refine ⟨ix, _, saved, hadd, hsave, ?_⟩
  rw [hsplit, List.length_append, htail, Nat.add_sub_cancel, List.take_left]
  refine ⟨by omega, _, load_indexBytes _ hchars hdocs hinvs hread, fun word => ?_⟩
  have hfind : table.find word = some none := by
    rw [HashVector.find, hempty]
    rfl
  rw [getInv, hfind]
  rfl

end CommonIndex

end CommonTools.Index
