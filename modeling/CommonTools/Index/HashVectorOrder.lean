import CommonTools.Index.CommonIndex
import CommonTools.Index.HashVectorSound

/-! # Items that come out of order

`Sort` exchanges nodes through the node type's `operator=`, and that of both key
types assigns the word offset to itself: the ranges change places and the words
stay. So a bucket is in order after `Sort` only if its words came in order, and
`Find` answers for all of them only then. -/
namespace CommonTools.Index.HashVector
open CommonTools.Lib NodeType KeyType

/-! ## `Sort` moves no word -/

section
variable {N : Type} [NodeType N]

/-- The words of a bucket, by their offsets. -/
def offsets (vect : List N) : List Int := vect.map wordOffset

/-- `operator=` leaves the word offset as it is. -/
def KeepsOffset (N : Type) [NodeType N] : Prop :=
  ∀ dst src : N, wordOffset (assign dst src) = wordOffset dst

variable {buf : Bytes} {vect vect' : List N}

theorem at_offsets {i : Int} {node : N} (h : at? vect i = some node) :
    at? (offsets vect) i = some (wordOffset node) := by
  obtain ⟨k, rfl, hk⟩ := at?_eq_some.mp h
  rw [at?_natCast, offsets, List.getElem?_map, hk]
  rfl

theorem put_offsets {i : Int} {node : N} (hnode : at? (offsets vect) i = some (wordOffset node))
    (h : put? vect i node = some vect') : offsets vect' = offsets vect := by
  obtain ⟨k, rfl, hk⟩ := at?_eq_some.mp hnode
  rw [put?] at h
  split at h
  · cases h
    obtain ⟨hlt, hget⟩ := List.getElem?_eq_some_iff.mp hk
    rw [Int.toNat_natCast, offsets, List.map_set, ← offsets, ← hget, List.set_getElem_self]
  · cases h

theorem wap_offsets (hkeep : KeepsOffset N) {i j : Int}
    (h : wap assign uninit vect i j = some vect') : offsets vect' = offsets vect := by
  obtain ⟨node1, hnode1, h⟩ := Option.bind_eq_some_iff.mp h
  obtain ⟨node2, hnode2, h⟩ := Option.bind_eq_some_iff.mp h
  obtain ⟨vect1, hput, h⟩ := Option.bind_eq_some_iff.mp h
  have hfirst : offsets vect1 = offsets vect :=
    put_offsets (by rw [hkeep]; exact at_offsets hnode1) hput
  rw [← hfirst]
  exact put_offsets (by rw [hkeep, hfirst]; exact at_offsets hnode2) h

/-- After `Sort` every bucket has its words where they were. -/
theorem sort_offsets {HASH_BASIC : Nat} (hkeep : KeepsOffset N) {h table : HashVector N HASH_BASIC}
    (hsort : h.sort = some table) :
    table.m_wordsBuf = some h.m_charVect ∧ ∀ i, offsets (table.data i) = offsets (h.data i) := by
  obtain ⟨hbuf, hbucket⟩ := sort_bucket hsort
  exact ⟨hbuf, fun i => @qSort_keeps _ _ (fun v => offsets v = offsets (h.data i))
    (fun hv hw => (wap_offsets hkeep hw).trans hv) _ _ _ _ _ _ rfl (hbucket i)⟩

/-! ## A search that finds every word -/

theorem wordAt_of_offsets {entries : List (Bytes × N)} (h : Holds buf vect entries)
    (hoff : offsets vect' = offsets vect) {i : Int} (h0 : 0 ≤ i) (hi : i < vect.length) :
    ∃ node, at? vect' i = some node ∧ wordAt buf node = some (wordNo entries i) := by
  obtain ⟨node, entry, hat, hget, hst⟩ := h.at? h0 hi
  have hoffset := at_offsets hat
  obtain ⟨k, rfl, hk⟩ := at?_eq_some.mp hoffset
  rw [← hoff, offsets, List.getElem?_map] at hk
  obtain ⟨node', hnode', hsame⟩ := Option.map_eq_some_iff.mp hk
  refine ⟨node', by rw [at?_natCast, hnode'], ?_⟩
  rw [wordNo_of_get hget, wordAt, hsame, ← wordAt, hst.word]

/-- A bucket in which every word is found is in order. -/
theorem ascending_of_found {entries : List (Bytes × N)} (h : Holds buf vect entries)
    (hnd : (entries.map Prod.fst).Nodup) (hoff : offsets vect' = offsets vect)
    (hfound : ∀ e ∈ entries, ∃ node, findIn buf e.1 vect' = some (some node)) :
    Ascending entries := by
  have hlen := h.length_eq
  have hlen' : vect'.length = vect.length := by
    have := congrArg List.length hoff
    simpa [offsets] using this
  have hget : ∀ i : Int, 0 ≤ i → i < vect.length → ∃ e, entries[i.toNat]? = some e := by
    intro i h0 hi
    exact ⟨_, List.getElem?_eq_getElem (by omega)⟩
  have hsep := @bisect_separates (fun left right => (left + right) / 2) midpoint_half
    (fun j => compareAt buf (wordNo entries j) vect')
    (fun j i => strcmp (wordNo entries j) (wordNo entries i)) vect'.length 0 (vect'.length - 1) ?_ ?_
  · rw [Ascending, List.pairwise_iff_getElem]
    intro i j hi hj hij
    obtain ⟨m, him, hmj, hlt, hgt⟩ := hsep i j (by omega) (by omega) (by omega)
    have hwi : wordNo entries i = entries[i].1 :=
      wordNo_of_get (by rw [Int.toNat_natCast]; exact List.getElem?_eq_getElem hi)
    have hwj : wordNo entries j = entries[j].1 :=
      wordNo_of_get (by rw [Int.toNat_natCast]; exact List.getElem?_eq_getElem hj)
    rw [hwi] at hlt
    rw [hwj, strcmp_gt_iff] at hgt
    rcases hlt with hlt | hlt <;> rcases hgt with hgt | hgt
    · omega
    · rw [← hlt, hwi] at hgt
      exact hgt
    · rw [← hgt, hwj] at hlt
      exact hlt
    · exact strcmp_lt_trans hlt hgt
  · intro j i hj0 hj hi0 hi
    obtain ⟨node, hat, hword⟩ := wordAt_of_offsets h hoff (i := i) hi0 (by omega)
    refine ⟨by simp [compareAt, hat, hword], fun heq => ?_⟩
    obtain ⟨ej, hej⟩ := hget j hj0 (by omega)
    obtain ⟨ei, hei⟩ := hget i hi0 (by omega)
    rw [strcmp_eq_iff, wordNo_of_get hej, wordNo_of_get hei] at heq
    obtain ⟨hjlt, rfl⟩ := List.getElem?_eq_some_iff.mp hej
    obtain ⟨hilt, rfl⟩ := List.getElem?_eq_some_iff.mp hei
    have hjmap : j.toNat < (entries.map Prod.fst).length := by simpa using hjlt
    have himap : i.toNat < (entries.map Prod.fst).length := by simpa using hilt
    have hsame : (entries.map Prod.fst)[j.toNat] = (entries.map Prod.fst)[i.toNat] := by
      rw [List.getElem_map, List.getElem_map, heq]
    have hpos := hnd.getElem_inj_iff.mp hsame
    omega
  · intro j hj0 hj
    obtain ⟨e, he⟩ := hget j hj0 (by omega)
    obtain ⟨node, hnode⟩ := hfound e (List.mem_of_getElem? he)
    rw [wordNo_of_get he]
    obtain ⟨o, ho, hnode⟩ := Option.bind_eq_some_iff.mp hnode
    cases o with
    | none => cases hnode
    | some m => exact ⟨m, ho⟩

end

/-! ## The table as a map -/

section
variable {N : Type} [KeyType N] {HASH_BASIC : Nat} [NeZero HASH_BASIC]

/-- The words of a sequence of `AddItem` calls: pairwise distinct, without NUL,
and together within the `int` that a word offset is kept in. -/
structure DistinctWords (entries : List (Bytes × N)) : Prop where
  nulFree : ∀ e ∈ entries, NulFree e.1
  nodup : (entries.map Prod.fst).Nodup
  size : (wordsOf entries).length < 2 ^ 31

/-- After adding the items in this order and `Sort`, `Find` returns for every
word the range that was added with it, and the null pointer for a word that was
not added. -/
def Answers (HASH_BASIC : Nat) [NeZero HASH_BASIC] (entries : List (Bytes × N)) : Prop :=
  ∃ table, ((empty : HashVector N HASH_BASIC).addAll entries).sort = some table ∧
    ∀ word, NulFree word →
      (∀ item, (word, item) ∈ entries → ∃ node, table.find word = some (some node) ∧
        keyBegin node = keyBegin item ∧ keyEnd node = keyEnd item) ∧
      ((∀ item, (word, item) ∉ entries) → table.find word = some none)

theorem DistinctWords.filled {entries : List (Bytes × N)} (h : DistinctWords entries) :
    Filled ((empty : HashVector N HASH_BASIC).addAll entries) entries := by
  have hf := (@filled_empty N _ HASH_BASIC _).addAll h.nulFree (by
    rw [List.nil_append]
    exact h.size)
  rwa [List.nil_append] at hf

theorem range_of_payload {node item : N} (h : ∀ k, setWordOffset k node = setWordOffset k item) :
    keyBegin node = keyBegin item ∧ keyEnd node = keyEnd item := by
  rw [← begin_set 0 node, ← end_set 0 node, h 0, begin_set, end_set]
  exact ⟨rfl, rfl⟩

theorem answers_of_ascending {entries : List (Bytes × N)} (h : DistinctWords entries)
    (hasc : ∀ i : Fin HASH_BASIC, Ascending (bucketOf i entries)) : Answers HASH_BASIC entries := by
  have hf : Filled ((empty : HashVector N HASH_BASIC).addAll entries) entries := h.filled
  rw [Answers]
  generalize (empty : HashVector N HASH_BASIC).addAll entries = added at hf ⊢
  have hb : ∀ i, sortBucket added.m_charVect (added.data i) = some (added.data i) := fun i =>
    sortBucket_ascending (hf.buckets i) (hasc i)
  refine ⟨{ added with m_wordsBuf := some added.m_charVect }, by simp [sort, hb], fun word hw => ?_⟩
  have hspec := findIn_spec word (hf.buckets (getHashValue HASH_BASIC word)) (hasc _)
  have hmem : ∀ item, (word, item) ∈ bucketOf (getHashValue HASH_BASIC word) entries ↔
      (word, item) ∈ entries := fun item => by simp [bucketOf]
  simp only [find, Option.getD_some, cstr_eq_self hw]
  rcases hspec with ⟨node, item, hfind, hin, hp⟩ | ⟨hfind, hno⟩
  · refine ⟨fun item' hitem' => ⟨node, hfind, ?_⟩, fun hnot => absurd ((hmem item).mp hin) (hnot item)⟩
    have hlookup := lookup_of_mem ((hmem item).mp hin) h.nodup
    rw [lookup_of_mem hitem' h.nodup] at hlookup
    rw [Option.some.inj hlookup]
    exact range_of_payload hp
  · exact ⟨fun item hitem => absurd ((hmem item).mpr hitem) (hno item), fun _ => hfind⟩

theorem ascending_of_answers (hkeep : KeepsOffset N) {entries : List (Bytes × N)}
    (h : DistinctWords entries) (ha : Answers HASH_BASIC entries) (i : Fin HASH_BASIC) :
    Ascending (bucketOf i entries) := by
  obtain ⟨table, hsort, hanswer⟩ := ha
  have hf : Filled ((empty : HashVector N HASH_BASIC).addAll entries) entries := h.filled
  obtain ⟨hbuf, hoff⟩ := sort_offsets hkeep hsort
  have hsub : (bucketOf i entries).Sublist entries := List.filter_sublist
  refine ascending_of_found (hf.buckets i) (h.nodup.sublist (hsub.map Prod.fst)) (hoff i) ?_
  intro e he
  have hbucket : getHashValue HASH_BASIC e.1 = i := by simpa using (List.mem_filter.mp he).2
  have hw := h.nulFree e (hsub.subset he)
  obtain ⟨node, hfind, -⟩ := (hanswer e.1 hw).1 e.2 (hsub.subset he)
  refine ⟨node, ?_⟩
  rw [find, hbuf, Option.getD_some, cstr_eq_self hw, hbucket] at hfind
  exact hfind

end

/-- **Which orders are answered.** `Find` answers for all words exactly when the
words of each bucket come in ascending order. -/
theorem sort_answers_iff (HASH_BASIC : Nat) [NeZero HASH_BASIC] :
    (∀ entries : List (Bytes × DefaultKeyType), DistinctWords entries →
      (Answers HASH_BASIC entries ↔ ∀ i : Fin HASH_BASIC, Ascending (bucketOf i entries))) ∧
    (∀ entries : List (Bytes × DlgKeyType), DistinctWords entries →
      (Answers HASH_BASIC entries ↔ ∀ i : Fin HASH_BASIC, Ascending (bucketOf i entries))) :=
  ⟨fun _ h => ⟨ascending_of_answers (fun _ _ => rfl) h, answers_of_ascending h⟩,
    fun _ h => ⟨ascending_of_answers (fun _ _ => rfl) h, answers_of_ascending h⟩⟩

/-- `a` and `lvt`, which fall in one of the 11111 buckets. -/
def collidingWords : List (Bytes × DefaultKeyType) :=
  [([97], ⟨0, 0, 1⟩), ([108, 118, 116], ⟨0, 1, 2⟩)]

theorem sort_answers_iff_colliding : Answers hashBasic collidingWords := by
  have hdistinct : DistinctWords collidingWords := ⟨by decide, by decide, by decide⟩
  refine ((sort_answers_iff hashBasic).1 collidingWords hdistinct).mpr fun i => ?_
  have hall : Ascending collidingWords := by
    simp only [Ascending, collidingWords, List.pairwise_cons]
    decide
  exact hall.bucketOf i

/-- Out of order, one of them is not found. -/
theorem sort_out_of_order :
    ¬ ∀ entries : List (Bytes × DefaultKeyType), DistinctWords entries →
      Answers hashBasic entries := by
  intro h
  have hdistinct : DistinctWords collidingWords.reverse := ⟨by decide, by decide, by decide⟩
  have hasc := ascending_of_answers (fun _ _ => rfl) hdistinct (h _ hdistinct)
    (getHashValue hashBasic [97])
  have hall : (collidingWords.reverse.all fun e =>
      decide (getHashValue hashBasic e.1 = getHashValue hashBasic [97])) = true := by decide +kernel
  have hbucket : bucketOf (getHashValue hashBasic [97]) collidingWords.reverse =
      collidingWords.reverse := List.filter_eq_self.mpr (List.all_eq_true.mp hall)
  rw [hbucket, collidingWords] at hasc
  simp only [Ascending, List.reverse_cons, List.reverse_nil, List.nil_append, List.pairwise_cons,
    List.cons_append] at hasc
  exact absurd (hasc.1 _ List.mem_cons_self) (by decide)

end CommonTools.Index.HashVector
