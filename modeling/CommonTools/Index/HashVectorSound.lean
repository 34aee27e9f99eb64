import Mathlib.Algebra.BigOperators.Fin
import CommonTools.Index.HashVector

/-! # A filled table answers for the items added to it

Items enter with their words in ascending order, so every bucket is ascending
and the bucket sort has nothing to exchange. Writing and reading the table
moves every word to a new offset; the nodes follow. `Holds` is the relation
between a bucket and the items behind it that all of this preserves. -/
namespace CommonTools.Index.HashVector
open CommonTools.Lib NodeType

/-! ## The words of a list of items -/

section Words
variable {N : Type}

/-- The words of a list of items, each with its terminator. -/
def wordsOf (entries : List (Bytes × N)) : Bytes := entries.flatMap fun e => e.1 ++ [0]

theorem wordsOf_append (a b : List (Bytes × N)) : wordsOf (a ++ b) = wordsOf a ++ wordsOf b := by
  simp [wordsOf]

theorem wordsOf_length (entries : List (Bytes × N)) :
    (wordsOf entries).length = (entries.map fun e => e.1.length + 1).sum := by
  induction entries with
  | nil => rfl
  | cons e rest ih =>
    rw [wordsOf, List.flatMap_cons, List.length_append, ← wordsOf, ih]
    simp

end Words

variable {N : Type} [NodeType N] {HASH_BASIC : Nat}

/-! ## Nodes and the items they stand for -/

/-- `node` shows its item's word in `buf` and has the item's other members. -/
structure Stands (buf : Bytes) (node : N) (entry : Bytes × N) : Prop where
  nulFree : NulFree entry.1
  word : wordAt buf node = some entry.1
  payload : ∀ k, setWordOffset k node = setWordOffset k entry.2

/-- A bucket stands for a list of items, node by node. -/
def Holds (buf : Bytes) (vect : List N) (entries : List (Bytes × N)) : Prop :=
  List.Forall₂ (Stands buf) vect entries

theorem Stands.append {buf : Bytes} {node : N} {entry : Bytes × N} (h : Stands buf node entry)
    (post : Bytes) : Stands (buf ++ post) node entry where
  nulFree := h.nulFree
  word := cstrAt_append h.word post
  payload := h.payload

theorem Holds.append {buf : Bytes} {vect : List N} {entries : List (Bytes × N)}
    (h : Holds buf vect entries) (post : Bytes) : Holds (buf ++ post) vect entries :=
  List.Forall₂.imp (fun _ _ hs => hs.append post) h

/-- A node pointed at a word just written stands for it. -/
theorem stands_written {pre word : Bytes} {node item : N} (hw : NulFree word)
    (hlt : pre.length < 2 ^ 31) (hp : ∀ k, setWordOffset k node = setWordOffset k item)
    (post : Bytes) :
    Stands (pre ++ word ++ 0 :: post) (setWordOffset pre.length node) (word, item) where
  nulFree := hw
  word := by rw [wordAt, wordOffset_set _ _ hlt, cstrAt_written hw]
  payload k := by rw [set_set, hp]

theorem Holds.at? {buf : Bytes} {vect : List N} {entries : List (Bytes × N)}
    (h : Holds buf vect entries) {i : Int} (h0 : 0 ≤ i) (hi : i < vect.length) :
    ∃ node entry, at? vect i = some node ∧ entries[i.toNat]? = some entry ∧
      Stands buf node entry := by
  have hlen := h.length_eq
  have hv : i.toNat < vect.length := by omega
  have he : i.toNat < entries.length := by omega
  refine ⟨vect[i.toNat], entries[i.toNat], ?_, List.getElem?_eq_getElem he, ?_⟩
  · rw [at?_eq_some]
    exact ⟨i.toNat, by omega, List.getElem?_eq_getElem hv⟩
  · exact h.get hv he

/-! ## Adding items -/

section Add
variable [NeZero HASH_BASIC]

/-- The items of one bucket, in the order they came. -/
def bucketOf (i : Fin HASH_BASIC) (entries : List (Bytes × N)) : List (Bytes × N) :=
  entries.filter fun e => getHashValue HASH_BASIC e.1 = i

def addAll (h : HashVector N HASH_BASIC) (entries : List (Bytes × N)) : HashVector N HASH_BASIC :=
  entries.foldl (fun h e => h.addItem e.2 e.1) h

/-- The table after adding `entries` to an empty one. -/
structure Filled (h : HashVector N HASH_BASIC) (entries : List (Bytes × N)) : Prop where
  charVect : h.m_charVect = wordsOf entries
  buckets : ∀ i, Holds h.m_charVect (h.data i) (bucketOf i entries)

theorem filled_empty : Filled (empty : HashVector N HASH_BASIC) [] :=
  ⟨rfl, fun _ => .nil⟩

theorem Filled.addItem {h : HashVector N HASH_BASIC} {entries : List (Bytes × N)}
    (hf : Filled h entries) {word : Bytes} (hw : NulFree word) (item : N)
    (hlt : (wordsOf entries).length < 2 ^ 31) :
    Filled (h.addItem item word) (entries ++ [(word, item)]) := by
  have hbuf : (h.addItem item word).m_charVect = h.m_charVect ++ (word ++ [0]) := by
    simp [HashVector.addItem, hw]
  refine ⟨?_, fun i => ?_⟩
  · rw [hbuf, hf.charVect, wordsOf_append]
    simp [wordsOf]
  · have hold := (hf.buckets i).append (word ++ [0])
    rw [hbuf]
    simp only [HashVector.addItem, bucketOf, List.filter_append]
    by_cases hi : getHashValue HASH_BASIC word = i
    · subst hi
      rw [Function.update_self]
      refine List.rel_append hold ?_
      rw [List.filter_cons_of_pos (by simp), List.filter_nil]
      have hpos : h.m_charVect.length < 2 ^ 31 := by rw [hf.charVect]; exact hlt
      have hnew := stands_written hw hpos (fun k => Eq.refl (setWordOffset k item)) []
      exact .cons (by simpa using hnew) .nil
    · rw [Function.update_of_ne (Ne.symm hi), List.filter_cons_of_neg (by simpa using hi),
        List.filter_nil, List.append_nil]
      exact hold

theorem Filled.addAll {more : List (Bytes × N)} :
    ∀ {h : HashVector N HASH_BASIC} {entries : List (Bytes × N)}, Filled h entries →
      (∀ e ∈ more, NulFree e.1) → (wordsOf (entries ++ more)).length < 2 ^ 31 →
      Filled (h.addAll more) (entries ++ more) := by
  induction more with
  | nil => intro h entries hf _ _; simpa [HashVector.addAll] using hf
  | cons e more ih =>
    intro h entries hf hw hlt
    have hpre : (wordsOf entries).length < 2 ^ 31 := by
      rw [wordsOf_append, List.length_append] at hlt; omega
    have hstep := hf.addItem (hw e (by simp)) e.2 hpre
    have := ih hstep (fun e he => hw e (by simp [he])) (by simpa using hlt)
    simpa [HashVector.addAll] using this

end Add

/-! ## What the sort keeps -/

section Keeps
variable {P : List N → Prop} (hwap : ∀ {v v' : List N} {i j : Int}, P v →
  wap assign uninit v i j = some v' → P v')
include hwap

theorem partition_keeps {buf : Bytes} {vect : List N} {left right : Int} {r : List N × Int}
    (hvect : P vect) (h : partition buf vect left right = some r) : P r.1 := by
  unfold partition at h
  obtain ⟨node, -, h⟩ := Option.bind_eq_some_iff.mp h
  obtain ⟨word, -, h⟩ := Option.bind_eq_some_iff.mp h
  split at h
  · obtain ⟨node', -, h⟩ := Option.bind_eq_some_iff.mp h
    obtain ⟨word', -, h⟩ := Option.bind_eq_some_iff.mp h
    split at h
    · obtain ⟨vect', hexch, h⟩ := Option.bind_eq_some_iff.mp h
      cases h
      exact hwap hvect hexch
    · cases h
      exact hvect
  · obtain ⟨⟨vect', left', right'⟩, hex, h⟩ := Option.bind_eq_some_iff.mp h
    have hkept : P vect' := exchange_keeps _ hwap hvect hex
    have hjoin : ∀ right'' : Int, (if right'' = left then some (vect', right'') else
        (wap assign uninit vect' left right'').bind fun v => some (v, right'')) = some r →
        P r.1 := by
      intro right'' h
      split at h
      · cases h
        exact hkept
      · obtain ⟨vect'', hexch, h⟩ := Option.bind_eq_some_iff.mp h
        cases h
        exact hwap hkept hexch
    dsimp only at h
    split at h
    · obtain ⟨node', -, h⟩ := Option.bind_eq_some_iff.mp h
      obtain ⟨goes, -, h⟩ := Option.bind_eq_some_iff.mp h
      split at h
      · exact hjoin _ h
      · exact hjoin _ h
    · exact hjoin _ h

theorem qSort_keeps {buf : Bytes} : ∀ {n : Nat} {vect vect' : List N} {left right : Int}, P vect →
    qSort buf n vect left right = some vect' → P vect' := by
  intro n
  induction n with
  | zero =>
    intro vect vect' left right hvect h
    rw [qSort] at h
    split at h
    · cases h
    · cases h
      exact hvect
  | succ n ih =>
    intro vect vect' left right hvect h
    rw [qSort] at h
    split at h
    · obtain ⟨⟨vect1, key⟩, hpart, h⟩ := Option.bind_eq_some_iff.mp h
      obtain ⟨vect2, hleft, h⟩ := Option.bind_eq_some_iff.mp h
      exact ih (ih (partition_keeps hwap hvect hpart) hleft) h
    · cases h
      exact hvect

end Keeps

theorem sort_bucket {HASH_BASIC : Nat} {h table : HashVector N HASH_BASIC}
    (hsort : h.sort = some table) : table.m_wordsBuf = some h.m_charVect ∧
      ∀ i, sortBucket h.m_charVect (h.data i) = some (table.data i) := by
  rw [sort] at hsort
  split at hsort
  · rename_i ok
    cases hsort
    exact ⟨rfl, fun i => (Option.some_get (ok i)).symm⟩
  · cases hsort

/-! ## Sorting a bucket that is already ascending -/

/-- The words of the items ascend by `strcmp`. -/
def Ascending (entries : List (Bytes × N)) : Prop :=
  entries.Pairwise fun a b => strcmp a.1 b.1 = .lt

theorem below_of_stands {buf word : Bytes} {node : N} {entry : Bytes × N}
    (h : Stands buf node entry) :
    below buf word node = some (strcmp entry.1 word == .lt) := by
  simp [below, h.word]

/-- An ascending range splits off its first element: no exchange happens. -/
theorem partition_ascending {buf : Bytes} {vect : List N} {entries : List (Bytes × N)}
    (h : Holds buf vect entries) (hasc : Ascending entries) {left right : Int} (h0 : 0 ≤ left)
    (hlr : left < right) (hr : right < vect.length) :
    partition buf vect left right =
      some (vect, if right = left + 1 then right else left) := by
  obtain ⟨node, entry, hat, hent, hst⟩ := h.at? h0 (by omega)
  -- every later word is above the key's word
  have hlater : ∀ i, left < i → i ≤ right → ∃ n e, at? vect i = some n ∧ Stands buf n e ∧
      strcmp entry.1 e.1 = .lt := by
    intro i hi hir
    obtain ⟨n, e, hn, he, hs⟩ := h.at? (i := i) (by omega) (by omega)
    refine ⟨n, e, hn, hs, ?_⟩
    have hk := List.pairwise_iff_getElem.mp hasc left.toNat i.toNat
      (List.getElem?_eq_some_iff.mp hent).1 (List.getElem?_eq_some_iff.mp he).1 (by omega)
    rwa [(List.getElem?_eq_some_iff.mp hent).2, (List.getElem?_eq_some_iff.mp he).2] at hk
  have hstays : ∀ i, left < i → i ≤ right → ∃ n, at? vect i = some n ∧
      below buf entry.1 n = some false := by
    intro i hi hir
    obtain ⟨n, e, hn, hs, hlt⟩ := hlater i hi hir
    refine ⟨n, hn, ?_⟩
    rw [below_of_stands hs]
    have : strcmp e.1 entry.1 ≠ .lt := fun hc =>
      not_strcmp_lt_self _ (strcmp_lt_trans hlt hc)
    simpa using this
  by_cases htwo : right = left + 1
  · obtain ⟨n, e, hn, hs, hlt⟩ := hlater right hlr (Int.le_refl _)
    subst htwo
    simp [partition, hat, hst.word, hn, hs.word, hlt]
  · have hex := @exchange_stay _ (below buf entry.1) (wap assign uninit) vect (left + 1) right left
      (by omega) (by omega) fun i hi hir => hstays i (by omega) hir
    have hne : left ≠ left + 1 := by omega
    simp [partition, hat, hst.word, htwo, hex, hne]

theorem qSort_ascending {buf : Bytes} {vect : List N} {entries : List (Bytes × N)}
    (h : Holds buf vect entries) (hasc : Ascending entries) :
    ∀ (n : Nat) (left right : Int), 0 ≤ left → right < vect.length → right - left < n →
      qSort buf n vect left right = some vect := by
  intro n
  induction n with
  | zero =>
    intro left right _ _ hn
    simp [qSort, show ¬ left < right by omega]
  | succ n ih =>
    intro left right h0 hr hn
    by_cases hlr : left < right
    · simp only [qSort, if_pos hlr, partition_ascending h hasc h0 hlr hr, Option.bind_eq_bind,
        Option.bind_some]
      split
      · rw [ih left (right - 1) h0 (by omega) (by omega),
          Option.bind_some, ih (right + 1) right (by omega) hr (by omega)]
      · rw [ih left (left - 1) h0 (by omega) (by omega),
          Option.bind_some, ih (left + 1) right (by omega) hr (by omega)]
    · simp [qSort, hlr]

theorem sortBucket_ascending {buf : Bytes} {vect : List N} {entries : List (Bytes × N)}
    (h : Holds buf vect entries) (hasc : Ascending entries) :
    sortBucket buf vect = some vect :=
  qSort_ascending h hasc vect.length 0 _ (Int.le_refl _) (by omega) (by omega)

omit [NodeType N] in
theorem Ascending.bucketOf [NeZero HASH_BASIC] {entries : List (Bytes × N)} (h : Ascending entries)
    (i : Fin HASH_BASIC) : Ascending (bucketOf i entries) :=
  List.Pairwise.filter _ h

/-- `Sort` on a table filled in ascending order only publishes the buffer. -/
theorem sort_of_filled [NeZero HASH_BASIC] {h : HashVector N HASH_BASIC}
    {entries : List (Bytes × N)} (hf : Filled h entries) (hasc : Ascending entries) :
    ∃ table, h.sort = some table ∧ Filled table entries := by
  have hb : ∀ i, sortBucket h.m_charVect (h.data i) = some (h.data i) := fun i =>
    sortBucket_ascending (hf.buckets i) (hasc.bucketOf i)
  exact ⟨{ h with m_wordsBuf := some h.m_charVect }, by simp [sort, hb],
    hf.charVect, hf.buckets⟩

/-! ## Moving the words -/

theorem relocate_holds {charVect : Bytes} (hc : charVect.length < 2 ^ 31) :
    ∀ {vect : List N} {entries : List (Bytes × N)} (buf : Bytes), Holds charVect vect entries →
      buf.length + (wordsOf entries).length < 2 ^ 31 →
      ∃ vect', relocate charVect buf vect = some (buf ++ wordsOf entries, vect') ∧
        Holds (buf ++ wordsOf entries) vect' entries
  | [], _, buf, .nil, _ => ⟨[], by simp [relocate, wordsOf], .nil⟩
  | node :: vect, entry :: entries, buf, .cons hs hrest, hlt => by
    obtain ⟨word, item⟩ := entry
    have hsplit : wordsOf ((word, item) :: entries) = word ++ [0] ++ wordsOf entries := by
      simp [wordsOf]
    have hlen : (wordsOf ((word, item) :: entries)).length =
        word.length + 1 + (wordsOf entries).length := by simp [hsplit]; omega
    obtain ⟨vect', hrel, hholds⟩ := relocate_holds hc (buf ++ word ++ [0]) hrest
      (by simp only [List.length_append, List.length_singleton]; omega)
    -- the offset survives the conversion to `unsigned int`
    have hb := cstrAt_bounds hs.word
    have hoff : ((BitVec.ofInt 32 (wordOffset node)).toNat : Int) = wordOffset node := by
      rw [BitVec.toNat_ofInt]; omega
    have hword : cstrAt charVect (BitVec.ofInt 32 (wordOffset node)).toNat = some word := by
      rw [hoff]; exact hs.word
    have hbuf : buf ++ wordsOf ((word, item) :: entries) =
        buf ++ word ++ [0] ++ wordsOf entries := by simp [hsplit]
    refine ⟨setWordOffset buf.length node :: vect', ?_, ?_⟩
    · simp only [relocate, hword, hrel, Option.bind_eq_bind, Option.bind_some, hbuf]
    · rw [hbuf]
      refine .cons ?_ hholds
      have := @stands_written N _ buf word node item hs.nulFree (by omega) hs.payload
        (wordsOf entries)
      simpa using this

theorem relocateAll_holds {charVect : Bytes} (hc : charVect.length < 2 ^ 31) :
    ∀ {buckets : List (List N)} {items : List (List (Bytes × N))} (buf : Bytes),
      List.Forall₂ (Holds charVect) buckets items →
      buf.length + (wordsOf items.flatten).length < 2 ^ 31 →
      ∃ buckets', relocateAll charVect buf buckets = some (buf ++ wordsOf items.flatten, buckets') ∧
        List.Forall₂ (Holds (buf ++ wordsOf items.flatten)) buckets' items
  | [], _, buf, .nil, _ => ⟨[], by simp [relocateAll, wordsOf], .nil⟩
  | vect :: buckets, entries :: items, buf, .cons h hrest, hlt => by
    rw [List.flatten_cons, wordsOf_append, List.length_append] at hlt
    obtain ⟨vect', hrel, hholds⟩ := relocate_holds hc buf h (by omega)
    obtain ⟨buckets', hrels, hall⟩ := relocateAll_holds hc (buf ++ wordsOf entries) hrest
      (by rw [List.length_append]; omega)
    rw [List.append_assoc, ← wordsOf_append, ← List.flatten_cons] at hrels hall
    refine ⟨vect' :: buckets', ?_, .cons ?_ hall⟩
    · simp only [relocateAll, hrel, hrels, Option.bind_eq_bind, Option.bind_some]
    · have := hholds.append (wordsOf items.flatten)
      rwa [List.append_assoc, ← wordsOf_append, ← List.flatten_cons] at this

omit [NodeType N] in
/-- The buckets together hold every item once. -/
theorem sum_bucketOf [NeZero HASH_BASIC] (w : Bytes × N → Nat) (entries : List (Bytes × N)) :
    (∑ i : Fin HASH_BASIC, ((bucketOf i entries).map w).sum) = (entries.map w).sum := by
  induction entries with
  | nil => simp [bucketOf]
  | cons e rest ih =>
    have hsplit : ∀ i : Fin HASH_BASIC, ((bucketOf i (e :: rest)).map w).sum =
        (if getHashValue HASH_BASIC e.1 = i then w e else 0) + ((bucketOf i rest).map w).sum := by
      intro i
      by_cases hi : getHashValue HASH_BASIC e.1 = i <;> simp [bucketOf, hi]
    rw [Finset.sum_congr rfl fun i _ => hsplit i, Finset.sum_add_distrib, ih]
    simp

omit [NodeType N] in
theorem wordsOf_buckets_length [NeZero HASH_BASIC] (entries : List (Bytes × N)) :
    (wordsOf (List.ofFn fun i : Fin HASH_BASIC => bucketOf i entries).flatten).length =
      (wordsOf entries).length := by
  rw [wordsOf_length, wordsOf_length, List.map_flatten, List.sum_flatten, List.map_map,
    List.map_ofFn, List.sum_ofFn]
  exact sum_bucketOf (fun e => e.1.length + 1) entries

/-! ## The file -/

theorem readBuckets_written (junk : Nat → Nat → UInt8) (hb : HASH_BASIC < 2 ^ 32) :
    ∀ (buckets : List (List N)) (i : Nat) (data : Fin HASH_BASIC → List N) (rest : Bytes),
      i + buckets.length ≤ HASH_BASIC → (∀ vect ∈ buckets, vect.length < 2 ^ 32) →
      ∃ data', readBuckets junk buckets.length i data (bucketsBytes i buckets ++ rest) =
          some (data', rest) ∧
        ∀ j, data' j = if j.val < i then data j else buckets[j.val - i]?.getD (data j) := by
  intro buckets
  induction buckets with
  | nil =>
    intro i data rest _ _
    exact ⟨data, rfl, fun j => by simp⟩
  | cons vect buckets ih =>
    intro i data rest hi hlen
    rw [List.length_cons] at hi
    have hv : vect.length < 2 ^ 32 := hlen vect (by simp)
    have hidx : (BitVec.ofNat 32 i).toNat = i := by
      rw [BitVec.toNat_ofNat, Nat.mod_eq_of_lt (by omega)]
    have hsz : (BitVec.ofNat 32 vect.length).toNat = vect.length := by
      rw [BitVec.toNat_ofNat, Nat.mod_eq_of_lt hv]
    have hib : i < HASH_BASIC := by omega
    let data1 := Function.update data ⟨i, hib⟩ vect
    obtain ⟨data', hread, hdata⟩ := ih (i + 1) data1 rest
      (by omega) fun v hv => hlen v (by simp [hv])
    refine ⟨data', ?_, fun j => ?_⟩
    · have hfile : bucketsBytes i (vect :: buckets) ++ rest =
          Pod.toBytes (BitVec.ofNat 32 i) ++ (Pod.toBytes (BitVec.ofNat 32 vect.length) ++
            (block vect ++ (bucketsBytes (i + 1) buckets ++ rest))) := by
        simp [bucketsBytes, bucketBytes]
      rw [hfile]
      simp only [List.length_cons, readBuckets, fread_u32 _ _ _ (fresh_length junk _ 4),
        Pod.ofBytes_toBytes, hidx, hsz, dif_pos hib]
      split
      · rw [fread_block vect _ _ size_pos (by simp), unblock_block]
        exact hread
      · rename_i hpos
        obtain rfl : vect = [] := List.eq_nil_of_length_eq_zero (by omega)
        exact hread
    · rw [hdata]
      rcases Nat.lt_trichotomy j.val i with hji | hji | hji
      · have hne : j ≠ ⟨i, hib⟩ := by rintro rfl; exact absurd hji (Nat.lt_irrefl _)
        rw [if_pos (by omega), if_pos hji]
        exact Function.update_of_ne hne _ _
      · obtain rfl : j = ⟨i, hib⟩ := Fin.ext hji
        rw [if_pos (by simp), if_neg (by simp)]
        simp [data1]
      · have hne : j ≠ ⟨i, hib⟩ := by rintro rfl; exact absurd hji (Nat.lt_irrefl _)
        have hsub : j.val - i = j.val - (i + 1) + 1 := by omega
        rw [if_neg (by omega), if_neg (by omega), hsub, List.getElem?_cons_succ]
        congr 1
        exact Function.update_of_ne hne _ _

/-- The table that can be searched for `entries`. -/
structure Searchable [NeZero HASH_BASIC] (h : HashVector N HASH_BASIC)
    (entries : List (Bytes × N)) : Prop where
  buckets : ∀ i, Holds (h.m_wordsBuf.getD []) (h.data i) (bucketOf i entries)

omit [NodeType N] in
theorem length_le_wordsOf (entries : List (Bytes × N)) :
    entries.length ≤ (wordsOf entries).length := by
  induction entries with
  | nil => exact Nat.le_refl 0
  | cons e rest ih =>
    rw [wordsOf, List.flatMap_cons, List.length_append, ← wordsOf]
    simp
    omega

theorem forall₂_ofFn {α β : Type} {R : α → β → Prop} {n : Nat} {f : Fin n → α} {g : Fin n → β}
    (h : ∀ i, R (f i) (g i)) : List.Forall₂ R (List.ofFn f) (List.ofFn g) := by
  rw [List.forall₂_iff_get]
  exact ⟨by simp, fun i h1 h2 => by simpa using h ⟨i, by simpa using h1⟩⟩

/-- The file of a table whose words are `words` and whose buckets are
`buckets`. -/
def fileBytes (HASH_BASIC : Nat) (words : Bytes) (buckets : List (List N)) : Bytes :=
  Pod.toBytes (BitVec.ofNat 64 words.length) ++ words ++
    Pod.toBytes (BitVec.ofNat 32 HASH_BASIC) ++ bucketsBytes 0 buckets

/-- The buckets of a file stand for the items, over the words of the file. -/
structure Saved (words : Bytes) (buckets : List (List N)) [NeZero HASH_BASIC]
    (entries : List (Bytes × N)) : Prop where
  count : buckets.length = HASH_BASIC
  bucket : ∀ i : Fin HASH_BASIC, ∃ vect, buckets[i.val]? = some vect ∧
    Holds words vect (bucketOf i entries)

theorem writeFile_of_filled [NeZero HASH_BASIC] {h : HashVector N HASH_BASIC}
    {entries : List (Bytes × N)} (hf : Filled h entries)
    (hlt : (wordsOf entries).length < 2 ^ 31) :
    ∃ words buckets saved, h.writeFile = some (fileBytes HASH_BASIC words buckets, saved) ∧
      words.length = (wordsOf entries).length ∧
      @Saved N _ HASH_BASIC words buckets _ entries := by
  have hchar : h.m_charVect.length < 2 ^ 31 := by rw [hf.charVect]; exact hlt
  have hwords := @wordsOf_buckets_length N HASH_BASIC _ entries
  obtain ⟨buckets, hrel, hholds⟩ := relocateAll_holds hchar [] (forall₂_ofFn hf.buckets)
    (by rw [List.length_nil, Nat.zero_add, hwords]; exact hlt)
  rw [List.nil_append] at hrel hholds
  generalize wordsOf (List.ofFn fun i : Fin HASH_BASIC => bucketOf i entries).flatten = words at *
  have hlen : words.length = h.m_charVect.length := by rw [hwords, hf.charVect]
  have hsize : words.length = (BitVec.ofNat 64 h.m_charVect.length).toNat := by
    rw [hlen, BitVec.toNat_ofNat, Nat.mod_eq_of_lt (by omega)]
  have hcount : buckets.length = HASH_BASIC := by simpa using hholds.length_eq
  refine ⟨words, buckets, { h with
    m_wordsBufSize := BitVec.ofNat 64 h.m_charVect.length, m_wordsBuf := none,
    data := fun i => buckets.getD i [] }, ?_, hwords, hcount, fun i => ?_⟩
  · simp only [writeFile, hrel, Option.bind_eq_bind, Option.bind_some, if_pos hsize]
    rw [fileBytes, hlen]
  · have hi : i.val < buckets.length := by rw [hcount]; exact i.isLt
    exact ⟨buckets[i.val], List.getElem?_eq_getElem hi, by simpa using hholds.get hi (by simp)⟩

theorem Saved.sizes [NeZero HASH_BASIC] {words : Bytes} {buckets : List (List N)}
    {entries : List (Bytes × N)} (hs : @Saved N _ HASH_BASIC words buckets _ entries) :
    ∀ vect ∈ buckets, vect.length ≤ (wordsOf entries).length := by
  intro vect hv
  obtain ⟨i, hi, rfl⟩ := List.getElem_of_mem hv
  obtain ⟨vect, hget, hvect⟩ := hs.bucket ⟨i, hs.count ▸ hi⟩
  obtain rfl : buckets[i] = vect := by simpa [List.getElem?_eq_getElem hi] using hget
  calc buckets[i].length
      = (bucketOf ⟨i, hs.count ▸ hi⟩ entries).length := hvect.length_eq
    _ ≤ entries.length := List.length_filter_le _ _
    _ ≤ (wordsOf entries).length := length_le_wordsOf entries

theorem readInFile_of_saved [NeZero HASH_BASIC] (hb : HASH_BASIC < 2 ^ 32) {words : Bytes}
    {buckets : List (List N)} {entries : List (Bytes × N)}
    (hs : @Saved N _ HASH_BASIC words buckets _ entries) (hw : words.length < 2 ^ 31)
    (hlt : (wordsOf entries).length < 2 ^ 31) (junk : Nat → Nat → UInt8)
    (h : HashVector N HASH_BASIC) (rest : Bytes) :
    ∃ loaded, readInFile junk h (fileBytes HASH_BASIC words buckets ++ rest) =
        some (true, loaded, rest) ∧ Searchable loaded entries := by
  obtain ⟨data, hread, hdata⟩ := readBuckets_written junk hb buckets 0 h.data rest
    (by rw [hs.count]; omega) fun vect hv => by have := hs.sizes vect hv; omega
  rw [hs.count] at hread
  have hsize : (BitVec.ofNat 64 words.length).toNat = words.length := by
    rw [BitVec.toNat_ofNat, Nat.mod_eq_of_lt (by omega)]
  have hbasic : (BitVec.ofNat 32 HASH_BASIC).toNat = HASH_BASIC := by
    rw [BitVec.toNat_ofNat, Nat.mod_eq_of_lt hb]
  have hold : (Pod.toBytes h.m_wordsBufSize).length = 8 := Pod.length_toBytes h.m_wordsBufSize
  have hbytes := fread_bytes words (fresh junk 3 words.length)
    (Pod.toBytes (BitVec.ofNat 32 HASH_BASIC) ++ (bucketsBytes 0 buckets ++ rest)) (by simp)
  refine ⟨{ h with
    data, m_wordsBuf := some words, m_wordsBufSize := BitVec.ofNat 64 words.length }, ?_, ⟨?_⟩⟩
  · simp only [readInFile, fileBytes, List.append_assoc, fread_u64 _ _ _ hold,
      Pod.ofBytes_toBytes, hsize, hbytes, fread_u32 _ _ _ (fresh_length junk _ 4), hbasic,
      ne_eq, not_true, if_false, hread, Option.map_some]
  · intro i
    obtain ⟨vect, hget, hvect⟩ := hs.bucket i
    have : data i = vect := by rw [hdata]; simp [hget]
    simpa [this] using hvect

/-- **The saved table.** What `writeFile` puts in a file, `readInFile` of any
other table takes out of it again: a searchable table for the same items. -/
theorem readInFile_writeFile [NeZero HASH_BASIC] (hb : HASH_BASIC < 2 ^ 32)
    {h : HashVector N HASH_BASIC} {entries : List (Bytes × N)} (hf : Filled h entries)
    (hlt : (wordsOf entries).length < 2 ^ 31) :
    ∃ bytes saved, h.writeFile = some (bytes, saved) ∧
      ∀ junk (other : HashVector N HASH_BASIC) rest, ∃ loaded,
        readInFile junk other (bytes ++ rest) = some (true, loaded, rest) ∧
          Searchable loaded entries := by
  obtain ⟨words, buckets, saved, hwrite, hlen, hs⟩ := writeFile_of_filled hf hlt
  exact ⟨_, saved, hwrite, readInFile_of_saved hb hs (hlen ▸ hlt) hlt⟩

/-! ## Searching -/

/-- The word of the `i`-th item, for the comparison of a search. -/
def wordNo (entries : List (Bytes × N)) (i : Int) : Bytes :=
  (entries[i.toNat]?.map Prod.fst).getD []

omit [NodeType N] in
theorem wordNo_of_get {entries : List (Bytes × N)} {i : Int} {entry : Bytes × N}
    (h : entries[i.toNat]? = some entry) : wordNo entries i = entry.1 := by
  simp [wordNo, h]

omit [NodeType N] in
theorem wordNo_lt {entries : List (Bytes × N)} (hasc : Ascending entries) {i j : Int} (h0 : 0 ≤ i)
    (hij : i < j) (hj : j < entries.length) :
    strcmp (wordNo entries i) (wordNo entries j) = .lt := by
  have hi' : i.toNat < entries.length := by omega
  have hj' : j.toNat < entries.length := by omega
  rw [wordNo_of_get (List.getElem?_eq_getElem hi'), wordNo_of_get (List.getElem?_eq_getElem hj')]
  exact List.pairwise_iff_getElem.mp hasc _ _ hi' hj' (by omega)

/-- The comparisons of `Find` along an ascending bucket. -/
theorem falls_bucket (word : Bytes) {buf : Bytes} {vect : List N} {entries : List (Bytes × N)}
    (h : Holds buf vect entries) (hasc : Ascending entries) :
    Falls (compareAt buf word vect) (fun i => strcmp word (wordNo entries i))
      0 (vect.length - 1) where
  value i h0 hi := by
    obtain ⟨node, entry, hat, hget, hst⟩ := h.at? h0 (by omega)
    simp [compareAt, hat, hst.word, wordNo_of_get hget]
  after i j h0 hij hj hlt := by
    rcases Int.lt_or_eq_of_le hij with hij | rfl
    · exact strcmp_lt_trans hlt (wordNo_lt hasc h0 hij (by have := h.length_eq; omega))
    · exact hlt
  before i j h0 hij hj hgt := by
    rcases Int.lt_or_eq_of_le hij with hij | rfl
    · rw [strcmp_gt_iff] at hgt ⊢
      exact strcmp_lt_trans (wordNo_lt hasc h0 hij (by have := h.length_eq; omega)) hgt
    · exact hgt

theorem findIn_spec (word : Bytes) {buf : Bytes} {vect : List N} {entries : List (Bytes × N)}
    (h : Holds buf vect entries) (hasc : Ascending entries) :
    (∃ node item, findIn buf word vect = some (some node) ∧ (word, item) ∈ entries ∧
        ∀ k, setWordOffset k node = setWordOffset k item) ∨
      (findIn buf word vect = some none ∧ ∀ item, (word, item) ∉ entries) := by
  rcases bisect_spec midpoint_half vect.length 0 (vect.length - 1) (by omega)
    (falls_bucket word h hasc) with ⟨m, hb, h0, hm, heq⟩ | ⟨hb, hno⟩
  · obtain ⟨node, entry, hat, hget, hst⟩ := h.at? h0 (by omega)
    rw [wordNo_of_get hget, strcmp_eq_iff] at heq
    subst heq
    refine .inl ⟨node, entry.2, ?_, List.mem_of_getElem? hget, hst.payload⟩
    simp [findIn, hb, hat]
  · refine .inr ⟨by simp [findIn, hb], fun item hmem => ?_⟩
    obtain ⟨k, hk, hget⟩ := List.getElem_of_mem hmem
    have hlen := h.length_eq
    refine hno k (by omega) (by omega) ?_
    have hword : wordNo entries k = word := by
      rw [wordNo, Int.toNat_natCast, List.getElem?_eq_getElem hk, hget]
      rfl
    rw [hword, strcmp_eq_iff]

/-- **The table as a map.** In a searchable table whose items are ascending,
`Find` of a word returns a node with the members of the item added under that
word, and the null pointer if there is none. -/
theorem find_spec [NeZero HASH_BASIC] {h : HashVector N HASH_BASIC}
    {entries : List (Bytes × N)} (hs : Searchable h entries) (hasc : Ascending entries)
    {word : Bytes} (hw : NulFree word) :
    (∃ node item, h.find word = some (some node) ∧ (word, item) ∈ entries ∧
        ∀ k, setWordOffset k node = setWordOffset k item) ∨
      (h.find word = some none ∧ ∀ item, (word, item) ∉ entries) := by
  have hmem : ∀ item, (word, item) ∈ bucketOf (getHashValue HASH_BASIC word) entries ↔
      (word, item) ∈ entries := fun item => by simp [bucketOf]
  rcases findIn_spec word (hs.buckets (getHashValue HASH_BASIC word))
    (hasc.bucketOf _) with ⟨node, item, hf, hin, hp⟩ | ⟨hf, hno⟩
  · exact .inl ⟨node, item, by rw [find, cstr_eq_self hw, hf], (hmem item).mp hin, hp⟩
  · exact .inr ⟨by rw [find, cstr_eq_self hw, hf], fun item hin => hno item ((hmem item).mpr hin)⟩

end CommonTools.Index.HashVector
