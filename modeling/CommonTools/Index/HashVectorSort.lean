import CommonTools.Index.CommonIndex
import CommonTools.Index.HashVectorSound
import CommonTools.Lib.PartitionOrder

/-! # `Sort` for nodes that are copied whole

Both key types keep their word offset in an assignment. For a node type whose
`operator=` copies offset and payload together, `QSort` sorts a bucket by its
words, and `Find` then finds each of them. -/
namespace CommonTools.Index.HashVector
open CommonTools.Lib NodeType

section
variable {N : Type} [NodeType N]

/-- `operator=` copies the word offset and the payload together. -/
def CopiesWhole (N : Type) [NodeType N] : Prop := ∀ dst src : N, assign dst src = src

/-- The offsets of a bucket lead to words in the buffer. -/
def Readable (buf : Bytes) (vect : List N) : Prop := ∀ node ∈ vect, (wordAt buf node).isSome

/-- Ascending by `strcmp`; words may be equal. -/
def Rises (buf : Bytes) (vect : List N) : Prop :=
  vect.Pairwise fun a b => ∀ x ∈ wordAt buf a, ∀ y ∈ wordAt buf b, strcmp x y ≠ .gt

def wordOf (buf : Bytes) (node : N) : Bytes := (wordAt buf node).getD []

/-- The word of `a` is not above that of `b`. -/
abbrev NotAbove (buf : Bytes) (a b : N) : Prop := strcmp (wordOf buf a) (wordOf buf b) ≠ .gt

theorem strcmp_not_gt_trans {a b c : Bytes} (hab : strcmp a b ≠ .gt) (hbc : strcmp b c ≠ .gt) :
    strcmp a c ≠ .gt := by
  intro hac
  rw [strcmp_gt_iff] at hac
  cases h : strcmp a b with
  | gt => exact hab h
  | eq =>
    rw [strcmp_eq_iff.mp h] at hac
    exact hbc (strcmp_gt_iff.mpr hac)
  | lt => exact hbc (strcmp_gt_iff.mpr (strcmp_lt_trans hac h))

instance (buf : Bytes) : IsTrans N (NotAbove buf) where
  trans _ _ _ hab hbc := strcmp_not_gt_trans hab hbc

variable {buf : Bytes} {vect : List N}

theorem Readable.wordAt (h : Readable buf vect) {node : N} (hnode : node ∈ vect) :
    wordAt buf node = some (wordOf buf node) := by
  obtain ⟨word, hword⟩ := Option.isSome_iff_exists.mp (h node hnode)
  rw [wordOf, hword]
  rfl

/-! ## Sorting -/

theorem partition_splitOn (hcopy : CopiesWhole N) (d : N) (h : Readable buf vect)
    {left right : Int} (h0 : 0 ≤ left) (hlr : left < right) (hright : right < vect.length) :
    ∃ vect' k, partition buf vect left right = some (vect', k) ∧
      SplitOn (NotAbove buf) d left right vect vect' k := by
  have hwap : wap assign (uninit : N) = swap := wap_eq_swap hcopy uninit
  have hleftAt := at?_elemAt d h0 (by omega : left < vect.length)
  have hrightAt := at?_elemAt d (by omega : 0 ≤ right) hright
  have hleftW := h.wordAt (elemAt_mem d h0 (by omega : left < vect.length))
  have hrightW := h.wordAt (elemAt_mem d (by omega : 0 ≤ right) hright)
  by_cases htwo : right = left + 1
  · subst htwo
    by_cases hgt : strcmp (wordOf buf (elemAt d vect left))
        (wordOf buf (elemAt d vect (left + 1))) = .gt
    · obtain ⟨vect', hexch, hperm, hswap⟩ :=
        swap_elemAt d h0 (by omega : left < vect.length) (by omega : 0 ≤ left + 1) hright
      refine ⟨vect', left + 1, ?_, SplitOn.pair_swap hperm hswap fun hback => ?_⟩
      · simp [partition, hleftAt, hrightAt, hleftW, hrightW, hgt, hwap, hexch]
      · rw [strcmp_gt_iff] at hgt hback
        exact not_strcmp_lt_self _ (strcmp_lt_trans hgt hback)
    · refine ⟨vect, left + 1, ?_, SplitOn.pair hgt⟩
      simp [partition, hleftAt, hrightAt, hleftW, hrightW, hgt]
  · have hside : ∀ node ∈ vect, below buf (wordOf buf (elemAt d vect left)) node =
        some (strcmp (wordOf buf node) (wordOf buf (elemAt d vect left)) == .lt) := by
      intro node hnode
      simp [below, h.wordAt hnode]
    obtain ⟨vect₁, l, r, vect', k, hexch, hsettle, hlast, hsplit⟩ :=
      @exchange_splitOn N (NotAbove buf) d vect left right _ _ hside h0 hlr hright
        (fun a ha => by simp [NotAbove, beq_iff_eq.mp ha])
        (fun a ha => by
          rw [NotAbove, ne_eq, strcmp_gt_iff]
          exact fun hlt => absurd (beq_iff_eq.mpr hlt) (by simp [ha]))
    refine ⟨vect', k, ?_, hsplit⟩
    rw [← hlast, ← hsettle fun r => if r = left then some (vect₁, r)
      else (swap vect₁ left r).bind fun vect' => some (vect', r)]
    simp only [partition, hleftAt, hleftW, if_neg htwo, hwap, hexch, Option.bind_eq_bind,
      Option.bind_some]

/-- Sorting a range, at any depth that its length allows. -/
theorem qSort_sorted (hcopy : CopiesWhole N) (d : N) (size : Nat) (h : Readable buf vect)
    {left right : Int} (h0 : 0 ≤ left) (hright : right < vect.length)
    (hsize : right - left < size) :
    ∃ vect', (∀ n : Nat, right - left < n → qSort buf n vect left right = some vect') ∧
      vect'.Perm vect ∧ Rearranged left right (elemAt d vect) (elemAt d vect') ∧
      SortedOn (NotAbove buf) left right (elemAt d vect') := by
  refine @sorted_of_splits N (NotAbove buf) d _ (fun node => (wordAt buf node).isSome)
    (partition buf) (qSort buf) (fun n vect left right hlr => ?_) (fun n vect left right hlr => ?_)
    (fun vect left right hall h0 hlr hright => partition_splitOn hcopy d hall h0 hlr hright)
    size vect h left right h0 hright hsize
  · cases n <;> exact if_neg hlr
  · rw [qSort, if_pos hlr]
    rfl

/-- A sorted bucket, at any depth that its length allows. -/
theorem qSort_rises (hcopy : CopiesWhole N) (h : Readable buf vect) :
    ∃ vect', (∀ n : Nat, vect.length ≤ n →
        qSort buf n vect 0 (vect.length - 1) = some vect') ∧ vect'.Perm vect ∧ Rises buf vect' := by
  cases vect with
  | nil => exact ⟨[], fun n _ => by cases n <;> rfl, List.Perm.nil, List.Pairwise.nil⟩
  | cons d vect =>
    obtain ⟨vect', hsort, hperm, -, hsorted⟩ :=
      qSort_sorted hcopy d ((d :: vect).length + 1) h (Int.le_refl 0)
        (by omega : ((d :: vect).length : Int) - 1 < (d :: vect).length) (by omega)
    rw [← hperm.length_eq] at hsorted
    refine ⟨vect', fun n hn => hsort n (by omega), hperm, ?_⟩
    refine (pairwise_of_sortedOn hsorted).imp fun hle x hx y hy => ?_
    rw [NotAbove, wordOf, wordOf, hx, hy] at hle
    exact hle

/-! ## Searching -/

/-- The words of a bucket with the nodes that show them. -/
def wordsWith (buf : Bytes) (vect : List N) : List (Bytes × N) :=
  vect.map fun node => (wordOf buf node, node)

theorem Readable.holds (h : Readable buf vect) : Holds buf vect (wordsWith buf vect) := by
  rw [Holds, wordsWith, List.forall₂_map_right_iff]
  refine List.forall₂_same.mpr fun node hnode => ⟨?_, h.wordAt hnode, fun k => rfl⟩
  have hword := h.wordAt hnode
  rw [HashVector.wordAt, cstrAt] at hword
  split at hword
  · rw [← Option.some.inj hword]
    exact nulFree_cstr _
  · cases hword

/-- Without repeats the words ascend strictly. -/
theorem Rises.ascending (h : Readable buf vect) (hrises : Rises buf vect)
    (hnodup : (vect.map (wordAt buf)).Nodup) : Ascending (wordsWith buf vect) := by
  rw [Ascending, wordsWith, List.pairwise_map]
  refine (hrises.and (List.pairwise_map.mp hnodup)).imp_of_mem fun {a b} ha hb hab => ?_
  have hwa := h.wordAt ha
  have hwb := h.wordAt hb
  have hle := hab.1 _ hwa _ hwb
  cases hcmp : strcmp (wordOf buf a) (wordOf buf b) with
  | lt => rfl
  | gt => exact absurd hcmp hle
  | eq =>
    refine absurd ?_ hab.2
    rw [hwa, hwb, strcmp_eq_iff.mp hcmp]

theorem findIn_iff (h : Readable buf vect) (hrises : Rises buf vect)
    (hnodup : (vect.map (wordAt buf)).Nodup) (word : Bytes) :
    ∃ r, findIn buf word vect = some r ∧
      ∀ node, r = some node ↔ node ∈ vect ∧ wordAt buf node = some word := by
  have hholds := h.holds
  have hword : ∀ {i : Int}, 0 ≤ i → i < vect.length → ∃ node, at? vect i = some node ∧
      wordAt buf node = some (wordNo (wordsWith buf vect) i) := by
    intro i h0 hi
    obtain ⟨node, entry, hat, hget, hst⟩ := hholds.at? h0 hi
    exact ⟨node, hat, by rw [wordNo_of_get hget, hst.word]⟩
  rcases bisect_spec midpoint_half vect.length 0 (vect.length - 1) (by omega)
    (falls_bucket word hholds (hrises.ascending h hnodup)) with ⟨m, hb, h0, hm, heq⟩ | ⟨hb, hno⟩
  · obtain ⟨found, hat, hfound⟩ := hword h0 (by omega : m < vect.length)
    rw [← strcmp_eq_iff.mp heq] at hfound
    have hin : found ∈ vect := by
      obtain ⟨k, -, hget⟩ := at?_eq_some.mp hat
      exact List.mem_of_getElem? hget
    refine ⟨some found, by simp [findIn, hb, hat], fun node => ?_⟩
    rw [Option.some_inj]
    constructor
    · rintro rfl
      exact ⟨hin, hfound⟩
    · rintro ⟨hnode, hsame⟩
      exact List.inj_on_of_nodup_map hnodup hin hnode (hfound.trans hsame.symm)
  · refine ⟨none, by simp [findIn, hb], fun node => ⟨fun hnone => by simp at hnone, ?_⟩⟩
    rintro ⟨hnode, hsame⟩
    obtain ⟨k, hk, rfl⟩ := List.getElem_of_mem hnode
    obtain ⟨node, hat, hshown⟩ := hword (Int.natCast_nonneg k) (by omega)
    rw [at?_natCast, List.getElem?_eq_getElem hk] at hat
    obtain rfl := Option.some.inj hat
    rw [hsame] at hshown
    exact absurd (strcmp_eq_iff.mpr (Option.some.inj hshown)) (hno k (by omega) (by omega))

/-- **Sorting and searching a bucket of nodes that are copied whole.** `QSort`
ends, at a depth of at most the bucket's length, without an index outside of the
bucket, and leaves its nodes in ascending order of their words. In a bucket in
this order whose words are distinct, the search of `Find` ends with the node of
the word, and with the null pointer when there is none. -/
theorem qSort_rises_and_findIn (hcopy : CopiesWhole N) (buf : Bytes) :
    (∀ vect : List N, Readable buf vect → ∃ vect',
      (∀ n : Nat, vect.length ≤ n → qSort buf n vect 0 (vect.length - 1) = some vect') ∧
        vect'.Perm vect ∧ Rises buf vect') ∧
    (∀ vect : List N, Readable buf vect → Rises buf vect →
      (vect.map (wordAt buf)).Nodup → ∀ word, ∃ r, findIn buf word vect = some r ∧
        ∀ node, r = some node ↔ node ∈ vect ∧ wordAt buf node = some word) :=
  ⟨fun _ h => qSort_rises hcopy h, fun _ h hrises hnodup word => findIn_iff h hrises hnodup word⟩

end

/-- A node type that leaves its `operator=` to the compiler. -/
structure PlainKey where
  word_offset : BitVec 32
  begin : BitVec 32

instance : NodeType PlainKey where
  toPod := podOf (fun n => (n.word_offset, n.begin)) (fun p => ⟨p.1, p.2⟩) fun _ => rfl
  wordOffset n := n.word_offset.toInt
  setWordOffset k n := { n with word_offset := BitVec.ofNat 32 k }
  assign _ src := src
  uninit := ⟨0, 0⟩
  size_pos := by decide
  wordOffset_set _ _ h := toInt_ofNat32 h
  set_set _ _ _ := rfl

def twoWords : Bytes := [98, 0, 97, 0]

def plainB : PlainKey := ⟨0, 1⟩

def plainA : PlainKey := ⟨2, 2⟩

theorem wordAt_plainB : wordAt twoWords plainB = some [98] := rfl

theorem wordAt_plainA : wordAt twoWords plainA = some [97] := rfl

/-- A bucket with one word twice is sorted; in one without, `b` is found. -/
theorem qSort_rises_and_findIn_plain :
    (∃ vect', (∀ n : Nat, 3 ≤ n →
        qSort twoWords n [plainB, plainA, plainB] 0 2 = some vect') ∧
      vect'.Perm [plainB, plainA, plainB] ∧ Rises twoWords vect') ∧
    ∃ r, findIn twoWords [98] [plainA, plainB] = some r ∧
      ∀ node, r = some node ↔ node ∈ [plainA, plainB] ∧ wordAt twoWords node = some [98] := by
  obtain ⟨hsort, hfind⟩ := qSort_rises_and_findIn (N := PlainKey) (fun _ _ => rfl) twoWords
  refine ⟨hsort [plainB, plainA, plainB] ?_, hfind [plainA, plainB] ?_ ?_ ?_ [98]⟩
  · simp [Readable, wordAt_plainA, wordAt_plainB]
  · simp [Readable, wordAt_plainA, wordAt_plainB]
  · have hle : strcmp [97] [98] ≠ .gt := by decide
    simpa [Rises, wordAt_plainA, wordAt_plainB] using hle
  · simp [wordAt_plainA, wordAt_plainB]

end CommonTools.Index.HashVector
