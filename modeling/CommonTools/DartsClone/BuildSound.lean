import CommonTools.DartsClone.CommonPrefix

/-! # What a double array answers

`build` refuses keys that are out of order and ignores repeated ones. What it returns answers a
search with the value of the key that is given, or with -1. -/
namespace CommonTools.DartsClone
open CommonTools.Lib DoubleArrayBuilder

/-! ## The keys of the builder -/

/-- The key of the builder for a key with its value. -/
def entry (e : Bytes × Int) : DoubleArrayKey := ⟨cstr e.1, 0, 0, BitVec.ofInt 32 e.2⟩

namespace DoubleArrayKey

theorem compareLoop_spec : ∀ {a b : Bytes}, NulFree a → NulFree b →
    (compareLoop (a ++ [0]) (b ++ [0]) = 0 → a = b) ∧
      (compareLoop (a ++ [0]) (b ++ [0]) < 0 → a ++ [0] < b ++ [0]) ∧
      (0 < compareLoop (a ++ [0]) (b ++ [0]) → b ++ [0] < a ++ [0])
  | [], [], _, _ => by
    have heq : compareLoop ([] ++ [0]) ([] ++ [0]) = 0 := rfl
    rw [heq]
    exact ⟨fun _ => rfl, fun h => absurd h (Int.lt_irrefl 0), fun h => absurd h (Int.lt_irrefl 0)⟩
  | [], y :: ys, _, hb => by
    have hy : 0 < y := UInt8.pos_iff_ne_zero.mpr (hb y List.mem_cons_self)
    have hnat : 0 < y.toNat := UInt8.lt_iff_toNat_lt.mp hy
    have heq : compareLoop ([] ++ [0]) (y :: ys ++ [0]) = -(y.toNat : Int) := by
      rw [List.nil_append, List.cons_append, compareLoop, if_neg (fun h => h.1 rfl)]
      simp
    rw [heq]
    exact ⟨fun h => by omega, fun _ => List.cons_lt_cons_iff.mpr (.inl hy), fun h => by omega⟩
  | x :: xs, [], ha, _ => by
    have hne := ha x List.mem_cons_self
    have hx : 0 < x := UInt8.pos_iff_ne_zero.mpr hne
    have hnat : 0 < x.toNat := UInt8.lt_iff_toNat_lt.mp hx
    have heq : compareLoop (x :: xs ++ [0]) ([] ++ [0]) = (x.toNat : Int) := by
      rw [List.nil_append, List.cons_append, compareLoop, if_neg (fun h => h.1 h.2)]
      simp
    rw [heq]
    exact ⟨fun h => by omega, fun h => by omega, fun _ => List.cons_lt_cons_iff.mpr (.inl hx)⟩
  | x :: xs, y :: ys, ha, hb => by
    have hne := ha x List.mem_cons_self
    rw [List.cons_append, List.cons_append, compareLoop]
    by_cases hxy : x = y
    · subst hxy
      obtain ⟨heq, hlt, hgt⟩ := @compareLoop_spec xs ys
        (fun b hb' => ha b (List.mem_cons_of_mem x hb')) fun b hb' => hb b (List.mem_cons_of_mem x hb')
      rw [if_pos ⟨hne, rfl⟩]
      exact ⟨fun h => by rw [heq h], fun h => List.cons_lt_cons_iff.mpr (.inr ⟨rfl, hlt h⟩),
        fun h => List.cons_lt_cons_iff.mpr (.inr ⟨rfl, hgt h⟩)⟩
    · rw [if_neg fun h => hxy h.2]
      refine ⟨fun h => ?_, fun h => ?_, fun h => ?_⟩
      · exact absurd (UInt8.toNat_inj.mp (by omega)) hxy
      · exact List.cons_lt_cons_iff.mpr (.inl (UInt8.lt_iff_toNat_lt.mpr (by omega)))
      · exact List.cons_lt_cons_iff.mpr (.inl (UInt8.lt_iff_toNat_lt.mpr (by omega)))

end DoubleArrayKey

theorem Keys.append {acc : List DoubleArrayKey} {k : DoubleArrayKey} (h : Keys acc)
    (hlast : ∀ l, acc.getLast? = some l → l.full < k.full) (hmoved : k.moved = 0)
    (hfree : NulFree k.text) : Keys (acc ++ [k]) where
  moved := List.forall_mem_append.mpr ⟨h.moved, List.forall_mem_singleton.mpr hmoved⟩
  nulFree := List.forall_mem_append.mpr ⟨h.nulFree, List.forall_mem_singleton.mpr hfree⟩
  sorted := by
    refine List.pairwise_append.mpr ⟨h.sorted, List.pairwise_singleton _ _, fun a ha b hb => ?_⟩
    rw [List.mem_singleton.mp hb]
    obtain ⟨init, l, rfl⟩ : ∃ init l, acc = init ++ [l] :=
      ⟨_, _, (List.dropLast_append_getLast (List.ne_nil_of_mem ha)).symm⟩
    have hlt := hlast l List.getLast?_concat
    rcases List.mem_append.mp ha with ha | ha
    · exact List.lt_trans ((List.pairwise_append.mp h.sorted).2.2 a ha l List.mem_cons_self) hlt
    · rw [List.mem_singleton.mp ha]
      exact hlt

/-- The last key is not below one in front of it. -/
theorem Keys.last_max {acc : List DoubleArrayKey} {last : DoubleArrayKey} (h : Keys acc)
    (hlast : acc.getLast? = some last) : ∀ a ∈ acc, ¬ last.full < a.full := by
  intro a ha
  obtain ⟨init, rfl⟩ := List.getLast?_eq_some_iff.mp hlast
  rcases List.mem_append.mp ha with ha | ha
  · exact List.lt_asymm ((List.pairwise_append.mp h.sorted).2.2 a ha last List.mem_cons_self)
  · rw [List.mem_singleton.mp ha]
    exact List.lt_irrefl _

/-- A comparison with a key that is handed over. -/
theorem Keys.compare_entry {acc : List DoubleArrayKey} {k : DoubleArrayKey} (h : Keys acc)
    (hk : k ∈ acc) (e : Bytes × Int) :
    (k.compare (entry e) = 0 → k.text = (entry e).text) ∧
      (k.compare (entry e) < 0 → k.full < (entry e).full) ∧
      (0 < k.compare (entry e) → (entry e).full < k.full) := by
  have hcompare : k.compare (entry e) =
      DoubleArrayKey.compareLoop (k.text ++ [0]) ((entry e).text ++ [0]) := by
    rw [DoubleArrayKey.compare, DoubleArrayKey.key_, DoubleArrayKey.key_, h.moved k hk,
      show (entry e).moved = 0 from rfl, List.drop_zero, List.drop_zero]
  rw [hcompare]
  exact DoubleArrayKey.compareLoop_spec (h.nulFree k hk) (nulFree_cstr e.1)

section
variable {acc : List DoubleArrayKey} {e : Bytes × Int} {keys : List (Bytes × Int)}

theorem internalKeys_first (h : acc.getLast? = none) :
    internalKeys acc (e :: keys) = internalKeys (acc ++ [entry e]) keys := by
  rw [internalKeys]
  simp only [h]
  rfl

theorem internalKeys_next {last : DoubleArrayKey} (h : acc.getLast? = some last) :
    internalKeys acc (e :: keys) =
      if last.compare (entry e) = 0 then internalKeys acc keys
      else if 0 < last.compare (entry e) then .error (THROW "1056" "Unsorted keys")
      else internalKeys (acc ++ [entry e]) keys := by
  rw [internalKeys]
  simp only [h]
  rfl

end

/-- `build_double_array` hands the keys over in order, each with its first value. -/
theorem internalKeys_outcome : ∀ {keys : List (Bytes × Int)} {acc : List DoubleArrayKey}, Keys acc →
    Outcome ((acc ++ keys.map entry).Pairwise fun a b => ¬ b.full < a.full)
      (fun keys_ => Keys keys_ ∧ keys_.Sublist (acc ++ keys.map entry) ∧
        ∀ t, (keys_.find? fun k => k.text = t) =
          (acc ++ keys.map entry).find? fun k => k.text = t)
      (internalKeys acc keys) := by
  intro keys
  induction keys with
  | nil =>
    intro acc h
    rw [List.map_nil, List.append_nil]
    exact .ok ⟨h, List.Sublist.refl acc, fun _ => rfl⟩
  | cons e keys ih =>
    intro acc h
    have hmoved : (entry e).moved = 0 := rfl
    have hfree : NulFree (entry e).text := nulFree_cstr e.1
    have hsplit : acc ++ (e :: keys).map entry = acc ++ [entry e] ++ keys.map entry := by simp
    rw [hsplit]
    cases hlast : acc.getLast? with
    | none =>
      rw [internalKeys_first hlast]
      exact ih (h.append (fun l hl => by rw [hlast] at hl; cases hl) hmoved hfree)
    | some last =>
      rw [internalKeys_next hlast]
      have hin : last ∈ acc := List.mem_of_getLast? hlast
      obtain ⟨heq, hlt, hgt⟩ := h.compare_entry hin e
      by_cases hzero : last.compare (entry e) = 0
      · rw [if_pos hzero]
        have hsub : (acc ++ keys.map entry).Sublist (acc ++ [entry e] ++ keys.map entry) := by
          rw [List.append_assoc]
          exact (List.sublist_append_right _ _).append_left acc
        refine (ih h).mono (fun hs => hs.sublist hsub) fun keys_ hk =>
          ⟨hk.1, hk.2.1.trans hsub, fun t => (hk.2.2 t).trans ?_⟩
        -- the key that is left out has been handed over
        rw [List.find?_append, List.find?_append, List.find?_append]
        by_cases ht : (entry e).text = t
        · have hsome : (acc.find? fun k => k.text = t).isSome := by
            rw [List.find?_isSome]
            exact ⟨last, hin, by simpa [heq hzero] using ht⟩
          obtain ⟨k, hk⟩ := Option.isSome_iff_exists.mp hsome
          rw [hk]
          rfl
        · have hnone : ([entry e].find? fun k => k.text = t) = none := by simpa using ht
          rw [hnone, Option.or_none]
      · rw [if_neg hzero]
        by_cases hpos : 0 < last.compare (entry e)
        · rw [if_pos hpos]
          refine .thrown fun hs => ?_
          rw [List.append_assoc] at hs
          exact (List.pairwise_append.mp hs).2.2 last hin (entry e) (by simp) (hgt hpos)
        · rw [if_neg hpos]
          refine ih (h.append (fun l hl => ?_) hmoved hfree)
          rw [hlast] at hl
          cases hl
          exact hlt (by omega)

theorem internalKeys_error : ∀ {keys : List (Bytes × Int)} {acc : List DoubleArrayKey} {f : Failure},
    internalKeys acc keys = .error f → f = THROW "1056" "Unsorted keys" := by
  intro keys
  induction keys with
  | nil =>
    intro acc f h
    cases h
  | cons e keys ih =>
    intro acc f h
    cases hlast : acc.getLast? with
    | none =>
      rw [internalKeys_first hlast] at h
      exact ih h
    | some last =>
      rw [internalKeys_next hlast] at h
      split at h
      · exact ih h
      · split at h
        · cases h
          rfl
        · exact ih h

/-- Keys that are handed over are in order, those that are left out too. -/
theorem internalKeys_ascending : ∀ {keys : List (Bytes × Int)} {acc keys_ : List DoubleArrayKey},
    Keys acc → internalKeys acc keys = .ok keys_ →
      (acc ++ keys.map entry).Pairwise fun a b => ¬ b.full < a.full := by
  intro keys
  induction keys with
  | nil =>
    intro acc keys_ h _
    rw [List.map_nil, List.append_nil]
    exact h.sorted.imp fun hlt => List.lt_asymm hlt
  | cons e keys ih =>
    intro acc keys_ h hrun
    have hmoved : (entry e).moved = 0 := rfl
    have hfree : NulFree (entry e).text := nulFree_cstr e.1
    have hsplit : acc ++ (e :: keys).map entry = acc ++ [entry e] ++ keys.map entry := by simp
    cases hlast : acc.getLast? with
    | none =>
      rw [internalKeys_first hlast] at hrun
      rw [hsplit]
      exact ih (h.append (fun l hl => by rw [hlast] at hl; cases hl) hmoved hfree) hrun
    | some last =>
      rw [internalKeys_next hlast] at hrun
      have hin : last ∈ acc := List.mem_of_getLast? hlast
      obtain ⟨heq, hlt, -⟩ := h.compare_entry hin e
      by_cases hzero : last.compare (entry e) = 0
      · -- a repeated key is where the one before it is
        rw [if_pos hzero] at hrun
        have hfull : (entry e).full = last.full := by
          rw [DoubleArrayKey.full, DoubleArrayKey.full, heq hzero]
        obtain ⟨hacc, hrest, hcross⟩ := List.pairwise_append.mp (ih h hrun)
        rw [List.map_cons]
        refine List.pairwise_append.mpr
          ⟨hacc, List.pairwise_cons.mpr ⟨fun b hb => ?_, hrest⟩, fun a ha b hb => ?_⟩
        · rw [hfull]
          exact hcross last hin b hb
        · rcases List.mem_cons.mp hb with rfl | hb
          · rw [hfull]
            exact h.last_max hlast a ha
          · exact hcross a ha b hb
      · rw [if_neg hzero] at hrun
        split at hrun
        · cases hrun
        · rw [hsplit]
          refine ih (h.append (fun l hl => ?_) hmoved hfree) hrun
          rw [hlast] at hl
          cases hl
          exact hlt (by omega)

/-! ## The array -/

/-- The characters of the keys with their terminators. -/
def totalLength (keys : List (Bytes × Int)) : Nat := (keys.map fun e => (cstr e.1).length + 1).sum

/-- Keys in ascending order, maybe repeated. -/
def Ascending (keys : List (Bytes × Int)) : Prop :=
  (keys.map entry).Pairwise fun a b => ¬ b.full < a.full

/-- The value of the first entry for a key. -/
def answer (keys : List (Bytes × Int)) (q : Bytes) : Int :=
  (((keys.map entry).find? fun k => k.text = cstr q).map fun k => k.value.toInt).getD (-1)

theorem sum_le_of_sublist {α : Type} (f : α → Nat) {l l' : List α} (h : l.Sublist l') :
    (l.map f).sum ≤ (l'.map f).sum := by
  induction h with
  | slnil => exact Nat.le_refl _
  | cons a _ ih =>
    rw [List.map_cons, List.sum_cons]
    omega
  | cons_cons a _ ih =>
    rw [List.map_cons, List.sum_cons, List.map_cons, List.sum_cons]
    omega

theorem sum_full (keys : List (Bytes × Int)) :
    ((keys.map entry).map fun k => k.full.length).sum = totalLength keys := by
  rw [List.map_map, totalLength]
  refine congrArg List.sum (List.map_congr_left fun e _ => ?_)
  exact List.length_append

section
variable {keys : List (Bytes × Int)} {keys_ : List DoubleArrayKey}

/-- The nodes and the bytes of suffixes, in terms of the keys that are given. -/
theorem bounds (hkeys : Keys keys_) (hsub : keys_.Sublist (keys.map entry)) :
    nodeBound keys_ ≤ 1 + totalLength keys ∧ bytesOf keys_ ≤ 6 * totalLength keys := by
  have hle := sum_le_of_sublist (fun k : DoubleArrayKey => k.full.length) hsub
  rw [sum_full] at hle
  have hkey : ∀ k ∈ keys_, k.key_.length = k.full.length := fun k hk => by
    rw [DoubleArrayKey.key_, hkeys.moved k hk, List.drop_zero]
    rfl
  have hsum : (keys_.map fun k => k.key_.length).sum = (keys_.map fun k => k.full.length).sum :=
    congrArg List.sum (List.map_congr_left hkey)
  have hbytes : ∀ l : List DoubleArrayKey, (∀ k ∈ l, k.key_.length = k.full.length) →
      bytesOf l ≤ 6 * (l.map fun k => k.full.length).sum := by
    intro l hl
    induction l with
    | nil => exact Nat.le_refl _
    | cons k l ih =>
      obtain ⟨hk, hl⟩ := List.forall_mem_cons.mp hl
      have hrest := ih hl
      have hpos : 0 < k.full.length := by
        rw [DoubleArrayKey.full, List.length_append, List.length_singleton]
        omega
      rw [bytesOf] at hrest ⊢
      rw [List.map_cons, List.sum_cons, List.map_cons, List.sum_cons, hk]
      omega
  have hle' := hbytes keys_ hkey
  rw [nodeBound, hsum]
  omega

theorem Built.leaf_valid {owner : Nat → Option (Option Bytes)} {units₀ : List (BitVec 32)}
    {leaves : List DoubleArrayKey} (hkeys : Keys keys_) (h : Built keys_ owner units₀ leaves) :
    ∀ k ∈ leaves, k.Valid ∧ ∃ u, units₀[k.index]? = some u ∧ isLeaf u = true := fun k hk => by
  obtain ⟨v, k₀, hkey⟩ := h.suffixes k hk
  obtain ⟨k₁, -, w, d, t, -, -, -, -, hvalid, -⟩ := hkey.split hkeys
  have hlt := h.lt hkey.node
  refine ⟨hvalid, unitAt units₀ k.index, ?_, (h.leaf _).mpr ⟨k, hk, rfl⟩⟩
  rw [unitAt, List.getElem?_eq_getElem hlt]
  rfl

/-- What `build` returns, unless it throws. -/
structure Answers (keys : List (Bytes × Int)) (units_ : List (BitVec 32)) : Prop where
  nonempty : units_ ≠ []
  search : ∀ q, exactMatchSearch units_ q = some (answer keys q)
  prefixes : ∀ q max_num_of_results, commonPrefixSearch units_ q max_num_of_results =
    some (collect max_num_of_results (prefixesFrom (valueOf (keys.map entry)) [] (cstr q)))
  size : totalLength keys + 2 < 2 ^ 21 → 4 * units_.length < 2 ^ 32

theorem build_nil : Outcome True (Answers []) (build []) := by
  obtain ⟨b, u, hrun, hblank⟩ := buildTrie_nil
  have hsuffixes : arrangeSuffixes b.units_ [] = .ok b.units_ := by
    rw [arrangeSuffixes, List.mergeSort_nil]
    rfl
  have hne : b.units_ ≠ [] := List.ne_nil_of_length_pos (by rw [hblank.length]; decide)
  rw [build, internalKeys, ok_bind, hrun, ok_bind]
  simp only [hsuffixes, ok_bind, bne_iff_ne.mpr hne, assert_true]
  refine .ok ⟨hne, exactMatchSearch_blank hblank, fun q n => ?_, fun _ => ?_⟩
  · rw [commonPrefixSearch_blank hblank, prefixesFrom_nil fun _ _ => rfl, collect, List.take_nil]
    rfl
  · rw [hblank.length]
    decide

/-- `build` returns an array that answers every search, or it throws: then the keys are out of
order or take up too much room. It never reads what is undefined, and no assertion fails. -/
theorem build_outcome (keys : List (Bytes × Int)) :
    Outcome (Ascending keys ∧ totalLength keys + 2 < 2 ^ 21) (Answers keys) (build keys) := by
  by_cases hne : keys = []
  · subst hne
    exact build_nil.mono (fun _ => trivial) fun _ => id
  rw [build]
  have hnil : Keys [] := ⟨by simp, by simp, List.Pairwise.nil⟩
  refine ((internalKeys_outcome hnil).mono (fun hs => hs.1) fun _ => id).bind ?_
  rintro keys_ ⟨hkeys, hsub, hfind⟩
  obtain ⟨hnodes, hbytes⟩ := bounds hkeys hsub
  have hne' : keys_ ≠ [] := by
    rintro rfl
    obtain ⟨e, rest, rfl⟩ := List.exists_cons_of_ne_nil hne
    have hfirst := hfind (entry e).text
    simp at hfirst
  refine ((buildTrie_outcome hkeys hne').mono (fun hs => ?_) fun _ => id).bind ?_
  · omega
  rintro ⟨b, leaves⟩ ⟨owner, hbuilt, hlen⟩
  replace hbuilt : Built keys_ owner b.units_ leaves := hbuilt
  replace hlen : b.units_.length ≤ 256 * (1 + nodeBound keys_) := hlen
  have htotal := hbuilt.total
  refine ((arrangeSuffixes_outcome (hbuilt.leaf_valid hkeys) hbuilt.nodup).mono (fun hs => ?_)
    fun _ => id).bind ?_
  · omega
  intro units_ hfinished
  have hlower := hfinished.lower
  have hupper := hfinished.upper
  have hone : 1 < b.units_.length := by
    have hcell := (hbuilt.table.child hbuilt.root (.inr rfl : Has keys_ none 1)).1
    exact hcell
  have hunits : units_ ≠ [] := List.ne_nil_of_length_pos (by omega)
  rw [bne_iff_ne.mpr hunits, assert_true, ok_bind]
  have hdictionary := Dictionary.mk hkeys hbuilt hfinished
  refine .ok ⟨hunits, fun q => ?_, fun q n => ?_, fun hs => by omega⟩
  · rw [hdictionary.exactMatchSearch_ok, hfind, answer]
    rfl
  · have hvalue : valueOf keys_ = valueOf (keys.map entry) := funext fun t => by
      rw [valueOf, hfind, valueOf]
      rfl
    rw [hdictionary.commonPrefixSearch_ok, hvalue]

/-- The first entry, without the keys of the builder. -/
theorem answer_eq (keys : List (Bytes × Int)) (q : Bytes) : answer keys q =
    ((keys.find? fun e => cstr e.1 = cstr q).map fun e => (BitVec.ofInt 32 e.2).toInt).getD (-1) := by
  rw [answer, List.find?_map, Option.map_map]
  rfl

/-- **What `build` does with any list of keys** that a `base_type` can count, with a terminator and
the four bytes of a value for each. Either it returns an array that is not empty, in which the
search for every string ends with the value of the first entry for it or with -1; or it throws, and
then the keys are out of order or take up 2 MiB or more. Nothing undefined is read and no assertion
fails. -/
theorem exactMatchSearch_build (keys : List (Bytes × Int))
    (_hbytes : totalLength keys + 4 * keys.length < 2 ^ 31) :
    Outcome (Ascending keys ∧ totalLength keys + 2 < 2 ^ 21)
      (fun units_ => units_ ≠ [] ∧ ∀ q, exactMatchSearch units_ q =
        some (((keys.find? fun e => cstr e.1 = cstr q).map
          fun e => (BitVec.ofInt 32 e.2).toInt).getD (-1)))
      (build keys) :=
  (build_outcome keys).mono id fun _ h => ⟨h.nonempty, fun q => by rw [h.search q, answer_eq]⟩

theorem exactMatchSearch_build_two :
    ∃ units_, build [([97], 5), ([97, 98], 6)] = .ok units_ ∧
      exactMatchSearch units_ [97, 98] = some 6 ∧ exactMatchSearch units_ [98] = some (-1) := by
  have hsmall : Ascending [([97], 5), ([97, 98], 6)] ∧
      totalLength [([97], 5), ([97, 98], 6)] + 2 < 2 ^ 21 := by
    unfold Ascending
    decide
  obtain ⟨units_, hbuild, -, hsearch⟩ :=
    (exactMatchSearch_build [([97], 5), ([97, 98], 6)] (by decide)).ok_of_small hsmall
  refine ⟨units_, hbuild, ?_, ?_⟩
  · rw [hsearch]
    rfl
  · rw [hsearch]
    rfl

/-- The keys that are prefixes of a string, each with its first value and its length. -/
def prefixes (keys : List (Bytes × Int)) (q : Bytes) : List (Int × Nat) :=
  (List.range ((cstr q).length + 1)).filterMap fun n =>
    (keys.find? fun e => cstr e.1 = (cstr q).take n).map fun e => ((BitVec.ofInt 32 e.2).toInt, n)

theorem prefixesFrom_eq (keys : List (Bytes × Int)) (q : Bytes) :
    prefixesFrom (valueOf (keys.map entry)) [] (cstr q) = prefixes keys q := by
  rw [prefixesFrom_eq_range, prefixes]
  congr 1
  funext n
  rw [List.nil_append, List.length_nil, Nat.zero_add, valueOf, List.find?_map, Option.map_map,
    Option.map_map]
  rfl

/-- **The prefixes of a query.** In what `build` returns, the search for prefixes counts every key
that is one, and hands over as many of them as there is room for, the shortest one first. -/
theorem commonPrefixSearch_build (keys : List (Bytes × Int))
    (_hbytes : totalLength keys + 4 * keys.length < 2 ^ 31) :
    Outcome (Ascending keys ∧ totalLength keys + 2 < 2 ^ 21)
      (fun units_ => ∀ q max_num_of_results, commonPrefixSearch units_ q max_num_of_results =
        some ⟨(prefixes keys q).take max_num_of_results, (prefixes keys q).length⟩)
      (build keys) :=
  (build_outcome keys).mono id fun _ h => fun q n => by
    rw [h.prefixes q n, prefixesFrom_eq, collect]

theorem commonPrefixSearch_build_two :
    ∃ units_, build [([97], 5), ([97, 98], 6)] = .ok units_ ∧
      commonPrefixSearch units_ [97, 98, 99] 1 = some ⟨[(5, 1)], 2⟩ := by
  have hsmall : Ascending [([97], 5), ([97, 98], 6)] ∧
      totalLength [([97], 5), ([97, 98], 6)] + 2 < 2 ^ 21 := by
    unfold Ascending
    decide
  obtain ⟨units_, hbuild, hsearch⟩ :=
    (commonPrefixSearch_build [([97], 5), ([97, 98], 6)] (by decide)).ok_of_small hsmall
  refine ⟨units_, hbuild, ?_⟩
  rw [hsearch]
  rfl

/-- **When there is an array.** Keys that take up less than 2 MiB give one exactly when they are in
ascending order, repeated keys among them; otherwise the exception names the order, whatever the
values are. -/
theorem build_ok_iff (keys : List (Bytes × Int)) (hsize : totalLength keys + 2 < 2 ^ 21) :
    ((∃ units_, build keys = .ok units_) ↔ Ascending keys) ∧
      (¬ Ascending keys → build keys = .error (THROW "1056" "Unsorted keys")) := by
  have hnil : Keys [] := ⟨by simp, by simp, List.Pairwise.nil⟩
  have hrefused : ¬ Ascending keys → build keys = .error (THROW "1056" "Unsorted keys") :=
    fun hunsorted => by
      rw [build]
      cases hrun : internalKeys [] keys with
      | ok keys_ => exact absurd (internalKeys_ascending hnil hrun) hunsorted
      | error f => rw [internalKeys_error hrun, error_bind]
  refine ⟨⟨fun ⟨units_, hbuild⟩ => ?_, fun hsorted => ?_⟩, hrefused⟩
  · by_contra hunsorted
    rw [hrefused hunsorted] at hbuild
    cases hbuild
  · obtain ⟨units_, hbuild, -⟩ := (build_outcome keys).ok_of_small ⟨hsorted, hsize⟩
    exact ⟨units_, hbuild⟩

theorem build_ok_iff_unsorted :
    build [([98], 0), ([97], 1)] = .error (THROW "1056" "Unsorted keys") :=
  (build_ok_iff [([98], 0), ([97], 1)] (by decide)).2 (by unfold Ascending; decide)

end

end CommonTools.DartsClone
