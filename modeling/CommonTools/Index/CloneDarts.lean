import CommonTools.Lib.PartialList
import CommonTools.DartsClone.BuildSound
import CommonTools.Index.IndexDa

/-! # The double array under the index

The keys of an index come from a map, so they are in the order that the double array asks
for. The array that is really built finds them and nothing else. -/
namespace CommonTools.Index.IndexDa
open CommonTools.Lib CommonTools.DartsClone

/-! ## Keys and values -/

/-- The double array finds the value of every key it was built from, and
nothing else. -/
structure Darts.Exact (d : Darts) (keys : List (Bytes × Int)) : Prop where
  units_pos : 0 < (d.build keys).length
  units_lt : (d.build keys).length * 4 < 2 ^ 32
  search : ∀ q, NulFree q → d.exactMatchSearch (d.build keys) q = (keys.lookup q).getD (-1)

section
variable {dic_map : Std.TreeMap Bytes (BitVec 32)}

theorem daKeys_keys (hfree : ∀ e ∈ dic_map.toList, NulFree e.1) :
    (daKeys dic_map).map Prod.fst = dic_map.toList.map Prod.fst := by
  rw [daKeys, List.map_map]
  exact List.map_congr_left fun e he => cstr_eq_self (hfree e he)

/-- The offset handed to the double array for a key. -/
theorem daKeys_lookup (hfree : ∀ e ∈ dic_map.toList, NulFree e.1) {q : Bytes} {k : BitVec 32}
    (hget : dic_map[q]? = some k) : (daKeys dic_map).lookup q = some k.toInt := by
  have hmem := Std.TreeMap.mem_toList_iff_getElem?_eq_some.mpr hget
  have hnd : ((daKeys dic_map).map Prod.fst).Nodup := by
    rw [daKeys_keys hfree, List.Nodup, List.pairwise_map]
    exact Std.TreeMap.distinct_keys_toList.imp fun hne heq => hne (Std.compare_eq_iff_eq.mpr heq)
  refine lookup_of_mem (List.mem_map.mpr ⟨(q, k), hmem, ?_⟩) hnd
  rw [cstr_eq_self (hfree (q, k) hmem)]

end

/-! ## The array that is built -/

/-- `Darts::DoubleArray` of `darts-clone.h`. An exception in `build` leaves no array. -/
def cloneDarts : Darts where
  build keys := (DartsClone.build keys).toOption.getD []
  exactMatchSearch units q := (DartsClone.exactMatchSearch units q).getD (-1)

/-- The order of the map is that of the terminated keys. -/
theorem full_lt_of_compare : ∀ {a b : Bytes}, NulFree b → compare a b = .lt → a ++ [0] < b ++ [0]
  | [], [], _, h => by
    rw [List.compare_nil_nil] at h
    cases h
  | [], y :: ys, hb, _ =>
    List.cons_lt_cons_iff.mpr (.inl (UInt8.pos_iff_ne_zero.mpr (hb y List.mem_cons_self)))
  | x :: xs, [], _, h => by
    rw [List.compare_cons_nil] at h
    cases h
  | x :: xs, y :: ys, hb, h => by
    rw [List.compare_cons_cons, Ordering.then_eq_lt] at h
    refine List.cons_lt_cons_iff.mpr ?_
    rcases h with h | ⟨h, hrest⟩
    · exact .inl (compareOfLessAndEq_eq_lt.mp h)
    · exact .inr ⟨Std.LawfulEqOrd.eq_of_compare h,
        full_lt_of_compare (fun b hb' => hb b (List.mem_cons_of_mem y hb')) hrest⟩

/-- The bytes of keys with their terminators. -/
def keyLength (keys : List Bytes) : Nat := (keys.map fun q => q.length + 1).sum

theorem keyLength_perm {l l' : List Bytes} (h : l.Perm l') : keyLength l = keyLength l' :=
  (h.map _).sum_eq

theorem keyLength_le {l l' : List Bytes} (h : l.Nodup) (hsub : ∀ q ∈ l, q ∈ l') :
    keyLength l ≤ keyLength l' := by
  obtain ⟨m, hperm, hm⟩ := List.subperm_of_subset h hsub
  rw [← keyLength_perm hperm]
  exact sum_le_of_sublist _ hm

section
variable {dic_map : Std.TreeMap Bytes (BitVec 32)}

theorem daKeys_ascending (hfree : ∀ e ∈ dic_map.toList, NulFree e.1) :
    Ascending (daKeys dic_map) := by
  rw [Ascending, daKeys, List.map_map, List.pairwise_map]
  refine Std.TreeMap.ordered_keys_toList.imp_of_mem fun {a b} ha hb hlt => List.lt_asymm ?_
  have hfull : a.1 ++ [0] < b.1 ++ [0] := full_lt_of_compare (hfree b hb) hlt
  change cstr (cstr a.1) ++ [0] < cstr (cstr b.1) ++ [0]
  rwa [cstr_eq_self (hfree a ha), cstr_eq_self (hfree a ha), cstr_eq_self (hfree b hb),
    cstr_eq_self (hfree b hb)]

theorem daKeys_nulFree (hfree : ∀ e ∈ dic_map.toList, NulFree e.1) :
    ∀ q ∈ (daKeys dic_map).map Prod.fst, NulFree q := by
  rw [daKeys_keys hfree]
  exact List.forall_mem_map.mpr hfree

theorem daKeys_nodup (hfree : ∀ e ∈ dic_map.toList, NulFree e.1) :
    ((daKeys dic_map).map Prod.fst).Nodup := by
  rw [daKeys_keys hfree, List.Nodup, List.pairwise_map]
  exact Std.TreeMap.distinct_keys_toList.imp fun hne heq => hne (Std.compare_eq_iff_eq.mpr heq)

end

section
variable {keys : List (Bytes × Int)}

theorem totalLength_eq (hfree : ∀ e ∈ keys, NulFree e.1) :
    totalLength keys = keyLength (keys.map Prod.fst) := by
  rw [totalLength, keyLength, List.map_map]
  refine congrArg List.sum (List.map_congr_left fun e he => ?_)
  rw [cstr_eq_self (hfree e he)]
  rfl

/-- The search for a key in the order of the builder. -/
theorem answer_eq_lookup (hfree : ∀ e ∈ keys, NulFree e.1)
    (hvalue : ∀ e ∈ keys, ∃ k : BitVec 32, e.2 = k.toInt) (q : Bytes) :
    answer keys q = (keys.lookup (cstr q)).getD (-1) := by
  rw [answer]
  generalize cstr q = q
  induction keys with
  | nil => rfl
  | cons e keys ih =>
    obtain ⟨he, hfree⟩ := List.forall_mem_cons.mp hfree
    obtain ⟨⟨k, hk⟩, hvalue⟩ := List.forall_mem_cons.mp hvalue
    have htext : (entry e).text = e.1 := cstr_eq_self he
    have hvalue' : (entry e).value.toInt = e.2 := by
      rw [entry, hk, BitVec.ofInt_toInt]
    rw [List.map_cons, List.find?_cons, List.lookup_cons, htext]
    by_cases heq : e.1 = q
    · rw [decide_eq_true heq, beq_iff_eq.mpr heq.symm]
      exact hvalue'
    · rw [decide_eq_false heq, beq_false_of_ne (Ne.symm heq)]
      exact ih hfree hvalue

/-- Keys in order that do not take up too much room give an array. -/
theorem cloneDarts_build (hfree : ∀ e ∈ keys, NulFree e.1) (hsorted : Ascending keys)
    (hsize : keyLength (keys.map Prod.fst) + 2 < 2 ^ 21) :
    DartsClone.build keys = .ok (cloneDarts.build keys) ∧ Answers keys (cloneDarts.build keys) := by
  rw [← totalLength_eq hfree] at hsize
  obtain ⟨units_, hbuild, hanswers⟩ := (build_outcome keys).ok_of_small ⟨hsorted, hsize⟩
  have hunits : cloneDarts.build keys = units_ := by
    change (DartsClone.build keys).toOption.getD [] = units_
    rw [hbuild]
    rfl
  rw [hunits]
  exact ⟨hbuild, hanswers⟩

theorem cloneDarts_exact (hfree : ∀ e ∈ keys, NulFree e.1)
    (hvalue : ∀ e ∈ keys, ∃ k : BitVec 32, e.2 = k.toInt) (hsorted : Ascending keys)
    (hsize : keyLength (keys.map Prod.fst) + 2 < 2 ^ 21) : cloneDarts.Exact keys := by
  obtain ⟨-, hanswers⟩ := cloneDarts_build hfree hsorted hsize
  refine ⟨List.length_pos_of_ne_nil hanswers.nonempty, ?_, fun q hq => ?_⟩
  · rw [Nat.mul_comm]
    exact hanswers.size (by rwa [totalLength_eq hfree])
  · have hsearch : cloneDarts.exactMatchSearch (cloneDarts.build keys) q =
        (some (answer keys q)).getD (-1) := congrArg (Option.getD · (-1)) (hanswers.search q)
    rw [hsearch, Option.getD_some, answer_eq_lookup hfree hvalue, cstr_eq_self hq]

end

section
variable {dic_map : Std.TreeMap Bytes (BitVec 32)} {qs : List Bytes}

theorem daKeys_values : ∀ e ∈ daKeys dic_map, ∃ k : BitVec 32, e.2 = k.toInt := by
  rintro e he
  obtain ⟨itr, -, rfl⟩ := List.mem_map.mp he
  exact ⟨itr.2, rfl⟩

/-- Keys that are among the queries take up no more room than these. -/
theorem daKeys_keyLength (hfree : ∀ e ∈ dic_map.toList, NulFree e.1)
    (hqs : ∀ e ∈ dic_map.toList, e.1 ∈ qs) :
    keyLength ((daKeys dic_map).map Prod.fst) ≤ keyLength qs := by
  refine keyLength_le (daKeys_nodup hfree) ?_
  rw [daKeys_keys hfree]
  exact List.forall_mem_map.mpr hqs

/-- What both writers hand to the double array is built and found. -/
theorem daKeys_cloneDarts (hfree : ∀ e ∈ dic_map.toList, NulFree e.1)
    (hqs : ∀ e ∈ dic_map.toList, e.1 ∈ qs) (hsize : keyLength qs + 2 < 2 ^ 21) :
    DartsClone.build (daKeys dic_map) = .ok (cloneDarts.build (daKeys dic_map)) ∧
      Answers (daKeys dic_map) (cloneDarts.build (daKeys dic_map)) ∧
      cloneDarts.Exact (daKeys dic_map) := by
  have hfree' : ∀ e ∈ daKeys dic_map, NulFree e.1 :=
    List.forall_mem_map.mp (daKeys_nulFree hfree)
  have hsize' : keyLength ((daKeys dic_map).map Prod.fst) + 2 < 2 ^ 21 :=
    Nat.lt_of_le_of_lt (Nat.add_le_add_right (daKeys_keyLength hfree hqs) 2) hsize
  obtain ⟨hbuild, hanswers⟩ := cloneDarts_build hfree' (daKeys_ascending hfree) hsize'
  exact ⟨hbuild, hanswers, cloneDarts_exact hfree' daKeys_values (daKeys_ascending hfree) hsize'⟩

end

end CommonTools.Index.IndexDa
