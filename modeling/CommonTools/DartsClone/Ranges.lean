import Mathlib.Data.List.Basic
import Mathlib.Algebra.BigOperators.Group.List.Basic
import CommonTools.Lib.CString
import CommonTools.DartsClone.Builder

/-! # The ranges of the keys

The keys with one prefix are a range. A range is cut at the places where the next character
changes, which gives one range for each character. -/
namespace CommonTools.DartsClone
open CommonTools.Lib

/-! ## Listing labels -/

section
variable {f : DoubleArrayKey → UInt8}

/-- The keys with one label, without it. -/
def group (f : DoubleArrayKey → UInt8) (keys : List DoubleArrayKey) (c : UInt8) :
    List DoubleArrayKey :=
  (keys.filter fun k => f k = c).map DoubleArrayKey.incr

/-- What `listRanges` has listed of the keys `done`. -/
structure Listed (f : DoubleArrayKey → UInt8) (done : List DoubleArrayKey) (pre : List UInt8)
    (c : UInt8) (l : Listing) : Prop where
  labels : l.labels = pre ++ [c]
  sorted : (pre ++ [c]).Pairwise (· < ·)
  mem : ∀ x, x ∈ pre ++ [c] ↔ ∃ k ∈ done, f k = x
  ranges : l.next_ranges = pre.map (group f done)
  part : l.part = group f done c
  flatten : l.next_ranges.flatten ++ l.part = done.map DoubleArrayKey.incr

/-- The labels of the keys with their ranges. -/
structure Cut (f : DoubleArrayKey → UInt8) (keys : List DoubleArrayKey) (l : Listing) : Prop where
  sorted : l.labels.Pairwise (· < ·)
  mem : ∀ x, x ∈ l.labels ↔ ∃ k ∈ keys, f k = x
  ranges : l.next_ranges = l.labels.map (group f keys)
  flatten : l.next_ranges.flatten = keys.map DoubleArrayKey.incr

variable {k : DoubleArrayKey} {done : List DoubleArrayKey} {pre : List UInt8} {c : UInt8}
  {l : Listing}

theorem group_concat (done : List DoubleArrayKey) (k : DoubleArrayKey) (c : UInt8) :
    group f (done ++ [k]) c = group f done c ++ if f k = c then [k.incr] else [] := by
  rw [group, List.filter_append, List.map_append, group]
  by_cases h : f k = c <;> simp [h]

theorem group_eq_nil (h : ∀ k ∈ done, f k ≠ c) : group f done c = [] := by
  rw [group, List.map_eq_nil_iff, List.filter_eq_nil_iff]
  simpa using h

theorem Listed.same (h : Listed f done pre c l) (hk : f k = c) :
    Listed f (done ++ [k]) pre c { l with part := l.part ++ [k.incr] } where
  labels := h.labels
  sorted := h.sorted
  mem x := by
    rw [h.mem]
    constructor
    · rintro ⟨k', hk', rfl⟩
      exact ⟨k', List.mem_append_left _ hk', rfl⟩
    · rintro ⟨k', hk', rfl⟩
      rcases List.mem_append.mp hk' with hk' | hk'
      · exact ⟨k', hk', rfl⟩
      · rw [List.mem_singleton.mp hk', hk]
        exact (h.mem c).mp (List.mem_append_right _ List.mem_cons_self)
  ranges := by
    refine h.ranges.trans (List.map_congr_left fun x hx => ?_)
    have hlt := (List.pairwise_append.mp h.sorted).2.2 x hx c List.mem_cons_self
    rw [group_concat, hk, if_neg (Ne.symm (UInt8.ne_of_lt hlt)), List.append_nil]
  part := by
    rw [group_concat, if_pos hk, ← h.part]
  flatten := by
    rw [List.map_append, ← h.flatten, List.append_assoc]
    rfl

theorem Listed.other (h : Listed f done pre c l) (hk : c < f k) :
    Listed f (done ++ [k]) (pre ++ [c]) (f k)
      ⟨l.labels ++ [f k], l.next_ranges ++ [l.part], [k.incr]⟩ where
  labels := by rw [h.labels]
  sorted := by
    refine List.pairwise_append.mpr ⟨h.sorted, List.pairwise_singleton _ _, fun x hx y hy => ?_⟩
    rw [List.mem_singleton.mp hy]
    rcases List.mem_append.mp hx with hx | hx
    · exact UInt8.lt_trans ((List.pairwise_append.mp h.sorted).2.2 x hx c List.mem_cons_self) hk
    · rw [List.mem_singleton.mp hx]
      exact hk
  mem x := by
    rw [List.mem_append, h.mem, List.mem_singleton]
    constructor
    · rintro (⟨k', hk', rfl⟩ | rfl)
      · exact ⟨k', List.mem_append_left _ hk', rfl⟩
      · exact ⟨k, List.mem_append_right _ List.mem_cons_self, rfl⟩
    · rintro ⟨k', hk', rfl⟩
      rcases List.mem_append.mp hk' with hk' | hk'
      · exact .inl ⟨k', hk', rfl⟩
      · exact .inr (congrArg f (List.mem_singleton.mp hk'))
  ranges := by
    have hlast : ∀ x ∈ pre ++ [c], f k ≠ x := fun x hx he => by
      rcases List.mem_append.mp hx with hx | hx
      · have hlt := (List.pairwise_append.mp h.sorted).2.2 x hx c List.mem_cons_self
        exact UInt8.ne_of_lt (UInt8.lt_trans hlt hk) he.symm
      · exact UInt8.ne_of_lt hk (he.trans (List.mem_singleton.mp hx)).symm
    have hold : (pre ++ [c]).map (group f (done ++ [k])) = (pre ++ [c]).map (group f done) :=
      List.map_congr_left fun x hx => by
        rw [group_concat, if_neg (hlast x hx), List.append_nil]
    rw [hold, List.map_append, ← h.ranges, List.map_singleton, ← h.part]
  part := by
    rw [group_concat, if_pos rfl, group_eq_nil, List.nil_append]
    intro k' hk' he
    have hin := (h.mem (f k)).mpr ⟨k', hk', he⟩
    rcases List.mem_append.mp hin with hin | hin
    · exact UInt8.lt_irrefl _ (UInt8.lt_trans
        ((List.pairwise_append.mp h.sorted).2.2 _ hin c List.mem_cons_self) hk)
    · rw [List.mem_singleton.mp hin] at hk
      exact UInt8.lt_irrefl _ hk
  flatten := by
    rw [List.map_append, ← h.flatten]
    simp

theorem listRanges_rest : ∀ {rest done : List DoubleArrayKey} {pre : List UInt8} {c : UInt8}
    {l : Listing}, Listed f done pre c l → (∀ k ∈ rest, k.char 0 = some (f k)) →
    (∀ k ∈ rest, c ≤ f k) → (rest.Pairwise fun a b => f a ≤ f b) →
    ∃ l', listRanges rest l = some l' ∧ Cut f (done ++ rest) l' := by
  intro rest
  induction rest with
  | nil =>
    intro done pre c l h _ _ _
    refine ⟨_, rfl, ?_, ?_, ?_, ?_⟩
    · exact h.labels ▸ h.sorted
    · intro x
      rw [List.append_nil, ← h.mem]
      exact h.labels ▸ Iff.rfl
    · show l.next_ranges ++ [l.part] = l.labels.map _
      rw [h.labels, List.append_nil, List.map_append, ← h.ranges, List.map_singleton, ← h.part]
    · show (l.next_ranges ++ [l.part]).flatten = _
      rw [List.flatten_append, List.flatten_singleton, h.flatten, List.append_nil]
  | cons k rest ih =>
    intro done pre c l h hchar hlow hsorted
    obtain ⟨hk, hchar⟩ := List.forall_mem_cons.mp hchar
    obtain ⟨hck, -⟩ := List.forall_mem_cons.mp hlow
    rw [List.pairwise_cons] at hsorted
    have hsplit : done ++ k :: rest = (done ++ [k]) ++ rest := by simp
    have hlast : l.labels.getLast? = some c := by rw [h.labels, List.getLast?_concat]
    rw [hsplit]
    by_cases hkc : f k = c
    · obtain ⟨l', hrun, hcut⟩ := ih (h.same hkc) hchar (fun k' hk' => hkc ▸ hsorted.1 k' hk') hsorted.2
      refine ⟨l', ?_, hcut⟩
      rw [listRanges, hk]
      simp only [Option.bind_eq_bind, Option.bind_some, hlast, hkc, ne_eq, not_true_eq_false, if_false]
      exact hrun
    · have hlt : c < f k := UInt8.lt_of_le_of_ne hck (Ne.symm hkc)
      obtain ⟨l', hrun, hcut⟩ := ih (h.other hlt) hchar hsorted.1 hsorted.2
      refine ⟨l', ?_, hcut⟩
      rw [listRanges, hk]
      have hne : some c ≠ some (f k) := fun he => hkc (Option.some.inj he).symm
      simp only [Option.bind_eq_bind, Option.bind_some, hlast, ne_eq, hne, not_false_eq_true, if_true,
        List.nil_append]
      exact hrun

/-- The loop that lists the labels, from the first key on. -/
theorem listRanges_ok {rest : List DoubleArrayKey} (hchar : ∀ k' ∈ k :: rest, k'.char 0 = some (f k'))
    (hsorted : (k :: rest).Pairwise fun a b => f a ≤ f b) :
    ∃ l, listRanges (k :: rest) ⟨[f k], [], []⟩ = some l ∧ Cut f (k :: rest) l := by
  have hfirst : Listed f [k] [] (f k) ⟨[f k], [], [k.incr]⟩ :=
    ⟨rfl, List.pairwise_singleton _ _, by simp [eq_comm], rfl, by simp [group], rfl⟩
  obtain ⟨hk, hchar⟩ := List.forall_mem_cons.mp hchar
  rw [List.pairwise_cons] at hsorted
  obtain ⟨l, hrun, hcut⟩ := listRanges_rest hfirst hchar hsorted.1 hsorted.2
  refine ⟨l, ?_, hcut⟩
  rw [listRanges, hk]
  simp only [Option.bind_eq_bind, Option.bind_some, List.getLast?_singleton, ne_eq, not_true_eq_false,
    if_false, List.nil_append]
  exact hrun

end

/-! ## Keys with a prefix -/

/-- The text of a key with its terminator. -/
def DoubleArrayKey.full (k : DoubleArrayKey) : Bytes := k.text ++ [0]

/-- What `build_double_array` hands over. -/
structure Keys (keys_ : List DoubleArrayKey) : Prop where
  moved : ∀ k ∈ keys_, k.moved = 0
  nulFree : ∀ k ∈ keys_, NulFree k.text
  sorted : keys_.Pairwise fun a b => a.full < b.full

def under (keys_ : List DoubleArrayKey) (v : Bytes) : List DoubleArrayKey :=
  (keys_.filter fun k => v <+: k.full).map fun k => { k with moved := v.length }

def DoubleArrayKey.head (k : DoubleArrayKey) : UInt8 := (k.char 0).getD 0

section
variable {keys_ : List DoubleArrayKey} {k k' : DoubleArrayKey} {v : Bytes} {c : UInt8}

theorem char_zero (k : DoubleArrayKey) : k.char 0 = k.full[k.moved]? := by
  rw [DoubleArrayKey.char, DoubleArrayKey.key_, List.getElem?_drop, Nat.add_zero]
  rfl

theorem concat_prefix_iff {l : Bytes} : v ++ [c] <+: l ↔ v <+: l ∧ l[v.length]? = some c := by
  constructor
  · rintro ⟨t, rfl⟩
    exact ⟨⟨c :: t, by simp⟩, by simp⟩
  · rintro ⟨⟨t, rfl⟩, hc⟩
    rw [List.getElem?_append_right (Nat.le_refl _), Nat.sub_self] at hc
    cases t with
    | nil => cases hc
    | cons a t =>
      cases hc
      exact ⟨t, by simp⟩

/-- No key with its terminator is a prefix of another. -/
theorem full_prefix {a b : Bytes} (hb : NulFree b) (h : a ++ [0] <+: b ++ [0]) : a = b := by
  rcases List.prefix_concat_iff.mp h with h | h
  · exact List.append_cancel_right h
  · exact absurd rfl (hb 0 (h.subset (List.mem_append_right _ List.mem_cons_self)))

theorem append_lt_append_iff {a b : Bytes} : v ++ a < v ++ b ↔ a < b := by
  induction v with
  | nil => rfl
  | cons x v ih =>
    rw [List.cons_append, List.cons_append, List.cons_lt_cons_iff, ih]
    simp [UInt8.lt_irrefl]

namespace Keys

theorem nodup (h : Keys keys_) : keys_.Nodup := by
  refine h.sorted.imp fun hlt he => ?_
  rw [he] at hlt
  exact List.lt_irrefl _ hlt

theorem full_inj (h : Keys keys_) (hk : k ∈ keys_) (hk' : k' ∈ keys_) (he : k.full = k'.full) :
    k = k' := by
  refine List.inj_on_of_nodup_map ?_ hk hk' he
  rw [List.Nodup, List.pairwise_map]
  refine h.sorted.imp fun hlt he => ?_
  rw [he] at hlt
  exact List.lt_irrefl _ hlt

theorem eq_of_prefix (h : Keys keys_) (hk : k ∈ keys_) (hk' : k' ∈ keys_) (hp : k.full <+: k'.full) :
    k = k' := by
  refine h.full_inj hk hk' ?_
  rw [DoubleArrayKey.full, DoubleArrayKey.full, full_prefix (h.nulFree k' hk') hp]

/-- The range of a whole key holds that key alone. -/
theorem under_full (h : Keys keys_) (hk : k ∈ keys_) :
    under keys_ k.full = [{ k with moved := k.full.length }] := by
  have hfilter : keys_.filter (fun k' => k.full <+: k'.full) = [k] := by
    rw [← List.perm_singleton]
    refine (List.perm_ext_iff_of_nodup (h.nodup.sublist List.filter_sublist)
      (List.nodup_singleton k)).mpr fun k' => ?_
    rw [List.mem_filter, List.mem_singleton, decide_eq_true_eq]
    constructor
    · rintro ⟨hk', hp⟩
      exact (h.eq_of_prefix hk hk' hp).symm
    · rintro rfl
      exact ⟨hk, List.prefix_rfl⟩
  rw [under, hfilter, List.map_singleton]

theorem mem_under : k ∈ under keys_ v ↔
    ∃ k₀ ∈ keys_, v <+: k₀.full ∧ k = { k₀ with moved := v.length } := by
  simp only [under, List.mem_map, List.mem_filter, decide_eq_true_eq]
  constructor
  · rintro ⟨k₀, ⟨hk₀, hp⟩, rfl⟩
    exact ⟨k₀, hk₀, hp, rfl⟩
  · rintro ⟨k₀, hk₀, hp, rfl⟩
    exact ⟨k₀, ⟨hk₀, hp⟩, rfl⟩

/-- In a range that is no leaf every key goes on. -/
theorem char_under (h : Keys keys_) (hv : v = [] ∨ (under keys_ v).length ≠ 1)
    (hk : k ∈ under keys_ v) : k.char 0 = some k.head := by
  obtain ⟨k₀, hk₀, hp, rfl⟩ := mem_under.mp hk
  have hne : v ≠ k₀.full := by
    rintro rfl
    rcases hv with hv | hv
    · exact absurd hv (by simp [DoubleArrayKey.full])
    · exact hv (by rw [h.under_full hk₀, List.length_singleton])
  have hlt : v.length < k₀.full.length := by
    refine Nat.lt_of_le_of_ne hp.length_le fun hlen => ?_
    exact hne (hp.eq_of_length hlen)
  have hsome : k₀.full[v.length]? = some k₀.full[v.length] := List.getElem?_eq_getElem hlt
  rw [DoubleArrayKey.head, char_zero]
  show k₀.full[v.length]? = some (k₀.full[v.length]?.getD 0)
  rw [hsome]
  rfl

theorem sorted_under (h : Keys keys_) (hv : v = [] ∨ (under keys_ v).length ≠ 1) :
    (under keys_ v).Pairwise fun a b => a.head ≤ b.head := by
  have hchar := fun k hk => h.char_under hv (k := k) hk
  rw [under] at hchar ⊢
  rw [List.pairwise_map]
  refine (h.sorted.sublist List.filter_sublist).imp_of_mem fun {a b} ha hb hlt => ?_
  have hca := hchar _ (List.mem_map_of_mem ha)
  have hcb := hchar _ (List.mem_map_of_mem hb)
  obtain ⟨s, hs⟩ := of_decide_eq_true (List.mem_filter.mp ha).2
  obtain ⟨t, ht⟩ := of_decide_eq_true (List.mem_filter.mp hb).2
  rw [char_zero] at hca hcb
  replace hca : a.full[v.length]? = some _ := hca
  replace hcb : b.full[v.length]? = some _ := hcb
  rw [← hs, List.getElem?_append_right (Nat.le_refl _), Nat.sub_self] at hca
  rw [← ht, List.getElem?_append_right (Nat.le_refl _), Nat.sub_self] at hcb
  rw [← hs, ← ht, append_lt_append_iff] at hlt
  cases s with
  | nil => cases hca
  | cons x s =>
    cases t with
    | nil => cases hcb
    | cons y t =>
      rw [← Option.some.inj hca, ← Option.some.inj hcb]
      rcases List.cons_lt_cons_iff.mp hlt with hxy | ⟨hxy, -⟩
      · exact UInt8.le_of_lt hxy
      · exact UInt8.le_of_eq hxy

/-- The next ranges are those of the children. -/
theorem group_under (h : Keys keys_) (hv : v = [] ∨ (under keys_ v).length ≠ 1) (c : UInt8) :
    group DoubleArrayKey.head (under keys_ v) c = under keys_ (v ++ [c]) := by
  have hchar := fun k hk => h.char_under hv (k := k) hk
  rw [group, under, List.filter_map, List.map_map, List.filter_filter, under]
  have hfilter : keys_.filter (fun k => ((fun k : DoubleArrayKey => decide (k.head = c)) ∘
      fun k => { k with moved := v.length }) k && decide (v <+: k.full)) =
      keys_.filter fun k => v ++ [c] <+: k.full := by
    refine List.filter_congr fun k hk => ?_
    rw [Bool.eq_iff_iff, Bool.and_eq_true, decide_eq_true_eq, decide_eq_true_eq, concat_prefix_iff,
      and_comm]
    refine and_congr_right fun hp => ?_
    have hsome := hchar _ (mem_under.mpr ⟨k, hk, hp, rfl⟩)
    rw [char_zero] at hsome
    replace hsome : k.full[v.length]? = some _ := hsome
    rw [hsome, Option.some.injEq]
    exact decide_eq_true_iff
  rw [hfilter]
  refine List.map_congr_left fun k _ => ?_
  rw [List.length_append, List.length_singleton]
  rfl

end Keys

end

end CommonTools.DartsClone
