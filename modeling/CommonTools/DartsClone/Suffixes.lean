import Mathlib.Algebra.BigOperators.Group.List.Basic
import CommonTools.DartsClone.TailBytes

/-! # The suffixes of the leaves

`arrange_suffixes` appends a suffix for a key unless the key is a suffix of the one before,
and its value unless the value is among those of that suffix. Either way the leaf of the key
links to its suffix, and its value is found behind it. -/
namespace CommonTools.DartsClone
open CommonTools.Lib

namespace DoubleArrayKey
variable {k last : DoubleArrayKey}

/-- A key that has not been moved past its terminator. -/
structure Valid (k : DoubleArrayKey) : Prop where
  moved : k.moved ≤ k.text.length
  nulFree : NulFree k.text

theorem Valid.key_ (h : k.Valid) : k.key_ = k.text.drop k.moved ++ [0] := by
  rw [DoubleArrayKey.key_, List.drop_append_of_le_length h.moved]

theorem Valid.length_key_ (h : k.Valid) : k.key_.length = k.length + 1 := by
  rw [h.key_, List.length_append, List.length_drop, List.length_singleton, DoubleArrayKey.length]

theorem isSuffixLoop_sound : ∀ {xs ys : Bytes}, NulFree xs →
    isSuffixLoop (xs ++ [0]) (ys ++ [0]) = true → xs <+: ys
  | [], ys, _, _ => List.nil_prefix
  | x :: xs, [], hx, h => by
    have hne := hx x List.mem_cons_self
    rw [List.cons_append, List.nil_append, isSuffixLoop, if_neg (fun hc => hc.1 hc.2)] at h
    exact absurd (beq_iff_eq.mp h) hne
  | x :: xs, y :: ys, hx, h => by
    have hne := hx x List.mem_cons_self
    rw [List.cons_append, List.cons_append, isSuffixLoop] at h
    by_cases hxy : x = y
    · rw [if_pos ⟨hne, hxy⟩] at h
      rw [hxy]
      exact List.cons_prefix_cons.mpr
        ⟨rfl, isSuffixLoop_sound (fun b hb => hx b (List.mem_cons_of_mem x hb)) h⟩
    · rw [if_neg fun hc => hxy hc.2] at h
      exact absurd (beq_iff_eq.mp h) hne

theorem isSuffixOf_sound (h : k.Valid) (hlast : last.Valid) (hs : k.isSuffixOf last = true) :
    k.key_ <:+ last.key_ := by
  have hfree : NulFree (k.text.drop k.moved).reverse := fun b hb =>
    h.nulFree b (List.mem_of_mem_drop (List.mem_reverse.mp hb))
  have hpre := isSuffixLoop_sound hfree hs
  obtain ⟨t, ht⟩ := List.reverse_prefix.mp hpre
  rw [h.key_, hlast.key_, ← ht]
  exact ⟨t, by simp⟩

end DoubleArrayKey

/-- The leaf `u` links to the suffix of `k` and to its value, in front of `bound`. -/
structure Linked (units_ : List (BitVec 32)) (tail_ bound : Nat) (u : BitVec 32)
    (k : DoubleArrayKey) : Prop where
  leaf : isLeaf u = true
  suffix : Stored units_ (tail_ + link u) k.key_
  value : Stored units_ (tail_ + link u + k.key_.length + 4 * valueId u) (Pod.toBytes k.value)
  inside : tail_ + link u + k.key_.length + 4 * valueId u + 4 ≤ bound

/-- The suffix of `k` stands in front of the values. -/
structure Suffixes.Front (n : Nat) (s : Suffixes) (k : DoubleArrayKey) : Prop where
  fits : k.key_.length ≤ s.base_link
  stored : Stored s.tail.units_ (4 * n + (s.base_link - k.key_.length)) k.key_

/-- The loop in `arrange_suffixes` after the keys `done`. Of the units of the trie only those
in `touched` have been changed. -/
structure Suffixes.Appended (units₀ : List (BitVec 32)) (touched : List Nat)
    (done : List DoubleArrayKey) (room : Nat) (s : Suffixes) : Prop where
  fits : s.tail.Fits
  index : s.tail.tail_index_ = 4 * units₀.length + s.base_link + 4 * s.values.length
  units : ∀ p, p < units₀.length → p ∉ touched → s.tail.units_[p]? = units₀[p]?
  values : ∀ i v, s.values[i]? = some v →
    Stored s.tail.units_ (4 * units₀.length + s.base_link + 4 * i) (Pod.toBytes v)
  few : s.values.length ≤ 8
  linked : ∀ k ∈ done, k.index < units₀.length ∧ ∃ u, s.tail.units_[k.index]? = some u ∧
    Linked s.tail.units_ (4 * units₀.length) s.tail.tail_index_ u k
  bound : s.base_link + 4 * s.values.length ≤ room

section
variable {units₀ : List (BitVec 32)} {touched : List Nat} {done : List DoubleArrayKey} {room : Nat} {s : Suffixes}
  {key : DoubleArrayKey}

theorem Linked.longer {t t' : Tail} (h : t.Longer t') {tail_ : Nat} {u : BitVec 32}
    {k : DoubleArrayKey} (hindex : t.tail_index_ ≤ t'.tail_index_)
    (hl : Linked t.units_ tail_ t.tail_index_ u k) :
    Linked t'.units_ tail_ t'.tail_index_ u k where
  leaf := hl.leaf
  suffix := h.stored (by have := hl.inside; omega) hl.suffix
  value := h.stored (by have := hl.inside; rw [Pod.length_toBytes]; exact this) hl.value
  inside := hl.inside.trans hindex

/-- The choice of a suffix in front of the link. -/
def Suffixes.suffixFor (s : Suffixes) (key : DoubleArrayKey) : Suffixes × Nat :=
  let is_suffix := s.last.any fun last => key.isSuffixOf last
  let value_id := if is_suffix then s.values.idxOf key.value else 0
  if !is_suffix || value_id ≥ VALUE_ID_MAX then
    ({ s with
        base_link := s.base_link + 4 * s.values.length + (key.length + 1)
        values := []
        tail := s.tail.appendSuffix key }, 0)
  else (s, value_id)

namespace Suffixes

theorem Appended.suffix (h : s.Appended units₀ touched done room) (hkey : key.Valid) :
    Appended units₀ touched done (room + key.key_.length) { s with
      base_link := s.base_link + 4 * s.values.length + (key.length + 1)
      values := []
      tail := s.tail.appendSuffix key } ∧
    Front units₀.length { s with
      base_link := s.base_link + 4 * s.values.length + (key.length + 1)
      values := []
      tail := s.tail.appendSuffix key } key := by
  obtain ⟨hlonger, hindex, hstored⟩ := @Tail.appendBytes_ok key.key_ s.tail h.fits
  have hlen := hkey.length_key_
  have hold := h.index
  have hbound := h.bound
  have hat : 4 * units₀.length + (s.base_link + 4 * s.values.length + (key.length + 1) -
      key.key_.length) = s.tail.tail_index_ := by omega
  refine ⟨⟨hlonger.fits, ?_, fun p hp hout => ?_, (fun _ _ hv => by cases hv),
    Nat.zero_le _, fun k hk => ?_, ?_⟩, ?_, ?_⟩
  · show (key.key_.foldl Tail.appendByte s.tail).tail_index_ = 4 * units₀.length +
      (s.base_link + 4 * s.values.length + (key.length + 1)) + 4 * 0
    omega
  · exact (hlonger.unit p (by omega)).trans (h.units p hp hout)
  · obtain ⟨hlt, u, hu, hl⟩ := h.linked k hk
    exact ⟨hlt, u, (hlonger.unit _ (by omega)).trans hu, hl.longer hlonger (by omega)⟩
  · show s.base_link + 4 * s.values.length + (key.length + 1) + 4 * 0 ≤ _
    omega
  · show key.key_.length ≤ s.base_link + 4 * s.values.length + (key.length + 1)
    omega
  · show Stored (key.key_.foldl Tail.appendByte s.tail).units_ (4 * units₀.length +
      (s.base_link + 4 * s.values.length + (key.length + 1) - key.key_.length)) key.key_
    rw [hat]
    exact hstored

/-- A key that is a suffix of the one before is also in front. -/
theorem Front.suffix {last : DoubleArrayKey} {n : Nat} (h : s.Front n last)
    (hs : key.key_ <:+ last.key_) : s.Front n key := by
  obtain ⟨t, ht⟩ := hs
  have hlen := congrArg List.length ht
  rw [List.length_append] at hlen
  have hfits := h.fits
  refine ⟨by omega, ?_⟩
  have hstored := h.stored
  rw [← ht, Stored.append_iff] at hstored
  have hat : 4 * n + (s.base_link - key.key_.length) =
      4 * n + (s.base_link - (t ++ key.key_).length) + t.length := by
    rw [List.length_append]
    omega
  rw [hat]
  exact hstored.2

/-- The suffix in front is one for the key, and `value_id` is the place of its value. -/
theorem suffixFor_ok (h : s.Appended units₀ touched done room) (hkey : key.Valid)
    (hlast : ∀ k, s.last = some k → k.Valid ∧ s.Front units₀.length k) :
    (s.suffixFor key).1.Appended units₀ touched done (room + key.key_.length) ∧
      (s.suffixFor key).1.Front units₀.length key ∧
      (s.suffixFor key).2 < 8 ∧ (s.suffixFor key).2 ≤ (s.suffixFor key).1.values.length ∧
      ∀ v, (s.suffixFor key).1.values[(s.suffixFor key).2]? = some v → v = key.value := by
  have hmax : VALUE_ID_MAX = 8 := rfl
  by_cases hnew : (!(s.last.any fun last => key.isSuffixOf last) || decide
      ((if s.last.any fun last => key.isSuffixOf last then s.values.idxOf key.value else 0) ≥
        VALUE_ID_MAX)) = true
  · have heq : s.suffixFor key = ({ s with
        base_link := s.base_link + 4 * s.values.length + (key.length + 1)
        values := []
        tail := s.tail.appendSuffix key }, 0) := if_pos hnew
    rw [heq]
    obtain ⟨happ, hfront⟩ := h.suffix hkey
    exact ⟨happ, hfront, Nat.zero_lt_succ 7, Nat.zero_le _, fun v hv => by cases hv⟩
  · have heq : s.suffixFor key = (s, if s.last.any fun last => key.isSuffixOf last then
        s.values.idxOf key.value else 0) := if_neg hnew
    rw [Bool.or_eq_true, not_or, Bool.not_eq_true', Bool.not_eq_false, decide_eq_true_eq] at hnew
    obtain ⟨hany, hid⟩ := hnew
    rw [if_pos hany] at hid heq
    rw [heq]
    obtain ⟨last, hsome, hs⟩ := (Option.any_eq_true _ _).mp hany
    obtain ⟨hvalid, hfront⟩ := hlast last hsome
    refine ⟨⟨h.fits, h.index, h.units, h.values, h.few, h.linked, h.bound.trans (Nat.le_add_right _ _)⟩,
      hfront.suffix (DoubleArrayKey.isSuffixOf_sound hkey hvalid hs), by omega, List.idxOf_le_length,
      fun v hv => ?_⟩
    obtain ⟨hlt, hget⟩ := List.getElem?_eq_some_iff.mp hv
    rw [← hget]
    exact List.getElem_idxOf hlt

theorem round_eq (s : Suffixes) (key : DoubleArrayKey) : s.round key =
    defined (s.suffixFor key).1.tail.units_[key.index]? >>= fun unit =>
    setLink ((s.suffixFor key).1.base_link - key.length - 1)
      (setValueId (s.suffixFor key).2 unit) >>= fun unit =>
    let s' : Suffixes := { (s.suffixFor key).1 with tail := { (s.suffixFor key).1.tail with
      units_ := (s.suffixFor key).1.tail.units_.set key.index unit } }
    if (s.suffixFor key).2 = s'.values.length then
      .ok { s' with
        values := s'.values ++ [key.value], tail := s'.tail.appendValue key.value, last := some key }
    else .ok { s' with last := some key } := rfl

theorem stored_set {n p start : Nat} {units_ : List (BitVec 32)} {xs : Bytes} (hp : p < n)
    (hstart : 4 * n ≤ start) (u : BitVec 32) (hs : Stored units_ start xs) :
    Stored (units_.set p u) start xs :=
  hs.congr fun i hi _ => byteAt_set_ne u (by omega)

/-- The unit of a leaf that has no link yet is changed. -/
theorem Appended.set (h : s.Appended units₀ touched done room) {p : Nat} (u : BitVec 32)
    (hp : p < units₀.length) (hout : ∀ k ∈ done, k.index ≠ p) :
    Appended units₀ (p :: touched) done room
      { s with tail := { s.tail with units_ := s.tail.units_.set p u } } where
  fits := ⟨by rw [List.length_set]; exact h.fits.covers, by rw [List.length_set]; exact h.fits.tight⟩
  index := h.index
  units q hq hne := by
    rw [List.mem_cons, not_or] at hne
    rw [List.getElem?_set_ne (Ne.symm hne.1), h.units q hq hne.2]
  values i v hv := stored_set hp (by omega) u (h.values i v hv)
  few := h.few
  linked k hk := by
    obtain ⟨hlt, u', hu', hl⟩ := h.linked k hk
    refine ⟨hlt, u', ?_, hl.leaf, stored_set hp (by omega) u hl.suffix,
      stored_set hp (by omega) u hl.value, hl.inside⟩
    rw [List.getElem?_set_ne (Ne.symm (hout k hk)), hu']
  bound := h.bound

theorem Appended.value (h : s.Appended units₀ touched done room) (hfew : s.values.length < 8)
    (v : BitVec 32) : Appended units₀ touched done (room + 4) { s with
      values := s.values ++ [v]
      tail := s.tail.appendValue v } := by
  obtain ⟨hlonger, hindex, hstored⟩ := @Tail.appendBytes_ok (Pod.toBytes v) s.tail h.fits
  have hlen : (Pod.toBytes v).length = 4 := Pod.length_toBytes v
  have hold := h.index
  have hbound := h.bound
  have hcount : (s.values ++ [v]).length = s.values.length + 1 := by simp
  refine ⟨hlonger.fits, ?_, fun p hp hout => ?_, fun i w hw => ?_, ?_, fun k hk => ?_, ?_⟩
  · show ((Pod.toBytes v).foldl Tail.appendByte s.tail).tail_index_ = 4 * units₀.length +
      s.base_link + 4 * (s.values ++ [v]).length
    omega
  · exact (hlonger.unit p (by omega)).trans (h.units p hp hout)
  · replace hw : (s.values ++ [v])[i]? = some w := hw
    show Stored _ (4 * units₀.length + s.base_link + 4 * i) (Pod.toBytes w)
    by_cases hi : i < s.values.length
    · rw [List.getElem?_append_left hi] at hw
      refine hlonger.stored ?_ (h.values i w hw)
      rw [Pod.length_toBytes]
      show _ + 4 ≤ _
      omega
    · have hi' : i = s.values.length := by
        have := (List.getElem?_eq_some_iff.mp hw).1
        omega
      rw [hi', List.getElem?_concat_length] at hw
      rw [hi', ← Option.some.inj hw, ← hold]
      exact hstored
  · show (s.values ++ [v]).length ≤ 8
    omega
  · obtain ⟨hlt, u, hu, hl⟩ := h.linked k hk
    exact ⟨hlt, u, (hlonger.unit _ (by omega)).trans hu, hl.longer hlonger (by omega)⟩
  · show s.base_link + 4 * (s.values ++ [v]).length ≤ _
    omega

/-- A key is done when its leaf links to the suffix in front and to a value behind it. -/
theorem Appended.linkKey (h : s.Appended units₀ touched done room) (hfront : s.Front units₀.length key)
    (hkey : key.index < units₀.length) {u : BitVec 32} (hu : s.tail.units_[key.index]? = some u)
    (hleaf : isLeaf u = true) (hlink : link u = s.base_link - key.key_.length)
    (hvalue : s.values[valueId u]? = some key.value) :
    Appended units₀ touched (done ++ [key]) room s where
  fits := h.fits
  index := h.index
  units := h.units
  values := h.values
  few := h.few
  linked k hk := by
    rcases List.mem_append.mp hk with hk | hk
    · exact h.linked k hk
    · rw [List.mem_singleton.mp hk]
      have hfits := hfront.fits
      have hlt := (List.getElem?_eq_some_iff.mp hvalue).1
      have hindex := h.index
      have hstored := h.values _ _ hvalue
      refine ⟨hkey, u, hu, hleaf, ?_, ?_, ?_⟩
      · rw [hlink]
        exact hfront.stored
      · have hat : 4 * units₀.length + link u + key.key_.length + 4 * valueId u =
            4 * units₀.length + s.base_link + 4 * valueId u := by omega
        rw [hat]
        exact hstored
      · omega
  bound := h.bound

theorem Appended.mono (h : s.Appended units₀ touched done room) {room' : Nat} (hr : room ≤ room') :
    s.Appended units₀ touched done room' :=
  ⟨h.fits, h.index, h.units, h.values, h.few, h.linked, h.bound.trans hr⟩

theorem Appended.setLast (h : s.Appended units₀ touched done room) (last : Option DoubleArrayKey) :
    Appended units₀ touched done room { s with last := last } :=
  ⟨h.fits, h.index, h.units, h.values, h.few, h.linked, h.bound⟩

theorem round_outcome (h : s.Appended units₀ touched done room) (hvalid : key.Valid)
    (hlast : ∀ k, s.last = some k → k.Valid ∧ s.Front units₀.length k)
    (hkey : key.index < units₀.length) (hout : key.index ∉ touched)
    (hdone : ∀ k ∈ done, k.index ≠ key.index)
    (hleaf : isLeaf (units₀[key.index]) = true) :
    Outcome (room + key.key_.length ≤ 2 ^ 28)
      (fun s' => s'.Appended units₀ (key.index :: touched) (done ++ [key])
          (room + (key.key_.length + 4)) ∧
        ∀ k, s'.last = some k → k.Valid ∧ s'.Front units₀.length k)
      (s.round key) := by
  obtain ⟨happ, hfront, hid, hle, hvalue⟩ := suffixFor_ok h hvalid hlast
  rw [round_eq]
  generalize s.suffixFor key = x at happ hfront hid hle hvalue
  obtain ⟨s₁, value_id⟩ := x
  replace hid : value_id < 8 := hid
  replace hle : value_id ≤ s₁.values.length := hle
  replace hvalue : ∀ v, s₁.values[value_id]? = some v → v = key.value := hvalue
  replace happ : s₁.Appended units₀ touched done (room + key.key_.length) := happ
  replace hfront : s₁.Front units₀.length key := hfront
  have hunit : s₁.tail.units_[key.index]? = some units₀[key.index] := by
    rw [happ.units _ hkey hout, List.getElem?_eq_getElem hkey]
  have hlink : s₁.base_link - key.length - 1 = s₁.base_link - key.key_.length := by
    rw [hvalid.length_key_]
    omega
  have hbound := happ.bound
  have hpos := hvalid.length_key_
  simp only [hunit, defined_some, ok_bind, hlink]
  refine ((setLink_outcome hid units₀[key.index]).mono (fun hs => ?_) fun _ => id).bind ?_
  · have := hfront.fits
    omega
  rintro u ⟨hlinku, hidu, hleafu⟩
  have hset := happ.set u hkey hdone
  have hfront₂ : Front units₀.length { s₁ with tail := { s₁.tail with
      units_ := s₁.tail.units_.set key.index u } } key :=
    ⟨hfront.fits, stored_set hkey (Nat.le_add_right _ _) u hfront.stored⟩
  have hget : (s₁.tail.units_.set key.index u)[key.index]? = some u := by
    rw [List.getElem?_set_self (List.getElem?_eq_some_iff.mp hunit).1]
  generalize hs₂ : ({ s₁ with tail := { s₁.tail with
    units_ := s₁.tail.units_.set key.index u } } : Suffixes) = s₂ at hset hfront₂
  have hvalues : s₂.values = s₁.values := by rw [← hs₂]
  have hbase : s₂.base_link = s₁.base_link := by rw [← hs₂]
  have hget₂ : s₂.tail.units_[key.index]? = some u := by
    rw [← hs₂]
    exact hget
  by_cases hnew : value_id = s₁.values.length
  · have hfew : s₂.values.length < 8 := by
      rw [hvalues]
      omega
    have happend := hset.value hfew key.value
    obtain ⟨hlonger, hindex, -⟩ := @Tail.appendBytes_ok (Pod.toBytes key.value) s₂.tail hset.fits
    have hold := hset.index
    have hfront₃ : Front units₀.length { s₂ with
        values := s₂.values ++ [key.value], tail := s₂.tail.appendValue key.value } key := by
      refine ⟨hfront₂.fits, hlonger.stored ?_ hfront₂.stored⟩
      have hfits : key.key_.length ≤ s₂.base_link := hfront₂.fits
      show 4 * units₀.length + (s₂.base_link - key.key_.length) + key.key_.length ≤ _
      omega
    have hlinked := happend.linkKey hfront₃ hkey
      ((hlonger.unit _ (by omega)).trans hget₂) (hleafu.trans hleaf) (hlinku.trans (by rw [← hbase]))
      (by
        show (s₂.values ++ [key.value])[valueId u]? = _
        rw [hidu, hnew, ← hvalues, List.getElem?_concat_length])
    rw [if_pos hnew]
    rw [← hs₂] at hlinked hfront₃
    refine .ok ⟨hlinked.setLast (some key), fun k hk => ?_⟩
    cases hk
    exact ⟨hvalid, hfront₃.fits, hfront₃.stored⟩
  · have hlt : value_id < s₁.values.length := by omega
    have hat : s₁.values[value_id]? = some key.value := by
      rw [List.getElem?_eq_getElem hlt, hvalue _ (List.getElem?_eq_getElem hlt)]
    have hlinked := hset.linkKey hfront₂ hkey hget₂ (hleafu.trans hleaf) (hlinku.trans (by rw [← hbase]))
      (by rw [hidu, hvalues]; exact hat)
    rw [if_neg hnew]
    rw [← hs₂] at hlinked hfront₂
    refine .ok ⟨(hlinked.setLast (some key)).mono (by omega), fun k hk => ?_⟩
    cases hk
    exact ⟨hvalid, hfront₂.fits, hfront₂.stored⟩

theorem rounds_outcome : ∀ {keys done : List DoubleArrayKey} {touched : List Nat} {room : Nat}
    {s : Suffixes}, s.Appended units₀ touched done room →
    (∀ k, s.last = some k → k.Valid ∧ s.Front units₀.length k) →
    (∀ k ∈ keys, k.Valid ∧ k.index ∉ touched ∧ (∀ k' ∈ done, k'.index ≠ k.index) ∧
      ∃ u, units₀[k.index]? = some u ∧ isLeaf u = true) →
    (keys.map (·.index)).Nodup →
    Outcome (room + (keys.map fun k => k.key_.length + 4).sum ≤ 2 ^ 28)
      (fun s' => ∃ touched', s'.Appended units₀ touched' (done ++ keys)
          (room + (keys.map fun k => k.key_.length + 4).sum) ∧
        ∀ p ∈ touched', p ∈ touched ∨ p ∈ keys.map (·.index))
      (keys.foldlM round s) := by
  intro keys
  induction keys with
  | nil =>
    intro done touched room s h _ _ _
    exact .ok ⟨touched, by rw [List.append_nil]; exact h, fun p hp => .inl hp⟩
  | cons k keys ih =>
    intro done touched room s h hlast hkeys hnd
    obtain ⟨⟨hvalid, hout, hdone, u, hu, hleaf⟩, hkeys⟩ := List.forall_mem_cons.mp hkeys
    rw [List.map_cons, List.nodup_cons] at hnd
    obtain ⟨hlt, hget⟩ := List.getElem?_eq_some_iff.mp hu
    have hsum : ((k :: keys).map fun k => k.key_.length + 4).sum =
        k.key_.length + 4 + (keys.map fun k => k.key_.length + 4).sum := by
      rw [List.map_cons, List.sum_cons]
    rw [List.foldlM_cons, hsum]
    refine ((round_outcome h hvalid hlast hlt hout hdone (by rw [hget]; exact hleaf)).mono
      (fun hs => by omega) fun _ => id).bind ?_
    rintro s' ⟨h', hlast'⟩
    refine (ih h' hlast' (fun k' hk' => ?_) hnd.2).mono (fun hs => by omega) ?_
    · obtain ⟨hvalid', hout', hdone', hleaf'⟩ := hkeys k' hk'
      have hne : k.index ≠ k'.index := fun he => hnd.1 (he ▸ List.mem_map_of_mem hk')
      refine ⟨hvalid', ?_, fun k'' hk'' => ?_, hleaf'⟩
      · rw [List.mem_cons, not_or]
        exact ⟨Ne.symm hne, hout'⟩
      · rcases List.mem_append.mp hk'' with hk'' | hk''
        · exact hdone' k'' hk''
        · rw [List.mem_singleton.mp hk'']
          exact hne
    · rintro s'' ⟨touched', h'', hsub⟩
      refine ⟨touched', ?_, fun p hp => ?_⟩
      · rw [List.append_assoc] at h''
        exact h''.mono (by omega)
      · rw [List.map_cons, List.mem_cons]
        rcases hsub p hp with hp | hp
        · rcases List.mem_cons.mp hp with rfl | hp
          · exact .inr (.inl rfl)
          · exact .inl hp
        · exact .inr (.inr hp)

end Suffixes

/-- The units of the trie with the leaves linked to their keys. -/
structure Finished (units₀ : List (BitVec 32)) (leaves : List DoubleArrayKey) (room : Nat)
    (units_ : List (BitVec 32)) : Prop where
  lower : units₀.length ≤ units_.length
  upper : 4 * units_.length < 4 * units₀.length + room + 4
  inner : ∀ p, p < units₀.length → (∀ k ∈ leaves, k.index ≠ p) → units_[p]? = units₀[p]?
  linked : ∀ k ∈ leaves, ∃ bound u, units_[k.index]? = some u ∧
    Linked units_ (4 * units₀.length) bound u k

theorem arrangeSuffixes_outcome {leaves : List DoubleArrayKey}
    (hleaves : ∀ k ∈ leaves, k.Valid ∧ ∃ u, units₀[k.index]? = some u ∧ isLeaf u = true)
    (hnd : (leaves.map (·.index)).Nodup) :
    Outcome ((leaves.map fun k => k.key_.length + 4).sum ≤ 2 ^ 28)
      (Finished units₀ leaves (leaves.map fun k => k.key_.length + 4).sum)
      (arrangeSuffixes units₀ leaves) := by
  have hperm := List.mergeSort_perm leaves fun a b => !b.reversedComparisonFunc a
  rw [arrangeSuffixes]
  generalize hkeys : leaves.mergeSort (fun a b => !b.reversedComparisonFunc a) = keys at hperm
  have hsum := (hperm.map fun k => k.key_.length + 4).sum_eq
  have hstart : Suffixes.Appended units₀ [] [] 0 ⟨⟨units₀, 4 * units₀.length⟩, 0, [], none⟩ :=
    ⟨⟨Nat.le_refl _, Nat.lt_add_of_pos_right (by decide)⟩, rfl, fun _ _ _ => rfl,
      (fun _ _ hv => by cases hv), Nat.zero_le _, (fun _ hk => by cases hk), Nat.le_refl _⟩
  refine ((Suffixes.rounds_outcome hstart (fun k hk => by cases hk) (fun k hk => ?_)
    ((hperm.map _).nodup_iff.mpr hnd)).mono (fun hs => ?_) fun _ => id).bind ?_
  · obtain ⟨hvalid, hleaf⟩ := hleaves k (hperm.mem_iff.mp hk)
    exact ⟨hvalid, List.not_mem_nil, (fun _ hk' => by cases hk'), hleaf⟩
  · rw [Nat.zero_add, hsum]
    exact hs
  rintro s ⟨touched, h, hsub⟩
  rw [Nat.zero_add, hsum] at h
  have hindex := h.index
  have hcovers := h.fits.covers
  have htight := h.fits.tight
  have hbound := h.bound
  refine .ok ⟨by omega, by omega, fun p hp hout => h.units p hp fun hin => ?_, fun k hk => ?_⟩
  · rcases hsub p hin with hin | hin
    · cases hin
    · obtain ⟨k, hk, he⟩ := List.mem_map.mp hin
      exact hout k (hperm.mem_iff.mp hk) he
  · obtain ⟨-, u, hu, hl⟩ := h.linked k (List.mem_append_right _ (hperm.mem_iff.mpr hk))
    exact ⟨_, u, hu, hl⟩

end

end CommonTools.DartsClone
