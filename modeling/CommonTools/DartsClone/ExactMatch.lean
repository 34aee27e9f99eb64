import CommonTools.DartsClone.Trie
import CommonTools.DartsClone.Suffixes

/-! # What a search finds

A search stands at a node as long as the query is a prefix of two keys or more. The next
character leads to another such node, to the only leaf that can be meant, or to a unit with
another label. -/
namespace CommonTools.DartsClone
open CommonTools.Lib

/-- The double array of the keys. -/
structure Dictionary (keys_ : List DoubleArrayKey) (owner : Nat → Option (Option Bytes))
    (units₀ : List (BitVec 32)) (leaves : List DoubleArrayKey) (room : Nat)
    (units_ : List (BitVec 32)) : Prop where
  keys : Keys keys_
  built : Built keys_ owner units₀ leaves
  finished : Finished units₀ leaves room units_

/-- A node with children for the prefix `v`. -/
structure Inner (keys_ : List DoubleArrayKey) (owner : Nat → Option (Option Bytes))
    (units₀ : List (BitVec 32)) (leaves : List DoubleArrayKey) (p : Nat) (v : Bytes) : Prop where
  node : At keys_ owner p v
  inner : ¬ ∃ k ∈ leaves, k.index = p
  base : owner (p ^^^ offset (unitAt units₀ p)) = some (some v)

section
variable {keys_ leaves : List DoubleArrayKey} {owner : Nat → Option (Option Bytes)}
  {units₀ units_ : List (BitVec 32)} {room p : Nat} {v : Bytes} {c : UInt8}

/-- The key of a leaf, with what is in front of its suffix. -/
theorem LeafKey.split {k₀ k : DoubleArrayKey} (hkeys : Keys keys_) (h : LeafKey keys_ owner v k₀ k) :
    ∃ k₁ ∈ keys_, ∃ w d t, v = w ++ [d] ∧ k.key_ = d :: t ∧ k₁.full = w ++ k.key_ ∧
      k.value = k₁.value ∧ k.Valid ∧ under keys_ v = [{ k₁ with moved := v.length }] := by
  have hin : ({ k₀ with moved := v.length } : DoubleArrayKey) ∈ under keys_ v := by
    rw [h.range]
    exact List.mem_singleton_self _
  obtain ⟨k₁, hk₁, hp, heq⟩ := Keys.mem_under.mp hin
  obtain ⟨w, d, rfl⟩ : ∃ w d, v = w ++ [d] :=
    ⟨_, _, (List.dropLast_append_getLast h.nonempty).symm⟩
  have htext := (congrArg DoubleArrayKey.text heq :)
  obtain ⟨t, ht⟩ := hp
  have hkey : k.key_ = d :: t := by
    rw [h.key]
    show (k₀.text ++ [0]).drop ((w ++ [d]).length - 1) = d :: t
    rw [show k₀.text = k₁.text from htext, show k₁.text ++ [0] = w ++ [d] ++ t from ht.symm, List.length_append,
      List.length_singleton, Nat.add_sub_cancel, List.append_assoc, List.drop_left]
    rfl
  refine ⟨k₁, hk₁, w, d, t, rfl, hkey, ?_, ?_, ?_, h.range.trans (congrArg (fun k => [k]) heq)⟩
  · rw [hkey, ← ht, List.append_assoc]
    rfl
  · rw [h.key]
    exact (congrArg DoubleArrayKey.value heq :)
  · have hlen := congrArg List.length ht
    rw [List.length_append, List.length_append, List.length_singleton, DoubleArrayKey.full,
      List.length_append, List.length_singleton] at hlen
    rw [h.key]
    refine ⟨?_, ?_⟩
    · show (w ++ [d]).length - 1 ≤ k₀.text.length
      rw [show k₀.text = k₁.text from htext, List.length_append, List.length_singleton]
      omega
    · show NulFree k₀.text
      rw [show k₀.text = k₁.text from htext]
      exact hkeys.nulFree k₁ hk₁

theorem Built.lt (h : Built keys_ owner units₀ leaves) (hp : At keys_ owner p v) :
    p < units₀.length := by
  have hfix := hp.isFixed h.table h.root
  exact hfix

namespace Dictionary

theorem get_of_lt (h : Dictionary keys_ owner units₀ leaves room units_) (hp : p < units₀.length) :
    ∃ u, units_[p]? = some u ∧ (isLeaf u = true ↔ ∃ k ∈ leaves, k.index = p) ∧
      (isLeaf u = false → u = unitAt units₀ p) := by
  by_cases hleaf : ∃ k ∈ leaves, k.index = p
  · obtain ⟨k, hk, rfl⟩ := hleaf
    obtain ⟨bound, u, hu, hl⟩ := h.finished.linked k hk
    refine ⟨u, hu, iff_of_true hl.leaf ⟨k, hk, rfl⟩, fun hf => ?_⟩
    rw [hl.leaf] at hf
    cases hf
  · have hsame := h.finished.inner p hp fun k hk he => hleaf ⟨k, hk, he⟩
    refine ⟨unitAt units₀ p, ?_, h.built.leaf p, fun _ => rfl⟩
    rw [hsame, unitAt, List.getElem?_eq_getElem hp]
    rfl

theorem inner_of_at (h : Dictionary keys_ owner units₀ leaves room units_) (hp : At keys_ owner p v)
    (hleaf : ¬ ∃ k ∈ leaves, k.index = p) : Inner keys_ owner units₀ leaves p v :=
  ⟨hp, hleaf, (h.built.nodes p v hp).resolve_left hleaf⟩

theorem get_inner (h : Dictionary keys_ owner units₀ leaves room units_)
    (hp : Inner keys_ owner units₀ leaves p v) : units_[p]? = some (unitAt units₀ p) := by
  obtain ⟨u, hu, hleaf, hsame⟩ := h.get_of_lt (h.built.lt hp.node)
  rw [hu, hsame (Bool.eq_false_iff.mpr fun htrue => hp.inner (hleaf.mp htrue))]

theorem root (h : Dictionary keys_ owner units₀ leaves room units_) :
    Inner keys_ owner units₀ leaves 0 [] := by
  refine h.inner_of_at (.inl ⟨rfl, rfl⟩) ?_
  rintro ⟨k, hk, hi⟩
  obtain ⟨v, k₀, hkey⟩ := h.built.suffixes k hk
  have hnode := hkey.node
  rw [hi] at hnode
  exact hkey.nonempty (hnode.unique h.built.table h.built.root (.inl ⟨rfl, rfl⟩))

theorem get_next (h : Dictionary keys_ owner units₀ leaves room units_)
    (hp : Inner keys_ owner units₀ leaves p v) (c : UInt8) :
    p ^^^ offset (unitAt units₀ p) ^^^ c.toNat < units₀.length := by
  obtain ⟨d, hd⟩ := h.built.table.inhabited hp.base
  have hlt := (h.built.table.child hp.base hd).1
  have hdiv := xor_byte_div (p ^^^ offset (unitAt units₀ p)) d
  have hdiv' := xor_byte_div (p ^^^ offset (unitAt units₀ p)) c
  have hsize := h.built.size
  omega

/-- The keys behind a leaf that the next character leads to. -/
structure Behind (keys_ : List DoubleArrayKey) (v : Bytes) (c : UInt8) (k k₁ : DoubleArrayKey) :
    Prop where
  mem : k₁ ∈ keys_
  value : k.value = k₁.value
  valid : k.Valid
  only : ∀ k' ∈ keys_, v ++ [c] <+: k'.full → k' = k₁ ∧ k.key_.head? = some c
  full : k.key_.head? = some c → k₁.full = v ++ k.key_

/-- A leaf is taken for the key that it links to, whatever its label. -/
theorem behind (h : Dictionary keys_ owner units₀ leaves room units_)
    (hp : Inner keys_ owner units₀ leaves p v) {k : DoubleArrayKey} (hk : k ∈ leaves)
    (hi : k.index = p ^^^ offset (unitAt units₀ p) ^^^ c.toNat) :
    ∃ k₁, Behind keys_ v c k k₁ := by
  obtain ⟨v', k₀, hkey⟩ := h.built.suffixes k hk
  obtain ⟨k₁, hk₁, w, d, t, rfl, hdt, hfull, hvalue, hvalid, hunder⟩ := hkey.split h.keys
  have hnode := hkey.node
  rw [hi] at hnode
  refine ⟨k₁, hk₁, hvalue, hvalid, fun k' hk' hp' => ?_, fun hhead => ?_⟩
  · have hcell := At.of_cell h.built.table h.built.root hp.base ⟨k', hk', hp'⟩ hnode
    obtain ⟨hwv, hdc⟩ := List.append_inj' hcell rfl
    cases hdc
    refine ⟨?_, by rw [hdt]; rfl⟩
    rw [hcell] at hunder
    have hin : ({ k' with moved := (v ++ [c]).length } : DoubleArrayKey) ∈ under keys_ (v ++ [c]) :=
      Keys.mem_under.mpr ⟨k', hk', hp', rfl⟩
    rw [hunder, List.mem_singleton] at hin
    have htext := (congrArg DoubleArrayKey.text hin :)
    exact h.keys.full_inj hk' hk₁ (congrArg (· ++ [0]) htext)
  · rw [hdt, List.head?_cons, Option.some.injEq] at hhead
    subst hhead
    rcases hnode with ⟨-, hnil⟩ | ⟨w', d', hw, hown, -⟩
    · simp at hnil
    · obtain ⟨rfl, hd⟩ := List.append_inj' hw rfl
      cases hd
      rw [xor_byte_cancel, hp.base, Option.some.injEq, Option.some.injEq] at hown
      rw [hfull, hown]

/-- A unit that is no leaf is the next node exactly when it has the label. -/
theorem next_inner (h : Dictionary keys_ owner units₀ leaves room units_)
    (hp : Inner keys_ owner units₀ leaves p v)
    (hleaf : ¬ ∃ k ∈ leaves, k.index = p ^^^ offset (unitAt units₀ p) ^^^ c.toNat) :
    (label (unitAt units₀ (p ^^^ offset (unitAt units₀ p) ^^^ c.toNat)) = c ↔
        Has keys_ (some v) c) ∧
      (Has keys_ (some v) c →
        Inner keys_ owner units₀ leaves (p ^^^ offset (unitAt units₀ p) ^^^ c.toNat) (v ++ [c])) :=
  ⟨h.built.table.label_eq_iff hp.base (h.get_next hp c),
    fun hc => h.inner_of_at (At.child hp.base hc) hleaf⟩

/-- No node with children stands for a whole key. -/
theorem not_full (h : Dictionary keys_ owner units₀ leaves room units_) {t : Bytes}
    (hp : Inner keys_ owner units₀ leaves p (t ++ [0])) : False := by
  obtain ⟨c, k, hk, hpre⟩ := h.built.table.inhabited hp.base
  have hpre' : t ++ [0] <+: k.full := (List.prefix_append _ _).trans hpre
  have htext := full_prefix (h.keys.nulFree k hk) hpre'
  have hlen := hpre.length_le
  rw [DoubleArrayKey.full, ← htext] at hlen
  simp at hlen

end Dictionary

/-! ## Suffixes and values -/

theorem compareSuffix_ok : ∀ {xs ys : Bytes} {tail : Nat}, NulFree ys →
    Stored units_ tail (xs ++ [0]) → NulFree xs →
    compareSuffix units_ (ys ++ [0]) tail =
      some (if xs = ys then some (tail + xs.length) else none)
  | [], [], tail, _, hs, _ => by
    have h0 := hs 0 0 rfl
    rw [Nat.add_zero] at h0
    rw [List.nil_append, compareSuffix, h0]
    rfl
  | [], y :: ys, tail, hy, hs, _ => by
    have h0 := hs 0 0 rfl
    rw [Nat.add_zero] at h0
    have hne : (0 : UInt8) ≠ y := Ne.symm (hy y List.mem_cons_self)
    rw [List.cons_append, compareSuffix, h0]
    simp [hne]
  | x :: xs, [], tail, _, hs, hx => by
    have h0 := hs 0 x rfl
    rw [Nat.add_zero] at h0
    have hne := hx x List.mem_cons_self
    rw [List.nil_append, compareSuffix, h0]
    simp [hne]
  | x :: xs, y :: ys, tail, hy, hs, hx => by
    have h0 := hs 0 x rfl
    rw [Nat.add_zero] at h0
    have hne := hx x List.mem_cons_self
    have hrest : Stored units_ (tail + 1) (xs ++ [0]) :=
      (Stored.append_iff.mp (show Stored units_ tail ([x] ++ (xs ++ [0])) from hs)).2
    rw [List.cons_append, compareSuffix, h0]
    by_cases hxy : x = y
    · have ih := @compareSuffix_ok xs ys (tail + 1)
        (fun b hb => hy b (List.mem_cons_of_mem y hb)) hrest
        fun b hb => hx b (List.mem_cons_of_mem x hb)
      simp only [Option.bind_eq_bind, Option.bind_some, hxy, ne_eq, not_true_eq_false, if_false,
        ih, List.cons.injEq, true_and, List.length_cons]
      rw [if_neg (hxy ▸ hne)]
      split
      · rw [Nat.add_assoc, Nat.add_comm 1]
      · rfl
    · simp [hxy]

theorem mapM_byteAt : ∀ {xs : Bytes} {start : Nat}, Stored units_ start xs →
    (List.range' start xs.length).mapM (byteAt units_) = some xs
  | [], _, _ => rfl
  | x :: xs, start, h => by
    have h0 := h 0 x rfl
    rw [Nat.add_zero] at h0
    have hrest := mapM_byteAt (Stored.append_iff.mp (show Stored units_ start ([x] ++ xs) from h)).2
    rw [List.length_cons, List.range'_succ, List.mapM_cons, h0]
    simp only [Option.bind_eq_bind, Option.bind_some]
    rw [show start + 1 = start + [x].length from rfl, hrest]
    rfl

theorem getValue_ok {value : BitVec 32} {start : Nat}
    (h : Stored units_ start (Pod.toBytes value)) : getValue units_ start = some value := by
  have hrun := mapM_byteAt h
  rw [Pod.length_toBytes] at hrun
  rw [getValue, show (4 : Nat) = Pod.size (BitVec 32) from rfl, hrun]
  exact congrArg some (Pod.ofBytes_toBytes value)

/-! ## Exact matches -/

/-- What the search for a leaf says about the rest of a query. -/
inductive Met (keys_ : List DoubleArrayKey) (units_ : List (BitVec 32)) (tail_ : Nat) (full : Bytes) :
    Option (BitVec 32 × Bytes) → Prop
  | none : (∀ k ∈ keys_, k.full ≠ full) → Met keys_ units_ tail_ full none
  | leaf {bound : Nat} {u : BitVec 32} {rest : Bytes} {k k₁ : DoubleArrayKey} :
    Linked units_ tail_ bound u k → k.Valid → k₁ ∈ keys_ → k.value = k₁.value →
      (∀ k' ∈ keys_, k'.full = full → k' = k₁ ∧ rest = k.key_) →
      (rest = k.key_ → k₁.full = full) → (∃ t, NulFree t ∧ rest = t ++ [0]) →
      Met keys_ units_ tail_ full (some (u, rest))

namespace Dictionary

/-- The unit that a character of a query leads to. -/
theorem next_unit (h : Dictionary keys_ owner units₀ leaves room units_)
    (hp : Inner keys_ owner units₀ leaves p v) (c : UInt8) :
    ∃ u, units_[p ^^^ offset (unitAt units₀ p) ^^^ c.toNat]? = some u ∧
      (isLeaf u = true ∧ (∃ k ∈ leaves, k.index = p ^^^ offset (unitAt units₀ p) ^^^ c.toNat ∧
        ∃ bound, Linked units_ (4 * units₀.length) bound u k) ∨
      isLeaf u = false ∧ label u ≠ c ∧ ¬ Has keys_ (some v) c ∨
      isLeaf u = false ∧ label u = c ∧
        Inner keys_ owner units₀ leaves (p ^^^ offset (unitAt units₀ p) ^^^ c.toNat) (v ++ [c])) := by
  obtain ⟨u, hu, hleaf, hsame⟩ := h.get_of_lt (h.get_next hp c)
  refine ⟨u, hu, ?_⟩
  by_cases hl : ∃ k ∈ leaves, k.index = p ^^^ offset (unitAt units₀ p) ^^^ c.toNat
  · obtain ⟨k, hk, hi⟩ := hl
    obtain ⟨bound, u', hu', hlinked⟩ := h.finished.linked k hk
    rw [hi, hu] at hu'
    cases hu'
    exact .inl ⟨hlinked.leaf, k, hk, hi, bound, hlinked⟩
  · have hfalse : isLeaf u = false := Bool.eq_false_iff.mpr fun htrue => hl (hleaf.mp htrue)
    obtain ⟨hlabel, hnext⟩ := h.next_inner hp hl
    rw [← hsame hfalse] at hlabel
    by_cases hc : label u = c
    · exact .inr (.inr ⟨hfalse, hc, hnext (hlabel.mp hc)⟩)
    · exact .inr (.inl ⟨hfalse, hc, fun hhas => hc (hlabel.mpr hhas)⟩)

theorem searchLeaf_step (h : Dictionary keys_ owner units₀ leaves room units_)
    (hp : Inner keys_ owner units₀ leaves p v) (c : UInt8) (rest : Bytes) :
    (∃ k ∈ leaves, k.index = p ^^^ offset (unitAt units₀ p) ^^^ c.toNat ∧
      ∃ bound u, Linked units_ (4 * units₀.length) bound u k ∧
        searchLeaf units_ (c :: rest) p = some (some (u, c :: rest))) ∨
    ¬ Has keys_ (some v) c ∧ searchLeaf units_ (c :: rest) p = some none ∨
    Inner keys_ owner units₀ leaves (p ^^^ offset (unitAt units₀ p) ^^^ c.toNat) (v ++ [c]) ∧
      searchLeaf units_ (c :: rest) p =
        searchLeaf units_ rest (p ^^^ offset (unitAt units₀ p) ^^^ c.toNat) := by
  obtain ⟨u, hu, hcases⟩ := h.next_unit hp c
  rw [searchLeaf, h.get_inner hp]
  simp only [Option.bind_eq_bind, Option.bind_some, ← Nat.xor_assoc, hu]
  rcases hcases with ⟨hleaf, k, hk, hi, bound, hlinked⟩ | ⟨hleaf, hc, hno⟩ | ⟨hleaf, hc, hinner⟩
  · refine .inl ⟨k, hk, hi, bound, u, hlinked, ?_⟩
    rw [if_pos hleaf]
  · refine .inr (.inl ⟨hno, ?_⟩)
    rw [hleaf, if_neg Bool.false_ne_true, if_pos hc]
  · refine .inr (.inr ⟨hinner, ?_⟩)
    rw [hleaf, if_neg Bool.false_ne_true, if_neg (not_not.mpr hc)]

theorem has_of_full {k : DoubleArrayKey} {rest : Bytes} (hk : k ∈ keys_)
    (hfull : k.full = v ++ c :: rest) : Has keys_ (some v) c :=
  ⟨k, hk, rest, by rw [hfull, List.append_assoc, List.singleton_append]⟩

theorem searchLeaf_met (h : Dictionary keys_ owner units₀ leaves room units_) :
    ∀ {t v : Bytes} {p : Nat}, Inner keys_ owner units₀ leaves p v → NulFree t →
    ∃ r, searchLeaf units_ (t ++ [0]) p = some r ∧
      Met keys_ units_ (4 * units₀.length) (v ++ (t ++ [0])) r := by
  have hstep : ∀ {v : Bytes} {p : Nat} {c : UInt8} {rest : Bytes},
      Inner keys_ owner units₀ leaves p v → (∃ t, NulFree t ∧ c :: rest = t ++ [0]) →
      (Inner keys_ owner units₀ leaves (p ^^^ offset (unitAt units₀ p) ^^^ c.toNat) (v ++ [c]) →
        ∃ r, searchLeaf units_ rest (p ^^^ offset (unitAt units₀ p) ^^^ c.toNat) = some r ∧
          Met keys_ units_ (4 * units₀.length) (v ++ c :: rest) r) →
      ∃ r, searchLeaf units_ (c :: rest) p = some r ∧
        Met keys_ units_ (4 * units₀.length) (v ++ c :: rest) r := by
    intro v p c rest hp hend hnext
    rcases h.searchLeaf_step hp c rest with ⟨k, hk, hi, bound, u, hlinked, hrun⟩ | ⟨hno, hrun⟩ |
      ⟨hinner, hrun⟩
    · obtain ⟨k₁, hbehind⟩ := h.behind hp hk hi
      refine ⟨_, hrun, .leaf hlinked hbehind.valid hbehind.mem hbehind.value (fun k' hk' hfull => ?_)
        (fun hrest => ?_) hend⟩
      · obtain ⟨rfl, hhead⟩ := hbehind.only k' hk'
          ⟨rest, by rw [hfull, List.append_assoc, List.singleton_append]⟩
        exact ⟨rfl, List.append_cancel_left (hfull.symm.trans (hbehind.full hhead))⟩
      · rw [hbehind.full (by rw [← hrest]; rfl), ← hrest]
    · exact ⟨none, hrun, .none fun k hk hfull => hno (has_of_full hk hfull)⟩
    · rw [hrun]
      exact hnext hinner
  intro t
  induction t with
  | nil =>
    intro v p hp ht
    exact hstep hp ⟨[], ht, rfl⟩ fun hinner => (h.not_full hinner).elim
  | cons c t ih =>
    intro v p hp ht
    refine hstep hp ⟨c :: t, ht, rfl⟩ fun hinner => ?_
    obtain ⟨r, hrun, hmet⟩ := ih hinner fun b hb => ht b (List.mem_cons_of_mem c hb)
    exact ⟨r, hrun, by rw [List.append_assoc] at hmet; exact hmet⟩

theorem size_unit (h : Dictionary keys_ owner units₀ leaves room units_) :
    units_[1]? = some (unitAt units₀ 1) := by
  have hone : 1 < units₀.length := by
    have hcell := (h.built.table.child h.built.root (.inr rfl : Has keys_ none 1)).1
    exact hcell
  rw [h.finished.inner 1 hone, unitAt, List.getElem?_eq_getElem hone]
  · rfl
  · intro k hk hi
    obtain ⟨v, k₀, hkey⟩ := h.built.suffixes k hk
    exact hkey.node.ne_one h.built.table h.built.root hi

/-- `exactMatchSearch` finds the value of a key, and nothing else. -/
theorem exactMatchSearch_ok (h : Dictionary keys_ owner units₀ leaves room units_) (q : Bytes) :
    exactMatchSearch units_ q = some
      (((keys_.find? fun k => k.text = cstr q).map fun k => k.value.toInt).getD (-1)) := by
  obtain ⟨r, hrun, hmet⟩ := h.searchLeaf_met h.root (nulFree_cstr q)
  have hfull : ∀ k : DoubleArrayKey, k.text = cstr q ↔ k.full = cstr q ++ [0] := fun k =>
    ⟨fun he => by rw [DoubleArrayKey.full, he], List.append_cancel_right⟩
  rw [exactMatchSearch, h.size_unit]
  simp only [Option.bind_eq_bind, Option.bind_some, h.built.tail, hrun]
  rw [List.nil_append] at hmet
  cases hmet with
  | none hno =>
    have hnone : (keys_.find? fun k => k.text = cstr q) = none :=
      List.find?_eq_none.mpr fun k hk hq => hno k hk ((hfull k).mp (of_decide_eq_true hq))
    rw [hnone]
    rfl
  | @leaf bound u rest k k₁ hlinked hvalid hk₁ hvalue honly hconv hend =>
    obtain ⟨t, ht, rfl⟩ := hend
    have hkey := hvalid.key_
    have hfree : NulFree (k.text.drop k.moved) := hvalid.nulFree.drop _
    have hsuffix := hlinked.suffix
    rw [hkey] at hsuffix
    simp only [compareSuffix_ok ht hsuffix hfree]
    by_cases heq : k.text.drop k.moved = t
    · have hmatch := hconv (by rw [hkey, heq])
      have hsome : (keys_.find? fun k => k.text = cstr q) = some k₁ := by
        cases hfound : keys_.find? fun k => k.text = cstr q with
        | none =>
          have := List.find?_eq_none.mp hfound k₁ hk₁
          simp only [decide_eq_true_eq] at this
          exact absurd ((hfull k₁).mpr hmatch) this
        | some k₂ =>
          have hk₂ := List.find?_some hfound
          simp only [decide_eq_true_eq] at hk₂
          rw [(honly k₂ (List.mem_of_find?_eq_some hfound) ((hfull k₂).mp hk₂)).1]
      have hat : 4 * units₀.length + link u + (k.text.drop k.moved).length + (4 * valueId u + 1) =
          4 * units₀.length + link u + k.key_.length + 4 * valueId u := by
        rw [hkey, List.length_append, List.length_singleton]
        omega
      rw [if_pos heq, hsome]
      simp only [Option.bind_some, hat, getValue_ok hlinked.value, hvalue]
      rfl
    · have hnone : (keys_.find? fun k => k.text = cstr q) = none := by
        refine List.find?_eq_none.mpr fun k' hk' hq => heq ?_
        have hrest := (honly k' hk' ((hfull k').mp (of_decide_eq_true hq))).2
        rw [hkey] at hrest
        exact (List.append_cancel_right hrest).symm
      rw [if_neg heq, hnone]
      rfl

end Dictionary

end

end CommonTools.DartsClone
