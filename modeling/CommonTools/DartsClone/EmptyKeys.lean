import CommonTools.DartsClone.Trie
import CommonTools.DartsClone.Search

/-! # A double array without keys

Without keys the root keeps the offset 1, and the units that are left get the labels of one
base. That base can be 1, so that the first character of a query may match; the second one
never does. -/
namespace CommonTools.DartsClone
open CommonTools.Lib DoubleArrayBuilder

structure Blank (units_ : List (BitVec 32)) (u : Nat) : Prop where
  length : units_.length = 256
  marks : ∀ p, isLeaf (unitAt units_ p) = false ∧ isEnd (unitAt units_ p) = false
  root : offset (unitAt units_ 0) = 1
  zero : label (unitAt units_ 0) = 0
  one : label (unitAt units_ 1) = 1
  label : ∀ p, p ≠ 0 → p ≠ 1 → p < 256 → (label (unitAt units_ p)).toNat = p ^^^ u
  offset : ∀ p, p ≠ 0 → p ≠ 1 → p < 256 → offset (unitAt units_ p) = 0

theorem buildTrie_nil : ∃ b u, buildTrie [] = .ok (b, []) ∧ Blank b.units_ u := by
  rw [buildTrie_eq]
  generalize hstart : start = x
  obtain ⟨b, free, hrun, hlaid, hlen, hmarks, hroot, hfree⟩ := start_ok []
  have hblocks : b.num_of_blocks = 1 := by
    have := hlaid.empty.size
    omega
  have hunused : ∀ i ∈ free, i / 256 = 0 → ∃ u, u / 256 = 0 ∧ (b.extra u).is_used = false := by
    refine fun i hi _ => ⟨1, rfl, Bool.eq_false_iff.mpr fun htrue => ?_⟩
    have hlive : (b.extras_ 1).isSome := (hlaid.empty.live 1).mpr (by omega)
    have hsome := (hlaid.used 1 hlive).mp htrue
    cases hsome
  obtain ⟨b₁, u, hfix, hempty, hkept, hu, hunits⟩ := fixBlock_ok hlaid.empty (k := 0) (by omega)
    (by omega) (fun _ _ => Nat.zero_le _) hunused
  have h0 : b.Fixed free 0 ∧ b.labelAt 0 = 0 := hlaid.table.child (Function.update_self ..) (.inl rfl : Has [] none 0)
  have h1 : b.Fixed free 1 ∧ b.labelAt 1 = 1 := hlaid.table.child (Function.update_self ..) (.inr rfl : Has [] none 1)
  have hunit : ∀ p, p < 256 → b₁.unit p = if p ∈ free then
      setLabel (UInt8.ofNat (p ^^^ u)) (b.unit p) else b.unit p := fun p hp => by
    have hdiv : p / 256 = 0 := Nat.div_eq_of_lt hp
    rw [unit, hunits p, unit_eq (by omega)]
    simp only [hdiv, and_true]
    rfl
  have hlen₁ : b₁.units_.length = 256 := hkept.size.trans hlen
  obtain ⟨u₁, hset, -, hlabel, hleaf₁, hends₁⟩ := setOffset_ok (k := 256) (by decide) (.inl (by decide)) (b₁.unit 1)
  obtain ⟨b', hrun', hw⟩ := @setUnit_written b₁ 1 _ (setOffset 256) (by omega) hset
  have hall : b.fixAllBlocks = .ok b₁ := by
    rw [fixAllBlocks, hblocks]
    show (List.range' 0 1).foldlM fixBlock b = .ok b₁
    rw [List.range'_one, List.foldlM_cons, hfix]
    rfl
  have hrunAll : b.finish = .ok b' := by
    rw [finish, hall, ok_bind, num_of_units, hlen₁, hrun']
  have hnode0 : b₁.unit 0 = b.unit 0 := by rw [hunit 0 (by decide), if_neg h0.1.2]
  have hnode1 : b₁.unit 1 = b.unit 1 := by rw [hunit 1 (by decide), if_neg h1.1.2]
  have hu₂ := hu 2 (hfree 2 (by decide) (by decide) (by decide)).2 rfl
  have hunit' : ∀ p, p ≠ 1 → b'.unit p = b₁.unit p := fun p hp => by rw [hw.unit, if_neg hp]
  refine ⟨b', u, ?_, hw.size.trans hlen₁, fun p => ?_, ?_, ?_, ?_, fun p hp0 hp1 hp => ?_,
    fun p hp0 hp1 hp => ?_⟩
  · rw [← hstart, hrun]
    show b.finish >>= (fun b => Except.ok (b, [])) = _
    rw [hrunAll]
    rfl
  · show isLeaf (b'.unit p) = false ∧ isEnd (b'.unit p) = false
    rw [hw.unit]
    split
    · rw [hleaf₁, hends₁, hnode1]
      exact hmarks 1
    · by_cases hp : p < 256
      · rw [hunit p hp]
        split
        · rw [isLeaf_setLabel, isEnd_setLabel]
          exact hmarks p
        · exact hmarks p
      · rw [unit, List.getElem?_eq_none (by omega)]
        exact ⟨rfl, rfl⟩
  · show offset (b'.unit 0) = 1
    rw [hunit' 0 Nat.zero_ne_one, hnode0, hroot]
  · show label (b'.unit 0) = 0
    rw [hunit' 0 Nat.zero_ne_one, hnode0]
    exact h0.2
  · show label (b'.unit 1) = 1
    rw [hw.unit, if_pos rfl, hlabel, hnode1]
    exact h1.2
  · show (label (b'.unit p)).toNat = p ^^^ u
    have hxor : p ^^^ u < 2 ^ 8 := Nat.xor_lt_two_pow hp (Nat.lt_of_div_eq_zero (by decide) hu₂.1)
    rw [hunit' p hp1, hunit p hp, if_pos (hfree p hp0 hp1 hp).2, label_setLabel,
      UInt8.toNat_ofNat_of_lt' hxor]
  · show offset (b'.unit p) = 0
    rw [hunit' p hp1, hunit p hp, if_pos (hfree p hp0 hp1 hp).2, offset_setLabel,
      (hfree p hp0 hp1 hp).1]

theorem xor_eq_right {a b x : Nat} (h : a ^^^ b ^^^ x = b) : a = x := by
  have h' : a ^^^ x ^^^ b = 0 ^^^ b := by
    rw [Nat.zero_xor, Nat.xor_assoc, Nat.xor_comm x, ← Nat.xor_assoc, h]
  exact Nat.xor_eq_zero_iff.mp (Nat.xor_left_injective h')

/-- A search in the trie without keys ends at the second character at the latest. -/
theorem searchLeaf_blank {units_ : List (BitVec 32)} {u : Nat} (h : Blank units_ u) (t : Bytes) :
    searchLeaf units_ (t ++ [0]) 0 = some none := by
  have hget : ∀ p, p < 256 → units_[p]? = some (unitAt units_ p) := fun p hp => by
    have hp' : p < units_.length := by
      rw [h.length]
      exact hp
    rw [unitAt, List.getElem?_eq_getElem hp']
    rfl
  have hbyte : ∀ p, p < 256 → ∀ c : UInt8, p ^^^ c.toNat < 256 := fun p hp c =>
    Nat.xor_lt_two_pow (n := 8) hp c.toNat_lt
  have hround : ∀ c rest p, p < 256 → offset (unitAt units_ p) < 256 →
      searchLeaf units_ (c :: rest) p =
        if label (unitAt units_ (p ^^^ (offset (unitAt units_ p) ^^^ c.toNat))) ≠ c then some none
        else searchLeaf units_ rest (p ^^^ (offset (unitAt units_ p) ^^^ c.toNat)) := by
    intro c rest p hp hoff
    have hnext : p ^^^ (offset (unitAt units_ p) ^^^ c.toNat) < 256 :=
      Nat.xor_lt_two_pow (n := 8) hp (Nat.xor_lt_two_pow hoff c.toNat_lt)
    rw [searchLeaf, hget p hp]
    simp only [Option.bind_eq_bind, Option.bind_some, hget _ hnext, (h.marks _).1]
    rfl
  obtain ⟨c, rest, hq⟩ : ∃ c rest, t ++ [0] = c :: rest := List.exists_cons_of_ne_nil (by simp)
  rw [hq, hround c rest 0 (by decide) (by rw [h.root]; decide), h.root, Nat.zero_xor]
  by_cases hc : label (unitAt units_ (1 ^^^ c.toNat)) = c
  · have hp0 : 1 ^^^ c.toNat ≠ 0 := fun he => by
      rw [he, h.zero] at hc
      rw [← hc] at he
      exact absurd he (by decide)
    have hp1 : 1 ^^^ c.toNat ≠ 1 := fun he => by
      rw [he, h.one] at hc
      rw [← hc] at he
      exact absurd he (by decide)
    have hp := hbyte 1 (by decide) c
    have hu : 1 = u := by
      have hlabel := h.label _ hp0 hp1 hp
      rw [hc] at hlabel
      exact xor_eq_right hlabel.symm
    obtain ⟨d, rest', rfl⟩ : ∃ d rest', rest = d :: rest' := by
      cases t with
      | nil =>
        cases hq
        exact absurd rfl hp1
      | cons x t =>
        have hrest := (List.cons.inj hq).2
        exact List.exists_cons_of_ne_nil (by rw [← hrest]; simp)
    rw [if_neg (not_not.mpr hc), hround d rest' _ hp (by rw [h.offset _ hp0 hp1 hp]; decide),
      h.offset _ hp0 hp1 hp, Nat.zero_xor, if_pos]
    intro hd
    have hq0 : 1 ^^^ c.toNat ^^^ d.toNat ≠ 0 := fun he => by
      rw [he, h.zero] at hd
      rw [← hd] at he
      exact hp0 ((Nat.xor_zero _).symm.trans he)
    have hq1 : 1 ^^^ c.toNat ^^^ d.toNat ≠ 1 := fun he => by
      rw [he, h.one] at hd
      rw [← hd] at he
      exact hp0 (xor_eq_right (b := 1) (x := 0) (by rw [Nat.xor_zero]; exact he))
    have hlabel := h.label _ hq0 hq1 (hbyte _ hp d)
    rw [hd, ← hu] at hlabel
    exact hp1 (xor_eq_right hlabel.symm)
  · rw [if_pos hc]

theorem exactMatchSearch_blank {units_ : List (BitVec 32)} {u : Nat} (h : Blank units_ u)
    (q : Bytes) : exactMatchSearch units_ q = some (-1) := by
  have hone : 1 < units_.length := by
    rw [h.length]
    decide
  rw [exactMatchSearch, List.getElem?_eq_getElem hone]
  simp only [Option.bind_eq_bind, Option.bind_some, searchLeaf_blank h]

end CommonTools.DartsClone
