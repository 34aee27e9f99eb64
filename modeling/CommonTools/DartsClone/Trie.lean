import CommonTools.DartsClone.BuildTrie

/-! # The finished trie

`build_trie` reserves the units 0 and 1, arranges the nodes from the root on and fixes what is
left. Every label in the result belongs to a node or to no base in use. -/
namespace CommonTools.DartsClone
open CommonTools.Lib DoubleArrayBuilder

def unitAt (units_ : List (BitVec 32)) (p : Nat) : BitVec 32 := units_[p]?.getD 0

/-- The units of a trie for the keys, with the keys of its leaves. -/
structure Built (keys_ : List DoubleArrayKey) (owner : Nat → Option (Option Bytes))
    (units_ : List (BitVec 32)) (leaves : List DoubleArrayKey) : Prop where
  size : units_.length % 256 = 0
  table : XorTable (Has keys_) owner (· < units_.length) fun p => label (unitAt units_ p)
  root : owner 0 = some none
  nodes : ∀ p v, At keys_ owner p v →
    (∃ k ∈ leaves, k.index = p) ∨ owner (p ^^^ offset (unitAt units_ p)) = some (some v)
  suffixes : ∀ k ∈ leaves, ∃ v k₀, LeafKey keys_ owner v k₀ k
  leaf : ∀ p, isLeaf (unitAt units_ p) = true ↔ ∃ k ∈ leaves, k.index = p
  ends : ∀ p, isEnd (unitAt units_ p) = true ↔
    ∃ v, At keys_ owner p v ∧ Has keys_ (some v) 0 ∧ ¬ ∃ k ∈ leaves, k.index = p
  nodup : (leaves.map (·.index)).Nodup
  total : (leaves.map fun k => k.key_.length + 4).sum ≤ bytesOf keys_
  tail : offset (unitAt units_ 1) = units_.length

namespace DoubleArrayBuilder

/-- The first lines of `build_trie`. -/
def start : Except Failure DoubleArrayBuilder := do
  let b : DoubleArrayBuilder := {}
  let b ← b.reserveIndex 0
  let b ← b.reserveIndex 1
  let b ← b.setExtra 0 fun e => { e with is_used := true }
  let b ← b.setUnit 0 (setOffset 1)
  let b ← b.setUnit 0 fun u => .ok (setLabel 0 u)
  b.setUnit 1 fun u => .ok (setLabel 1 u)

/-- The last lines of `build_trie`. -/
def finish (b : DoubleArrayBuilder) : Except Failure DoubleArrayBuilder := do
  let b ← b.fixAllBlocks
  b.setUnit 1 (setOffset b.num_of_units)

theorem buildTrie_eq (keys_ : List DoubleArrayKey) : buildTrie keys_ =
    start >>= fun b =>
    (if keys_ ≠ [] then buildTrieSubroutine (nodeBound keys_) b [⟨keys_, 0⟩] []
      else .ok (b, [])) >>= fun x =>
    x.1.finish >>= fun b => .ok (b, x.2) := by
  have hbind : ∀ {α β γ : Type} (x : Except Failure α) (f : α → Except Failure β)
      (g : β → Except Failure γ), (x >>= f) >>= g = x >>= fun a => f a >>= g := by
    intro α β γ x f g
    cases x <;> rfl
  rw [buildTrie, start]
  simp only [hbind, finish]
  split <;> rfl

theorem laid_nil (has : Option Bytes → UInt8 → Prop) :
    Laid has (fun _ => none) ({} : DoubleArrayBuilder) [] where
  empty := ⟨rfl, by simp, rfl, List.Pairwise.nil, by simp, trivial⟩
  table :=
    { child := fun h => by cases h
      cell := fun h => absurd h.1 (Nat.not_lt_zero _)
      inhabited := fun h => by cases h }
  used o ho := by cases ho

/-- The first block comes with the first unit; nothing stands in it. -/
theorem firstBlock_ok (has : Option Bytes → UInt8 → Prop) :
    ∃ b free, ({} : DoubleArrayBuilder).expandTrie = .ok b ∧ Laid has (fun _ => none) b free ∧
      b.units_.length = 256 ∧ (∀ p, b.unit p = 0) ∧ ∀ p < 256, p ∈ free := by
  obtain ⟨b, free, hrun, hlaid, -, hlen, hnew⟩ := (laid_nil has).expandTrie
  refine ⟨b, free, hrun, hlaid, hlen, fun p => ?_, fun p hp => hnew p (Nat.zero_le _) hp⟩
  obtain ⟨b', hrun', -, hunits', -⟩ := linkBlock_withBlock (laid_nil has).empty fun _ hi =>
    absurd hi List.not_mem_nil
  have hsame := (expandTrie_few (Nat.le_of_ble_eq_true rfl)).trans hrun'
  have heq : b = b' := Except.ok.inj (hrun.symm.trans hsame)
  rw [heq, unit, hunits', List.nil_append, List.getElem?_replicate]
  split <;> rfl

section
variable {b : DoubleArrayBuilder} {free : List Nat}

/-- The units 0 and 1 are taken, and 0 becomes a base in use. -/
theorem reserved_ok {σ : Type} {has : σ → UInt8 → Prop} (h : Laid has (fun _ => none) b free)
    (h0 : 0 ∈ free) (h1 : 1 ∈ free) : ∃ b₁ b₂ b', b.takeIndex 0 = .ok b₁ ∧
      b₁.units_ = b.units_ ∧ b₁.takeIndex 1 = .ok b₂ ∧
      b₂.setExtra 0 (fun e => { e with is_used := true }) = .ok b' ∧
      Empty b' ((free.erase 0).erase 1) ∧ b'.units_ = b.units_ ∧
      ∀ o, (b'.extras_ o).isSome → (b'.extra o).is_used = decide (o = 0) := by
  obtain ⟨b₁, hrun₁, hempty₁, hunits₁, hkept₁⟩ := h.empty.take h0
  obtain ⟨b₂, hrun₂, hempty₂, hunits₂, hkept₂⟩ := hempty₁.take
    ((h.empty.nodup.mem_erase_iff).mpr ⟨Nat.one_ne_zero, h1⟩)
  have hkept := hkept₁.trans hkept₂
  have hlive : (b₂.extras_ 0).isSome := by
    rw [(hkept.extras 0).1]
    exact h.empty.isSome h0
  obtain ⟨b', hrun, hempty, hunits, hsome, hused⟩ := setUsed_ok hempty₂ hlive
  refine ⟨b₁, b₂, b', hrun₁, hunits₁, hrun₂, hrun, hempty, hunits.trans (hunits₂.trans hunits₁),
    fun o ho => ?_⟩
  rw [hsome] at ho
  have hfree : (b.extra o).is_used = false := Bool.eq_false_iff.mpr fun htrue =>
    absurd ((h.used o ((hkept.extras o).1.symm.trans ho)).mp htrue) Bool.false_ne_true
  rw [hused o ho, (hkept.extras o).2, hfree, Bool.false_or]

/-- The root gets its offset and its label, and the unit 1 a label. -/
theorem rootUnits_ok (h : Empty b free) (hlen : b.units_.length = 256) (hzero : ∀ p, b.unit p = 0) :
    ∃ b₁ b₂ b' u, b.setUnit 0 (setOffset 1) = .ok b₁ ∧
      b₁.setUnit 0 (fun u => .ok (setLabel 0 u)) = .ok b₂ ∧
      b₂.setUnit 1 (fun u => .ok (setLabel 1 u)) = .ok b' ∧ Empty b' free ∧ Kept b b' ∧
      (∀ q, b'.unit q = if q = 1 then setLabel 1 0 else if q = 0 then setLabel 0 u else 0) ∧
      offset u = 1 ∧ isLeaf u = false ∧ isEnd u = false := by
  obtain ⟨u, hset, hoff, -, hleaf, hends⟩ :=
    setOffset_ok (k := 1) (by decide) (.inl (by decide)) (b.unit 0)
  rw [hzero] at hleaf hends
  obtain ⟨b₁, hrun₁, hw₁⟩ := @setUnit_written b 0 _ (setOffset 1) (by omega) hset
  obtain ⟨b₂, hrun₂, hw₂⟩ := @setUnit_written b₁ 0 _ (fun u => .ok (setLabel 0 u))
    (by rw [hw₁.size]; omega) rfl
  obtain ⟨b', hrun, hw⟩ := @setUnit_written b₂ 1 _ (fun u => .ok (setLabel 1 u))
    (by rw [hw₂.size, hw₁.size]; omega) rfl
  have hroot := hw₁.trans hw₂
  refine ⟨b₁, b₂, b', u, hrun₁, hrun₂, hrun, hw.empty (hroot.empty h), hroot.kept.trans hw.kept,
    fun q => ?_, hoff, hleaf, hends⟩
  rw [hw.unit, hroot.unit, hroot.unit, if_neg Nat.one_ne_zero, hw₁.unit, if_pos rfl, hzero, hzero]

end

theorem exists_has_none (keys_ : List DoubleArrayKey) {q : Nat} :
    (∃ c, Has keys_ none c ∧ q = 0 ^^^ c.toNat) ↔ q = 0 ∨ q = 1 := by
  constructor
  · rintro ⟨c, rfl | rfl, rfl⟩
    · exact .inl rfl
    · exact .inr rfl
  · rintro (rfl | rfl)
    · exact ⟨0, .inl rfl, rfl⟩
    · exact ⟨1, .inr rfl, rfl⟩

/-- The units 0 and 1 belong to the base 0. -/
theorem start_ok (keys_ : List DoubleArrayKey) :
    ∃ b free, start = .ok b ∧
      Laid (Has keys_) (Function.update (fun _ => none) 0 (some none)) b free ∧
      b.units_.length = 256 ∧ (∀ p, isLeaf (b.unit p) = false ∧ isEnd (b.unit p) = false) ∧
      offset (b.unit 0) = 1 ∧
      ∀ p, p ≠ 0 → p ≠ 1 → p < 256 → offset (b.unit p) = 0 ∧ p ∈ free := by
  obtain ⟨b₁, free, hrun₁, hlaid₁, hlen₁, hzero₁, hfree⟩ := firstBlock_ok (Has keys_)
  have h0 := hfree 0 (by decide)
  have h1 := hfree 1 (by decide)
  obtain ⟨b₂, b₃, b₄, hrun₂, hunits₂, hrun₃, hrun₄, hempty₄, hunits₄, hused₄⟩ :=
    reserved_ok hlaid₁ h0 h1
  have hlen₄ : b₄.units_.length = 256 := hunits₄ ▸ hlen₁
  have hzero₄ : ∀ p, b₄.unit p = 0 := fun p => by
    rw [unit, hunits₄]
    exact hzero₁ p
  obtain ⟨b₅, b₆, b₇, u, hrun₅, hrun₆, hrun₇, hempty, hkept, hunit, hoff, hleaf, hends⟩ :=
    rootUnits_ok hempty₄ hlen₄ hzero₄
  have hlen : b₇.units_.length = 256 := hkept.size.trans hlen₄
  have hmem : ∀ q, q ∈ (free.erase 0).erase 1 ↔ q ≠ 1 ∧ q ≠ 0 ∧ q ∈ free := fun q => by
    rw [(hlaid₁.empty.nodup.erase 0).mem_erase_iff, hlaid₁.empty.nodup.mem_erase_iff]
  refine ⟨b₇, (free.erase 0).erase 1, ?_, ⟨hempty, ?_, fun o ho => ?_⟩, hlen, fun p => ?_, ?_,
    fun p hp0 hp1 hp => ⟨?_, (hmem p).mpr ⟨hp1, hp0, hfree p hp⟩⟩⟩
  · rw [start, @reserveIndex_new {} 0 b₁ (Nat.le_refl _) hrun₁, hrun₂, ok_bind, reserveIndex_old,
      hrun₃, ok_bind, hrun₄, ok_bind, hrun₅, ok_bind, hrun₆, ok_bind, hrun₇]
    rw [num_of_units, hunits₂, hlen₁]
    decide
  · refine hlaid₁.table.place rfl ⟨0, .inl rfl⟩ ?_ (fun q => ?_) (fun q hq => ?_) ?_
    · rintro c (rfl | rfl) hfix
      · exact hfix.2 h0
      · exact hfix.2 h1
    · rw [Fixed, Fixed, hlen, hlen₁, hmem, exists_has_none]
      by_cases hq : q ∈ free
      · simp only [hq, and_true, not_true_eq_false, and_false, false_or]
        omega
      · simp only [hq, and_false, not_false_eq_true, and_true]
        omega
    · have hq0 : q ≠ 0 := fun he => hq.2 (he ▸ h0)
      have hq1 : q ≠ 1 := fun he => hq.2 (he ▸ h1)
      rw [labelAt, hunit, if_neg hq1, if_neg hq0, labelAt, hzero₁]
    · rintro c (rfl | rfl)
      · exact (congrArg label (hunit 0)).trans label_setLabel
      · exact (congrArg label (hunit 1)).trans label_setLabel
  · rw [(hkept.extras o).2, hused₄ o ((hkept.extras o).1.symm.trans ho)]
    by_cases ho : o = 0 <;> simp [ho]
  · rw [hunit]
    split
    · exact ⟨rfl, rfl⟩
    · split
      · rw [isLeaf_setLabel, isEnd_setLabel]
        exact ⟨hleaf, hends⟩
      · exact ⟨rfl, rfl⟩
  · exact (congrArg offset (hunit 0)).trans (offset_setLabel.trans hoff)
  · rw [hunit, if_neg hp1, if_neg hp0]
    rfl

section
variable {keys_ leaves : List DoubleArrayKey} {owner : Nat → Option (Option Bytes)}
  {b : DoubleArrayBuilder} {free : List Nat}

theorem finish_outcome (h : Building keys_ owner free b [] leaves) :
    Outcome (b.units_.length < 2 ^ 29)
      (fun b' => Built keys_ owner b'.units_ leaves ∧ b'.units_.length = b.units_.length)
      b.finish := by
  obtain ⟨b₁, hrun₁, hlaid₁, hgrown₁, hlen₁⟩ := h.laid.fixAllBlocks
  have hone : 1 < b₁.units_.length := (hlaid₁.table.child h.root (.inr rfl : Has keys_ none 1)).1.1
  have hsize := hlaid₁.empty.size
  rw [finish, hrun₁, ok_bind]
  refine (setUnit_outcome hone (setOffset_outcome (.inr ?_) _)).mono (fun hs => ?_) ?_
  · rw [num_of_units]
    omega
  · rw [num_of_units, hlen₁]
    exact hs
  rintro b' ⟨u, ⟨hoff, hlabel, hleaf, hends⟩, hw⟩
  have hlaid := hlaid₁.written hw hlabel
  have hunit : ∀ p, p ≠ 1 → b.Fixed free p → b'.unit p = b.unit p := fun p hp hfix => by
    rw [hw.unit, if_neg hp, hgrown₁.unit p hfix]
  refine ⟨⟨?_, ?_, h.root, fun p v hp => ?_, h.suffixes, fun p => ?_, fun p => ?_, h.nodup,
    (Nat.le_add_right _ _).trans h.total, ?_⟩, hw.size.trans hlen₁⟩
  · rw [hw.size]
    omega
  · exact hlaid.table.congr (fun p => (and_iff_left List.not_mem_nil).symm) fun p _ => rfl
  · rcases h.nodes p v hp with ⟨r, hr, -⟩ | hleaf | hbase
    · cases hr
    · exact .inl hleaf
    · refine .inr ?_
      show owner (p ^^^ offset (b'.unit p)) = _
      rw [hunit p (hp.ne_one h.laid.table h.root) (h.fixed hp)]
      exact hbase
  · show isLeaf (b'.unit p) = true ↔ _
    rw [← h.leaf p, ← hgrown₁.leaf p, hw.unit]
    split
    · rename_i hp
      rw [hleaf, hp]
    · rfl
  · have hsame : isEnd (b'.unit p) = isEnd (b.unit p) := by
      rw [← hgrown₁.ends p, hw.unit]
      split
      · rename_i hp
        rw [hends, hp]
      · rfl
    show isEnd (b'.unit p) = true ↔ _
    rw [hsame, h.ends p]
    simp
  · show offset (b'.unit 1) = _
    rw [hw.unit, if_pos rfl, hoff, hw.size]
    rfl

/-- Building a trie: it can only fail for want of room. -/
theorem buildTrie_outcome (hkeys : Keys keys_) (hne : keys_ ≠ []) :
    Outcome (256 * (1 + nodeBound keys_) < 2 ^ 29)
      (fun r => ∃ owner, Built keys_ owner r.1.units_ r.2 ∧
        r.1.units_.length ≤ 256 * (1 + nodeBound keys_))
      (buildTrie keys_) := by
  rw [buildTrie_eq]
  simp only [if_pos hne]
  obtain ⟨b, free, hrun, hlaid, hlen, hleaf, -⟩ := start_ok keys_
  have hnode : ∀ p v, At keys_ (Function.update (fun _ => none) 0 (some none)) p v →
      p = 0 ∧ v = [] := by
    rintro p v (h | ⟨w, c, -, hw, -⟩)
    · exact h
    · rw [Function.update_apply] at hw
      split at hw <;> cases hw
  have hall : under keys_ [] = keys_ := by
    rw [under, List.filter_eq_self.mpr fun k _ => decide_eq_true List.nil_prefix]
    refine (List.map_congr_left fun k hk => ?_).trans (List.map_id keys_)
    rw [List.length_nil, ← hkeys.moved k hk]
    rfl
  have hfirst : Building keys_ (Function.update (fun _ => none) 0 (some none)) free b
      [⟨keys_, 0⟩] [] := by
    refine ⟨hlaid, Function.update_self .., fun r hr => ?_, List.nodup_singleton _,
      fun r hr => (hleaf _).1, fun p v hp => ?_, fun k hk => absurd hk List.not_mem_nil, fun p => ?_,
      fun p => ?_, List.nodup_nil, ?_⟩
    · rw [List.mem_singleton.mp hr]
      exact ⟨[], .inl ⟨rfl, rfl⟩, hall.symm⟩
    · exact .inl ⟨_, List.mem_singleton_self _, (hnode p v hp).1.symm⟩
    · rw [(hleaf p).1]
      simp
    · rw [(hleaf p).2]
      refine iff_of_false Bool.false_ne_true ?_
      rintro ⟨v, hp, -, hnot, -⟩
      exact hnot ⟨_, List.mem_singleton_self _, (hnode p v hp).1.symm⟩
    · show 0 + bytesOf ([keys_]).flatten ≤ _
      rw [List.flatten_singleton, Nat.zero_add]
  have hweight : weight [⟨keys_, 0⟩] ≤ nodeBound keys_ := Nat.le_refl _
  rw [hrun, ok_bind]
  refine ((hfirst.run hkeys hne hweight).mono (fun hs => ?_) fun _ => id).bind ?_
  · rw [hlen]
    omega
  rintro ⟨b₁, leaves⟩ ⟨owner, free₁, hbuilding, hle⟩
  have hle' : b₁.units_.length ≤ b.units_.length + 256 * nodeBound keys_ := hle
  refine ((finish_outcome hbuilding).mono (fun hs => ?_) fun _ => id).bind ?_
  · show b₁.units_.length < 2 ^ 29
    omega
  rintro b' ⟨hbuilt, hsize⟩
  refine .ok ⟨owner, hbuilt, ?_⟩
  show b'.units_.length ≤ _
  have hsize' : b'.units_.length = b₁.units_.length := hsize
  omega

end

end DoubleArrayBuilder

end CommonTools.DartsClone
