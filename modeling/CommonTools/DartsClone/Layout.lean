import CommonTools.Lib.XorTable
import CommonTools.DartsClone.ExpandTrie

/-! # Labels in a double array

The units of a double array are a table addressed by exclusive or. What the builder does with
empty units and blocks keeps the table: every label leads back to the base that has the unit,
and the bases that `is_used` marks are those with a state. -/
namespace CommonTools.DartsClone
open CommonTools.Lib

namespace DoubleArrayBuilder

def unit (b : DoubleArrayBuilder) (p : Nat) : BitVec 32 := b.units_[p]?.getD 0

def labelAt (b : DoubleArrayBuilder) (p : Nat) : UInt8 := label (b.unit p)

/-- A unit of the array that is not empty. -/
def Fixed (b : DoubleArrayBuilder) (free : List Nat) (p : Nat) : Prop :=
  p < b.units_.length ∧ p ∉ free

theorem unit_eq {b : DoubleArrayBuilder} {p : Nat} (h : p < b.units_.length) :
    b.units_[p]? = some (b.unit p) := by
  rw [unit, List.getElem?_eq_getElem h]
  rfl

/-- Only the unit `p` is changed, to `u`. -/
structure Written (b : DoubleArrayBuilder) (p : Nat) (u : BitVec 32) (b' : DoubleArrayBuilder) :
    Prop where
  size : b'.units_.length = b.units_.length
  rest : b' = { b with units_ := b'.units_ }
  unit : ∀ q, b'.unit q = if q = p then u else b.unit q

section
variable {b b' : DoubleArrayBuilder} {free : List Nat} {p : Nat} {u : BitVec 32}

theorem setUnit_written {set : BitVec 32 → Except Failure (BitVec 32)} (hp : p < b.units_.length)
    (hset : set (b.unit p) = .ok u) : ∃ b', b.setUnit p set = .ok b' ∧ Written b p u b' := by
  refine ⟨_, setUnit_ok (unit_eq hp) hset, List.length_set, rfl, fun q => ?_⟩
  rw [unit, List.getElem?_set]
  by_cases hq : q = p
  · rw [if_pos hq, if_pos hq.symm, ← hq, if_pos (hq ▸ hp)]
    rfl
  · rw [if_neg hq, if_neg (Ne.symm hq)]
    rfl

theorem setUnit_outcome {set : BitVec 32 → Except Failure (BitVec 32)} {small : Prop}
    {P : BitVec 32 → Prop} (hp : p < b.units_.length) (h : Outcome small P (set (b.unit p))) :
    Outcome small (fun b' => ∃ u, P u ∧ Written b p u b') (b.setUnit p set) := by
  generalize hset : set (b.unit p) = x at h
  cases h with
  | @ok u hu =>
    obtain ⟨b', hrun, hw⟩ := setUnit_written hp hset
    rw [hrun]
    exact .ok ⟨u, hu, hw⟩
  | thrown hs =>
    rw [setUnit, unit_eq hp, defined_some, ok_bind, hset]
    exact .thrown hs

theorem Written.empty (h : Written b p u b') (he : Empty b free) : Empty b' free := by
  rw [h.rest]
  exact he.setUnits h.size

theorem Written.kept (h : Written b p u b') : Kept b b' := by
  rw [h.rest]
  exact Kept.setUnits h.size

end

/-- What is fixed stays as it is, and no mark comes about. -/
structure Grown (b : DoubleArrayBuilder) (free : List Nat) (b' : DoubleArrayBuilder)
    (free' : List Nat) : Prop where
  fixed : ∀ p, b.Fixed free p → b'.Fixed free' p
  unit : ∀ p, b.Fixed free p → b'.unit p = b.unit p
  leaf : ∀ p, isLeaf (b'.unit p) = isLeaf (b.unit p)
  ends : ∀ p, isEnd (b'.unit p) = isEnd (b.unit p)

section
variable {b b' b'' : DoubleArrayBuilder} {free free' free'' : List Nat}

theorem Grown.refl (b : DoubleArrayBuilder) (free : List Nat) : Grown b free b free :=
  ⟨fun _ => id, fun _ _ => rfl, fun _ => rfl, fun _ => rfl⟩

theorem Grown.trans (h : Grown b free b' free') (h' : Grown b' free' b'' free'') :
    Grown b free b'' free'' where
  fixed p hp := h'.fixed p (h.fixed p hp)
  unit p hp := (h'.unit p (h.fixed p hp)).trans (h.unit p hp)
  leaf p := (h'.leaf p).trans (h.leaf p)
  ends p := (h'.ends p).trans (h.ends p)

end

/-- The empty units, the labels and the bases in use. -/
structure Laid {σ : Type} (has : σ → UInt8 → Prop) (owner : Nat → Option σ)
    (b : DoubleArrayBuilder) (free : List Nat) : Prop where
  empty : Empty b free
  table : XorTable has owner (b.Fixed free) b.labelAt
  used : ∀ o, (b.extras_ o).isSome → ((b.extra o).is_used = true ↔ (owner o).isSome)

theorem expandTrie_eq (b : DoubleArrayBuilder) : b.expandTrie =
    (if b.num_of_blocks + 1 > NUM_OF_UNFIXED_BLOCKS then
      b.fixBlock (b.num_of_blocks - NUM_OF_UNFIXED_BLOCKS) else .ok b) >>= fun b₁ =>
    DoubleArrayBuilder.linkBlock { b₁ with
      units_ := b₁.units_ ++ List.replicate BLOCK_SIZE 0
      num_of_blocks := b.num_of_blocks + 1
      extras_ := fun i =>
        if b.num_of_units ≤ i ∧ i < b.num_of_units + BLOCK_SIZE then some {}
        else if b.num_of_blocks + 1 > NUM_OF_UNFIXED_BLOCKS ∧
          i / BLOCK_SIZE = b.num_of_blocks - NUM_OF_UNFIXED_BLOCKS then none
        else b₁.extras_ i } b.num_of_units (b.num_of_units + BLOCK_SIZE) := by
  rw [DoubleArrayBuilder.expandTrie]
  split <;> rfl

theorem expandTrie_few {b : DoubleArrayBuilder}
    (h : b.num_of_blocks + 1 ≤ NUM_OF_UNFIXED_BLOCKS) :
    b.expandTrie = b.withBlock.linkBlock b.units_.length (b.units_.length + 256) := by
  rw [expandTrie_eq, if_neg (Nat.not_lt.mpr h), ok_bind]
  rfl

namespace Laid
variable {σ : Type} {has : σ → UInt8 → Prop} {owner : Nat → Option σ} {b : DoubleArrayBuilder}
  {free : List Nat}

theorem base_lt (h : Laid has owner b free) {o : Nat} (ho : (owner o).isSome) :
    o < b.units_.length := by
  obtain ⟨s, hs⟩ := Option.isSome_iff_exists.mp ho
  obtain ⟨c, hc⟩ := h.table.inhabited hs
  have hlt := (h.table.child hs hc).1.1
  have hdiv := xor_byte_div o c
  have hsize := h.empty.size
  omega

/-- A unit that keeps its label may be changed. -/
theorem written (h : Laid has owner b free) {b' : DoubleArrayBuilder} {p : Nat} {u : BitVec 32}
    (hw : Written b p u b') (hlabel : label u = label (b.unit p)) : Laid has owner b' free where
  empty := hw.empty h.empty
  table := by
    refine h.table.congr (fun q => by rw [Fixed, Fixed, hw.size]) fun q _ => ?_
    rw [labelAt, hw.unit]
    split
    · rename_i hq
      rw [hlabel, labelAt, hq]
    · rfl
  used o ho := by
    obtain ⟨hsome, hused⟩ := hw.kept.extras o
    rw [hsome] at ho
    rw [hused]
    exact h.used o ho

/-- A block in front of the others is fixed. -/
theorem fixBlock (h : Laid has owner b free) {k : Nat} (hk : k < b.num_of_blocks)
    (hopen : b.num_of_blocks ≤ k + 16) (hfirst : ∀ i ∈ free, 256 * k ≤ i) :
    ∃ b', b.fixBlock k = .ok b' ∧ Laid has owner b' (free.filter (256 * (k + 1) ≤ ·)) ∧
      Grown b free b' (free.filter (256 * (k + 1) ≤ ·)) ∧ Kept b b' := by
  have hunused : ∀ i ∈ free, i / 256 = k → ∃ u, u / 256 = k ∧ (b.extra u).is_used = false := by
    intro i hi hik
    obtain ⟨u, hu, hnone⟩ := h.table.exists_unused fun hfix : b.Fixed free i => hfix.2 hi
    have hlive : (b.extras_ u).isSome := (h.empty.live u).mpr (by omega)
    refine ⟨u, hu.trans hik, Bool.eq_false_iff.mpr fun hused => ?_⟩
    rw [h.used u hlive, hnone] at hused
    cases hused
  obtain ⟨b', u, hrun, hempty, hkept, hu, hunits⟩ := fixBlock_ok h.empty hk hopen hfirst hunused
  have hout : ∀ p, p ∈ free.filter (256 * (k + 1) ≤ ·) ↔ p ∈ free ∧ p / 256 ≠ k := fun p => by
    rw [List.mem_filter]
    refine and_congr_right fun hp => ?_
    have := hfirst p hp
    simp only [decide_eq_true_eq]
    omega
  have hunit : ∀ p, p < b.units_.length → b'.unit p = if p ∈ free ∧ p / 256 = k then
      setLabel (UInt8.ofNat (p ^^^ u)) (b.unit p) else b.unit p := fun p hp => by
    rw [unit, hunits p, unit_eq hp]
    rfl
  have hsame : ∀ p, b.Fixed free p → b'.unit p = b.unit p := fun p hp => by
    rw [hunit p hp.1, if_neg fun hin => hp.2 hin.1]
  have hfixed : ∀ p, b'.Fixed (free.filter (256 * (k + 1) ≤ ·)) p ↔
      b.Fixed free p ∨ p / 256 = k := fun p => by
    have hsize := h.empty.size
    rw [Fixed, Fixed, hout, hkept.size]
    by_cases hp : p ∈ free
    · have := h.empty.lt hp
      simp [hp, this]
    · simp only [hp, false_and, not_false_eq_true, and_true]
      omega
  have hmarks : ∀ p, isLeaf (b'.unit p) = isLeaf (b.unit p) ∧
      isEnd (b'.unit p) = isEnd (b.unit p) := fun p => by
    by_cases hp : p < b.units_.length
    · rw [hunit p hp]
      split
      · exact ⟨isLeaf_setLabel, isEnd_setLabel⟩
      · exact ⟨rfl, rfl⟩
    · rw [unit, unit, List.getElem?_eq_none (by rw [hkept.size]; omega),
        List.getElem?_eq_none (by omega)]
      exact ⟨rfl, rfl⟩
  refine ⟨b', hrun, ⟨hempty, ?_, fun o ho => ?_⟩,
    ⟨fun p hp => (hfixed p).mpr (.inl hp), hsame, fun p => (hmarks p).1, fun p => (hmarks p).2⟩,
    hkept⟩
  · by_cases hblock : ∃ i ∈ free, i / 256 = k
    · obtain ⟨i, hi, hik⟩ := hblock
      obtain ⟨huk, hfree⟩ := hu i hi hik
      have hlive : (b.extras_ u).isSome := (h.empty.live u).mpr (by omega)
      have hnone : owner u = none := by
        rw [← Option.not_isSome_iff_eq_none, ← h.used u hlive, hfree]
        exact Bool.false_ne_true
      refine h.table.fill hnone (by simpa only [huk] using hfixed)
        (fun p hp => congrArg label (hsame p hp)) fun p hp hnot => ?_
      have hpk := hp.trans huk
      have hlt : p < b.units_.length := by
        have hsize := h.empty.size
        omega
      have hin : p ∈ free := not_not.mp fun hout => hnot ⟨hlt, hout⟩
      obtain ⟨c, hc⟩ := exists_byte (hp : p / 256 = u / 256)
      rw [labelAt, hunit p hlt, if_pos ⟨hin, hpk⟩, label_setLabel]
      have hbyte : p ^^^ u = c.toNat := by
        rw [hc, Nat.xor_comm u, Nat.xor_assoc, Nat.xor_self, Nat.xor_zero]
      rw [hbyte, UInt8.ofNat_toNat, hc, xor_byte_cancel]
    · refine h.table.congr (fun p => ?_) fun p hp => congrArg label (hsame p hp)
      rw [hfixed p]
      refine or_iff_left_of_imp fun hpk => ?_
      have hsize := h.empty.size
      exact ⟨by omega, fun hp => hblock ⟨p, hp, hpk⟩⟩
  · rw [(hkept.extras o).1] at ho
    rw [(hkept.extras o).2]
    exact h.used o ho

/-- A new block when the one that leaves is full. -/
theorem linkBlock (h : Laid has owner b free)
    (hopen : ∀ i ∈ free, b.num_of_blocks + 1 ≤ i / 256 + 16) :
    ∃ b' free', b.withBlock.linkBlock b.units_.length (b.units_.length + 256) = .ok b' ∧
      Laid has owner b' free' ∧ Grown b free b' free' ∧
      b'.units_.length = b.units_.length + 256 ∧
      ∀ p, b.units_.length ≤ p → p < b.units_.length + 256 → p ∈ free' := by
  obtain ⟨b', hrun, hempty, hunits, hblocks, hused⟩ := linkBlock_withBlock h.empty hopen
  have hlen : b'.units_.length = b.units_.length + 256 := by
    rw [hunits, List.length_append, List.length_replicate]
  have hunit : ∀ p, b'.unit p = b.unit p := fun p => by
    rw [unit, unit, hunits]
    by_cases hp : p < b.units_.length
    · rw [List.getElem?_append_left hp]
    · rw [List.getElem?_append_right (by omega), List.getElem?_replicate,
        List.getElem?_eq_none (show b.units_.length ≤ p by omega)]
      split <;> rfl
  have hfixed : ∀ p, b'.Fixed (free ++ List.range' b.units_.length 256) p ↔ b.Fixed free p := by
    intro p
    rw [Fixed, Fixed, hlen, List.mem_append, List.mem_range'_1, not_or, and_left_comm,
      @and_comm (p < b.units_.length)]
    refine and_congr_right fun _ => ?_
    omega
  refine ⟨b', _, hrun, ⟨hempty, ?_, fun o ho => ?_⟩,
    ⟨fun p => (hfixed p).mpr, fun p _ => hunit p, fun p => by rw [hunit], fun p => by rw [hunit]⟩,
    hlen,
    fun p hlow hhigh => List.mem_append_right _ (List.mem_range'_1.mpr ⟨hlow, hhigh⟩)⟩
  · exact h.table.congr hfixed fun p _ => congrArg label (hunit p)
  · rw [hused o ho]
    split
    · refine h.used o ((h.empty.live o).mpr ?_)
      have hlive := (hempty.live o).mp ho
      rw [hblocks] at hlive
      have hsize := h.empty.size
      omega
    · rename_i hout
      exact ⟨fun hf => absurd hf Bool.false_ne_true, fun hf => absurd (h.base_lt hf) hout⟩

theorem expandTrie (h : Laid has owner b free) :
    ∃ b' free', b.expandTrie = .ok b' ∧ Laid has owner b' free' ∧ Grown b free b' free' ∧
      b'.units_.length = b.units_.length + 256 ∧
      ∀ p, b.units_.length ≤ p → p < b.units_.length + 256 → p ∈ free' := by
  have hfix : ∃ b₁ free₁, (if b.num_of_blocks + 1 > NUM_OF_UNFIXED_BLOCKS then
      b.fixBlock (b.num_of_blocks - NUM_OF_UNFIXED_BLOCKS) else .ok b) = .ok b₁ ∧
      Laid has owner b₁ free₁ ∧ Grown b free b₁ free₁ ∧ Kept b b₁ ∧
      ∀ i ∈ free₁, b₁.num_of_blocks + 1 ≤ i / 256 + 16 := by
    rw [NUM_OF_UNFIXED_BLOCKS]
    have hlow : ∀ i ∈ free, b.num_of_blocks ≤ i / 256 + 16 := fun i hi =>
      ((h.empty.live i).mp (h.empty.isSome hi)).2
    by_cases hmany : b.num_of_blocks + 1 > 16
    · obtain ⟨b₁, hrun, hlaid, hgrown, hkept⟩ := @fixBlock _ _ _ _ _ h (b.num_of_blocks - 16)
        (by omega) (by omega) fun i hi => by have := hlow i hi; omega
      refine ⟨b₁, _, by rw [if_pos hmany, hrun], hlaid, hgrown, hkept, fun i hi => ?_⟩
      have hge := (List.mem_filter.mp hi).2
      rw [decide_eq_true_eq] at hge
      rw [hkept.blocks]
      omega
    · exact ⟨b, free, if_neg hmany, h, Grown.refl b free, Kept.refl b, fun i hi => by omega⟩
  obtain ⟨b₁, free₁, hrun₁, hlaid₁, hgrown₁, hkept₁, hopen₁⟩ := hfix
  obtain ⟨b', free', hrun, hlaid, hgrown, hlen, hnew⟩ := hlaid₁.linkBlock hopen₁
  have hsize := hkept₁.size
  rw [hsize] at hrun hlen hnew
  refine ⟨b', free', ?_, hlaid, hgrown₁.trans hgrown, hlen, hnew⟩
  rw [expandTrie_eq, hrun₁, ok_bind]
  rw [withBlock] at hrun
  simp only [num_of_units, hsize, hkept₁.blocks] at hrun ⊢
  exact hrun

theorem fixAllBlocks (h : Laid has owner b free) :
    ∃ b', b.fixAllBlocks = .ok b' ∧ Laid has owner b' [] ∧ Grown b free b' [] ∧
      b'.units_.length = b.units_.length := by
  have hrun : ∀ {n k : Nat} {b : DoubleArrayBuilder} {free : List Nat}, Laid has owner b free →
      k + n = b.num_of_blocks → n ≤ 16 → (∀ i ∈ free, 256 * k ≤ i) →
      ∃ b', (List.range' k n).foldlM DoubleArrayBuilder.fixBlock b = .ok b' ∧
        Laid has owner b' [] ∧ Grown b free b' [] ∧ b'.units_.length = b.units_.length := by
    intro n
    induction n with
    | zero =>
      intro k b free h hk _ hfirst
      have hnil : free = [] := by
        refine List.eq_nil_iff_forall_not_mem.mpr fun i hi => ?_
        have hlt := h.empty.lt hi
        have hge := hfirst i hi
        have hsize := h.empty.size
        omega
      subst hnil
      exact ⟨b, rfl, h, Grown.refl b [], rfl⟩
    | succ n ih =>
      intro k b free h hk hn hfirst
      obtain ⟨b₁, hfix, hlaid, hgrown, hkept⟩ := h.fixBlock (by omega) (by omega) hfirst
      obtain ⟨b', hrest, hlaid', hgrown', hlen⟩ := @ih (k + 1) b₁ _ hlaid
        (by rw [hkept.blocks]; omega) (by omega) fun i hi => by
          simpa using (List.mem_filter.mp hi).2
      refine ⟨b', ?_, hlaid', hgrown.trans hgrown', hlen.trans hkept.size⟩
      rw [List.range'_succ, List.foldlM_cons, hfix, ok_bind, hrest]
  have hlow : ∀ i ∈ free, b.num_of_blocks ≤ i / 256 + 16 := fun i hi =>
    ((h.empty.live i).mp (h.empty.isSome hi)).2
  rw [DoubleArrayBuilder.fixAllBlocks, NUM_OF_UNFIXED_BLOCKS]
  refine hrun h ?_ ?_ fun i hi => ?_
  · split <;> omega
  · split <;> omega
  · have := hlow i hi
    split <;> omega

end Laid

end DoubleArrayBuilder

end CommonTools.DartsClone
