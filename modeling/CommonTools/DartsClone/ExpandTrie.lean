import CommonTools.DartsClone.EmptyUnits

/-! # New blocks

A block that the trie grows by stands behind the other empty units in the circle. Past 16
blocks the oldest one leaves the circle: its empty units get labels of a base in it that is
not in use. -/
namespace CommonTools.DartsClone
open CommonTools.Lib

namespace DoubleArrayBuilder

section
variable {b b' : DoubleArrayBuilder} {free : List Nat} {i : Nat}

/-! ## Pointers -/

structure Relinked (b b' : DoubleArrayBuilder) : Prop where
  units : b'.units_ = b.units_
  blocks : b'.num_of_blocks = b.num_of_blocks
  head : b'.unfixed_index_ = b.unfixed_index_
  isSome : ∀ j, (b'.extras_ j).isSome = (b.extras_ j).isSome
  used : ∀ j, (b'.extra j).is_used = (b.extra j).is_used
  fixed : ∀ j, (b'.extra j).is_fixed = (b.extra j).is_fixed

theorem Relinked.refl (b : DoubleArrayBuilder) : Relinked b b :=
  ⟨rfl, rfl, rfl, fun _ => rfl, fun _ => rfl, fun _ => rfl⟩

theorem Relinked.trans {b'' : DoubleArrayBuilder} (h : Relinked b b') (h' : Relinked b' b'') :
    Relinked b b'' where
  units := h'.units.trans h.units
  blocks := h'.blocks.trans h.blocks
  head := h'.head.trans h.head
  isSome j := (h'.isSome j).trans (h.isSome j)
  used j := (h'.used j).trans (h.used j)
  fixed j := (h'.fixed j).trans (h.fixed j)

theorem extra_setExtra (h : (b.extras_ i).isSome) (set : DoubleArrayExtra → DoubleArrayExtra)
    (j : Nat) : (b.mapExtras fun j e => if j = i then set e else e).extra j =
      if j = i then set (b.extra j) else b.extra j := by
  by_cases hj : (b.extras_ j).isSome
  · exact extra_mapExtras hj
  · have hji : j ≠ i := fun he => hj (he ▸ h)
    have hnone : b.extras_ j = none := Option.not_isSome_iff_eq_none.mp hj
    simp [extra, mapExtras, hnone, hji]

theorem setNext_ok (h : (b.extras_ i).isSome) (v : Nat) :
    ∃ b', (b.setExtra i fun e => { e with next := v }) = .ok b' ∧
      b'.next = Function.update b.next i v ∧ b'.prev = b.prev ∧ Relinked b b' := by
  refine ⟨_, setExtra_eq h _, funext fun j => ?_, funext fun j => ?_, rfl, rfl, rfl,
    fun j => isSome_mapExtras, fun j => ?_, fun j => ?_⟩
  · rw [next, extra_setExtra h, Function.update_apply]
    split <;> rfl
  all_goals
    first | rw [prev, extra_setExtra h] | rw [extra_setExtra h]
    split <;> rfl

theorem setPrev_ok (h : (b.extras_ i).isSome) (v : Nat) :
    ∃ b', (b.setExtra i fun e => { e with prev := v }) = .ok b' ∧
      b'.next = b.next ∧ b'.prev = Function.update b.prev i v ∧ Relinked b b' := by
  refine ⟨_, setExtra_eq h _, funext fun j => ?_, funext fun j => ?_, rfl, rfl, rfl,
    fun j => isSome_mapExtras, fun j => ?_, fun j => ?_⟩
  · rw [next, extra_setExtra h]
    split <;> rfl
  · rw [prev, extra_setExtra h, Function.update_apply]
    split <;> rfl
  all_goals
    rw [extra_setExtra h]
    split <;> rfl

theorem linkPairs_ok {src : Nat} : ∀ {n : Nat},
    (∀ j, src ≤ j → j ≤ src + n → (b.extras_ j).isSome) →
    ∃ b', (List.range' (src + 1) n).foldlM linkPair b = .ok b' ∧ Relinked b b' ∧
      (∀ j, b'.next j = if src ≤ j ∧ j < src + n then j + 1 else b.next j) ∧
      ∀ j, b'.prev j = if src < j ∧ j ≤ src + n then j - 1 else b.prev j := by
  intro n
  induction n with
  | zero =>
    intro _
    refine ⟨b, rfl, Relinked.refl b, fun j => ?_, fun j => ?_⟩
    · rw [if_neg (by omega)]
    · rw [if_neg (by omega)]
  | succ n ih =>
    intro hsome
    obtain ⟨b₁, hrun, hrel, hnext, hprev⟩ := ih fun j hlow hhigh => hsome j hlow (by omega)
    obtain ⟨b₂, hset₂, hnext₂, hprev₂, hrel₂⟩ := @setNext_ok b₁ (src + n)
      (by rw [hrel.isSome]; exact hsome _ (by omega) (by omega)) (src + 1 + n)
    obtain ⟨b₃, hset₃, hnext₃, hprev₃, hrel₃⟩ := @setPrev_ok b₂ (src + 1 + n)
      (by rw [hrel₂.isSome, hrel.isSome]; exact hsome _ (by omega) (by omega)) (src + n)
    refine ⟨b₃, ?_, (hrel.trans hrel₂).trans hrel₃, fun j => ?_, fun j => ?_⟩
    · rw [List.range'_concat, List.foldlM_append, hrun, ok_bind, Nat.one_mul]
      have hpred : src + 1 + n - 1 = src + n := by omega
      simp only [List.foldlM_cons, List.foldlM_nil, linkPair, hpred, hset₂, hset₃, ok_bind]
      rfl
    · rw [hnext₃, hnext₂, Function.update_apply, hnext]
      split_ifs <;> omega
    · rw [hprev₃, Function.update_apply, hprev₂, hprev]
      split_ifs <;> omega

/-- The units of the new block make a circle of their own. -/
theorem newCircle_ok {src : Nat} (hnew : ∀ j, src ≤ j → j < src + 256 → (b.extras_ j).isSome) :
    ∃ b₁ b₂ b', (List.range' (src + 1) 255).foldlM linkPair b = .ok b₁ ∧
      (b₁.setExtra src fun e => { e with prev := src + 255 }) = .ok b₂ ∧
      (b₂.setExtra (src + 255) fun e => { e with next := src }) = .ok b' ∧ Relinked b b' ∧
      Circle b'.next b'.prev (List.range' src 256) ∧ b'.prev src = src + 255 ∧
      b'.next (src + 255) = src ∧ ∀ j < src, b'.next j = b.next j ∧ b'.prev j = b.prev j := by
  obtain ⟨b₁, hrun, hrel₁, hnext₁, hprev₁⟩ := @linkPairs_ok b src 255
    fun j hlow hhigh => hnew j hlow (by omega)
  obtain ⟨b₂, hset₂, hnext₂, hprev₂, hrel₂⟩ := @setPrev_ok b₁ src
    (by rw [hrel₁.isSome]; exact hnew _ (by omega) (by omega)) (src + 255)
  obtain ⟨b₃, hset₃, hnext₃, hprev₃, hrel₃⟩ := @setNext_ok b₂ (src + 255)
    (by rw [hrel₂.isSome, hrel₁.isSome]; exact hnew _ (by omega) (by omega)) src
  have hlast : b₃.prev src = src + 255 := by rw [hprev₃, hprev₂, Function.update_self]
  have hend : b₃.next (src + 255) = src := by rw [hnext₃, Function.update_self]
  refine ⟨b₁, b₂, b₃, hrun, hset₂, hset₃, (hrel₁.trans hrel₂).trans hrel₃, ?_, hlast, hend,
    fun j hj => ⟨?_, ?_⟩⟩
  · refine Circle.circle_range (fun j hlow hhigh => ?_) hend hlast
    rw [hnext₃, hprev₃, hnext₂, hprev₂, Function.update_of_ne (by omega),
      Function.update_of_ne (by omega), hnext₁, hprev₁, if_pos (by omega), if_pos (by omega)]
    exact ⟨rfl, rfl⟩
  · rw [hnext₃, Function.update_of_ne (by omega), hnext₂, hnext₁, if_neg (by omega)]
  · rw [hprev₃, hprev₂, Function.update_of_ne (by omega), hprev₁, if_neg (by omega)]

/-- The four pointers that put the block from `src` to `last` in front of `H`, behind `p`. -/
theorem splice_ok {src last H p : Nat} (hsrc : (b.extras_ src).isSome)
    (hlast : (b.extras_ last).isSome) (hH : (b.extras_ H).isSome) (hp : (b.extras_ p).isSome)
    (hprev : b.prev H = p) :
    ∃ b₁ b₂ b₃ b', (b.setExtra src fun e => { e with prev := p }) = .ok b₁ ∧
      (b₁.setExtra last fun e => { e with next := H }) = .ok b₂ ∧
      (b₂.setExtra p fun e => { e with next := src }) = .ok b₃ ∧
      (b₃.setExtra H fun e => { e with prev := last }) = .ok b' ∧
      Relinked b b₁ ∧ Relinked b b₂ ∧ Relinked b b₃ ∧ Relinked b b' ∧ b₂.prev H = p ∧
      b'.next = Function.update (Function.update b.next last H) p src ∧
      b'.prev = Function.update (Function.update b.prev src p) H last := by
  obtain ⟨b₁, hset₁, hnext₁, hprev₁, hrel₁⟩ := setPrev_ok hsrc p
  obtain ⟨b₂, hset₂, hnext₂, hprev₂, hrel₂⟩ := @setNext_ok b₁ last
    (by rw [hrel₁.isSome]; exact hlast) H
  have hrel₁₂ := hrel₁.trans hrel₂
  obtain ⟨b₃, hset₃, hnext₃, hprev₃, hrel₃⟩ := @setNext_ok b₂ p
    (by rw [hrel₁₂.isSome]; exact hp) src
  have hrel₁₃ := hrel₁₂.trans hrel₃
  obtain ⟨b₄, hset₄, hnext₄, hprev₄, hrel₄⟩ := @setPrev_ok b₃ H
    (by rw [hrel₁₃.isSome]; exact hH) last
  refine ⟨b₁, b₂, b₃, b₄, hset₁, hset₂, hset₃, hset₄, hrel₁, hrel₁₂, hrel₁₃, hrel₁₃.trans hrel₄,
    ?_, ?_, ?_⟩
  · rw [hprev₂, hprev₁, Function.update_apply, hprev, ite_self]
  · rw [hnext₄, hnext₃, hnext₂, hnext₁]
  · rw [hprev₄, hprev₃, hprev₂, hprev₁]

/-- The new block behind the other empty units. -/
theorem linkBlock_ok {src : Nat} (hcircle : Circle b.next b.prev free)
    (hfree : ∀ j ∈ free, (b.extras_ j).isSome ∧ j < src)
    (hnew : ∀ j, src ≤ j → j < src + 256 → (b.extras_ j).isSome)
    (hhead : b.unfixed_index_ = free.head?.getD src) :
    ∃ b', b.linkBlock src (src + 256) = .ok b' ∧ Relinked b b' ∧
      Circle b'.next b'.prev (free ++ List.range' src 256) := by
  obtain ⟨b₁, b₂, b₃, hrun₁, hset₂, hset₃, hrel, hblock, hlast, hend, hsame⟩ := newCircle_ok hnew
  have hold : Circle b₃.next b₃.prev free :=
    hcircle.congr (fun j hj => (hsame j (hfree j hj).2).1) fun j hj => (hsame j (hfree j hj).2).2
  generalize hH : b.unfixed_index_ = H at hhead
  have hsomeH : (b₃.extras_ H).isSome := by
    rw [hrel.isSome, hhead]
    cases free with
    | nil => exact hnew _ (Nat.le_refl _) (by simp)
    | cons x xs => exact (hfree x List.mem_cons_self).1
  generalize hp : b₃.prev H = p
  have hsomep : (b₃.extras_ p).isSome := by
    rw [hrel.isSome, ← hp, hhead]
    cases free with
    | nil =>
      rw [List.head?_nil, Option.getD_none, hlast]
      exact hnew _ (by omega) (by omega)
    | cons x xs => exact (hfree _ (hold.prev_mem List.mem_cons_self)).1
  obtain ⟨b₄, b₅, b₆, b₇, hset₄, hset₅, hset₆, hset₇, hrel₄, hrel₅, hrel₆, hrel₇, hprev₅, hnext,
      hprev⟩ :=
    @splice_ok b₃ src (src + 255) H p
      (by rw [hrel.isSome]; exact hnew _ (by omega) (by omega))
      (by rw [hrel.isSome]; exact hnew _ (by omega) (by omega)) hsomeH hsomep hp
  have hhead₃ : b₃.unfixed_index_ = H := hrel.head.trans hH
  have hhead₄ : b₄.unfixed_index_ = H := hrel₄.head.trans hhead₃
  have hhead₅ : b₅.unfixed_index_ = H := hrel₅.head.trans hhead₃
  have hhead₆ : b₆.unfixed_index_ = H := hrel₆.head.trans hhead₃
  have hprevH : (b₃.extra H).prev = p := hp
  have hprevH₅ : (b₅.extra H).prev = p := hprev₅
  refine ⟨b₇, ?_, hrel.trans hrel₇, ?_⟩
  · have hcount : src + 256 - (src + 1) = 255 := by omega
    have hpred : src + 256 - 1 = src + 255 := rfl
    rw [linkBlock, hcount, hrun₁, ok_bind, hpred, hset₂, ok_bind, hset₃, ok_bind, hhead₃,
      extras_eq hsomeH, ok_bind, hprevH, hset₄, ok_bind, hhead₄, hset₅, ok_bind, hhead₅,
      extras_eq (by rw [hrel₅.isSome]; exact hsomeH), ok_bind, hprevH₅, hset₆, ok_bind, hhead₆,
      hset₇]
  · rw [hnext, hprev]
    cases free with
    | nil =>
      -- the new block is the circle
      have hHs : H = src := hhead
      rw [hHs] at hp ⊢
      have hnextSame : Function.update b₃.next (src + 255) src = b₃.next :=
        Function.update_eq_self_iff.mpr hend.symm
      have hprevSame : Function.update b₃.prev src (src + 255) = b₃.prev :=
        Function.update_eq_self_iff.mpr hlast.symm
      rw [← hp, hlast, hnextSame, hnextSame, hprevSame, hprevSame]
      exact hblock
    | cons x xs =>
      have hHx : H = x := hhead
      rw [hHx] at hp ⊢
      rw [List.range'_succ] at hblock ⊢
      have hjoin := hold.append hblock fun q hq hin => by
        rw [← List.range'_succ, List.mem_range'_1] at hin
        have := (hfree q hq).2
        omega
      rwa [hlast, hp] at hjoin

/-! ## A new block -/

/-- The builder with a new block that is not linked yet. -/
def withBlock (b : DoubleArrayBuilder) : DoubleArrayBuilder :=
  { b with
    units_ := b.units_ ++ List.replicate BLOCK_SIZE 0
    num_of_blocks := b.num_of_blocks + 1
    extras_ := fun i =>
      if b.num_of_units ≤ i ∧ i < b.num_of_units + BLOCK_SIZE then some {}
      else if b.num_of_blocks + 1 > NUM_OF_UNFIXED_BLOCKS ∧
        i / BLOCK_SIZE = b.num_of_blocks - NUM_OF_UNFIXED_BLOCKS then none
      else b.extras_ i }

theorem withBlock_new (hnew : b.units_.length ≤ i ∧ i < b.units_.length + 256) :
    b.withBlock.extras_ i = some {} := if_pos hnew

theorem withBlock_old (hi : i < b.units_.length)
    (hopen : b.num_of_blocks + 1 ≤ i / 256 + 16) : b.withBlock.extras_ i = b.extras_ i := by
  have hout : ¬ (b.num_of_units ≤ i ∧ i < b.num_of_units + BLOCK_SIZE) := fun hin =>
    Nat.not_le.mpr hi hin.1
  have hkept : ¬ (b.num_of_blocks + 1 > NUM_OF_UNFIXED_BLOCKS ∧
      i / BLOCK_SIZE = b.num_of_blocks - NUM_OF_UNFIXED_BLOCKS) := by
    rw [BLOCK_SIZE, NUM_OF_UNFIXED_BLOCKS]
    omega
  rw [withBlock]
  simp only [if_neg hout, if_neg hkept]

theorem isSome_withBlock (h : Empty b free) :
    (b.withBlock.extras_ i).isSome ↔
      i / 256 < b.num_of_blocks + 1 ∧ b.num_of_blocks + 1 ≤ i / 256 + 16 := by
  have hsize := h.size
  by_cases hnew : b.units_.length ≤ i ∧ i < b.units_.length + 256
  · rw [withBlock_new hnew]
    simp only [Option.isSome_some, true_iff]
    omega
  · by_cases hopen : i < b.units_.length ∧ b.num_of_blocks + 1 ≤ i / 256 + 16
    · rw [withBlock_old hopen.1 hopen.2, h.live i]
      omega
    · have hout : ¬ (b.num_of_units ≤ i ∧ i < b.num_of_units + BLOCK_SIZE) := hnew
      have hnone : b.withBlock.extras_ i = none := by
        rw [withBlock]
        simp only [if_neg hout]
        by_cases hgone : b.num_of_blocks + 1 > NUM_OF_UNFIXED_BLOCKS ∧
            i / BLOCK_SIZE = b.num_of_blocks - NUM_OF_UNFIXED_BLOCKS
        · rw [if_pos hgone]
        · rw [if_neg hgone, ← Option.not_isSome_iff_eq_none, h.live i]
          rw [BLOCK_SIZE, NUM_OF_UNFIXED_BLOCKS] at hgone
          omega
      rw [hnone]
      simp only [Option.isSome_none, Bool.false_eq_true, false_iff]
      omega

/-- A new block when the one that leaves has no empty units. -/
theorem linkBlock_withBlock (h : Empty b free)
    (hopen : ∀ i ∈ free, b.num_of_blocks + 1 ≤ i / 256 + 16) :
    ∃ b', b.withBlock.linkBlock b.units_.length (b.units_.length + 256) = .ok b' ∧
      Empty b' (free ++ List.range' b.units_.length 256) ∧
      b'.units_ = b.units_ ++ List.replicate 256 0 ∧ b'.num_of_blocks = b.num_of_blocks + 1 ∧
      ∀ i, (b'.extras_ i).isSome → (b'.extra i).is_used =
        if i < b.units_.length then (b.extra i).is_used else false := by
  have hsize := h.size
  have hold : ∀ i ∈ free, b.withBlock.extra i = b.extra i := fun i hi => by
    rw [extra, withBlock_old (h.lt hi) (hopen i hi), extra]
  obtain ⟨b', hrun, hrel, hcircle⟩ := @linkBlock_ok b.withBlock free b.units_.length
    (h.circle.congr (fun i hi => congrArg DoubleArrayExtra.next (hold i hi))
      fun i hi => congrArg DoubleArrayExtra.prev (hold i hi))
    (fun i hi => ⟨by rw [withBlock_old (h.lt hi) (hopen i hi)]; exact h.isSome hi, h.lt hi⟩)
    (fun i hlow hhigh => by rw [withBlock_new ⟨hlow, hhigh⟩]; rfl) h.head
  have hsome : ∀ i, (b'.extras_ i).isSome = (b.withBlock.extras_ i).isSome := hrel.isSome
  refine ⟨b', hrun, ⟨?_, fun i => ?_, ?_, ?_, fun i => ?_, hcircle⟩, hrel.units, hrel.blocks,
    fun i hi => ?_⟩
  · rw [hrel.units, hrel.blocks]
    show (b.units_ ++ List.replicate 256 0).length = 256 * (b.num_of_blocks + 1)
    rw [List.length_append, List.length_replicate]
    omega
  · rw [hsome, hrel.blocks, isSome_withBlock h]
    rfl
  · rw [hrel.head]
    show b.unfixed_index_ = _
    rw [h.head]
    cases free <;> rfl
  · refine List.pairwise_append.mpr ⟨h.sorted, List.pairwise_lt_range' .., fun i hi j hj => ?_⟩
    have hlt := h.lt hi
    have hj := (List.mem_range'_1.mp hj).1
    omega
  · rw [hsome, hrel.fixed, List.mem_append, List.mem_range'_1]
    by_cases hnew : b.units_.length ≤ i ∧ i < b.units_.length + 256
    · rw [extra, withBlock_new hnew]
      simp [hnew]
    · rw [or_iff_left hnew]
      by_cases hin : i < b.units_.length ∧ b.num_of_blocks + 1 ≤ i / 256 + 16
      · rw [extra, withBlock_old hin.1 hin.2, ← extra]
        exact h.mem i
      · rw [isSome_withBlock h]
        refine ⟨fun hi => ?_, fun hi => ?_⟩
        · exact absurd ⟨h.lt hi, hopen i hi⟩ hin
        · omega
  · rw [hsome] at hi
    rw [hrel.used]
    by_cases hlt : i < b.units_.length
    · rw [if_pos hlt, extra, withBlock_old hlt ((isSome_withBlock h).mp hi).2, ← extra]
    · have hlive := ((isSome_withBlock h).mp hi).1
      rw [if_neg hlt, extra, withBlock_new (by omega)]
      rfl

end

end DoubleArrayBuilder

end CommonTools.DartsClone
