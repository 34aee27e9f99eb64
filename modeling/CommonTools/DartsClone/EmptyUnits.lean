import CommonTools.Lib.Circle
import CommonTools.DartsClone.Builder

/-! # The circle of empty units

The empty units of the open blocks stand in the circle in ascending order, the first one at
`unfixed_index_`. Taking a unit, fixing a block and a new block keep that. -/
namespace CommonTools.DartsClone
open CommonTools.Lib

namespace DoubleArrayBuilder

/-! ## Extras -/

def extra (b : DoubleArrayBuilder) (i : Nat) : DoubleArrayExtra := (b.extras_ i).getD {}

def next (b : DoubleArrayBuilder) (i : Nat) : Nat := (b.extra i).next

def prev (b : DoubleArrayBuilder) (i : Nat) : Nat := (b.extra i).prev

def mapExtras (b : DoubleArrayBuilder) (f : Nat → DoubleArrayExtra → DoubleArrayExtra) :
    DoubleArrayBuilder :=
  { b with extras_ := fun i => (b.extras_ i).map (f i) }

section
variable {b : DoubleArrayBuilder} {f g : Nat → DoubleArrayExtra → DoubleArrayExtra} {i : Nat}

theorem extras_eq (h : (b.extras_ i).isSome) : b.extras i = .ok (b.extra i) := by
  obtain ⟨e, he⟩ := Option.isSome_iff_exists.mp h
  rw [extras, extra, he]
  rfl

theorem setExtra_eq (h : (b.extras_ i).isSome) (set : DoubleArrayExtra → DoubleArrayExtra) :
    b.setExtra i set = .ok (b.mapExtras fun j e => if j = i then set e else e) := by
  rw [setExtra, extras_eq h, ok_bind]
  refine congrArg Except.ok (congrArg (fun x => { b with extras_ := x }) (funext fun j => ?_))
  by_cases hj : j = i
  · obtain ⟨e, he⟩ := Option.isSome_iff_exists.mp h
    rw [hj, Function.update_self, extra, he]
    simp
  · rw [Function.update_of_ne hj]
    simp [hj]

@[simp] theorem isSome_mapExtras : ((b.mapExtras f).extras_ i).isSome = (b.extras_ i).isSome :=
  Option.isSome_map

theorem extra_mapExtras (h : (b.extras_ i).isSome) : (b.mapExtras f).extra i = f i (b.extra i) := by
  obtain ⟨e, he⟩ := Option.isSome_iff_exists.mp h
  simp [extra, mapExtras, he]

@[simp] theorem mapExtras_mapExtras :
    (b.mapExtras f).mapExtras g = b.mapExtras fun i e => g i (f i e) := by
  simp [mapExtras, Function.comp_def]

end

/-! ## The circle -/

/-- The empty units of the open blocks. -/
structure Empty (b : DoubleArrayBuilder) (free : List Nat) : Prop where
  size : b.units_.length = 256 * b.num_of_blocks
  live : ∀ i, (b.extras_ i).isSome ↔ i / 256 < b.num_of_blocks ∧ b.num_of_blocks ≤ i / 256 + 16
  head : b.unfixed_index_ = free.head?.getD b.units_.length
  sorted : free.Pairwise (· < ·)
  mem : ∀ i, i ∈ free ↔ (b.extras_ i).isSome ∧ (b.extra i).is_fixed = false
  circle : Circle b.next b.prev free

section
variable {b b' : DoubleArrayBuilder} {free : List Nat} {i : Nat}

theorem Empty.isSome (h : Empty b free) (hi : i ∈ free) : (b.extras_ i).isSome :=
  ((h.mem i).mp hi).1

theorem Empty.lt (h : Empty b free) (hi : i ∈ free) : i < b.units_.length := by
  have hlive := ((h.live i).mp (h.isSome hi)).1
  rw [h.size]
  omega

theorem Empty.nodup (h : Empty b free) : free.Nodup := h.sorted.imp Nat.ne_of_lt

/-- The same blocks are open and the same bases are in use. -/
structure Kept (b b' : DoubleArrayBuilder) : Prop where
  size : b'.units_.length = b.units_.length
  blocks : b'.num_of_blocks = b.num_of_blocks
  extras : ∀ j, (b'.extras_ j).isSome = (b.extras_ j).isSome ∧
    (b'.extra j).is_used = (b.extra j).is_used

theorem Kept.refl (b : DoubleArrayBuilder) : Kept b b := ⟨rfl, rfl, fun _ => ⟨rfl, rfl⟩⟩

theorem Kept.trans {b'' : DoubleArrayBuilder} (h : Kept b b') (h' : Kept b' b'') : Kept b b'' where
  size := h'.size.trans h.size
  blocks := h'.blocks.trans h.blocks
  extras j := ⟨(h'.extras j).1.trans (h.extras j).1, (h'.extras j).2.trans (h.extras j).2⟩

/-- What taking a unit does to the extras. -/
def takeExtra (b : DoubleArrayBuilder) (i j : Nat) (e : DoubleArrayExtra) : DoubleArrayExtra where
  is_fixed := e.is_fixed || decide (j = i)
  next := if j = b.prev i then b.next i else e.next
  is_used := e.is_used
  prev := if j = b.next i then b.prev i else e.prev

theorem takeIndex_ok (h : Empty b free) (hi : i ∈ free) :
    ∃ b', b.takeIndex i = .ok b' ∧ b'.units_ = b.units_ ∧ b'.num_of_blocks = b.num_of_blocks ∧
      b'.extras_ = (b.mapExtras (b.takeExtra i)).extras_ ∧
      b'.unfixed_index_ = if i = b.unfixed_index_ then
        (if b.next i = i then b.units_.length else b.next i) else b.unfixed_index_ := by
  have hsome : ∀ j ∈ free, (b.extras_ j).isSome := fun j hj => h.isSome hj
  have hp : b.prev i ∈ free := h.circle.prev_mem hi
  have hn : b.next i ∈ free := h.circle.next_mem hi
  have hfixed : (b.extra i).is_fixed = false := ((h.mem i).mp hi).2
  rw [takeIndex, extras_eq (hsome i hi), ok_bind, hfixed]
  have hn' : (b.extra i).next = b.next i := rfl
  have hp' : (b.extra i).prev = b.prev i := rfl
  simp only [Bool.not_false, assert_true, ok_bind, hn', hp']
  generalize hc : (if i = b.unfixed_index_ then
    if b.next i = i then { b with unfixed_index_ := b.num_of_units }
    else { b with unfixed_index_ := b.next i } else b) = c
  have hview : c = { b with unfixed_index_ := if i = b.unfixed_index_ then
      (if b.next i = i then b.units_.length else b.next i) else b.unfixed_index_ } := by
    rw [← hc]
    by_cases hhead : i = b.unfixed_index_
    · rw [if_pos hhead, if_pos hhead]
      by_cases hself : b.next i = i
      · rw [if_pos hself, if_pos hself]
        rfl
      · rw [if_neg hself, if_neg hself]
    · rw [if_neg hhead, if_neg hhead]
  have hsomec : ∀ j ∈ free, (c.extras_ j).isSome := fun j hj => by
    rw [hview]
    exact hsome j hj
  rw [setExtra_eq (hsomec _ hp), ok_bind, extras_eq (by simpa using hsomec i hi), ok_bind,
    extra_mapExtras (hsomec i hi)]
  have hnext : (if i = b.prev i then { c.extra i with next := b.next i } else c.extra i).next =
      b.next i := by
    rw [hview]
    split <;> rfl
  have hprev : (if i = b.prev i then { c.extra i with next := b.next i } else c.extra i).prev =
      b.prev i := by
    rw [hview]
    split <;> rfl
  simp only [hnext, hprev]
  rw [setExtra_eq (by simpa using hsomec _ hn), ok_bind, setExtra_eq (by simpa using hsomec i hi)]
  simp only [mapExtras_mapExtras]
  rw [hview]
  refine ⟨_, rfl, rfl, rfl, ?_, rfl⟩
  refine congrArg (fun f => (b.mapExtras f).extras_) (funext fun j => funext fun e => ?_)
  have hfix : ∀ q : Prop, [Decidable q] → (e.is_fixed || decide q) = if q then true else e.is_fixed :=
    fun q _ => by by_cases hq : q <;> simp [hq]
  rw [takeExtra, hfix]
  split_ifs <;> rfl

theorem Empty.head_cons {x : Nat} {xs : List Nat} (h : Empty b (x :: xs)) :
    b.unfixed_index_ = x := h.head

/-- The first empty unit after one is taken. -/
theorem Empty.head_erase (h : Empty b free) (hi : i ∈ free) :
    (if i = b.unfixed_index_ then (if b.next i = i then b.units_.length else b.next i)
      else b.unfixed_index_) = (free.erase i).head?.getD b.units_.length := by
  cases free with
  | nil => simp at hi
  | cons x xs =>
    rw [h.head_cons]
    by_cases hx : i = x
    · subst hx
      rw [if_pos rfl, List.erase_cons_head]
      cases xs with
      | nil =>
        have hself : b.next i = i := @Circle.next_last _ _ _ i [] h.circle
        rw [if_pos hself]
        rfl
      | cons y ys =>
        have hnext : b.next i = y := @Circle.next_eq _ _ _ i y [] ys h.circle
        have hne : y ≠ i := fun he => (List.nodup_cons.mp h.nodup).1 (he ▸ List.mem_cons_self)
        rw [hnext, if_neg hne]
        rfl
    · rw [if_neg hx, List.erase_cons_tail (by simpa using Ne.symm hx)]
      rfl

/-- An empty unit is taken: nothing else changes. -/
theorem Empty.take (h : Empty b free) (hi : i ∈ free) :
    ∃ b', b.takeIndex i = .ok b' ∧ Empty b' (free.erase i) ∧ b'.units_ = b.units_ ∧
      Kept b b' := by
  obtain ⟨b', hrun, hunits, hblocks, hextras, hhead⟩ := takeIndex_ok h hi
  have hsome : ∀ j, (b'.extras_ j).isSome = (b.extras_ j).isSome := fun j => by
    rw [hextras, isSome_mapExtras]
  have hextra : ∀ j, (b.extras_ j).isSome → b'.extra j = b.takeExtra i j (b.extra j) := fun j hj => by
    rw [← @extra_mapExtras b (b.takeExtra i) j hj, extra, hextras]
    rfl
  have hfree : ∀ j ∈ free, b'.next j = (if j = b.prev i then b.next i else b.next j) ∧
      b'.prev j = if j = b.next i then b.prev i else b.prev j := fun j hj => by
    have he := hextra j (h.isSome hj)
    exact ⟨congrArg DoubleArrayExtra.next he, congrArg DoubleArrayExtra.prev he⟩
  refine ⟨b', hrun, ⟨?_, fun j => ?_, ?_, h.sorted.sublist List.erase_sublist, fun j => ?_, ?_⟩,
    hunits, by rw [hunits], hblocks, fun j => ⟨hsome j, ?_⟩⟩
  · rw [hunits, hblocks, h.size]
  · rw [hsome, hblocks]
    exact h.live j
  · rw [hhead, hunits]
    exact h.head_erase hi
  · rw [h.nodup.mem_erase_iff, h.mem j, hsome]
    by_cases hj : (b.extras_ j).isSome
    · rw [hextra j hj, takeExtra]
      by_cases hji : j = i <;> simp [hj, hji]
    · simp [hj]
  · refine (h.circle.erase hi).congr (fun j hj => ?_) fun j hj => ?_
    · rw [(hfree j (List.mem_of_mem_erase hj)).1, Function.update_apply]
    · rw [(hfree j (List.mem_of_mem_erase hj)).2, Function.update_apply]
  · by_cases hj : (b.extras_ j).isSome
    · rw [hextra j hj]
      rfl
    · have hnone : b.extras_ j = none := Option.not_isSome_iff_eq_none.mp hj
      have hnone' : b'.extras_ j = none := Option.not_isSome_iff_eq_none.mp (by rwa [hsome])
      rw [extra, extra, hnone, hnone']

/-! ## Units -/

theorem setUnit_ok {u u' : BitVec 32} {set : BitVec 32 → Except Failure (BitVec 32)}
    (hu : b.units_[i]? = some u) (hset : set u = .ok u') :
    b.setUnit i set = .ok { b with units_ := b.units_.set i u' } := by
  rw [setUnit, hu, defined_some, ok_bind, hset, ok_bind]

theorem Empty.setUnits (h : Empty b free) {units_ : List (BitVec 32)}
    (hsize : units_.length = b.units_.length) : Empty { b with units_ := units_ } free where
  size := hsize.trans h.size
  live := h.live
  head := h.head.trans (by rw [← hsize])
  sorted := h.sorted
  mem := h.mem
  circle := h.circle

theorem Kept.setUnits {units_ : List (BitVec 32)} (hsize : units_.length = b.units_.length) :
    Kept b { b with units_ := units_ } :=
  ⟨hsize, rfl, fun _ => ⟨rfl, rfl⟩⟩

/-! ## Fixing a block -/

/-- The empty units in front of `end_` get their labels, and the others are left. -/
theorem fixLoop_ok {end_ unused_offset : Nat} : ∀ {n : Nat} {b : DoubleArrayBuilder}
    {free : List Nat}, Empty b free → end_ ≤ b.units_.length →
    (free.filter (· < end_)).length < n →
    ∃ b', fixLoop end_ unused_offset n b = .ok b' ∧
      Empty b' (free.filter (end_ ≤ ·)) ∧ Kept b b' ∧ ∀ j, b'.units_[j]? = (b.units_[j]?).map fun v =>
        if j ∈ free ∧ j < end_ then setLabel (UInt8.ofNat (j ^^^ unused_offset)) v else v := by
  intro n
  induction n with
  | zero =>
    intro b free _ _ hn
    exact absurd hn (Nat.not_lt_zero _)
  | succ n ih =>
    intro b free h hend hn
    rw [fixLoop]
    by_cases hlt : b.unfixed_index_ < end_
    · cases free with
      | nil => exact absurd (h.head ▸ hlt) (by simpa using hend)
      | cons x xs =>
        have hx : b.unfixed_index_ = x := h.head_cons
        rw [hx] at hlt ⊢
        have hxs := (List.pairwise_cons.mp h.sorted)
        obtain ⟨b₁, htake, hempty, hunits, hkept⟩ := h.take List.mem_cons_self
        rw [List.erase_cons_head] at hempty
        have hin : x < b.units_.length := h.lt List.mem_cons_self
        have hget : b₁.units_[x]? = some b.units_[x] := by
          rw [hunits, List.getElem?_eq_getElem hin]
        have hset := @setUnit_ok b₁ x _ _
          (fun u => .ok (setLabel (UInt8.ofNat (x ^^^ unused_offset)) u)) hget rfl
        have hlen : (b₁.units_.set x (setLabel (UInt8.ofNat (x ^^^ unused_offset)) b.units_[x])).length =
            b₁.units_.length := List.length_set
        have hfew : (xs.filter (· < end_)).length < n := by
          rw [List.filter_cons_of_pos (by simpa using hlt), List.length_cons] at hn
          omega
        obtain ⟨b', hrest, hempty', hkept', hlabels⟩ := ih (hempty.setUnits hlen)
          (by rw [hlen, hunits]; exact hend) hfew
        refine ⟨b', ?_, ?_, (hkept.trans (Kept.setUnits hlen)).trans hkept', fun j => ?_⟩
        · simp only [if_pos hlt, htake, ok_bind, hset, hrest]
        · rw [List.filter_cons_of_neg (by simpa using hlt)]
          exact hempty'
        · rw [hlabels j]
          by_cases hj : j = x
          · subst hj
            have hout : j ∉ xs := fun hmem => Nat.lt_irrefl j (hxs.1 j hmem)
            simp only [hunits, List.getElem?_set_self hin, List.getElem?_eq_getElem hin,
              Option.map_some, hout, hlt, List.mem_cons_self, false_and, true_and, if_true, if_false]
          · rw [List.getElem?_set_ne (Ne.symm hj), hunits]
            simp [hj]
    · rw [if_neg hlt]
      have hall : ∀ j ∈ free, ¬ j < end_ := by
        cases free with
        | nil => simp
        | cons x xs =>
          rw [h.head_cons] at hlt
          intro j hj
          rcases List.mem_cons.mp hj with rfl | hj
          · exact hlt
          · have := (List.pairwise_cons.mp h.sorted).1 j hj
            omega
      refine ⟨b, rfl, ?_, Kept.refl b, fun j => ?_⟩
      · rwa [List.filter_eq_self.mpr fun j hj => by simpa using hall j hj]
      · have hno : ¬ (j ∈ free ∧ j < end_) := fun hj => hall j hj.1 hj.2
        simp [hno]

theorem findUnused_ok : ∀ {l : List Nat}, (∀ o ∈ l, (b.extras_ o).isSome) →
    (∃ o ∈ l, (b.extra o).is_used = false) →
    ∃ u ∈ l, b.findUnused l = .ok u ∧ (b.extra u).is_used = false := by
  intro l
  induction l with
  | nil =>
    rintro - ⟨o, ho, -⟩
    simp at ho
  | cons o l ih =>
    intro hsome hex
    rw [findUnused, extras_eq (hsome o List.mem_cons_self), ok_bind]
    cases ho : (b.extra o).is_used with
    | false => exact ⟨o, List.mem_cons_self, rfl, ho⟩
    | true =>
      obtain ⟨o', ho', hunused⟩ := hex
      have hin : o' ∈ l := List.mem_of_ne_of_mem (fun he => by rw [he, ho] at hunused; cases hunused) ho'
      obtain ⟨u, hu, hrun, hfree⟩ := ih (fun q hq => hsome q (List.mem_cons_of_mem o hq)) ⟨o', hin, hunused⟩
      exact ⟨u, List.mem_cons_of_mem o hu, hrun, hfree⟩

/-- The first open block is fixed when some base in it is not in use. -/
theorem fixBlock_ok (h : Empty b free) {k : Nat} (hk : k < b.num_of_blocks)
    (hopen : b.num_of_blocks ≤ k + 16) (hfirst : ∀ i ∈ free, 256 * k ≤ i)
    (hunused : ∀ i ∈ free, i / 256 = k → ∃ u, u / 256 = k ∧ (b.extra u).is_used = false) :
    ∃ b' u, b.fixBlock k = .ok b' ∧ Empty b' (free.filter (256 * (k + 1) ≤ ·)) ∧ Kept b b' ∧
      (∀ i ∈ free, i / 256 = k → u / 256 = k ∧ (b.extra u).is_used = false) ∧
      ∀ j, b'.units_[j]? = (b.units_[j]?).map fun v =>
        if j ∈ free ∧ j / 256 = k then setLabel (UInt8.ofNat (j ^^^ u)) v else v := by
  have hsize := h.size
  have hend : k * BLOCK_SIZE + BLOCK_SIZE = 256 * (k + 1) := by
    rw [BLOCK_SIZE]
    omega
  have hblock : ∀ j ∈ free, j / 256 = k ↔ j < 256 * (k + 1) := fun j hj => by
    have := hfirst j hj
    omega
  rw [fixBlock, decide_eq_true hk, assert_true, ok_bind]
  simp only [hend]
  by_cases hnone : b.unfixed_index_ ≥ 256 * (k + 1)
  · -- the block has no empty units
    have hall : ∀ j ∈ free, 256 * (k + 1) ≤ j := by
      cases free with
      | nil => simp
      | cons x xs =>
        rw [h.head_cons] at hnone
        intro j hj
        rcases List.mem_cons.mp hj with rfl | hj
        · exact hnone
        · have := (List.pairwise_cons.mp h.sorted).1 j hj
          omega
    have hout : ∀ j, ¬ (j ∈ free ∧ j / 256 = k) := fun j ⟨hj, hjk⟩ => by
      have := hall j hj
      omega
    refine ⟨b, 0, if_pos hnone, ?_, Kept.refl b, fun j hj hjk => absurd ⟨hj, hjk⟩ (hout j), fun j => ?_⟩
    · rwa [List.filter_eq_self.mpr fun j hj => by simpa using hall j hj]
    · simp [hout j]
  · have hin : ∃ i ∈ free, i / 256 = k := by
      cases free with
      | nil =>
        have hhead := h.head
        rw [List.head?_nil, Option.getD_none] at hhead
        omega
      | cons x xs =>
        rw [h.head_cons] at hnone
        exact ⟨x, List.mem_cons_self, (hblock x List.mem_cons_self).mpr (by omega)⟩
    obtain ⟨i, hi, hik⟩ := hin
    obtain ⟨o, hok, ho⟩ := hunused i hi hik
    have hrange : ∀ q, q ∈ List.range' (k * BLOCK_SIZE) BLOCK_SIZE ↔ q / 256 = k := fun q => by
      rw [List.mem_range'_1, BLOCK_SIZE]
      omega
    have hlive : ∀ q, q / 256 = k → (b.extras_ q).isSome := fun q hq =>
      (h.live q).mpr (by omega)
    obtain ⟨u, hu, hfind, hfree⟩ := @findUnused_ok b _ (fun q hq => hlive q ((hrange q).mp hq))
      ⟨o, (hrange o).mpr hok, ho⟩
    have huk := (hrange u).mp hu
    have hfew : (free.filter (· < 256 * (k + 1))).length < BLOCK_SIZE + 1 := by
      refine Nat.lt_succ_of_le ?_
      have hsub : free.filter (· < 256 * (k + 1)) ⊆ List.range' (k * BLOCK_SIZE) BLOCK_SIZE := by
        intro q hq
        obtain ⟨hq, hlt⟩ := List.mem_filter.mp hq
        exact (hrange q).mpr ((hblock q hq).mpr (by simpa using hlt))
      have hle := (List.subperm_of_subset (h.nodup.sublist List.filter_sublist) hsub).length_le
      rwa [List.length_range'] at hle
    obtain ⟨b', hloop, hempty, hkept, hlabels⟩ := @fixLoop_ok (256 * (k + 1)) u _ b free h
      (by omega) hfew
    refine ⟨b', u, ?_, hempty, hkept, fun _ _ _ => ⟨huk, hfree⟩, fun j => ?_⟩
    · rw [if_neg hnone, hfind, ok_bind, extras_eq (hlive u huk), ok_bind, hfree]
      exact hloop
    · rw [hlabels j]
      refine congrArg (fun f => Option.map f b.units_[j]?) (funext fun v => ?_)
      by_cases hj : j ∈ free
      · simp only [hblock j hj]
      · simp [hj]

end

end DoubleArrayBuilder

end CommonTools.DartsClone
