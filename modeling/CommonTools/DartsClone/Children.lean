import CommonTools.DartsClone.Layout

/-! # Room for new children

The search for an offset tries the empty units in turn as the place of the first child. What
it returns has room for all children, among the empty units or in the next block, and they are
laid out there. -/
namespace CommonTools.DartsClone
open CommonTools.Lib

namespace DoubleArrayBuilder
variable {b : DoubleArrayBuilder} {free : List Nat} {index : Nat} {first : UInt8}
  {others : List UInt8}

/-- A base that is not in use with an empty unit for each label. -/
structure Fits (b : DoubleArrayBuilder) (free : List Nat) (index : Nat) (labels : List UInt8)
    (o : Nat) : Prop where
  live : (b.extras_ o).isSome
  unused : (b.extra o).is_used = false
  free : ∀ l ∈ labels, o ^^^ l.toNat ∈ free
  offset : index ^^^ o < 2 ^ 21 ∨ (index ^^^ o) % 256 = 0

/-- The base of the new block for a node. -/
structure Opens (b : DoubleArrayBuilder) (index : Nat) (o : Nat) : Prop where
  block : o / 256 = b.num_of_blocks
  offset : (index ^^^ o) % 256 = 0

theorem hasCollision_ok {o : Nat} : ∀ {labels : List UInt8},
    (∀ l ∈ labels, (b.extras_ (o ^^^ l.toNat)).isSome) →
    ∃ r, b.hasCollision o labels = .ok r ∧
      (r = false → ∀ l ∈ labels, (b.extra (o ^^^ l.toNat)).is_fixed = false) := by
  intro labels
  induction labels with
  | nil => exact fun _ => ⟨false, rfl, by simp⟩
  | cons l labels ih =>
    intro hsome
    rw [hasCollision, extras_eq (hsome l List.mem_cons_self), ok_bind]
    cases hl : (b.extra (o ^^^ l.toNat)).is_fixed with
    | true => exact ⟨true, rfl, by simp⟩
    | false =>
      obtain ⟨r, hrun, hr⟩ := ih fun l' hl' => hsome l' (List.mem_cons_of_mem l hl')
      refine ⟨r, hrun, fun hfalse => List.forall_mem_cons.mpr ⟨hl, hr hfalse⟩⟩

def fitsAt (b : DoubleArrayBuilder) (index : Nat) (others : List UInt8) (offset_index : Nat) :
    Except Failure Bool :=
  b.extras offset_index >>= fun e =>
    if !e.is_used && ((index ^^^ offset_index) % OFFSET_MAX == 0 ||
        (index ^^^ offset_index) / OFFSET_MAX == 0) then
      b.hasCollision offset_index others >>= fun has_collision => .ok !has_collision
    else .ok false

theorem scanOffsets_succ (n x : Nat) : b.scanOffsets index first others (n + 1) x =
    b.fitsAt index others (x ^^^ first.toNat) >>= fun fits =>
      if fits then .ok (some (x ^^^ first.toNat))
      else b.extras x >>= fun e =>
        if e.next ≠ b.unfixed_index_ then b.scanOffsets index first others n e.next
        else .ok none := by
  rw [scanOffsets, fitsAt]
  cases b.extras (x ^^^ first.toNat) with
  | error e => rfl
  | ok e =>
    simp only [ok_bind]
    split
    · cases b.hasCollision (x ^^^ first.toNat) others <;> rfl
    · rfl

theorem fitsAt_ok (h : Empty b free) {x : Nat} (hx : x ∈ free) :
    ∃ fits, b.fitsAt index others (x ^^^ first.toNat) = .ok fits ∧
      (fits = true → Fits b free index (first :: others) (x ^^^ first.toNat)) := by
  have hlive : ∀ p, p / 256 = x / 256 → (b.extras_ p).isSome := fun p hp => by
    rw [h.live, hp, ← h.live]
    exact h.isSome hx
  have ho := hlive _ (xor_byte_div x first)
  have hothers : ∀ l ∈ others, (b.extras_ (x ^^^ first.toNat ^^^ l.toNat)).isSome := fun l _ =>
    hlive _ (by rw [xor_byte_div, xor_byte_div])
  rw [fitsAt, extras_eq ho, ok_bind]
  split
  · rename_i hc
    rw [Bool.and_eq_true, Bool.or_eq_true, beq_iff_eq, beq_iff_eq, Bool.not_eq_true'] at hc
    obtain ⟨hunused, hoff⟩ := hc
    obtain ⟨r, hrun, hr⟩ := hasCollision_ok hothers
    refine ⟨!r, by rw [hrun, ok_bind], fun hfits => ⟨ho, hunused, ?_, ?_⟩⟩
    · rw [Bool.not_eq_true'] at hfits
      refine List.forall_mem_cons.mpr ⟨by rwa [xor_byte_cancel], fun l hl => ?_⟩
      exact (h.mem _).mpr ⟨hothers l hl, hr hfits l hl⟩
    · rw [show OFFSET_MAX = 2 ^ 21 from rfl] at hoff
      omega
  · exact ⟨false, rfl, fun hf => absurd hf Bool.false_ne_true⟩

theorem scanOffsets_ok (h : Empty b free) : ∀ {post pre : List Nat} {x n : Nat},
    free = pre ++ x :: post → post.length < n →
    ∃ r, b.scanOffsets index first others n x = .ok r ∧
      ∀ o, r = some o → Fits b free index (first :: others) o := by
  intro post
  induction post with
  | nil =>
    intro pre x n hsplit hn
    obtain ⟨m, rfl⟩ := Nat.exists_eq_succ_of_ne_zero (Nat.ne_of_gt hn)
    have hx : x ∈ free := by rw [hsplit]; simp
    obtain ⟨fits, hround, hfits⟩ := @fitsAt_ok b free index first others h x hx
    rw [scanOffsets_succ, hround, ok_bind]
    cases fits with
    | true => exact ⟨_, rfl, fun o ho => Option.some.inj ho ▸ hfits rfl⟩
    | false =>
      have hnext : (b.extra x).next = b.unfixed_index_ := by
        have hlast := (hsplit ▸ h.circle : Circle b.next b.prev (pre ++ [x])).next_last
        rw [h.head, hsplit, List.head?_eq_some_head (by simp), Option.getD_some]
        exact hlast
      refine ⟨none, ?_, fun o ho => by cases ho⟩
      rw [if_neg Bool.false_ne_true, extras_eq (h.isSome hx), ok_bind, if_neg (not_not.mpr hnext)]
  | cons y post ih =>
    intro pre x n hsplit hn
    obtain ⟨m, rfl⟩ := Nat.exists_eq_succ_of_ne_zero (Nat.ne_of_gt (Nat.lt_of_le_of_lt (Nat.zero_le _) hn))
    have hx : x ∈ free := by rw [hsplit]; simp
    obtain ⟨fits, hround, hfits⟩ := @fitsAt_ok b free index first others h x hx
    rw [scanOffsets_succ, hround, ok_bind]
    cases fits with
    | true => exact ⟨_, rfl, fun o ho => Option.some.inj ho ▸ hfits rfl⟩
    | false =>
      have hnext : (b.extra x).next = y :=
        (hsplit ▸ h.circle : Circle b.next b.prev (pre ++ x :: y :: post)).next_eq
      have hne : y ≠ b.unfixed_index_ := by
        have hsorted := hsplit ▸ h.sorted
        rw [h.head, hsplit]
        have hxy : x < y := (List.pairwise_cons.mp (List.pairwise_append.mp hsorted).2.1).1 y
          List.mem_cons_self
        cases pre with
        | nil => exact Nat.ne_of_gt hxy
        | cons z pre =>
          have hzx := (List.pairwise_cons.mp hsorted).1 x (by simp)
          exact Nat.ne_of_gt (hzx.trans hxy)
      rw [if_neg Bool.false_ne_true, extras_eq (h.isSome hx), ok_bind, hnext, if_pos hne]
      exact @ih (pre ++ [x]) y m (by rw [hsplit]; simp) (by simpa using hn)

theorem opens_ok (h : Empty b free) (index : Nat) :
    Opens b index (b.num_of_units ||| (index &&& 0xFF)) := by
  have hmod : index &&& 0xFF = index % 256 := Nat.and_two_pow_sub_one_eq_mod index 8
  have hlt : index % 256 < 2 ^ 8 := Nat.mod_lt _ (by decide)
  have hor : b.num_of_units ||| (index &&& 0xFF) = 256 * b.num_of_blocks + index % 256 := by
    rw [hmod, num_of_units, h.size]
    exact (Nat.two_pow_add_eq_or_of_lt hlt _).symm
  rw [hor]
  refine ⟨by omega, ?_⟩
  have hxor := @Nat.xor_mod_two_pow index (256 * b.num_of_blocks + index % 256) 8
  rw [hxor, show (2 : Nat) ^ 8 = 256 from rfl, Nat.mul_add_mod, Nat.mod_mod, Nat.xor_self]

theorem findOffsetIndex_ok (h : Empty b free) (index : Nat) (first : UInt8)
    (others : List UInt8) : ∃ o, b.findOffsetIndex index (first :: others) = .ok o ∧
      (Fits b free index (first :: others) o ∨ Opens b index o) := by
  have hopens := opens_ok h index
  rw [findOffsetIndex]
  by_cases hany : b.unfixed_index_ < b.num_of_units
  · cases free with
    | nil => exact absurd (h.head ▸ hany) (Nat.lt_irrefl _)
    | cons x xs =>
      have hlen : xs.length < b.num_of_units := by
        have hsub := (List.subperm_of_subset h.nodup fun q hq => List.mem_range.mpr (h.lt hq)).length_le
        rw [List.length_range, List.length_cons] at hsub
        exact hsub
      obtain ⟨r, hrun, hr⟩ := @scanOffsets_ok b _ index first others h xs [] x _ rfl hlen
      rw [h.head_cons] at hany ⊢
      simp only [if_pos hany, List.head?_cons, List.tail_cons, defined_some, ok_bind, hrun]
      cases r with
      | none => exact ⟨_, rfl, .inr hopens⟩
      | some o => exact ⟨o, rfl, .inl (hr o rfl)⟩
  · simp only [if_neg hany, ok_bind]
    exact ⟨_, rfl, .inr hopens⟩

/-! ## Reserved units -/

theorem reserveIndex_old {i : Nat} (hi : i < b.num_of_units) :
    b.reserveIndex i = b.takeIndex i := if_neg (Nat.not_le.mpr hi)

theorem reserveIndex_new {i : Nat} {b' : DoubleArrayBuilder} (hi : b.num_of_units ≤ i)
    (hrun : b.expandTrie = .ok b') : b.reserveIndex i = b'.takeIndex i := by
  rw [reserveIndex]
  simp only [if_pos hi, hrun, ok_bind]

/-- The units of the children are taken when all are empty. -/
theorem reserveChildren_ok {o : Nat} : ∀ {rest : List (UInt8 × List DoubleArrayKey)}
    {b : DoubleArrayBuilder} {free : List Nat} {range_stack : List DoubleArrayKeyRange},
    Empty b free → (∀ x ∈ rest, o ^^^ x.1.toNat ∈ free) → (rest.map Prod.fst).Nodup →
    ∃ b' free', reserveChildren o rest b range_stack =
        .ok (b', (rest.map fun x => ⟨x.2, o ^^^ x.1.toNat⟩).reverse ++ range_stack) ∧
      Empty b' free' ∧ Kept b b' ∧
      (∀ p, p ∈ free' ↔ p ∈ free ∧ ∀ c ∈ rest.map Prod.fst, p ≠ o ^^^ c.toNat) ∧
      (∀ p, (∀ c ∈ rest.map Prod.fst, p ≠ o ^^^ c.toNat) → b'.unit p = b.unit p) ∧
      ∀ c ∈ rest.map Prod.fst, b'.unit (o ^^^ c.toNat) = setLabel c (b.unit (o ^^^ c.toNat)) := by
  intro rest
  induction rest with
  | nil =>
    intro b free range_stack h _ _
    exact ⟨b, free, rfl, h, Kept.refl b, by simp, fun _ _ => rfl, by simp⟩
  | cons x rest ih =>
    obtain ⟨l, keys⟩ := x
    intro b free range_stack h hfree hnd
    have hl : o ^^^ l.toNat ∈ free := hfree _ List.mem_cons_self
    have hlt := h.lt hl
    rw [List.map_cons, List.nodup_cons] at hnd
    have hne : ∀ c ∈ rest.map Prod.fst, o ^^^ c.toNat ≠ o ^^^ l.toNat := fun c hc he => by
      have hcl := UInt8.toNat_inj.mp (Nat.xor_right_injective he)
      exact hnd.1 (hcl ▸ hc)
    obtain ⟨b₁, htake, hempty, hunits, hkept⟩ := h.take hl
    have hunit₁ : ∀ p, b₁.unit p = b.unit p := fun p => by rw [unit, unit, hunits]
    obtain ⟨b₂, hset, hwritten⟩ := @setUnit_written b₁ (o ^^^ l.toNat) _
      (fun u => .ok (setLabel l u)) (by rw [hunits]; exact hlt) rfl
    have hunit₂ : ∀ p, b₂.unit p = if p = o ^^^ l.toNat then setLabel l (b.unit (o ^^^ l.toNat))
        else b.unit p := fun p => by rw [hwritten.unit, hunit₁, hunit₁]
    obtain ⟨b', free', hrun, hempty', hkept', hmem, hold, hnew⟩ := @ih b₂ _
      (⟨keys, o ^^^ l.toNat⟩ :: range_stack) (hwritten.empty hempty) (fun x hx => by
        refine (h.nodup.mem_erase_iff).mpr ⟨hne _ (List.mem_map_of_mem hx), ?_⟩
        exact hfree x (List.mem_cons_of_mem _ hx)) hnd.2
    refine ⟨b', free', ?_, hempty', (hkept.trans hwritten.kept).trans hkept', fun p => ?_,
      fun p hp => ?_, fun c hc => ?_⟩
    · rw [reserveChildren]
      simp only [reserveIndex_old hlt, htake, ok_bind, hset, hrun]
      simp
    · rw [hmem, h.nodup.mem_erase_iff, List.map_cons, List.forall_mem_cons]
      tauto
    · rw [List.map_cons, List.forall_mem_cons] at hp
      rw [hold p hp.2, hunit₂, if_neg hp.1]
    · rw [List.map_cons, List.mem_cons] at hc
      rcases hc with rfl | hc
      · rw [hold _ fun c' hc' he => hne c' hc' he.symm, hunit₂, if_pos rfl]
      · rw [hnew c hc, hunit₂, if_neg (hne c hc)]

/-- The first child in a new block brings the block. -/
theorem reserveChildren_expand {o : Nat} {x : UInt8 × List DoubleArrayKey}
    {rest : List (UInt8 × List DoubleArrayKey)} {range_stack : List DoubleArrayKeyRange}
    {b' : DoubleArrayBuilder} (hx : b.num_of_units ≤ o ^^^ x.1.toNat)
    (hx' : o ^^^ x.1.toNat < b'.num_of_units) (hrun : b.expandTrie = .ok b') :
    reserveChildren o (x :: rest) b range_stack =
      reserveChildren o (x :: rest) b' range_stack := by
  obtain ⟨l, keys⟩ := x
  rw [reserveChildren, reserveChildren, reserveIndex_new hx hrun, reserveIndex_old hx']

theorem setUsed_ok (h : Empty b free) {o : Nat} (ho : (b.extras_ o).isSome) :
    ∃ b', (b.setExtra o fun e => { e with is_used := true }) = .ok b' ∧ Empty b' free ∧
      b'.units_ = b.units_ ∧ (∀ j, (b'.extras_ j).isSome = (b.extras_ j).isSome) ∧
      ∀ j, (b.extras_ j).isSome → (b'.extra j).is_used = ((b.extra j).is_used || decide (j = o)) := by
  refine ⟨_, setExtra_eq ho _, ⟨h.size, fun i => ?_, h.head, h.sorted, fun i => ?_, ?_⟩, rfl,
    fun j => isSome_mapExtras, fun j hj => ?_⟩
  · rw [isSome_mapExtras]
    exact h.live i
  · rw [isSome_mapExtras, extra_setExtra ho, h.mem]
    split <;> rfl
  · refine h.circle.congr (fun p _ => ?_) fun p _ => ?_
    · rw [next, extra_setExtra ho]
      split <;> rfl
    · rw [prev, extra_setExtra ho]
      split <;> rfl
  · rw [extra_setExtra ho]
    by_cases hjo : j = o <;> simp [hjo]

/-! ## A node with its children -/

/-- The end of a round for a range: the children and the mark of their base. -/
def placeChildren (b : DoubleArrayBuilder) (o : Nat) (rest : List (UInt8 × List DoubleArrayKey))
    (range_stack : List DoubleArrayKeyRange) :
    Except Failure (DoubleArrayBuilder × List DoubleArrayKeyRange) := do
  let (b, range_stack) ← reserveChildren o rest b range_stack
  let b ← b.setExtra o fun e => { e with is_used := true }
  .ok (b, range_stack)

namespace Laid
variable {σ : Type} {has : σ → UInt8 → Prop} {owner : Nat → Option σ} {s : σ} {o : Nat}
  {rest : List (UInt8 × List DoubleArrayKey)} {range_stack : List DoubleArrayKeyRange}

/-- A state is laid out among the empty units. -/
theorem place_free (h : Laid has owner b free) (ho : owner o = none)
    (hlive : (b.extras_ o).isSome) (hhas : ∀ c, c ∈ rest.map Prod.fst ↔ has s c)
    (hne : rest ≠ []) (hnd : (rest.map Prod.fst).Nodup) (hfree : ∀ c, has s c → o ^^^ c.toNat ∈ free) :
    ∃ b' free', b.placeChildren o rest range_stack =
        .ok (b', (rest.map fun x => ⟨x.2, o ^^^ x.1.toNat⟩).reverse ++ range_stack) ∧
      Laid has (Function.update owner o (some s)) b' free' ∧ Grown b free b' free' ∧
      b'.units_.length = b.units_.length := by
  obtain ⟨b₁, free₁, hrun, hempty, hkept, hmem, hold, hnew⟩ :=
    @reserveChildren_ok o rest b free range_stack h.empty
      (fun x hx => hfree _ ((hhas _).mp (List.mem_map_of_mem hx))) hnd
  obtain ⟨b', hset, hempty', hunits, hsome, hused⟩ := setUsed_ok hempty
    (show (b₁.extras_ o).isSome by rwa [(hkept.extras o).1])
  have hunit : ∀ p, b'.unit p = b₁.unit p := fun p => by rw [unit, unit, hunits]
  have hcell : ∀ p, (∀ c ∈ rest.map Prod.fst, p ≠ o ^^^ c.toNat) ↔
      ¬ ∃ c, has s c ∧ p = o ^^^ c.toNat := fun p => by
    rw [not_exists]
    refine forall_congr' fun c => ?_
    rw [hhas c, not_and]
  have hfixed : ∀ p, b'.Fixed free₁ p ↔ b.Fixed free p ∨ ∃ c, has s c ∧ p = o ^^^ c.toNat := by
    intro p
    rw [Fixed, Fixed, hunits, hkept.size, hmem, hcell, not_and_or, not_not, and_or_left]
    refine or_congr_right (and_iff_right_of_imp ?_)
    rintro ⟨c, hc, rfl⟩
    exact h.empty.lt (hfree c hc)
  have hsame : ∀ p, b.Fixed free p → b'.unit p = b.unit p := fun p hp => by
    refine (hunit p).trans (hold p ((hcell p).mpr ?_))
    rintro ⟨c, hc, rfl⟩
    exact hp.2 (hfree c hc)
  have hmarks : ∀ p, isLeaf (b'.unit p) = isLeaf (b.unit p) ∧
      isEnd (b'.unit p) = isEnd (b.unit p) := fun p => by
    rw [hunit]
    by_cases hp : ∃ c, has s c ∧ p = o ^^^ c.toNat
    · obtain ⟨c, hc, rfl⟩ := hp
      rw [hnew c ((hhas c).mpr hc)]
      exact ⟨isLeaf_setLabel, isEnd_setLabel⟩
    · rw [hold p ((hcell p).mpr hp)]
      exact ⟨rfl, rfl⟩
  refine ⟨b', free₁, ?_, ⟨hempty', ?_, fun j hj => ?_⟩, ⟨fun p hp => (hfixed p).mpr (.inl hp), hsame,
    fun p => (hmarks p).1, fun p => (hmarks p).2⟩, by rw [hunits, hkept.size]⟩
  · rw [placeChildren, hrun, ok_bind]
    simp only [hset, ok_bind]
  · refine h.table.place ho ?_ (fun c hc hfix => hfix.2 (hfree c hc)) hfixed
      (fun p hp => congrArg label (hsame p hp)) fun c hc => ?_
    · obtain ⟨x, hx⟩ := List.exists_mem_of_ne_nil rest hne
      exact ⟨x.1, (hhas _).mp (List.mem_map_of_mem hx)⟩
    · rw [labelAt, hunit, hnew c ((hhas c).mpr hc), label_setLabel]
  · rw [hsome, (hkept.extras j).1] at hj
    rw [hused j (by rwa [(hkept.extras j).1]), (hkept.extras j).2]
    by_cases hjo : j = o
    · simp [hjo]
    · rw [Function.update_of_ne hjo, ← h.used j hj]
      simp [hjo]

/-- A state is laid out where the search for an offset says. -/
theorem place (h : Laid has owner b free) {index : Nat} {labels : List UInt8}
    (ho : Fits b free index labels o ∨ Opens b index o)
    (hlabels : ∀ c, has s c → c ∈ labels) (hhas : ∀ c, c ∈ rest.map Prod.fst ↔ has s c)
    (hne : rest ≠ []) (hnd : (rest.map Prod.fst).Nodup) :
    ∃ b' free', b.placeChildren o rest range_stack =
        .ok (b', (rest.map fun x => ⟨x.2, o ^^^ x.1.toNat⟩).reverse ++ range_stack) ∧
      Laid has (Function.update owner o (some s)) b' free' ∧ Grown b free b' free' ∧
      b.units_.length ≤ b'.units_.length ∧ b'.units_.length ≤ b.units_.length + 256 ∧
      owner o = none := by
  rcases ho with hfits | hopens
  · have hnone : owner o = none := by
      rw [← Option.not_isSome_iff_eq_none, ← h.used o hfits.live, hfits.unused]
      exact Bool.false_ne_true
    obtain ⟨b', free', hrun, hlaid, hgrown, hlen⟩ := @place_free b free σ has owner s o rest range_stack
      h hnone hfits.live hhas hne hnd fun c hc => hfits.free c (hlabels c hc)
    exact ⟨b', free', hrun, hlaid, hgrown, by omega, by omega, hnone⟩
  · obtain ⟨b₁, free₁, hrun₁, hlaid₁, hgrown₁, hlen₁, hnew₁⟩ := h.expandTrie
    have hsize := h.empty.size
    have hsize₁ := hlaid₁.empty.size
    have hblock := hopens.block
    have hnone : owner o = none := by
      rw [← Option.not_isSome_iff_eq_none]
      intro hsome
      have := h.base_lt hsome
      omega
    have hcell : ∀ c : UInt8, b.units_.length ≤ o ^^^ c.toNat ∧
        o ^^^ c.toNat < b.units_.length + 256 := fun c => by
      have hdiv := xor_byte_div o c
      omega
    obtain ⟨b', free', hrun, hlaid, hgrown, hlen⟩ := @place_free b₁ free₁ σ has owner s o rest
      range_stack hlaid₁ hnone ((hlaid₁.empty.live o).mpr (by omega)) hhas hne hnd
      fun c _ => hnew₁ _ (hcell c).1 (hcell c).2
    obtain ⟨x, rest, rfl⟩ := List.exists_cons_of_ne_nil hne
    refine ⟨b', free', ?_, hlaid, hgrown₁.trans hgrown, by omega, by omega, hnone⟩
    rw [placeChildren, reserveChildren_expand (hcell x.1).1 ?_ hrun₁]
    · exact hrun
    · show _ < b₁.units_.length
      rw [hlen₁]
      exact (hcell x.1).2

end Laid

end DoubleArrayBuilder

end CommonTools.DartsClone
