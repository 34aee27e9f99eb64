import CommonTools.DartsClone.Ranges
import CommonTools.DartsClone.Children

/-! # The trie of the keys

While the trie is built, its nodes are laid out from the root on. A node is on the stack, is a
leaf with its key, or has the offset of its children. In the end no node is on the stack. -/
namespace CommonTools.DartsClone
open CommonTools.Lib DoubleArrayBuilder

/-- The labels below a node; the units 0 and 1 are reserved. -/
def Has (keys_ : List DoubleArrayKey) : Option Bytes → UInt8 → Prop
  | none, c => c = 0 ∨ c = 1
  | some v, c => ∃ k ∈ keys_, v ++ [c] <+: k.full

/-- The unit `p` is the node for the prefix `v`. -/
def At (keys_ : List DoubleArrayKey) (owner : Nat → Option (Option Bytes)) (p : Nat)
    (v : Bytes) : Prop :=
  p = 0 ∧ v = [] ∨ ∃ w c, v = w ++ [c] ∧ owner (p ^^^ c.toNat) = some (some w) ∧
    Has keys_ (some w) c

/-- The bytes that leaves with suffixes and values take, with one more for each key. -/
def bytesOf (keys : List DoubleArrayKey) : Nat := (keys.map fun k => k.key_.length + 5).sum

/-- The rounds that the ranges on the stack can take. -/
def weight (range_stack : List DoubleArrayKeyRange) : Nat :=
  (range_stack.map fun r => 1 + (r.keys.map fun k => k.key_.length).sum).sum

section
variable {keys_ : List DoubleArrayKey} {owner : Nat → Option (Option Bytes)} {p o : Nat}
  {v v' : Bytes} {c : UInt8} {b b' : DoubleArrayBuilder} {free : List Nat}

theorem weight_cons (r : DoubleArrayKeyRange) (range_stack : List DoubleArrayKeyRange) :
    weight (r :: range_stack) =
      1 + (r.keys.map fun k => k.key_.length).sum + weight range_stack := by
  rw [weight, List.map_cons, List.sum_cons, ← weight]

theorem bytesOf_append (ks keys : List DoubleArrayKey) :
    bytesOf (ks ++ keys) = bytesOf ks + bytesOf keys := by
  rw [bytesOf, List.map_append, List.sum_append, ← bytesOf, ← bytesOf]

theorem bytesOf_incr (keys : List DoubleArrayKey) :
    bytesOf (keys.map DoubleArrayKey.incr) ≤ bytesOf keys := by
  induction keys with
  | nil => exact Nat.le_refl _
  | cons k keys ih =>
    have hlen : k.incr.key_.length ≤ k.key_.length := by
      rw [DoubleArrayKey.key_, DoubleArrayKey.key_, List.length_drop, List.length_drop]
      show (k.text ++ [0]).length - (k.moved + 1) ≤ _
      omega
    rw [bytesOf, bytesOf] at ih
    rw [bytesOf, bytesOf, List.map_cons, List.map_cons, List.sum_cons, List.map_cons, List.sum_cons]
    omega

theorem weight_append (rs range_stack : List DoubleArrayKeyRange) :
    weight (rs ++ range_stack) = weight rs + weight range_stack := by
  rw [weight, List.map_append, List.sum_append, ← weight, ← weight]

/-! ## Nodes -/

theorem At.update (h : At keys_ owner p v) (ho : owner o = none) (s : Option (Option Bytes)) :
    At keys_ (Function.update owner o s) p v := by
  refine h.imp id fun ⟨w, c, hv, hw, hc⟩ => ⟨w, c, hv, ?_, hc⟩
  rw [Function.update_of_ne, hw]
  rintro rfl
  rw [hw] at ho
  cases ho

/-- A new node is a child of the state that has been placed. -/
theorem At.of_update (h : At keys_ (Function.update owner o (some (some v))) p v') :
    At keys_ owner p v' ∨ ∃ c, Has keys_ (some v) c ∧ p = o ^^^ c.toNat ∧ v' = v ++ [c] := by
  rcases h with h | ⟨w, c, rfl, hw, hc⟩
  · exact .inl (.inl h)
  · by_cases hp : p ^^^ c.toNat = o
    · rw [hp, Function.update_self, Option.some.injEq, Option.some.injEq] at hw
      exact .inr ⟨c, hw ▸ hc, xor_byte_eq_iff.mp hp, by rw [hw]⟩
    · rw [Function.update_of_ne hp] at hw
      exact .inl (.inr ⟨w, c, rfl, hw, hc⟩)

theorem At.child (ho : owner o = some (some v)) (hc : Has keys_ (some v) c) :
    At keys_ owner (o ^^^ c.toNat) (v ++ [c]) :=
  .inr ⟨v, c, rfl, by rw [xor_byte_cancel, ho], hc⟩

section
variable {fixed : Nat → Prop} {label : Nat → UInt8}
  (h : XorTable (Has keys_) owner fixed label) (hroot : owner 0 = some none)
include h hroot

theorem At.isFixed (hp : At keys_ owner p v) : fixed p := by
  rcases hp with ⟨rfl, -⟩ | ⟨w, c, -, hw, hc⟩
  · exact (h.child hroot (.inl rfl : Has keys_ none 0)).1
  · have hfix := (h.child hw hc).1
    rwa [xor_byte_cancel] at hfix

theorem At.of_cell (ho : owner o = some (some v)) (hc : Has keys_ (some v) c)
    (hp : At keys_ owner (o ^^^ c.toNat) v') : v' = v ++ [c] := by
  rcases hp with ⟨hp, -⟩ | ⟨w, d, rfl, hw, hd⟩
  · obtain ⟨hbase, -⟩ := h.base_unique ho hc hroot (.inl rfl : Has keys_ none 0) hp
    rw [hbase, hroot] at ho
    cases ho
  · obtain ⟨hbase, rfl⟩ := h.base_unique ho hc hw hd (by rw [xor_byte_cancel])
    rw [← hbase, ho, Option.some.injEq, Option.some.injEq] at hw
    rw [hw]

theorem At.ne_one (hp : At keys_ owner p v) : p ≠ 1 := by
  rintro rfl
  rcases hp with ⟨hp, -⟩ | ⟨w, c, -, hw, hc⟩
  · exact Nat.one_ne_zero hp
  · obtain ⟨hbase, -⟩ := h.base_unique (c := 1) hroot (.inr rfl : Has keys_ none 1) hw hc
      (by rw [xor_byte_cancel]; rfl)
    rw [← hbase, hroot] at hw
    cases hw

theorem At.unique (hp : At keys_ owner p v) (hp' : At keys_ owner p v') : v = v' := by
  rcases hp with ⟨rfl, rfl⟩ | ⟨w, c, rfl, hw, hc⟩
  · rcases hp' with ⟨-, rfl⟩ | ⟨w, c, -, hw, hc⟩
    · rfl
    · obtain ⟨hbase, -⟩ := h.base_unique (c := 0) hroot (.inl rfl : Has keys_ none 0) hw hc
        (by rw [xor_byte_cancel]; rfl)
      rw [← hbase, hroot] at hw
      cases hw
  · have hat : At keys_ owner (p ^^^ c.toNat ^^^ c.toNat) v' := by rwa [xor_byte_cancel]
    exact (At.of_cell h hroot hw hc hat).symm

end

/-! ## One node -/

/-- What a round does for a node that is no leaf: `o` becomes the base of its children. -/
structure Arranged (keys_ : List DoubleArrayKey) (owner : Nat → Option (Option Bytes))
    (b : DoubleArrayBuilder) (free : List Nat) (p : Nat) (v : Bytes)
    (range_stack : List DoubleArrayKeyRange) (o : Nat) (b' : DoubleArrayBuilder)
    (free' : List Nat) (labels : List UInt8) (range_stack' : List DoubleArrayKeyRange) : Prop where
  base : owner o = none
  laid : Laid (Has keys_) (Function.update owner o (some (some v))) b' free'
  offset : offset (b'.unit p) = p ^^^ o
  unit : ∀ q, q ≠ p → b.Fixed free q → b'.unit q = b.unit q
  leaf : ∀ q, isLeaf (b'.unit q) = isLeaf (b.unit q)
  ends : ∀ q, isEnd (b'.unit q) = true ↔
    isEnd (b.unit q) = true ∨ q = p ∧ Has keys_ (some v) 0
  lower : b.units_.length ≤ b'.units_.length
  upper : b'.units_.length ≤ b.units_.length + 256
  mem : ∀ c, c ∈ labels ↔ Has keys_ (some v) c
  nodup : labels.Nodup
  stack : range_stack' =
    labels.map (fun c => ⟨under keys_ (v ++ [c]), o ^^^ c.toNat⟩) ++ range_stack
  flatten : (labels.map fun c => under keys_ (v ++ [c])).flatten =
    (under keys_ v).map DoubleArrayKey.incr
  weight : weight range_stack' < weight (⟨under keys_ v, p⟩ :: range_stack)

theorem has_iff (hkeys : Keys keys_) (hv : v = [] ∨ (under keys_ v).length ≠ 1) :
    Has keys_ (some v) c ↔ ∃ k ∈ under keys_ v, k.head = c := by
  constructor
  · rintro ⟨k, hk, hp⟩
    obtain ⟨hpv, hc⟩ := concat_prefix_iff.mp hp
    refine ⟨_, Keys.mem_under.mpr ⟨k, hk, hpv, rfl⟩, ?_⟩
    rw [DoubleArrayKey.head, char_zero]
    exact congrArg (fun x => Option.getD x 0) hc
  · rintro ⟨k, hk, rfl⟩
    have hchar := hkeys.char_under hv hk
    obtain ⟨k₀, hk₀, hp, rfl⟩ := Keys.mem_under.mp hk
    rw [char_zero] at hchar
    exact ⟨k₀, hk₀, concat_prefix_iff.mpr ⟨hp, hchar⟩⟩

/-- The ranges of the children are shorter by a character for each key. -/
theorem weight_children {labels : List UInt8} {keys : List DoubleArrayKey}
    {g : UInt8 → List DoubleArrayKey} {q : UInt8 → Nat}
    (hflat : (labels.map g).flatten = keys.map DoubleArrayKey.incr)
    (hne : ∀ c ∈ labels, g c ≠ []) (hkeys : ∀ k ∈ keys, k.char 0 ≠ none) :
    weight (labels.map fun c => ⟨g c, q c⟩) ≤ (keys.map fun k => k.key_.length).sum := by
  have hsplit : weight (labels.map fun c => ⟨g c, q c⟩) =
      labels.length + ((labels.map g).flatten.map fun k => k.key_.length).sum := by
    clear hflat hne
    induction labels with
    | nil => rfl
    | cons c labels ih =>
      rw [List.map_cons, weight_cons, ih, List.map_cons, List.flatten_cons, List.map_append,
        List.sum_append, List.length_cons]
      show 1 + ((g c).map fun k => k.key_.length).sum + _ = _
      omega
  have hcount : labels.length ≤ keys.length := by
    have hlen := congrArg List.length hflat
    rw [List.length_map] at hlen
    rw [← hlen]
    clear hflat hlen hsplit
    induction labels with
    | nil => exact Nat.le_refl 0
    | cons c labels ih =>
      rw [List.forall_mem_cons] at hne
      have hpos := List.length_pos_of_ne_nil hne.1
      have hrest := ih hne.2
      rw [List.map_cons, List.flatten_cons, List.length_append, List.length_cons]
      omega
  have hsum : keys.length + ((keys.map DoubleArrayKey.incr).map fun k => k.key_.length).sum =
      (keys.map fun k => k.key_.length).sum := by
    clear hflat hcount
    induction keys with
    | nil => rfl
    | cons k keys ih =>
      rw [List.forall_mem_cons] at hkeys
      have hrest := ih hkeys.2
      have hpos : 0 < k.key_.length := by
        refine List.length_pos_of_ne_nil fun hnil => hkeys.1 ?_
        rw [DoubleArrayKey.char, hnil]
        rfl
      have hincr : k.incr.key_.length = k.key_.length - 1 := by
        rw [DoubleArrayKey.key_, DoubleArrayKey.key_, List.length_drop, List.length_drop]
        exact Nat.sub_add_eq _ _ _
      rw [List.map_cons, List.map_cons, List.sum_cons, List.map_cons, List.sum_cons, List.length_cons]
      omega
  rw [hsplit, hflat]
  omega

theorem arrange_eq {r : DoubleArrayKeyRange} {range_stack : List DoubleArrayKeyRange}
    {first : UInt8} {l : Listing} (hfirst : (r.keys.head?.bind fun k => k.char 0) = some first)
    (hlist : listRanges r.keys ⟨[first], [], []⟩ = some l)
    (hcount : l.labels.length = l.next_ranges.length) : b.arrange r range_stack =
      (if first = 0 then b.setUnit r.index fun u => .ok (setIsEnd u) else .ok b) >>= fun b₁ =>
      b₁.findOffsetIndex r.index l.labels >>= fun o =>
      b₁.setUnit r.index (setOffset (r.index ^^^ o)) >>= fun b₂ =>
      b₂.placeChildren o (l.labels.zip l.next_ranges).reverse range_stack := by
  rw [arrange, hfirst]
  simp only [defined_some, ok_bind, hlist, hcount, beq_self_eq_true, assert_true]
  split <;> rfl

theorem DoubleArrayBuilder.Written.room {u : BitVec 32} {labels : List UInt8} (hw : Written b p u b')
    (ho : Fits b free p labels o ∨ Opens b p o) : Fits b' free p labels o ∨ Opens b' p o := by
  rw [hw.rest]
  exact ho.imp (fun h => ⟨h.live, h.unused, h.free, h.offset⟩) fun h => ⟨h.block, h.offset⟩

theorem DoubleArrayBuilder.Written.trans {b₁ : DoubleArrayBuilder} {u u₁ : BitVec 32}
    (h₁ : Written b p u₁ b₁) (h : Written b₁ p u b') : Written b p u b' := by
  refine ⟨h.size.trans h₁.size, ?_, fun q => ?_⟩
  · rw [h.rest, h₁.rest]
  · rw [h.unit, h₁.unit]
    split <;> rfl

/-- The mark of a key that ends at a node. -/
theorem setEnd_written {P : Prop} [Decidable P] (hp : p < b.units_.length) :
    ∃ b₁ u, (if P then b.setUnit p (fun u => .ok (setIsEnd u)) else .ok b) = .ok b₁ ∧
      Written b p u b₁ ∧ label u = label (b.unit p) ∧ isLeaf u = isLeaf (b.unit p) ∧
        (isEnd u = true ↔ isEnd (b.unit p) = true ∨ P) := by
  by_cases hend : P
  · obtain ⟨b₁, hset, hw⟩ := @setUnit_written b p _ (fun u => .ok (setIsEnd u)) hp rfl
    exact ⟨b₁, _, by rw [if_pos hend, hset], hw, label_setIsEnd, isLeaf_setIsEnd,
      iff_of_true isEnd_setIsEnd (.inr hend)⟩
  · refine ⟨b, b.unit p, if_neg hend, ⟨rfl, rfl, fun q => ?_⟩, rfl, rfl, (or_iff_left hend).symm⟩
    split
    · rename_i hq
      rw [hq]
    · rfl

/-- In an array of fewer than `2 ^ 29` units every offset is one that a unit can hold. -/
theorem offset_lt {labels : List UInt8} (h : Laid (Has keys_) owner b free)
    (hp : p < b.units_.length) (ho : Fits b free p labels o ∨ Opens b p o)
    (hsmall : b.units_.length + 256 ≤ 2 ^ 29) : p ^^^ o < 2 ^ 29 := by
  have hsize := h.empty.size
  refine Nat.xor_lt_two_pow (by omega) ?_
  rcases ho with hfits | hopens
  · have := ((h.empty.live o).mp hfits.live).1
    omega
  · have := hopens.block
    omega

section
variable (hkeys : Keys keys_) (hv : v = [] ∨ (under keys_ v).length ≠ 1)
include hkeys hv

/-- The labels that are listed are those below the node, each with the range of its child. -/
theorem listRanges_under (hne : under keys_ v ≠ []) : ∃ first l,
    ((under keys_ v).head?.bind fun k => k.char 0) = some first ∧
    (first = 0 ↔ Has keys_ (some v) 0) ∧
    listRanges (under keys_ v) ⟨[first], [], []⟩ = some l ∧
    l.next_ranges = l.labels.map (fun c => under keys_ (v ++ [c])) ∧
    (∀ c, c ∈ l.labels ↔ Has keys_ (some v) c) ∧ l.labels.Nodup ∧ l.labels ≠ [] ∧
    (l.labels.map fun c => under keys_ (v ++ [c])).flatten =
      (under keys_ v).map DoubleArrayKey.incr := by
  have hchar := fun k hk => hkeys.char_under hv (k := k) hk
  have hsorted := hkeys.sorted_under hv
  obtain ⟨k, rest, hcons⟩ := List.exists_cons_of_ne_nil hne
  have hk : k ∈ under keys_ v := by
    rw [hcons]
    exact List.mem_cons_self
  obtain ⟨l, hlist, hcut⟩ := @listRanges_ok DoubleArrayKey.head k rest (hcons ▸ hchar)
    (hcons ▸ hsorted)
  rw [← hcons] at hlist hcut
  have hranges : l.next_ranges = l.labels.map fun c => under keys_ (v ++ [c]) := by
    rw [hcut.ranges]
    exact List.map_congr_left fun c _ => hkeys.group_under hv c
  refine ⟨k.head, l, ?_, ?_, hlist, hranges, fun c => ?_, hcut.sorted.imp UInt8.ne_of_lt, ?_, ?_⟩
  · have hhead := hchar k hk
    rw [hcons]
    exact hhead
  · -- the smallest label comes first
    rw [has_iff hkeys hv]
    refine ⟨fun hz => ⟨k, hk, hz⟩, ?_⟩
    rintro ⟨k', hk', hz⟩
    rw [hcons] at hsorted hk'
    rcases List.mem_cons.mp hk' with rfl | hk'
    · exact hz
    · have hle := (List.pairwise_cons.mp hsorted).1 k' hk'
      rw [hz] at hle
      exact UInt8.toNat_inj.mp (Nat.le_zero.mp (UInt8.le_iff_toNat_le.mp hle))
  · rw [hcut.mem, has_iff hkeys hv]
  · exact List.ne_nil_of_mem ((hcut.mem k.head).mpr ⟨k, hk, rfl⟩)
  · rw [← hranges, hcut.flatten]

/-- With its children in the place of a node, fewer rounds are left. -/
theorem weight_arranged {labels : List UInt8} (hlabels : ∀ c, c ∈ labels ↔ Has keys_ (some v) c)
    (hflat : (labels.map fun c => under keys_ (v ++ [c])).flatten =
      (under keys_ v).map DoubleArrayKey.incr) (range_stack : List DoubleArrayKeyRange) :
    weight (labels.map (fun c => ⟨under keys_ (v ++ [c]), o ^^^ c.toNat⟩) ++ range_stack) <
      weight (⟨under keys_ v, p⟩ :: range_stack) := by
  have hle := @weight_children labels (under keys_ v) (fun c => under keys_ (v ++ [c]))
    (fun c => o ^^^ c.toNat) hflat (fun c hc => ?_)
    fun k hk => by rw [hkeys.char_under hv hk]; exact Option.some_ne_none _
  · rw [weight_append, weight_cons]
    dsimp only
    omega
  · obtain ⟨k₀, hk₀, hpre⟩ := (hlabels c).mp hc
    exact List.ne_nil_of_mem (Keys.mem_under.mpr ⟨k₀, hk₀, hpre, rfl⟩)

theorem arrange_outcome (h : Laid (Has keys_) owner b free) (hp : b.Fixed free p)
    (hne : under keys_ v ≠ []) (range_stack : List DoubleArrayKeyRange) :
    Outcome (b.units_.length + 256 ≤ 2 ^ 29)
      (fun r => ∃ o free' labels,
        Arranged keys_ owner b free p v range_stack o r.1 free' labels r.2)
      (b.arrange ⟨under keys_ v, p⟩ range_stack) := by
  obtain ⟨first, l, hfirst, hzero, hlist, hranges, hlabels, hnd, hlne, hflat⟩ :=
    listRanges_under hkeys hv hne
  -- the mark of a key that ends here
  obtain ⟨b₁, u₁, hrun₁, hw₁, hlabel₁, hleaf₁, hends₁⟩ := @setEnd_written p b (first = 0) _ hp.1
  have hlaid₁ := h.written hw₁ hlabel₁
  -- the base of the children
  obtain ⟨c, others, hsplit⟩ := List.exists_cons_of_ne_nil hlne
  obtain ⟨o, hfind, ho⟩ := findOffsetIndex_ok hlaid₁.empty p c others
  rw [← hsplit] at hfind ho
  have hoff : p ^^^ o < 2 ^ 21 ∨ (p ^^^ o) % 256 = 0 := ho.elim Fits.offset fun h => .inr h.offset
  have hp₁ : p < b₁.units_.length := by rw [hw₁.size]; exact hp.1
  rw [arrange_eq hfirst hlist (by rw [hranges, List.length_map]), hrun₁, ok_bind, hfind, ok_bind]
  refine ((setUnit_outcome hp₁ (setOffset_outcome hoff _)).mono
    (fun hsmall => offset_lt hlaid₁ hp₁ ho (hw₁.size ▸ hsmall)) fun _ h => h).bind ?_
  rintro b₂ ⟨u₂, ⟨hoff₂, hlabel₂, hleaf₂, hends₂⟩, hw₂⟩
  -- the children themselves
  have hzip : (l.labels.zip l.next_ranges).reverse =
      (l.labels.map fun c => (c, under keys_ (v ++ [c]))).reverse := by
    rw [hranges, List.map_prod_left_eq_zip]
  have hfst : (l.labels.zip l.next_ranges).reverse.map Prod.fst = l.labels.reverse := by
    rw [hzip, List.map_reverse, List.map_map]
    exact congrArg List.reverse (List.map_id _)
  obtain ⟨b', free', hrun, hlaid, hgrown, hlow, hhigh, hnone⟩ :=
    @Laid.place b₂ free _ (Has keys_) owner (some v) o (l.labels.zip l.next_ranges).reverse
      range_stack (hlaid₁.written hw₂ hlabel₂) p l.labels (hw₂.room ho) (fun c => (hlabels c).mpr)
      (fun c => by rw [hfst, List.mem_reverse, hlabels])
      (fun hnil => hlne (by rw [hnil] at hfst; exact List.reverse_eq_nil_iff.mp hfst.symm))
      (by rw [hfst]; exact List.nodup_reverse.mpr hnd)
  have hstack : ((l.labels.zip l.next_ranges).reverse.map fun x =>
      (⟨x.2, o ^^^ x.1.toNat⟩ : DoubleArrayKeyRange)).reverse =
      l.labels.map fun c => ⟨under keys_ (v ++ [c]), o ^^^ c.toNat⟩ := by
    rw [hzip, List.map_reverse, List.reverse_reverse, List.map_map]
    rfl
  have hw := hw₁.trans hw₂
  have hunit₁ : b₁.unit p = u₁ := by rw [hw₁.unit, if_pos rfl]
  rw [hunit₁] at hleaf₂ hends₂
  have hfixed : ∀ q, b.Fixed free q → b₂.Fixed free q := fun q hq => by
    rw [Fixed, hw.size]
    exact hq
  rw [hrun]
  refine .ok ⟨o, free', l.labels, hnone, hlaid, ?_, fun q hq hfix => ?_, fun q => ?_,
    fun q => ?_, hw.size.symm.trans_le hlow, hhigh.trans_eq (by rw [hw.size]), hlabels, hnd,
    congrArg (· ++ range_stack) hstack, hflat, ?_⟩
  · rw [hgrown.unit p (hfixed p hp), hw.unit, if_pos rfl, hoff₂]
  · rw [hgrown.unit q (hfixed q hfix), hw.unit, if_neg hq]
  · rw [hgrown.leaf, hw.unit]
    split
    · rename_i hq
      rw [hleaf₂, hleaf₁, hq]
    · rfl
  · rw [hgrown.ends, hw.unit]
    by_cases hq : q = p
    · rw [if_pos hq, hends₂, hends₁, hq, hzero]
      simp
    · rw [if_neg hq]
      simp [hq]
  · dsimp only
    rw [hstack]
    exact weight_arranged hkeys hv hlabels hflat range_stack

end

/-! ## All nodes -/

/-- A leaf stands for one key, whose suffix begins with the last label. -/
structure LeafKey (keys_ : List DoubleArrayKey) (owner : Nat → Option (Option Bytes))
    (v : Bytes) (k₀ k : DoubleArrayKey) : Prop where
  node : At keys_ owner k.index v
  range : under keys_ v = [{ k₀ with moved := v.length }]
  nonempty : v ≠ []
  key : k = { k₀ with moved := v.length - 1, index := k.index }

/-- A node that is off the stack. -/
def Settled (owner : Nat → Option (Option Bytes)) (b : DoubleArrayBuilder)
    (leaves : List DoubleArrayKey) (p : Nat) (v : Bytes) : Prop :=
  (∃ k ∈ leaves, k.index = p) ∨ owner (p ^^^ offset (b.unit p)) = some (some v)

/-- The state of `build_trie_subroutine` between two rounds. -/
structure Building (keys_ : List DoubleArrayKey) (owner : Nat → Option (Option Bytes))
    (free : List Nat) (b : DoubleArrayBuilder) (range_stack : List DoubleArrayKeyRange)
    (leaves : List DoubleArrayKey) : Prop where
  laid : Laid (Has keys_) owner b free
  root : owner 0 = some none
  stack : ∀ r ∈ range_stack, ∃ v, At keys_ owner r.index v ∧ r.keys = under keys_ v
  once : (range_stack.map (·.index)).Nodup
  inner : ∀ r ∈ range_stack, isLeaf (b.unit r.index) = false
  nodes : ∀ p v, At keys_ owner p v →
    (∃ r ∈ range_stack, r.index = p) ∨ Settled owner b leaves p v
  suffixes : ∀ k ∈ leaves, ∃ v k₀, LeafKey keys_ owner v k₀ k
  leaf : ∀ p, isLeaf (b.unit p) = true ↔ ∃ k ∈ leaves, k.index = p
  ends : ∀ p, isEnd (b.unit p) = true ↔ ∃ v, At keys_ owner p v ∧ Has keys_ (some v) 0 ∧
    (¬ ∃ r ∈ range_stack, r.index = p) ∧ ¬ ∃ k ∈ leaves, k.index = p
  nodup : (leaves.map (·.index)).Nodup
  total : (leaves.map fun k => k.key_.length + 4).sum +
    bytesOf (range_stack.map (·.keys)).flatten ≤ bytesOf keys_

theorem LeafKey.update {k₀ k : DoubleArrayKey} (h : LeafKey keys_ owner v k₀ k)
    (ho : owner o = none) (s : Option (Option Bytes)) :
    LeafKey keys_ (Function.update owner o s) v k₀ k :=
  ⟨h.node.update ho s, h.range, h.nonempty, h.key⟩

namespace Building
variable {range_stack : List DoubleArrayKeyRange} {leaves : List DoubleArrayKey}
  {r : DoubleArrayKeyRange}

theorem fixed (h : Building keys_ owner free b range_stack leaves) (hp : At keys_ owner p v) :
    b.Fixed free p := hp.isFixed h.laid.table h.root

/-! ### A round for a leaf -/

section
variable {k : DoubleArrayKey} (h : Building keys_ owner free b (r :: range_stack) leaves)
  (hk : r.keys = [k])
include h hk

/-- The only key of a node, one character back, is that of a leaf. -/
theorem leaf_key (hr : r.index ≠ 0) :
    ∃ v k₀, LeafKey keys_ owner v k₀ { k.decr with index := r.index } := by
  obtain ⟨v, hnode, hkeys⟩ := h.stack r List.mem_cons_self
  have hv : v ≠ [] := by
    rcases hnode with ⟨hp, -⟩ | ⟨w, c, rfl, -⟩
    · exact absurd hp hr
    · simp
  have hin : k ∈ under keys_ v := by
    rw [← hkeys, hk]
    exact List.mem_singleton_self k
  obtain ⟨k₀, -, -, rfl⟩ := Keys.mem_under.mp hin
  exact ⟨v, k₀, hnode, by rw [← hkeys, hk], hv, rfl⟩

theorem leaf_total :
    ((leaves ++ [{ k.decr with index := r.index }]).map
        fun k : DoubleArrayKey => k.key_.length + 4).sum +
      bytesOf (range_stack.map (·.keys)).flatten ≤ bytesOf keys_ := by
  have htotal := h.total
  rw [List.map_cons, List.flatten_cons, hk, bytesOf_append] at htotal
  rw [List.map_append, List.sum_append]
  have hone : bytesOf [k] = k.key_.length + 5 := List.sum_singleton
  have hlen : ({ k.decr with index := r.index } : DoubleArrayKey).key_.length ≤
      k.key_.length + 1 := by
    rw [DoubleArrayKey.key_, DoubleArrayKey.key_, List.length_drop, List.length_drop]
    show (k.text ++ [0]).length - (k.moved - 1) ≤ _
    omega
  show _ + (({ k.decr with index := r.index } : DoubleArrayKey).key_.length + 4 + 0) + _ ≤ _
  omega

theorem leaf_round (hr : r.index ≠ 0) :
    ∃ b', (b.setUnit r.index fun u => .ok (setIsLeaf u)) = .ok b' ∧
      b'.units_.length = b.units_.length ∧
      Building keys_ owner free b' range_stack (leaves ++ [{ k.decr with index := r.index }]) := by
  obtain ⟨v, hnode, -⟩ := h.stack r List.mem_cons_self
  obtain ⟨b', hrun, hw⟩ := @setUnit_written b r.index _ (fun u => .ok (setIsLeaf u))
    (h.fixed hnode).1 rfl
  have hunit : ∀ q, q ≠ r.index → b'.unit q = b.unit q := fun q hq => by rw [hw.unit, if_neg hq]
  have honce := List.nodup_cons.mp (List.map_cons ▸ h.once)
  -- the node goes from the stack to the leaves
  have hstack : ∀ q, (∃ r' ∈ r :: range_stack, r'.index = q) ↔
      r.index = q ∨ ∃ r' ∈ range_stack, r'.index = q := fun q => by
    simp only [List.mem_cons, or_and_right, exists_or, exists_eq_left]
  have hleaves : ∀ q, (∃ k' ∈ leaves ++ [{ k.decr with index := r.index }], k'.index = q) ↔
      (∃ k' ∈ leaves, k'.index = q) ∨ r.index = q := fun q => by
    simp only [List.mem_append, List.mem_singleton, or_and_right, exists_or, exists_eq_left]
  refine ⟨b', hrun, hw.size, h.laid.written hw label_setIsLeaf, h.root,
    fun r' hr' => h.stack r' (List.mem_cons_of_mem r hr'), honce.2, fun r' hr' => ?_,
    fun q w hq => ?_, fun k' hk' => ?_, fun q => ?_, fun q => ?_, ?_, h.leaf_total hk⟩
  · have hne : r'.index ≠ r.index := fun he => honce.1 (he ▸ List.mem_map_of_mem hr')
    rw [hunit _ hne]
    exact h.inner r' (List.mem_cons_of_mem r hr')
  · rcases h.nodes q w hq with hs | hl | hbase
    · rcases (hstack q).mp hs with hqr | hs
      · exact .inr (.inl ((hleaves q).mpr (.inr hqr)))
      · exact .inl hs
    · exact .inr (.inl ((hleaves q).mpr (.inl hl)))
    · by_cases hqr : r.index = q
      · exact .inr (.inl ((hleaves q).mpr (.inr hqr)))
      · exact .inr (.inr (by rw [hunit q (Ne.symm hqr)]; exact hbase))
  · rcases List.mem_append.mp hk' with hk' | hk'
    · exact h.suffixes k' hk'
    · rw [List.mem_singleton.mp hk']
      exact h.leaf_key hk hr
  · rw [hleaves]
    by_cases hqr : r.index = q
    · rw [← hqr, hw.unit, if_pos rfl]
      exact iff_of_true isLeaf_setIsLeaf (.inr rfl)
    · rw [hunit q (Ne.symm hqr), h.leaf q, or_iff_left hqr]
  · have hsame : isEnd (b'.unit q) = isEnd (b.unit q) := by
      rw [hw.unit]
      split
      · rename_i hqr
        rw [hqr]
        exact isEnd_setIsLeaf
      · rfl
    rw [hsame, h.ends q]
    refine exists_congr fun w => and_congr_right fun _ => and_congr_right fun _ => ?_
    rw [hstack, hleaves, not_or, not_or]
    exact ⟨fun ⟨⟨hr, hs⟩, hl⟩ => ⟨hs, hl, hr⟩, fun ⟨hs, hl, hr⟩ => ⟨⟨hr, hs⟩, hl⟩⟩
  · rw [List.map_append, List.nodup_append]
    refine ⟨h.nodup, List.nodup_singleton _, fun x hx y hy he => ?_⟩
    have htrue := (h.leaf r.index).mpr (by
      obtain ⟨k', hk', rfl⟩ := List.mem_map.mp hx
      rw [List.map_singleton, List.mem_singleton] at hy
      exact ⟨k', hk', he.trans hy⟩)
    rw [h.inner r List.mem_cons_self] at htrue
    cases htrue

end

/-! ### A round for a node that is no leaf -/

section
variable {labels : List UInt8} {free' : List Nat} {range_stack' : List DoubleArrayKeyRange}

/-- The children of the node are on the stack instead of it. -/
theorem mem_arranged
    (harr : Arranged keys_ owner b free p v range_stack o b' free' labels range_stack')
    (r' : DoubleArrayKeyRange) : r' ∈ range_stack' ↔
      (∃ c, Has keys_ (some v) c ∧ r' = ⟨under keys_ (v ++ [c]), o ^^^ c.toNat⟩) ∨
        r' ∈ range_stack := by
  rw [harr.stack, List.mem_append, List.mem_map]
  refine or_congr_left ⟨?_, ?_⟩
  · rintro ⟨c, hc, rfl⟩
    exact ⟨c, (harr.mem c).mp hc, rfl⟩
  · rintro ⟨c, hc, rfl⟩
    exact ⟨c, (harr.mem c).mpr hc, rfl⟩

variable (h : Building keys_ owner free b (r :: range_stack) leaves)
  (harr : Arranged keys_ owner b free r.index v range_stack o b' free' labels range_stack')
include h harr

theorem root_arranged : Function.update owner o (some (some v)) 0 = some none := by
  rw [Function.update_of_ne, h.root]
  rintro rfl
  have hbase := harr.base
  rw [h.root] at hbase
  cases hbase

theorem child_new {w : Bytes} (hc : Has keys_ (some v) c) : ¬ At keys_ owner (o ^^^ c.toNat) w := by
  intro hw
  have hcell := At.of_cell harr.laid.table (h.root_arranged harr) (Function.update_self ..) hc
    (hw.update harr.base _)
  subst hcell
  rcases hw with ⟨-, hnil⟩ | ⟨w', d, hw', hown, -⟩
  · simp at hnil
  · obtain ⟨-, hd⟩ := List.append_inj' hw' rfl
    rw [List.cons.injEq] at hd
    rw [← hd.1, xor_byte_cancel, harr.base] at hown
    cases hown

/-- A node from before is on the stack now as it was then, the node of the round apart. -/
theorem on_stack_arranged {q : Nat} {w : Bytes} (hq : At keys_ owner q w) :
    (∃ r' ∈ range_stack', r'.index = q) ↔ ∃ r' ∈ range_stack, r'.index = q := by
  constructor
  · rintro ⟨r', hr', hi⟩
    rcases (mem_arranged harr r').mp hr' with ⟨c, hc, rfl⟩ | hr'
    · exact absurd (hi ▸ hq) (h.child_new harr hc)
    · exact ⟨r', hr', hi⟩
  · rintro ⟨r', hr', hi⟩
    exact ⟨r', (mem_arranged harr r').mpr (.inr hr'), hi⟩

theorem once_arranged : (range_stack'.map (·.index)).Nodup := by
  have honce := List.nodup_cons.mp (List.map_cons ▸ h.once)
  rw [harr.stack, List.map_append, List.map_map, List.nodup_append]
  refine ⟨harr.nodup.map fun c d hcd => ?_, honce.2, fun x hx y hy he => ?_⟩
  · exact UInt8.toNat_inj.mp (Nat.xor_right_injective hcd)
  · obtain ⟨c, hc, rfl⟩ := List.mem_map.mp hx
    obtain ⟨r', hr', rfl⟩ := List.mem_map.mp hy
    obtain ⟨w, hw, -⟩ := h.stack r' (List.mem_cons_of_mem r hr')
    have hindex : o ^^^ c.toNat = r'.index := he
    exact h.child_new harr ((harr.mem c).mp hc) (hindex ▸ hw)

theorem inner_arranged {r' : DoubleArrayKeyRange} (hr' : r' ∈ range_stack') :
    isLeaf (b'.unit r'.index) = false := by
  rw [harr.leaf]
  rcases (mem_arranged harr r').mp hr' with ⟨c, hc, rfl⟩ | hr'
  · refine Bool.eq_false_iff.mpr fun htrue => ?_
    obtain ⟨k, hk, hi⟩ := (h.leaf _).mp htrue
    obtain ⟨w, k₀, hkey⟩ := h.suffixes k hk
    have hindex : k.index = o ^^^ c.toNat := hi
    exact h.child_new harr hc (hindex ▸ hkey.node)
  · exact h.inner r' (List.mem_cons_of_mem r hr')

theorem total_arranged (hv : r.keys = under keys_ v) :
    (leaves.map fun k => k.key_.length + 4).sum +
      bytesOf (range_stack'.map (·.keys)).flatten ≤ bytesOf keys_ := by
  have htotal := h.total
  have hle := bytesOf_incr (under keys_ v)
  rw [List.map_cons, List.flatten_cons, hv, bytesOf_append] at htotal
  rw [harr.stack, List.map_append, List.map_map, List.flatten_append, bytesOf_append]
  have hnext : bytesOf (labels.map ((fun r : DoubleArrayKeyRange => r.keys) ∘ fun c =>
      (⟨under keys_ (v ++ [c]), o ^^^ c.toNat⟩ : DoubleArrayKeyRange))).flatten =
      bytesOf ((under keys_ v).map DoubleArrayKey.incr) := congrArg bytesOf harr.flatten
  omega

variable (hnode : At keys_ owner r.index v)
include hnode

/-- The node of the round has its children now, and they are on the stack. -/
theorem nodes_arranged {q : Nat} {w : Bytes}
    (hq : At keys_ (Function.update owner o (some (some v))) q w) :
    (∃ r' ∈ range_stack', r'.index = q) ∨
      Settled (Function.update owner o (some (some v))) b' leaves q w := by
  rcases hq.of_update with hq | ⟨c, hc, rfl, -⟩
  · by_cases hqr : q = r.index
    · subst hqr
      have hwv := hq.unique h.laid.table h.root hnode
      subst hwv
      refine .inr (.inr ?_)
      rw [harr.offset, ← Nat.xor_assoc, Nat.xor_self, Nat.zero_xor, Function.update_self]
    · rcases h.nodes q w hq with ⟨r', hr', hi⟩ | hleaf | hbase
      · rcases List.mem_cons.mp hr' with rfl | hr'
        · exact absurd hi.symm hqr
        · exact .inl ⟨r', (mem_arranged harr r').mpr (.inr hr'), hi⟩
      · exact .inr (.inl hleaf)
      · refine .inr (.inr ?_)
        rw [harr.unit q hqr (h.fixed hq), Function.update_of_ne, hbase]
        intro he
        rw [he, harr.base] at hbase
        cases hbase
  · exact .inl ⟨_, (mem_arranged harr _).mpr (.inl ⟨c, hc, rfl⟩), rfl⟩

/-- Keys end at the nodes that are off the stack, now with the node of the round. -/
theorem ends_arranged (q : Nat) : isEnd (b'.unit q) = true ↔
    ∃ w, At keys_ (Function.update owner o (some (some v))) q w ∧ Has keys_ (some w) 0 ∧
      (¬ ∃ r' ∈ range_stack', r'.index = q) ∧ ¬ ∃ k ∈ leaves, k.index = q := by
  have honce := List.nodup_cons.mp (List.map_cons ▸ h.once)
  rw [harr.ends, h.ends q]
  constructor
  · rintro (⟨w, hq, hw, hs, hl⟩ | ⟨rfl, hz⟩)
    · refine ⟨w, hq.update harr.base _, hw, ?_, hl⟩
      rw [h.on_stack_arranged harr hq]
      exact fun ⟨r', hr', hi⟩ => hs ⟨r', List.mem_cons_of_mem r hr', hi⟩
    · refine ⟨v, hnode.update harr.base _, hz, ?_, fun hl => ?_⟩
      · rw [h.on_stack_arranged harr hnode]
        exact fun ⟨r', hr', hi⟩ => honce.1 (hi ▸ List.mem_map_of_mem hr')
      · have htrue := (h.leaf _).mpr hl
        rw [h.inner r List.mem_cons_self] at htrue
        cases htrue
  · rintro ⟨w, hq, hw, hs, hl⟩
    rcases hq.of_update with hq | ⟨c, hc, rfl, -⟩
    · by_cases hqr : q = r.index
      · have hwv := At.unique h.laid.table h.root hq (hqr ▸ hnode)
        exact .inr ⟨hqr, hwv ▸ hw⟩
      · refine .inl ⟨w, hq, hw, ?_, hl⟩
        rintro ⟨r', hr', hi⟩
        rcases List.mem_cons.mp hr' with rfl | hr'
        · exact hqr hi.symm
        · exact hs ((h.on_stack_arranged harr hq).mpr ⟨r', hr', hi⟩)
    · exact absurd ⟨_, (mem_arranged harr _).mpr (.inl ⟨c, hc, rfl⟩), rfl⟩ hs

theorem arrange_round (hv : r.keys = under keys_ v) :
    Building keys_ (Function.update owner o (some (some v))) free' b' range_stack' leaves where
  laid := harr.laid
  root := h.root_arranged harr
  stack r' hr' := by
    rcases (mem_arranged harr r').mp hr' with ⟨c, hc, rfl⟩ | hr'
    · exact ⟨v ++ [c], At.child (Function.update_self ..) hc, rfl⟩
    · obtain ⟨w, hw, hkeys⟩ := h.stack r' (List.mem_cons_of_mem r hr')
      exact ⟨w, hw.update harr.base _, hkeys⟩
  once := h.once_arranged harr
  inner r' hr' := h.inner_arranged harr hr'
  nodes q w hq := h.nodes_arranged harr hnode hq
  suffixes k hk := by
    obtain ⟨w, k₀, hkey⟩ := h.suffixes k hk
    exact ⟨w, k₀, hkey.update harr.base _⟩
  leaf q := by
    rw [harr.leaf]
    exact h.leaf q
  ends q := h.ends_arranged harr hnode q
  nodup := h.nodup
  total := h.total_arranged harr hv

end

theorem run (hkeys : Keys keys_) (hne : keys_ ≠ []) : ∀ {n : Nat} {owner free b range_stack leaves},
    Building keys_ owner free b range_stack leaves → weight range_stack ≤ n →
    Outcome (b.units_.length + 256 * n ≤ 2 ^ 29)
      (fun r => ∃ owner' free', Building keys_ owner' free' r.1 [] r.2 ∧
        r.1.units_.length ≤ b.units_.length + 256 * n)
      (buildTrieSubroutine n b range_stack leaves) := by
  intro n
  induction n with
  | zero =>
    intro owner free b range_stack leaves h hn
    cases range_stack with
    | nil => exact .ok ⟨owner, free, h, Nat.le_refl _⟩
    | cons r range_stack =>
      rw [weight_cons] at hn
      omega
  | succ n ih =>
    intro owner free b range_stack leaves h hn
    cases range_stack with
    | nil => exact .ok ⟨owner, free, h, Nat.le_add_right _ _⟩
    | cons r range_stack =>
      by_cases hleaf : (∃ k, r.keys = [k]) ∧ r.index ≠ 0
      · obtain ⟨⟨k, hk⟩, hr⟩ := hleaf
        obtain ⟨b', hrun, hlen, h'⟩ := h.leaf_round hk hr
        rw [weight_cons] at hn
        rw [buildTrieSubroutine, hk]
        simp only [hr, ne_eq, not_false_eq_true, if_true, hrun, ok_bind]
        refine (ih h' (by omega)).mono (fun hs => by omega) ?_
        rintro ⟨b₂, leaves₂⟩ ⟨owner', free', hb, hle⟩
        exact ⟨owner', free', hb, by omega⟩
      · have heq : buildTrieSubroutine (n + 1) b (r :: range_stack) leaves =
            b.arrange r range_stack >>= fun x => buildTrieSubroutine n x.1 x.2 leaves := by
          rw [buildTrieSubroutine]
          split
          · rename_i k hk
            rw [if_neg fun hr => hleaf ⟨⟨k, hk⟩, hr⟩]
          · rfl
        obtain ⟨v, hnode, hv⟩ := h.stack r List.mem_cons_self
        have hcond : v = [] ∨ (under keys_ v).length ≠ 1 := by
          by_contra hcon
          rw [not_or, not_not] at hcon
          refine hleaf ⟨List.length_eq_one_iff.mp (hv ▸ hcon.2), fun hr => ?_⟩
          rcases hnode with ⟨-, hnil⟩ | ⟨w, c, rfl, hw, hc⟩
          · exact hcon.1 hnil
          · refine hcon.1 (At.unique h.laid.table h.root (.inr ⟨w, c, rfl, hw, hc⟩) (.inl ⟨hr, rfl⟩))
        have hunder : under keys_ v ≠ [] := by
          rcases hnode with ⟨-, rfl⟩ | ⟨w, c, rfl, -, k₀, hk₀, hp⟩
          · obtain ⟨k₀, hk₀⟩ := List.exists_mem_of_ne_nil keys_ hne
            exact List.ne_nil_of_mem (Keys.mem_under.mpr ⟨k₀, hk₀, List.nil_prefix, rfl⟩)
          · exact List.ne_nil_of_mem (Keys.mem_under.mpr ⟨k₀, hk₀, hp, rfl⟩)
        have hout := arrange_outcome hkeys hcond h.laid (h.fixed hnode) hunder range_stack
        rw [← hv] at hout
        have hsmall : b.units_.length + 256 * (n + 1) ≤ 2 ^ 29 → b.units_.length + 256 ≤ 2 ^ 29 :=
          Nat.le_trans (Nat.add_le_add_left (Nat.le_mul_of_pos_right 256 n.succ_pos) _)
        rw [heq]
        refine (hout.mono hsmall fun _ => id).bind ?_
        rintro ⟨b', range_stack'⟩ ⟨o, free', labels, harr⟩
        have hweight : weight range_stack' < weight (r :: range_stack) := by
          have hlt := harr.weight
          rw [← hv] at hlt
          exact hlt
        have hupper : b'.units_.length ≤ b.units_.length + 256 := harr.upper
        refine (ih (h.arrange_round harr hnode hv) (Nat.lt_succ_iff.mp (hweight.trans_le hn))).mono
          (fun hs => ?_) ?_
        · show b'.units_.length + 256 * n ≤ 2 ^ 29
          omega
        rintro ⟨b₂, leaves₂⟩ ⟨owner', free'', hb, hle⟩
        refine ⟨owner', free'', hb, Nat.le_trans hle ?_⟩
        show b'.units_.length + 256 * n ≤ _
        omega

end Building

end

end CommonTools.DartsClone
