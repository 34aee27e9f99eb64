import Mathlib.Tactic.FinCases
import CommonTools.Lib.CString
import CommonTools.Simhash.HashSign

/-! # Redis keys of a signature

`make_rediskey` cuts a signature into six blocks and makes one key for every
two of them. Two signatures that differ in at most four bits agree in two
blocks, so they share the key of these. -/
namespace CommonTools.Simhash
open CommonTools.Lib

/-- The byte of an ASCII character. -/
def byteOf (c : Char) : UInt8 := UInt8.ofNat c.toNat

def Pattern.type : Pattern → Bytes
  | .FULLTEXT => [byteOf 'F']
  | .PARAGRAPH => [byteOf 'P']
  | .SENTENCE => [byteOf 'S']

/-- The width of `tmpd[i]`: 11 11 11 11 10 10. -/
def blockWidth (i : Nat) : Nat := if 4 ≤ i then 10 else 11

/-- The two loops that cut blocks off the low end of `sign`, from `tmpd[5]`
down. The first argument is the number of blocks left. -/
def splitSign : Nat → BitVec 64 → List (BitVec 32) → List (BitVec 32)
  | 0, _, tmpd => tmpd
  | i + 1, sign, tmpd =>
    let mask : BitVec 64 := if 4 ≤ i then 0x3ff else 0x7ff
    splitSign i (sign >>> blockWidth i) ((sign &&& mask).setWidth 32 :: tmpd)

/-- `t` for the blocks `i` and `j`. -/
def joinBlocks (tmpd : List (BitVec 32)) (i j : Nat) : BitVec 32 :=
  let t := tmpd.getD i 0
  if j = 4 ∨ j = 5 then t <<< 10 ||| tmpd.getD j 0 else t <<< 11 ||| tmpd.getD j 0

/-- `snprintf(sy, 10, "%u", t)`. -/
def printUnsigned (t : BitVec 32) : Bytes := ((Nat.toDigits 10 t.toNat).map byteOf).take 9

/-- `tmpk`; a null or empty `userkey` is left out. -/
def keyOf (userkey : Option Bytes) (p : Pattern) (t : BitVec 32) : Bytes :=
  let user := match userkey with
    | some k => if 0 < (cstr k).length then cstr k ++ [byteOf ':'] else []
    | none => []
  p.type ++ [byteOf ':'] ++ user ++ printUnsigned t

/-- The indices of the two nested loops, in their order. -/
def blockPairs : List (Nat × Nat) :=
  (List.range 5).flatMap fun i => (List.range' (i + 1) (5 - i)).map fun j => (i, j)

/-- One round: a key that is new goes to `key_set` and to `rediskey`. -/
def pushKey (state : List Bytes × List Bytes) (tmpk : Bytes) : List Bytes × List Bytes :=
  if tmpk ∈ state.1 then state else (tmpk :: state.1, state.2 ++ [tmpk])

/-- `make_rediskey`: the return value and the keys behind those given. -/
def makeRedisKey (userkey : Option Bytes) (p : Pattern) (sign : BitVec 64)
    (rediskey : List Bytes) : Int × List Bytes :=
  let tmpd := splitSign 6 sign []
  (0, ((blockPairs.map fun b => keyOf userkey p (joinBlocks tmpd b.1 b.2)).foldl pushKey
    ([], rediskey)).2)

/-! ## The keys that are made -/

theorem foldl_pushKey (keys : List Bytes) :
    ∀ state : List Bytes × List Bytes, (∀ k ∈ state.1, k ∈ state.2) →
      ∀ k, k ∈ (keys.foldl pushKey state).2 ↔ k ∈ keys ∨ k ∈ state.2 := by
  induction keys with
  | nil => intro state _ k; simp
  | cons key keys ih =>
    intro state hsub k
    rw [List.foldl_cons]
    by_cases hin : key ∈ state.1
    · rw [pushKey, if_pos hin, ih state hsub k]
      have := hsub key hin
      constructor
      · rintro (h | h)
        · exact .inl (List.mem_cons_of_mem key h)
        · exact .inr h
      · rintro (h | h)
        · rcases List.mem_cons.mp h with rfl | h
          · exact .inr this
          · exact .inl h
        · exact .inr h
    · rw [pushKey, if_neg hin, ih _ (by simpa using fun k hk => .inl (hsub k hk)) k]
      simp [or_assoc, or_comm, or_left_comm]

theorem mem_makeRedisKey {userkey : Option Bytes} {p : Pattern} {sign : BitVec 64}
    {rediskey : List Bytes} {k : Bytes} :
    k ∈ (makeRedisKey userkey p sign rediskey).2 ↔
      (∃ b ∈ blockPairs, keyOf userkey p (joinBlocks (splitSign 6 sign []) b.1 b.2) = k) ∨
        k ∈ rediskey := by
  rw [makeRedisKey, foldl_pushKey _ _ (by simp), List.mem_map]

theorem foldl_pushKey_nodup (keys : List Bytes) :
    ∀ state : List Bytes × List Bytes, (∀ k ∈ state.2, k ∈ state.1) → state.2.Nodup →
      (keys.foldl pushKey state).2.Nodup := by
  induction keys with
  | nil => exact fun _ _ h => h
  | cons key keys ih =>
    intro state hsub hnd
    rw [List.foldl_cons]
    by_cases hin : key ∈ state.1
    · rw [pushKey, if_pos hin]
      exact ih state hsub hnd
    · rw [pushKey, if_neg hin]
      refine ih _ (fun k hk => ?_) (List.nodup_append.mpr ⟨hnd, by simp, fun a ha b hb hab => ?_⟩)
      · rcases List.mem_append.mp hk with hk | hk
        · exact List.mem_cons_of_mem key (hsub k hk)
        · rw [List.mem_singleton.mp hk]; exact List.mem_cons_self
      · rw [hab, List.mem_singleton.mp hb] at ha
        exact hin (hsub key ha)

theorem makeRedisKey_nodup (userkey : Option Bytes) (p : Pattern) (sign : BitVec 64) :
    (makeRedisKey userkey p sign []).2.Nodup := by
  unfold makeRedisKey
  dsimp only
  exact foldl_pushKey_nodup _ _ (by simp) List.nodup_nil

/-! ## The blocks -/

/-- The position of the lowest bit of `tmpd[i]`. -/
def blockOffset : Fin 6 → Nat := ![53, 42, 31, 20, 10, 0]

theorem blocks_disjoint {i j : Fin 6} {k : Nat} (hi : blockOffset i ≤ k)
    (hi' : k < blockOffset i + blockWidth i) (hj : blockOffset j ≤ k)
    (hj' : k < blockOffset j + blockWidth j) : i = j := by
  have hlt : ∀ i j : Fin 6, i < j → blockOffset j + blockWidth j ≤ blockOffset i := by decide
  rcases lt_trichotomy i j with h | h | h
  · have := hlt i j h; omega
  · exact h
  · have := hlt j i h; omega

theorem mask_eq_extract (x : BitVec 64) (mask : BitVec 64) (width o : Nat)
    (hm : ∀ k < 32, mask.getLsbD k = decide (k < width)) :
    ((x >>> o) &&& mask).setWidth 32 = (x.extractLsb' o width).setWidth 32 := by
  refine BitVec.eq_of_getLsbD_eq fun k hk => ?_
  simp only [BitVec.getLsbD_setWidth, BitVec.getLsbD_and, BitVec.getLsbD_ushiftRight,
    BitVec.getLsbD_extractLsb', hm k hk, Bool.and_comm]

/-- `tmpd[i]` is a block of the signature. -/
theorem splitSign_getD (sign : BitVec 64) (i : Fin 6) :
    (splitSign 6 sign []).getD i 0 =
      (sign.extractLsb' (blockOffset i) (blockWidth i)).setWidth 32 := by
  have h10 := fun o => mask_eq_extract sign 0x3ff 10 o (by decide)
  have h11 := fun o => mask_eq_extract sign 0x7ff 11 o (by decide)
  have hshift : splitSign 6 sign [] =
      [((sign >>> 53) &&& 0x7ff).setWidth 32, ((sign >>> 42) &&& 0x7ff).setWidth 32,
        ((sign >>> 31) &&& 0x7ff).setWidth 32, ((sign >>> 20) &&& 0x7ff).setWidth 32,
        ((sign >>> 10) &&& 0x3ff).setWidth 32, ((sign >>> 0) &&& 0x3ff).setWidth 32] := by
    simp [splitSign, blockWidth, ← BitVec.shiftRight_add]
  rw [hshift]
  fin_cases i
  · exact h11 53
  · exact h11 42
  · exact h11 31
  · exact h11 20
  · exact h10 10
  · exact h10 0

/-- At most four differing bits leave two blocks equal. -/
theorem exists_equal_blocks {a b : BitVec 64} (h : bitDist a b ≤ 4) :
    ∃ i j : Fin 6, i < j ∧
      a.extractLsb' (blockOffset i) (blockWidth i) = b.extractLsb' (blockOffset i) (blockWidth i) ∧
      a.extractLsb' (blockOffset j) (blockWidth j) =
        b.extractLsb' (blockOffset j) (blockWidth j) := by
  let unequal : Finset (Fin 6) := Finset.univ.filter fun i =>
    a.extractLsb' (blockOffset i) (blockWidth i) ≠ b.extractLsb' (blockOffset i) (blockWidth i)
  -- every unequal block holds a differing bit of its own
  have hbit : ∀ i, ∃ k : Fin 64, i ∈ unequal → k ∈ setBits (a ^^^ b) ∧
      blockOffset i ≤ k.val ∧ k.val < blockOffset i + blockWidth i := fun i => by
    by_cases hi : i ∈ unequal
    · obtain ⟨k, hk⟩ := exists_differing (Finset.mem_filter.mp hi).2
      exact ⟨k, fun _ => hk⟩
    · exact ⟨0, fun hin => absurd hin hi⟩
  choose f hf using hbit
  have hcard : unequal.card ≤ (setBits (a ^^^ b)).card := by
    refine Finset.card_le_card_of_injOn f (fun i hi => (hf i hi).1) fun i hi j hj hij => ?_
    obtain ⟨-, hi1, hi2⟩ := hf i hi
    obtain ⟨-, hj1, hj2⟩ := hf j hj
    rw [← hij] at hj1 hj2
    exact blocks_disjoint hi1 hi2 hj1 hj2
  rw [card_setBits_xor] at hcard
  have hequal : 1 < (unequalᶜ).card := by
    rw [Finset.card_compl, Fintype.card_fin]; omega
  obtain ⟨i, hi, j, hj, hne⟩ := Finset.one_lt_card.mp hequal
  have hmem : ∀ i ∈ unequalᶜ, a.extractLsb' (blockOffset i) (blockWidth i) =
      b.extractLsb' (blockOffset i) (blockWidth i) := fun i hi => by
    simpa [unequal] using hi
  rcases lt_or_gt_of_ne hne with hlt | hlt
  · exact ⟨i, j, hlt, hmem i hi, hmem j hj⟩
  · exact ⟨j, i, hlt, hmem j hj, hmem i hi⟩

/-- **No near duplicate is missed.** Signatures at a distance below `DISTANCE`
have a key in common. -/
theorem makeRedisKey_common_key (userkey : Option Bytes) (p : Pattern) (a b : BitVec 64)
    (h : ∃ d, hammingDist a b = some d ∧ d ≤ DISTANCE - 1) :
    ∃ k, k ∈ (makeRedisKey userkey p a []).2 ∧ k ∈ (makeRedisKey userkey p b []).2 := by
  obtain ⟨d, hd, hle⟩ := h
  rw [hammingDist_eq] at hd
  obtain rfl := Option.some.inj hd
  obtain ⟨i, j, hlt, hi, hj⟩ := exists_equal_blocks hle
  have hpair : ∀ i j : Fin 6, i < j → (i.val, j.val) ∈ blockPairs := by decide
  refine ⟨keyOf userkey p (joinBlocks (splitSign 6 a []) i j),
    mem_makeRedisKey.mpr (.inl ⟨_, hpair i j hlt, rfl⟩),
    mem_makeRedisKey.mpr (.inl ⟨_, hpair i j hlt, ?_⟩)⟩
  simp only [joinBlocks, splitSign_getD, hi, hj]

theorem makeRedisKey_common_key_four_bits :
    ∃ k, k ∈ (makeRedisKey (some [97]) .FULLTEXT 0x0123456789abcdef []).2 ∧
      k ∈ (makeRedisKey (some [97]) .FULLTEXT 0x8123416781abcdee []).2 :=
  makeRedisKey_common_key (some [97]) .FULLTEXT 0x0123456789abcdef 0x8123416781abcdee
    ⟨4, by decide, by decide⟩

end CommonTools.Simhash
