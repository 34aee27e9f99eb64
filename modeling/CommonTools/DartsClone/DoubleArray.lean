import CommonTools.Lib.BitField
import CommonTools.Lib.Layout

/-! # The units and the keys of a double array

`darts-clone.h` keeps a trie of the keys in units of 32 bits. A unit holds the label of the
edge that leads to it and the offset to its children. A key that is alone in its part of the
trie ends at a leaf, which links to the rest of the key and its value behind the units. -/
namespace CommonTools.DartsClone
open CommonTools.Lib

/-- Why there is no double array: an exception with its text, an `assert` that fails, or
undefined behaviour. -/
inductive Failure
  | thrown (what : String)
  | aborted
  | undefined
deriving DecidableEq

/-- `THROW` in the line `line`. -/
def THROW (line msg : String) : Failure :=
  .thrown ("darts-clone-0.32e [" ++ line ++ "]: " ++ msg)

def assert (b : Bool) : Except Failure PUnit := if b then .ok ⟨⟩ else .error .aborted

/-- A read that may have no meaning. -/
def defined {α : Type} : Option α → Except Failure α
  | some a => .ok a
  | none => .error .undefined

@[simp] theorem ok_bind {α β : Type} (a : α) (f : α → Except Failure β) :
    (Except.ok a >>= f) = f a := rfl

@[simp] theorem error_bind {α β : Type} (e : Failure) (f : α → Except Failure β) :
    (Except.error e >>= f) = .error e := rfl

@[simp] theorem defined_some {α : Type} (a : α) : defined (some a) = .ok a := rfl

@[simp] theorem assert_true : assert true = .ok ⟨⟩ := rfl

/-- `P` holds of the result, or there is an exception and the input is not small. -/
inductive Outcome {α : Type} (small : Prop) (P : α → Prop) : Except Failure α → Prop
  | ok {a : α} : P a → Outcome small P (.ok a)
  | thrown {what : String} : ¬ small → Outcome small P (.error (.thrown what))

section
variable {α β : Type} {small small' : Prop} {P P' : α → Prop} {Q : β → Prop}
  {x : Except Failure α} {f : α → Except Failure β}

theorem Outcome.bind (h : Outcome small P x) (hf : ∀ a, P a → Outcome small Q (f a)) :
    Outcome small Q (x >>= f) := by
  cases h with
  | ok ha => exact hf _ ha
  | thrown hs => exact .thrown hs

theorem Outcome.mono (h : Outcome small P x) (hsmall : small' → small) (hP : ∀ a, P a → P' a) :
    Outcome small' P' x := by
  cases h with
  | ok ha => exact .ok (hP _ ha)
  | thrown hs => exact .thrown fun hs' => hs (hsmall hs')

theorem Outcome.ok_of_small (h : Outcome small P x) (hs : small) : ∃ a, x = .ok a ∧ P a := by
  cases h with
  | ok ha => exact ⟨_, rfl, ha⟩
  | thrown hlarge => exact absurd hs hlarge

end

/-! ## `DoubleArrayUnit` -/

def OFFSET_MAX : Nat := 1 <<< 21
def VALUE_ID_BITS : Nat := 3
def LINK_BITS : Nat := 32 - 1 - VALUE_ID_BITS
def VALUE_ID_MAX : Nat := 1 <<< VALUE_ID_BITS
def UNIT_LINK_MAX : Nat := 1 <<< LINK_BITS

def setIsLeaf (values_ : BitVec 32) : BitVec 32 := values_ ||| 1

def setIsEnd (values_ : BitVec 32) : BitVec 32 := values_ ||| 2

def setLabel (label : UInt8) (values_ : BitVec 32) : BitVec 32 :=
  setField 2 8 (BitVec.ofNat 32 label.toNat) values_

def setOffset (offset : Nat) (values_ : BitVec 32) : Except Failure (BitVec 32) :=
  if offset ≥ OFFSET_MAX <<< 8 then .error (THROW "281" "Too large offset")
  else .ok (setField 10 22 (BitVec.ofNat 32
    (if offset < OFFSET_MAX then offset else (1 <<< 21) + (offset >>> 8))) values_)

def setValueId (value_id : Nat) (values_ : BitVec 32) : BitVec 32 :=
  setField 1 VALUE_ID_BITS (BitVec.ofNat 32 value_id) values_

def setLink (link : Nat) (values_ : BitVec 32) : Except Failure (BitVec 32) :=
  if link ≥ UNIT_LINK_MAX then .error (THROW "290" "Too large link address")
  else .ok (setField (1 + VALUE_ID_BITS) LINK_BITS (BitVec.ofNat 32 link) values_)

def isLeaf (values_ : BitVec 32) : Bool := (values_ &&& 1) == 1

def isEnd (values_ : BitVec 32) : Bool := (values_ &&& 2) == 2

def label (values_ : BitVec 32) : UInt8 := UInt8.ofNat (getField 2 8 values_).toNat

def offset (values_ : BitVec 32) : Nat :=
  let offset := (getField 10 22 values_).toNat
  if offset < OFFSET_MAX then offset else (offset - OFFSET_MAX) <<< 8

def valueId (values_ : BitVec 32) : Nat := (getField 1 VALUE_ID_BITS values_).toNat

def link (values_ : BitVec 32) : Nat := (getField (1 + VALUE_ID_BITS) LINK_BITS values_).toNat

section
variable {u v : BitVec 32} {l : UInt8} {i : Nat}

theorem isLeaf_eq (u : BitVec 32) : isLeaf u = u.getLsbD 0 := by
  rw [isLeaf, show (1 : BitVec 32) = BitVec.twoPow 32 0 from rfl, BitVec.and_twoPow]
  cases u.getLsbD 0 <;> decide

theorem isEnd_eq (u : BitVec 32) : isEnd u = u.getLsbD 1 := by
  rw [isEnd, show (2 : BitVec 32) = BitVec.twoPow 32 1 from rfl, BitVec.and_twoPow]
  cases u.getLsbD 1 <;> decide

theorem getLsbD_setIsLeaf : (setIsLeaf u).getLsbD i = (u.getLsbD i || decide (i = 0)) := by
  rw [setIsLeaf, show (1 : BitVec 32) = BitVec.twoPow 32 0 from rfl, BitVec.getLsbD_or,
    BitVec.getLsbD_twoPow]
  by_cases h : i = 0 <;> simp [h, eq_comm]

theorem getLsbD_setIsEnd : (setIsEnd u).getLsbD i = (u.getLsbD i || decide (i = 1)) := by
  rw [setIsEnd, show (2 : BitVec 32) = BitVec.twoPow 32 1 from rfl, BitVec.getLsbD_or,
    BitVec.getLsbD_twoPow]
  by_cases h : i = 1 <;> simp [h, eq_comm]

theorem toNat_ofNat_byte (l : UInt8) : (BitVec.ofNat 32 l.toNat).toNat = l.toNat := by
  rw [BitVec.toNat_ofNat, Nat.mod_eq_of_lt (Nat.lt_trans l.toNat_lt (by decide))]

theorem getLsbD_setLabel : (setLabel l u).getLsbD i =
    if 2 ≤ i ∧ i < 10 then (BitVec.ofNat 32 l.toNat).getLsbD (i - 2) else u.getLsbD i :=
  getLsbD_setField (by decide) (by decide) (by rw [toNat_ofNat_byte]; exact l.toNat_lt)

theorem label_congr (h : ∀ i, 2 ≤ i → i < 10 → u.getLsbD i = v.getLsbD i) : label u = label v := by
  rw [label, label, getField_congr (by decide) (by decide) h]

theorem offset_congr (h : ∀ i, 10 ≤ i → i < 32 → u.getLsbD i = v.getLsbD i) :
    offset u = offset v := by
  rw [offset, offset, getField_congr (by decide) (by decide) h]

@[simp] theorem label_setLabel : label (setLabel l u) = l := by
  have hl : (BitVec.ofNat 32 l.toNat).toNat < 2 ^ 8 := by
    rw [toNat_ofNat_byte]
    exact l.toNat_lt
  rw [label, setLabel, getField_setField (by decide) (by decide) hl, toNat_ofNat_byte,
    UInt8.ofNat_toNat]

@[simp] theorem offset_setLabel : offset (setLabel l u) = offset u :=
  offset_congr fun i hlow _ => by rw [getLsbD_setLabel, if_neg (by omega)]

@[simp] theorem isLeaf_setLabel : isLeaf (setLabel l u) = isLeaf u := by
  rw [isLeaf_eq, isLeaf_eq, getLsbD_setLabel, if_neg (by omega)]

@[simp] theorem label_setIsLeaf : label (setIsLeaf u) = label u :=
  label_congr fun i hlow _ => by rw [getLsbD_setIsLeaf]; simp; omega

@[simp] theorem isLeaf_setIsLeaf : isLeaf (setIsLeaf u) = true := by
  rw [isLeaf_eq, getLsbD_setIsLeaf]
  simp

@[simp] theorem label_setIsEnd : label (setIsEnd u) = label u :=
  label_congr fun i hlow _ => by rw [getLsbD_setIsEnd]; simp; omega

@[simp] theorem isLeaf_setIsEnd : isLeaf (setIsEnd u) = isLeaf u := by
  rw [isLeaf_eq, isLeaf_eq, getLsbD_setIsEnd]
  simp

@[simp] theorem isEnd_setLabel : isEnd (setLabel l u) = isEnd u := by
  rw [isEnd_eq, isEnd_eq, getLsbD_setLabel, if_neg (by omega)]

@[simp] theorem isEnd_setIsLeaf : isEnd (setIsLeaf u) = isEnd u := by
  rw [isEnd_eq, isEnd_eq, getLsbD_setIsLeaf]
  simp

@[simp] theorem isEnd_setIsEnd : isEnd (setIsEnd u) = true := by
  rw [isEnd_eq, getLsbD_setIsEnd]
  simp

@[simp] theorem offset_setIsLeaf : offset (setIsLeaf u) = offset u :=
  offset_congr fun i hlow _ => by rw [getLsbD_setIsLeaf]; simp; omega

@[simp] theorem offset_setIsEnd : offset (setIsEnd u) = offset u :=
  offset_congr fun i hlow _ => by rw [getLsbD_setIsEnd]; simp; omega

/-- Up to 2^21 an offset is stored as it is, then without its last eight bits. -/
theorem setOffset_ok {k : Nat} (hk : k < 2 ^ 29) (hfit : k < 2 ^ 21 ∨ k % 256 = 0)
    (u : BitVec 32) : ∃ u', setOffset k u = .ok u' ∧ offset u' = k ∧ label u' = label u ∧
      isLeaf u' = isLeaf u ∧ isEnd u' = isEnd u := by
  have hmax : OFFSET_MAX = 2 ^ 21 := rfl
  have hmax' : OFFSET_MAX <<< 8 = 2 ^ 29 := rfl
  generalize hw : (if k < OFFSET_MAX then k else (1 <<< 21) + (k >>> 8)) = w
  have hwlt : w < 2 ^ 22 := by
    rw [← hw, hmax, Nat.shiftRight_eq_div_pow]
    split <;> omega
  have hnat : (BitVec.ofNat 32 w).toNat = w := by
    rw [BitVec.toNat_ofNat, Nat.mod_eq_of_lt (by omega)]
  have hbit : ∀ i, i < 10 →
      (setField 10 22 (BitVec.ofNat 32 w) u).getLsbD i = u.getLsbD i := fun i hi => by
    rw [getLsbD_setField (by decide) (by decide) (by rw [hnat]; exact hwlt), if_neg (by omega)]
  refine ⟨setField 10 22 (BitVec.ofNat 32 w) u, ?_, ?_, label_congr fun i _ hi => hbit i hi, ?_, ?_⟩
  · rw [setOffset, if_neg (by rw [hmax']; omega), hw]
  · rw [offset, getField_setField (by decide) (by decide) (by rw [hnat]; exact hwlt), hnat]
    rw [hmax] at hw ⊢
    split at hw
    · rw [if_pos (by omega), hw]
    · rw [Nat.shiftRight_eq_div_pow] at hw
      rw [if_neg (by omega), Nat.shiftLeft_eq]
      omega
  · rw [isLeaf_eq, isLeaf_eq, hbit 0 (by decide)]
  · rw [isEnd_eq, isEnd_eq, hbit 1 (by decide)]

/-- The first offset that is refused is 2^29. -/
theorem setOffset_outcome {k : Nat} (hfit : k < 2 ^ 21 ∨ k % 256 = 0) (u : BitVec 32) :
    Outcome (k < 2 ^ 29)
      (fun u' => offset u' = k ∧ label u' = label u ∧ isLeaf u' = isLeaf u ∧ isEnd u' = isEnd u)
      (setOffset k u) := by
  by_cases hk : k < 2 ^ 29
  · obtain ⟨u', hset, hu'⟩ := setOffset_ok hk hfit u
    rw [hset]
    exact .ok hu'
  · rw [setOffset, if_pos (show k ≥ OFFSET_MAX <<< 8 from Nat.not_lt.mp hk)]
    exact .thrown hk

/-- The first link that is refused is 2^28. -/
theorem setLink_ok {k n : Nat} (hk : k < 2 ^ 28) (hn : n < 8) (u : BitVec 32) :
    ∃ u', setLink k (setValueId n u) = .ok u' ∧ link u' = k ∧ valueId u' = n ∧
      isLeaf u' = isLeaf u := by
  have hnat : (BitVec.ofNat 32 k).toNat = k := by
    rw [BitVec.toNat_ofNat, Nat.mod_eq_of_lt (by omega)]
  have hnat' : (BitVec.ofNat 32 n).toNat = n := by
    rw [BitVec.toNat_ofNat, Nat.mod_eq_of_lt (by omega)]
  have hkw : (BitVec.ofNat 32 k).toNat < 2 ^ LINK_BITS := by
    rw [hnat]
    exact hk
  have hnw : (BitVec.ofNat 32 n).toNat < 2 ^ VALUE_ID_BITS := by
    rw [hnat']
    exact hn
  refine ⟨_, if_neg (Nat.not_le.mpr hk), ?_, ?_, ?_⟩
  · rw [link, getField_setField (by decide) (by decide) hkw, hnat]
  · rw [valueId, getField_setField_of_disjoint (by decide) (by decide) (by decide) (by decide) hkw
      (by decide), setValueId, getField_setField (by decide) (by decide) hnw, hnat']
  · rw [isLeaf_eq, isLeaf_eq, getLsbD_setField (by decide) (by decide) hkw, if_neg (by decide),
      setValueId, getLsbD_setField (by decide) (by decide) hnw, if_neg (by decide)]

theorem setLink_outcome {k n : Nat} (hn : n < 8) (u : BitVec 32) :
    Outcome (k < 2 ^ 28) (fun u' => link u' = k ∧ valueId u' = n ∧ isLeaf u' = isLeaf u)
      (setLink k (setValueId n u)) := by
  by_cases hk : k < 2 ^ 28
  · obtain ⟨u', hset, hu'⟩ := setLink_ok hk hn u
    rw [hset]
    exact .ok hu'
  · rw [setLink, if_pos (show k ≥ UNIT_LINK_MAX from Nat.not_lt.mp hk)]
    exact .thrown hk

end

/-! ## `DoubleArrayKey` -/

/-- A zero-terminated key. `moved` says how often `key_` has been incremented. -/
structure DoubleArrayKey where
  text : Bytes
  moved : Nat
  index : Nat
  value : BitVec 32

namespace DoubleArrayKey

/-- What `key_` points to, with the terminator. -/
def key_ (k : DoubleArrayKey) : Bytes := (k.text ++ [0]).drop k.moved

def length (k : DoubleArrayKey) : Nat := k.text.length - k.moved

/-- `operator[]`. -/
def char (k : DoubleArrayKey) (i : Nat) : Option UInt8 := k.key_[i]?

/-- `operator++`. -/
def incr (k : DoubleArrayKey) : DoubleArrayKey := { k with moved := k.moved + 1 }

/-- `operator--`. -/
def decr (k : DoubleArrayKey) : DoubleArrayKey := { k with moved := k.moved - 1 }

/-- The characters from `rkey(0)` on. -/
def rkey (k : DoubleArrayKey) : Bytes := (k.text.drop k.moved).reverse ++ [0]

def compareLoop : Bytes → Bytes → Int
  | a :: as, b :: bs => if a ≠ 0 ∧ a = b then compareLoop as bs else a.toNat - b.toNat
  | _, _ => 0

/-- `compare`, like `strcmp`. -/
def compare (lhs rhs : DoubleArrayKey) : Int := compareLoop lhs.key_ rhs.key_

def isSuffixLoop : Bytes → Bytes → Bool
  | a :: as, b :: bs => if a ≠ 0 ∧ a = b then isSuffixLoop as bs else a == 0
  | _, _ => false

def isSuffixOf (k rhs : DoubleArrayKey) : Bool := isSuffixLoop k.rkey rhs.rkey

def reversedLoop : Bytes → Bytes → Bool
  | a :: as, b :: bs => if a ≠ 0 ∧ a = b then reversedLoop as bs else a > b
  | _, _ => false

def reversedComparisonFunc (lhs rhs : DoubleArrayKey) : Bool := reversedLoop lhs.rkey rhs.rkey

end DoubleArrayKey

/-- The keys that `build_double_array` hands to the builder: in ascending order, each one
once. -/
def internalKeys (internal_keys : List DoubleArrayKey) :
    List (Bytes × Int) → Except Failure (List DoubleArrayKey)
  | [] => .ok internal_keys
  | (key, value) :: rest =>
    let k : DoubleArrayKey := ⟨cstr key, 0, 0, BitVec.ofInt 32 value⟩
    match internal_keys.getLast? with
    | none => internalKeys (internal_keys ++ [k]) rest
    | some last =>
      let result := last.compare k
      if result = 0 then internalKeys internal_keys rest
      else if 0 < result then .error (THROW "1056" "Unsorted keys")
      else internalKeys (internal_keys ++ [k]) rest

end CommonTools.DartsClone
