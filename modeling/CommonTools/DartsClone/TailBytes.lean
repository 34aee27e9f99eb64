import CommonTools.DartsClone.Builder
import CommonTools.DartsClone.Search

/-! # The bytes behind the units

Suffixes and values are appended byte by byte to the memory of the units. What has been
appended stays where it is, and so do the units in front. -/
namespace CommonTools.DartsClone
open CommonTools.Lib

def Stored (units_ : List (BitVec 32)) (start : Nat) (bytes : Bytes) : Prop :=
  ∀ i b, bytes[i]? = some b → byteAt units_ (start + i) = some b

section
variable {units_ units_' : List (BitVec 32)} {start i j : Nat} {byte : UInt8} {xs ys : Bytes}

theorem Stored.append_iff : Stored units_ start (xs ++ ys) ↔
    Stored units_ start xs ∧ Stored units_ (start + xs.length) ys := by
  constructor
  · refine fun h => ⟨fun i b hb => h i b ?_, fun i b hb => ?_⟩
    · rw [List.getElem?_append_left (List.getElem?_eq_some_iff.mp hb).1, hb]
    · rw [Nat.add_assoc]
      refine h _ b ?_
      rw [List.getElem?_append_right (Nat.le_add_right _ _), Nat.add_sub_cancel_left, hb]
  · rintro ⟨hx, hy⟩ i b hb
    by_cases hi : i < xs.length
    · rw [List.getElem?_append_left hi] at hb
      exact hx i b hb
    · rw [List.getElem?_append_right (Nat.not_lt.mp hi)] at hb
      have hat := hy (i - xs.length) b hb
      rwa [Nat.add_assoc, Nat.add_sub_cancel' (Nat.not_lt.mp hi)] at hat

theorem Stored.congr (h : Stored units_ start xs)
    (heq : ∀ i, start ≤ i → i < start + xs.length → byteAt units_' i = byteAt units_ i) :
    Stored units_' start xs := fun i b hb => by
  have hi := (List.getElem?_eq_some_iff.mp hb).1
  rw [heq _ (Nat.le_add_right _ _) (by omega)]
  exact h i b hb

theorem byteAt_set_ne {p : Nat} (u : BitVec 32) (h : i / 4 ≠ p) :
    byteAt (units_.set p u) i = byteAt units_ i := by
  rw [byteAt, List.getElem?_set_ne (Ne.symm h), byteAt]

theorem byteAt_append (h : i < 4 * units_.length) :
    byteAt (units_ ++ units_') i = byteAt units_ i := by
  rw [byteAt, List.getElem?_append_left (by omega), byteAt]

theorem byteAt_pokeByte_self (h : j < 4 * units_.length) :
    byteAt (pokeByte units_ j byte) j = some byte := by
  have hj : j / 4 < units_.length := by omega
  have hbyte : (BitVec.ofNat 32 byte.toNat).toNat < 2 ^ 8 := by
    rw [toNat_ofNat_byte]
    exact byte.toNat_lt
  rw [byteAt, pokeByte, List.getElem?_modify_eq, List.getElem?_eq_getElem hj]
  show some (UInt8.ofNat (getField _ 8 (setField _ 8 _ _)).toNat) = _
  rw [getField_setField (by omega) (by decide) hbyte, toNat_ofNat_byte, UInt8.ofNat_toNat]

theorem byteAt_pokeByte_ne (h : i ≠ j) : byteAt (pokeByte units_ j byte) i = byteAt units_ i := by
  have hbyte : (BitVec.ofNat 32 byte.toNat).toNat < 2 ^ 8 := by
    rw [toNat_ofNat_byte]
    exact byte.toNat_lt
  rw [byteAt, pokeByte, byteAt]
  by_cases hij : i / 4 = j / 4
  · rw [hij, List.getElem?_modify_eq, Option.map_eq_map, Option.map_map]
    refine congrArg (fun f => Option.map f units_[j / 4]?) (funext fun u => ?_)
    rw [Function.comp_apply, getField_setField_of_disjoint (by omega) (by decide) (by omega)
      (by decide) hbyte (by omega)]
  · rw [List.getElem?_modify_ne _ _ (Ne.symm hij)]

end

/-! ## Appending -/

/-- The units reach over the last byte, and no unit is left over. -/
structure Tail.Fits (t : Tail) : Prop where
  covers : t.tail_index_ ≤ 4 * t.units_.length
  tight : 4 * t.units_.length < t.tail_index_ + 4

/-- What is in front of the end stays. -/
structure Tail.Longer (t t' : Tail) : Prop where
  fits : t'.Fits
  byte : ∀ i, i < t.tail_index_ → byteAt t'.units_ i = byteAt t.units_ i
  unit : ∀ p, 4 * p + 4 ≤ t.tail_index_ → t'.units_[p]? = t.units_[p]?

theorem Tail.Longer.stored {t t' : Tail} (h : t.Longer t') {start : Nat} {xs : Bytes}
    (hend : start + xs.length ≤ t.tail_index_) (hs : Stored t.units_ start xs) :
    Stored t'.units_ start xs :=
  hs.congr fun i _ hi => h.byte i (by omega)

theorem Tail.appendByte_ok {t : Tail} (h : t.Fits) (byte : UInt8) :
    t.Longer (t.appendByte byte) ∧ (t.appendByte byte).tail_index_ = t.tail_index_ + 1 ∧
      byteAt (t.appendByte byte).units_ t.tail_index_ = some byte := by
  have hgrow : ∃ units_, (if t.tail_index_ ≥ 4 * t.units_.length then t.units_ ++ [0]
      else t.units_) = units_ ∧ t.tail_index_ + 1 ≤ 4 * units_.length ∧
      4 * units_.length < t.tail_index_ + 5 ∧
      (∀ i, i < t.tail_index_ → byteAt units_ i = byteAt t.units_ i) ∧
      ∀ p, 4 * p + 4 ≤ t.tail_index_ → units_[p]? = t.units_[p]? := by
    have hcovers := h.covers
    have htight := h.tight
    by_cases hfull : t.tail_index_ ≥ 4 * t.units_.length
    · refine ⟨_, if_pos hfull, ?_, ?_, fun i hi => byteAt_append (by omega), fun p hp => ?_⟩
      · rw [List.length_append, List.length_singleton]
        omega
      · rw [List.length_append, List.length_singleton]
        omega
      · rw [List.getElem?_append_left (by omega)]
    · exact ⟨_, if_neg hfull, by omega, by omega, fun _ _ => rfl, fun _ _ => rfl⟩
  obtain ⟨units_, hif, hlow, hhigh, hbyte, hunit⟩ := hgrow
  have hlen : (pokeByte units_ t.tail_index_ byte).length = units_.length := List.length_modify _ _ _
  have happend : t.appendByte byte = ⟨pokeByte units_ t.tail_index_ byte, t.tail_index_ + 1⟩ := by
    rw [Tail.appendByte]
    simp only [hif]
  rw [happend]
  refine ⟨⟨⟨?_, ?_⟩, fun i hi => ?_, fun p hp => ?_⟩, rfl, ?_⟩
  · show _ ≤ 4 * (pokeByte units_ t.tail_index_ byte).length
    rw [hlen]
    exact hlow
  · show 4 * (pokeByte units_ t.tail_index_ byte).length < t.tail_index_ + 1 + 4
    rw [hlen]
    omega
  · rw [byteAt_pokeByte_ne (Nat.ne_of_lt hi), hbyte i hi]
  · show (pokeByte units_ t.tail_index_ byte)[p]? = _
    rw [pokeByte, List.getElem?_modify_ne _ _ (by omega), hunit p hp]
  · exact byteAt_pokeByte_self (by omega)

theorem Tail.appendBytes_ok : ∀ {xs : Bytes} {t : Tail}, t.Fits →
    t.Longer (xs.foldl Tail.appendByte t) ∧
      (xs.foldl Tail.appendByte t).tail_index_ = t.tail_index_ + xs.length ∧
      Stored (xs.foldl Tail.appendByte t).units_ t.tail_index_ xs := by
  intro xs
  induction xs with
  | nil => exact fun h => ⟨⟨h, fun _ _ => rfl, fun _ _ => rfl⟩, rfl, fun i b hb => by cases hb⟩
  | cons x xs ih =>
    intro t h
    obtain ⟨hlonger, hindex, hat⟩ := Tail.appendByte_ok h x
    obtain ⟨hlonger', hindex', hstored⟩ := ih hlonger.fits
    rw [List.foldl_cons, hindex', hindex]
    rw [hindex] at hstored
    refine ⟨⟨hlonger'.fits, fun i hi => ?_, fun p hp => ?_⟩, ?_, fun i b hb => ?_⟩
    · rw [hlonger'.byte i (by omega), hlonger.byte i hi]
    · rw [hlonger'.unit p (by omega), hlonger.unit p hp]
    · rw [List.length_cons]
      omega
    · cases i with
      | zero =>
        rw [Nat.add_zero, hlonger'.byte _ (by omega), hat]
        exact hb
      | succ i =>
        have hnext := hstored i b hb
        rwa [Nat.add_right_comm] at hnext

end CommonTools.DartsClone
