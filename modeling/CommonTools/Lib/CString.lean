import Mathlib.Algebra.Ring.Nat
import Mathlib.Algebra.Ring.Int.Defs
import Mathlib.Data.List.TakeWhile
import Mathlib.Tactic.Common

/-! # Zero-terminated byte strings

A C string is what a pointer into a byte buffer shows: the bytes up to the
first zero. A read that meets no zero before the end of the buffer has no
meaning, so it is `none`; a program that ends in `none` has undefined
behaviour. -/
namespace CommonTools.Lib

abbrev Bytes := List UInt8

/-- No byte of `s` is the terminator. -/
def NulFree (s : Bytes) : Prop := ∀ b ∈ s, b ≠ 0

instance (s : Bytes) : Decidable (NulFree s) := List.decidableBAll (fun b => b ≠ 0) s

/-- What `c_str()` shows of a counted string. -/
def cstr (s : Bytes) : Bytes := s.takeWhile (· != 0)

/-- `strcmp` as an `Ordering`: bytes compare as unsigned. -/
def strcmp (a b : Bytes) : Ordering := compare a b

/-- Append the C string `s` and its terminator, byte by byte. -/
def pushCString (buf s : Bytes) : Bytes := buf ++ cstr s ++ [0]

/-- The C string at offset `p` of `buf`; `none` when the read leaves `buf`. -/
def cstrAt (buf : Bytes) (p : Int) : Option Bytes :=
  if 0 ≤ p ∧ 0 ∈ buf.drop p.toNat then some (cstr (buf.drop p.toNat)) else none

theorem NulFree.nil : NulFree [] := by simp [NulFree]

theorem NulFree.append {a b : Bytes} (ha : NulFree a) (hb : NulFree b) : NulFree (a ++ b) :=
  fun x hx => (List.mem_append.mp hx).elim (ha x) (hb x)

theorem nulFree_append {a b : Bytes} : NulFree (a ++ b) ↔ NulFree a ∧ NulFree b := by
  simp only [NulFree, List.mem_append, or_imp, forall_and]

theorem NulFree.take {s : Bytes} (h : NulFree s) (n : Nat) : NulFree (s.take n) :=
  fun b hb => h b (List.mem_of_mem_take hb)

theorem NulFree.drop {s : Bytes} (h : NulFree s) (n : Nat) : NulFree (s.drop n) :=
  fun b hb => h b (List.mem_of_mem_drop hb)

theorem nulFree_cstr (s : Bytes) : NulFree (cstr s) := by
  intro b hb
  simpa using List.mem_takeWhile_imp hb

@[simp] theorem cstr_eq_self {s : Bytes} (h : NulFree s) : cstr s = s :=
  List.takeWhile_eq_self_iff.mpr fun b hb => by simpa using h b hb

theorem cstr_eq_self_iff {s : Bytes} : cstr s = s ↔ NulFree s := by
  constructor
  · intro h
    rw [← h]
    exact nulFree_cstr s
  · exact cstr_eq_self

theorem cstr_append_of_nulFree {s : Bytes} (h : NulFree s) (rest : Bytes) :
    cstr (s ++ rest) = s ++ cstr rest :=
  List.takeWhile_append_of_pos fun b hb => by simpa using h b hb

/-- The first zero byte of a string that has one. -/
theorem exists_nul {s : Bytes} (h : ¬ NulFree s) : ∃ part tail, s = part ++ 0 :: tail ∧ NulFree part := by
  induction s with
  | nil => exact absurd NulFree.nil h
  | cons b s ih =>
    by_cases hb : b = 0
    · exact ⟨[], s, by rw [hb]; rfl, NulFree.nil⟩
    · have hs : ¬ NulFree s := fun hs => h fun x hx => (List.mem_cons.mp hx).elim (· ▸ hb) (hs x)
      obtain ⟨part, tail, he, hnul⟩ := ih hs
      exact ⟨b :: part, tail, by rw [he]; rfl,
        fun x hx => (List.mem_cons.mp hx).elim (· ▸ hb) (hnul x)⟩

theorem cstr_append_nul {s : Bytes} (h : NulFree s) (rest : Bytes) :
    cstr (s ++ 0 :: rest) = s := by
  rw [cstr_append_of_nulFree h]
  simp [cstr]

@[simp] theorem pushCString_of_nulFree {s : Bytes} (h : NulFree s) (buf : Bytes) :
    pushCString buf s = buf ++ s ++ [0] := by
  rw [pushCString, cstr_eq_self h]

/-- The string written at the end of a buffer is read back from that offset,
whatever is written behind it. -/
theorem cstrAt_written {s : Bytes} (h : NulFree s) (pre post : Bytes) :
    cstrAt (pre ++ s ++ 0 :: post) pre.length = some s := by
  have hd : (pre ++ s ++ 0 :: post).drop pre.length = s ++ 0 :: post := by
    rw [List.append_assoc, List.drop_left]
  simp [cstrAt, cstr_append_nul h]

theorem cstr_append_of_mem {s : Bytes} (h : (0 : UInt8) ∈ s) (post : Bytes) :
    cstr (s ++ post) = cstr s := by
  induction s with
  | nil => simp at h
  | cons b s ih =>
    by_cases hb : b = 0
    · simp [cstr, hb]
    · have hs : (0 : UInt8) ∈ s := by simpa [Ne.symm hb] using h
      have := ih hs
      simp only [cstr] at this ⊢
      rw [List.cons_append, List.takeWhile_cons_of_pos (by simpa using hb),
        List.takeWhile_cons_of_pos (by simpa using hb), this]

/-- A read that stays inside a buffer is not changed by what follows it. -/
theorem cstrAt_append {buf s : Bytes} {p : Int} (h : cstrAt buf p = some s) (post : Bytes) :
    cstrAt (buf ++ post) p = some s := by
  unfold cstrAt at h ⊢
  split at h
  · rename_i hp
    have hle : p.toNat ≤ buf.length := by
      by_contra hlt
      rw [List.drop_eq_nil_of_le (by omega)] at hp
      simp at hp
    rw [List.drop_append_of_le_length hle, if_pos ⟨hp.1, List.mem_append_left _ hp.2⟩,
      cstr_append_of_mem hp.2, h]
  · cases h

theorem cstrAt_bounds {buf s : Bytes} {p : Int} (h : cstrAt buf p = some s) :
    0 ≤ p ∧ p < buf.length := by
  unfold cstrAt at h
  split at h
  · rename_i hp
    refine ⟨hp.1, ?_⟩
    by_contra hlt
    rw [List.drop_eq_nil_of_le (by omega)] at hp
    simp at hp
  · cases h

/-! ## The order of `strcmp` and of `std::string` -/

theorem strcmp_eq_iff {a b : Bytes} : strcmp a b = .eq ↔ a = b :=
  Std.compare_eq_iff_eq

theorem strcmp_gt_iff {a b : Bytes} : strcmp a b = .gt ↔ strcmp b a = .lt :=
  @Std.OrientedCmp.gt_iff_lt _ compare _ a b

theorem strcmp_lt_trans {a b c : Bytes} (hab : strcmp a b = .lt) (hbc : strcmp b c = .lt) :
    strcmp a c = .lt :=
  @Std.TransCmp.lt_trans _ compare _ a b c hab hbc

theorem not_strcmp_lt_self (a : Bytes) : strcmp a a ≠ .lt := by
  rw [strcmp_eq_iff.mpr rfl]; decide

end CommonTools.Lib
