import Mathlib.Data.List.Basic
import Mathlib.Tactic.Common
import Mathlib.Data.Nat.Basic
import CommonTools.Lib.CString

/-! # Flat records in binary files

`Pod` describes a type whose objects are copied to a file byte by byte.
`fread` keeps the memory it was given behind a short read, so that a program
which ignores the returned count still has a meaning. -/
namespace CommonTools.Lib

/-- A type of fixed-size objects with their bytes in memory. -/
class Pod (α : Type) where
  size : Nat
  toBytes : α → Bytes
  ofBytes : Bytes → α
  length_toBytes : ∀ a, (toBytes a).length = size
  ofBytes_toBytes : ∀ a, ofBytes (toBytes a) = a

attribute [simp] Pod.length_toBytes Pod.ofBytes_toBytes

/-! ## Little-endian integers -/

/-- The `n` low bytes of `v`, low byte first. -/
def leBytes : Nat → Nat → Bytes
  | 0, _ => []
  | n + 1, v => UInt8.ofNat v :: leBytes n (v / 256)

def leNat : Bytes → Nat
  | [] => 0
  | b :: rest => b.toNat + 256 * leNat rest

@[simp] theorem leBytes_length (n v : Nat) : (leBytes n v).length = n := by
  induction n generalizing v with
  | zero => rfl
  | succ n ih => simp [leBytes, ih]

theorem leNat_leBytes (n v : Nat) : leNat (leBytes n v) = v % 256 ^ n := by
  induction n generalizing v with
  | zero => simp [leBytes, leNat, Nat.mod_one]
  | succ n ih =>
    have hb : (UInt8.ofNat v).toNat = v % 256 := by simp
    rw [leBytes, leNat, ih, hb, Nat.pow_succ', Nat.mod_mul]

/-- A bit vector of `8 * n` bits, little-endian. -/
@[reducible] def podBitVec (n : Nat) : Pod (BitVec (8 * n)) where
  size := n
  toBytes v := leBytes n v.toNat
  ofBytes b := BitVec.ofNat _ (leNat b)
  length_toBytes v := leBytes_length n v.toNat
  ofBytes_toBytes v := by
    have hp : 256 ^ n = 2 ^ (8 * n) := by rw [Nat.pow_mul]
    apply BitVec.eq_of_toNat_eq
    rw [leNat_leBytes, hp, BitVec.toNat_ofNat, Nat.mod_mod, Nat.mod_eq_of_lt v.isLt]

instance : Pod (BitVec 32) := podBitVec 4
instance : Pod (BitVec 64) := podBitVec 8

instance : Pod UInt8 where
  size := 1
  toBytes b := [b]
  ofBytes b := b.headD 0
  length_toBytes _ := rfl
  ofBytes_toBytes _ := rfl

/-- Two members laid out one after the other. -/
instance {α β : Type} [Pod α] [Pod β] : Pod (α × β) where
  size := Pod.size α + Pod.size β
  toBytes p := Pod.toBytes p.1 ++ Pod.toBytes p.2
  ofBytes b := (Pod.ofBytes (b.take (Pod.size α)), Pod.ofBytes (b.drop (Pod.size α)))
  length_toBytes p := by simp
  ofBytes_toBytes p := by
    obtain ⟨a, b⟩ := p
    simp [List.take_left', List.drop_left']

/-- A record with the layout of its members in declaration order. -/
@[reducible] def podOf {α β : Type} [Pod β] (f : α → β) (g : β → α) (h : ∀ a, g (f a) = a) : Pod α where
  size := Pod.size β
  toBytes a := Pod.toBytes (f a)
  ofBytes b := g (Pod.ofBytes b)
  length_toBytes a := Pod.length_toBytes (f a)
  ofBytes_toBytes a := by rw [Pod.ofBytes_toBytes, h]

/-- Trailing padding; its content carries no value. -/
@[reducible] def podPadded {α : Type} (p : Pod α) (pad : Nat) : Pod α where
  size := p.size + pad
  toBytes a := p.toBytes a ++ List.replicate pad 0
  ofBytes b := p.ofBytes (b.take p.size)
  length_toBytes a := by simp [p.length_toBytes]
  ofBytes_toBytes a := by
    rw [List.take_left' (p.length_toBytes a), p.ofBytes_toBytes]

/-! ## Blocks of records -/

section Block
variable {α : Type} [Pod α]

/-- The bytes of an array of records. -/
def block (l : List α) : Bytes := l.flatMap Pod.toBytes

/-- The `n` records that a block of memory holds. -/
def unblock (α : Type) [Pod α] : Nat → Bytes → List α
  | 0, _ => []
  | n + 1, b => Pod.ofBytes (b.take (Pod.size α)) :: unblock α n (b.drop (Pod.size α))

@[simp] theorem block_nil : block ([] : List α) = [] := rfl

@[simp] theorem block_cons (a : α) (l : List α) : block (a :: l) = Pod.toBytes a ++ block l := rfl

@[simp] theorem block_length (l : List α) : (block l).length = Pod.size α * l.length := by
  induction l with
  | nil => rfl
  | cons a l ih => simp [ih, Nat.mul_succ, Nat.add_comm]

@[simp] theorem unblock_length (n : Nat) (b : Bytes) : (unblock α n b).length = n := by
  induction n generalizing b with
  | zero => rfl
  | succ n ih => simp [unblock, ih]

theorem unblock_block (l : List α) : unblock α l.length (block l) = l := by
  induction l with
  | nil => rfl
  | cons a l ih =>
    simp only [List.length_cons, unblock, block_cons,
      List.take_left' (Pod.length_toBytes a), List.drop_left' (Pod.length_toBytes a),
      Pod.ofBytes_toBytes, ih]

end Block

/-! ## `fread` -/

/-- What one `fread` leaves: the memory of the target, the number of complete
items, and the unread part of the file. -/
structure FileRead where
  mem : Bytes
  count : Nat
  rest : Bytes
deriving DecidableEq

/-- `fread(p, size, n, fp)` with `old` the bytes at `p` before the call. A
short read overwrites only what it got. -/
def fread (old : Bytes) (size n : Nat) (file : Bytes) : FileRead :=
  let got := file.take (size * n)
  { mem := got ++ old.drop got.length
    count := got.length / size
    rest := file.drop (size * n) }

/-- The content of a fresh object: `junk tag` says what its memory held. -/
def fresh (junk : Nat → Nat → UInt8) (tag n : Nat) : Bytes := (List.range n).map (junk tag)

@[simp] theorem fresh_length (junk : Nat → Nat → UInt8) (tag n : Nat) :
    (fresh junk tag n).length = n := by simp [fresh]

/-- A full read replaces the whole target and consumes exactly its bytes. -/
theorem fread_full (old b rest : Bytes) {size n : Nat} (hs : 0 < size) (hb : b.length = size * n)
    (ho : old.length = size * n) :
    fread old size n (b ++ rest) = ⟨b, n, rest⟩ := by
  have ht : (b ++ rest).take (size * n) = b := List.take_left' hb
  have hd : (b ++ rest).drop (size * n) = rest := List.drop_left' hb
  have hold : old.drop (size * n) = [] := by rw [← ho, List.drop_length]
  simp only [fread, ht, hd, hold, hb, Nat.mul_div_cancel_left n hs, List.append_nil]

theorem fread_toBytes {α : Type} [Pod α] (a : α) (old rest : Bytes) (hs : 0 < Pod.size α)
    (ho : old.length = Pod.size α) :
    fread old (Pod.size α) 1 (Pod.toBytes a ++ rest) = ⟨Pod.toBytes a, 1, rest⟩ :=
  fread_full old _ rest hs (by simp) (by simpa using ho)

theorem fread_u32 (v : BitVec 32) (old rest : Bytes) (ho : old.length = 4) :
    fread old 4 1 (Pod.toBytes v ++ rest) = ⟨Pod.toBytes v, 1, rest⟩ :=
  fread_toBytes v old rest (by decide) ho

theorem fread_u64 (v : BitVec 64) (old rest : Bytes) (ho : old.length = 8) :
    fread old 8 1 (Pod.toBytes v ++ rest) = ⟨Pod.toBytes v, 1, rest⟩ :=
  fread_toBytes v old rest (by decide) ho

theorem fread_block {α : Type} [Pod α] (l : List α) (old rest : Bytes) (hs : 0 < Pod.size α)
    (ho : old.length = Pod.size α * l.length) :
    fread old (Pod.size α) l.length (block l ++ rest) = ⟨block l, l.length, rest⟩ :=
  fread_full old _ rest hs (block_length l) ho

theorem fread_bytes (b old rest : Bytes) (ho : old.length = b.length) :
    fread old 1 b.length (b ++ rest) = ⟨b, b.length, rest⟩ :=
  fread_full old b rest Nat.one_pos (by simp) (by simpa using ho)

/-- A file that is too short gives fewer items, and nothing is left of it. -/
theorem fread_short (old : Bytes) {size n : Nat} {file : Bytes} (h : file.length < size * n) :
    (fread old size n file).count < n ∧ (fread old size n file).rest = [] := by
  have hrest : file.drop (size * n) = [] := List.drop_eq_nil_of_le (Nat.le_of_lt h)
  refine ⟨?_, hrest⟩
  rw [fread, List.take_of_length_le (Nat.le_of_lt h)]
  exact Nat.div_lt_of_lt_mul h

end CommonTools.Lib
