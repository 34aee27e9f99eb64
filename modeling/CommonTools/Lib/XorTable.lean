import Mathlib.Data.Fintype.EquivFin
import Mathlib.Data.Nat.Bitwise
import Mathlib.Logic.Function.Basic
import Mathlib.Tactic.Common

/-! # Tables addressed by exclusive or

The states of an automaton share the cells of one table: the cell for a letter of a state
is at the exclusive or of the letter and a base. A cell holds its letter, so it belongs to
one base. When a block of the table is full, the cells that are left get letters of a base
that no state has. -/
namespace CommonTools.Lib

/-! ## Cells of a block -/

theorem xor_byte_div (b : Nat) (c : UInt8) : (b ^^^ c.toNat) / 256 = b / 256 := by
  have hdiv := @Nat.xor_div_two_pow b c.toNat 8
  rw [show c.toNat / 2 ^ 8 = 0 from Nat.div_eq_of_lt c.toNat_lt, Nat.xor_zero] at hdiv
  exact hdiv

theorem xor_byte_cancel (b : Nat) (c : UInt8) : b ^^^ c.toNat ^^^ c.toNat = b :=
  Nat.xor_xor_cancel_right b c.toNat

theorem xor_byte_eq_iff {p b : Nat} {c : UInt8} : p ^^^ c.toNat = b ↔ p = b ^^^ c.toNat := by
  constructor
  · rintro rfl
    exact (xor_byte_cancel p c).symm
  · rintro rfl
    exact xor_byte_cancel b c

/-- Two cells of one block differ in a letter. -/
theorem exists_byte {p b : Nat} (h : p / 256 = b / 256) : ∃ c : UInt8, p = b ^^^ c.toNat := by
  have hlt : b ^^^ p < 256 := by
    have hdiv := @Nat.xor_div_two_pow b p 8
    have h' : b / 2 ^ 8 = p / 2 ^ 8 := h.symm
    rw [h', Nat.xor_self] at hdiv
    exact (Nat.div_eq_zero_iff_lt (by decide)).mp hdiv
  refine ⟨UInt8.ofNat (b ^^^ p), ?_⟩
  rw [UInt8.toNat_ofNat_of_lt' hlt, ← Nat.xor_assoc, Nat.xor_self, Nat.zero_xor]

/-! ## Letters and bases -/

variable {σ : Type}

/-- `owner b` is the state at base `b`. A cell that is fixed belongs to a state, or to a base
without one in a block that is full. -/
structure XorTable (has : σ → UInt8 → Prop) (owner : Nat → Option σ) (fixed : Nat → Prop)
    (label : Nat → UInt8) : Prop where
  child : ∀ {b s c}, owner b = some s → has s c →
    fixed (b ^^^ c.toNat) ∧ label (b ^^^ c.toNat) = c
  cell : ∀ {p}, fixed p →
    (∃ s, owner (p ^^^ (label p).toNat) = some s ∧ has s (label p)) ∨
      owner (p ^^^ (label p).toNat) = none ∧ ∀ q, q / 256 = p / 256 → fixed q
  inhabited : ∀ {b s}, owner b = some s → ∃ c, has s c

namespace XorTable
variable {has : σ → UInt8 → Prop} {owner : Nat → Option σ} {fixed fixed' : Nat → Prop}
  {label label' : Nat → UInt8} {b : Nat} {s : σ} {c : UInt8}

/-- The letter in a cell decides whether the state has a child there. -/
theorem label_eq_iff (h : XorTable has owner fixed label) (hb : owner b = some s)
    (hfixed : fixed (b ^^^ c.toNat)) : label (b ^^^ c.toNat) = c ↔ has s c := by
  refine ⟨fun hc => ?_, fun hc => (h.child hb hc).2⟩
  have hcell := h.cell hfixed
  rw [hc, xor_byte_cancel, hb] at hcell
  obtain ⟨s', hs', hhas⟩ | ⟨hnone, -⟩ := hcell
  · cases hs'
    exact hhas
  · cases hnone

theorem base_unique (h : XorTable has owner fixed label) {b' : Nat} {s' : σ} {c' : UInt8}
    (hb : owner b = some s) (hc : has s c) (hb' : owner b' = some s') (hc' : has s' c')
    (heq : b ^^^ c.toNat = b' ^^^ c'.toNat) : b = b' ∧ c = c' := by
  have hl := (h.child hb hc).2
  rw [heq, (h.child hb' hc').2] at hl
  subst hl
  exact ⟨by rw [← xor_byte_cancel b c', heq, xor_byte_cancel], rfl⟩

/-- The letters in cells that are not fixed do not matter. -/
theorem congr (h : XorTable has owner fixed label) (hfixed : ∀ p, fixed' p ↔ fixed p)
    (hlabel : ∀ p, fixed p → label' p = label p) : XorTable has owner fixed' label' where
  child hb hc := by
    obtain ⟨hfix, hl⟩ := h.child hb hc
    exact ⟨(hfixed _).mpr hfix, by rw [hlabel _ hfix, hl]⟩
  cell {p} hp := by
    have hfix := (hfixed p).mp hp
    rw [hlabel p hfix]
    exact (h.cell hfix).imp id fun ⟨hnone, hfull⟩ => ⟨hnone, fun q hq => (hfixed q).mpr (hfull q hq)⟩
  inhabited := h.inhabited

/-- A state laid out at a base of its own. -/
theorem place (h : XorTable has owner fixed label) (hb : owner b = none) (hs : ∃ c, has s c)
    (hfree : ∀ c, has s c → ¬ fixed (b ^^^ c.toNat))
    (hfixed : ∀ p, fixed' p ↔ fixed p ∨ ∃ c, has s c ∧ p = b ^^^ c.toNat)
    (hold : ∀ p, fixed p → label' p = label p)
    (hnew : ∀ c, has s c → label' (b ^^^ c.toNat) = c) :
    XorTable has (Function.update owner b (some s)) fixed' label' where
  child {b' s' c} hb' hc := by
    by_cases he : b' = b
    · subst he
      rw [Function.update_self, Option.some.injEq] at hb'
      subst hb'
      exact ⟨(hfixed _).mpr (.inr ⟨c, hc, rfl⟩), hnew c hc⟩
    · rw [Function.update_of_ne he] at hb'
      obtain ⟨hfix, hl⟩ := h.child hb' hc
      exact ⟨(hfixed _).mpr (.inl hfix), by rw [hold _ hfix, hl]⟩
  cell {p} hp := by
    rcases (hfixed p).mp hp with hp | ⟨c, hc, rfl⟩
    · rw [hold p hp]
      obtain ⟨s', hs', hhas⟩ | ⟨hnone, hfull⟩ := h.cell hp
      · have hne : p ^^^ (label p).toNat ≠ b := fun he => by
          rw [he, hb] at hs'
          cases hs'
        exact .inl ⟨s', by rw [Function.update_of_ne hne, hs'], hhas⟩
      · -- the new base has a free cell, the block of `p` has none
        have hne : p ^^^ (label p).toNat ≠ b := fun he => by
          obtain ⟨c, hc⟩ := hs
          refine hfree c hc (hfull _ ?_)
          rw [xor_byte_div, ← he, xor_byte_div]
        exact .inr ⟨by rw [Function.update_of_ne hne, hnone],
          fun q hq => (hfixed q).mpr (.inl (hfull q hq))⟩
    · rw [hnew c hc, xor_byte_cancel, Function.update_self]
      exact .inl ⟨s, rfl, hc⟩
  inhabited {b' s'} hb' := by
    by_cases he : b' = b
    · rw [he, Function.update_self, Option.some.injEq] at hb'
      exact hb' ▸ hs
    · rw [Function.update_of_ne he] at hb'
      exact h.inhabited hb'

/-- The cells that are left in a block get the letters of an unused base. -/
theorem fill (h : XorTable has owner fixed label) {u : Nat} (hu : owner u = none)
    (hfixed : ∀ p, fixed' p ↔ fixed p ∨ p / 256 = u / 256)
    (hold : ∀ p, fixed p → label' p = label p)
    (hnew : ∀ p, p / 256 = u / 256 → ¬ fixed p → p ^^^ (label' p).toNat = u) :
    XorTable has owner fixed' label' where
  child hb hc := by
    obtain ⟨hfix, hl⟩ := h.child hb hc
    exact ⟨(hfixed _).mpr (.inl hfix), by rw [hold _ hfix, hl]⟩
  cell {p} hp := by
    by_cases hfix : fixed p
    · rw [hold p hfix]
      refine (h.cell hfix).imp id fun ⟨hnone, hfull⟩ => ⟨hnone, fun q hq => ?_⟩
      exact (hfixed q).mpr (.inl (hfull q hq))
    · have hblock := ((hfixed p).mp hp).resolve_left hfix
      rw [hnew p hblock hfix]
      exact .inr ⟨hu, fun q hq => (hfixed q).mpr (.inr (hq.trans hblock))⟩
  inhabited := h.inhabited

/-- A block with a free cell has a base without a state: each state of the block has a cell
in it, and no two have the same. -/
theorem exists_unused (h : XorTable has owner fixed label) {p : Nat} (hp : ¬ fixed p) :
    ∃ u, u / 256 = p / 256 ∧ owner u = none := by
  by_contra hall
  simp only [not_exists, not_and] at hall
  have howned : ∀ c : UInt8, ∃ c' : UInt8, ∃ s,
      owner (p ^^^ c.toNat) = some s ∧ has s c' := fun c => by
    obtain ⟨s, hs⟩ := Option.ne_none_iff_exists'.mp (hall _ (xor_byte_div p c))
    obtain ⟨c', hc'⟩ := h.inhabited hs
    exact ⟨c', s, hs, hc'⟩
  choose letter state hstate hletter using howned
  -- the letter of the cell that the base `p ^^^ c` has, seen from `p`
  have hinj : Function.Injective fun c => c ^^^ letter c := fun c d hcd => by
    replace hcd : c ^^^ letter c = d ^^^ letter d := hcd
    have hnat : c.toNat ^^^ (letter c).toNat = d.toNat ^^^ (letter d).toNat := by
      have := congrArg UInt8.toNat hcd
      rwa [UInt8.toNat_xor, UInt8.toNat_xor] at this
    have heq : p ^^^ c.toNat ^^^ (letter c).toNat = p ^^^ d.toNat ^^^ (letter d).toNat := by
      rw [Nat.xor_assoc, Nat.xor_assoc, hnat]
    have hl := (h.base_unique (hstate c) (hletter c) (hstate d) (hletter d) heq).2
    rw [hl] at hcd
    exact (UInt8.xor_left_inj _).mp hcd
  have hfinite : Finite UInt8 :=
    Finite.of_injective UInt8.toFin fun a b hab => UInt8.toFin_inj.mp hab
  obtain ⟨c, hc⟩ := Finite.surjective_of_injective hinj 0
  have hcell := (h.child (hstate c) (hletter c)).1
  have hzero : c.toNat ^^^ (letter c).toNat = 0 := by
    have := congrArg UInt8.toNat hc
    rwa [UInt8.toNat_xor] at this
  rw [Nat.xor_assoc, hzero, Nat.xor_zero] at hcell
  exact hp hcell

end XorTable

end CommonTools.Lib
