import Mathlib.Order.Fin.Basic
import CommonTools.Index.CommonIndex
import CommonTools.Lib.PartitionOrder

/-! # Posting lists by document weight

`QSort` of `CommonIndex` puts the postings of heavier documents first. -/
namespace CommonTools.Index.CommonIndex
open CommonTools.Lib

variable {D I W : Type} [LinearOrder W] {weight : I → W} (d : I)

/-! ## A partition -/

/-- The postings of one range from the heaviest document to the lightest. -/
abbrev Heavier (weight : I → W) (a b : I) : Prop := weight b ≤ weight a

instance (weight : I → W) : IsTrans I (Heavier weight) where
  trans _ _ _ hab hbc := le_trans hbc hab

section
variable [DocType D W] [InvType I] {docs : List D}

theorem partition_splitOn {vect : List I}
    (hall : ∀ inv ∈ vect, weightOf docs inv = some (weight inv)) {left right : Int}
    (h0 : 0 ≤ left) (hlr : left < right) (hright : right < vect.length) :
    ∃ vect' k, partition docs vect left right = some (vect', k) ∧
      SplitOn (Heavier weight) d left right vect vect' k := by
  have hleftAt := at?_elemAt d h0 (by omega : left < vect.length)
  have hrightAt := at?_elemAt d (by omega : 0 ≤ right) hright
  have hleftW := hall _ (elemAt_mem d h0 (by omega : left < vect.length))
  have hrightW := hall _ (elemAt_mem d (by omega : 0 ≤ right) hright)
  by_cases htwo : right = left + 1 ∧ weight (elemAt d vect left) < weight (elemAt d vect right)
  · obtain ⟨rfl, hlt⟩ := htwo
    obtain ⟨vect', hexch, hperm, hswap⟩ :=
      swap_elemAt d h0 (by omega : left < vect.length) (by omega : 0 ≤ left + 1) hright
    refine ⟨vect', left + 1, ?_, SplitOn.pair_swap hperm hswap (le_of_lt hlt)⟩
    simp [partition, hleftAt, hrightAt, hleftW, hrightW, hlt, hexch]
  · have hside : ∀ inv ∈ vect, notBelow docs (weight (elemAt d vect left)) inv =
        some (decide (weight (elemAt d vect left) ≤ weight inv)) := by
      intro inv hinv
      rw [notBelow, hall inv hinv]
      rfl
    obtain ⟨vect₁, l, r, vect', k, hexch, hsettle, hlast, hsplit⟩ :=
      @exchange_splitOn I (Heavier weight) d vect left right _ _ hside h0 hlr hright
        (fun a ha => of_decide_eq_true ha)
        (fun a ha => le_of_lt (not_le.mp (of_decide_eq_false ha)))
    refine ⟨vect', k, ?_, hsplit⟩
    rw [← hlast, ← hsettle fun r => if r = left then some (vect₁, r)
      else (swap vect₁ left r).bind fun vect' => some (vect', r)]
    by_cases hr : right = left + 1
    · have hnot : ¬ weight (elemAt d vect left) < weight (elemAt d vect right) :=
        fun h => htwo ⟨hr, h⟩
      simp only [partition, if_pos hr, hrightAt, hleftAt, hleftW, hrightW, Option.bind_eq_bind,
        Option.bind_some, hexch, decide_eq_true_iff, if_neg hnot]
    · simp only [partition, if_neg hr, hleftAt, hleftW, Option.bind_eq_bind, Option.bind_some,
        hexch, Bool.false_eq_true, if_false]

/-! ## The whole sort -/

/-- Sorting a range, with any fuel that its length allows. -/
theorem qSort_sorted (size : Nat) {vect : List I}
    (hall : ∀ inv ∈ vect, weightOf docs inv = some (weight inv)) {left right : Int}
    (h0 : 0 ≤ left) (hright : right < vect.length) (hsize : right - left < size) :
    ∃ vect', (∀ n : Nat, right - left < n → qSort docs n vect left right = some vect') ∧
      vect'.Perm vect ∧ Rearranged left right (elemAt d vect) (elemAt d vect') ∧
      SortedOn (Heavier weight) left right (elemAt d vect') := by
  refine @sorted_of_splits I (Heavier weight) d _ _ (partition docs) (qSort docs)
    (fun n vect left right hlr => ?_) (fun n vect left right hlr => ?_)
    (fun vect left right hall h0 hlr hright => partition_splitOn d hall h0 hlr hright)
    size vect hall left right h0 hright hsize
  · cases n <;> exact if_neg hlr
  · rw [qSort, if_pos hlr]
    rfl

/-- **A sorted posting list has the postings of heavier documents first.** -/
theorem qSort_nonincreasing (docs : List D) (vect : List I)
    (hdocs : ∀ inv ∈ vect, (weightOf docs inv).isSome) :
    ∃ vect', (∀ n : Nat, vect.length ≤ n →
        qSort docs n vect 0 (vect.length - 1) = some vect') ∧ vect'.Perm vect ∧
      vect'.Pairwise fun a b => ∀ x ∈ weightOf docs a, ∀ y ∈ weightOf docs b, y ≤ x := by
  cases vect with
  | nil => exact ⟨[], fun n _ => by cases n <;> rfl, List.Perm.nil, List.Pairwise.nil⟩
  | cons d vect =>
    obtain ⟨w, -⟩ := Option.isSome_iff_exists.mp (hdocs d List.mem_cons_self)
    have hall : ∀ inv ∈ d :: vect, weightOf docs inv = some ((weightOf docs inv).getD w) := by
      intro inv hinv
      obtain ⟨x, hx⟩ := Option.isSome_iff_exists.mp (hdocs inv hinv)
      rw [hx]
      rfl
    obtain ⟨vect', hsort, hperm, -, hsorted⟩ := qSort_sorted d ((d :: vect).length + 1) hall
      (Int.le_refl 0) (by omega : ((d :: vect).length : Int) - 1 < (d :: vect).length) (by omega)
    rw [← hperm.length_eq] at hsorted
    refine ⟨vect', fun n hn => hsort n (by omega), hperm, ?_⟩
    refine (pairwise_of_sortedOn hsorted).imp fun hle x hx y hy => ?_
    rw [Heavier, hx, hy] at hle
    exact hle

end

instance : Pod (Fin 256) := podOf UInt8.ofFin UInt8.toFin fun _ => rfl

/-- A light document and a heavy one. -/
def twoDocs : List (DefaultDocType (Fin 256)) := [⟨0, 0⟩, ⟨0, 1⟩]

def threePostings : List DefaultInvType := [⟨0⟩, ⟨1⟩, ⟨0⟩]

theorem qSort_nonincreasing_three :
    ∃ vect', (∀ n : Nat, threePostings.length ≤ n →
        qSort twoDocs n threePostings 0 (threePostings.length - 1) = some vect') ∧
      vect'.Perm threePostings ∧
      vect'.Pairwise fun a b => ∀ x ∈ weightOf twoDocs a, ∀ y ∈ weightOf twoDocs b, y ≤ x :=
  qSort_nonincreasing twoDocs threePostings (by decide)

end CommonTools.Index.CommonIndex
