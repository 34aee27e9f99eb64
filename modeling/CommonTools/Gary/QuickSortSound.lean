import Mathlib.Data.Nat.Log
import Mathlib.Order.Lattice
import Mathlib.Tactic.Ring
import CommonTools.Gary.QuickSort
import CommonTools.Lib.RangeStack

/-! # `QuickSortAsc` sorts

The bubble pass puts a smallest element in front, at which the insertions stop; the
median of three leaves elements at both ends, at which the two scans stop. The loop
keeps its ranges apart and everything else in order. -/
namespace CommonTools.Gary
open CommonTools.Lib CommonTools.Lib.RangeStack

section
variable {T : Type} [LinearOrder T] {w : Window} {p : Int → T} {i j l r : Int}

/-! ## Small ranges -/

/-- An exchange of two elements that are not in order. -/
theorem exchange_if_spec (hi : w.lo ≤ i ∧ i ≤ w.up) (hj : w.lo ≤ j ∧ j ≤ w.up)
    (hil : l ≤ i ∧ i ≤ r) (hjl : l ≤ j ∧ j ≤ r) (p : Int → T) :
    ∃ p', (if p j < p i then w.exchange i j p else some p) = some p' ∧ Rearranged l r p p' ∧
      p' i = min (p i) (p j) ∧ p' j = max (p i) (p j) ∧ ∀ k, k ≠ i → k ≠ j → p' k = p k := by
  by_cases hlt : p j < p i
  · rw [if_pos hlt, Window.exchange_eq hi hj]
    refine ⟨_, rfl, Rearranged.swap p hil hjl, ?_, ?_, fun k hki hkj => ?_⟩
    · rw [Equiv.swap_apply_left, min_eq_right hlt.le]
    · rw [Equiv.swap_apply_right, max_eq_left hlt.le]
    · rw [Equiv.swap_apply_of_ne_of_ne hki hkj]
  · rw [if_neg hlt]
    have hle := not_lt.mp hlt
    exact ⟨p, rfl, Rearranged.refl l r p, (min_eq_left hle).symm, (max_eq_right hle).symm,
      fun _ _ _ => rfl⟩

/-- The bubble pass brings a smallest element to the front. -/
theorem bubble_spec (hlo : w.lo ≤ l) : ∀ (count : Nat) (j : Int) (p : Int → T), j - l = count →
    j ≤ w.up → ∃ p', bubble w count j p = some p' ∧ Rearranged l j p p' ∧
      ∀ i, l ≤ i → i ≤ j → p' l ≤ p' i := by
  intro count
  induction count with
  | zero =>
    intro j p hcount _
    refine ⟨p, rfl, Rearranged.refl l j p, fun i hi hij => ?_⟩
    obtain rfl : i = l := by omega
    exact le_refl _
  | succ count ih =>
    intro j p hcount hup
    have hj : w.lo ≤ j ∧ j ≤ w.up := ⟨by omega, hup⟩
    have hpred : w.lo ≤ j - 1 ∧ j - 1 ≤ w.up := by omega
    obtain ⟨p₁, hround, hrearr₁, hmin, hmax, -⟩ :=
      exchange_if_spec hpred hj (by omega : l ≤ j - 1 ∧ j - 1 ≤ j) (by omega : l ≤ j ∧ j ≤ j) p
    obtain ⟨p', hrest, hrearr, hfirst⟩ :=
      ih (j - 1) p₁ (by omega) (by omega)
    have hlast : p' j = p₁ j := hrearr.outside (by omega)
    refine ⟨p', ?_, hrearr₁.trans (hrearr.mono (Int.le_refl l) (by omega)), fun i hi hij => ?_⟩
    · unfold bubble
      simp only [Window.read_eq hj.1 hj.2, Window.read_eq hpred.1 hpred.2, Option.bind_eq_bind,
        Option.bind_some]
      rw [Window.exchange_comm hj hpred]
      by_cases hlt : p j < p (j - 1)
      · rw [if_pos hlt] at hround ⊢
        rw [hround]
        exact hrest
      · rw [if_neg hlt] at hround ⊢
        obtain rfl := Option.some.inj hround
        exact hrest
    · by_cases heq : i = j
      · -- the larger of the last two stands behind the smaller one
        obtain ⟨k, hk, hkj, hsource⟩ :=
          hrearr.symm.source (by omega : l ≤ j - 1) (Int.le_refl (j - 1))
        rw [heq, hlast, hmax]
        refine (hfirst k hk hkj).trans ?_
        rw [← hsource, hmin]
        exact min_le_max
      · exact hfirst i hi (by omega)

/-- Between `l` and `j` only the element at `k` is not in its place: it may have to go
down. -/
structure Sinking (l j k : Int) (p : Int → T) : Prop where
  rest : ∀ a b, l ≤ a → a < b → b ≤ j → a ≠ k → b ≠ k → p a ≤ p b
  above : ∀ b, k < b → b ≤ j → p k ≤ p b

theorem Sinking.step {k : Int} (h : Sinking l j k p) (hk : l < k ∧ k ≤ j) (hlt : p k < p (k - 1)) :
    Sinking l j (k - 1) fun i => p (Equiv.swap k (k - 1) i) := by
  have hother : ∀ i, i ≠ k → i ≠ k - 1 → p (Equiv.swap k (k - 1) i) = p i := by
    intro i hi hi'
    rw [Equiv.swap_apply_of_ne_of_ne hi hi']
  have hat : p (Equiv.swap k (k - 1) k) = p (k - 1) := by rw [Equiv.swap_apply_left]
  have hbelow : p (Equiv.swap k (k - 1) (k - 1)) = p k := by rw [Equiv.swap_apply_right]
  constructor
  · intro a b ha hab hb hak hbk
    by_cases hka : a = k
    · rw [hka, hat, hother b (by omega) hbk]
      exact h.rest (k - 1) b (by omega) (by omega) hb (by omega) (by omega)
    · by_cases hkb : b = k
      · rw [hkb, hat, hother a hka hak]
        exact h.rest a (k - 1) ha (by omega) (by omega) hka (by omega)
      · rw [hother a hka hak, hother b hkb hbk]
        exact h.rest a b ha hab hb hka hkb
  · intro b hkb hb
    rw [hbelow]
    by_cases heq : b = k
    · rw [heq, hat]
      exact hlt.le
    · rw [hother b heq (by omega)]
      exact h.above b (by omega) hb

/-- An element that is not smaller than the one before it has found its place. -/
theorem Sinking.sorted {k : Int} (h : Sinking l j k p) (hle : l < k → p (k - 1) ≤ p k) :
    SortedOn (· ≤ ·) l j p := by
  intro a b ha hab hb
  by_cases hka : a = k
  · rw [hka] at hab ⊢
    exact h.above b hab hb
  · by_cases hkb : b = k
    · rw [hkb] at hab ⊢
      by_cases heq : a = k - 1
      · rw [heq]
        exact hle (by omega)
      · exact (h.rest a (k - 1) ha (by omega) (by omega) hka (by omega)).trans (hle (by omega))
    · exact h.rest a b ha hab hb hka hkb

theorem sink_spec (hlo : w.lo ≤ l) (hup : j ≤ w.up) (V : T) : ∀ (rounds : Nat) (k : Int)
    (p : Int → T), p k = V → l < k ∧ k ≤ j → k - l < rounds → p l ≤ V → Sinking l j k p →
      ∃ p', sink w V rounds k p = some p' ∧ Rearranged (l + 1) j p p' ∧
        SortedOn (· ≤ ·) l j p' := by
  intro rounds
  induction rounds with
  | zero =>
    intro k p _ hk hrounds _ _
    exact absurd hrounds (by omega)
  | succ rounds ih =>
    intro k p hV hk hrounds hfirst h
    unfold sink
    simp only [Window.read_eq (by omega : w.lo ≤ k - 1) (by omega : k - 1 ≤ w.up),
      Option.bind_eq_bind, Option.bind_some]
    by_cases hlt : V < p (k - 1)
    · -- the first element is no larger than `V`
      have hkl : l < k - 1 := by
        by_contra hnot
        obtain rfl : k - 1 = l := by omega
        exact absurd hfirst (not_le.mpr hlt)
      have hstep := h.step hk (hV ▸ hlt)
      obtain ⟨p', hrest, hrearr, hsorted⟩ := ih (k - 1)
        (fun i => p (Equiv.swap k (k - 1) i)) (by rw [Equiv.swap_apply_right, hV]) (by omega)
        (by omega) (by rwa [Equiv.swap_apply_of_ne_of_ne (by omega) (by omega)]) hstep
      rw [if_pos hlt]
      simp only [Window.write_eq (by omega : w.lo ≤ k) (by omega : k ≤ w.up),
        Window.write_eq (by omega : w.lo ≤ k - 1) (by omega : k - 1 ≤ w.up), Option.bind_some]
      rw [← hV, Rearranged.update_update, hV]
      refine ⟨p', hrest, ?_, hsorted⟩
      exact (Rearranged.swap p (by omega) (by omega)).trans hrearr
    · rw [if_neg hlt]
      refine ⟨p, rfl, Rearranged.refl (l + 1) j p, h.sorted fun _ => ?_⟩
      rw [hV]
      exact not_lt.mp hlt

/-- The insertions, with a smallest element in front. -/
theorem insertion_spec (hlo : w.lo ≤ l) (hup : r ≤ w.up) {rounds : Nat} (hrounds : r - l < rounds) :
    ∀ (count : Nat) (j : Int) (p : Int → T), r + 1 - j = count → l < j →
      SortedOn (· ≤ ·) l (j - 1) p → (∀ i, l ≤ i → i ≤ r → p l ≤ p i) →
      ∃ p', insertion w rounds count j p = some p' ∧ Rearranged l r p p' ∧
        SortedOn (· ≤ ·) l r p' := by
  intro count
  induction count with
  | zero =>
    intro j p hcount _ hsorted _
    obtain rfl : r = j - 1 := by omega
    exact ⟨p, rfl, Rearranged.refl _ _ p, hsorted⟩
  | succ count ih =>
    intro j p hcount hlj hsorted hfirst
    have hsink : Sinking l j j p :=
      ⟨fun a b ha hab hb _ hbj => hsorted a b ha hab (by omega), fun b hjb hb => by omega⟩
    obtain ⟨p₁, hstep, hrearr₁, hsorted₁⟩ := sink_spec hlo (by omega : j ≤ w.up) (p j) rounds j
      p rfl (by omega) (by omega) (hfirst j (by omega) (by omega)) hsink
    have hkept : p₁ l = p l := hrearr₁.outside (by omega)
    have hfirst₁ := hrearr₁.forall_range (P := fun x => p l ≤ x) (by omega : l ≤ l + 1)
      (by omega : j ≤ r) hfirst
    rw [← hkept] at hfirst₁
    obtain ⟨p', hrest, hrearr, hsorted'⟩ := ih (j + 1) p₁
      (by omega) (by omega) (by rwa [Int.add_sub_cancel]) hfirst₁
    refine ⟨p', ?_, (hrearr₁.mono (by omega) (by omega)).trans hrearr, hsorted'⟩
    unfold insertion
    simp only [Window.read_eq (by omega : w.lo ≤ j) (by omega : j ≤ w.up), Option.bind_eq_bind,
      Option.bind_some, hstep]
    exact hrest

theorem sortSmall_spec (hlo : w.lo ≤ l) (hup : r ≤ w.up) (hlr : l < r) {rounds : Nat}
    (hrounds : r - l < rounds) (p : Int → T) :
    ∃ p', sortSmall w rounds l r p = some p' ∧ Rearranged l r p p' ∧ SortedOn (· ≤ ·) l r p' := by
  obtain ⟨p₁, hbubble, hrearr₁, hfirst⟩ :=
    bubble_spec hlo (r - l).toNat r p (by omega) hup
  have hone : SortedOn (· ≤ ·) l (l + 2 - 1) p₁ := by
    intro a b ha hab hb
    obtain rfl : a = l := by omega
    exact hfirst b (by omega) (by omega)
  obtain ⟨p', hinsert, hrearr, hsorted⟩ := insertion_spec hlo hup hrounds (r - l - 1).toNat (l + 2)
    p₁ (by omega) (by omega) hone hfirst
  refine ⟨p', ?_, hrearr₁.trans hrearr, hsorted⟩
  unfold sortSmall
  rw [hbubble]
  exact hinsert

/-! ## Splitting a range -/

theorem putInOrder_spec (hi : w.lo ≤ i ∧ i ≤ w.up) (hj : w.lo ≤ j ∧ j ≤ w.up)
    (hil : l ≤ i ∧ i ≤ r) (hjl : l ≤ j ∧ j ≤ r) (p : Int → T) :
    ∃ p', putInOrder w i j p = some p' ∧ Rearranged l r p p' ∧ p' i = min (p i) (p j) ∧
      p' j = max (p i) (p j) ∧ ∀ k, k ≠ i → k ≠ j → p' k = p k := by
  obtain ⟨p', hexch, hspec⟩ := exchange_if_spec hi hj hil hjl p
  refine ⟨p', ?_, hspec⟩
  unfold putInOrder
  simp only [Window.read_eq hi.1 hi.2, Window.read_eq hj.1 hj.2, Option.bind_eq_bind,
    Option.bind_some]
  exact hexch

/-- The middle of a range, while the sum of its ends is a `TINT32`. -/
theorem middle_eq (hl : 0 ≤ l) (hlr : l ≤ r) (hfit : l + r < 2 ^ 31) :
    tint32 (l + r) >>> (1 : Nat) = (l + r) / 2 := by
  rw [tint32_eq (by omega) hfit]
  exact Int.shiftRight_eq_div_pow _ _

theorem medianOfThree_spec (hlo : w.lo ≤ l) (hup : r ≤ w.up) (hl : 0 ≤ l) (hlr : l + 3 ≤ r)
    (hfit : l + r < 2 ^ 31) (p : Int → T) :
    ∃ p', medianOfThree w l r p = some p' ∧ Rearranged l r p p' ∧ p' l ≤ p' (r - 1) ∧
      p' (r - 1) ≤ p' r := by
  obtain ⟨p₁, h₁, hrearr₁⟩ : ∃ p₁, w.exchange (tint32 (l + r) >>> (1 : Nat)) (r - 1) p = some p₁ ∧
      Rearranged l r p p₁ := by
    rw [middle_eq hl (by omega) hfit, Window.exchange_eq (by omega) (by omega)]
    exact ⟨_, rfl, Rearranged.swap p (by omega) (by omega)⟩
  obtain ⟨p₂, h₂, hrearr₂, hmin₂, hmax₂, hkeep₂⟩ := putInOrder_spec
    (by omega : w.lo ≤ r - 1 ∧ r - 1 ≤ w.up) (by omega : w.lo ≤ r ∧ r ≤ w.up)
    (by omega : l ≤ r - 1 ∧ r - 1 ≤ r) (by omega : l ≤ r ∧ r ≤ r) p₁
  obtain ⟨p₃, h₃, hrearr₃, hmin₃, hmax₃, hkeep₃⟩ := putInOrder_spec
    (by omega : w.lo ≤ l ∧ l ≤ w.up) (by omega : w.lo ≤ r ∧ r ≤ w.up)
    (by omega : l ≤ l ∧ l ≤ r) (by omega : l ≤ r ∧ r ≤ r) p₂
  obtain ⟨p₄, h₄, hrearr₄, hmin₄, hmax₄, hkeep₄⟩ := putInOrder_spec
    (by omega : w.lo ≤ l ∧ l ≤ w.up) (by omega : w.lo ≤ r - 1 ∧ r - 1 ≤ w.up)
    (by omega : l ≤ l ∧ l ≤ r) (by omega : l ≤ r - 1 ∧ r - 1 ≤ r) p₃
  refine ⟨p₄, ?_, hrearr₁.trans (hrearr₂.trans (hrearr₃.trans hrearr₄)), ?_, ?_⟩
  · unfold medianOfThree
    simp only [h₁, h₂, h₃, h₄, Option.bind_eq_bind, Option.bind_some]
  · rw [hmin₄, hmax₄]
    exact min_le_max
  · have hmiddle : p₃ (r - 1) = p₂ (r - 1) := hkeep₃ (r - 1) (by omega) (by omega)
    have hlast : p₂ r ≤ p₃ r := hmax₃ ▸ le_max_right _ _
    rw [hmax₄, hkeep₄ r (by omega) (by omega)]
    refine max_le ?_ ?_
    · rw [hmin₃, hmax₃]
      exact min_le_max
    · refine le_trans ?_ hlast
      rw [hmiddle, hmin₂, hmax₂]
      exact min_le_max

/-- The scan to the right stops at the latest at an element that is not smaller. -/
theorem scanRight_spec {V : T} {stop : Int} (hup : stop ≤ w.up) (hstop : V ≤ p stop) :
    ∀ (rounds : Nat) (k : Int), w.lo ≤ k + 1 → k < stop → stop - k ≤ rounds →
      ∃ k', scanRight w V p rounds k = some k' ∧ k < k' ∧ k' ≤ stop ∧
        (∀ i, k < i → i < k' → p i < V) ∧ V ≤ p k' := by
  intro rounds
  induction rounds with
  | zero =>
    intro k _ hk hrounds
    exact absurd hrounds (by omega)
  | succ rounds ih =>
    intro k hlo hk hrounds
    unfold scanRight
    simp only [Window.read_eq hlo (by omega : k + 1 ≤ w.up), Option.bind_eq_bind, Option.bind_some]
    by_cases hlt : p (k + 1) < V
    · have hnext : k + 1 < stop := by
        by_contra hnot
        obtain rfl : k + 1 = stop := by omega
        exact absurd hstop (not_le.mpr hlt)
      obtain ⟨k', hscan, hkk, hle, hbefore, hat⟩ :=
        ih (k + 1) (by omega) hnext (by omega)
      rw [if_pos hlt]
      refine ⟨k', hscan, by omega, hle, fun i hi hik => ?_, hat⟩
      by_cases heq : i = k + 1
      · rw [heq]
        exact hlt
      · exact hbefore i (by omega) hik
    · rw [if_neg hlt]
      exact ⟨k + 1, rfl, by omega, by omega, fun i hi hik => by omega, not_lt.mp hlt⟩

/-- The scan to the left stops at the latest at `k`, or in front of it when it starts
there. -/
theorem scanLeft_spec {V : T} {k : Int} (hlo : w.lo ≤ k - 1) (hfront : p (k - 1) ≤ V) :
    ∀ (rounds : Nat) (j : Int), j - 1 ≤ w.up → k ≤ j → j - k < rounds →
      ∃ j', scanLeft w V k p rounds j = some j' ∧ j' < j ∧ k - 1 ≤ j' ∧
        (∀ i, j' < i → i < j → V < p i) ∧ (p j' ≤ V ∨ j' = k) := by
  intro rounds
  induction rounds with
  | zero =>
    intro j _ hj hrounds
    exact absurd hrounds (by omega)
  | succ rounds ih =>
    intro j hup hj hrounds
    unfold scanLeft
    simp only [Window.read_eq (by omega : w.lo ≤ j - 1) hup, Option.bind_eq_bind, Option.bind_some]
    by_cases hlt : V < p (j - 1)
    · rw [if_pos hlt]
      by_cases hjk : j - 1 = k
      · rw [if_pos hjk]
        exact ⟨j - 1, rfl, by omega, by omega, fun i hi hij => by omega, .inr hjk⟩
      · have hne : j ≠ k := by
          rintro rfl
          exact absurd hfront (not_le.mpr hlt)
        obtain ⟨j', hscan, hjj, hle, hafter, hat⟩ :=
          ih (j - 1) (by omega) (by omega) (by omega)
        rw [if_neg hjk]
        refine ⟨j', hscan, by omega, hle, fun i hi hij => ?_, hat⟩
        by_cases heq : i = j - 1
        · rw [heq]
          exact hlt
        · exact hafter i hi (by omega)
    · rw [if_neg hlt]
      exact ⟨j - 1, rfl, by omega, by omega, fun i hi hij => by omega, .inl (not_lt.mp hlt)⟩

/-- What stands up to `k` is no larger than `V`, what stands from `j` on no smaller. -/
structure Zones (V : T) (l r k j : Int) (p : Int → T) : Prop where
  low : ∀ i, l ≤ i → i ≤ k → p i ≤ V
  high : ∀ i, j ≤ i → i ≤ r → V ≤ p i

theorem partitionLoop_spec {V : T} (hlo : w.lo ≤ l) (hup : r ≤ w.up) {rounds : Nat}
    (hrounds : r - l < rounds) : ∀ (n : Nat) (k j : Int) (p : Int → T), Zones V l r k j p →
      l ≤ k → k < j → j ≤ r - 1 → j - k ≤ n →
      ∃ k' p', partitionLoop w V rounds n k j p = some (k', p') ∧
        Rearranged (l + 1) (r - 2) p p' ∧ l < k' ∧ k' ≤ r - 1 ∧ (∀ i, l ≤ i → i < k' → p' i ≤ V) ∧
        ∀ i, k' ≤ i → i ≤ r → V ≤ p' i := by
  intro n
  induction n with
  | zero =>
    intro k j p _ _ hkj _ hn
    exact absurd hn (by omega)
  | succ n ih =>
    intro k j p h hlk hkj hjr hn
    obtain ⟨k', hright, hkk, hk'j, hbefore, hVk⟩ := scanRight_spec (by omega : j ≤ w.up)
      (h.high j (Int.le_refl j) (by omega)) rounds k (by omega) hkj (by omega)
    have hlow : ∀ i, l ≤ i → i < k' → p i ≤ V := by
      intro i hi hik
      by_cases hle : i ≤ k
      · exact h.low i hi hle
      · exact (hbefore i (by omega) hik).le
    obtain ⟨j', hleft, hjj, hk'j', hafter, hjV⟩ := scanLeft_spec (by omega : w.lo ≤ k' - 1)
      (hlow (k' - 1) (by omega) (by omega)) rounds j (by omega) hk'j (by omega)
    have hhigh : ∀ i, j' < i → i ≤ r → V ≤ p i := by
      intro i hi hir
      by_cases hle : j ≤ i
      · exact h.high i hle hir
      · exact (hafter i hi (by omega)).le
    unfold partitionLoop
    simp only [hright, hleft, Option.bind_eq_bind, Option.bind_some]
    by_cases hcross : j' ≤ k'
    · rw [if_pos hcross]
      refine ⟨k', p, rfl, Rearranged.refl _ _ p, by omega, by omega, hlow, fun i hi hir => ?_⟩
      by_cases heq : i = k'
      · rw [heq]
        exact hVk
      · exact hhigh i (by omega) hir
    · have hpj : p j' ≤ V := hjV.resolve_right (by omega)
      have hzones : Zones V l r k' j' fun i => p (Equiv.swap k' j' i) := by
        constructor
        · intro i hi hik
          by_cases heq : i = k'
          · rw [heq, Equiv.swap_apply_left]
            exact hpj
          · rw [Equiv.swap_apply_of_ne_of_ne heq (by omega)]
            exact hlow i hi (by omega)
        · intro i hi hir
          by_cases heq : i = j'
          · rw [heq, Equiv.swap_apply_right]
            exact hVk
          · rw [Equiv.swap_apply_of_ne_of_ne (by omega) heq]
            exact hhigh i (by omega) hir
      obtain ⟨k'', p', hrest, hrearr, hspec⟩ := ih k' j' _ hzones
        (by omega) (by omega) (by omega) (by omega)
      rw [if_neg hcross, Window.exchange_eq (by omega) (by omega)]
      exact ⟨k'', p', hrest, (Rearranged.swap p (by omega) (by omega)).trans hrearr, hspec⟩

theorem partition_spec (hlo : w.lo ≤ l) (hup : r ≤ w.up) (hl : 0 ≤ l) (hlr : l + 3 ≤ r)
    (hfit : l + r < 2 ^ 31) {rounds : Nat} (hrounds : r - l < rounds) (p : Int → T) :
    ∃ k p', partition w rounds l r p = some (k, p') ∧ Split (· ≤ ·) l r k p p' := by
  obtain ⟨p₁, hmedian, hrearr₁, hfirst, hlast⟩ := medianOfThree_spec hlo hup hl hlr hfit p
  have hzones : Zones (p₁ (r - 1)) l r l (r - 1) p₁ := by
    constructor
    · intro i hi hil
      obtain rfl : i = l := by omega
      exact hfirst
    · intro i hi hir
      obtain rfl | rfl : i = r - 1 ∨ i = r := by omega
      · exact le_refl _
      · exact hlast
  obtain ⟨k, p₂, hloop, hrearr₂, hlk, hkr, hbefore, hafter⟩ := partitionLoop_spec hlo hup hrounds
    rounds l (r - 1) p₁ hzones (Int.le_refl l) (by omega) (Int.le_refl _) (by omega)
  have hV : p₂ (r - 1) = p₁ (r - 1) := hrearr₂.outside (by omega)
  refine ⟨k, fun i => p₂ (Equiv.swap (r - 1) k i), ?_, ?_, hlk, by omega, fun i hi hik => ?_,
    fun i hki hir => ?_⟩
  · unfold partition
    simp only [hmedian, Window.read_eq (by omega : w.lo ≤ r - 1) (by omega : r - 1 ≤ w.up), hloop,
      Window.exchange_eq (by omega : w.lo ≤ r - 1 ∧ r - 1 ≤ w.up)
        (by omega : w.lo ≤ k ∧ k ≤ w.up), Option.bind_eq_bind, Option.bind_some]
  · exact hrearr₁.trans ((hrearr₂.mono (by omega) (by omega)).trans
      (Rearranged.swap p₂ (by omega) (by omega)))
  · rw [Equiv.swap_apply_right, hV, Equiv.swap_apply_of_ne_of_ne (by omega) (by omega)]
    exact hbefore i hi hik
  · rw [Equiv.swap_apply_right, hV]
    by_cases heq : i = r - 1
    · rw [heq, Equiv.swap_apply_left]
      exact hafter k (Int.le_refl k) (by omega)
    · rw [Equiv.swap_apply_of_ne_of_ne heq (by omega)]
      exact hafter i (by omega) hir

end

/-! ## The stack -/

section
variable {T : Type} [LinearOrder T] {p p' : Int → T} {lo up floor l r k : Int}
  {stack : List (Int × Int)}

theorem push_eq {size : Int} (hroom : 2 * (stack.length + 1) ≤ size) (l r : Int) :
    push size l r stack = some ((l, r) :: stack) := if_pos hroom

/-- Below the limit both pushes have room. -/
theorem push_sides {size : Int} (hroom : ¬ size - 4 ≤ 2 * stack.length) {α : Type}
    (next : List (Int × Int) → Option α) :
    (if k + 1 < r then
        (push size (k + 1) r stack).bind fun stack =>
          if l < k - 1 then (push size l (k - 1) stack).bind next else next stack
      else if l < k - 1 then (push size l (k - 1) stack).bind next else next stack) =
      next (sides l r k ++ stack) := by
  have hone : ∀ l r, push size l r stack = some ((l, r) :: stack) := push_eq (by omega)
  have htwo : ∀ l r l' r', push size l r ((l', r') :: stack) = some ((l, r) :: (l', r') :: stack) :=
    fun l r l' r' => push_eq (by rw [List.length_cons]; omega) l r
  unfold sides
  by_cases hleft : l < k - 1 <;> by_cases hright : k + 1 < r <;>
    simp only [hleft, hright, if_true, if_false, hone, htwo, Option.bind_some, List.nil_append,
      List.cons_append]

/-- How a run ends: sorted, or with so many waiting ranges that the stack is full. -/
def Ended (lo up size : Int) (ret : Int) (p : Int → T) : Prop :=
  ret = 0 ∧ SortedOn (· ≤ ·) lo up p ∨
    ret = -1 ∧ ∃ waiting : Nat, size - 4 ≤ 2 * waiting ∧ lo + 3 * waiting + 16 ≤ up

/-- A range of seventeen elements that ends before `2 ^ 30 + 8` has a middle. -/
theorem sortLoop_spec {rounds : Nat} (h0 : 0 ≤ lo) (hfit : up < 2 ^ 30 + 8)
    (hrounds : up - lo < rounds) (size : Int) :
    ∀ (n : Nat) (stack : List (Int × Int)) (p : Int → T), Stacked up lo stack →
      InOrder (· ≤ ·) lo up stack p → volume stack ≤ n →
      ∃ ret p', sortLoop ⟨lo, up⟩ size rounds n stack p = some (ret, p') ∧ Rearranged lo up p p' ∧
        Ended lo up size ret p'
  | n, [], p, _, horder, _ =>
    ⟨0, p, by cases n <;> rfl, Rearranged.refl lo up p, .inl ⟨rfl, horder.sorted⟩⟩
  | 0, (l, r) :: stack, p, hstacked, _, hvolume => by
    obtain ⟨-, hlr, -, hrest⟩ := hstacked
    have hnonneg := hrest.volume_nonneg
    unfold volume at hvolume
    omega
  | n + 1, (l, r) :: stack, p, hstacked, horder, hvolume => by
    obtain ⟨hlo, hlr, hup, hrest⟩ := id hstacked
    rw [volume] at hvolume
    rw [sortLoop]
    by_cases hsmall : r - l < 16
    · obtain ⟨p₁, hstep, hrearr₁, hsorted⟩ := sortSmall_spec (w := ⟨lo, up⟩) hlo hup hlr
        (by omega : r - l < rounds) p
      obtain ⟨ret, p', hloop, hrearr, hended⟩ := sortLoop_spec h0 hfit hrounds size n stack p₁
        (hrest.mono (by omega)) (horder.sort hstacked hrearr₁ hsorted) (by omega)
      rw [if_pos hsmall, hstep]
      exact ⟨ret, p', hloop, (hrearr₁.mono hlo hup).trans hrearr, hended⟩
    · obtain ⟨k, p₁, hstep, hsplit⟩ := partition_spec (w := ⟨lo, up⟩) hlo hup (by omega)
        (by omega) (by omega) (by omega : r - l < rounds) p
      have hrearr₁ := hsplit.rearranged.mono hlo hup
      rw [if_neg hsmall, hstep]
      by_cases hfull : size - 4 ≤ 2 * stack.length
      · have hlen := hrest.length_le (by omega)
        exact ⟨-1, p₁, if_pos hfull, hrearr₁, .inr ⟨rfl, stack.length, hfull, by omega⟩⟩
      · have hshrink := volume_sides hsplit.left_lt hsplit.lt_right stack
        obtain ⟨ret, p', hloop, hrearr, hended⟩ := sortLoop_spec h0 hfit hrounds size n
          (sides l r k ++ stack) p₁ (stacked_sides hsplit.left_lt hsplit.lt_right hstacked)
          (horder.split hstacked hsplit) (by omega)
        refine ⟨ret, p', ?_, hrearr₁.trans hrearr, hended⟩
        simp only [Option.bind_eq_bind, Option.bind_some, if_neg hfull]
        rw [push_sides hfull]
        exact hloop

/-! ## The whole run -/

theorem stackRounds_spec : ∀ (rounds : Nat) (i : Int) (j : Nat), j < rounds →
    stackRounds rounds i j = some (i + Nat.log 2 j) := by
  intro rounds
  induction rounds with
  | zero =>
    intro _ _ h
    exact absurd h (Nat.not_lt_zero _)
  | succ rounds ih =>
    intro i j h
    have hhalf : (j : Int) >>> (1 : Nat) = (j / 2 : Nat) := by
      rw [Int.shiftRight_eq_div_pow]
      rfl
    rw [stackRounds, hhalf]
    by_cases hzero : j / 2 = 0
    · rw [Nat.log_of_lt (by omega)]
      simp [hzero]
    · have hlog := Nat.log_of_one_lt_of_le (b := 2) (by omega) (by omega : 2 ≤ j)
      simp only [ne_eq, Int.natCast_eq_zero, hzero, not_false_eq_true, if_true]
      rw [ih (i + 1) (j / 2) (by omega), hlog]
      push_cast
      congr 1
      ring

/-- The numbers that the stack has room for. -/
def stackSize (dwRight : Int) : Int := 64 * (1 + Nat.log 2 (dwRight - 1).toNat)

theorem quickSortAsc_eq {dwLeft dwRight : Int} (h0 : 0 ≤ dwLeft) (hlt : dwLeft < dwRight)
    (pBuf : Int → T) : quickSortAsc pBuf dwLeft dwRight =
      sortLoop ⟨dwLeft, dwRight⟩ (stackSize dwRight) ((dwRight - dwLeft).toNat + 2)
        ((dwRight - dwLeft).toNat + 2) [(dwLeft, dwRight)] pBuf := by
  have hrounds := stackRounds_spec (dwRight.toNat + 1) 1 (dwRight - 1).toNat (by omega)
  rw [Int.toNat_of_nonneg (by omega)] at hrounds
  have hsize : (1 + (Nat.log 2 (dwRight - 1).toNat : Int)) <<< (6 : Nat) = stackSize dwRight := by
    rw [Int.shiftLeft_eq, stackSize, mul_comm]
    rfl
  unfold quickSortAsc
  rw [if_neg (by omega), hrounds]
  simp only [Option.bind_eq_bind, Option.bind_some, hsize]
  rw [push_eq (by unfold stackSize; simp only [List.length_nil]; omega), Option.bind_some]

theorem quickSortAsc_spec {dwLeft dwRight : Int} (h0 : 0 ≤ dwLeft) (hfit : dwRight < 2 ^ 30 + 8)
    (pBuf : Int → T) : ∃ ret pBuf', quickSortAsc pBuf dwLeft dwRight = some (ret, pBuf') ∧
      Rearranged dwLeft dwRight pBuf pBuf' ∧
      Ended dwLeft dwRight (stackSize dwRight) ret pBuf' := by
  by_cases hlt : dwLeft < dwRight
  · rw [quickSortAsc_eq h0 hlt]
    refine sortLoop_spec h0 hfit (by omega) _ _ _ pBuf ⟨Int.le_refl _, hlt, Int.le_refl _, trivial⟩
      (.whole _ _ _ _) ?_
    simp only [volume]
    omega
  · unfold quickSortAsc
    rw [if_pos (by omega)]
    exact ⟨0, pBuf, rfl, Rearranged.refl _ _ pBuf, .inl ⟨rfl, SortedOn.of_le (by omega) pBuf⟩⟩

/-- A range of at most sixteen elements needs no middle, wherever it stands. -/
theorem quickSortAsc_small {dwLeft dwRight : Int} (h0 : 0 ≤ dwLeft)
    (hsmall : dwRight - dwLeft < 16) (pBuf : Int → T) :
    ∃ pBuf', quickSortAsc pBuf dwLeft dwRight = some (0, pBuf') ∧
      Rearranged dwLeft dwRight pBuf pBuf' ∧ SortedOn (· ≤ ·) dwLeft dwRight pBuf' := by
  by_cases hlt : dwLeft < dwRight
  · obtain ⟨pBuf', hstep, hrearr, hsorted⟩ :=
      sortSmall_spec (w := ⟨dwLeft, dwRight⟩) (Int.le_refl dwLeft) (Int.le_refl dwRight) hlt
        (by omega : dwRight - dwLeft < ((dwRight - dwLeft).toNat + 2 : Nat)) pBuf
    refine ⟨pBuf', ?_, hrearr, hsorted⟩
    rw [quickSortAsc_eq h0 hlt, sortLoop, if_pos hsmall, hstep]
    rfl
  · unfold quickSortAsc
    rw [if_pos (by omega)]
    exact ⟨pBuf, rfl, Rearranged.refl _ _ pBuf, SortedOn.of_le (by omega) pBuf⟩

/-- What a range has to be for its own sake, in an array of any length. -/
theorem quickSortAsc_range {dwLeft dwRight : Int} (h0 : 0 ≤ dwLeft)
    (hfit : dwRight < 2 ^ 30 + 8 ∨ dwRight - dwLeft < 16) (pBuf : Int → T) :
    ∃ ret pBuf', quickSortAsc pBuf dwLeft dwRight = some (ret, pBuf') ∧
      Rearranged dwLeft dwRight pBuf pBuf' ∧
      (ret = 0 → SortedOn (· ≤ ·) dwLeft dwRight pBuf') := by
  rcases hfit with hfit | hsmall
  · obtain ⟨ret, pBuf', heq, hrearr, hended⟩ := quickSortAsc_spec h0 hfit pBuf
    refine ⟨ret, pBuf', heq, hrearr, fun hret => ?_⟩
    rcases hended with ⟨-, hsorted⟩ | ⟨hminus, -⟩
    · exact hsorted
    · exact absurd (hret.symm.trans hminus) (by decide)
  · obtain ⟨pBuf', heq, hrearr, hsorted⟩ := quickSortAsc_small h0 hsmall pBuf
    exact ⟨0, pBuf', heq, hrearr, fun _ => hsorted⟩

/-- Where the sum of the ends leaves `TINT32`, the middle is in front of the array. -/
theorem quickSortAsc_wraps {dwLeft dwRight : Int} (h0 : 0 ≤ dwLeft) (hlong : dwLeft + 16 ≤ dwRight)
    (hup : dwRight < 2 ^ 31) (hwrap : 2 ^ 31 ≤ dwLeft + dwRight) (pBuf : Int → T) :
    quickSortAsc pBuf dwLeft dwRight = none := by
  have hneg := tint32_neg hwrap (by omega)
  have hmiddle : tint32 (dwLeft + dwRight) >>> (1 : Nat) < 0 := by
    rw [Int.shiftRight_eq_div_pow]
    omega
  have hread : Window.read ⟨dwLeft, dwRight⟩ pBuf (tint32 (dwLeft + dwRight) >>> (1 : Nat)) =
      none := Window.read_outside fun h => by dsimp only at h; omega
  rw [quickSortAsc_eq h0 (by omega), sortLoop, if_neg (by omega)]
  simp only [partition, medianOfThree, Window.exchange, hread, Option.bind_eq_bind,
    Option.bind_none]

/-- **`QuickSortAsc` sorts within its range, in an array in which no range has a middle
that wraps around.** -/
theorem quickSortAsc_within_iff (pBuf : Int → T) (length : Int) :
    (∀ dwLeft dwRight, 0 ≤ dwLeft → dwRight < length →
      ∃ ret pBuf', quickSortAsc pBuf dwLeft dwRight = some (ret, pBuf') ∧
        Rearranged dwLeft dwRight pBuf pBuf' ∧
        (ret = 0 → SortedOn (· ≤ ·) dwLeft dwRight pBuf')) ↔ length ≤ 2 ^ 30 + 8 := by
  constructor
  · intro hsorts
    by_contra hlong
    obtain ⟨ret, pBuf', heq, -⟩ := hsorts (2 ^ 30 - 8) (2 ^ 30 + 8) (by omega) (by omega)
    rw [quickSortAsc_wraps (by omega) (by omega) (by omega) (by omega)] at heq
    cases heq
  · intro hfit dwLeft dwRight h0 hlt
    exact quickSortAsc_range h0 (.inl (by omega)) pBuf

/-- Seventeen elements around the place `2 ^ 30`: the middle is `-2 ^ 30`. -/
theorem quickSortAsc_outside :
    tint32 ((2 ^ 30 - 8) + (2 ^ 30 + 8)) >>> (1 : Nat) = -2 ^ 30 ∧
      quickSortAsc (fun i : Int => i) (2 ^ 30 - 8) (2 ^ 30 + 8) = none :=
  ⟨by decide, quickSortAsc_wraps (by decide) (by decide) (by decide) (by decide) _⟩

end

end CommonTools.Gary
