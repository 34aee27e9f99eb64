import Mathlib.Data.List.Nodup
import Mathlib.Logic.Equiv.Basic
import Mathlib.Order.Defs.LinearOrder
import Mathlib.Order.Defs.Unbundled
import Mathlib.Algebra.Order.Ring.Int
import Mathlib.Tactic.Common

/-! # Sorting within a range

Memory is a function of an index. A sort rearranges the range it is given and
nothing outside of it; what holds for all elements of a range survives that, so
two sorted parts on the two sides of a split are a sorted whole. -/
namespace CommonTools.Lib

variable {β : Type} {lo up : Int} {m m' m'' : Int → β}

/-- `m'` holds what `m` holds, in another order between `lo` and `up`. -/
def Rearranged (lo up : Int) (m m' : Int → β) : Prop :=
  ∃ σ : Equiv.Perm Int, (∀ i, ¬ (lo ≤ i ∧ i ≤ up) → σ i = i) ∧ ∀ i, m' i = m (σ i)

namespace Rearranged

theorem refl (lo up : Int) (m : Int → β) : Rearranged lo up m m :=
  ⟨Equiv.refl Int, fun _ _ => rfl, fun _ => rfl⟩

theorem trans (h : Rearranged lo up m m') (h' : Rearranged lo up m' m'') :
    Rearranged lo up m m'' := by
  obtain ⟨σ, hσ, hm⟩ := h
  obtain ⟨τ, hτ, hm'⟩ := h'
  refine ⟨τ.trans σ, fun i hi => ?_, fun i => ?_⟩
  · rw [Equiv.trans_apply, hτ i hi, hσ i hi]
  · rw [hm' i, hm (τ i), Equiv.trans_apply]

theorem symm (h : Rearranged lo up m m') : Rearranged lo up m' m := by
  obtain ⟨σ, hσ, hm⟩ := h
  refine ⟨σ.symm, fun i hi => ?_, fun i => ?_⟩
  · rw [Equiv.symm_apply_eq, hσ i hi]
  · rw [hm, Equiv.apply_symm_apply]

theorem mono (h : Rearranged lo up m m') {lo' up' : Int} (hlo : lo' ≤ lo) (hhi : up ≤ up') :
    Rearranged lo' up' m m' := by
  obtain ⟨σ, hσ, hm⟩ := h
  exact ⟨σ, fun i hi => hσ i fun hin => hi ⟨by omega, by omega⟩, hm⟩

theorem outside (h : Rearranged lo up m m') {i : Int} (hi : ¬ (lo ≤ i ∧ i ≤ up)) :
    m' i = m i := by
  obtain ⟨σ, hσ, hm⟩ := h
  rw [hm i, hσ i hi]

/-- An element of the range comes from the range. -/
theorem source (h : Rearranged lo up m m') {i : Int} (hlo : lo ≤ i) (hup : i ≤ up) :
    ∃ j, lo ≤ j ∧ j ≤ up ∧ m' i = m j := by
  obtain ⟨σ, hσ, hm⟩ := h
  have hin : lo ≤ σ i ∧ σ i ≤ up := by
    by_contra hout
    have hfix := hσ (σ i) hout
    rw [σ.injective hfix] at hout
    exact hout ⟨hlo, hup⟩
  exact ⟨σ i, hin.1, hin.2, hm i⟩

/-- What holds for all elements of the range still holds for all of them. -/
theorem forall_range (h : Rearranged lo up m m') {P : β → Prop} {a b : Int} (ha : a ≤ lo)
    (hb : up ≤ b) (hP : ∀ i, a ≤ i → i ≤ b → P (m i)) : ∀ i, a ≤ i → i ≤ b → P (m' i) := by
  intro i hai hib
  obtain ⟨j, haj, hjb, hj⟩ := (h.mono ha hb).source hai hib
  rw [hj]
  exact hP j haj hjb

/-- An exchange of two elements of the range. -/
theorem swap (m : Int → β) {i j : Int} (hi : lo ≤ i ∧ i ≤ up) (hj : lo ≤ j ∧ j ≤ up) :
    Rearranged lo up m (fun k => m (Equiv.swap i j k)) := by
  refine ⟨Equiv.swap i j, fun k hk => Equiv.swap_apply_of_ne_of_ne ?_ ?_, fun k => rfl⟩
  · rintro rfl
    exact hk hi
  · rintro rfl
    exact hk hj

theorem update_update (m : Int → β) (i j : Int) :
    Function.update (Function.update m i (m j)) j (m i) = fun k => m (Equiv.swap i j k) := by
  funext k
  by_cases hj : k = j
  · rw [hj, Function.update_self, Equiv.swap_apply_right]
  · rw [Function.update_of_ne hj]
    by_cases hi : k = i
    · rw [hi, Function.update_self, Equiv.swap_apply_left]
    · rw [Function.update_of_ne hi, Equiv.swap_apply_of_ne_of_ne hi hj]

/-- The elements of the range, one after another. -/
theorem perm {n : Nat} (h : Rearranged 0 (n - 1) m m') :
    ((List.range n).map fun i : Nat => m' i).Perm ((List.range n).map fun i : Nat => m i) := by
  obtain ⟨σ, hσ, hm⟩ := h
  obtain ⟨places, hplaces⟩ : ∃ places : List Int, places = (List.range n).map Int.ofNat :=
    ⟨_, rfl⟩
  have hnodup : places.Nodup := by
    rw [hplaces]
    exact (List.nodup_map_iff fun _ _ h => Int.ofNat.inj h).mpr List.nodup_range
  have hmem : ∀ i, i ∈ places ↔ 0 ≤ i ∧ i ≤ n - 1 := by
    intro i
    rw [hplaces, List.mem_map]
    constructor
    · rintro ⟨k, hk, rfl⟩
      have hlt := List.mem_range.mp hk
      simp only [Int.ofNat_eq_natCast]
      omega
    · rintro ⟨h0, hle⟩
      exact ⟨i.toNat, List.mem_range.mpr (by omega), Int.toNat_of_nonneg h0⟩
  have hin : ∀ i, 0 ≤ σ i ∧ σ i ≤ n - 1 ↔ 0 ≤ i ∧ i ≤ n - 1 := by
    intro i
    by_cases hi : 0 ≤ i ∧ i ≤ (n : Int) - 1
    · refine iff_of_true ?_ hi
      by_contra hout
      rw [σ.injective (hσ (σ i) hout)] at hout
      exact hout hi
    · rw [hσ i hi]
  have hσplaces : (places.map σ).Perm places := by
    rw [List.perm_ext_iff_of_nodup ((List.nodup_map_iff σ.injective).mpr hnodup) hnodup]
    intro i
    rw [List.mem_map, hmem]
    constructor
    · rintro ⟨j, hj, rfl⟩
      exact (hin j).mpr ((hmem j).mp hj)
    · intro hi
      refine ⟨σ.symm i, (hmem _).mpr ((hin _).mp ?_), σ.apply_symm_apply i⟩
      rwa [σ.apply_symm_apply]
  have hall : ∀ f : Int → β, ((List.range n).map fun i : Nat => f i) = places.map f := by
    intro f
    rw [hplaces, List.map_map]
    rfl
  rw [hall, hall, funext hm, ← Function.comp_def m σ, ← List.map_map]
  exact hσplaces.map m

end Rearranged

/-! ## Sorted ranges -/

variable {r : β → β → Prop}

/-- Between `lo` and `up` earlier elements stand in the relation to later ones. -/
def SortedOn (r : β → β → Prop) (lo up : Int) (m : Int → β) : Prop :=
  ∀ i j, lo ≤ i → i < j → j ≤ up → r (m i) (m j)

theorem SortedOn.of_le (h : up ≤ lo) (m : Int → β) : SortedOn r lo up m := by
  intro i j hi hij hj
  omega

theorem SortedOn.congr (h : SortedOn r lo up m) (heq : ∀ i, lo ≤ i → i ≤ up → m' i = m i) :
    SortedOn r lo up m' := by
  intro i j hi hij hj
  rw [heq i hi (by omega), heq j (by omega) hj]
  exact h i j hi hij hj

theorem SortedOn.around [IsTrans β r] {k : Int} (hleft : SortedOn r lo (k - 1) m)
    (hright : SortedOn r (k + 1) up m) (hbefore : ∀ i, lo ≤ i → i < k → r (m i) (m k))
    (hafter : ∀ i, k < i → i ≤ up → r (m k) (m i)) : SortedOn r lo up m := by
  intro i j hi hij hj
  rcases lt_trichotomy i k with hik | rfl | hik
  · rcases lt_trichotomy j k with hjk | rfl | hjk
    · exact hleft i j hi hij (by omega)
    · exact hbefore i hi hik
    · exact IsTrans.trans _ _ _ (hbefore i hi hik) (hafter j hjk hj)
  · exact hafter j hij hj
  · exact hright i j (by omega) hij hj

/-- Sorting the two sides of a split one after the other. -/
theorem SortedOn.sides [IsTrans β r] {k : Int} {v v₁ v₂ : Int → β}
    (hbefore : ∀ i, lo ≤ i → i < k → r (v i) (v k)) (hafter : ∀ i, k < i → i ≤ up → r (v k) (v i))
    (hk : lo ≤ k ∧ k ≤ up) (h₁ : Rearranged lo (k - 1) v v₁) (hs₁ : SortedOn r lo (k - 1) v₁)
    (h₂ : Rearranged (k + 1) up v₁ v₂) (hs₂ : SortedOn r (k + 1) up v₂) :
    Rearranged lo up v v₂ ∧ SortedOn r lo up v₂ := by
  have hk₁ : v₁ k = v k := h₁.outside (by omega)
  have hk₂ : v₂ k = v k := (h₂.outside (by omega)).trans hk₁
  have hleft₁ := h₁.forall_range (P := fun x => r x (v k)) (Int.le_refl lo) (Int.le_refl (k - 1))
    fun i hi hik => hbefore i hi (by omega)
  have hright₁ : ∀ i, k + 1 ≤ i → i ≤ up → r (v k) (v₁ i) := by
    intro i hki hi
    rw [h₁.outside (by omega)]
    exact hafter i (by omega) hi
  have hright₂ := h₂.forall_range (P := fun x => r (v k) x) (Int.le_refl (k + 1)) (Int.le_refl up)
    hright₁
  have hsame : ∀ i, lo ≤ i → i ≤ k - 1 → v₂ i = v₁ i := fun i _ hik => h₂.outside (by omega)
  refine ⟨(h₁.mono (Int.le_refl lo) (by omega)).trans (h₂.mono (by omega) (Int.le_refl up)),
    SortedOn.around (hs₁.congr hsame) hs₂ ?_ ?_⟩
  · intro i hi hik
    rw [hsame i hi (by omega), hk₂]
    exact hleft₁ i hi (by omega)
  · intro i hik hi
    rw [hk₂]
    exact hright₂ i (by omega) hi

end CommonTools.Lib
