import Mathlib.Order.Lattice
import Mathlib.Data.List.Basic

/-! # Heaps from place 0 on

The children of place `i` are `2 * i` and `2 * i + 1`, as for a heap that starts
at place 1; here place 0 stands above place 1. -/
namespace CommonTools.Lib

variable {α : Type} [LinearOrder α]

/-- In the first `n` places no element is below the one at its parent. -/
def HeapTo (v : List α) (n : Nat) : Prop :=
  ∀ i a b, 0 < i → i < n → v[i / 2]? = some a → v[i]? = some b → a ≤ b

/-- A heap but for the element at `k`, which may have to go down. -/
structure HeapBut (v : List α) (n k : Nat) : Prop where
  except : ∀ i a b, 0 < i → i < n → i / 2 ≠ k → v[i / 2]? = some a → v[i]? = some b → a ≤ b
  grand : 0 < k → ∀ i a b, 0 < i → i < n → i / 2 = k → v[k / 2]? = some a → v[i]? = some b → a ≤ b

variable {v : List α} {n k m : Nat} {a b : α}

theorem HeapTo.but (h : HeapTo v n) (k : Nat) : HeapBut v n k := by
  refine ⟨fun i a b h0 hi _ ha hb => h i a b h0 hi ha hb, fun hk i a b h0 hi hik ha hb => ?_⟩
  by_cases hlen : k < v.length
  · have hkv : v[k]? = some v[k] := List.getElem?_eq_getElem hlen
    have hik' : v[i / 2]? = some v[k] := by rw [hik, hkv]
    exact (h k a _ hk (by omega) ha hkv).trans (h i _ b h0 hi hik' hb)
  · rw [List.getElem?_eq_none (by omega)] at hb
    cases hb

/-- At place 0 only the children can be out of order. -/
theorem HeapTo.set_zero (h : HeapTo v n) (a : α) : HeapBut (v.set 0 a) n 0 := by
  refine ⟨fun i b c h0 hi hne hb hc => ?_, fun hk => absurd hk (Nat.lt_irrefl 0)⟩
  rw [List.getElem?_set_ne (Ne.symm hne)] at hb
  rw [List.getElem?_set_ne (by omega)] at hc
  exact h i b c h0 hi hb hc

theorem HeapBut.finish (h : HeapBut v n k) (hk : v[k]? = some a)
    (hstop : ∀ i b, 0 < i → i < n → i / 2 = k → v[i]? = some b → a ≤ b) : HeapTo v n := by
  intro i c b h0 hi hc hb
  by_cases hik : i / 2 = k
  · rw [hik, hk] at hc
    cases hc
    exact hstop i b h0 hi hik hb
  · exact h.except i c b h0 hi hik hc hb

omit [LinearOrder α] in
theorem getElem?_exchange (hk : k < v.length) (hm : m < v.length) (i : Nat) :
    ((v.set k b).set m a)[i]? = if i = m then some a else if i = k then some b else v[i]? := by
  by_cases him : i = m
  · rw [if_pos him, him, List.getElem?_set_self (by rwa [List.length_set])]
  · rw [if_neg him, List.getElem?_set_ne (Ne.symm him)]
    by_cases hik : i = k
    · rw [if_pos hik, hik, List.getElem?_set_self hk]
    · rw [if_neg hik, List.getElem?_set_ne (Ne.symm hik)]

/-- The element goes down to the smaller child. -/
theorem HeapBut.move (h : HeapBut v n k) (hk : v[k]? = some a) (hm : v[m]? = some b) (h0 : 0 < m)
    (hmn : m < n) (hmk : m / 2 = k) (hlt : b < a)
    (hmin : ∀ i c, 0 < i → i < n → i / 2 = k → v[i]? = some c → b ≤ c) :
    HeapBut ((v.set k b).set m a) n m := by
  obtain ⟨hkl, -⟩ := List.getElem?_eq_some_iff.mp hk
  obtain ⟨hml, -⟩ := List.getElem?_eq_some_iff.mp hm
  refine ⟨fun i c d hi0 hi hne hc hd => ?_, fun _ i c d hi0 hi him hc hd => ?_⟩
  · rw [getElem?_exchange hkl hml] at hc hd
    rw [if_neg hne] at hc
    by_cases him : i = m
    · rw [if_pos him] at hd
      rw [him, if_pos hmk] at hc
      cases hc
      cases hd
      exact hlt.le
    · rw [if_neg him] at hd
      by_cases hik : i = k
      · -- the parent of the place itself
        rw [if_pos hik] at hd
        rw [if_neg (by omega), hik] at hc
        cases hd
        exact h.grand (by omega) m c b h0 hmn hmk hc hm
      · rw [if_neg hik] at hd
        by_cases hpk : i / 2 = k
        · rw [if_pos hpk] at hc
          cases hc
          exact hmin i d hi0 hi hpk hd
        · rw [if_neg hpk] at hc
          exact h.except i c d hi0 hi hpk hc hd
  · rw [getElem?_exchange hkl hml] at hc hd
    rw [if_neg (by omega), if_pos hmk] at hc
    rw [if_neg (by omega), if_neg (by omega)] at hd
    cases hc
    have hpar : v[i / 2]? = some b := by rw [him, hm]
    exact h.except i b d hi0 hi (by omega) hpar hd

/-- Nothing is below the element at place 0. -/
theorem HeapTo.first_le (h : HeapTo v n) (hn : n ≤ v.length) (hfirst : v[0]? = some a) :
    ∀ i b, i < n → v[i]? = some b → a ≤ b := by
  intro i
  induction i using Nat.strongRecOn with
  | ind i ih =>
    intro b hi hb
    by_cases h0 : i = 0
    · rw [h0, hfirst] at hb
      cases hb
      exact le_refl _
    · have hpar : v[i / 2]? = some v[i / 2] := List.getElem?_eq_getElem (by omega)
      exact (ih (i / 2) (by omega) _ (by omega) hpar).trans (h i _ b (by omega) hi hpar hb)

theorem heapTo_of_pairwise (h : (v.take n).Pairwise (· ≤ ·)) : HeapTo v n := by
  intro i a b h0 hi ha hb
  rw [List.pairwise_iff_getElem] at h
  obtain ⟨hpl, rfl⟩ := List.getElem?_eq_some_iff.mp ha
  obtain ⟨hil, rfl⟩ := List.getElem?_eq_some_iff.mp hb
  have hlen : (v.take n).length = min n v.length := List.length_take
  have hle := h (i / 2) i (by omega) (by omega) (by omega)
  rwa [List.getElem_take, List.getElem_take] at hle

end CommonTools.Lib
