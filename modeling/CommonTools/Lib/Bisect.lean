import Mathlib.Data.List.Basic
import Mathlib.Tactic.Common

/-! # Three-way binary search

One loop for the searches of this family: a closed range of `int` positions, a
midpoint rule and a comparison of the target with the element at a position.
The comparison is partial; `none` is a read that has no meaning. -/
namespace CommonTools.Lib

/-- The inner `none` is "not found". The first argument bounds the number of
positions left. -/
def bisect (mid : Int → Int → Int) (cmp : Int → Option Ordering) :
    Nat → Int → Int → Option (Option Int)
  | 0, _, _ => some none
  | n + 1, left, right =>
    if left ≤ right then do
      match ← cmp (mid left right) with
      | .eq => some (some (mid left right))
      | .gt => bisect mid cmp n (mid left right + 1) right
      | .lt => bisect mid cmp n left (mid left right - 1)
    else some none

/-- A midpoint rule stays inside every nonempty range. -/
def Midpoint (mid : Int → Int → Int) : Prop :=
  ∀ left right, left ≤ right → left ≤ mid left right ∧ mid left right ≤ right

theorem midpoint_half : Midpoint fun left right => (left + right) / 2 := by
  intro left right h; dsimp only; constructor <;> omega

theorem midpoint_offset : Midpoint fun left right => left + (right - left) / 2 := by
  intro left right h; dsimp only; constructor <;> omega

/-- On `[left, right]` the comparison has the values `c`, and they fall from
`gt` over `eq` to `lt` as the position grows. -/
structure Falls (cmp : Int → Option Ordering) (c : Int → Ordering) (left right : Int) : Prop where
  value : ∀ i, left ≤ i → i ≤ right → cmp i = some (c i)
  after : ∀ i j, left ≤ i → i ≤ j → j ≤ right → c i = .lt → c j = .lt
  before : ∀ i j, left ≤ i → i ≤ j → j ≤ right → c j = .gt → c i = .gt

theorem Falls.sub {cmp : Int → Option Ordering} {c : Int → Ordering} {left right l r : Int}
    (h : Falls cmp c left right) (hl : left ≤ l) (hr : r ≤ right) : Falls cmp c l r where
  value i hi hj := h.value i (by omega) (by omega)
  after i j hi hij hj := h.after i j (by omega) hij (by omega)
  before i j hi hij hj := h.before i j (by omega) hij (by omega)

/-- The search ends; it finds a position that compares equal if there is one. -/
theorem bisect_spec {mid : Int → Int → Int} {cmp : Int → Option Ordering} {c : Int → Ordering}
    (hmid : Midpoint mid) :
    ∀ (n : Nat) (left right : Int), right - left < n → Falls cmp c left right →
      (∃ m, bisect mid cmp n left right = some (some m) ∧ left ≤ m ∧ m ≤ right ∧ c m = .eq) ∨
      (bisect mid cmp n left right = some none ∧ ∀ i, left ≤ i → i ≤ right → c i ≠ .eq) := by
  intro n
  induction n with
  | zero =>
    intro left right hn _
    exact .inr ⟨rfl, fun i hi hj => by omega⟩
  | succ n ih =>
    intro left right hn hf
    by_cases hlr : left ≤ right
    · obtain ⟨hm1, hm2⟩ := hmid left right hlr
      have hv := hf.value (mid left right) hm1 hm2
      simp only [bisect, if_pos hlr, hv, Option.bind_eq_bind, Option.bind_some]
      cases hc : c (mid left right) with
      | eq => exact .inl ⟨_, rfl, hm1, hm2, hc⟩
      | gt =>
        -- everything up to the midpoint is below the target
        rcases ih (mid left right + 1) right (by omega)
          (hf.sub (by omega) (Int.le_refl _)) with ⟨m, hr, h1, h2, h3⟩ | ⟨hr, hno⟩
        · exact .inl ⟨m, hr, by omega, h2, h3⟩
        · refine .inr ⟨hr, fun i hi hj => ?_⟩
          by_cases hle : i ≤ mid left right
          · rw [hf.before i _ hi hle hm2 hc]; decide
          · exact hno i (by omega) hj
      | lt =>
        rcases ih left (mid left right - 1) (by omega)
          (hf.sub (Int.le_refl _) (by omega)) with ⟨m, hr, h1, h2, h3⟩ | ⟨hr, hno⟩
        · exact .inl ⟨m, hr, h1, by omega, h3⟩
        · refine .inr ⟨hr, fun i hi hj => ?_⟩
          by_cases hle : mid left right ≤ i
          · rw [hf.after _ i hm1 hle hj hc]; decide
          · exact hno i hi (by omega)
    · exact .inr ⟨by simp [bisect, hlr], fun i hi hj => by omega⟩

theorem bisect_some {mid : Int → Int → Int} {cmp : Int → Option Ordering} (hmid : Midpoint mid) :
    ∀ {n : Nat} {left right m : Int}, bisect mid cmp n left right = some (some m) →
      left ≤ m ∧ m ≤ right ∧ cmp m = some .eq
  | n + 1, left, right, m, h => by
    rw [bisect] at h
    split at h
    · rename_i hlr
      obtain ⟨hm1, hm2⟩ := hmid left right hlr
      obtain ⟨o, ho, h⟩ := Option.bind_eq_some_iff.mp h
      cases o with
      | eq =>
        cases h
        exact ⟨hm1, hm2, ho⟩
      | gt =>
        obtain ⟨hl, hr, heq⟩ := bisect_some hmid h
        exact ⟨by omega, hr, heq⟩
      | lt =>
        obtain ⟨hl, hr, heq⟩ := bisect_some hmid h
        exact ⟨hl, by omega, heq⟩
    · cases h

/-- Where every target of a range is found, and under its own position only, each
two of them are told apart by a position between them. -/
theorem bisect_separates {mid : Int → Int → Int} (hmid : Midpoint mid)
    {cmp : Int → Int → Option Ordering} {c : Int → Int → Ordering} :
    ∀ {n : Nat} {left right : Int},
      (∀ j i, left ≤ j → j ≤ right → left ≤ i → i ≤ right →
        cmp j i = some (c j i) ∧ (c j i = .eq → j = i)) →
      (∀ j, left ≤ j → j ≤ right → ∃ m, bisect mid (cmp j) n left right = some (some m)) →
      ∀ i j, left ≤ i → i < j → j ≤ right →
        ∃ m, i ≤ m ∧ m ≤ j ∧ (i = m ∨ c i m = .lt) ∧ (j = m ∨ c j m = .gt)
  | 0, left, right, _, hfound, i, j, hi, hij, hj => by
    obtain ⟨m, hm⟩ := hfound i hi (by omega)
    cases hm
  | n + 1, left, right, hc, hfound, i, j, hi, hij, hj => by
    obtain ⟨hm1, hm2⟩ := hmid left right (by omega)
    generalize hmeq : mid left right = m at hm1 hm2
    -- the comparison with the midpoint sends every target to its own side
    have hside : ∀ k, left ≤ k → k ≤ right →
        (c k m = .eq → k = m) ∧
        (c k m = .gt → m < k ∧ ∃ p, bisect mid (cmp k) n (m + 1) right = some (some p)) ∧
        (c k m = .lt → k < m ∧ ∃ p, bisect mid (cmp k) n left (m - 1) = some (some p)) := by
      intro k hk hkr
      obtain ⟨hcmp, heq⟩ := hc k m hk hkr hm1 hm2
      obtain ⟨p, hp⟩ := hfound k hk hkr
      rw [bisect, if_pos (by omega), hmeq, hcmp] at hp
      refine ⟨heq, fun hgt => ?_, fun hlt => ?_⟩
      · rw [hgt] at hp
        have hp' : bisect mid (cmp k) n (m + 1) right = some (some p) := hp
        obtain ⟨h1, h2, h3⟩ := bisect_some hmid hp'
        obtain ⟨hcp, hkp⟩ := hc k p hk hkr (by omega) h2
        have hkp := hkp (Option.some.inj (hcp.symm.trans h3))
        exact ⟨by omega, p, hp'⟩
      · rw [hlt] at hp
        have hp' : bisect mid (cmp k) n left (m - 1) = some (some p) := hp
        obtain ⟨h1, h2, h3⟩ := bisect_some hmid hp'
        obtain ⟨hcp, hkp⟩ := hc k p hk hkr h1 (by omega)
        have hkp := hkp (Option.some.inj (hcp.symm.trans h3))
        exact ⟨by omega, p, hp'⟩
    have hbefore : ∀ k, left ≤ k → k < m → c k m = .lt := by
      intro k hk hkm
      obtain ⟨heq, hgt, -⟩ := hside k hk (by omega)
      cases h : c k m with
      | lt => rfl
      | eq => exact absurd (heq h) (by omega)
      | gt => exact absurd (hgt h).1 (by omega)
    have hafter : ∀ k, m < k → k ≤ right → c k m = .gt := by
      intro k hkm hk
      obtain ⟨heq, -, hlt⟩ := hside k (by omega) hk
      cases h : c k m with
      | gt => rfl
      | eq => exact absurd (heq h) (by omega)
      | lt => exact absurd (hlt h).1 (by omega)
    by_cases him : i ≤ m
    · by_cases hmj : m ≤ j
      · refine ⟨m, him, hmj, ?_, ?_⟩
        · by_cases h : i = m
          · exact .inl h
          · exact .inr (hbefore i hi (by omega))
        · by_cases h : j = m
          · exact .inl h
          · exact .inr (hafter j (by omega) hj)
      · exact @bisect_separates mid hmid cmp c n left (m - 1)
          (fun k p hk hkr hp hpr => hc k p hk (by omega) hp (by omega))
          (fun k hk hkr => ((hside k hk (by omega)).2.2 (hbefore k hk (by omega))).2)
          i j hi hij (by omega)
    · exact @bisect_separates mid hmid cmp c n (m + 1) right
        (fun k p hk hkr hp hpr => hc k p (by omega) hkr (by omega) hpr)
        (fun k hk hkr => ((hside k (by omega) hkr).2.1 (hafter k (by omega) hkr)).2)
        i j (by omega) hij hj

end CommonTools.Lib
