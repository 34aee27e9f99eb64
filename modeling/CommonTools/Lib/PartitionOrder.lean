import CommonTools.Lib.Partition
import CommonTools.Lib.SortRange

/-! # What a partition leaves on its two sides

When each element has a side, the exchange loop ends with every element of its
range on the side where it belongs. The key then goes between the sides, and
sorting both of them sorts the range. -/
namespace CommonTools.Lib

variable {α : Type}

/-! ## Elements by index -/

/-- The element at an index; `d` stands for what is outside of the vector. -/
def elemAt (d : α) (vect : List α) (i : Int) : α := (at? vect i).getD d

section
variable (d : α) {vect : List α} {i j : Int}

theorem at?_elemAt (h0 : 0 ≤ i) (h : i < vect.length) : at? vect i = some (elemAt d vect i) := by
  obtain ⟨k, rfl⟩ := Int.eq_ofNat_of_zero_le h0
  rw [elemAt, at?_natCast, List.getElem?_eq_getElem (by omega)]
  rfl

theorem elemAt_mem (h0 : 0 ≤ i) (h : i < vect.length) : elemAt d vect i ∈ vect := by
  obtain ⟨k, hk, hget⟩ := at?_eq_some.mp (at?_elemAt d h0 h)
  exact List.mem_of_getElem? hget

theorem elemAt_natCast {k : Nat} (h : k < vect.length) : elemAt d vect (k : Int) = vect[k] := by
  rw [elemAt, at?_natCast, List.getElem?_eq_getElem h]
  rfl

theorem swap_elemAt (hi0 : 0 ≤ i) (hi : i < vect.length) (hj0 : 0 ≤ j) (hj : j < vect.length) :
    ∃ vect', swap vect i j = some vect' ∧ vect'.Perm vect ∧
      ∀ k, elemAt d vect' k = elemAt d vect (Equiv.swap i j k) := by
  obtain ⟨i, rfl⟩ := Int.eq_ofNat_of_zero_le hi0
  obtain ⟨j, rfl⟩ := Int.eq_ofNat_of_zero_le hj0
  have hi : i < vect.length := by omega
  have hj : j < vect.length := by omega
  refine ⟨(vect.set i vect[j]).set j vect[i], ?_, List.set_set_perm hi hj, fun k => ?_⟩
  · simp [swap, put?, hi, hj]
  · by_cases hk0 : 0 ≤ k
    · obtain ⟨k, rfl⟩ := Int.eq_ofNat_of_zero_le hk0
      by_cases hkj : k = j
      · subst hkj
        rw [Equiv.swap_apply_right, elemAt_natCast d hi, elemAt, at?_natCast,
          List.getElem?_set_self (by rwa [List.length_set])]
        rfl
      · rw [elemAt, at?_natCast, List.getElem?_set_ne (Ne.symm hkj)]
        by_cases hki : k = i
        · subst hki
          rw [Equiv.swap_apply_left, elemAt_natCast d hj, List.getElem?_set_self hi]
          rfl
        · rw [Equiv.swap_apply_of_ne_of_ne (by omega) (by omega), elemAt, at?_natCast,
            List.getElem?_set_ne (Ne.symm hki)]
    · have hki : k ≠ i := by omega
      have hkj : k ≠ j := by omega
      rw [Equiv.swap_apply_of_ne_of_ne hki hkj]
      simp [elemAt, at?, hk0]

end

/-! ## The scans -/

section
variable (goesLeft : α → Option Bool) {p : α → Bool} (d : α)

theorem scanUp_side {vect : List α} (hall : ∀ a ∈ vect, goesLeft a = some (p a)) {right : Int}
    (hright : right < vect.length) : ∀ (n : Nat) (left : Int), 0 ≤ left → left ≤ right →
      right - left ≤ n →
      ∃ l, scanUp goesLeft vect right n left = some l ∧ left ≤ l ∧ l ≤ right ∧
        (∀ i, left ≤ i → i < l → p (elemAt d vect i) = true) ∧
        (l < right → p (elemAt d vect l) = false) := by
  intro n
  induction n with
  | zero =>
    intro left _ hle hn
    exact ⟨left, rfl, Int.le_refl _, hle, fun i hi hil => by omega, fun hl => by omega⟩
  | succ n ih =>
    intro left h0 hle hn
    unfold scanUp
    by_cases hlt : left < right
    · have hin : left < vect.length := by omega
      simp only [if_pos hlt, at?_elemAt d h0 hin, hall _ (elemAt_mem d h0 hin),
        Option.bind_eq_bind, Option.bind_some]
      cases hp : p (elemAt d vect left) with
      | true =>
        obtain ⟨l, hl, hleft, hlr, hbefore, hat⟩ :=
          ih (left + 1) (by omega) (by omega) (by omega)
        refine ⟨l, hl, by omega, hlr, fun i hi hil => ?_, hat⟩
        by_cases heq : i = left
        · rw [heq, hp]
        · exact hbefore i (by omega) hil
      | false => exact ⟨left, rfl, Int.le_refl _, hle, fun i hi hil => by omega, fun _ => hp⟩
    · rw [if_neg hlt]
      exact ⟨left, rfl, Int.le_refl _, hle, fun i hi hil => by omega, fun hl => absurd hl hlt⟩

theorem scanDown_side {vect : List α} (hall : ∀ a ∈ vect, goesLeft a = some (p a))
    {left key : Int} (h0 : 0 ≤ left) (hkey : key < left) : ∀ (n : Nat) (right : Int),
      right < vect.length → left - 1 ≤ right → right - left + 1 ≤ n →
      ∃ r, scanDown goesLeft vect left key n right = some r ∧ left - 1 ≤ r ∧ r ≤ right ∧
        (∀ i, r < i → i ≤ right → p (elemAt d vect i) = false) ∧
        (left ≤ r → p (elemAt d vect r) = true) := by
  intro n
  induction n with
  | zero =>
    intro right _ hle hn
    exact ⟨right, rfl, hle, Int.le_refl _, fun i hi hir => by omega, fun hr => by omega⟩
  | succ n ih =>
    intro right hright hle hn
    unfold scanDown
    by_cases hlt : left ≤ right
    · have hcond : left ≤ right ∧ key < right := ⟨hlt, by omega⟩
      simp only [if_pos hcond, at?_elemAt d (by omega : 0 ≤ right) hright,
        hall _ (elemAt_mem d (by omega : 0 ≤ right) hright), Option.bind_eq_bind, Option.bind_some]
      cases hp : p (elemAt d vect right) with
      | true => exact ⟨right, rfl, hle, Int.le_refl _, fun i hi hir => by omega, fun _ => hp⟩
      | false =>
        obtain ⟨r, hr, hleft, hrr, hafter, hat⟩ :=
          ih (right - 1) (by omega) (by omega) (by omega)
        refine ⟨r, hr, hleft, by omega, fun i hi hir => ?_, hat⟩
        by_cases heq : i = right
        · rw [heq, hp]
        · exact hafter i hi (by omega)
    · rw [if_neg fun h => hlt h.1]
      exact ⟨right, rfl, hle, Int.le_refl _, fun i hi hir => by omega, fun hr => absurd hr hlt⟩

/-! ## The exchange loop -/

/-- What the loop leaves between `left` and `right`: what belongs to the left up to `l`
and what belongs to the right behind `r`, with at most one element in doubt. -/
structure Parted (p : α → Bool) (d : α) (left right : Int) (vect vect' : List α) (l r : Int) :
    Prop where
  perm : vect'.Perm vect
  rearranged : Rearranged left right (elemAt d vect) (elemAt d vect')
  meet : r = l ∨ r = l - 1
  left_le : left ≤ l
  le_right : r ≤ right
  before : ∀ i, left ≤ i → i < l → p (elemAt d vect' i) = true
  after : ∀ i, r < i → i ≤ right → p (elemAt d vect' i) = false

theorem Parted.stop {p : α → Bool} {left right : Int} (vect : List α) (hlt : ¬ left < right)
    (hle : left ≤ right + 1) : Parted p d left right vect vect left right where
  perm := List.Perm.refl vect
  rearranged := Rearranged.refl _ _ _
  meet := by omega
  left_le := Int.le_refl left
  le_right := Int.le_refl right
  before i hi hil := by omega
  after i hi hir := by omega

/-- An exchange of the two elements at which the scans stopped, and what the loop does
between them. -/
theorem Parted.outwards {p : α → Bool} {left right l r l' r' : Int} {vect vect₁ vect' : List α}
    (hl : left ≤ l) (hlr : l < r) (hr : r ≤ right) (hperm : vect₁.Perm vect)
    (hswap : ∀ k, elemAt d vect₁ k = elemAt d vect (Equiv.swap l r k))
    (hbefore : ∀ i, left ≤ i → i < l → p (elemAt d vect i) = true)
    (hafter : ∀ i, r < i → i ≤ right → p (elemAt d vect i) = false)
    (hpl : p (elemAt d vect l) = false) (hpr : p (elemAt d vect r) = true)
    (h : Parted p d (l + 1) (r - 1) vect₁ vect' l' r') :
    Parted p d left right vect vect' l' r' where
  perm := h.perm.trans hperm
  rearranged := by
    have hexch : Rearranged left right (elemAt d vect) (elemAt d vect₁) := by
      rw [funext hswap]
      exact Rearranged.swap _ (by omega) (by omega)
    exact hexch.trans (h.rearranged.mono (by omega) (by omega))
  meet := h.meet
  left_le := by
    have hle := h.left_le
    omega
  le_right := by
    have hle := h.le_right
    omega
  before i hi hil := by
    by_cases hin : l + 1 ≤ i
    · exact h.before i hin hil
    · rw [h.rearranged.outside (by omega), hswap]
      by_cases heq : i = l
      · rw [heq, Equiv.swap_apply_left, hpr]
      · rw [Equiv.swap_apply_of_ne_of_ne heq (by omega)]
        exact hbefore i hi (by omega)
  after i hi hir := by
    by_cases hin : i ≤ r - 1
    · exact h.after i hi hin
    · rw [h.rearranged.outside (by omega), hswap]
      by_cases heq : i = r
      · rw [heq, Equiv.swap_apply_right, hpl]
      · rw [Equiv.swap_apply_of_ne_of_ne (by omega) heq]
        exact hafter i (by omega) hir

theorem exchange_parted {key : Int} (hkey : 0 ≤ key) : ∀ (n : Nat) (vect : List α)
    (left right : Int), (∀ a ∈ vect, goesLeft a = some (p a)) → key < left → left ≤ right + 1 →
      right < vect.length → right - left ≤ n →
      ∃ vect' l r, exchange goesLeft swap key n vect left right = some (vect', l, r) ∧
        Parted p d left right vect vect' l r := by
  intro n
  induction n with
  | zero =>
    intro vect left right _ _ hle _ hn
    exact ⟨vect, left, right, rfl, Parted.stop d vect (by omega) hle⟩
  | succ n ih =>
    intro vect left right hall hleft hle hright hn
    unfold exchange
    by_cases hlt : left < right
    · obtain ⟨l, hup, hl, hlr, hbefore, hpl⟩ := scanUp_side goesLeft d hall hright
        (right - left).toNat left (by omega) (by omega) (by omega)
      obtain ⟨r, hdown, hr, hrr, hafter, hpr⟩ := scanDown_side goesLeft d hall
        (by omega : 0 ≤ l) (by omega : key < l) (right - l + 1).toNat right hright (by omega)
        (by omega)
      simp only [if_pos hlt, hup, hdown, Option.bind_eq_bind, Option.bind_some]
      by_cases hcross : l < r
      · obtain ⟨vect₁, hexch, hperm, hswap⟩ := swap_elemAt d (by omega : 0 ≤ l)
          (by omega : l < vect.length) (by omega : 0 ≤ r) (by omega : r < vect.length)
        have hlen := hperm.length_eq
        obtain ⟨vect', l', r', hrest, hparted⟩ := ih vect₁ (l + 1) (r - 1)
          (fun a ha => hall a (hperm.mem_iff.mp ha)) (by omega) (by omega) (by omega) (by omega)
        simp only [if_pos hcross, hexch, Option.bind_some, hrest]
        exact ⟨vect', l', r', rfl, hparted.outwards d hl hcross hrr hperm hswap hbefore hafter
          (hpl (by omega)) (hpr (by omega))⟩
      · simp only [if_neg hcross]
        exact ⟨vect, l, r, rfl, List.Perm.refl vect, Rearranged.refl _ _ _, by omega, hl, hrr,
          hbefore, hafter⟩
    · rw [if_neg hlt]
      exact ⟨vect, left, right, rfl, Parted.stop d vect hlt hle⟩

/-- The element at which the loop ended, when it was not looked at; `f` is what
the partition does next. -/
theorem Parted.settle {left right l r : Int} {vect vect' : List α}
    (hall : ∀ a ∈ vect', goesLeft a = some (p a)) (h0 : 0 ≤ left) (hright : right < vect'.length)
    (h : Parted p d left right vect vect' l r) :
    ∃ k, (∀ {β : Type} (f : Int → Option β), (if r = l then
        (at? vect' r).bind fun a => (goesLeft a).bind fun stays =>
          if stays = true then f r else f (r - 1)
      else f r) = f k) ∧ left - 1 ≤ k ∧ k ≤ right ∧
      (∀ i, left ≤ i → i ≤ k → p (elemAt d vect' i) = true) ∧
      (∀ i, k < i → i ≤ right → p (elemAt d vect' i) = false) := by
  obtain ⟨_, _, hmeet, hl, hr, hbefore, hafter⟩ := h
  by_cases hrl : r = l
  · subst hrl
    have hin : r < vect'.length := by omega
    have h0' : 0 ≤ r := by omega
    cases hp : p (elemAt d vect' r) with
    | true =>
      refine ⟨r, fun f => ?_, by omega, hr, fun i hi hir => ?_, hafter⟩
      · simp only [if_true, at?_elemAt d h0' hin, hall _ (elemAt_mem d h0' hin), Option.bind_some,
          hp]
      · by_cases heq : i = r
        · rw [heq, hp]
        · exact hbefore i hi (by omega)
    | false =>
      refine ⟨r - 1, fun f => ?_, by omega, by omega, fun i hi hir => hbefore i hi (by omega),
        fun i hi hir => ?_⟩
      · simp only [if_true, at?_elemAt d h0' hin, hall _ (elemAt_mem d h0' hin), Option.bind_some,
          hp, Bool.false_eq_true, if_false]
      · by_cases heq : i = r
        · rw [heq, hp]
        · exact hafter i (by omega) hir
  · exact ⟨r, fun f => if_neg hrl, by omega, hr, fun i hi hir => hbefore i hi (by omega), hafter⟩

end

/-! ## A split range -/

/-- What a partition makes of the range from `left` to `right`: position `k`
has its element. -/
structure SplitOn (r : α → α → Prop) (d : α) (left right : Int) (vect vect' : List α) (k : Int) :
    Prop where
  perm : vect'.Perm vect
  rearranged : Rearranged left right (elemAt d vect) (elemAt d vect')
  left_le : left ≤ k
  le_right : k ≤ right
  before : ∀ i, left ≤ i → i < k → r (elemAt d vect' i) (elemAt d vect' k)
  after : ∀ i, k < i → i ≤ right → r (elemAt d vect' k) (elemAt d vect' i)

section
variable {r : α → α → Prop} {d : α} {vect vect₁ vect' : List α} {left right k : Int}

/-- Two elements that stand in the relation, split behind the first. -/
theorem SplitOn.pair (h : r (elemAt d vect left) (elemAt d vect (left + 1))) :
    SplitOn r d left (left + 1) vect vect (left + 1) where
  perm := List.Perm.refl vect
  rearranged := Rearranged.refl _ _ _
  left_le := by omega
  le_right := Int.le_refl _
  before i hi hik := by
    obtain rfl : i = left := by omega
    exact h
  after i hki hir := by omega

theorem SplitOn.pair_swap (hperm : vect'.Perm vect)
    (hswap : ∀ k, elemAt d vect' k = elemAt d vect (Equiv.swap left (left + 1) k))
    (h : r (elemAt d vect (left + 1)) (elemAt d vect left)) :
    SplitOn r d left (left + 1) vect vect' (left + 1) where
  perm := hperm
  rearranged := by
    rw [funext hswap]
    exact Rearranged.swap _ (by omega) (by omega)
  left_le := by omega
  le_right := Int.le_refl _
  before i hi hik := by
    obtain rfl : i = left := by omega
    rw [hswap, hswap, Equiv.swap_apply_left, Equiv.swap_apply_right]
    exact h
  after i hki hir := by omega

/-- The key, which is the first element, goes behind those that come before it. -/
theorem SplitOn.key (hk : left ≤ k ∧ k ≤ right) (hperm₁ : vect₁.Perm vect)
    (hrearr : Rearranged (left + 1) right (elemAt d vect) (elemAt d vect₁))
    (hbefore : ∀ i, left < i → i ≤ k → r (elemAt d vect₁ i) (elemAt d vect left))
    (hafter : ∀ i, k < i → i ≤ right → r (elemAt d vect left) (elemAt d vect₁ i))
    (hperm : vect'.Perm vect₁)
    (hswap : ∀ i, elemAt d vect' i = elemAt d vect₁ (Equiv.swap left k i)) :
    SplitOn r d left right vect vect' k := by
  have hkey : elemAt d vect' k = elemAt d vect left := by
    rw [hswap, Equiv.swap_apply_right]
    exact hrearr.outside (by omega)
  refine ⟨hperm.trans hperm₁, ?_, hk.1, hk.2, fun i hi hik => ?_, fun i hki hir => ?_⟩
  · refine (hrearr.mono (by omega) (Int.le_refl right)).trans ?_
    rw [funext hswap]
    exact Rearranged.swap _ (by omega) hk
  · rw [hkey, hswap]
    by_cases heq : i = left
    · rw [heq, Equiv.swap_apply_left]
      exact hbefore k (by omega) (Int.le_refl k)
    · rw [Equiv.swap_apply_of_ne_of_ne heq (by omega)]
      exact hbefore i (by omega) (by omega)
  · rw [hkey, hswap, Equiv.swap_apply_of_ne_of_ne (by omega) (by omega)]
    exact hafter i hki hir

/-- The exchange loop behind the key, the settled element and the exchange of
the key. -/
theorem exchange_splitOn {goesLeft : α → Option Bool} {p : α → Bool}
    (hall : ∀ a ∈ vect, goesLeft a = some (p a)) (h0 : 0 ≤ left) (hlr : left < right)
    (hright : right < vect.length)
    (hleft : ∀ a, p a = true → r a (elemAt d vect left))
    (hnot : ∀ a, p a = false → r (elemAt d vect left) a) :
    ∃ vect₁ l r' vect' k, exchange goesLeft swap left (right - (left + 1)).toNat vect (left + 1)
        right = some (vect₁, l, r') ∧
      (∀ {β : Type} (f : Int → Option β), (if r' = l then
          (at? vect₁ r').bind fun a => (goesLeft a).bind fun stays =>
            if stays = true then f r' else f (r' - 1)
        else f r') = f k) ∧
      (if k = left then some (vect₁, k)
        else (swap vect₁ left k).bind fun v => some (v, k)) = some (vect', k) ∧
      SplitOn r d left right vect vect' k := by
  obtain ⟨vect₁, l, r', hexch, hparted⟩ := exchange_parted goesLeft d h0
    (right - (left + 1)).toNat vect (left + 1) right hall (by omega) (by omega) hright (by omega)
  have hlen := hparted.perm.length_eq
  obtain ⟨k, hsettle, hlk, hkr, hbefore, hafter⟩ := hparted.settle goesLeft d
    (fun a ha => hall a (hparted.perm.mem_iff.mp ha)) (by omega) (by omega)
  have hkey : ∀ {v : List α}, v.Perm vect₁ →
      (∀ i, elemAt d v i = elemAt d vect₁ (Equiv.swap left k i)) →
      SplitOn r d left right vect v k :=
    SplitOn.key ⟨by omega, hkr⟩ hparted.perm hparted.rearranged
      (fun i hi hik => hleft _ (hbefore i (by omega) hik))
      (fun i hi hir => hnot _ (hafter i hi hir))
  by_cases hk : k = left
  · refine ⟨vect₁, l, r', vect₁, k, hexch, hsettle, if_pos hk, hkey (List.Perm.refl vect₁) ?_⟩
    intro i
    rw [hk, Equiv.swap_self]
    rfl
  · obtain ⟨vect', hswap', hperm, hswap⟩ :=
      swap_elemAt d h0 (by omega : left < vect₁.length) (by omega : 0 ≤ k)
        (by omega : k < vect₁.length)
    refine ⟨vect₁, l, r', vect', k, hexch, hsettle, ?_, hkey hperm hswap⟩
    rw [if_neg hk, hswap', Option.bind_some]

/-- Sorting a range by splits, with any depth that its length allows. -/
theorem sorted_of_splits [IsTrans α r] {Q : α → Prop}
    {part : List α → Int → Int → Option (List α × Int)}
    {sort : Nat → List α → Int → Int → Option (List α)}
    (hstop : ∀ n vect left right, ¬ left < right → sort n vect left right = some vect)
    (hstep : ∀ n vect left right, left < right → sort (n + 1) vect left right =
      (part vect left right).bind fun s => (sort n s.1 left (s.2 - 1)).bind fun v =>
        sort n v (s.2 + 1) right)
    (hpart : ∀ vect left right, (∀ a ∈ vect, Q a) → 0 ≤ left → left < right →
      right < vect.length →
      ∃ vect' k, part vect left right = some (vect', k) ∧ SplitOn r d left right vect vect' k) :
    ∀ (size : Nat) {vect : List α}, (∀ a ∈ vect, Q a) → ∀ {left right : Int}, 0 ≤ left →
      right < vect.length → right - left < size →
      ∃ vect', (∀ n : Nat, right - left < n → sort n vect left right = some vect') ∧
        vect'.Perm vect ∧ Rearranged left right (elemAt d vect) (elemAt d vect') ∧
        SortedOn r left right (elemAt d vect') := by
  intro size
  induction size with
  | zero =>
    intro vect _ left right _ _ hsize
    exact ⟨vect, fun n _ => hstop n _ _ _ (by omega), List.Perm.refl vect, Rearranged.refl _ _ _,
      SortedOn.of_le (by omega) _⟩
  | succ size ih =>
    intro vect hall left right h0 hright hsize
    by_cases hlr : left < right
    · obtain ⟨vect₀, k, hpart, hsplit⟩ := hpart vect left right hall h0 hlr hright
      have hlen := hsplit.perm.length_eq
      have hleft := hsplit.left_le
      have hle := hsplit.le_right
      obtain ⟨vect₁, hsort₁, hperm₁, hrearr₁, hsorted₁⟩ := ih
        (fun a ha => hall a (hsplit.perm.mem_iff.mp ha)) h0
        (by omega : k - 1 < vect₀.length) (by omega)
      have hlen₁ := hperm₁.length_eq
      obtain ⟨vect₂, hsort₂, hperm₂, hrearr₂, hsorted₂⟩ := ih
        (fun a ha => hall a ((hperm₁.trans hsplit.perm).mem_iff.mp ha))
        (by omega : 0 ≤ k + 1) (by omega : right < vect₁.length) (by omega)
      obtain ⟨hrearr, hsorted⟩ :=
        SortedOn.sides hsplit.before hsplit.after ⟨hleft, hle⟩ hrearr₁ hsorted₁ hrearr₂ hsorted₂
      refine ⟨vect₂, fun n hn => ?_, hperm₂.trans (hperm₁.trans hsplit.perm),
        hsplit.rearranged.trans hrearr, hsorted⟩
      cases n with
      | zero => exact absurd hn (by omega)
      | succ n =>
        rw [hstep n vect left right hlr, hpart, Option.bind_some, hsort₁ n (by omega),
          Option.bind_some, hsort₂ n (by omega)]
    · exact ⟨vect, fun n _ => hstop n _ _ _ hlr, List.Perm.refl vect, Rearranged.refl _ _ _,
        SortedOn.of_le (by omega) _⟩

theorem pairwise_of_sortedOn (h : SortedOn r 0 (vect.length - 1) (elemAt d vect)) :
    vect.Pairwise r := by
  refine List.pairwise_iff_getElem.mpr fun i j hi hj hij => ?_
  have hr := h i j (by omega) (by omega) (by omega)
  rwa [elemAt_natCast d hi, elemAt_natCast d hj] at hr

end

end CommonTools.Lib
