import CommonTools.Lib.SortRange

/-! # Ranges that wait to be sorted

A sort that keeps the ranges it has still to sort on a stack: the ranges stand in
ascending order, and two elements that do not wait in one range are in order. Sorting
the range on top, or splitting it, keeps that, and an empty stack means that all is
sorted. -/
namespace CommonTools.Lib.RangeStack

variable {β : Type} {rel : β → β → Prop} {m m' : Int → β} {lo up floor l r k : Int}
  {stack : List (Int × Int)}

/-! ## The ranges -/

/-- The waiting ranges lie from `floor` to `up`, in ascending order, and at least one
element is in its place between two of them. -/
def Stacked (up : Int) : Int → List (Int × Int) → Prop
  | _, [] => True
  | floor, (l, r) :: stack => floor ≤ l ∧ l < r ∧ r ≤ up ∧ Stacked up (r + 2) stack

theorem Stacked.mono (h : Stacked up floor stack) {floor' : Int} (hle : floor' ≤ floor) :
    Stacked up floor' stack := by
  cases stack with
  | nil => trivial
  | cons q stack => exact ⟨hle.trans h.1, h.2⟩

theorem Stacked.le_fst : ∀ {stack : List (Int × Int)} {floor : Int}, Stacked up floor stack →
    ∀ q ∈ stack, floor ≤ q.1
  | _ :: stack, floor, h, q, hq => by
    obtain ⟨hfloor, hlt, -, hrest⟩ := h
    rcases List.mem_cons.mp hq with rfl | hq
    · exact hfloor
    · have hle := hrest.le_fst q hq
      omega

/-- Each waiting range takes three elements. -/
theorem Stacked.length_le : ∀ {stack : List (Int × Int)} {floor : Int}, Stacked up floor stack →
    floor ≤ up + 2 → floor + 3 * stack.length ≤ up + 2
  | [], floor, _, hle => by simpa using hle
  | (l, r) :: stack, floor, h, _ => by
    obtain ⟨hfloor, hlt, hup, hrest⟩ := h
    have hlen := hrest.length_le (by omega)
    rw [List.length_cons]
    omega

def volume : List (Int × Int) → Int
  | [] => 0
  | (l, r) :: stack => r - l + 1 + volume stack

theorem Stacked.volume_nonneg : ∀ {stack : List (Int × Int)} {floor : Int},
    Stacked up floor stack → 0 ≤ volume stack
  | [], _, _ => Int.le_refl 0
  | (l, r) :: stack, _, h => by
    obtain ⟨-, hlr, -, hrest⟩ := h
    have hle := hrest.volume_nonneg
    unfold volume
    omega

/-! ## What waits -/

/-- Elements that do not wait in one range are in order. -/
def InOrder (rel : β → β → Prop) (lo up : Int) (stack : List (Int × Int)) (m : Int → β) : Prop :=
  ∀ i j, lo ≤ i → i < j → j ≤ up → (∃ q ∈ stack, q.1 ≤ i ∧ j ≤ q.2) ∨ rel (m i) (m j)

theorem InOrder.whole (rel : β → β → Prop) (lo up : Int) (m : Int → β) :
    InOrder rel lo up [(lo, up)] m :=
  fun _ _ hi _ hj => .inl ⟨_, List.mem_singleton_self _, hi, hj⟩

theorem InOrder.sorted (h : InOrder rel lo up [] m) : SortedOn rel lo up m :=
  fun i j hi hij hj => (h i j hi hij hj).resolve_left fun ⟨_, hq, _⟩ => absurd hq List.not_mem_nil

/-- An element of the range on top does not wait with one outside of it. -/
theorem InOrder.beside (h : InOrder rel lo up ((l, r) :: stack) m)
    (hrest : Stacked up (r + 2) stack) {i j : Int} (hi : lo ≤ i) (hij : i < j) (hj : j ≤ up)
    (hin : l ≤ i ∧ i ≤ r ∨ l ≤ j ∧ j ≤ r) (hnot : ¬ (l ≤ i ∧ j ≤ r)) : rel (m i) (m j) := by
  rcases h i j hi hij hj with ⟨q, hq, hqi, hqj⟩ | hrel
  · rcases List.mem_cons.mp hq with rfl | hq
    · exact absurd ⟨hqi, hqj⟩ hnot
    · have hle := hrest.le_fst q hq
      omega
  · exact hrel

/-- The range on top is rearranged, and replaced by the ranges `new`. -/
theorem InOrder.replace {new : List (Int × Int)} (h : InOrder rel lo up ((l, r) :: stack) m)
    (hstacked : Stacked up lo ((l, r) :: stack)) (hrearr : Rearranged l r m m')
    (hnew : ∀ i j, l ≤ i → i < j → j ≤ r → (∃ q ∈ new, q.1 ≤ i ∧ j ≤ q.2) ∨ rel (m' i) (m' j)) :
    InOrder rel lo up (new ++ stack) m' := by
  obtain ⟨hfloor, hlr, hup, hrest⟩ := hstacked
  intro i j hi hij hj
  by_cases hboth : l ≤ i ∧ j ≤ r
  · rcases hnew i j hboth.1 hij hboth.2 with ⟨q, hq, hcover⟩ | hle
    · exact .inl ⟨q, List.mem_append_left _ hq, hcover⟩
    · exact .inr hle
  · by_cases hini : l ≤ i ∧ i ≤ r
    · refine .inr ?_
      obtain ⟨i', hli', hir', hsource⟩ := hrearr.source hini.1 hini.2
      rw [hsource, hrearr.outside (by omega : ¬ (l ≤ j ∧ j ≤ r))]
      exact h.beside hrest (by omega) (by omega) hj (.inl ⟨hli', hir'⟩) (by omega)
    · rw [hrearr.outside hini]
      by_cases hinj : l ≤ j ∧ j ≤ r
      · refine .inr ?_
        obtain ⟨j', hlj', hjr', hsource⟩ := hrearr.source hinj.1 hinj.2
        rw [hsource]
        exact h.beside hrest hi (by omega) (by omega) (.inr ⟨hlj', hjr'⟩) (by omega)
      · rw [hrearr.outside hinj]
        rcases h i j hi hij hj with ⟨q, hq, hcover⟩ | hle
        · rcases List.mem_cons.mp hq with rfl | hq
          · exact absurd hcover hboth
          · exact .inl ⟨q, List.mem_append_right _ hq, hcover⟩
        · exact .inr hle

theorem InOrder.sort (h : InOrder rel lo up ((l, r) :: stack) m)
    (hstacked : Stacked up lo ((l, r) :: stack)) (hrearr : Rearranged l r m m')
    (hsorted : SortedOn rel l r m') : InOrder rel lo up stack m' := by
  have hnew : InOrder rel lo up ([] ++ stack) m' :=
    h.replace hstacked hrearr fun i j hi hij hj => .inr (hsorted i j hi hij hj)
  exact hnew

/-! ## Splitting a range -/

/-- A range that is split around `k`. -/
structure Split (rel : β → β → Prop) (l r k : Int) (m m' : Int → β) : Prop where
  rearranged : Rearranged l r m m'
  left_lt : l < k
  lt_right : k < r
  before : ∀ i, l ≤ i → i < k → rel (m' i) (m' k)
  after : ∀ i, k < i → i ≤ r → rel (m' k) (m' i)

/-- The ranges on the two sides of `k` that have something to sort. -/
def sides (l r k : Int) : List (Int × Int) :=
  (if l < k - 1 then [(l, k - 1)] else []) ++ if k + 1 < r then [(k + 1, r)] else []

theorem Split.covered [IsTrans β rel] (h : Split rel l r k m m') : ∀ i j, l ≤ i → i < j → j ≤ r →
    (∃ q ∈ sides l r k, q.1 ≤ i ∧ j ≤ q.2) ∨ rel (m' i) (m' j) := by
  intro i j hi hij hj
  rcases lt_trichotomy j k with hjk | rfl | hjk
  · refine .inl ⟨(l, k - 1), List.mem_append_left _ ?_, hi, by dsimp only; omega⟩
    rw [if_pos (by omega)]
    exact List.mem_singleton_self _
  · exact .inr (h.before i hi hij)
  · rcases lt_trichotomy i k with hik | rfl | hik
    · exact .inr (IsTrans.trans _ _ _ (h.before i hi hik) (h.after j hjk hj))
    · exact .inr (h.after j hij hj)
    · refine .inl ⟨(k + 1, r), List.mem_append_right _ ?_, by dsimp only; omega, hj⟩
      rw [if_pos (by omega)]
      exact List.mem_singleton_self _

theorem InOrder.split [IsTrans β rel] (h : InOrder rel lo up ((l, r) :: stack) m)
    (hstacked : Stacked up lo ((l, r) :: stack)) (hsplit : Split rel l r k m m') :
    InOrder rel lo up (sides l r k ++ stack) m' :=
  h.replace hstacked hsplit.rearranged hsplit.covered

theorem stacked_sides (hlk : l < k) (hkr : k < r) (h : Stacked up floor ((l, r) :: stack)) :
    Stacked up floor (sides l r k ++ stack) := by
  obtain ⟨hfloor, hlr, hup, hrest⟩ := h
  have hright : Stacked up (k + 1) ((if k + 1 < r then [(k + 1, r)] else []) ++ stack) := by
    by_cases hpush : k + 1 < r
    · rw [if_pos hpush]
      exact ⟨Int.le_refl _, hpush, hup, hrest⟩
    · rw [if_neg hpush]
      exact hrest.mono (by omega)
  rw [sides, List.append_assoc]
  by_cases hpush : l < k - 1
  · rw [if_pos hpush]
    exact ⟨hfloor, hpush, by omega, hright.mono (by omega)⟩
  · rw [if_neg hpush]
    exact hright.mono (by omega)

theorem volume_sides (hlk : l < k) (hkr : k < r) (stack : List (Int × Int)) :
    volume (sides l r k ++ stack) < r - l + 1 + volume stack := by
  unfold sides
  by_cases hleft : l < k - 1 <;> by_cases hright : k + 1 < r <;>
    simp only [hleft, hright, if_true, if_false, List.nil_append, List.cons_append, volume] <;>
    omega

end CommonTools.Lib.RangeStack
