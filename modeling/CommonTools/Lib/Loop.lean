import Mathlib.Algebra.BigOperators.Intervals
import Mathlib.Data.List.Range
import Mathlib.Data.Set.Lattice
import Mathlib.Logic.Function.Basic
import Mathlib.Tactic.Common

/-! # Loops

Loops that count, loops that fill a table of which each cell has one right
value, also row by row, and loops that add up or take the largest. -/
namespace CommonTools.Lib

variable {σ : Type}

/-- The loop for `i` from `first` up to and without `first + count`. -/
def loop (first count : Nat) (body : Nat → σ → σ) (s : σ) : σ :=
  (List.range' first count).foldl (fun s i => body i s) s

/-- What the body carries from one round to the next holds after the loop. -/
theorem loop_invariant {body : Nat → σ → σ} (P : Nat → σ → Prop) (first : Nat) {s : σ}
    (init : P first s) : ∀ {count : Nat},
      (∀ i s, first ≤ i → i < first + count → P i s → P (i + 1) (body i s)) →
      P (first + count) (loop first count body s)
  | 0, _ => init
  | count + 1, step => by
    have hbefore := @loop_invariant body P first s init count fun i s hlo hhi =>
      step i s hlo (Nat.lt_succ_of_lt hhi)
    rw [loop, List.range'_concat, List.foldl_append, List.foldl_cons, List.foldl_nil, Nat.one_mul]
    exact step (first + count) _ (Nat.le_add_right _ _) (Nat.lt_succ_self _) hbefore

/-- The same loop with a body that may have no meaning. -/
def loopM (first count : Nat) (body : Nat → σ → Option σ) (s : σ) : Option σ :=
  (List.range' first count).foldlM (fun s i => body i s) s

theorem loopM_some {body : Nat → σ → Option σ} {f : Nat → σ → σ} {first count : Nat}
    (h : ∀ i s, first ≤ i → i < first + count → body i s = some (f i s)) (s : σ) :
    loopM first count body s = some (loop first count f s) := by
  have hall : ∀ (l : List Nat) (s : σ), (∀ i ∈ l, ∀ s, body i s = some (f i s)) →
      l.foldlM (fun s i => body i s) s = some (l.foldl (fun s i => f i s) s) := by
    intro l
    induction l with
    | nil =>
      intro _ _
      rfl
    | cons i l ih =>
      intro s hl
      rw [List.foldlM_cons, hl i List.mem_cons_self]
      exact ih _ fun k hk => hl k (List.mem_cons_of_mem i hk)
  refine hall _ s fun i hi s => ?_
  obtain ⟨hlo, hhi⟩ := List.mem_range'_1.mp hi
  exact h i s hlo hhi

/-- A round without a meaning leaves the loop without one. -/
theorem loopM_none {body : Nat → σ → Option σ} {first count i : Nat} (hlo : first ≤ i)
    (hhi : i < first + count) (h : ∀ s, body i s = none) (s : σ) : loopM first count body s = none := by
  have hall : ∀ (l : List Nat) (s : σ), i ∈ l → l.foldlM (fun s i => body i s) s = none := by
    intro l
    induction l with
    | nil =>
      intro _ hi
      simp at hi
    | cons k l ih =>
      intro s hi
      rw [List.foldlM_cons]
      rcases List.mem_cons.mp hi with rfl | hi
      · rw [h s]
        rfl
      · cases hk : body k s with
        | none => rfl
        | some s' => exact ih s' hi
  exact hall _ s (List.mem_range'_1.mpr ⟨hlo, hhi⟩)

theorem foldlM_some {β ι : Type} {read : ι → Option β} {value : ι → β} (op : σ → β → σ) :
    ∀ {l : List ι} (s : σ), (∀ x ∈ l, read x = some (value x)) →
      (l.foldlM (fun s x => (read x).bind fun v => some (op s v)) s) =
        some (l.foldl (fun s x => op s (value x)) s) := by
  intro l
  induction l with
  | nil =>
    intro _ _
    rfl
  | cons x l ih =>
    intro s h
    rw [List.foldlM_cons, h x List.mem_cons_self]
    exact ih (op s (value x)) fun y hy => h y (List.mem_cons_of_mem x hy)

/-! ## Filling a table -/

section
variable {κ ν ι : Type} {g : κ → ν} {S T : Set κ} {m m' m'' : κ → ν}

/-- From `m` to `m'` the cells in `S` get the values of `g`, and none loses its
value of `g`. -/
def Assigns (g : κ → ν) (S : Set κ) (m m' : κ → ν) : Prop := ∀ k, k ∈ S ∨ m k = g k → m' k = g k

theorem Assigns.single [DecidableEq κ] {k : κ} {v : ν} (h : v = g k) (m : κ → ν) :
    Assigns g {k} m (Function.update m k v) := by
  intro k' hk'
  by_cases heq : k' = k
  · rw [heq, Function.update_self, h]
  · rw [Function.update_of_ne heq]
    exact hk'.resolve_left heq

theorem Assigns.trans (h : Assigns g S m m') (h' : Assigns g T m' m'') :
    Assigns g (S ∪ T) m m'' := by
  rintro k ((hk | hk) | hk)
  · exact h' k (.inr (h k (.inl hk)))
  · exact h' k (.inl hk)
  · exact h' k (.inr (h k (.inr hk)))

theorem Assigns.foldlM {f : (κ → ν) → ι → Option (κ → ν)} {S : ι → Set κ} :
    ∀ {l : List ι} (m : κ → ν), (∀ x ∈ l, ∀ m, ∃ m', f m x = some m' ∧ Assigns g (S x) m m') →
      ∃ m', l.foldlM f m = some m' ∧ Assigns g (⋃ x ∈ l, S x) m m' := by
  intro l
  induction l with
  | nil =>
    intro m _
    exact ⟨m, rfl, fun k h => h.resolve_left (by simp)⟩
  | cons x l ih =>
    intro m h
    obtain ⟨m₁, hm₁, hx⟩ := h x List.mem_cons_self m
    obtain ⟨m', hm', hl⟩ := ih m₁ fun y hy => h y (List.mem_cons_of_mem x hy)
    refine ⟨m', ?_, fun k hk => (hx.trans hl) k ?_⟩
    · rw [List.foldlM_cons, hm₁]
      exact hm'
    · refine hk.imp_left fun hall => ?_
      obtain ⟨y, hy, hin⟩ := Set.mem_iUnion₂.mp hall
      rcases List.mem_cons.mp hy with rfl | hy
      · exact .inl hin
      · exact .inr (Set.mem_iUnion₂.mpr ⟨y, hy, hin⟩)

theorem Assigns.foldl {f : (κ → ν) → ι → κ → ν} {S : ι → Set κ} {l : List ι} (m : κ → ν)
    (h : ∀ x ∈ l, ∀ m, Assigns g (S x) m (f m x)) :
    Assigns g (⋃ x ∈ l, S x) m (l.foldl f m) := by
  obtain ⟨m', hm', hl⟩ := @Assigns.foldlM κ ν ι g (fun m x => some (f m x)) S l m
    fun x hx m => ⟨_, rfl, h x hx m⟩
  have hpure : l.foldlM (fun m x => some (f m x)) m = some (l.foldl f m) := List.foldlM_pure
  obtain rfl := Option.some.inj (hpure.symm.trans hm')
  exact hl

end

/-! ## Row by row -/

section
variable {ν : Type}

/-- The border and the cells before `(i, j)`, row by row, are right. -/
def RightTo (right : Nat → Nat → ν → Prop) (m n i j : Nat) (t : Nat → Nat → ν) : Prop :=
  ∀ i' j', i' ≤ m → j' ≤ n → i' = 0 ∨ j' = 0 ∨ i' < i ∨ (i' = i ∧ j' < j) → right i' j' (t i' j')

/-- A table is right when its border is and each new cell follows from the three
before it. The table may be a view of what the loop changes. -/
theorem RightTo.rows (view : σ → Nat → Nat → ν) (fill : Nat → Nat → σ → σ)
    (right : Nat → Nat → ν → Prop) {m n : Nat}
    (hother : ∀ i j t i' j', ¬ (i' = i ∧ j' = j) → view (fill i j t) i' j' = view t i' j')
    (hcell : ∀ i j t, i < m → j < n → right (i + 1) j (view t (i + 1) j) →
      right i (j + 1) (view t i (j + 1)) → right i j (view t i j) →
      right (i + 1) (j + 1) (view (fill (i + 1) (j + 1) t) (i + 1) (j + 1)))
    {t : σ} (hborder : RightTo right m n 1 1 (view t)) :
    RightTo right m n (1 + m) 1
      (view (loop 1 m (fun i t => loop 1 n (fun j t => fill i j t) t) t)) := by
  have hfill : ∀ i j t, i < m → j < n → RightTo right m n (i + 1) (j + 1) (view t) →
      RightTo right m n (i + 1) (j + 2) (view (fill (i + 1) (j + 1) t)) := by
    intro i j t hi hj h i' j' hi' hj' hdone
    by_cases hnew : i' = i + 1 ∧ j' = j + 1
    · obtain ⟨rfl, rfl⟩ := hnew
      exact hcell i j t hi hj (h _ _ (by omega) (by omega) (by omega))
        (h _ _ (by omega) (by omega) (by omega)) (h _ _ (by omega) (by omega) (by omega))
    · rw [hother _ _ _ _ _ hnew]
      exact h i' j' hi' hj' (by omega)
  have hrow : ∀ i t, i < m → RightTo right m n (i + 1) 1 (view t) →
      RightTo right m n (i + 2) 1 (view (loop 1 n (fun j t => fill (i + 1) j t) t)) := by
    intro i t hi h
    have hend : RightTo right m n (i + 1) (1 + n)
        (view (loop 1 n (fun j t => fill (i + 1) j t) t)) := by
      refine loop_invariant (fun j t => RightTo right m n (i + 1) j (view t)) 1 h
        fun j t hlo hhi ih => ?_
      obtain ⟨j, rfl⟩ := Nat.exists_eq_add_of_le' hlo
      exact hfill i j t hi (by omega) ih
    exact fun i' j' hi' hj' hdone => hend i' j' hi' hj' (by omega)
  refine loop_invariant (fun i t => RightTo right m n i 1 (view t)) 1 hborder
    fun i t hlo hhi ih => ?_
  obtain ⟨i, rfl⟩ := Nat.exists_eq_add_of_le' hlo
  exact hrow i t (by omega) ih

/-- A table right to its last row is right at its corner. -/
theorem RightTo.corner {right : Nat → Nat → ν → Prop} {m n : Nat} {t : Nat → Nat → ν}
    (h : RightTo right m n (1 + m) 1 t) : right m n (t m n) :=
  h m n (Nat.le_refl m) (Nat.le_refl n) (by omega)

end

/-! ## Sums and maxima -/

theorem foldl_add_eq_sum {α : Type} [AddCommMonoid α] (g : Nat → α) (a : α) : ∀ n : Nat,
    (List.range n).foldl (fun a k => a + g k) a = a + ∑ k ∈ Finset.range n, g k
  | 0 => (add_zero a).symm
  | n + 1 => by
    rw [List.range_succ, List.foldl_append, foldl_add_eq_sum g a n, Finset.sum_range_succ,
      ← add_assoc]
    rfl

theorem sum_range_blocks {α : Type} [AddCommMonoid α] (g : Nat → α) (n : Nat) : ∀ m : Nat,
    ∑ i ∈ Finset.range (n * m), g i = ∑ w ∈ Finset.range m, ∑ f ∈ Finset.range n, g (w * n + f)
  | 0 => by simp
  | m + 1 => by
    rw [Nat.mul_succ, Finset.sum_range_add, sum_range_blocks g n m, Finset.sum_range_succ,
      Nat.mul_comm n m]

/-- The largest of `floor` and the first `n` values. -/
def maxFrom {α : Type} [LinearOrder α] (floor : α) (g : Nat → α) (n : Nat) : α :=
  (List.range n).foldl (fun a i => max a (g i)) floor

section
variable {α : Type} [LinearOrder α] {floor : α} {g : Nat → α}

theorem maxFrom_le_iff {b : α} : ∀ {n : Nat},
    maxFrom floor g n ≤ b ↔ floor ≤ b ∧ ∀ i < n, g i ≤ b
  | 0 => by simp [maxFrom]
  | n + 1 => by
    have ih := @maxFrom_le_iff b n
    rw [maxFrom] at ih ⊢
    rw [List.range_succ, List.foldl_append, List.foldl_cons, List.foldl_nil, max_le_iff, ih,
      and_assoc, Nat.forall_lt_succ_right]

/-- Values that repeat one that was taken need not be taken. -/
theorem maxFrom_repeat {n N : Nat} (hn : n < N) (h : ∀ i, n ≤ i → i < N → g i = g n) :
    maxFrom floor g (n + 1) = maxFrom floor g N := by
  refine eq_of_forall_ge_iff fun b => ?_
  rw [maxFrom_le_iff, maxFrom_le_iff]
  refine and_congr_right fun _ => ⟨fun hall i hi => ?_, fun hall i hi => hall i (by omega)⟩
  by_cases hlt : i < n
  · exact hall i (by omega)
  · rw [h i (by omega) hi]
    exact hall n (Nat.lt_succ_self n)

end

end CommonTools.Lib
