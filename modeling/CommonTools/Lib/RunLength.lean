import Mathlib.Data.List.Nodup
import Mathlib.Data.List.Dedup
import Mathlib.Order.Defs.Unbundled
import Mathlib.Tactic.Common

/-! # Sorting by a comparison and counting runs

A sort orders by a comparison only when that is a strict weak order. In a
sorted list equal elements stand together, so the runs of the list count them. -/
namespace CommonTools.Lib

/-! ## `std::sort` -/

/-- What a sort promises. Elements that the comparison does not order may end in
any order. -/
structure StdSort (α : Type) where
  sort : (α → α → Bool) → List α → List α
  perm : ∀ less l, IsStrictWeakOrder α (fun a b => less a b = true) → (sort less l).Perm l
  sorted : ∀ less l, IsStrictWeakOrder α (fun a b => less a b = true) →
    (sort less l).Pairwise fun a b => ¬ less b a = true

variable {α : Type}

theorem not_less_trans {less : α → α → Bool}
    (hless : IsStrictWeakOrder α (fun a b => less a b = true)) {a b c : α}
    (hab : ¬ less b a = true) (hbc : ¬ less c b = true) : ¬ less c a = true := by
  intro hca
  have hba : ¬ less a b = true := fun h => hbc (hless.trans _ _ _ hca h)
  have hcb : ¬ less b c = true := fun h => hab (hless.trans _ _ _ h hca)
  exact (hless.incomp_trans a b c ⟨hba, hab⟩ ⟨hcb, hbc⟩).2 hca

/-- A sort that leaves what is not ordered in its order. -/
def StdSort.stable (α : Type) : StdSort α where
  sort less l := l.mergeSort fun a b => !less b a
  perm less l _ := List.mergeSort_perm l _
  sorted less l hless := by
    have hsorted : (l.mergeSort fun a b => !less b a).Pairwise fun a b => (!less b a) = true := by
      refine List.pairwise_mergeSort (fun a b c hab hbc => ?_) (fun a b => ?_) l
      · rw [Bool.not_eq_true', ← Bool.not_eq_true] at hab hbc ⊢
        exact not_less_trans hless hab hbc
      · rw [Bool.or_eq_true, Bool.not_eq_true', Bool.not_eq_true', ← Bool.not_eq_true,
          ← Bool.not_eq_true, ← not_and_or]
        rintro ⟨hba, hab⟩
        exact hless.irrefl a (hless.trans _ _ _ hab hba)
    exact hsorted.imp fun {a b} h => by rwa [Bool.not_eq_true', ← Bool.not_eq_true] at h

instance : Inhabited (StdSort α) := ⟨StdSort.stable α⟩

/-! ## Runs -/

/-- The list that has these runs. -/
def expand (runs : List (α × Nat)) : List α := runs.flatMap fun r => List.replicate r.2 r.1

/-- The members of a list of runs are those of its list. -/
theorem mem_expand {runs : List (α × Nat)} (hpos : ∀ r ∈ runs, 0 < r.2) {x : α} :
    x ∈ expand runs ↔ x ∈ runs.map Prod.fst := by
  rw [expand, List.mem_flatMap, List.mem_map]
  constructor
  · rintro ⟨r, hr, hx⟩
    exact ⟨r, hr, (List.eq_of_mem_replicate hx).symm⟩
  · rintro ⟨r, hr, rfl⟩
    exact ⟨r, hr, List.mem_replicate.mpr ⟨Nat.ne_of_gt (hpos r hr), rfl⟩⟩

/-- Runs of different elements have the multiplicities as lengths. -/
theorem count_expand [BEq α] [LawfulBEq α] : ∀ {runs : List (α × Nat)}, (runs.map Prod.fst).Nodup →
    ∀ r ∈ runs, (expand runs).count r.1 = r.2
  | q :: runs, hnd, r, hr => by
    rw [List.map_cons, List.nodup_cons] at hnd
    rw [expand, List.flatMap_cons, ← expand, List.count_append, List.count_replicate]
    rcases List.mem_cons.mp hr with rfl | hr
    · have hout : r.1 ∉ expand runs := fun hmem => by
        obtain ⟨q, hq, hx⟩ := List.mem_flatMap.mp hmem
        rw [List.eq_of_mem_replicate hx] at hnd
        exact hnd.1 (List.mem_map.mpr ⟨q, hq, rfl⟩)
      rw [List.count_eq_zero_of_not_mem hout, Nat.add_zero, if_pos (beq_self_eq_true r.1)]
    · have hne : ¬ (q.1 == r.1) = true := fun heq => by
        rw [beq_iff_eq] at heq
        exact hnd.1 (heq ▸ List.mem_map.mpr ⟨r, hr, rfl⟩)
      rw [if_neg hne, Nat.zero_add, count_expand hnd.2 r hr]

section
variable [DecidableEq α]

/-- The runs of `l` behind `n` copies of `start`. -/
def runsFrom (start : α) (n : Nat) : List α → List (α × Nat)
  | [] => [(start, n)]
  | x :: l => if x = start then runsFrom start (n + 1) l else (start, n) :: runsFrom x 1 l

theorem expand_runsFrom : ∀ (l : List α) (start : α) (n : Nat),
    expand (runsFrom start n l) = List.replicate n start ++ l := by
  intro l
  induction l with
  | nil =>
    intro start n
    rw [runsFrom, expand, List.flatMap_singleton, List.append_nil]
  | cons x l ih =>
    intro start n
    rw [runsFrom]
    split
    · rename_i heq
      subst heq
      rw [ih x (n + 1), List.replicate_succ', List.append_assoc]
      rfl
    · rw [expand, List.flatMap_cons, ← expand, ih x 1]
      rfl

theorem runsFrom_pos : ∀ (l : List α) {start : α} {n : Nat}, 0 < n →
    ∀ r ∈ runsFrom start n l, 0 < r.2 := by
  intro l
  induction l with
  | nil =>
    intro start n hn r hr
    rw [runsFrom] at hr
    rw [List.mem_singleton.mp hr]
    exact hn
  | cons x l ih =>
    intro start n hn r hr
    rw [runsFrom] at hr
    split at hr
    · exact ih (Nat.succ_pos n) r hr
    · rcases List.mem_cons.mp hr with rfl | hr
      · exact hn
      · exact ih Nat.one_pos r hr

/-- In a sorted list each run begins with a new element. -/
theorem runsFrom_strict {le : α → α → Prop} (antisymm : ∀ {a b}, le a b → le b a → a = b) :
    ∀ (l : List α) (start : α) (n : Nat), (start :: l).Pairwise le →
      ((runsFrom start n l).map Prod.fst).Pairwise fun a b => le a b ∧ a ≠ b := by
  intro l
  induction l with
  | nil =>
    intro start n _
    exact List.pairwise_singleton _ _
  | cons x l ih =>
    intro start n hsorted
    obtain ⟨hstart, hrest⟩ := List.pairwise_cons.mp hsorted
    rw [runsFrom]
    split
    · rename_i heq
      subst heq
      exact ih x (n + 1) hrest
    · rename_i hne
      rw [List.map_cons, List.pairwise_cons]
      refine ⟨fun y hy => ?_, ih x 1 hrest⟩
      have hmem : y ∈ x :: l := by
        have hexp := (mem_expand (runsFrom_pos l Nat.one_pos)).mpr hy
        rwa [expand_runsFrom] at hexp
      refine ⟨hstart y hmem, ?_⟩
      rintro rfl
      -- the element between two equal ones is equal to them
      rcases List.mem_cons.mp hmem with heq | hin
      · exact hne heq.symm
      · exact hne (antisymm ((List.pairwise_cons.mp hrest).1 _ hin) (hstart x List.mem_cons_self))

end

end CommonTools.Lib
