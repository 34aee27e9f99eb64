import Mathlib.Data.List.Basic
import Mathlib.Data.List.Forall2
import Mathlib.Tactic.Common

/-! # Lists with `int` positions, and lists with keys

Reads and writes at positions that may lie outside of the list, what a partial
computation over a list gives when all its steps have a meaning, and what a
lookup finds in a list of pairs. -/
namespace CommonTools.Lib

section Vector
variable {α : Type}

/-- `vect[i]` with an `int` index. -/
def at? (vect : List α) (i : Int) : Option α := if 0 ≤ i then vect[i.toNat]? else none

/-- `vect[i] = a` with an `int` index. -/
def put? (vect : List α) (i : Int) (a : α) : Option (List α) :=
  if 0 ≤ i ∧ i.toNat < vect.length then some (vect.set i.toNat a) else none

@[simp] theorem at?_natCast (vect : List α) (i : Nat) : at? vect (i : Int) = vect[i]? := by
  simp [at?]

theorem at?_eq_some {vect : List α} {i : Int} {a : α} :
    at? vect i = some a ↔ ∃ k : Nat, i = k ∧ vect[k]? = some a := by
  constructor
  · intro h
    unfold at? at h
    split at h
    · exact ⟨i.toNat, by omega, h⟩
    · cases h
  · rintro ⟨k, rfl, h⟩
    simpa using h

theorem at?_isSome {vect : List α} {i : Int} : (at? vect i).isSome ↔ 0 ≤ i ∧ i < vect.length := by
  rw [Option.isSome_iff_exists]
  constructor
  · intro h
    obtain ⟨a, ha⟩ := h
    obtain ⟨k, rfl, hget⟩ := at?_eq_some.mp ha
    obtain ⟨hk, -⟩ := List.getElem?_eq_some_iff.mp hget
    omega
  · intro h
    obtain ⟨k, rfl⟩ := Int.eq_ofNat_of_zero_le h.1
    exact ⟨vect.get ⟨k, by omega⟩, by simp [List.getElem?_eq_getElem (by omega : k < vect.length)]⟩

theorem put?_length {vect vect' : List α} {i : Int} {a : α} (h : put? vect i a = some vect') :
    vect'.length = vect.length := by
  unfold put? at h
  split at h
  · cases h
    exact List.length_set
  · cases h

end Vector

/-! ## Steps that all have a meaning -/

theorem forall₂_of_mapM {α β : Type} {f : α → Option β} :
    ∀ {l : List α} {r : List β}, l.mapM f = some r → List.Forall₂ (fun a b => f a = some b) l r
  | [], r, h => by
    rw [List.mapM_nil] at h
    cases h
    exact .nil
  | a :: l, r, h => by
    rw [List.mapM_cons] at h
    obtain ⟨b, hb, h⟩ := Option.bind_eq_some_iff.mp h
    obtain ⟨bs, hbs, h⟩ := Option.bind_eq_some_iff.mp h
    cases h
    exact .cons hb (forall₂_of_mapM hbs)

/-- A run whose rounds have a meaning or not whatever the state is. -/
theorem foldlM_isSome_iff {σ ι : Type} {f : σ → ι → Option σ} {good : ι → Prop} :
    ∀ {l : List ι} (s : σ), (∀ x ∈ l, ∀ s, (f s x).isSome ↔ good x) →
      ((l.foldlM f s).isSome ↔ ∀ x ∈ l, good x)
  | [], s, _ => by simp
  | x :: l, s, h => by
    have hx := h x List.mem_cons_self s
    rw [List.foldlM_cons, List.forall_mem_cons, ← hx]
    cases f s x with
    | none => simp
    | some s' =>
      rw [Option.isSome_some, eq_self, true_and]
      exact foldlM_isSome_iff s' fun y hy => h y (List.mem_cons_of_mem x hy)

theorem mapM_isSome_iff {α β : Type} {f : α → Option β} : ∀ {l : List α},
    (l.mapM f).isSome ↔ ∀ x ∈ l, (f x).isSome
  | [] => by simp
  | x :: l => by
    have hrest := @mapM_isSome_iff α β f l
    rw [List.mapM_cons, List.forall_mem_cons, ← hrest]
    cases f x <;> cases l.mapM f <;> simp

/-- Reading the positions of a middle part of a list one by one. -/
theorem mapM_at?_middle {α : Type} (post : List α) :
    ∀ (v pre : List α),
      (List.range v.length).mapM (fun i : Nat => at? (pre ++ v ++ post) (pre.length + i)) = some v
  | [], _ => rfl
  | a :: v, pre => by
    have hrest := mapM_at?_middle post v (pre ++ [a])
    have hshift : (fun i : Nat => at? (pre ++ [a] ++ v ++ post) ((pre ++ [a]).length + i)) =
        fun i : Nat => at? (pre ++ a :: v ++ post) (pre.length + (i + 1 : Nat)) := by
      funext i
      have hpos : ((pre ++ [a]).length + i : Int) = pre.length + (i + 1 : Nat) := by simp; omega
      rw [hpos]; simp
    have hhead : at? (pre ++ a :: v ++ post) (pre.length + (0 : Nat)) = some a := by
      rw [Int.natCast_zero, Int.add_zero, at?_natCast]
      simp
    rw [hshift] at hrest
    rw [List.length_cons, List.range_succ_eq_map, List.mapM_cons, hhead, List.mapM_map]
    simp only [Function.comp_def, Nat.succ_eq_add_one, hrest, Option.bind_eq_bind,
      Option.bind_some, Option.pure_def]

theorem mapM_at?_slice {α : Type} {vect : List α} {first count : Nat}
    (h : first + count ≤ vect.length) :
    (List.range count).mapM (fun i : Nat => at? vect (first + i)) =
      some ((vect.drop first).take count) := by
  have hcount : ((vect.drop first).take count).length = count := by
    rw [List.length_take, List.length_drop]
    omega
  have hfirst : (vect.take first).length = first := List.length_take_of_le (by omega)
  have hread := mapM_at?_middle ((vect.drop first).drop count) ((vect.drop first).take count)
    (vect.take first)
  rwa [List.append_assoc, List.take_append_drop, List.take_append_drop, hcount, hfirst] at hread

/-! ## Pairs under keys -/

section
variable {κ ν : Type} [BEq κ] [LawfulBEq κ]

theorem lookup_eq_none_of_notMem {l : List (κ × ν)} {k : κ}
    (h : k ∉ l.map Prod.fst) : l.lookup k = none := by
  rw [List.lookup_eq_none_iff]
  intro e he
  rw [bne_iff_ne]
  exact fun hsame => h (List.mem_map.mpr ⟨e, he, hsame.symm⟩)

theorem lookup_of_mem {k : κ} {v : ν} :
    ∀ {l : List (κ × ν)}, (k, v) ∈ l → (l.map Prod.fst).Nodup → l.lookup k = some v
  | (k', v') :: l, hmem, hnd => by
    obtain ⟨hnot, hnd⟩ := List.nodup_cons.mp hnd
    rw [List.lookup_cons]
    rcases List.mem_cons.mp hmem with heq | hrest
    · obtain ⟨rfl, rfl⟩ := Prod.mk.inj heq
      simp
    · have hne : (k == k') = false := by
        rw [beq_eq_false_iff_ne]
        rintro rfl
        exact hnot (List.mem_map.mpr ⟨(k, v), hrest, rfl⟩)
      rw [hne]
      exact lookup_of_mem hrest hnd

end

end CommonTools.Lib
