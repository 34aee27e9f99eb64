import Mathlib.Algebra.BigOperators.Group.List.Basic
import Mathlib.Algebra.Ring.Int.Defs
import Mathlib.Data.List.Nodup
import Mathlib.Tactic.Common

/-! # Tables of counts

A map from keys to numbers where a missing key counts as 0 and every update adds to one
key. The order of the keys is the order of their first updates. -/
namespace CommonTools.Lib

structure Tally (κ : Type*) where
  entries : List (κ × Int)
  nodup : (entries.map Prod.fst).Nodup

namespace Tally

section
variable {κ : Type*}

def empty : Tally κ := ⟨[], List.nodup_nil⟩

instance : EmptyCollection (Tally κ) := ⟨empty⟩

def keys (t : Tally κ) : List κ := t.entries.map Prod.fst

instance : Membership κ (Tally κ) := ⟨fun t k => k ∈ t.keys⟩

theorem mem_iff {t : Tally κ} {k : κ} : k ∈ t ↔ ∃ n, (k, n) ∈ t.entries := by
  change k ∈ t.entries.map Prod.fst ↔ _
  simp

theorem not_mem_empty (k : κ) : k ∉ (∅ : Tally κ) := List.not_mem_nil

/-- What the keys that pass hold together. -/
def sum (t : Tally κ) (p : κ → Bool) : Int := ((t.entries.filter fun e => p e.1).map Prod.snd).sum

@[simp] theorem sum_empty (p : κ → Bool) : (∅ : Tally κ).sum p = 0 := rfl

variable [DecidableEq κ]

instance (t : Tally κ) (k : κ) : Decidable (k ∈ t) := inferInstanceAs (Decidable (k ∈ t.keys))

def valueAt : List (κ × Int) → κ → Int
  | [], _ => 0
  | (key, m) :: l, k => if key = k then m else valueAt l k

def get (t : Tally κ) (k : κ) : Int := valueAt t.entries k

def bump : List (κ × Int) → κ → Int → List (κ × Int)
  | [], k, n => [(k, n)]
  | (key, m) :: l, k, n => if key = k then (key, m + n) :: l else (key, m) :: bump l k n

theorem keys_bump : ∀ (l : List (κ × Int)) (k : κ) (n : Int),
    (bump l k n).map Prod.fst =
      if k ∈ l.map Prod.fst then l.map Prod.fst else l.map Prod.fst ++ [k]
  | [], k, n => by simp [bump]
  | (key, m) :: l, k, n => by
    rw [bump]
    by_cases hkey : key = k
    · simp [hkey]
    · rw [if_neg hkey, List.map_cons, keys_bump l k n]
      by_cases hk : k ∈ l.map Prod.fst
      · simp_all
      · simp_all [Ne.symm hkey]

/-- `t[k] += n`. -/
def add (t : Tally κ) (k : κ) (n : Int) : Tally κ where
  entries := bump t.entries k n
  nodup := by
    rw [keys_bump]
    split
    · exact t.nodup
    · rename_i hk
      refine List.nodup_append.mpr ⟨t.nodup, List.nodup_singleton k, ?_⟩
      intro a ha b hb hab
      exact hk (List.mem_singleton.mp hb ▸ hab ▸ ha)

@[simp] theorem mem_add {t : Tally κ} {k k' : κ} {n : Int} : k' ∈ t.add k n ↔ k' = k ∨ k' ∈ t := by
  change k' ∈ (bump t.entries k n).map Prod.fst ↔ k' = k ∨ k' ∈ t.entries.map Prod.fst
  rw [keys_bump]
  by_cases hk : k ∈ t.entries.map Prod.fst
  · rw [if_pos hk]
    exact ⟨.inr, fun h => h.elim (fun heq => heq ▸ hk) id⟩
  · rw [if_neg hk, List.mem_append, List.mem_singleton, or_comm]

@[simp] theorem get_empty (k : κ) : (∅ : Tally κ).get k = 0 := rfl

theorem valueAt_bump (k k' : κ) (n : Int) : ∀ l : List (κ × Int),
    valueAt (bump l k n) k' = valueAt l k' + if k = k' then n else 0
  | [] => by simp [bump, valueAt]
  | (key, m) :: l => by
    have hrest := valueAt_bump k k' n l
    rw [bump]
    by_cases hkey : key = k
    · subst hkey
      by_cases hk : key = k' <;> simp [valueAt, hk]
    · rw [if_neg hkey, valueAt, valueAt]
      by_cases hk : key = k'
      · subst hk
        simp [Ne.symm hkey]
      · rw [if_neg hk, if_neg hk, hrest]

@[simp] theorem get_add (t : Tally κ) (k k' : κ) (n : Int) :
    (t.add k n).get k' = t.get k' + if k = k' then n else 0 := valueAt_bump k k' n t.entries

theorem sum_bump (p : κ → Bool) (k : κ) (n : Int) : ∀ l : List (κ × Int),
    (((bump l k n).filter fun e => p e.1).map Prod.snd).sum =
      ((l.filter fun e => p e.1).map Prod.snd).sum + if p k then n else 0
  | [] => by cases h : p k <;> simp [bump, h]
  | (key, m) :: l => by
    have hrest := sum_bump p k n l
    rw [bump]
    by_cases hkey : key = k
    · subst hkey
      cases hp : p key
      · simp [hp]
      · simp [hp]
        omega
    · rw [if_neg hkey]
      cases hp : p key
      · simpa [hp] using hrest
      · simp only [List.filter_cons, hp, if_true, List.map_cons, List.sum_cons, hrest]
        omega

@[simp] theorem sum_add (t : Tally κ) (p : κ → Bool) (k : κ) (n : Int) :
    (t.add k n).sum p = t.sum p + if p k then n else 0 := sum_bump p k n t.entries

theorem valueAt_of_mem {k : κ} {n : Int} : ∀ {l : List (κ × Int)}, (l.map Prod.fst).Nodup →
    (k, n) ∈ l → valueAt l k = n
  | (key, m) :: l, hnodup, hmem => by
    rw [List.map_cons, List.nodup_cons] at hnodup
    rw [valueAt]
    rcases List.mem_cons.mp hmem with heq | hmem
    · obtain ⟨rfl, rfl⟩ := Prod.mk.inj heq
      exact if_pos rfl
    · have hkey : key ≠ k := by
        intro heq
        exact hnodup.1 (List.mem_map.mpr ⟨(k, n), hmem, heq.symm⟩)
      rw [if_neg hkey]
      exact valueAt_of_mem hnodup.2 hmem

theorem get_of_mem {t : Tally κ} {k : κ} {n : Int} (h : (k, n) ∈ t.entries) : t.get k = n :=
  valueAt_of_mem t.nodup h

end

/-! ## Sums of a table of pairs -/

section
variable {α β : Type*} [DecidableEq α] [DecidableEq β]

/-- `left` sums a table of pairs up by the first part. -/
def IsLeft (joint : Tally (α × β)) (left : Tally α) : Prop :=
  ∀ a, left.get a = joint.sum fun k => k.1 = a

/-- `right` sums a table of pairs up by the second part. -/
def IsRight (joint : Tally (α × β)) (right : Tally β) : Prop :=
  ∀ b, right.get b = joint.sum fun k => k.2 = b

def IsTotal (joint : Tally (α × β)) (total : Int) : Prop := total = joint.sum fun _ => true

variable {joint : Tally (α × β)} {left : Tally α} {right : Tally β} {total : Int}

theorem IsLeft.add (h : IsLeft joint left) (a : α) (b : β) (n : Int) :
    IsLeft (joint.add (a, b) n) (left.add a n) := fun a' => by simp [h a']

theorem IsRight.add (h : IsRight joint right) (a : α) (b : β) (n : Int) :
    IsRight (joint.add (a, b) n) (right.add b n) := fun b' => by simp [h b']

theorem IsTotal.add (h : IsTotal joint total) (a : α) (b : β) (n : Int) :
    IsTotal (joint.add (a, b) n) (total + n) := by
  rw [IsTotal] at h
  simp [IsTotal, h]

end

end Tally

end CommonTools.Lib
