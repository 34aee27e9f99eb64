import Mathlib.Algebra.GroupWithZero.Nat
import Mathlib.Data.List.Basic
import Mathlib.Order.Bounds.Basic
import Mathlib.Order.MinMax
import Mathlib.Tactic.Common

/-! # Edit scripts

A script inserts, deletes and replaces elements of a list one after another;
insertions and deletions cost 1, a replacement has a cost of its own. What a
script does can be done at no greater cost by going once along both lists. -/
namespace CommonTools.Lib

variable {α : Type}

inductive Edit (α : Type) where
  | insert (i : Nat) (a : α)
  | delete (i : Nat)
  | replace (i : Nat) (a : α)
deriving DecidableEq

/-- `none` when the list has no such position. -/
def Edit.apply : Edit α → List α → Option (List α)
  | insert i a, A => if i ≤ A.length then some (A.insertIdx i a) else none
  | delete i, A => if i < A.length then some (A.eraseIdx i) else none
  | replace i a, A => if i < A.length then some (A.set i a) else none

def Edit.cost (sub : Nat) : Edit α → Nat
  | replace _ _ => sub
  | _ => 1

/-- The script turns `A` into `B`. -/
def Turns (script : List (Edit α)) (A B : List α) : Prop :=
  script.foldlM (fun A e => e.apply A) A = some B

def scriptCost (sub : Nat) (script : List (Edit α)) : Nat := (script.map (Edit.cost sub)).sum

def scriptCosts (sub : Nat) (A B : List α) : Set Nat :=
  {n | ∃ script, Turns script A B ∧ scriptCost sub script = n}

/-- `n` is the cost of a cheapest script. -/
def IsEditDist (sub : Nat) (A B : List α) (n : Nat) : Prop := IsLeast (scriptCosts sub A B) n

/-! ## Scripts -/

section
variable {A B C : List α} {s t : List (Edit α)} {e : Edit α}

theorem turns_nil : Turns [] A B ↔ A = B := by
  rw [Turns, List.foldlM_nil]
  exact Option.some_inj

theorem turns_cons : Turns (e :: s) A C ↔ ∃ B, e.apply A = some B ∧ Turns s B C := by
  rw [Turns, List.foldlM_cons]
  exact Option.bind_eq_some_iff

theorem scriptCost_cons (sub : Nat) (e : Edit α) (s : List (Edit α)) :
    scriptCost sub (e :: s) = e.cost sub + scriptCost sub s := by
  rw [scriptCost, List.map_cons, List.sum_cons, scriptCost]

/-- When all edits cost 1 a script costs its length. -/
theorem scriptCost_one (s : List (Edit α)) : scriptCost 1 s = s.length := by
  induction s with
  | nil => rfl
  | cons e s ih =>
    have hone : e.cost 1 = 1 := by cases e <;> rfl
    rw [scriptCost_cons, hone, ih, List.length_cons, Nat.add_comm]

/-- The same edit behind one more element. -/
def Edit.shift : Edit α → Edit α
  | insert i a => insert (i + 1) a
  | delete i => delete (i + 1)
  | replace i a => replace (i + 1) a

theorem Edit.apply_shift (e : Edit α) (a : α) (A : List α) :
    e.shift.apply (a :: A) = (e.apply A).map (a :: ·) := by
  cases e <;> simp [Edit.shift, Edit.apply, apply_ite]

theorem Edit.cost_shift (sub : Nat) (e : Edit α) : e.shift.cost sub = e.cost sub := by cases e <;> rfl

theorem Turns.shift (a : α) : ∀ {s : List (Edit α)} {A B : List α}, Turns s A B →
    Turns (s.map Edit.shift) (a :: A) (a :: B)
  | [], _, _, h => turns_nil.mpr (congrArg (a :: ·) (turns_nil.mp h))
  | e :: s, _, C, h => by
    obtain ⟨B, he, hs⟩ := turns_cons.mp h
    refine turns_cons.mpr ⟨a :: B, ?_, hs.shift a⟩
    rw [e.apply_shift, he, Option.map_some]

theorem scriptCost_shift (sub : Nat) (s : List (Edit α)) :
    scriptCost sub (s.map Edit.shift) = scriptCost sub s := by
  rw [scriptCost, List.map_map]
  exact congrArg List.sum (List.map_congr_left fun e _ => e.cost_shift sub)

end

/-! ## Once along both lists -/

section
variable [DecidableEq α]

/-- The cost of `b` in the place of `a`. -/
def pairCost (sub : Nat) (a b : α) : Nat := if a = b then 0 else sub

/-- `B` comes from `A` at the cost `n` by going once along both. -/
inductive Align (sub : Nat) : List α → List α → Nat → Prop
  | nil : Align sub [] [] 0
  | delete (a : α) {A B : List α} {n : Nat} : Align sub A B n → Align sub (a :: A) B (n + 1)
  | insert (b : α) {A B : List α} {n : Nat} : Align sub A B n → Align sub A (b :: B) (n + 1)
  | pair (a b : α) {A B : List α} {n : Nat} : Align sub A B n →
      Align sub (a :: A) (b :: B) (n + pairCost sub a b)

variable {sub : Nat}

theorem Align.refl : ∀ A : List α, Align sub A A 0
  | [] => .nil
  | a :: A => by
    have hpair := (Align.refl A).pair a a
    rwa [pairCost, if_pos rfl] at hpair

theorem pairCost_comm (sub : Nat) (a b : α) : pairCost sub a b = pairCost sub b a :=
  if_congr eq_comm rfl rfl

theorem pairCost_triangle (sub : Nat) (a b c : α) :
    pairCost sub a c ≤ pairCost sub a b + pairCost sub b c := by
  unfold pairCost
  split_ifs <;> simp_all

/-- One pass after another is no cheaper than a single one. -/
theorem Align.trans {A B : List α} {m : Nat} (h : Align sub A B m) :
    ∀ {C : List α} {n : Nat}, Align sub B C n → ∃ k ≤ m + n, Align sub A C k := by
  induction h with
  | nil => exact fun {C n} h' => ⟨n, by omega, h'⟩
  | delete a h ih =>
    intro C n h'
    obtain ⟨k, hk, hac⟩ := ih h'
    exact ⟨k + 1, by omega, hac.delete a⟩
  | @insert b A B m h ih =>
    intro C n h'
    -- the second pass may insert before it meets `b`
    generalize hB : b :: B = B' at h'
    induction h' with
    | nil => cases hB
    | delete a h' _ =>
      obtain ⟨rfl, rfl⟩ := List.cons.inj hB
      obtain ⟨k, hk, hac⟩ := ih h'
      exact ⟨k, by omega, hac⟩
    | insert c h' ih' =>
      obtain ⟨k, hk, hac⟩ := ih' hB
      exact ⟨k + 1, by omega, hac.insert c⟩
    | pair a c h' _ =>
      obtain ⟨rfl, rfl⟩ := List.cons.inj hB
      obtain ⟨k, hk, hac⟩ := ih h'
      exact ⟨k + 1, by omega, hac.insert c⟩
  | @pair a b A B m h ih =>
    intro C n h'
    generalize hB : b :: B = B' at h'
    induction h' with
    | nil => cases hB
    | delete b' h' _ =>
      obtain ⟨rfl, rfl⟩ := List.cons.inj hB
      obtain ⟨k, hk, hac⟩ := ih h'
      exact ⟨k + 1, by omega, hac.delete a⟩
    | insert c h' ih' =>
      obtain ⟨k, hk, hac⟩ := ih' hB
      exact ⟨k + 1, by omega, hac.insert c⟩
    | pair b' c h' _ =>
      obtain ⟨rfl, rfl⟩ := List.cons.inj hB
      obtain ⟨k, hk, hac⟩ := ih h'
      have htri := pairCost_triangle sub a b c
      exact ⟨k + pairCost sub a c, by omega, hac.pair a c⟩

theorem Align.symm {A B : List α} {n : Nat} (h : Align sub A B n) : Align sub B A n := by
  induction h with
  | nil => exact .nil
  | delete a _ ih => exact ih.insert a
  | insert b _ ih => exact ih.delete b
  | pair a b _ ih => exact pairCost_comm sub b a ▸ ih.pair b a

theorem Align.keep (a : α) {A B : List α} {n : Nat} (h : Align sub A B n) :
    Align sub (a :: A) (a :: B) n := by
  have hpair := h.pair a a
  rwa [pairCost, if_pos rfl] at hpair

theorem Align.append {A B A' B' : List α} {m n : Nat} (h : Align sub A B m)
    (h' : Align sub A' B' n) : Align sub (A ++ A') (B ++ B') (m + n) := by
  induction h with
  | nil => rwa [Nat.zero_add]
  | delete a _ ih => exact Nat.succ_add _ n ▸ ih.delete a
  | insert b _ ih => exact Nat.succ_add _ n ▸ ih.insert b
  | pair a b _ ih => exact Nat.add_right_comm _ n _ ▸ ih.pair a b

theorem Align.reverse {A B : List α} {n : Nat} (h : Align sub A B n) :
    Align sub A.reverse B.reverse n := by
  induction h with
  | nil => exact .nil
  | delete a _ ih =>
    have hone := ih.append (Align.nil.delete a)
    rwa [List.append_nil, ← List.reverse_cons] at hone
  | insert b _ ih =>
    have hone := ih.append (Align.nil.insert b)
    rwa [List.append_nil, ← List.reverse_cons] at hone
  | pair a b _ ih =>
    have hpair := ih.append (Align.nil.pair a b)
    rwa [Nat.zero_add, ← List.reverse_cons, ← List.reverse_cons] at hpair

theorem Align.eq_of_zero (hsub : 0 < sub) {A B : List α} {n : Nat} (h : Align sub A B n) :
    n = 0 → A = B := by
  induction h with
  | nil => exact fun _ => rfl
  | delete a _ _ => exact fun hn => absurd hn (Nat.succ_ne_zero _)
  | insert b _ _ => exact fun hn => absurd hn (Nat.succ_ne_zero _)
  | pair a b _ ih =>
    intro hn
    rw [Nat.add_eq_zero_iff, pairCost] at hn
    have hab : a = b := by
      by_contra hne
      rw [if_neg hne] at hn
      omega
    rw [hab, ih hn.1]

/-- Scaling the cost of a replacement scales what a pass costs at most. -/
theorem Align.scale {sub' k : Nat} (hk : 0 < k) (hsub : sub' ≤ k * sub) {A B : List α} {n : Nat}
    (h : Align sub A B n) : ∃ m ≤ k * n, Align sub' A B m := by
  induction h with
  | nil => exact ⟨0, Nat.zero_le _, .nil⟩
  | delete a _ ih =>
    obtain ⟨m, hm, hal⟩ := ih
    exact ⟨m + 1, by rw [Nat.mul_succ]; omega, hal.delete a⟩
  | insert b _ ih =>
    obtain ⟨m, hm, hal⟩ := ih
    exact ⟨m + 1, by rw [Nat.mul_succ]; omega, hal.insert b⟩
  | pair a b _ ih =>
    obtain ⟨m, hm, hal⟩ := ih
    have hpair : pairCost sub' a b ≤ k * pairCost sub a b := by
      unfold pairCost
      split
      · exact Nat.zero_le _
      · exact hsub
    exact ⟨m + pairCost sub' a b, by rw [Nat.mul_add]; omega, hal.pair a b⟩

/-! ## Scripts and passes -/

theorem align_insertIdx (a : α) : ∀ (i : Nat) (A : List α), i ≤ A.length →
    Align sub A (A.insertIdx i a) 1
  | 0, A, _ => (Align.refl A).insert a
  | i + 1, [], h => absurd h (Nat.not_succ_le_zero i)
  | i + 1, x :: A, h => (align_insertIdx a i A (Nat.le_of_succ_le_succ h)).keep x

theorem align_eraseIdx : ∀ (i : Nat) (A : List α), i < A.length → Align sub A (A.eraseIdx i) 1
  | i, [], h => absurd h (Nat.not_lt_zero i)
  | 0, x :: A, _ => (Align.refl A).delete x
  | i + 1, x :: A, h => (align_eraseIdx i A (Nat.lt_of_succ_lt_succ h)).keep x

theorem align_set (a : α) : ∀ (i : Nat) (A : List α), i < A.length →
    ∃ m ≤ sub, Align sub A (A.set i a) m
  | i, [], h => absurd h (Nat.not_lt_zero i)
  | 0, x :: A, _ => by
    refine ⟨0 + pairCost sub x a, ?_, (Align.refl A).pair x a⟩
    rw [Nat.zero_add, pairCost]
    split
    · exact Nat.zero_le sub
    · exact Nat.le_refl sub
  | i + 1, x :: A, h => by
    obtain ⟨m, hm, hal⟩ := align_set a i A (Nat.lt_of_succ_lt_succ h)
    exact ⟨m, hm, hal.keep x⟩

theorem align_of_apply {A B : List α} {e : Edit α} (h : e.apply A = some B) :
    ∃ m ≤ e.cost sub, Align sub A B m := by
  cases e with
  | insert i a =>
    obtain ⟨hi, hB⟩ := Option.ite_none_right_eq_some.mp h
    obtain rfl := Option.some.inj hB
    exact ⟨1, Nat.le_refl 1, align_insertIdx a i A hi⟩
  | delete i =>
    obtain ⟨hi, hB⟩ := Option.ite_none_right_eq_some.mp h
    obtain rfl := Option.some.inj hB
    exact ⟨1, Nat.le_refl 1, align_eraseIdx i A hi⟩
  | replace i a =>
    obtain ⟨hi, hB⟩ := Option.ite_none_right_eq_some.mp h
    obtain rfl := Option.some.inj hB
    exact align_set a i A hi

theorem align_of_turns : ∀ {s : List (Edit α)} {A B : List α}, Turns s A B →
    ∃ m ≤ scriptCost sub s, Align sub A B m := by
  intro s
  induction s with
  | nil =>
    intro A B h
    obtain rfl := turns_nil.mp h
    exact ⟨0, Nat.zero_le _, Align.refl A⟩
  | cons e s ih =>
    intro A C h
    obtain ⟨B, he, hs⟩ := turns_cons.mp h
    obtain ⟨k, hk, hab⟩ := @align_of_apply _ _ sub _ _ _ he
    obtain ⟨l, hl, hbc⟩ := ih hs
    obtain ⟨m, hm, hac⟩ := hab.trans hbc
    exact ⟨m, by rw [scriptCost_cons]; omega, hac⟩

/-- A pass is a script, from the front to the back. -/
theorem Align.turns {A B : List α} {n : Nat} (h : Align sub A B n) :
    ∃ s, Turns s A B ∧ scriptCost sub s = n := by
  induction h with
  | nil => exact ⟨[], rfl, rfl⟩
  | delete a _ ih =>
    obtain ⟨s, hs, hcost⟩ := ih
    refine ⟨.delete 0 :: s, turns_cons.mpr ⟨_, rfl, hs⟩, ?_⟩
    rw [scriptCost_cons, hcost, Nat.add_comm]
    rfl
  | insert b _ ih =>
    obtain ⟨s, hs, hcost⟩ := ih
    refine ⟨.insert 0 b :: s.map Edit.shift, turns_cons.mpr ⟨_, rfl, hs.shift b⟩, ?_⟩
    rw [scriptCost_cons, scriptCost_shift, hcost, Nat.add_comm]
    rfl
  | pair a b _ ih =>
    obtain ⟨s, hs, hcost⟩ := ih
    by_cases hab : a = b
    · subst hab
      exact ⟨s.map Edit.shift, hs.shift a, by rw [scriptCost_shift, hcost, pairCost, if_pos rfl]; rfl⟩
    · refine ⟨.replace 0 b :: s.map Edit.shift, turns_cons.mpr ⟨_, rfl, hs.shift b⟩, ?_⟩
      rw [scriptCost_cons, scriptCost_shift, hcost, pairCost, if_neg hab, Nat.add_comm]
      rfl

/-- **A cheapest script costs what a cheapest pass costs.** -/
theorem isEditDist_iff {A B : List α} {n : Nat} :
    IsEditDist sub A B n ↔ IsLeast {m | Align sub A B m} n := by
  constructor
  · rintro ⟨⟨s, hs, rfl⟩, hleast⟩
    have hlower : scriptCost sub s ∈ lowerBounds {m | Align sub A B m} := by
      intro m hm
      exact hleast hm.turns
    obtain ⟨m, hm, hal⟩ := @align_of_turns _ _ sub _ _ _ hs
    obtain rfl := Nat.le_antisymm hm (hlower hal)
    exact ⟨hal, hlower⟩
  · rintro ⟨hal, hleast⟩
    refine ⟨hal.turns, ?_⟩
    rintro _ ⟨s, hs, rfl⟩
    obtain ⟨m, hm, hal'⟩ := @align_of_turns _ _ sub _ _ _ hs
    exact Nat.le_trans (hleast hal') hm

/-! ## The recurrence -/

theorem isEditDist_nil_right (sub : Nat) : ∀ A : List α, IsEditDist sub A [] A.length
  | [] => isEditDist_iff.mpr ⟨.nil, fun m _ => Nat.zero_le m⟩
  | a :: A => by
    obtain ⟨hal, hleast⟩ := isEditDist_iff.mp (isEditDist_nil_right sub A)
    refine isEditDist_iff.mpr ⟨hal.delete a, fun m hm => ?_⟩
    cases hm with
    | delete _ h => exact Nat.succ_le_succ (hleast h)

theorem IsEditDist.symm {A B : List α} {n : Nat} (h : IsEditDist sub A B n) :
    IsEditDist sub B A n := by
  obtain ⟨hal, hleast⟩ := isEditDist_iff.mp h
  exact isEditDist_iff.mpr ⟨hal.symm, fun m hm => hleast hm.symm⟩

theorem IsEditDist.reverse {A B : List α} {n : Nat} (h : IsEditDist sub A B n) :
    IsEditDist sub A.reverse B.reverse n := by
  obtain ⟨hal, hleast⟩ := isEditDist_iff.mp h
  refine isEditDist_iff.mpr ⟨hal.reverse, fun m hm => hleast ?_⟩
  have hrev := Align.reverse hm
  rwa [List.reverse_reverse, List.reverse_reverse] at hrev

theorem IsEditDist.cons {A B : List α} {a b : α} {left up diag : Nat}
    (hl : IsEditDist sub (a :: A) B left) (hu : IsEditDist sub A (b :: B) up)
    (hd : IsEditDist sub A B diag) :
    IsEditDist sub (a :: A) (b :: B) (min (min (left + 1) (up + 1)) (diag + pairCost sub a b)) := by
  obtain ⟨hal, hleastl⟩ := isEditDist_iff.mp hl
  obtain ⟨hau, hleastu⟩ := isEditDist_iff.mp hu
  obtain ⟨had, hleastd⟩ := isEditDist_iff.mp hd
  refine isEditDist_iff.mpr ⟨?_, fun m hm => ?_⟩
  · rcases min_choice (min (left + 1) (up + 1)) (diag + pairCost sub a b) with h | h <;> rw [h]
    · rcases min_choice (left + 1) (up + 1) with h | h <;> rw [h]
      · exact hal.insert b
      · exact hau.delete a
    · exact had.pair a b
  · cases hm with
    | delete _ h =>
      have hle := hleastu h
      omega
    | insert _ h =>
      have hle := hleastl h
      omega
    | pair _ _ h =>
      have hle := hleastd h
      omega

/-- The distance by the last elements of the lists. -/
theorem IsEditDist.snoc {A B : List α} {a b : α} {left up diag : Nat}
    (hl : IsEditDist sub (A ++ [a]) B left) (hu : IsEditDist sub A (B ++ [b]) up)
    (hd : IsEditDist sub A B diag) :
    IsEditDist sub (A ++ [a]) (B ++ [b])
      (min (min (left + 1) (up + 1)) (diag + pairCost sub a b)) := by
  have hl := hl.reverse
  have hu := hu.reverse
  rw [List.reverse_concat] at hl hu
  have hcons := (IsEditDist.cons hl hu hd.reverse).reverse
  rwa [List.reverse_cons, List.reverse_cons, List.reverse_reverse, List.reverse_reverse] at hcons

/-! ## A metric -/

section
variable {A B C : List α} {m n k : Nat}

theorem IsEditDist.eq_zero_iff (hsub : 0 < sub) (h : IsEditDist sub A B n) : n = 0 ↔ A = B := by
  obtain ⟨hal, hleast⟩ := isEditDist_iff.mp h
  constructor
  · exact hal.eq_of_zero hsub
  · rintro rfl
    exact Nat.le_zero.mp (hleast (Align.refl A))

theorem IsEditDist.triangle (hab : IsEditDist sub A B m) (hbc : IsEditDist sub B C n)
    (hac : IsEditDist sub A C k) : k ≤ m + n := by
  obtain ⟨l, hl, hal⟩ := (isEditDist_iff.mp hab).1.trans (isEditDist_iff.mp hbc).1
  exact Nat.le_trans ((isEditDist_iff.mp hac).2 hal) hl

/-- A replacement that costs up to `k` times as much scales the distance by `k` at most. -/
theorem IsEditDist.scale {sub' : Nat} (hk : 0 < k) (hsub : sub' ≤ k * sub)
    (h : IsEditDist sub A B m) (h' : IsEditDist sub' A B n) : n ≤ k * m := by
  obtain ⟨l, hl, hal⟩ := (isEditDist_iff.mp h).1.scale hk hsub
  exact Nat.le_trans ((isEditDist_iff.mp h').2 hal) hl

end

end

end CommonTools.Lib
