import Mathlib.Data.List.TakeWhile
import Mathlib.Logic.Function.Basic
import Mathlib.Tactic.Common

/-! # One buffer for input and output

A program that drops elements can write its output over its input, as long as it
does not write in front of what it has read. Memory is a function of an index. -/
namespace CommonTools.Lib

variable {β : Type}

/-- From `i` on the memory holds `l`. -/
def Holds (m : Nat → β) (i : Nat) (l : List β) : Prop := ∀ k c, l[k]? = some c → m (i + k) = c

section
variable {m m' : Nat → β} {i : Nat} {c : β} {l l' : List β}

theorem Holds.nil (m : Nat → β) (i : Nat) : Holds m i [] := by
  intro k c h
  cases h

theorem Holds.head (h : Holds m i (c :: l)) : m i = c := h 0 c rfl

theorem Holds.tail (h : Holds m i (c :: l)) : Holds m (i + 1) l := by
  intro k c' hk
  rw [Nat.add_assoc, Nat.add_comm 1 k]
  exact h (k + 1) c' hk

theorem Holds.drop (h : Holds m i (l ++ l')) : Holds m (i + l.length) l' := by
  intro k c hk
  rw [Nat.add_assoc]
  refine h (l.length + k) c ?_
  rw [List.getElem?_append_right (Nat.le_add_right _ _), Nat.add_sub_cancel_left]
  exact hk

theorem Holds.congr (h : Holds m i l) (heq : ∀ k, i ≤ k → k < i + l.length → m' k = m k) :
    Holds m' i l := by
  intro k c hk
  obtain ⟨hlt, -⟩ := List.getElem?_eq_some_iff.mp hk
  rw [heq (i + k) (Nat.le_add_right i k) (Nat.add_lt_add_left hlt i)]
  exact h k c hk

theorem Holds.concat (h : Holds m i l) (hc : m (i + l.length) = c) : Holds m i (l ++ [c]) := by
  intro k c' hk
  by_cases hlt : k < l.length
  · rw [List.getElem?_append_left hlt] at hk
    exact h k c' hk
  · rw [List.getElem?_append_right (Nat.le_of_not_lt hlt)] at hk
    obtain ⟨hsub, hget⟩ := List.getElem?_eq_some_iff.mp hk
    rw [List.length_singleton] at hsub
    obtain rfl : k = l.length := by omega
    rw [hc, ← hget]
    simp

/-- One more character behind what is written. -/
theorem Holds.put (h : Holds m 0 l) (c : β) :
    Holds (Function.update m l.length c) 0 (l ++ [c]) := by
  refine Holds.concat (h.congr fun k _ hk => Function.update_of_ne ?_ _ _) ?_
  · omega
  · rw [Nat.zero_add, Function.update_self]

/-- Two memories that hold the same and agree behind it are the same. -/
theorem Holds.unique (h : Holds m 0 l) (h' : Holds m' 0 l)
    (hbehind : ∀ k, l.length ≤ k → m' k = m k) : m' = m := by
  funext k
  by_cases hk : k < l.length
  · have hget : l[k]? = some l[k] := List.getElem?_eq_getElem hk
    have hm := h k _ hget
    have hm' := h' k _ hget
    rw [Nat.zero_add] at hm hm'
    rw [hm, hm']
  · exact hbehind k (Nat.le_of_not_lt hk)

end

/-! ## The two indices -/

/-- The program has read up to `inp` and written `W`. -/
structure Rewriting (m₀ m : Nat → β) (inp : Nat) (W : List β) : Prop where
  written : Holds m 0 W
  behind : W.length ≤ inp
  ahead : ∀ i, inp ≤ i → m i = m₀ i

section
variable {m₀ m : Nat → β} {inp : Nat} {W X : List β} {c : β}

theorem Rewriting.init (m : Nat → β) : Rewriting m m 0 [] :=
  ⟨Holds.nil m 0, Nat.le_refl 0, fun _ _ => rfl⟩

theorem Rewriting.emit (h : Rewriting m₀ m inp W) (hc : m₀ inp = c) :
    Rewriting m₀ (Function.update m W.length (m inp)) (inp + 1) (W ++ [c]) where
  written := by
    have hput := h.written.put (m inp)
    rwa [h.ahead inp (Nat.le_refl inp), hc] at hput ⊢
  behind := by
    rw [List.length_append, List.length_singleton]
    exact Nat.succ_le_succ h.behind
  ahead i hi := by
    have hbehind := h.behind
    rw [Function.update_of_ne (by omega), h.ahead i (by omega)]

theorem Rewriting.pass (h : Rewriting m₀ m inp W) (k : Nat) : Rewriting m₀ m (inp + k) W :=
  ⟨h.written, Nat.le_trans h.behind (Nat.le_add_right inp k),
    fun i hi => h.ahead i (Nat.le_trans (Nat.le_add_right inp k) hi)⟩

theorem Rewriting.revert (h : Rewriting m₀ m inp (W ++ X)) : Rewriting m₀ m inp W where
  written k c hk := by
    obtain ⟨hlt, -⟩ := List.getElem?_eq_some_iff.mp hk
    exact h.written k c ((List.getElem?_append_left hlt).trans hk)
  behind := by
    have hlen := h.behind
    rw [List.length_append] at hlen
    omega
  ahead := h.ahead

end

/-! ## Loops up to a terminator -/

section
variable [DecidableEq β] (stop : β) (p : β → Bool)

/-- `while (*in && p(*in)) *out++ = *in++`, with both indices afterwards. -/
def copyWhile : Nat → (Nat → β) → Nat → Nat → Option ((Nat → β) × Nat × Nat)
  | 0, _, _, _ => none
  | fuel + 1, m, inp, out =>
    if m inp ≠ stop ∧ p (m inp) = true then
      copyWhile fuel (Function.update m out (m inp)) (inp + 1) (out + 1)
    else some (m, inp, out)

/-- `while (*in && p(*in)) ++in`. -/
def skipWhile : Nat → (Nat → β) → Nat → Option Nat
  | 0, _, _ => none
  | fuel + 1, m, inp =>
    if m inp ≠ stop ∧ p (m inp) = true then skipWhile fuel m (inp + 1) else some inp

variable {stop p} {m₀ m : Nat → β} {inp : Nat} {W : List β}

theorem skipWhile_takeWhile : ∀ (s : List β) {fuel inp : Nat}, (∀ c ∈ s, c ≠ stop) →
    Holds m inp (s ++ [stop]) → s.length < fuel →
    skipWhile stop p fuel m inp = some (inp + (s.takeWhile p).length)
  | s, 0, _, _, _, hfuel => absurd hfuel (Nat.not_lt_zero _)
  | [], fuel + 1, inp, _, hm, _ => if_neg fun h => h.1 hm.head
  | c :: s, fuel + 1, inp, hs, hm, hfuel => by
    unfold skipWhile
    rw [hm.head]
    cases hp : p c with
    | true =>
      rw [if_pos ⟨hs c List.mem_cons_self, rfl⟩, List.takeWhile_cons_of_pos hp, List.length_cons,
        skipWhile_takeWhile s (fun c hc => hs c (List.mem_cons_of_mem _ hc)) hm.tail
          (Nat.lt_of_succ_lt_succ hfuel), Nat.add_assoc, Nat.add_comm 1]
    | false =>
      rw [if_neg fun h => Bool.false_ne_true h.2, List.takeWhile_cons_of_neg (by rw [hp]; decide)]
      rfl

theorem copyWhile_takeWhile : ∀ (s : List β) {fuel inp : Nat} {m : Nat → β} {W : List β},
    (∀ c ∈ s, c ≠ stop) → Holds m₀ inp (s ++ [stop]) → s.length < fuel →
    Rewriting m₀ m inp W →
    ∃ m', copyWhile stop p fuel m inp W.length =
        some (m', inp + (s.takeWhile p).length, (W ++ s.takeWhile p).length) ∧
      Rewriting m₀ m' (inp + (s.takeWhile p).length) (W ++ s.takeWhile p)
  | s, 0, _, _, _, _, _, hfuel, _ => absurd hfuel (Nat.not_lt_zero _)
  | [], fuel + 1, inp, m, W, _, hm, _, h => by
    rw [List.takeWhile_nil, List.append_nil]
    refine ⟨m, if_neg fun hc => hc.1 ?_, h⟩
    rw [h.ahead inp (Nat.le_refl inp), hm.head]
  | c :: s, fuel + 1, inp, m, W, hs, hm, hfuel, h => by
    have hc : m inp = c := (h.ahead inp (Nat.le_refl inp)).trans hm.head
    unfold copyWhile
    cases hp : p c with
    | true =>
      rw [hc, if_pos ⟨hs c List.mem_cons_self, hp⟩, List.takeWhile_cons_of_pos hp, List.length_cons,
        ← hc]
      have hemit := h.emit hm.head
      obtain ⟨m', hloop, hrest⟩ := copyWhile_takeWhile s
        (fun c hc => hs c (List.mem_cons_of_mem _ hc)) hm.tail (Nat.lt_of_succ_lt_succ hfuel) hemit
      rw [List.length_append, List.length_singleton, List.append_assoc, List.singleton_append,
        Nat.add_assoc, Nat.add_comm 1] at hloop
      rw [List.append_assoc, List.singleton_append, Nat.add_assoc, Nat.add_comm 1] at hrest
      refine ⟨m', ?_, ?_⟩
      · rw [hloop, hc]
      · rw [hc]
        exact hrest
    | false =>
      rw [hc, if_neg fun h => Bool.false_ne_true (hp.symm.trans h.2),
        List.takeWhile_cons_of_neg (by rw [hp]; decide), List.append_nil]
      exact ⟨m, rfl, h⟩

end

end CommonTools.Lib
