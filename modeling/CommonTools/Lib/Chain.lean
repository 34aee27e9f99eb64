import Mathlib.Data.List.Basic
import Mathlib.Logic.Function.Basic

/-! # Null-terminated chains

A chain leads from a pointer over the `next` fields of its nodes to the null
pointer. A walk along it finds what a search of the list of its nodes finds. -/
namespace CommonTools.Lib

variable {α : Type}

/-- From `head` the chain runs through the given nodes to its end. -/
def Chain (next : α → Option α) : Option α → List α → Prop
  | head, [] => head = none
  | head, a :: l => head = some a ∧ Chain next (next a) l

/-- Go on until `stop` holds; the fuel bounds the nodes. -/
def walk (next : α → Option α) (stop : α → Bool) : Nat → Option α → Option α
  | 0, _ => none
  | _ + 1, none => none
  | fuel + 1, some a => if stop a then some a else walk next stop fuel (next a)

variable {next next' : α → Option α} {stop : α → Bool}

/-- The chain is made by the fields of its own nodes. -/
theorem Chain.congr : ∀ {l : List α} {head : Option α},
    (∀ a ∈ l, next' a = next a) → Chain next head l → Chain next' head l
  | [], _, _, h => h
  | a :: l, _, hnext, ⟨hhead, h⟩ => by
    refine ⟨hhead, ?_⟩
    rw [hnext a List.mem_cons_self]
    exact h.congr fun b hb => hnext b (List.mem_cons_of_mem a hb)

theorem walk_eq_find? : ∀ {fuel : Nat} {head : Option α} {l : List α},
    Chain next head l → l.length ≤ fuel → walk next stop fuel head = l.find? stop
  | 0, _, l, _, hle => by rw [List.length_eq_zero_iff.mp (Nat.le_zero.mp hle)]; rfl
  | fuel + 1, _, [], h, _ => by rw [show _ = none from h]; rfl
  | fuel + 1, _, a :: l, ⟨hhead, h⟩, hle => by
    rw [hhead, walk, walk_eq_find? h (Nat.le_of_succ_le_succ hle), List.find?_cons]
    cases stop a <;> rfl

/-- What remains of a chain behind the node where the walk stops. -/
theorem Chain.rest : ∀ {l : List α} {head : Option α} {a : α}, Chain next head l →
    l.find? stop = some a →
      ∃ l', Chain next (next a) l' ∧ l.filter stop = a :: l'.filter stop ∧ a :: l' <:+ l
  | b :: l, _, a, ⟨_, h⟩, hfind => by
    rw [List.find?_cons] at hfind
    cases hb : stop b with
    | true =>
      rw [hb] at hfind
      cases hfind
      exact ⟨l, h, List.filter_cons_of_pos hb, List.suffix_refl _⟩
    | false =>
      rw [hb] at hfind
      obtain ⟨l', hl', hfilter, hsuffix⟩ := h.rest hfind
      refine ⟨l', hl', ?_, hsuffix.trans (List.suffix_cons b l)⟩
      rw [List.filter_cons_of_neg (by rw [hb]; decide), hfilter]

end CommonTools.Lib
