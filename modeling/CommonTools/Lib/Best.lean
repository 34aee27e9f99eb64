import Mathlib.Data.List.Induction
import Mathlib.Order.RelClasses
import Mathlib.Tactic.Common

/-! # The best of a list

A loop that keeps the best score so far and a mark of where it was found. The first entry
of the loop counts like an element in front of the list: it stays when nothing beats it. -/
namespace CommonTools.Lib

section
variable {β ι τ : Type*} (beats : β → β → Prop) [DecidableRel beats] (score : ι → β) (tag : ι → τ)

/-- One round: `x` takes the place of the best so far when its score beats it. -/
def takeBetter (best : β × τ) (x : ι) : β × τ :=
  if beats (score x) best.1 then (score x, tag x) else best

def bestOf (best : β × τ) (l : List ι) : β × τ := l.foldl (takeBetter beats score tag) best

variable {beats score tag} {best : β × τ} {l : List ι}

theorem takeBetter_of_beats {x : ι} (h : beats (score x) best.1) :
    takeBetter beats score tag best x = (score x, tag x) := if_pos h

theorem takeBetter_of_not {x : ι} (h : ¬ beats (score x) best.1) :
    takeBetter beats score tag best x = best := if_neg h

theorem bestOf_cons (x : ι) :
    bestOf beats score tag best (x :: l) =
      bestOf beats score tag (takeBetter beats score tag best x) l := rfl

variable [IsStrictOrder β beats]

/-- What the loop keeps is the first entry, or an element that beats it. -/
theorem bestOf_cases :
    bestOf beats score tag best l = best ∨
      ∃ x ∈ l, bestOf beats score tag best l = (score x, tag x) ∧ beats (score x) best.1 := by
  induction l generalizing best with
  | nil => exact .inl rfl
  | cons x l ih =>
    rw [bestOf_cons]
    by_cases hx : beats (score x) best.1
    · rw [takeBetter_of_beats hx]
      rcases @ih (score x, tag x) with hkept | ⟨y, hy, hbest, hbeats⟩
      · exact .inr ⟨x, by simp, hkept, hx⟩
      · exact .inr ⟨y, by simp [hy], hbest, IsTrans.trans _ _ _ hbeats hx⟩
    · rw [takeBetter_of_not hx]
      rcases @ih best with hkept | ⟨y, hy, hbest, hbeats⟩
      · exact .inl hkept
      · exact .inr ⟨y, by simp [hy], hbest, hbeats⟩

/-- The best score is beaten neither by the first entry nor by an element. -/
theorem bestOf_unbeaten :
    ¬ beats best.1 (bestOf beats score tag best l).1 ∧
      ∀ x ∈ l, ¬ beats (score x) (bestOf beats score tag best l).1 := by
  induction l generalizing best with
  | nil => exact ⟨irrefl best.1, by simp⟩
  | cons x l ih =>
    rw [bestOf_cons]
    by_cases hx : beats (score x) best.1
    · obtain ⟨hfirst, hrest⟩ := @ih (score x, tag x)
      rw [takeBetter_of_beats hx]
      refine ⟨fun hbest => hfirst (IsTrans.trans _ _ _ hx hbest), ?_⟩
      simpa [hfirst] using hrest
    · obtain ⟨hfirst, hrest⟩ := @ih best
      rw [takeBetter_of_not hx]
      refine ⟨hfirst, ?_⟩
      have hhead : ¬ beats (score x) (bestOf beats score tag best l).1 := by
        intro hbeats
        rcases @bestOf_cases _ _ _ beats _ score tag best l _ with hkept | ⟨y, -, hbest, hy⟩
        · exact hx (hkept ▸ hbeats)
        · rw [hbest] at hbeats
          exact hx (IsTrans.trans _ _ _ hbeats hy)
      simpa [hhead] using hrest

end

/-! ## The place of the best -/

section
variable {β ι τ : Type*} (beats : β → β → Prop) (score : ι → β) (first : β)

/-- `x` beats the first entry and all elements in front of it that do so too, and none of those
behind beats it. -/
def IsBest (l : List ι) (x : ι) : Prop :=
  ∃ pre post, l = pre ++ x :: post ∧ beats (score x) first ∧
    (∀ y ∈ pre, beats (score y) first → beats (score x) (score y)) ∧
    ∀ y ∈ post, ¬ beats (score y) (score x)

variable {beats score first} {tag : ι → τ} {l : List ι} [DecidableRel beats]

theorem bestOf_append (best : β × τ) (pre post : List ι) :
    bestOf beats score tag best (pre ++ post) =
      bestOf beats score tag (bestOf beats score tag best pre) post := List.foldl_append

theorem bestOf_unbeaten_first {best : β × τ} : ∀ {l : List ι},
    (∀ y ∈ l, ¬ beats (score y) best.1) → bestOf beats score tag best l = best
  | [], _ => rfl
  | y :: l, h => by
    obtain ⟨hy, hl⟩ := List.forall_mem_cons.mp h
    rw [bestOf_cons, takeBetter_of_not hy]
    exact bestOf_unbeaten_first hl

variable [IsStrictOrder β beats]

theorem IsBest.bestOf {x : ι} (h : IsBest beats score first l x) (t : τ) :
    bestOf beats score tag (first, t) l = (score x, tag x) := by
  obtain ⟨pre, post, rfl, hfirst, hpre, hpost⟩ := h
  have hx : beats (score x) (Lib.bestOf beats score tag (first, t) pre).1 := by
    rcases @bestOf_cases _ _ _ beats _ score tag (first, t) pre _ with
      hkept | ⟨y, hy, hbest, hbeats⟩
    · rwa [hkept]
    · rw [hbest]
      exact hpre y hy hbeats
  rw [bestOf_append, bestOf_cons, takeBetter_of_beats hx]
  exact bestOf_unbeaten_first hpost

/-- When those that beat the first entry can be compared, either none does, or one is the
best. -/
theorem exists_isBest (htotal : ∀ a b, beats a first → beats b first →
    beats a b ∨ a = b ∨ beats b a) :
    (∀ x ∈ l, ¬ beats (score x) first) ∨ ∃ x, IsBest beats score first l x := by
  induction l using List.reverseRecOn with
  | nil => exact .inl (by simp)
  | append_singleton l x ih =>
    by_cases hx : beats (score x) first
    · rcases ih with hnone | ⟨b, pre, post, rfl, hb, hpre, hpost⟩
      · exact .inr ⟨x, l, [], rfl, hx, fun y hy hbeats => absurd hbeats (hnone y hy), by simp⟩
      · by_cases hxb : beats (score x) (score b)
        · refine .inr ⟨x, pre ++ b :: post, [], rfl, hx, fun y hy hyfirst => ?_, by simp⟩
          rw [List.mem_append, List.mem_cons] at hy
          rcases hy with hy | rfl | hy
          · exact IsTrans.trans _ _ _ hxb (hpre y hy hyfirst)
          · exact hxb
          · rcases htotal _ _ hyfirst hb with hyb | heq | hby
            · exact absurd hyb (hpost y hy)
            · rwa [heq]
            · exact IsTrans.trans _ _ _ hxb hby
        · exact .inr ⟨b, pre, post ++ [x], by simp, hb, hpre, by
            simpa [or_imp, forall_and, hxb] using hpost⟩
    · rcases ih with hnone | ⟨b, pre, post, rfl, hb, hpre, hpost⟩
      · exact .inl (by simpa [or_imp, forall_and, hx] using hnone)
      · have hxb : ¬ beats (score x) (score b) := fun hxb => hx (IsTrans.trans _ _ _ hxb hb)
        exact .inr ⟨b, pre, post ++ [x], by simp, hb, hpre, by
          simpa [or_imp, forall_and, hxb] using hpost⟩

end

end CommonTools.Lib
