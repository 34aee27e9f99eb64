import Mathlib.Data.List.Basic
import Mathlib.Logic.Function.Basic

/-! # What a store has been written

A program that only assigns keys is described by the pairs it writes: a later
write under the same key hides an earlier one, and no key goes away. -/
namespace CommonTools.Lib

variable {κ ν ι : Type}

/-- `m'` is `m` after the writes `W`, in any order and number. -/
def Writes (W : κ → ν → Prop) (m m' : κ → Option ν) : Prop :=
  (∀ k v, m' k = some v → m k = some v ∨ W k v) ∧
    ∀ k, ((m k).isSome ∨ ∃ v, W k v) → (m' k).isSome

variable {W W' : κ → ν → Prop} {m m' m'' : κ → Option ν}

theorem Writes.refl (m : κ → Option ν) : Writes (fun _ _ => False) m m :=
  ⟨fun _ _ h => .inl h, fun _ h => h.elim id fun ⟨_, hf⟩ => hf.elim⟩

theorem Writes.single [DecidableEq κ] (m : κ → Option ν) (k : κ) (v : ν) :
    Writes (fun k' v' => k' = k ∧ v' = v) m (Function.update m k (some v)) := by
  constructor
  · intro k' v' h
    by_cases hk : k' = k
    · rw [hk, Function.update_self] at h
      cases h
      exact .inr ⟨hk, rfl⟩
    · rw [Function.update_of_ne hk] at h
      exact .inl h
  · intro k' h
    by_cases hk : k' = k
    · rw [hk, Function.update_self]
      rfl
    · rw [Function.update_of_ne hk]
      exact h.elim id fun ⟨_, hw⟩ => absurd hw.1 hk

theorem Writes.trans (h : Writes W m m') (h' : Writes W' m' m'') :
    Writes (fun k v => W k v ∨ W' k v) m m'' := by
  constructor
  · intro k v hv
    rcases h'.1 k v hv with hv | hw
    · exact (h.1 k v hv).imp_right .inl
    · exact .inr (.inr hw)
  · rintro k (hm | ⟨v, hw | hw⟩)
    · exact h'.2 k (.inl (h.2 k (.inl hm)))
    · exact h'.2 k (.inl (h.2 k (.inr ⟨v, hw⟩)))
    · exact h'.2 k (.inr ⟨v, hw⟩)

theorem Writes.congr (h : Writes W m m') (hW : ∀ k v, W k v ↔ W' k v) : Writes W' m m' :=
  ⟨fun k v hv => (h.1 k v hv).imp_right (hW k v).mp,
    fun k hk => h.2 k (hk.imp_right fun ⟨v, hw⟩ => ⟨v, (hW k v).mpr hw⟩)⟩

theorem Writes.foldlM {f : (κ → Option ν) → ι → Option (κ → Option ν)} {W : ι → κ → ν → Prop} :
    ∀ {l : List ι} {m : κ → Option ν},
      (∀ x ∈ l, ∀ m, ∃ m', f m x = some m' ∧ Writes (W x) m m') →
        ∃ m', l.foldlM f m = some m' ∧ Writes (fun k v => ∃ x ∈ l, W x k v) m m'
  | [], m, _ => ⟨m, rfl, (Writes.refl m).congr fun _ _ => by simp⟩
  | x :: l, m, h => by
    obtain ⟨m₁, hm₁, hx⟩ := h x List.mem_cons_self m
    obtain ⟨m', hm', hl⟩ := @Writes.foldlM f W l m₁ fun y hy => h y (List.mem_cons_of_mem x hy)
    refine ⟨m', ?_, (hx.trans hl).congr fun k v => ?_⟩
    · rw [List.foldlM_cons, hm₁]
      exact hm'
    · simp only [List.mem_cons, exists_eq_or_imp]

/-- A loop whose rounds write at most a value of their own key. -/
theorem foldlM_assign [DecidableEq κ] {f : (κ → Option ν) → κ → Option (κ → Option ν)}
    {value : κ → Option ν}
    (hf : ∀ m k, f m k = some (if (value k).isSome then Function.update m k (value k) else m)) :
    ∀ (l : List κ) (m : κ → Option ν), ∃ m', l.foldlM f m = some m' ∧
      ∀ k, m' k = if k ∈ l ∧ (value k).isSome then value k else m k := by
  intro l
  induction l with
  | nil =>
    intro m
    exact ⟨m, rfl, fun k => by rw [if_neg fun h => nomatch h.1]⟩
  | cons x l ih =>
    intro m
    obtain ⟨m', hm', hl⟩ := ih
      (if (value x).isSome then Function.update m x (value x) else m)
    refine ⟨m', ?_, fun k => ?_⟩
    · rw [List.foldlM_cons, hf]
      exact hm'
    · rw [hl]
      by_cases hk : k ∈ l ∧ (value k).isSome = true
      · rw [if_pos hk, if_pos ⟨List.mem_cons_of_mem x hk.1, hk.2⟩]
      · rw [if_neg hk]
        by_cases hx : k = x
        · subst hx
          by_cases hsome : (value k).isSome = true
          · rw [if_pos hsome, Function.update_self, if_pos ⟨List.mem_cons_self, hsome⟩]
          · rw [if_neg hsome, if_neg fun h => hsome h.2]
        · have hout : ¬ (k ∈ x :: l ∧ (value k).isSome = true) := fun h =>
            hk ⟨(List.mem_cons.mp h.1).resolve_left hx, h.2⟩
          rw [if_neg hout]
          split
          · exact Function.update_of_ne hx _ _
          · rfl

/-- From nothing, the keys are those that were written. -/
theorem Writes.isSome_iff (h : Writes W (fun _ => none) m') (k : κ) :
    (m' k).isSome ↔ ∃ v, W k v := by
  constructor
  · intro hk
    obtain ⟨v, hv⟩ := Option.isSome_iff_exists.mp hk
    rcases h.1 k v hv with hn | hw
    · cases hn
    · exact ⟨v, hw⟩
  · exact fun hw => h.2 k (.inr hw)

theorem Writes.of_eq_some (h : Writes W (fun _ => none) m') {k : κ} {v : ν} (hv : m' k = some v) :
    W k v :=
  (h.1 k v hv).elim (fun hn => nomatch hn) id

end CommonTools.Lib
