import Mathlib.Order.Basic

/-! # Runs of a partial step

A run takes a list of events one after another and ends when a step cannot be
taken. What a step keeps, a run keeps; and a run over which an account cannot
shrink ends with the account it began with exactly when no step changes it. -/
namespace CommonTools.Lib

variable {σ ε β : Type} {step : σ → ε → Option σ}

/-- Every step of the run from `s` has `P` in the state before it. -/
def Throughout (step : σ → ε → Option σ) (P : σ → ε → Prop) (s : σ) (events : List ε) : Prop :=
  ∀ before e after, events = before ++ e :: after →
    ∀ mid, before.foldlM step s = some mid → P mid e

theorem Throughout.nil {P : σ → ε → Prop} (s : σ) : Throughout step P s [] := by
  intro before e after h
  simp at h

theorem throughout_cons_iff {P : σ → ε → Prop} {s : σ} {e : ε} {events : List ε} :
    Throughout step P s (e :: events) ↔
      P s e ∧ ∀ s', step s e = some s' → Throughout step P s' events := by
  constructor
  · intro h
    refine ⟨h [] e events rfl s rfl, fun s' hstep before e' after heq mid hmid => ?_⟩
    refine h (e :: before) e' after (by rw [heq]; rfl) mid ?_
    rw [List.foldlM_cons, hstep]
    exact hmid
  · rintro ⟨hhead, htail⟩ before e' after heq mid hmid
    cases before with
    | nil =>
      obtain ⟨rfl, rfl⟩ := List.cons.inj heq
      obtain rfl := Option.some.inj hmid
      exact hhead
    | cons b before =>
      obtain ⟨rfl, rfl⟩ := List.cons.inj heq
      rw [List.foldlM_cons] at hmid
      obtain ⟨s', hstep, hrest⟩ := Option.bind_eq_some_iff.mp hmid
      exact htail s' hstep before e' after rfl mid hrest

theorem throughout_cons {P : σ → ε → Prop} {s s' : σ} {e : ε} {events : List ε}
    (hstep : step s e = some s') :
    Throughout step P s (e :: events) ↔ P s e ∧ Throughout step P s' events := by
  rw [throughout_cons_iff, hstep]
  simp only [Option.some.injEq, forall_eq']

theorem throughout_stuck {P : σ → ε → Prop} {s : σ} {e : ε} {events : List ε}
    (hstep : step s e = none) : Throughout step P s (e :: events) ↔ P s e := by
  rw [throughout_cons_iff, hstep]
  simp only [reduceCtorEq, false_implies, implies_true, and_true]

/-- A run over the events of a list is a run over the first, then the rest. -/
theorem foldlM_cons_some {s s' : σ} {e : ε} {events : List ε} :
    (e :: events).foldlM step s = some s' ↔
      ∃ mid, step s e = some mid ∧ events.foldlM step mid = some s' := by
  rw [List.foldlM_cons]
  exact Option.bind_eq_some_iff

/-- What steps with `P` keep holds after a run of them. -/
theorem run_keeps {I : σ → Prop} {P : σ → ε → Prop}
    (hkeep : ∀ {s e s'}, I s → P s e → step s e = some s' → I s') :
    ∀ {events : List ε} {s s' : σ}, I s → Throughout step P s events →
      events.foldlM step s = some s' → I s' := by
  intro events
  induction events with
  | nil =>
    intro s s' hI _ h
    obtain rfl := Option.some.inj h
    exact hI
  | cons e events ih =>
    intro s s' hI hP h
    obtain ⟨mid, hstep, hrest⟩ := foldlM_cons_some.mp h
    obtain ⟨hhead, htail⟩ := (throughout_cons hstep).mp hP
    exact ih (hkeep hI hhead hstep) htail hrest

theorem foldlM_append_some {s s' : σ} {before after : List ε} :
    (before ++ after).foldlM step s = some s' ↔
      ∃ mid, before.foldlM step s = some mid ∧ after.foldlM step mid = some s' := by
  rw [List.foldlM_append]
  exact Option.bind_eq_some_iff

theorem Throughout.before {P : σ → ε → Prop} {s : σ} {before after : List ε}
    (h : Throughout step P s (before ++ after)) : Throughout step P s before :=
  fun b e rest heq mid hmid => h b e (rest ++ after) (by rw [heq, List.append_assoc]; rfl) mid hmid

/-- `Throughout` for a property that can be computed. -/
def throughoutCheck (step : σ → ε → Option σ) (P : σ → ε → Bool) : σ → List ε → Bool
  | _, [] => true
  | s, e :: events => P s e &&
    match step s e with
    | none => true
    | some s' => throughoutCheck step P s' events

theorem throughout_of_check {P : σ → ε → Bool} {Q : σ → ε → Prop}
    (hQ : ∀ s e, P s e = true → Q s e) :
    ∀ {events : List ε} {s : σ}, throughoutCheck step P s events = true →
      Throughout step Q s events := by
  intro events
  induction events with
  | nil =>
    intro s _
    exact .nil s
  | cons e events ih =>
    intro s h
    rw [throughoutCheck, Bool.and_eq_true] at h
    obtain ⟨hhead, htail⟩ := h
    cases hstep : step s e with
    | some s' =>
      rw [hstep] at htail
      exact (throughout_cons hstep).mpr ⟨hQ s e hhead, ih htail⟩
    | none => exact (throughout_stuck hstep).mpr (hQ s e hhead)

/-! ## Faults -/

/-- A run has no fault of a kind exactly when every step of it has what a step without
such a fault has. -/
theorem run_avoids_iff {φ : Type} {step : σ → ε → Except φ σ} {fault : φ} {I : σ → Prop}
    {P : σ → ε → Prop} (hkeep : ∀ {s e s'}, I s → step s e = .ok s' → I s')
    (hiff : ∀ {s e}, I s → (step s e ≠ .error fault ↔ P s e)) :
    ∀ {events : List ε} {s : σ}, I s → (events.foldlM step s ≠ .error fault ↔
      Throughout (fun s e => (step s e).toOption) P s events) := by
  intro events
  induction events with
  | nil =>
    intro s _
    exact ⟨fun _ => .nil s, fun _ h => nomatch h⟩
  | cons e events ih =>
    intro s hI
    rw [List.foldlM_cons]
    have hopt : ∀ r, step s e = r → (fun s e => (step s e).toOption) s e = r.toOption :=
      fun _ h => congrArg Except.toOption h
    cases hstep : step s e with
    | ok mid =>
      have hhead : P s e := (hiff hI).mp (by rw [hstep]; exact fun h => nomatch h)
      rw [throughout_cons (hopt _ hstep), and_iff_right hhead]
      exact ih (hkeep hI hstep)
    | error other =>
      rw [throughout_stuck (hopt _ hstep), ← hiff hI, hstep]
      rfl

/-- A run comes to a faulty step at once or behind its first step. -/
theorem exists_fault_cons {φ : Type} {step : σ → ε → Except φ σ} {fault : φ} {e : ε}
    {events : List ε} {s : σ} :
    (∃ before e' after mid, e :: events = before ++ e' :: after ∧
        before.foldlM step s = .ok mid ∧ step mid e' = .error fault) ↔
      step s e = .error fault ∨ ∃ s', step s e = .ok s' ∧ ∃ before e' after mid,
        events = before ++ e' :: after ∧ before.foldlM step s' = .ok mid ∧
          step mid e' = .error fault := by
  constructor
  · rintro ⟨before, e', after, mid, heq, hbefore, hfault⟩
    cases before with
    | nil =>
      obtain ⟨rfl, rfl⟩ := List.cons.inj heq
      obtain rfl := Except.ok.inj hbefore
      exact .inl hfault
    | cons b before =>
      obtain ⟨rfl, rfl⟩ := List.cons.inj heq
      rw [List.foldlM_cons] at hbefore
      cases hstep : step s e with
      | error other =>
        rw [hstep] at hbefore
        cases hbefore
      | ok s' =>
        rw [hstep] at hbefore
        exact .inr ⟨s', rfl, before, e', after, mid, rfl, hbefore, hfault⟩
  · rintro (hfault | ⟨s', hstep, before, e', after, mid, rfl, hbefore, hfault⟩)
    · exact ⟨[], e, events, s, rfl, rfl, hfault⟩
    · refine ⟨e :: before, e', after, mid, rfl, ?_, hfault⟩
      rw [List.foldlM_cons, hstep]
      exact hbefore

/-- A run that ends in a fault comes to the step that has it. -/
theorem foldlM_error_iff {φ : Type} {step : σ → ε → Except φ σ} {fault : φ} :
    ∀ {events : List ε} {s : σ}, events.foldlM step s = .error fault ↔
      ∃ before e after mid, events = before ++ e :: after ∧
        before.foldlM step s = .ok mid ∧ step mid e = .error fault := by
  intro events
  induction events with
  | nil =>
    intro s
    constructor
    · intro h
      cases h
    · rintro ⟨before, e, after, mid, heq, -⟩
      simp at heq
  | cons e events ih =>
    intro s
    rw [List.foldlM_cons, exists_fault_cons]
    cases hstep : step s e with
    | error other =>
      refine ⟨fun h => .inl h, ?_⟩
      rintro (h | ⟨s', hs', -⟩)
      · exact h
      · cases hs'
    | ok s' =>
      refine ⟨fun h => .inr ⟨s', rfl, ih.mp h⟩, ?_⟩
      rintro (h | ⟨s'', hs'', h⟩)
      · cases h
      · obtain rfl := Except.ok.inj hs''
        exact ih.mpr h

/-! ## Accounts that cannot shrink -/

section
variable [PartialOrder β] {I : σ → Prop} {account : σ → β} {P : σ → ε → Prop}

theorem run_account_le (hkeep : ∀ {s e s'}, I s → step s e = some s' → I s')
    (hle : ∀ {s e s'}, I s → step s e = some s' → account s ≤ account s') :
    ∀ {events : List ε} {s s' : σ}, I s → events.foldlM step s = some s' → account s ≤ account s'
  | [], s, s', _, h => by
    obtain rfl := Option.some.inj h
    exact le_refl _
  | e :: events, s, s', hI, h => by
    obtain ⟨mid, hstep, hrest⟩ := foldlM_cons_some.mp h
    exact (hle hI hstep).trans (run_account_le hkeep hle (hkeep hI hstep) hrest)

/-- The account at the end is the one at the start exactly when every step
leaves it alone. -/
theorem run_account_eq_iff (hkeep : ∀ {s e s'}, I s → step s e = some s' → I s')
    (hle : ∀ {s e s'}, I s → step s e = some s' → account s ≤ account s')
    (heq : ∀ {s e s'}, I s → step s e = some s' → (account s' = account s ↔ P s e)) :
    ∀ {events : List ε} {s s' : σ}, I s → events.foldlM step s = some s' →
      (account s' = account s ↔ Throughout step P s events) := by
  intro events
  induction events with
  | nil =>
    intro s s' _ h
    obtain rfl := Option.some.inj h
    exact ⟨fun _ => .nil s, fun _ => rfl⟩
  | cons e events ih =>
    intro s s' hI h
    obtain ⟨mid, hstep, hrest⟩ := foldlM_cons_some.mp h
    have ih := ih (hkeep hI hstep) hrest
    rw [throughout_cons hstep, ← heq hI hstep, ← ih]
    constructor
    · intro h
      have hmid := hle hI hstep
      have hend := run_account_le hkeep hle (hkeep hI hstep) hrest
      rw [h] at hend
      have hsame : account mid = account s := le_antisymm hend hmid
      exact ⟨hsame, h.trans hsame.symm⟩
    · rintro ⟨hmid, hend⟩
      exact hend.trans hmid

end

end CommonTools.Lib
