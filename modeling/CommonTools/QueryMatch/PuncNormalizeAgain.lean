import CommonTools.QueryMatch.PuncNormalizeSound
import Mathlib.Logic.Relation

/-! # Normalising again

What the rule keeps of a run it keeps once more, so a normalised string is its
own normal form. The function is also taken apart into the rounds of its three
loops, to say where it writes and where it reads in between. -/
namespace CommonTools.QueryMatch
open CommonTools.Lib

/-! ## The rule applied twice -/

section
variable {delSpace delNumberSign : Bool} {prev next : Option UInt16} {run s : List UInt16}
  {c : UInt16}

theorem kept_cases (delSpace delNumberSign : Bool) (prev : Option UInt16) (run : List UInt16)
    (next : Option UInt16) :
    kept delSpace delNumberSign prev run next = run ∨
      kept delSpace delNumberSign prev run next = [] ∨
      (kept delSpace delNumberSign prev run next = (run.find? isspaceGchar).toList ∧
        (prev.any isdigitGchar && next.any isdigitGchar) = false ∧
        (delSpace && prev.any (isalphaOrSign delNumberSign) && next.any isalphaGchar) = true) := by
  unfold kept
  cases hdigit : prev.any isdigitGchar && next.any isdigitGchar with
  | true => exact .inl (if_pos rfl)
  | false =>
    rw [if_neg Bool.false_ne_true]
    cases halpha : delSpace && prev.any (isalphaOrSign delNumberSign) && next.any isalphaGchar with
    | true => exact .inr (.inr ⟨if_pos rfl, rfl, rfl⟩)
    | false => exact .inr (.inl (if_neg Bool.false_ne_true))

/-- What is kept of a run belongs to the run. -/
theorem mem_of_mem_kept (h : c ∈ kept delSpace delNumberSign prev run next) : c ∈ run := by
  rcases kept_cases delSpace delNumberSign prev run next with heq | heq | ⟨heq, -⟩
  · rw [heq] at h
    exact h
  · rw [heq] at h
    cases h
  · rw [heq, Option.mem_toList] at h
    exact List.mem_of_find?_eq_some h

theorem kept_kept :
    kept delSpace delNumberSign prev (kept delSpace delNumberSign prev run next) next =
      kept delSpace delNumberSign prev run next := by
  rcases kept_cases delSpace delNumberSign prev run next with heq | heq | ⟨heq, hdigit, halpha⟩
  · rw [heq, heq]
  · rw [heq, kept_nil]
  · rw [heq]
    unfold kept
    rw [hdigit, halpha, if_neg Bool.false_ne_true, if_pos rfl]
    cases hfind : run.find? isspaceGchar with
    | none => rfl
    | some d =>
      rw [Option.toList_some, List.find?_cons_of_pos (List.find?_some hfind)]
      rfl

/-- A whole run in front of a character that is in none. -/
theorem normalized_run (hrun : ∀ d ∈ run, inRun delSpace d = true)
    (hc : inRun delSpace c = false) (prev : Option UInt16) :
    normalized delSpace delNumberSign prev (run ++ c :: s) =
      kept delSpace delNumberSign prev run (some c) ++
        c :: normalized delSpace delNumberSign (some c) s := by
  have hnot : ¬ inRun delSpace c = true := by rw [hc]; decide
  rw [← pending_nil, pending_whole, List.takeWhile_append_of_pos hrun,
    List.dropWhile_append_of_pos hrun, List.takeWhile_cons_of_neg hnot,
    List.dropWhile_cons_of_neg hnot, List.append_nil, List.nil_append, pending_nil,
    normalized_cons_other hc]
  rfl

theorem normalized_normalized (prev : Option UInt16) (s : List UInt16) :
    normalized delSpace delNumberSign prev (normalized delSpace delNumberSign prev s) =
      normalized delSpace delNumberSign prev s := by
  induction prev, s using normalized.induct delSpace with
  | case1 prev => rw [normalized, normalized]
  | case2 prev c s hc run rest ih =>
    have hrun : ∀ d ∈ run, inRun delSpace d = true := by
      intro d hd
      rcases List.mem_cons.mp hd with rfl | hd
      · exact hc
      · exact List.mem_takeWhile_imp hd
    rw [normalized, if_pos hc]
    show normalized delSpace delNumberSign prev (kept delSpace delNumberSign prev run rest.head? ++
        normalized delSpace delNumberSign run.getLast? rest) =
      kept delSpace delNumberSign prev run rest.head? ++
        normalized delSpace delNumberSign run.getLast? rest
    cases hrest : rest with
    | nil => rw [List.head?_nil, kept_end, List.nil_append, normalized, normalized]
    | cons d tail =>
      have hd : inRun delSpace d = false := by
        have hhead := List.head?_dropWhile_not (inRun delSpace) s
        rw [show s.dropWhile (inRun delSpace) = d :: tail from hrest] at hhead
        exact hhead
      rw [hrest, normalized_cons_other hd, normalized_cons_other hd] at ih
      rw [normalized_cons_other hd, List.head?_cons,
        normalized_run (fun e he => hrun e (mem_of_mem_kept he)) hd, kept_kept,
        (List.cons.inj ih).2]
  | case3 prev c s hc ih =>
    have hc' : inRun delSpace c = false := Bool.eq_false_iff.mpr hc
    rw [normalized_cons_other hc', normalized_cons_other hc', ih]

theorem mem_of_mem_normalized (prev : Option UInt16) (s : List UInt16) :
    ∀ d ∈ normalized delSpace delNumberSign prev s, d ∈ s := by
  induction prev, s using normalized.induct delSpace with
  | case1 prev =>
    intro d hd
    rw [normalized] at hd
    exact hd
  | case2 prev c s hc run rest ih =>
    intro d hd
    rw [normalized, if_pos hc] at hd
    have hsplit : c :: s = run ++ rest := by
      rw [List.cons_append, List.takeWhile_append_dropWhile]
    rw [hsplit]
    rcases List.mem_append.mp hd with hd | hd
    · exact List.mem_append_left _ (mem_of_mem_kept hd)
    · exact List.mem_append_right _ (ih d hd)
  | case3 prev c s hc ih =>
    intro d hd
    rw [normalized_cons_other (Bool.eq_false_iff.mpr hc)] at hd
    rcases List.mem_cons.mp hd with rfl | hd
    · exact List.mem_cons_self
    · exact List.mem_cons_of_mem c (ih d hd)

end

/-! ## Rounds of the loops -/

/-- The loop at whose head the program stands: the `for`, or the `while` of a
look-ahead that would go back to `outt`. -/
inductive PuncLoop where
  | outer
  | copying (p : UInt16 → Bool) (outt : Nat)
  | skipping (outt : Nat)

structure PuncPoint where
  loop : PuncLoop
  st : PuncState

/-- `*out++ = *in++`. -/
def PuncState.copy (st : PuncState) : PuncState := (st.put st.adstate).next

section
variable (delSpace delNumberSign : Bool)

/-- One round of the loop at whose head the program stands, or the way out of it.
Behind a look-ahead `--in` and the `++in` of the `for` cancel. -/
def puncStep : PuncPoint → Option PuncPoint
  | ⟨.outer, st⟩ =>
    let ch := st.str st.inp
    if ch = 0 then none
    else if isdigitGchar ch then some ⟨.outer, (st.put .digit).next⟩
    else if isalphaOrSign delNumberSign ch then some ⟨.outer, (st.put .alpha).next⟩
    else if ispunctGchar ch then
      if st.adstate = .digit then
        some ⟨.copying (fun c => ispunctGchar c || (delSpace && isspaceGchar c)) st.out, st.copy⟩
      else some ⟨.outer, st.next⟩
    else if delSpace && isspaceGchar ch then
      if st.adstate = .alpha then some ⟨.skipping st.out, st.copy⟩
      else if st.adstate = .digit then
        some ⟨.copying (fun c => ispunctGchar c || isspaceGchar c) st.out, st.copy⟩
      else some ⟨.outer, st.next⟩
    else some ⟨.outer, (st.put .norm).next⟩
  | ⟨.copying p outt, st⟩ =>
    let ch := st.str st.inp
    if ch ≠ 0 ∧ p ch = true then some ⟨.copying p outt, st.copy⟩
    else if !isdigitGchar ch then some ⟨.outer, { st with out := outt }⟩
    else some ⟨.outer, st⟩
  | ⟨.skipping outt, st⟩ =>
    let ch := st.str st.inp
    if ch ≠ 0 ∧ (isspaceGchar ch || ispunctGchar ch) = true then
      some ⟨.skipping outt, st.next⟩
    else if !isalphaGchar ch then some ⟨.outer, { st with out := outt }⟩
    else some ⟨.outer, st⟩

/-- From the one point the program comes to the other. -/
def PuncReaches : PuncPoint → PuncPoint → Prop :=
  Relation.ReflTransGen fun a b => puncStep delSpace delNumberSign a = some b

end

section
variable {delSpace delNumberSign : Bool} {st st' : PuncState} {a b : PuncPoint}

theorem PuncReaches.single (h : puncStep delSpace delNumberSign a = some b) :
    PuncReaches delSpace delNumberSign a b :=
  Relation.ReflTransGen.single h

theorem PuncReaches.cons {c : PuncPoint} (h : puncStep delSpace delNumberSign a = some b)
    (hrest : PuncReaches delSpace delNumberSign b c) : PuncReaches delSpace delNumberSign a c :=
  Relation.ReflTransGen.head h hrest

/-! ### The rounds make up the loops -/

theorem copyWhile_reaches {p : UInt16 → Bool} (outt : Nat) : ∀ {fuel : Nat} {st : PuncState}
    {str : Nat → UInt16} {inp out : Nat},
    copyWhile 0 p fuel st.str st.inp st.out = some (str, inp, out) →
      PuncReaches delSpace delNumberSign ⟨.copying p outt, st⟩
        ⟨.copying p outt, { st with str, inp, out }⟩ ∧
      ¬ (str inp ≠ 0 ∧ p (str inp) = true) ∧ st.inp ≤ inp := by
  intro fuel
  induction fuel with
  | zero =>
    intro st str inp out h
    cases h
  | succ fuel ih =>
    intro st str inp out h
    unfold copyWhile at h
    by_cases hgo : st.str st.inp ≠ 0 ∧ p (st.str st.inp) = true
    · rw [if_pos hgo] at h
      obtain ⟨hreach, hend, hle⟩ := @ih st.copy str inp out h
      exact ⟨.cons (if_pos hgo) hreach, hend, Nat.le_of_succ_le hle⟩
    · rw [if_neg hgo] at h
      obtain ⟨rfl, hends⟩ := Prod.mk.inj (Option.some.inj h)
      obtain ⟨rfl, rfl⟩ := Prod.mk.inj hends
      exact ⟨Relation.ReflTransGen.refl, hgo, Nat.le_refl _⟩

theorem skipWhile_reaches (outt : Nat) : ∀ {fuel : Nat} {st : PuncState} {inp : Nat},
    skipWhile 0 (fun c => isspaceGchar c || ispunctGchar c) fuel st.str st.inp = some inp →
      PuncReaches delSpace delNumberSign ⟨.skipping outt, st⟩ ⟨.skipping outt, { st with inp }⟩ ∧
        ¬ (st.str inp ≠ 0 ∧ (isspaceGchar (st.str inp) || ispunctGchar (st.str inp)) = true) ∧
        st.inp ≤ inp := by
  intro fuel
  induction fuel with
  | zero =>
    intro st inp h
    cases h
  | succ fuel ih =>
    intro st inp h
    unfold skipWhile at h
    by_cases hgo : st.str st.inp ≠ 0 ∧
        (isspaceGchar (st.str st.inp) || ispunctGchar (st.str st.inp)) = true
    · rw [if_pos hgo] at h
      obtain ⟨hreach, hend, hle⟩ := @ih st.next inp h
      exact ⟨.cons (if_pos hgo) hreach, hend, Nat.le_of_succ_le hle⟩
    · rw [if_neg hgo] at h
      obtain rfl := Option.some.inj h
      exact ⟨Relation.ReflTransGen.refl, hgo, Nat.le_refl _⟩

/-- The round that leaves a look-ahead ends where the body of the `for` does. -/
theorem PuncState.next_pred {inp : Nat} (str : Nat → UInt16) (h : 0 < inp) (out : Nat)
    (adstate : AdState) :
    PuncState.next ⟨str, inp - 1, out, adstate⟩ = ⟨str, inp, out, adstate⟩ := by
  unfold PuncState.next
  rw [Nat.sub_add_cancel h]

theorem lookDigit_reaches {p : UInt16 → Bool} {fuel : Nat} (h : lookDigit p fuel st = some st') :
    PuncReaches delSpace delNumberSign ⟨.copying p st.out, st.copy⟩ ⟨.outer, st'.next⟩ := by
  unfold lookDigit at h
  obtain ⟨⟨str, inp, out⟩, hcopy, h⟩ := Option.bind_eq_some_iff.mp h
  obtain ⟨hreach, hend, hle⟩ :=
    @copyWhile_reaches delSpace delNumberSign p st.out fuel st.copy str inp out hcopy
  refine hreach.tail ?_
  obtain rfl := Option.some.inj h
  rw [PuncState.next_pred str (Nat.lt_of_lt_of_le (Nat.succ_pos st.inp) hle)]
  refine (if_neg hend).trans ?_
  cases (!isdigitGchar (str inp)) with
  | true => rfl
  | false => rfl

theorem lookAlpha_reaches {fuel : Nat} (h : lookAlpha fuel st = some st') :
    PuncReaches delSpace delNumberSign ⟨.skipping st.out, st.copy⟩ ⟨.outer, st'.next⟩ := by
  unfold lookAlpha at h
  obtain ⟨inp, hskip, h⟩ := Option.bind_eq_some_iff.mp h
  obtain ⟨hreach, hend, hle⟩ :=
    @skipWhile_reaches delSpace delNumberSign st.out fuel st.copy inp hskip
  refine hreach.tail ?_
  obtain rfl := Option.some.inj h
  rw [PuncState.next_pred _ (Nat.lt_of_lt_of_le (Nat.succ_pos st.inp) hle)]
  refine (if_neg hend).trans ?_
  change _ = some (PuncPoint.mk .outer
    ⟨st.copy.str, inp, if !isalphaGchar (st.copy.str inp) then st.out else st.out + 1, st.adstate⟩)
  dsimp only
  cases (!isalphaGchar (st.copy.str inp)) with
  | true => rfl
  | false => rfl

theorem puncRound_reaches {fuel : Nat} (hne : st.str st.inp ≠ 0)
    (h : puncRound delSpace delNumberSign fuel st = some st') :
    PuncReaches delSpace delNumberSign ⟨.outer, st⟩ ⟨.outer, st'.next⟩ := by
  unfold puncRound at h
  have hstep : puncStep delSpace delNumberSign ⟨.outer, st⟩ = _ := if_neg hne
  dsimp only at h hstep
  split at h
  · rename_i hdigit
    rw [if_pos hdigit] at hstep
    obtain rfl := Option.some.inj h
    exact .single hstep
  rename_i hdigit
  rw [if_neg hdigit] at hstep
  split at h
  · rename_i halpha
    rw [if_pos halpha] at hstep
    obtain rfl := Option.some.inj h
    exact .single hstep
  rename_i halpha
  rw [if_neg halpha] at hstep
  split at h
  · rename_i hpunct
    rw [if_pos hpunct] at hstep
    split at h
    · rename_i hst
      rw [if_pos hst] at hstep
      exact .cons hstep (lookDigit_reaches h)
    · rename_i hst
      rw [if_neg hst] at hstep
      obtain rfl := Option.some.inj h
      exact .single hstep
  rename_i hpunct
  rw [if_neg hpunct] at hstep
  split at h
  · rename_i hspace
    rw [if_pos hspace] at hstep
    split at h
    · rename_i hst
      rw [if_pos hst] at hstep
      exact .cons hstep (lookAlpha_reaches h)
    rename_i hst
    rw [if_neg hst] at hstep
    split at h
    · rename_i hst
      rw [if_pos hst] at hstep
      exact .cons hstep (lookDigit_reaches h)
    · rename_i hst
      rw [if_neg hst] at hstep
      obtain rfl := Option.some.inj h
      exact .single hstep
  · rename_i hspace
    rw [if_neg hspace] at hstep
    obtain rfl := Option.some.inj h
    exact .single hstep

/-- The rounds come to where the loop ends. -/
theorem puncLoop_reaches : ∀ {fuel : Nat} {st : PuncState},
    puncLoop delSpace delNumberSign fuel st = some st' →
      PuncReaches delSpace delNumberSign ⟨.outer, st⟩ ⟨.outer, st'⟩ ∧
        puncStep delSpace delNumberSign ⟨.outer, st'⟩ = none := by
  intro fuel
  induction fuel with
  | zero =>
    intro st h
    cases h
  | succ fuel ih =>
    intro st h
    unfold puncLoop at h
    by_cases hzero : st.str st.inp = 0
    · rw [if_pos hzero] at h
      obtain rfl := Option.some.inj h
      exact ⟨Relation.ReflTransGen.refl, if_pos hzero⟩
    · rw [if_neg hzero] at h
      obtain ⟨mid, hround, h⟩ := Option.bind_eq_some_iff.mp h
      obtain ⟨hreach, hend⟩ := ih h
      exact ⟨(puncRound_reaches hzero hround).trans hreach, hend⟩

/-! ### Where they write -/

/-- Where a look-ahead goes back to. -/
def PuncLoop.back : PuncLoop → Nat
  | .outer => 0
  | .copying _ outt => outt
  | .skipping outt => outt

/-- The next write is at or before the next read, and so is one behind a look-ahead
that goes back. -/
def PuncPoint.Behind (pt : PuncPoint) : Prop :=
  pt.st.out ≤ pt.st.inp ∧ pt.loop.back ≤ pt.st.inp

theorem PuncPoint.Behind.outer (h : st.out ≤ st.inp) : PuncPoint.Behind ⟨.outer, st⟩ :=
  ⟨h, Nat.zero_le st.inp⟩

theorem puncStep_outer_behind (hbehind : st.out ≤ st.inp)
    (h : puncStep delSpace delNumberSign ⟨.outer, st⟩ = some b) : b.Behind := by
  have hput : st.out + 1 ≤ st.inp + 1 := Nat.succ_le_succ hbehind
  have hnext : st.out ≤ st.inp + 1 := Nat.le_succ_of_le hbehind
  unfold puncStep at h
  dsimp only at h
  split at h
  · cases h
  split at h
  · obtain rfl := Option.some.inj h
    exact .outer hput
  split at h
  · obtain rfl := Option.some.inj h
    exact .outer hput
  split at h
  · split at h
    · obtain rfl := Option.some.inj h
      exact ⟨hput, hnext⟩
    · obtain rfl := Option.some.inj h
      exact .outer hnext
  split at h
  · split at h
    · obtain rfl := Option.some.inj h
      exact ⟨hput, hnext⟩
    split at h
    · obtain rfl := Option.some.inj h
      exact ⟨hput, hnext⟩
    · obtain rfl := Option.some.inj h
      exact .outer hnext
  · obtain rfl := Option.some.inj h
    exact .outer hput

theorem puncStep_behind (hbehind : a.Behind) (h : puncStep delSpace delNumberSign a = some b) :
    b.Behind := by
  obtain ⟨loop, st⟩ := a
  obtain ⟨hout, hback⟩ := hbehind
  cases loop with
  | outer => exact puncStep_outer_behind hout h
  | copying p outt =>
    rw [puncStep] at h
    split at h
    · obtain rfl := Option.some.inj h
      exact ⟨Nat.succ_le_succ hout, Nat.le_succ_of_le hback⟩
    split at h
    · obtain rfl := Option.some.inj h
      exact .outer hback
    · obtain rfl := Option.some.inj h
      exact .outer hout
  | skipping outt =>
    rw [puncStep] at h
    split at h
    · obtain rfl := Option.some.inj h
      exact ⟨Nat.le_succ_of_le hout, Nat.le_succ_of_le hback⟩
    split at h
    · obtain rfl := Option.some.inj h
      exact .outer hback
    · obtain rfl := Option.some.inj h
      exact .outer hout

theorem PuncReaches.behind (hreach : PuncReaches delSpace delNumberSign a b) (h : a.Behind) :
    b.Behind := by
  induction hreach with
  | refl => exact h
  | tail _ hstep ih => exact puncStep_behind ih hstep

end

/-! ## Twice -/

/-- **The function is idempotent and never overtakes its input.** A second call finds the
string as the first has left it, and no round of a loop writes behind what it reads. -/
theorem puncNormalizeGchar_twice (delSpace delNumberSign : Bool) (str : Nat → UInt16)
    (s : List UInt16) (hs : ∀ c ∈ s, c ≠ 0) (hstr : Holds str 0 (s ++ [0])) :
    (∀ fuel, s.length < fuel → ∃ t str',
      puncNormalizeGchar delSpace delNumberSign fuel str = some (t.length, str') ∧
      (∀ c ∈ t, c ≠ 0) ∧ Holds str' 0 (t ++ [0]) ∧
      (∃ st, PuncReaches delSpace delNumberSign ⟨.outer, ⟨str, 0, 0, .norm⟩⟩ ⟨.outer, st⟩ ∧
        puncStep delSpace delNumberSign ⟨.outer, st⟩ = none ∧
        puncLoop delSpace delNumberSign fuel ⟨str, 0, 0, .norm⟩ = some st) ∧
      ∀ fuel', t.length < fuel' → ∃ str'',
        puncNormalizeGchar delSpace delNumberSign fuel' str' = some (t.length, str'') ∧
        Holds str'' 0 (t ++ [0])) ∧
    ∀ pt, PuncReaches delSpace delNumberSign ⟨.outer, ⟨str, 0, 0, .norm⟩⟩ pt →
      pt.st.out ≤ pt.st.inp := by
  refine ⟨?_, ?_⟩
  · intro fuel hfuel
    obtain ⟨st, hloop, -⟩ :=
      puncLoop_reading fuel (Reading.init delSpace delNumberSign hs hstr) hfuel
    obtain ⟨hreach, hend⟩ := puncLoop_reaches hloop
    obtain ⟨len, str', hrun, hnil, hcons⟩ :=
      puncNormalizeGchar_rule delSpace delNumberSign str s hs hstr fuel hfuel
    by_cases hempty : normalized delSpace delNumberSign none s = []
    · obtain ⟨rfl, rfl⟩ := hnil hempty
      refine ⟨s, str', hrun, hs, hstr, ⟨st, hreach, hend, hloop⟩, ?_⟩
      intro fuel' hfuel'
      obtain ⟨len, str'', hrun', hnil', -⟩ :=
        puncNormalizeGchar_rule delSpace delNumberSign str' s hs hstr fuel' hfuel'
      obtain ⟨rfl, rfl⟩ := hnil' hempty
      exact ⟨str'', hrun', hstr⟩
    · obtain ⟨rfl, hholds, -⟩ := hcons hempty
      have ht : ∀ c ∈ normalized delSpace delNumberSign none s, c ≠ 0 := by
        intro c hc
        exact hs c (mem_of_mem_normalized none s c hc)
      refine ⟨_, str', hrun, ht, hholds, ⟨st, hreach, hend, hloop⟩, ?_⟩
      intro fuel' hfuel'
      obtain ⟨len, str'', hrun', -, hcons'⟩ :=
        puncNormalizeGchar_rule delSpace delNumberSign str' _ ht hholds fuel' hfuel'
      rw [normalized_normalized] at hcons'
      obtain ⟨rfl, hholds', -⟩ := hcons' hempty
      exact ⟨str'', hrun', hholds'⟩
  · intro pt hpt
    exact (hpt.behind (.outer (Nat.le_refl 0))).1

/-- Digits around a comma, and a full stop in front of two letters with a space between them. -/
theorem puncNormalizeGchar_twice_mixed : ∃ t str',
    puncNormalizeGchar true true 10 (fun i =>
      ([0xb1a3, 44195, 0xb2a3, 41889, 0xe1a3, 0xa1a1, 41379, 0xe2a3, 0] : List UInt16)[i]?.getD 0)
      = some (t.length, str') ∧
    ∀ fuel', t.length < fuel' → ∃ str'',
      puncNormalizeGchar true true fuel' str' = some (t.length, str'') ∧
        Holds str'' 0 (t ++ [0]) := by
  obtain ⟨hagain, -⟩ := puncNormalizeGchar_twice true true (fun i =>
      ([0xb1a3, 44195, 0xb2a3, 41889, 0xe1a3, 0xa1a1, 41379, 0xe2a3, 0] : List UInt16)[i]?.getD 0)
    [0xb1a3, 44195, 0xb2a3, 41889, 0xe1a3, 0xa1a1, 41379, 0xe2a3] (by simp) (by
      intro k c h
      rw [Nat.zero_add]
      exact congrArg (Option.getD · 0) h)
  obtain ⟨t, str', hrun, -, -, -, htwice⟩ := hagain 10 (by decide)
  exact ⟨t, str', hrun, htwice⟩

end CommonTools.QueryMatch
