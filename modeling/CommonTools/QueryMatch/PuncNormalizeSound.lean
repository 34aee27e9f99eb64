import CommonTools.QueryMatch.PuncNormalize

/-! # The loop follows the rule

The loop decides about a run where it can: at its end, at its first space behind a
letter, at its first character behind a digit. `pending` is what it still has to
write for a run that has begun. -/
namespace CommonTools.QueryMatch
open CommonTools.Lib

section
variable {delSpace delNumberSign : Bool} {prev : Option UInt16} {run s : List UInt16} {c : UInt16}

/-! ## What is pending -/

theorem kept_nil (delSpace delNumberSign : Bool) (prev next : Option UInt16) :
    kept delSpace delNumberSign prev [] next = [] := by
  unfold kept
  rw [List.find?_nil, Option.toList_none, ite_self, ite_self]

theorem kept_end (delSpace delNumberSign : Bool) (prev : Option UInt16) (run : List UInt16) :
    kept delSpace delNumberSign prev run none = [] := by
  unfold kept
  rw [Option.any_none, Option.any_none, Bool.and_false, Bool.and_false]
  rfl

/-- What follows `run`, the part of a run that was read behind `prev`. -/
def pending (delSpace delNumberSign : Bool) (prev : Option UInt16) (run s : List UInt16) :
    List UInt16 :=
  kept delSpace delNumberSign prev (run ++ s.takeWhile (inRun delSpace))
    (s.dropWhile (inRun delSpace)).head? ++
  normalized delSpace delNumberSign none (s.dropWhile (inRun delSpace))

theorem normalized_cons_other (h : inRun delSpace c = false) (prev : Option UInt16) :
    normalized delSpace delNumberSign prev (c :: s) =
      c :: normalized delSpace delNumberSign (some c) s := by
  rw [normalized, if_neg (by rw [h]; decide)]

/-- Behind a whole run it does not matter what stood there. -/
theorem normalized_dropWhile (prev prev' : Option UInt16) (s : List UInt16) :
    normalized delSpace delNumberSign prev (s.dropWhile (inRun delSpace)) =
      normalized delSpace delNumberSign prev' (s.dropWhile (inRun delSpace)) := by
  cases hrest : s.dropWhile (inRun delSpace) with
  | nil => rw [normalized, normalized]
  | cons c rest =>
    have hc := List.head?_dropWhile_not (inRun delSpace) s
    rw [hrest] at hc
    rw [normalized_cons_other hc, normalized_cons_other hc]

theorem pending_nil (prev : Option UInt16) (s : List UInt16) :
    pending delSpace delNumberSign prev [] s = normalized delSpace delNumberSign prev s := by
  unfold pending
  cases s with
  | nil =>
    rw [List.takeWhile_nil, List.dropWhile_nil, List.nil_append, kept_nil, List.nil_append,
      normalized, normalized]
  | cons c s =>
    cases h : inRun delSpace c with
    | true =>
      rw [List.takeWhile_cons_of_pos h, List.dropWhile_cons_of_pos h, List.nil_append,
        normalized, if_pos h]
      simp only []
      rw [normalized_dropWhile none]
    | false =>
      have hnot : ¬ inRun delSpace c = true := by rw [h]; decide
      rw [List.takeWhile_cons_of_neg hnot, List.dropWhile_cons_of_neg hnot, List.nil_append,
        kept_nil, List.nil_append, normalized_cons_other h, normalized_cons_other h]

theorem pending_cons_run (h : inRun delSpace c = true) :
    pending delSpace delNumberSign prev run (c :: s) =
      pending delSpace delNumberSign prev (run ++ [c]) s := by
  unfold pending
  rw [List.takeWhile_cons_of_pos h, List.dropWhile_cons_of_pos h, List.append_assoc,
    List.singleton_append]

theorem pending_cons_other (h : inRun delSpace c = false) :
    pending delSpace delNumberSign prev run (c :: s) =
      kept delSpace delNumberSign prev run (some c) ++
        c :: pending delSpace delNumberSign (some c) [] s := by
  have hnot : ¬ inRun delSpace c = true := by rw [h]; decide
  rw [pending_nil]
  unfold pending
  rw [List.takeWhile_cons_of_neg hnot, List.dropWhile_cons_of_neg hnot, List.append_nil,
    normalized_cons_other h]
  rfl

theorem pending_whole :
    pending delSpace delNumberSign prev run s =
      kept delSpace delNumberSign prev (run ++ s.takeWhile (inRun delSpace))
        (s.dropWhile (inRun delSpace)).head? ++
      pending delSpace delNumberSign prev [] (s.dropWhile (inRun delSpace)) := by
  rw [pending_nil, normalized_dropWhile prev none]
  rfl

theorem pending_end : pending delSpace delNumberSign prev run [] = [] := by
  unfold pending
  rw [List.dropWhile_nil, List.head?_nil, kept_end, normalized, List.append_nil]

/-! ## What the state says -/

def stateOf (delNumberSign : Bool) (prev : Option UInt16) : AdState :=
  if prev.any isdigitGchar then .digit
  else if prev.any (isalphaOrSign delNumberSign) then .alpha
  else .norm

theorem isspaceGchar_of_ispunct {c : UInt16} (h : ispunctGchar c = true) :
    isspaceGchar c = false := by
  have hall : puncts.all (fun c => isspaceGchar c == false) = true := by decide
  rw [ispunctGchar, List.contains_iff_mem] at h
  exact beq_iff_eq.mp (List.all_eq_true.mp hall c h)

theorem stateOf_cases (delNumberSign : Bool) (prev : Option UInt16) :
    (stateOf delNumberSign prev = .digit ∧ prev.any isdigitGchar = true ∧
        prev.any (isalphaOrSign delNumberSign) = false) ∨
      (stateOf delNumberSign prev = .alpha ∧ prev.any isdigitGchar = false ∧
        prev.any (isalphaOrSign delNumberSign) = true) ∨
      (stateOf delNumberSign prev = .norm ∧ prev.any isdigitGchar = false ∧
        prev.any (isalphaOrSign delNumberSign) = false) := by
  unfold stateOf
  cases hdigit : prev.any isdigitGchar with
  | true =>
    refine .inl ⟨rfl, rfl, ?_⟩
    obtain ⟨c, rfl, hc⟩ := (Option.any_eq_true _ _).mp hdigit
    exact isdigitGchar_apart hc delNumberSign
  | false =>
    cases halpha : prev.any (isalphaOrSign delNumberSign) with
    | true => exact .inr (.inl ⟨rfl, rfl, rfl⟩)
    | false => exact .inr (.inr ⟨rfl, rfl, rfl⟩)

theorem kept_norm (h : stateOf delNumberSign prev = .norm) (next : Option UInt16) :
    kept delSpace delNumberSign prev run next = [] := by
  rcases stateOf_cases delNumberSign prev with ⟨hst, -⟩ | ⟨hst, -⟩ | ⟨-, hdigit, halpha⟩
  · rw [hst] at h
    cases h
  · rw [hst] at h
    cases h
  · unfold kept
    rw [hdigit, halpha, Bool.and_false]
    rfl

theorem kept_alpha (h : stateOf delNumberSign prev = .alpha) (next : Option UInt16) :
    kept delSpace delNumberSign prev run next =
      if delSpace && next.any isalphaGchar then (run.find? isspaceGchar).toList else [] := by
  rcases stateOf_cases delNumberSign prev with ⟨hst, -⟩ | ⟨-, hdigit, halpha⟩ | ⟨hst, -⟩
  · rw [hst] at h
    cases h
  · unfold kept
    rw [hdigit, halpha, Bool.and_true]
    rfl
  · rw [hst] at h
    cases h

theorem kept_digit (h : stateOf delNumberSign prev = .digit) (next : Option UInt16) :
    kept delSpace delNumberSign prev run next = if next.any isdigitGchar then run else [] := by
  rcases stateOf_cases delNumberSign prev with ⟨-, hdigit, halpha⟩ | ⟨hst, -⟩ | ⟨hst, -⟩
  · unfold kept
    rw [hdigit, halpha, Bool.and_false]
    rfl
  · rw [hst] at h
    cases h
  · rw [hst] at h
    cases h

end

/-! ## One round -/

/-- The loop has written `W`; behind `prev` it has read `run`, and `s` is left. -/
structure Reading (delSpace delNumberSign : Bool) (str : Nat → UInt16) (len : Nat)
    (goal : List UInt16) (st : PuncState) (prev : Option UInt16) (run s W : List UInt16) :
    Prop where
  rewriting : Rewriting str st.str st.inp W
  out : st.out = W.length
  rest : Holds str st.inp (s ++ [0])
  nonzero : ∀ c ∈ s, c ≠ 0
  length : st.inp + s.length = len
  goal : goal = W ++ pending delSpace delNumberSign prev run s
  state : st.adstate = stateOf delNumberSign prev
  alpha : st.adstate = .alpha → run.find? isspaceGchar = none
  digit : st.adstate = .digit → run = []
  untouched : W = [] → st.str = str ∧ st.adstate = .norm

/-- `++in`. -/
def PuncState.next (st : PuncState) : PuncState := { st with inp := st.inp + 1 }

section
variable {delSpace delNumberSign : Bool} {str : Nat → UInt16} {len : Nat} {goal : List UInt16}
  {st : PuncState} {prev : Option UInt16} {run s W : List UInt16} {c : UInt16}

theorem Reading.at_inp (h : Reading delSpace delNumberSign str len goal st prev run (c :: s) W) :
    st.str st.inp = c :=
  (h.rewriting.ahead st.inp (Nat.le_refl _)).trans h.rest.head

theorem Reading.length_tail
    (h : Reading delSpace delNumberSign str len goal st prev run (c :: s) W) :
    st.inp + 1 + s.length = len := by
  rw [← h.length, List.length_cons]
  exact Nat.add_right_comm st.inp 1 s.length

/-- What is pending of a run that ends here is nothing. -/
theorem Reading.kept_run (h : Reading delSpace delNumberSign str len goal st prev run s W)
    (next : Option UInt16) : kept delSpace delNumberSign prev run next = [] := by
  rcases stateOf_cases delNumberSign prev with ⟨hst, -⟩ | ⟨hst, -⟩ | ⟨hst, -⟩
  · rw [h.digit (h.state.trans hst), kept_nil]
  · rw [kept_alpha hst, h.alpha (h.state.trans hst), Option.toList_none, ite_self]
  · rw [kept_norm hst]

theorem Reading.put (h : Reading delSpace delNumberSign str len goal st prev run (c :: s) W)
    (hc : inRun delSpace c = false) :
    Reading delSpace delNumberSign str len goal (st.put (stateOf delNumberSign (some c))).next
      (some c) [] s (W ++ [c]) where
  rewriting := by
    have hemit := h.rewriting.emit h.rest.head
    rw [← h.out] at hemit
    exact hemit
  out := by
    rw [List.length_append, List.length_singleton, ← h.out]
    rfl
  rest := h.rest.tail
  nonzero d hd := h.nonzero d (List.mem_cons_of_mem c hd)
  length := h.length_tail
  goal := by
    rw [h.goal, pending_cons_other hc, h.kept_run, List.nil_append, List.append_assoc,
      List.singleton_append]
  state := rfl
  alpha _ := rfl
  digit _ := rfl
  untouched hW := absurd hW (List.append_ne_nil_of_right_ne_nil W (List.cons_ne_nil c []))

/-- A character of a run that is passed over. -/
theorem Reading.skip (h : Reading delSpace delNumberSign str len goal st prev run (c :: s) W)
    (hc : inRun delSpace c = true) (halpha : st.adstate = .alpha → isspaceGchar c = false)
    (hdigit : st.adstate ≠ .digit) :
    Reading delSpace delNumberSign str len goal st.next prev (run ++ [c]) s W where
  rewriting := h.rewriting.pass 1
  out := h.out
  rest := h.rest.tail
  nonzero d hd := h.nonzero d (List.mem_cons_of_mem c hd)
  length := h.length_tail
  goal := by rw [h.goal, pending_cons_run hc]
  state := h.state
  alpha hst := by
    rw [List.find?_append, h.alpha hst, Option.none_or, List.find?_singleton, halpha hst]
    rfl
  digit hst := absurd hst hdigit
  untouched := h.untouched

/-! ## The look-aheads -/

/-- What the class of the next character is, when the terminator is not in it. -/
theorem head_any {q : UInt16 → Bool} (hq : q 0 = false) {m : Nat → UInt16} {i : Nat}
    {l : List UInt16} (h : Holds m i (l ++ [0])) : q (m i) = l.head?.any q := by
  cases l with
  | nil => rw [h.head, hq, List.head?_nil, Option.any_none]
  | cons c l => rw [h.head, List.head?_cons, Option.any_some]

theorem Reading.behind (h : Reading delSpace delNumberSign str len goal st prev run (c :: s) W)
    (p : UInt16 → Bool) : Holds str (st.inp + 1 + (s.takeWhile p).length) (s.dropWhile p ++ [0]) := by
  have hrest : Holds str (st.inp + 1) (s ++ [0]) := h.rest.tail
  rw [← List.takeWhile_append_dropWhile (p := p) (l := s), List.append_assoc] at hrest
  exact hrest.drop

/-- The loop goes on behind the run with what it keeps of it. -/
theorem Reading.jump (h : Reading delSpace delNumberSign str len goal st prev run (c :: s) W)
    (hc : inRun delSpace c = true) (hst : st.adstate ≠ .norm) {m' : Nat → UInt16}
    {W' : List UInt16}
    (hW' : W' = W ++ kept delSpace delNumberSign prev
      (run ++ c :: s.takeWhile (inRun delSpace)) (s.dropWhile (inRun delSpace)).head?)
    (hm' : Rewriting str m' (st.inp + 1 + (s.takeWhile (inRun delSpace)).length) W') :
    Reading delSpace delNumberSign str len goal
      (PuncState.next { st with
        str := m', inp := st.inp + 1 + (s.takeWhile (inRun delSpace)).length - 1,
        out := W'.length })
      prev [] (s.dropWhile (inRun delSpace)) W' := by
  have hinp : st.inp + 1 + (s.takeWhile (inRun delSpace)).length - 1 + 1 =
      st.inp + 1 + (s.takeWhile (inRun delSpace)).length := by omega
  have hsplit := congrArg List.length (List.takeWhile_append_dropWhile (p := inRun delSpace) (l := s))
  rw [List.length_append] at hsplit
  refine ⟨?_, rfl, ?_, fun d hd => ?_, ?_, ?_, h.state, fun _ => rfl, fun _ => rfl, fun hnil => ?_⟩
  · unfold PuncState.next
    simp only [hinp]
    exact hm'
  · unfold PuncState.next
    simp only [hinp]
    exact h.behind _
  · exact h.nonzero d (List.mem_cons_of_mem c (List.dropWhile_subset _ hd))
  · have hlen := h.length
    rw [List.length_cons] at hlen
    show st.inp + 1 + (s.takeWhile (inRun delSpace)).length - 1 + 1 + _ = len
    omega
  · rw [h.goal, pending_cons_run hc, pending_whole, hW', List.append_assoc, List.append_assoc,
      List.singleton_append]
  · rw [hW'] at hnil
    exact absurd (h.untouched (List.append_eq_nil_iff.mp hnil).1).2 hst

theorem lookDigit_reading
    (h : Reading delSpace delNumberSign str len goal st prev run (c :: s) W)
    (hc : inRun delSpace c = true) (hst : st.adstate = .digit) {fuel : Nat}
    (hfuel : s.length < fuel) :
    ∃ st' W', lookDigit (inRun delSpace) fuel st = some st' ∧
      Reading delSpace delNumberSign str len goal st'.next prev [] (s.dropWhile (inRun delSpace))
        W' := by
  have hkept := @kept_digit delSpace delNumberSign prev (run ++ c :: s.takeWhile (inRun delSpace))
    (h.state.symm.trans hst) (s.dropWhile (inRun delSpace)).head?
  obtain ⟨m', hcopy, hm'⟩ := copyWhile_takeWhile (p := inRun delSpace) s
    (fun d hd => h.nonzero d (List.mem_cons_of_mem c hd)) h.rest.tail hfuel
    (h.rewriting.emit h.rest.head)
  have hnext := (congrArg isdigitGchar (hm'.ahead _ (Nat.le_refl _))).trans
    (head_any (by decide) (h.behind (inRun delSpace)))
  rw [List.append_assoc, List.singleton_append] at hcopy hm'
  rw [List.length_append, List.length_singleton, ← h.out] at hcopy
  rw [h.digit hst, List.nil_append] at hkept
  unfold lookDigit
  simp only [hcopy, Option.bind_eq_bind, Option.bind_some, hnext]
  cases hdigit : (s.dropWhile (inRun delSpace)).head?.any isdigitGchar with
  | true =>
    rw [hdigit, if_pos rfl] at hkept
    refine ⟨_, _, rfl, h.jump hc (by rw [hst]; decide) ?_ hm'⟩
    rw [h.digit hst, List.nil_append, hkept]
  | false =>
    rw [hdigit, if_neg Bool.false_ne_true] at hkept
    simp only [Bool.not_false, if_true, h.out]
    refine ⟨_, _, rfl, h.jump hc (by rw [hst]; decide) ?_ hm'.revert⟩
    rw [h.digit hst, List.nil_append, hkept, List.append_nil]

theorem lookAlpha_reading
    (h : Reading true delNumberSign str len goal st prev run (c :: s) W)
    (hspace : isspaceGchar c = true) (hst : st.adstate = .alpha) {fuel : Nat}
    (hfuel : s.length < fuel) :
    ∃ st' W', lookAlpha fuel st = some st' ∧
      Reading true delNumberSign str len goal st'.next prev [] (s.dropWhile (inRun true)) W' := by
  have hc : inRun true c = true := by rw [inRun, hspace, Bool.and_self, Bool.or_true]
  have hkept := @kept_alpha true delNumberSign prev (run ++ c :: s.takeWhile (inRun true))
    (h.state.symm.trans hst) (s.dropWhile (inRun true)).head?
  -- the first space of the run is the one at which the look-ahead starts
  rw [List.find?_append, h.alpha hst, Option.none_or, List.find?_cons_of_pos hspace,
    Option.toList_some, Bool.true_and] at hkept
  have hclass : (fun c => isspaceGchar c || ispunctGchar c) = inRun true := by
    funext c
    exact Bool.or_comm _ _
  have hemit := h.rewriting.emit h.rest.head
  rw [← h.out] at hemit
  have hpass := hemit.pass (s.takeWhile (inRun true)).length
  have hrest : Holds (Function.update st.str st.out (st.str st.inp)) (st.inp + 1) (s ++ [0]) :=
    h.rest.tail.congr fun k hk _ => hemit.ahead k hk
  have hskip := skipWhile_takeWhile (p := inRun true) s
    (fun d hd => h.nonzero d (List.mem_cons_of_mem c hd)) hrest hfuel
  have hnext := (congrArg isalphaGchar (hpass.ahead _ (Nat.le_refl _))).trans
    (head_any (by decide) (h.behind (inRun true)))
  unfold lookAlpha
  simp only [hclass, hskip, Option.bind_eq_bind, Option.bind_some, hnext]
  cases halpha : (s.dropWhile (inRun true)).head?.any isalphaGchar with
  | true =>
    rw [halpha, if_pos rfl] at hkept
    have hout : st.out + 1 = (W ++ [c]).length := by
      rw [List.length_append, List.length_singleton, h.out]
    simp only [Bool.not_true, Bool.false_eq_true, if_false, hout]
    refine ⟨_, _, rfl, h.jump hc (by rw [hst]; decide) ?_ hpass⟩
    rw [hkept]
  | false =>
    rw [halpha, if_neg Bool.false_ne_true] at hkept
    simp only [Bool.not_false, if_true]
    rw [h.out] at hpass ⊢
    refine ⟨_, _, rfl, h.jump hc (by rw [hst]; decide) ?_ hpass.revert⟩
    rw [hkept, List.append_nil]

/-! ## The whole loop -/

theorem puncRound_reading
    (h : Reading delSpace delNumberSign str len goal st prev run (c :: s) W) {fuel : Nat}
    (hfuel : s.length < fuel) :
    ∃ st' prev' run' s' W', puncRound delSpace delNumberSign fuel st = some st' ∧
      Reading delSpace delNumberSign str len goal st'.next prev' run' s' W' ∧
      s'.length ≤ s.length := by
  have hdrop := List.length_dropWhile_le (inRun delSpace) s
  unfold puncRound
  simp only [h.at_inp]
  cases hrun : inRun delSpace c with
  | true =>
    obtain ⟨hdigit, halpha⟩ := inRun_apart hrun delNumberSign
    rw [hdigit, halpha, if_neg Bool.false_ne_true, if_neg Bool.false_ne_true]
    cases hpunct : ispunctGchar c with
    | true =>
      rw [if_pos rfl]
      by_cases hst : st.adstate = .digit
      · obtain ⟨st', W', hlook, hread⟩ := lookDigit_reading h hrun hst hfuel
        rw [if_pos hst]
        exact ⟨st', prev, [], _, W', hlook, hread, hdrop⟩
      · rw [if_neg hst]
        exact ⟨st, prev, run ++ [c], s, W, rfl,
          h.skip hrun (fun _ => isspaceGchar_of_ispunct hpunct) hst, Nat.le_refl _⟩
    | false =>
      rw [inRun, hpunct, Bool.false_or] at hrun
      rw [if_neg Bool.false_ne_true, if_pos hrun]
      rw [Bool.and_eq_true] at hrun
      obtain ⟨rfl, hspace⟩ := hrun
      have hrun : inRun true c = true := by rw [inRun, hspace, Bool.and_self, Bool.or_true]
      cases hst : st.adstate with
      | alpha =>
        obtain ⟨st', W', hlook, hread⟩ := lookAlpha_reading h hspace hst hfuel
        exact ⟨st', prev, [], _, W', hlook, hread, hdrop⟩
      | digit =>
        obtain ⟨st', W', hlook, hread⟩ := lookDigit_reading h hrun hst hfuel
        exact ⟨st', prev, [], _, W', hlook, hread, hdrop⟩
      | norm =>
        have hskip := h.skip hrun (fun halpha => by rw [hst] at halpha; cases halpha)
          (by rw [hst]; decide)
        exact ⟨st, prev, run ++ [c], s, W, rfl, hskip, Nat.le_refl _⟩
  | false =>
    have hread := h.put hrun
    rw [inRun, Bool.or_eq_false_iff] at hrun
    rw [hrun.1, hrun.2]
    unfold stateOf at hread
    rw [Option.any_some, Option.any_some] at hread
    cases hdigit : isdigitGchar c with
    | true =>
      rw [hdigit] at hread
      exact ⟨_, _, _, _, _, rfl, hread, Nat.le_refl _⟩
    | false =>
      cases halpha : isalphaOrSign delNumberSign c with
      | true =>
        rw [hdigit, halpha] at hread
        exact ⟨_, _, _, _, _, rfl, hread, Nat.le_refl _⟩
      | false =>
        rw [hdigit, halpha] at hread
        exact ⟨_, _, _, _, _, rfl, hread, Nat.le_refl _⟩

theorem puncLoop_reading : ∀ (fuel : Nat) {st : PuncState} {prev : Option UInt16}
    {run s W : List UInt16}, Reading delSpace delNumberSign str len goal st prev run s W →
      s.length < fuel →
      ∃ st', puncLoop delSpace delNumberSign fuel st = some st' ∧ Rewriting str st'.str len goal ∧
        st'.out = goal.length ∧ st'.inp = len ∧ (goal = [] → st'.str = str)
  | 0, _, _, _, _, _, _, hfuel => absurd hfuel (Nat.not_lt_zero _)
  | fuel + 1, st, prev, run, [], W, h, _ => by
    have hgoal := h.goal
    rw [pending_end, List.append_nil] at hgoal
    subst hgoal
    have hzero : st.str st.inp = 0 :=
      (h.rewriting.ahead st.inp (Nat.le_refl _)).trans h.rest.head
    have hlen : st.inp = len := h.length
    have hm := h.rewriting
    rw [hlen] at hm
    exact ⟨st, if_pos hzero, hm, h.out, hlen, fun hnil => (h.untouched hnil).1⟩
  | fuel + 1, st, prev, run, c :: s, W, h, hfuel => by
    obtain ⟨st₁, prev', run', s', W', hround, hread, hle⟩ :=
      puncRound_reading h (Nat.lt_of_succ_lt_succ hfuel)
    obtain ⟨st', hloop, hend⟩ := puncLoop_reading fuel hread
      (Nat.lt_of_le_of_lt hle (Nat.lt_of_succ_lt_succ hfuel))
    refine ⟨st', ?_, hend⟩
    have hne : ¬ st.str st.inp = 0 := by
      rw [h.at_inp]
      exact h.nonzero c List.mem_cons_self
    unfold puncLoop
    rw [if_neg hne, hround]
    exact hloop

end

theorem Reading.init (delSpace delNumberSign : Bool) {str : Nat → UInt16} {s : List UInt16}
    (hs : ∀ c ∈ s, c ≠ 0) (hstr : Holds str 0 (s ++ [0])) :
    Reading delSpace delNumberSign str s.length (normalized delSpace delNumberSign none s)
      ⟨str, 0, 0, .norm⟩ none [] s [] where
  rewriting := Rewriting.init str
  out := rfl
  rest := hstr
  nonzero := hs
  length := Nat.zero_add _
  goal := (pending_nil none s).symm
  state := rfl
  alpha _ := rfl
  digit _ := rfl
  untouched _ := ⟨rfl, rfl⟩

/-- **The function follows the rule on every string.** -/
theorem puncNormalizeGchar_rule (delSpace delNumberSign : Bool) (str : Nat → UInt16)
    (s : List UInt16) (hs : ∀ c ∈ s, c ≠ 0) (hstr : Holds str 0 (s ++ [0])) (fuel : Nat)
    (hfuel : s.length < fuel) :
    ∃ len str', puncNormalizeGchar delSpace delNumberSign fuel str = some (len, str') ∧
      (normalized delSpace delNumberSign none s = [] → len = s.length ∧ str' = str) ∧
      (normalized delSpace delNumberSign none s ≠ [] →
        len = (normalized delSpace delNumberSign none s).length ∧
        Holds str' 0 (normalized delSpace delNumberSign none s ++ [0]) ∧
        ∀ i, s.length < i → str' i = str i) := by
  obtain ⟨st, hloop, hm, hout, hinp, hsame⟩ :=
    puncLoop_reading fuel (Reading.init delSpace delNumberSign hs hstr) hfuel
  unfold puncNormalizeGchar
  rw [hloop]
  by_cases hnil : normalized delSpace delNumberSign none s = []
  · have hzero : ¬ st.out ≠ 0 := not_not.mpr (by rw [hout, hnil]; rfl)
    refine ⟨s.length, str, ?_, fun _ => ⟨rfl, rfl⟩, fun hne => absurd hnil hne⟩
    rw [Option.bind_eq_bind, Option.bind_some, if_neg hzero, hinp, hsame hnil]
  · have hpos : st.out ≠ 0 := by
      rw [hout]
      exact Nat.ne_of_gt (List.length_pos_iff.mpr hnil)
    have hbehind := hm.behind
    refine ⟨st.out, Function.update st.str st.out 0, if_pos hpos, fun h => absurd h hnil,
      fun _ => ⟨hout, ?_, fun i hi => ?_⟩⟩
    · refine Holds.concat (hm.written.congr fun k _ hk => ?_) ?_
      · refine Function.update_of_ne ?_ _ _
        omega
      · rw [Nat.zero_add, ← hout, Function.update_self]
    · rw [Function.update_of_ne (by omega), hm.ahead i (by omega)]

/-- A comma between digits stays, a full stop goes, and so does what follows the space
between two letters. -/
theorem puncNormalizeGchar_mixed :
    ∃ len str', puncNormalizeGchar true true 10 (fun i =>
        ([0xb1a3, 44195, 0xb2a3, 41889, 0xe1a3, 0xa1a1, 41379, 0xe2a3, 0] : List UInt16)[i]?.getD 0)
        = some (len, str') ∧ len = 6 ∧
      Holds str' 0 [0xb1a3, 44195, 0xb2a3, 0xe1a3, 0xa1a1, 0xe2a3, 0] := by
  obtain ⟨len, str', hrun, -, hne⟩ := puncNormalizeGchar_rule true true (fun i =>
      ([0xb1a3, 44195, 0xb2a3, 41889, 0xe1a3, 0xa1a1, 41379, 0xe2a3, 0] : List UInt16)[i]?.getD 0)
    [0xb1a3, 44195, 0xb2a3, 41889, 0xe1a3, 0xa1a1, 41379, 0xe2a3] (by simp)
    (fun k c h => by
      rw [Nat.zero_add]
      exact (congrArg (Option.getD · 0) h)) 10 (by decide)
  have hrule : normalized true true none
      [0xb1a3, 44195, 0xb2a3, 41889, 0xe1a3, 0xa1a1, 41379, 0xe2a3] =
      [0xb1a3, 44195, 0xb2a3, 0xe1a3, 0xa1a1, 0xe2a3] := by
    simp +decide [normalized, inRun, kept, ispunctGchar, puncts, isspaceGchar]
  rw [hrule] at hne
  obtain ⟨hlen, hholds, -⟩ := hne (List.cons_ne_nil _ _)
  exact ⟨len, str', hrun, hlen, hholds⟩

end CommonTools.QueryMatch
