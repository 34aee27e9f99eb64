import CommonTools.Lib.Placement
import CommonTools.QueryMatch.ComRuleSound

/-! # Selecting rules

`docRulesSelect` looks through the rules of a tag for those that a row of tagged
words fits: a segment of the rule is matched by the next word, or is left out.
-/
namespace CommonTools.QueryMatch
open CommonTools.Lib

/-! ## `docRulesSelect` -/

/-- `_key`. -/
def keySuffix : Bytes := [95, 107, 101, 121]

/-- `*`. -/
def star : Bytes := [42]

def isShow (seg : Bytes) : Bool := (find showMark seg).isSome

def isStar (seg : Bytes) : Bool := seg == star

/-- The rounds of the loop for `i > 0`, on what is left of `ruleTrueVec` behind
`i` and of the other two behind `j`. The outer `none` is an access behind the end
of `patQueryVec`, the inner one a rule that does not fit. -/
def selectRest : List Bytes → List Bytes → List Bytes → Bytes → Bytes →
    Option (Option (Bytes × Bytes))
  | [], ruleTagVec, _, ruleTagTmp, patQueryTmp =>
    some (if ruleTagVec = [] then some (ruleTagTmp, patQueryTmp) else none)
  | seg :: ruleTrueVec, ruleTagVec, patQueryVec, ruleTagTmp, patQueryTmp =>
    if ruleTagVec.head? = some seg then do
      let pat ← patQueryVec.head?
      selectRest ruleTrueVec ruleTagVec.tail patQueryVec.tail (ruleTagTmp ++ [bar] ++ seg)
        (patQueryTmp ++ [bar] ++ pat)
    else if ruleTagVec = [] ∧ (isShow seg = true ∨ isStar seg = true) then
      selectRest ruleTrueVec ruleTagVec patQueryVec (ruleTagTmp ++ [bar] ++ seg)
        (patQueryTmp ++ [bar])
    else if isShow seg = true then
      selectRest ruleTrueVec ruleTagVec patQueryVec (ruleTagTmp ++ [bar] ++ seg)
        (patQueryTmp ++ [bar])
    else some none

/-- The whole loop; the first segment comes without a `|` in front. -/
def selectRule (ruleTrueVec ruleTagVec patQueryVec : List Bytes) :
    Option (Option (Bytes × Bytes)) :=
  match ruleTrueVec with
  | [] => selectRest [] ruleTagVec patQueryVec [] []
  | seg :: ruleTrueVec =>
    if ruleTagVec.head? = some seg then do
      let pat ← patQueryVec.head?
      selectRest ruleTrueVec ruleTagVec.tail patQueryVec.tail seg pat
    else if isShow seg = true then selectRest ruleTrueVec ruleTagVec patQueryVec seg []
    else some none

/-- The loop over the rules, for one of them. -/
def selectInto (ruleSplit querySplit : Bytes) (selectResult : ComRuleMap) (ruleTrue : Bytes) :
    Option ComRuleMap := do
  match ← selectRule (ruleTrue.splitOn bar) (ruleSplit.splitOn bar) (querySplit.splitOn bar) with
  | none => some selectResult
  | some (ruleTagTmp, patQueryTmp) =>
    some (Function.update selectResult ruleTagTmp (some patQueryTmp))

def docRulesSelect (keyMapRule : Bytes → Option (List Bytes)) (ruleSplit querySplit keyTag : Bytes)
    (selectResult : ComRuleMap) : Option ComRuleMap :=
  match keyMapRule (keyTag ++ keySuffix) with
  | none => some selectResult
  | some ruleVec => ruleVec.foldlM (selectInto ruleSplit querySplit) selectResult

/-! ## The loop and the greedy placement -/

/-- A segment with `_show_` may be left out anywhere, a `*` behind the last word. -/
abbrev Fits := @Places Bytes Bytes isShow isStar

/-- The text of each segment, empty for one that was left out. -/
def textsOf (marks : List (Bytes × Option Bytes)) : List Bytes := marks.map fun e => e.2.getD []

/-- The parts with `|` in front of each. -/
def barred (parts : List Bytes) : Bytes := parts.flatMap ([bar] ++ ·)

@[simp] theorem barred_nil : barred [] = [] := rfl

theorem barred_cons (x : Bytes) (l : List Bytes) : barred (x :: l) = [bar] ++ x ++ barred l := rfl

theorem joined_eq_barred : ∀ (x : Bytes) (l : List Bytes), joined (x :: l) = x ++ barred l
  | x, [] => by simp [joined]
  | x, y :: l => by rw [joined_cons, joined_eq_barred y l, barred_cons, List.append_assoc,
      List.append_assoc]

/-- The loop is the greedy placement, and appends to the rows as it goes. -/
theorem selectRest_eq : ∀ (ruleTrueVec ruleTagVec patQueryVec : List Bytes) (rt pq : Bytes),
    ruleTagVec.length = patQueryVec.length →
      selectRest ruleTrueVec ruleTagVec patQueryVec rt pq =
        some ((greedy isShow isStar ruleTrueVec (ruleTagVec.zip patQueryVec)).map fun marks =>
          (rt ++ barred ruleTrueVec, pq ++ barred (textsOf marks)))
  | [], [], patQueryVec, rt, pq, _ => by simp [selectRest, greedy, textsOf]
  | [], tag :: ruleTagVec, pat :: patQueryVec, rt, pq, _ => by simp [selectRest, greedy]
  | seg :: rule, [], patQueryVec, rt, pq, hlen => by
    have hrec := selectRest_eq rule [] patQueryVec (rt ++ [bar] ++ seg) (pq ++ [bar]) hlen
    rw [selectRest, List.zip_nil_left, greedy, if_neg (by simp)]
    rw [List.zip_nil_left] at hrec
    by_cases hleave : isShow seg = true ∨ isStar seg = true
    · rw [if_pos ⟨rfl, hleave⟩, if_pos hleave, hrec, Option.map_map]
      simp [Function.comp_def, textsOf, barred_cons]
    · rw [if_neg fun h => hleave h.2, if_neg fun h => hleave (.inl h), if_neg hleave]
      rfl
  | seg :: rule, tag :: ruleTagVec, pat :: patQueryVec, rt, pq, hlen => by
    rw [selectRest, List.zip_cons_cons, greedy]
    by_cases hmatch : seg = tag
    · have hrec := selectRest_eq rule ruleTagVec patQueryVec (rt ++ [bar] ++ seg)
        (pq ++ [bar] ++ pat) (Nat.succ.inj hlen)
      rw [if_pos (by rw [hmatch]; rfl), if_pos hmatch, Option.map_map]
      simp only [List.head?_cons, Option.bind_eq_bind, Option.bind_some, List.tail_cons, hrec]
      simp [Function.comp_def, textsOf, barred_cons]
    · have hrec := selectRest_eq rule (tag :: ruleTagVec) (pat :: patQueryVec) (rt ++ [bar] ++ seg)
        (pq ++ [bar]) hlen
      rw [if_neg (by simpa using Ne.symm hmatch), if_neg hmatch, if_neg (by simp)]
      by_cases hshow : isShow seg = true
      · rw [if_pos hshow, if_pos hshow, hrec, Option.map_map]
        simp [Function.comp_def, textsOf, barred_cons]
      · rw [if_neg hshow, if_neg hshow]
        rfl

/-- The whole loop, on a row that is not empty. -/
theorem selectRule_eq {ruleTrueVec ruleTagVec patQueryVec : List Bytes} (hrule : ruleTrueVec ≠ [])
    (htags : ruleTagVec ≠ []) (hlen : ruleTagVec.length = patQueryVec.length) :
    selectRule ruleTrueVec ruleTagVec patQueryVec =
      some ((greedy isShow isStar ruleTrueVec (ruleTagVec.zip patQueryVec)).map fun marks =>
        (joined ruleTrueVec, joined (textsOf marks))) := by
  obtain ⟨seg, rule, rfl⟩ := List.exists_cons_of_ne_nil hrule
  obtain ⟨tag, tags, rfl⟩ := List.exists_cons_of_ne_nil htags
  cases patQueryVec with
  | nil => cases hlen
  | cons pat pats =>
    rw [selectRule, List.zip_cons_cons, greedy]
    dsimp only
    by_cases hmatch : seg = tag
    · have hrec := selectRest_eq rule tags pats seg pat (Nat.succ.inj hlen)
      rw [if_pos (by rw [hmatch]; rfl), if_pos hmatch, Option.map_map]
      simp only [List.head?_cons, Option.bind_eq_bind, Option.bind_some, List.tail_cons, hrec]
      simp [Function.comp_def, textsOf, joined_eq_barred]
    · have hrec := selectRest_eq rule (tag :: tags) (pat :: pats) seg [] hlen
      rw [if_neg (by simpa using Ne.symm hmatch), if_neg hmatch]
      by_cases hshow : isShow seg = true
      · rw [if_pos hshow, if_pos hshow, hrec, Option.map_map]
        simp [Function.comp_def, textsOf, joined_eq_barred]
      · rw [if_neg hshow, if_neg hshow]
        rfl

/-! ## What is selected -/

/-- `marks` lays the row of `ruleSplit`, with the texts of `querySplit`, on the
segments of the rule. -/
def FitsRule (ruleSplit querySplit rule : Bytes) (marks : List (Bytes × Option Bytes)) : Prop :=
  Fits (rule.splitOn bar) ((ruleSplit.splitOn bar).zip (querySplit.splitOn bar)) marks

/-- The entry of a rule: the rule as it stands, with the texts of a placement. -/
theorem selectRule_spec {ruleSplit querySplit : Bytes}
    (hlen : (ruleSplit.splitOn bar).length = (querySplit.splitOn bar).length) (rule : Bytes) :
    ∃ value, selectRule (rule.splitOn bar) (ruleSplit.splitOn bar) (querySplit.splitOn bar) =
        some (value.map (rule, ·)) ∧
      (value = none ∧ (¬ ∃ marks, FitsRule ruleSplit querySplit rule marks) ∨
        ∃ marks, FitsRule ruleSplit querySplit rule marks ∧
          value = some (joined (textsOf marks))) := by
  have hne : ∀ x : Bytes, x.splitOn bar ≠ [] := fun x => List.splitOn_ne_nil bar x
  have hrule : joined (rule.splitOn bar) = rule := List.intercalate_splitOn bar
  refine ⟨(greedy isShow isStar (rule.splitOn bar)
    ((ruleSplit.splitOn bar).zip (querySplit.splitOn bar))).map (joined <| textsOf ·), ?_, ?_⟩
  · rw [selectRule_eq (hne rule) (hne ruleSplit) hlen, hrule, Option.map_map]
    rfl
  · cases hgreedy : greedy isShow isStar (rule.splitOn bar)
        ((ruleSplit.splitOn bar).zip (querySplit.splitOn bar)) with
    | none =>
      refine .inl ⟨rfl, fun hfits => ?_⟩
      have hsome := greedy_isSome_iff.mpr hfits
      rw [hgreedy] at hsome
      cases hsome
    | some marks => exact .inr ⟨marks, greedy_places hgreedy, rfl⟩

/-- **Selection.** The loop takes the first match for every word, and still
selects each rule of the tag that the row fits in any way; the value stored for
it has the text of each matched segment and nothing for one that was left out.
No other entry changes. -/
theorem docRulesSelect_fits (keyMapRule : Bytes → Option (List Bytes))
    (ruleSplit querySplit keyTag : Bytes) (selectResult : ComRuleMap)
    (hlen : (ruleSplit.splitOn bar).length = (querySplit.splitOn bar).length) :
    ∃ m, docRulesSelect keyMapRule ruleSplit querySplit keyTag selectResult = some m ∧
      ∀ rule,
        (rule ∈ (keyMapRule (keyTag ++ keySuffix)).getD [] ∧
            (∃ marks, FitsRule ruleSplit querySplit rule marks) →
          ∃ marks, FitsRule ruleSplit querySplit rule marks ∧
            m rule = some (joined (textsOf marks))) ∧
        (¬ (rule ∈ (keyMapRule (keyTag ++ keySuffix)).getD [] ∧
            ∃ marks, FitsRule ruleSplit querySplit rule marks) →
          m rule = selectResult rule) := by
  choose value hselect hvalue using fun rule => @selectRule_spec ruleSplit querySplit hlen rule
  unfold docRulesSelect
  cases keyMapRule (keyTag ++ keySuffix) with
  | none => exact ⟨selectResult, rfl, fun rule => ⟨fun h => absurd h.1 List.not_mem_nil, fun _ => rfl⟩⟩
  | some ruleVec =>
    have hround : ∀ m rule, selectInto ruleSplit querySplit m rule =
        some (if (value rule).isSome then Function.update m rule (value rule) else m) := by
      intro m rule
      rw [selectInto, hselect]
      cases value rule <;> rfl
    obtain ⟨m, hm, hentry⟩ := foldlM_assign hround ruleVec selectResult
    refine ⟨m, hm, fun rule => ?_⟩
    rw [hentry, Option.getD_some]
    rcases hvalue rule with ⟨hnone, hno⟩ | ⟨marks, hfits, hsome⟩
    · refine ⟨fun h => absurd h.2 hno, fun _ => ?_⟩
      rw [hnone]
      simp
    · rw [hsome]
      refine ⟨fun h => ⟨marks, hfits, ?_⟩, fun h => ?_⟩
      · rw [if_pos ⟨h.1, rfl⟩]
      · rw [if_neg fun hmem => h ⟨hmem.1, marks, hfits⟩]

/-- The rule `a|x_show_|b|*` under `t_key`. -/
def optionalRule : Bytes := [97, 124, 120, 95, 115, 104, 111, 119, 95, 124, 98, 124, 42]

def optionalRules (key : Bytes) : Option (List Bytes) :=
  if key = [116] ++ keySuffix then some [optionalRule] else none

theorem docRulesSelect_fits_optional :
    ∃ m, docRulesSelect optionalRules [97, 124, 98] [65, 124, 66] [116] (fun _ => none) = some m ∧
      (m optionalRule).isSome := by
  obtain ⟨m, hm, hentry⟩ :=
    docRulesSelect_fits optionalRules [97, 124, 98] [65, 124, 66] [116] (fun _ => none) (by decide)
  have hfits : FitsRule [97, 124, 98] [65, 124, 66] optionalRule
      [([97], some [65]), ([120, 95, 115, 104, 111, 119, 95], none), ([98], some [66]),
        ([42], none)] := by
    refine ⟨by decide, by decide, ?_⟩
    simp only [LeavesOut, and_true]
    decide
  obtain ⟨marks, -, hvalue⟩ := (hentry optionalRule).1 ⟨by decide, _, hfits⟩
  exact ⟨m, hm, by rw [hvalue]; rfl⟩

end CommonTools.QueryMatch
