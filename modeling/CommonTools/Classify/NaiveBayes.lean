import CommonTools.Gary.Splitters
import CommonTools.Lib.Best
import CommonTools.Lib.PartialList
import CommonTools.Lib.Runs
import CommonTools.Lib.Text
import Mathlib.Data.Rat.Cast.Order
import Std.Data.TreeMap.Lemmas

/-! # The prediction of the naive Bayes classifier

Every line of the test file gets the class with the largest score, and the line counts as
correct when this class is what `y` holds. `y` is the variable of the loop over the classes. -/
namespace CommonTools.Classify.TextModel
open CommonTools.Lib CommonTools.Gary

/-! ## `naive_bayes.cpp` -/

/-- What the prediction does with numbers: the sum, the quotient by a size and the comparison of
`double`. Two positive numbers can be compared. -/
structure Doubles (D : Type) where
  zero : D
  add : D → D → D
  divSize : D → Nat → D
  gt : D → D → Bool
  irrefl : ∀ a, ¬ gt a a
  trans : ∀ a b c, gt a b → gt b c → gt a c
  total : ∀ a b, gt a zero → gt b zero → gt a b ∨ a = b ∨ gt b a

structure NaiveBayes (D : Type) where
  hash_y_prob : Std.TreeMap Bytes D
  hash_model : Bytes × Bytes → Option D

/-- The classes in the order of the map. -/
def NaiveBayes.classes {D : Type} (nb : NaiveBayes D) : List (Bytes × D) := nb.hash_y_prob.toList

def CLASSNAME : List Bytes :=
  [[], [], ascii "app", ascii "fangchan", ascii "game", ascii "image", ascii "job", ascii "map",
    ascii "music", ascii "shop", ascii "software", ascii "sucai", ascii "video", ascii "web",
    ascii "wenda"]

/-- `CLASSNAME[atoi(c.c_str())]`. -/
def className? (c : Bytes) : Option Bytes := at? CLASSNAME (atoi (cstr c))

/-- The two replacements of a class. -/
def foldClass (y : Bytes) : Bytes :=
  let y := if y = ascii "10" then ascii "2" else y
  if y = ascii "11" then ascii "5" else y

/-- A line of the output file; `max_class` is the class whose name is printed. -/
structure OutLine (D : Type) where
  scores : List (Bytes × D)
  max_class : Bytes
  maxName : Bytes
  max_prob : D
  line : Bytes

/-- The variables of the loop over the lines. The counters are `int`s: there are less than
`2^31` lines. -/
structure Predict (D : Type) where
  hash_model : Bytes × Bytes → Option D
  y : Bytes
  outfile : List (OutLine D)
  correct_num : Int
  total_num : Int

/-- The variables of the loop over the classes. -/
structure Scoring (D : Type) where
  hash_model : Bytes × Bytes → Option D
  y : Bytes
  scores : Std.TreeMap Bytes D
  max_prob : D
  max_class : Bytes

section
variable {D : Type} (d : Doubles D)

/-- One round of the loop over the words; `hash_model[...]` makes a missing entry. -/
def addWord (y : Bytes) (st : D × (Bytes × Bytes → Option D)) (word : Bytes) :
    D × (Bytes × Bytes → Option D) :=
  let (prob_add, hash_model) := st
  if word.length < 4 then (prob_add, hash_model)
  else
    match hash_model (word, y) with
    | some v => (d.add prob_add v, hash_model)
    | none => (d.add prob_add d.zero, Function.update hash_model (word, y) (some d.zero))

/-- One round of the loop over the classes. -/
def classRound (vec_tmp : List Bytes) (st : Scoring D) (iter_y : Bytes × D) : Scoring D :=
  let y := foldClass iter_y.1
  let (prob_add, hash_model) := (vec_tmp.drop 1).foldl (addWord d y) (d.zero, st.hash_model)
  let prob_add := d.divSize prob_add vec_tmp.length
  let scores := st.scores.insert y prob_add
  if d.gt prob_add st.max_prob then ⟨hash_model, y, scores, prob_add, y⟩
  else ⟨hash_model, y, scores, st.max_prob, st.max_class⟩

/-- One round of the loop over the lines; `none` when `split_vec` throws or an index into
`CLASSNAME` is outside. The statement for class 10 behind the loop compares and stores nothing. -/
def predictLine (classes : List (Bytes × D)) (st : Predict D) (line : Bytes) :
    Option (Predict D) := do
  let (_, vec_tmp) ← splitVec line [32] []
  let r := classes.foldl (classRound d vec_tmp) ⟨st.hash_model, st.y, ∅, d.zero, []⟩
  let max_class := if r.max_class = ascii "11" then ascii "5" else r.max_class
  let scores ← r.scores.toList.mapM fun iter => (className? iter.1).map fun name => (name, iter.2)
  let maxName ← className? max_class
  some {
    hash_model := r.hash_model
    y := r.y
    outfile := st.outfile ++ [⟨scores, max_class, maxName, r.max_prob, line⟩]
    correct_num := if max_class = r.y then st.correct_num + 1 else st.correct_num
    total_num := st.total_num + 1 }

def NaiveBayes.start (nb : NaiveBayes D) : Predict D := ⟨nb.hash_model, [], [], 0, 0⟩

/-- `predict_naivebayes`: the return value and what the loop over the lines leaves. -/
def NaiveBayes.predict_naivebayes (nb : NaiveBayes D) (testfile : Option Bytes) :
    Option (Int × Option (Predict D)) :=
  match testfile with
  | none => some (-1, none)
  | some content =>
    ((getlines 10 content).foldlM (predictLine d nb.classes) nb.start).map fun st => (0, some st)

/-! ## What it is to do -/

/-- The label of a line: its first token. -/
def labelOf (line : Bytes) : Option Bytes :=
  match splitVec line [32] [] with
  | some (_, y :: _) => some (foldClass y)
  | _ => none

/-- The prediction ends, and every line is counted exactly when the class reported for it is its
label. -/
def CountsRight (nb : NaiveBayes D) (content : Bytes) : Prop :=
  ∃ st, nb.predict_naivebayes d (some content) = some (0, some st) ∧
    ∀ before line after, getlines 10 content = before ++ line :: after → ∀ mid next,
      before.foldlM (predictLine d nb.classes) nb.start = some mid →
      predictLine d nb.classes mid line = some next →
        (next.correct_num = mid.correct_num + 1 ↔
          ∃ out, next.outfile.getLast? = some out ∧ labelOf line = some out.max_class)

/-- The score of a class for the tokens of a line. -/
def scoreOf (nb : NaiveBayes D) (vec_tmp : List Bytes) (c : Bytes) : D :=
  d.divSize (((vec_tmp.drop 1).filter fun word => 4 ≤ word.length).foldl
    (fun sum word => d.add sum ((nb.hash_model (word, c)).getD d.zero)) d.zero) vec_tmp.length

/-- The class with the best score: of the classes with a positive score none has a larger one,
and none in front of it has the same. Without a positive score it is the empty class. -/
def Best (nb : NaiveBayes D) (vec_tmp : List Bytes) (c : Bytes) : Prop :=
  (∃ e, IsBest (fun a b => d.gt a b = true) (fun e => scoreOf d nb vec_tmp (foldClass e.1)) d.zero
      nb.classes e ∧ c = foldClass e.1) ∨
    (c = [] ∧ ∀ e ∈ nb.classes, ¬ d.gt (scoreOf d nb vec_tmp (foldClass e.1)) d.zero)

/-- The last class in the order of the map. -/
def NaiveBayes.lastClass (nb : NaiveBayes D) : Bytes :=
  (nb.classes.getLast?.map fun e => foldClass e.1).getD []

/-- The label is the last class, or neither of the two is the best. -/
def Agrees (nb : NaiveBayes D) (line : Bytes) (vec_tmp : List Bytes) : Prop :=
  labelOf line = some nb.lastClass ∨
    (¬ Best d nb vec_tmp nb.lastClass ∧
      ∀ label, labelOf line = some label → ¬ Best d nb vec_tmp label)

end

/-! ## Scores -/

section
variable {D : Type} {d : Doubles D} {nb : NaiveBayes D} {vec_tmp : List Bytes}

instance (d : Doubles D) : IsStrictOrder D fun a b => d.gt a b = true where
  irrefl := d.irrefl
  trans := d.trans

/-- Entries made by a look-up change nothing. -/
def View (d : Doubles D) (nb : NaiveBayes D) (hash_model : Bytes × Bytes → Option D) : Prop :=
  ∀ k, (hash_model k).getD d.zero = (nb.hash_model k).getD d.zero

theorem addWord_view {hash_model : Bytes × Bytes → Option D} (h : View d nb hash_model)
    (y word : Bytes) (sum : D) :
    ∃ hash_model', View d nb hash_model' ∧ addWord d y (sum, hash_model) word =
      (if 4 ≤ word.length then d.add sum ((nb.hash_model (word, y)).getD d.zero) else sum,
        hash_model') := by
  by_cases hlen : word.length < 4
  · exact ⟨hash_model, h, by simp [addWord, hlen]⟩
  · have hkey := h (word, y)
    cases hget : hash_model (word, y) with
    | some v =>
      rw [hget, Option.getD_some] at hkey
      exact ⟨hash_model, h, by simp [addWord, hlen, hget, hkey, Nat.not_lt.mp hlen]⟩
    | none =>
      rw [hget, Option.getD_none] at hkey
      refine ⟨Function.update hash_model (word, y) (some d.zero), fun k => ?_, ?_⟩
      · by_cases hk : k = (word, y)
        · rw [hk, Function.update_self, Option.getD_some]
          exact hkey
        · rw [Function.update_of_ne hk, h k]
      · simp [addWord, hlen, hget, ← hkey, Nat.not_lt.mp hlen]

theorem addWords_view (y : Bytes) : ∀ (words : List Bytes) (sum : D)
    {hash_model : Bytes × Bytes → Option D}, View d nb hash_model →
      ∃ hash_model', View d nb hash_model' ∧ words.foldl (addWord d y) (sum, hash_model) =
        ((words.filter fun word => 4 ≤ word.length).foldl
          (fun sum word => d.add sum ((nb.hash_model (word, y)).getD d.zero)) sum, hash_model')
  | [], _, hash_model, h => ⟨hash_model, h, rfl⟩
  | word :: words, sum, _, h => by
    obtain ⟨hash_model', h', hword⟩ := addWord_view h y word sum
    obtain ⟨hash_model'', h'', hwords⟩ := addWords_view y words
      (if 4 ≤ word.length then d.add sum ((nb.hash_model (word, y)).getD d.zero) else sum) h'
    refine ⟨hash_model'', h'', ?_⟩
    rw [List.foldl_cons, hword, hwords]
    by_cases hlen : 4 ≤ word.length <;> simp [hlen]

def bestSoFar (d : Doubles D) (nb : NaiveBayes D) (vec_tmp : List Bytes) (best : D × Bytes)
    (classes : List (Bytes × D)) : D × Bytes :=
  bestOf (fun a b => d.gt a b = true) (fun e => scoreOf d nb vec_tmp (foldClass e.1))
    (fun e => foldClass e.1) best classes

theorem classRound_spec {st : Scoring D} (h : View d nb st.hash_model) (e : Bytes × D) :
    View d nb (classRound d vec_tmp st e).hash_model ∧
      (classRound d vec_tmp st e).y = foldClass e.1 ∧
      ((classRound d vec_tmp st e).max_prob, (classRound d vec_tmp st e).max_class) =
        bestSoFar d nb vec_tmp (st.max_prob, st.max_class) [e] := by
  obtain ⟨hash_model', h', hwords⟩ := addWords_view (foldClass e.1) (vec_tmp.drop 1) d.zero h
  simp only [classRound, hwords, bestSoFar, bestOf, List.foldl_cons, List.foldl_nil, takeBetter,
    scoreOf]
  split <;> exact ⟨h', rfl, rfl⟩

theorem classes_spec : ∀ (classes : List (Bytes × D)) {st : Scoring D}, View d nb st.hash_model →
    View d nb (classes.foldl (classRound d vec_tmp) st).hash_model ∧
      (classes.foldl (classRound d vec_tmp) st).y =
        (classes.getLast?.map fun e => foldClass e.1).getD st.y ∧
      ((classes.foldl (classRound d vec_tmp) st).max_prob,
          (classes.foldl (classRound d vec_tmp) st).max_class) =
        bestSoFar d nb vec_tmp (st.max_prob, st.max_class) classes
  | [], _, h => ⟨h, rfl, rfl⟩
  | e :: classes, st, h => by
    obtain ⟨hview, hy, hbest⟩ := @classRound_spec D d nb vec_tmp st h e
    obtain ⟨hviews, hys, hbests⟩ := classes_spec classes hview
    refine ⟨hviews, ?_, ?_⟩
    · rw [List.foldl_cons, hys, hy, List.getLast?_cons]
      cases classes.getLast? <;> rfl
    · rw [List.foldl_cons, hbests, hbest]
      rfl

theorem best_iff (c : Bytes) :
    Best d nb vec_tmp c ↔ (bestSoFar d nb vec_tmp (d.zero, []) nb.classes).2 = c := by
  have hof : ∀ {c}, Best d nb vec_tmp c →
      (bestSoFar d nb vec_tmp (d.zero, []) nb.classes).2 = c := by
    intro c h
    rcases h with ⟨e, hbest, rfl⟩ | ⟨rfl, hnone⟩
    · rw [bestSoFar, hbest.bestOf]
    · rw [bestSoFar, bestOf_unbeaten_first hnone]
  refine ⟨hof, fun h => ?_⟩
  have hcases : (∀ e ∈ nb.classes, ¬ d.gt (scoreOf d nb vec_tmp (foldClass e.1)) d.zero) ∨
      ∃ e, IsBest (fun a b => d.gt a b = true) (fun e => scoreOf d nb vec_tmp (foldClass e.1))
        d.zero nb.classes e :=
    @exists_isBest D (Bytes × D) (fun a b => d.gt a b = true)
      (fun e => scoreOf d nb vec_tmp (foldClass e.1)) d.zero nb.classes _ _ d.total
  rcases hcases with hnone | ⟨e, hbest⟩
  · have hempty : Best d nb vec_tmp [] := .inr ⟨rfl, hnone⟩
    rw [← h, hof hempty]
    exact hempty
  · have hclass : Best d nb vec_tmp (foldClass e.1) := .inl ⟨e, hbest, rfl⟩
    rw [← h, hof hclass]
    exact hclass

theorem Best.unique {c c' : Bytes} (h : Best d nb vec_tmp c) (h' : Best d nb vec_tmp c') :
    c = c' := ((best_iff c).mp h).symm.trans ((best_iff c').mp h')

/-! ## Lines -/

theorem foldClass_ne (y : Bytes) : foldClass y ≠ ascii "11" := by
  rw [foldClass]
  by_cases h10 : y = ascii "10"
  · rw [if_pos h10]
    decide
  · rw [if_neg h10]
    by_cases h11 : y = ascii "11"
    · rw [if_pos h11]
      decide
    · rwa [if_neg h11]

/-- The keys of `scores` and the class with the best score are classes of the model. -/
theorem classes_known : ∀ (classes : List (Bytes × D)) (st : Scoring D),
    (∀ c, c ∈ (classes.foldl (classRound d vec_tmp) st).scores ↔
      c ∈ st.scores ∨ ∃ e ∈ classes, c = foldClass e.1) ∧
    ((classes.foldl (classRound d vec_tmp) st).max_class = st.max_class ∨
      ∃ e ∈ classes, (classes.foldl (classRound d vec_tmp) st).max_class = foldClass e.1)
  | [], st => by simp
  | e :: classes, st => by
    obtain ⟨hkeys, hmax⟩ := classes_known classes (classRound d vec_tmp st e)
    have hscores : ∀ c, c ∈ (classRound d vec_tmp st e).scores ↔
        c ∈ st.scores ∨ c = foldClass e.1 := by
      intro c
      have hinsert : (classRound d vec_tmp st e).scores = st.scores.insert (foldClass e.1)
          (d.divSize ((vec_tmp.drop 1).foldl (addWord d (foldClass e.1)) (d.zero, st.hash_model)).1
            vec_tmp.length) := by
        simp only [classRound]
        split <;> rfl
      rw [hinsert, Std.TreeMap.mem_insert, Std.compare_eq_iff_eq, eq_comm, or_comm]
    have hround : (classRound d vec_tmp st e).max_class = st.max_class ∨
        (classRound d vec_tmp st e).max_class = foldClass e.1 := by
      simp only [classRound]
      split
      · exact .inr rfl
      · exact .inl rfl
    refine ⟨fun c => ?_, ?_⟩
    · rw [List.foldl_cons, hkeys c, hscores c]
      simp [or_assoc]
    · rw [List.foldl_cons]
      rcases hmax with hmax | ⟨e', he', hmax⟩
      · rcases hround with hround | hround
        · exact .inl (hmax.trans hround)
        · exact .inr ⟨e, by simp, hmax.trans hround⟩
      · exact .inr ⟨e', by simp [he'], hmax⟩

theorem maxClass_ne {classes : List (Bytes × D)} {max_class : Bytes}
    (h : max_class = [] ∨ ∃ e ∈ classes, max_class = foldClass e.1) :
    max_class ≠ ascii "11" := by
  rcases h with h | ⟨e, -, h⟩
  · rw [h]
    decide
  · rw [h]
    exact foldClass_ne e.1

theorem className?_nil : (className? []).isSome := by decide

/-- A line is processed when it can be split and every class has a name. -/
theorem predictLine_isSome (classes : List (Bytes × D)) (st : Predict D) (line : Bytes) :
    (predictLine d classes st line).isSome ↔
      (splitVec line [32] []).isSome ∧ ∀ e ∈ classes, (className? (foldClass e.1)).isSome := by
  cases hsplit : splitVec line [32] [] with
  | none => simp [predictLine, hsplit]
  | some split =>
    obtain ⟨ret, vec_tmp⟩ := split
    obtain ⟨hkeys, hmax⟩ := @classes_known D d vec_tmp classes ⟨st.hash_model, st.y, ∅, d.zero, []⟩
    simp only [predictLine, hsplit, Option.bind_eq_bind, Option.bind_some]
    generalize classes.foldl (classRound d vec_tmp) ⟨st.hash_model, st.y, ∅, d.zero, []⟩ = r
      at hkeys hmax ⊢
    dsimp only at hkeys hmax
    have hne : r.max_class ≠ ascii "11" := maxClass_ne hmax
    have hnames : (r.scores.toList.mapM fun iter =>
        (className? iter.1).map fun name => (name, iter.2)).isSome ↔
          ∀ e ∈ classes, (className? (foldClass e.1)).isSome := by
      have hall : (∀ iter ∈ r.scores.toList, (className? iter.1).isSome) ↔
          ∀ c ∈ r.scores, (className? c).isSome := by
        simp only [← Std.TreeMap.mem_keys, ← Std.TreeMap.map_fst_toList_eq_keys,
          List.forall_mem_map]
      rw [mapM_isSome_iff]
      simp only [Option.isSome_map, hall, hkeys]
      constructor
      · intro h e he
        exact h _ (.inr ⟨e, he, rfl⟩)
      · intro h c hc
        rcases hc with hc | ⟨e, he, rfl⟩
        · simp at hc
        · exact h e he
    have hname : (∀ e ∈ classes, (className? (foldClass e.1)).isSome) →
        (className? r.max_class).isSome := by
      intro hclasses
      rcases hmax with hmax | ⟨e, he, hmax⟩
      · rw [hmax]
        exact className?_nil
      · rw [hmax]
        exact hclasses e he
    simp only [if_neg hne, Option.isSome_some, true_and]
    rw [← hnames] at hname ⊢
    cases hscores : (r.scores.toList.mapM fun iter =>
        (className? iter.1).map fun name => (name, iter.2)) with
    | none => simp
    | some scores =>
      rw [hscores] at hname
      obtain ⟨maxName, hmaxName⟩ := Option.isSome_iff_exists.mp (hname rfl)
      simp [hmaxName]

/-- Between the lines only entries made by a look-up were added, and `y` is empty as long as
there is no class. -/
def Ready (d : Doubles D) (nb : NaiveBayes D) (st : Predict D) : Prop :=
  View d nb st.hash_model ∧ (nb.classes = [] → st.y = [])

theorem start_ready : Ready d nb nb.start := ⟨fun _ => rfl, fun _ => rfl⟩

/-- A line reports its best class and is counted when this is the last class. -/
theorem predictLine_spec {st next : Predict D} {line : Bytes} (hready : Ready d nb st)
    (hstep : predictLine d nb.classes st line = some next) :
    Ready d nb next ∧ ∃ ret vec_tmp out, splitVec line [32] [] = some (ret, vec_tmp) ∧
      next.outfile = st.outfile ++ [out] ∧ Best d nb vec_tmp out.max_class ∧
      next.correct_num =
        if out.max_class = nb.lastClass then st.correct_num + 1 else st.correct_num := by
  obtain ⟨hview, hempty⟩ := hready
  rw [predictLine] at hstep
  obtain ⟨⟨ret, vec_tmp⟩, hsplit, hstep⟩ := Option.bind_eq_some_iff.mp hstep
  obtain ⟨hview', hy, hbest⟩ :=
    @classes_spec D d nb vec_tmp nb.classes ⟨st.hash_model, st.y, ∅, d.zero, []⟩ hview
  have hknown := (@classes_known D d vec_tmp nb.classes ⟨st.hash_model, st.y, ∅, d.zero, []⟩).2
  dsimp only at hstep hy hbest hknown
  generalize nb.classes.foldl (classRound d vec_tmp) ⟨st.hash_model, st.y, ∅, d.zero, []⟩ = r
    at hstep hview' hy hbest hknown
  have hne : r.max_class ≠ ascii "11" := maxClass_ne hknown
  rw [if_neg hne] at hstep
  obtain ⟨scores, -, hstep⟩ := Option.bind_eq_some_iff.mp hstep
  obtain ⟨maxName, -, hstep⟩ := Option.bind_eq_some_iff.mp hstep
  obtain rfl := Option.some.inj hstep
  have hlast : r.y = nb.lastClass := by
    rw [hy, NaiveBayes.lastClass]
    cases hclasses : nb.classes.getLast? with
    | none => exact hempty (List.getLast?_eq_none_iff.mp hclasses)
    | some e => rfl
  refine ⟨⟨hview', fun hnil => ?_⟩, ret, vec_tmp, _, hsplit, rfl, ?_, ?_⟩
  · rw [hy, hnil]
    exact hempty hnil
  · rw [best_iff, ← hbest]
  · rw [hlast]

theorem predict_ready {before : List Bytes} {mid : Predict D}
    (hrun : before.foldlM (predictLine d nb.classes) nb.start = some mid) : Ready d nb mid :=
  run_keeps (fun hready _ hstep => (predictLine_spec hready hstep).1) start_ready
    (fun _ _ _ _ _ _ => trivial) hrun

/-- The prediction ends when every line can be split and, once there is a line, every class has
a name. -/
theorem predict_isSome (content : Bytes) :
    (∃ st, nb.predict_naivebayes d (some content) = some (0, some st)) ↔
      ∀ line ∈ getlines 10 content, (splitVec line [32] []).isSome ∧
        ∀ e ∈ nb.classes, (className? (foldClass e.1)).isSome := by
  have hrun : ((getlines 10 content).foldlM (predictLine d nb.classes) nb.start).isSome ↔
      ∀ line ∈ getlines 10 content, (splitVec line [32] []).isSome ∧
        ∀ e ∈ nb.classes, (className? (foldClass e.1)).isSome :=
    foldlM_isSome_iff nb.start fun line _ st => predictLine_isSome nb.classes st line
  rw [← hrun, NaiveBayes.predict_naivebayes, Option.isSome_iff_exists]
  simp

/-! ## The count -/

theorem line_counts_iff {mid next : Predict D} {line : Bytes} (hready : Ready d nb mid)
    (hstep : predictLine d nb.classes mid line = some next) :
    (next.correct_num = mid.correct_num + 1 ↔
        ∃ out, next.outfile.getLast? = some out ∧ labelOf line = some out.max_class) ↔
      ∃ ret vec_tmp, splitVec line [32] [] = some (ret, vec_tmp) ∧ Agrees d nb line vec_tmp := by
  obtain ⟨-, ret, vec_tmp, out, hsplit, hout, hbest, hcount⟩ := predictLine_spec hready hstep
  have hcounted : next.correct_num = mid.correct_num + 1 ↔ out.max_class = nb.lastClass := by
    rw [hcount]
    split
    · simp [*]
    · simp [*]
  have hreported : (∃ out, next.outfile.getLast? = some out ∧
      labelOf line = some out.max_class) ↔ labelOf line = some out.max_class := by
    simp [hout]
  have hagrees : (∃ ret vec_tmp, splitVec line [32] [] = some (ret, vec_tmp) ∧
      Agrees d nb line vec_tmp) ↔ Agrees d nb line vec_tmp := by
    simp [hsplit]
  rw [hcounted, hreported, hagrees, Agrees]
  constructor
  · intro h
    by_cases hlast : out.max_class = nb.lastClass
    · exact .inl (hlast ▸ h.mp hlast)
    · refine .inr ⟨fun hbest' => hlast (hbest.unique hbest'), fun label hlabel hbest' => ?_⟩
      rw [hbest'.unique hbest] at hlabel
      exact hlast (h.mpr hlabel)
  · intro h
    rcases h with hlabel | ⟨hlast, hlabel⟩
    · rw [hlabel, Option.some.injEq, eq_comm]
    · constructor
      · intro heq
        exact absurd (heq ▸ hbest) hlast
      · intro heq
        exact absurd hbest (hlabel _ heq)

/-- **A line is counted exactly when the class reported for it is its label if and only if all
lines can be split, all classes have a name, and for every line the label is the last class of
the map or neither of the two is the best class.** -/
theorem predict_counts_iff (d : Doubles D) (nb : NaiveBayes D) (content : Bytes) :
    CountsRight d nb content ↔ ∀ line ∈ getlines 10 content,
      (∀ e ∈ nb.classes, (className? (foldClass e.1)).isSome) ∧
        ∃ ret vec_tmp, splitVec line [32] [] = some (ret, vec_tmp) ∧
          Agrees d nb line vec_tmp := by
  constructor
  · intro h line hline
    obtain ⟨st, hret, hcount⟩ := h
    refine ⟨((predict_isSome content).mp ⟨st, hret⟩ line hline).2, ?_⟩
    obtain ⟨before, after, hlines⟩ := List.append_of_mem hline
    have hrun : (getlines 10 content).foldlM (predictLine d nb.classes) nb.start = some st := by
      simpa [NaiveBayes.predict_naivebayes] using hret
    rw [hlines] at hrun
    obtain ⟨mid, hmid, hrest⟩ := foldlM_append_some.mp hrun
    obtain ⟨next, hstep, -⟩ := foldlM_cons_some.mp hrest
    exact (line_counts_iff (predict_ready hmid) hstep).mp
      (hcount before line after hlines mid next hmid hstep)
  · intro h
    obtain ⟨st, hret⟩ := (predict_isSome content).mpr fun line hline => by
      obtain ⟨hnames, ret, vec_tmp, hsplit, -⟩ := h line hline
      exact ⟨by rw [hsplit]; rfl, hnames⟩
    refine ⟨st, hret, fun before line after hlines mid next hmid hstep => ?_⟩
    have hline : line ∈ getlines 10 content := by simp [hlines]
    exact (line_counts_iff (predict_ready hmid) hstep).mpr (h line hline).2

end

def rationals : Doubles ℚ where
  zero := 0
  add a b := a + b
  divSize a n := a / n
  gt a b := decide (b < a)
  irrefl a := by simp
  trans a b c := by simpa using fun hab hbc => lt_trans hbc hab
  total a b := by simpa using fun _ _ => (lt_trichotomy b a).imp_right (.imp_left Eq.symm)

/-- Two classes, of which `word` belongs to the first. -/
def twoClasses : NaiveBayes ℚ :=
  ⟨(∅ : Std.TreeMap Bytes ℚ).insertMany [(ascii "1", 1 / 2), (ascii "2", 1 / 2)],
    fun k => if k = (ascii "word", ascii "1") then some 1 else none⟩

/-- A line of class 1 that is reported as class 1 is not counted. -/
theorem predict_counts_twoClasses : ¬ CountsRight rationals twoClasses (ascii "1 word") := by
  intro h
  obtain ⟨st, -, hcount⟩ := h
  have hstep : (predictLine rationals twoClasses.classes twoClasses.start (ascii "1 word")).map
      (fun next => (next.correct_num, next.outfile.getLast?.map OutLine.max_class)) =
        some (0, some (ascii "1")) := by decide +kernel
  obtain ⟨next, hnext, hpair⟩ := Option.map_eq_some_iff.mp hstep
  obtain ⟨hnum, hlast⟩ := Prod.mk.inj hpair
  obtain ⟨out, hout, hclass⟩ := Option.map_eq_some_iff.mp hlast
  have hlabel : labelOf (ascii "1 word") = some out.max_class := by
    rw [hclass]
    decide
  have hcounted := (hcount [] (ascii "1 word") [] (by decide) _ next rfl hnext).mpr
    ⟨out, hout, hlabel⟩
  rw [hnum] at hcounted
  simp [NaiveBayes.start] at hcounted

end CommonTools.Classify.TextModel
