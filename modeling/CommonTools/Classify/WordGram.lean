import CommonTools.Gary.Splitters
import CommonTools.Lib.PartialList
import CommonTools.Lib.Runs
import CommonTools.Lib.Tally
import CommonTools.Lib.Text

/-! # Training on words and grams

A line of the training file is a class and words, each with its number of page views behind a
colon. The words and their grams are counted by word and class, by word, by class and in
total. The numbers are exact here. -/
namespace CommonTools.Classify.WordGram
open CommonTools.Lib CommonTools.Gary CommonTools.Http

/-! ## `word_gram.cpp` -/

/-- What is asked about a word: whether `hash_stop` has it, and whether one of the three
patterns matches it. -/
structure WordTests where
  isStop : Bytes → Bool
  allIsEngCharactor : Bytes → Bool
  allIsNumCharactor : Bytes → Bool
  allIsPuncCharactor : Bytes → Bool

/-- The tables and totals of a training. -/
structure Statistic where
  hash_y_num : Tally Bytes
  total_y_num : Int
  hash_term_y_num : Tally (Bytes × Bytes)
  hash_term_num : Tally Bytes
  hash_termnum_of_y : Tally Bytes
  total_term_num : Int
  hash_gram_y_num : Tally (Bytes × Bytes)
  hash_gram_num : Tally Bytes
  hash_gramnum_of_y : Tally Bytes
  total_gram_num : Int

/-- Before the first training of the process. -/
def Statistic.fresh : Statistic := ⟨∅, 0, ∅, ∅, ∅, 0, ∅, ∅, ∅, 0⟩

/-- The part of a round up to `vec`: the class and the words of a line that is not left out.
`none` when `substr` throws or an `int` overflows. -/
def readLine (line : Bytes) : Option (Option (Bytes × List Bytes)) :=
  if line = [] ∨ line.length < 4 then some none
  else
    let loc := findInt [32] line
    if loc = -1 then some none
    else if INT_MAX < loc + 1 ∨ line.length < toSize (loc + 1) then none
    else
      let y := line.take (toSize loc)
      (splitVec (line.drop (toSize (loc + 1))) [32] []).map fun (_, vec) =>
        if vec.length < 1 then none else some (y, vec)

/-- The part of an inner round up to `pv`: `word` and `pv` unless the word is left out. -/
def readWord (tests : WordTests) (vec_i : Bytes) : Option (Option (Bytes × Int)) :=
  if vec_i.length < 2 then some none
  else
    let loc := findInt [58] vec_i
    if loc = -1 then some (if tests.isStop vec_i then none else some (vec_i, 1))
    else if INT_MAX < loc + 1 ∨ vec_i.length < toSize (loc + 1) then none
    else
      let word := vec_i.take (toSize loc)
      let pv := atoi (cstr (vec_i.drop (toSize (loc + 1))))
      some (if tests.isStop word then none else some (word, if pv = 0 then 1 else pv))

/-- The words of two bytes and more that no table gets. -/
def isOther (tests : WordTests) (word : Bytes) : Bool :=
  tests.allIsPuncCharactor (cstr word) || word == ascii "$#" || word == ascii "^" ||
    word == ascii "w2v" || tests.allIsEngCharactor (cstr word) ||
    tests.allIsNumCharactor (cstr word)

/-- A later word of the line without its number; the position goes through an `int` once. -/
def wordSub (s : Bytes) : Bytes :=
  match find [58] s with
  | none => s
  | some k => if toInt32 k = -1 then s else s.take k

def Statistic.addTerm (st : Statistic) (word y : Bytes) (pv : Int) : Statistic :=
  { st with hash_term_y_num := st.hash_term_y_num.add (word, y) pv,
            hash_term_num := st.hash_term_num.add word pv,
            total_term_num := st.total_term_num + pv }

/-- The updates for a gram of `words`, unless one of them is punctuation. -/
def Statistic.addGram (tests : WordTests) (st : Statistic) (words : List Bytes) (y : Bytes)
    (pv : Int) : Statistic :=
  if words.all fun word => !tests.allIsPuncCharactor (cstr word) then
    let gram := (ascii "#_#").intercalate words
    { st with hash_gram_num := st.hash_gram_num.add gram pv,
              hash_gram_y_num := st.hash_gram_y_num.add (gram, y) pv,
              hash_gramnum_of_y := st.hash_gramnum_of_y.add y pv,
              total_gram_num := st.total_gram_num + pv }
  else st

/-- The grams of a word with the words `rest` behind it: bigram, skip-bigram and trigram. -/
def Statistic.addGrams (tests : WordTests) (st : Statistic) (word y : Bytes) (pv : Int) :
    List Bytes → Statistic
  | [] => st
  | [next] => st.addGram tests [word, wordSub next] y pv
  | next :: third :: _ =>
    let st := st.addGram tests [word, wordSub next] y pv
    let st := st.addGram tests [word, wordSub third] y pv
    st.addGram tests [word, wordSub next, wordSub third] y pv

/-- What a round does with a word that is not left out. -/
def Statistic.addWord (tests : WordTests) (st : Statistic) (y : Bytes) (rest : List Bytes)
    (word : Bytes) (pv : Int) : Statistic :=
  if 1 < word.length then
    if isOther tests word then st
    else (st.addTerm word y pv).addGrams tests word y pv rest
  else st.addGrams tests word y pv rest

def trainWords (tests : WordTests) (y : Bytes) : List Bytes → Statistic → Option Statistic
  | [], st => some st
  | vec_i :: rest, st =>
    match readWord tests vec_i with
    | none => none
    | some none => trainWords tests y rest st
    | some (some (word, pv)) => trainWords tests y rest (st.addWord tests y rest word pv)

/-- One round of the loop over the lines. -/
def trainLine (tests : WordTests) (st : Statistic) (line : Bytes) : Option Statistic :=
  match readLine line with
  | none => none
  | some none => some st
  | some (some (y, vec)) =>
    let st := { st with hash_termnum_of_y := st.hash_termnum_of_y.add y 1 }
    (trainWords tests y vec st).map fun st =>
      { st with total_y_num := st.total_y_num + 1, hash_y_num := st.hash_y_num.add y 1 }

/-- `trainfile_statistic_word`, with what the file holds. -/
def trainfile_statistic_word (tests : WordTests) (infile : Bytes) (st : Statistic) :
    Option Statistic :=
  (getlines 10 infile).foldlM (trainLine tests) st

/-! ## Margins -/

/-- The tables of one key and the totals sum the tables of pairs up. The term table by class is
not among them. -/
structure Margins (st : Statistic) : Prop where
  term : Tally.IsLeft st.hash_term_y_num st.hash_term_num
  terms : Tally.IsTotal st.hash_term_y_num st.total_term_num
  gram : Tally.IsLeft st.hash_gram_y_num st.hash_gram_num
  grams_of_class : Tally.IsRight st.hash_gram_y_num st.hash_gramnum_of_y
  grams : Tally.IsTotal st.hash_gram_y_num st.total_gram_num

theorem margins_fresh : Margins .fresh :=
  ⟨fun _ => rfl, rfl, fun _ => rfl, fun _ => rfl, rfl⟩

section
variable {tests : WordTests} {st st' : Statistic}

theorem Margins.addTerm (h : Margins st) (word y : Bytes) (pv : Int) :
    Margins (st.addTerm word y pv) :=
  ⟨h.term.add word y pv, h.terms.add word y pv, h.gram, h.grams_of_class, h.grams⟩

theorem Margins.addGram (h : Margins st) (words : List Bytes) (y : Bytes) (pv : Int) :
    Margins (st.addGram tests words y pv) := by
  rw [Statistic.addGram]
  split
  · exact ⟨h.term, h.terms, h.gram.add _ y pv, h.grams_of_class.add _ y pv, h.grams.add _ y pv⟩
  · exact h

theorem Margins.addGrams (h : Margins st) (word y : Bytes) (pv : Int) :
    ∀ rest : List Bytes, Margins (st.addGrams tests word y pv rest)
  | [] => h
  | [_] => h.addGram _ y pv
  | _ :: _ :: _ => ((h.addGram _ y pv).addGram _ y pv).addGram _ y pv

theorem Margins.addWord (h : Margins st) (y : Bytes) (rest : List Bytes) (word : Bytes)
    (pv : Int) : Margins (st.addWord tests y rest word pv) := by
  rw [Statistic.addWord]
  split
  · split
    · exact h
    · exact (h.addTerm word y pv).addGrams word y pv rest
  · exact h.addGrams word y pv rest

theorem Margins.words {y : Bytes} : ∀ {vec : List Bytes} {st : Statistic}, Margins st →
    trainWords tests y vec st = some st' → Margins st'
  | [], st, h, hrun => by
    obtain rfl := Option.some.inj hrun
    exact h
  | vec_i :: rest, st, h, hrun => by
    rw [trainWords] at hrun
    cases hword : readWord tests vec_i with
    | none => simp [hword] at hrun
    | some read =>
      rw [hword] at hrun
      cases read with
      | none => exact Margins.words h hrun
      | some entry => exact Margins.words (h.addWord y rest entry.1 entry.2) hrun

theorem Margins.line (h : Margins st) {line : Bytes} (hrun : trainLine tests st line = some st') :
    Margins st' := by
  rw [trainLine] at hrun
  cases hline : readLine line with
  | none => simp [hline] at hrun
  | some read =>
    rw [hline] at hrun
    cases read with
    | none =>
      obtain rfl := Option.some.inj hrun
      exact h
    | some labelled =>
      obtain ⟨st₁, hwords, rfl⟩ := Option.map_eq_some_iff.mp hrun
      have hbefore :
          Margins { st with hash_termnum_of_y := st.hash_termnum_of_y.add labelled.1 1 } :=
        ⟨h.term, h.terms, h.gram, h.grams_of_class, h.grams⟩
      have hst₁ : Margins st₁ := hbefore.words hwords
      exact ⟨hst₁.term, hst₁.terms, hst₁.gram, hst₁.grams_of_class, hst₁.grams⟩

/-! ## The training returns -/

theorem findInt_short {b : UInt8} {s : Bytes} (hmax : (s.length : Int) ≤ INT_MAX) :
    findInt [b] s = -1 ∨ ∃ k : Nat, findInt [b] s = k ∧ k < s.length ∧ toSize (k + 1) = k + 1 := by
  cases hfind : find [b] s with
  | none => exact .inl (findInt_none hfind)
  | some k =>
    have hle := find_le hfind
    rw [List.length_singleton] at hle
    exact .inr ⟨k, findInt_some hfind (by omega), hle, toSize_natCast (n := k + 1) (by omega)⟩

theorem readLine_short {line : Bytes} (hmax : (line.length : Int) ≤ INT_MAX) :
    ∃ read, readLine line = some read ∧
      ∀ y vec, read = some (y, vec) → ∀ s ∈ vec, (s.length : Int) ≤ INT_MAX := by
  rw [readLine]
  split
  · exact ⟨none, rfl, by simp⟩
  · rcases findInt_short (b := 32) hmax with hnone | ⟨k, hk, hlt, hsize⟩
    · rw [hnone]
      exact ⟨none, rfl, by simp⟩
    · obtain ⟨ret, vec, hsplit, hvec⟩ := @splitVec_short (line.drop (k + 1)) [32] (by decide)
        (by simp) (by rw [List.length_drop]; omega)
      have hok : ¬ (INT_MAX < (k : Int) + 1 ∨ line.length < k + 1) := by omega
      simp only [hk, hsize, if_neg hok, hsplit, Option.map_some]
      rw [if_neg (by omega)]
      refine ⟨_, rfl, fun y vec' heq s hs => ?_⟩
      split at heq
      · cases heq
      · obtain ⟨-, rfl⟩ := Prod.mk.inj (Option.some.inj heq)
        have hlen := hvec s hs
        rw [List.length_drop] at hlen
        omega

theorem readWord_short {s : Bytes} (hmax : (s.length : Int) ≤ INT_MAX) :
    (readWord tests s).isSome := by
  rw [readWord]
  split
  · rfl
  · rcases findInt_short (b := 58) hmax with hnone | ⟨k, hk, hlt, hsize⟩
    · rw [hnone]
      rfl
    · have hok : ¬ (INT_MAX < (k : Int) + 1 ∨ s.length < k + 1) := by omega
      simp only [hk, hsize, if_neg hok]
      rw [if_neg (by omega)]
      rfl

theorem trainWords_short {y : Bytes} : ∀ {vec : List Bytes} (st : Statistic),
    (∀ s ∈ vec, (s.length : Int) ≤ INT_MAX) → (trainWords tests y vec st).isSome
  | [], _, _ => rfl
  | vec_i :: rest, st, hvec => by
    obtain ⟨hword, hrest⟩ := List.forall_mem_cons.mp hvec
    obtain ⟨read, hread⟩ := Option.isSome_iff_exists.mp (@readWord_short tests _ hword)
    rw [trainWords, hread]
    cases read with
    | none => exact trainWords_short st hrest
    | some entry => exact trainWords_short _ hrest

/-- A training returns when no line is longer than an `int` can say. -/
theorem train_returns {infile : Bytes} (st : Statistic)
    (hmax : ∀ line ∈ getlines 10 infile, (line.length : Int) ≤ INT_MAX) :
    (trainfile_statistic_word tests infile st).isSome := by
  have hline : ∀ line ∈ getlines 10 infile, ∀ st, (trainLine tests st line).isSome ↔ True := by
    intro line hline st
    obtain ⟨read, hread, hwords⟩ := readLine_short (hmax line hline)
    rw [iff_true, trainLine, hread]
    cases read with
    | none => rfl
    | some labelled =>
      rw [Option.isSome_map]
      exact trainWords_short _ (hwords labelled.1 labelled.2 rfl)
  exact (foldlM_isSome_iff st hline).mpr fun _ _ => trivial

/-! ## The terms of a class -/

/-- The class and the words of every line that is not left out. -/
def countedLines (infile : Bytes) : List (Bytes × List Bytes) :=
  (getlines 10 infile).filterMap fun line => (readLine line).join

/-- The page views that the term tables get from a word. -/
def termPv (tests : WordTests) (vec_i : Bytes) : Int :=
  match (readWord tests vec_i).join with
  | none => 0
  | some (word, pv) => if 1 < word.length ∧ ¬ isOther tests word then pv else 0

/-- The page views of the terms in the lines of a class. -/
def classPv (tests : WordTests) (lines : List (Bytes × List Bytes)) (y : Bytes) : Int :=
  ((lines.filter fun l => l.1 = y).map fun l => (l.2.map (termPv tests)).sum).sum

theorem addGram_terms (words : List Bytes) (y : Bytes) (pv : Int) :
    (st.addGram tests words y pv).hash_term_y_num = st.hash_term_y_num ∧
      (st.addGram tests words y pv).hash_termnum_of_y = st.hash_termnum_of_y := by
  rw [Statistic.addGram]
  split <;> exact ⟨rfl, rfl⟩

theorem addGrams_terms (word y : Bytes) (pv : Int) (rest : List Bytes) :
    (st.addGrams tests word y pv rest).hash_term_y_num = st.hash_term_y_num ∧
      (st.addGrams tests word y pv rest).hash_termnum_of_y = st.hash_termnum_of_y := by
  match rest with
  | [] => exact ⟨rfl, rfl⟩
  | [_] => exact addGram_terms _ y pv
  | _ :: _ :: _ => simp [Statistic.addGrams, addGram_terms]

theorem addWord_terms (y : Bytes) (rest : List Bytes) (word : Bytes) (pv : Int) (y' : Bytes) :
    (st.addWord tests y rest word pv).hash_term_y_num.sum (fun k => k.2 = y') =
        st.hash_term_y_num.sum (fun k => k.2 = y') +
          (if y = y' then if 1 < word.length ∧ ¬ isOther tests word then pv else 0 else 0) ∧
      (st.addWord tests y rest word pv).hash_termnum_of_y = st.hash_termnum_of_y := by
  rw [Statistic.addWord]
  by_cases hlen : 1 < word.length
  · by_cases hother : isOther tests word
    · simp [hlen, hother]
    · simp [hlen, hother, addGrams_terms, Statistic.addTerm]
  · simp [hlen, addGrams_terms]

theorem trainWords_terms {y : Bytes} : ∀ {vec : List Bytes} {st : Statistic},
    trainWords tests y vec st = some st' →
      (∀ y', st'.hash_term_y_num.sum (fun k => k.2 = y') =
        st.hash_term_y_num.sum (fun k => k.2 = y') +
          if y = y' then (vec.map (termPv tests)).sum else 0) ∧
      st'.hash_termnum_of_y = st.hash_termnum_of_y
  | [], st, hrun => by
    obtain rfl := Option.some.inj hrun
    simp
  | vec_i :: rest, st, hrun => by
    rw [trainWords] at hrun
    cases hword : readWord tests vec_i with
    | none => simp [hword] at hrun
    | some read =>
      rw [hword] at hrun
      cases read with
      | none =>
        obtain ⟨hsum, hnum⟩ := trainWords_terms hrun
        refine ⟨fun y' => ?_, hnum⟩
        rw [hsum y']
        simp [termPv, hword]
      | some entry =>
        obtain ⟨hsum, hnum⟩ := trainWords_terms hrun
        have hfirst := @addWord_terms tests st y rest entry.1 entry.2
        have hpv : termPv tests vec_i =
            if 1 < entry.1.length ∧ ¬ isOther tests entry.1 then entry.2 else 0 := by
          simp [termPv, hword]
        refine ⟨fun y' => ?_, hnum.trans (hfirst y).2⟩
        rw [hsum y', (hfirst y').1, ← hpv, List.map_cons, List.sum_cons]
        split <;> omega

theorem classPv_append (lines lines' : List (Bytes × List Bytes)) (y : Bytes) :
    classPv tests (lines ++ lines') y = classPv tests lines y + classPv tests lines' y := by
  simp [classPv]

/-- A line gives its class one, and the page views of its terms. -/
theorem trainLine_terms {line : Bytes} (hrun : trainLine tests st line = some st') (y : Bytes) :
    st'.hash_term_y_num.sum (fun k => k.2 = y) =
        st.hash_term_y_num.sum (fun k => k.2 = y) +
          classPv tests (readLine line).join.toList y ∧
      st'.hash_termnum_of_y.get y = st.hash_termnum_of_y.get y +
        (readLine line).join.toList.countP fun l => l.1 = y := by
  rw [trainLine] at hrun
  cases hline : readLine line with
  | none => simp [hline] at hrun
  | some read =>
    rw [hline] at hrun
    cases read with
    | none =>
      obtain rfl := Option.some.inj hrun
      simp [classPv]
    | some labelled =>
      obtain ⟨st₁, hwords, rfl⟩ := Option.map_eq_some_iff.mp hrun
      obtain ⟨hsum, hnum⟩ := trainWords_terms hwords
      refine ⟨(hsum y).trans ?_, ?_⟩
      · by_cases hy : labelled.1 = y <;> simp [classPv, hy]
      · dsimp only at hnum ⊢
        rw [hnum, Tally.get_add]
        by_cases hy : labelled.1 = y <;> simp [hy]

theorem trainLines_terms : ∀ {lines : List Bytes} {st : Statistic},
    lines.foldlM (trainLine tests) st = some st' → ∀ y,
      st'.hash_term_y_num.sum (fun k => k.2 = y) =
          st.hash_term_y_num.sum (fun k => k.2 = y) +
            classPv tests (lines.filterMap fun line => (readLine line).join) y ∧
        st'.hash_termnum_of_y.get y = st.hash_termnum_of_y.get y +
          (lines.filterMap fun line => (readLine line).join).countP fun l => l.1 = y
  | [], st, hrun, y => by
    obtain rfl := Option.some.inj hrun
    simp [classPv]
  | line :: lines, st, hrun, y => by
    obtain ⟨mid, hline, hrest⟩ := foldlM_cons_some.mp hrun
    obtain ⟨hsum, hnum⟩ := trainLine_terms hline y
    obtain ⟨hsums, hnums⟩ := trainLines_terms hrest y
    have hlines : ((line :: lines).filterMap fun line => (readLine line).join) =
        (readLine line).join.toList ++ lines.filterMap fun line => (readLine line).join := by
      rw [List.filterMap_cons]
      cases (readLine line).join <;> rfl
    rw [hlines, classPv_append, List.countP_append, Int.natCast_add, hsums, hsum, hnums, hnum]
    omega

end

/-! ## Results -/

/-- **After a training the margins are the sums of the tables of pairs.** -/
theorem train_margins (tests : WordTests) (infile : Bytes) (st : Statistic)
    (h : trainfile_statistic_word tests infile .fresh = some st) : Margins st :=
  run_keeps (P := fun _ _ => True) (fun hst _ hline => Margins.line hst hline) margins_fresh
    (fun _ _ _ _ _ _ => trivial) h

/-- Tests that leave nothing out. -/
def noTests : WordTests := ⟨fun _ => false, fun _ => false, fun _ => false, fun _ => false⟩

def twoWords : Bytes := ascii "y ab:3 cd"

theorem train_margins_small : ∃ st, trainfile_statistic_word noTests twoWords .fresh = some st ∧
    Margins st := by
  have hrun : (trainfile_statistic_word noTests twoWords .fresh).isSome := by decide +kernel
  obtain ⟨st, hst⟩ := Option.isSome_iff_exists.mp hrun
  exact ⟨st, hst, train_margins noTests twoWords st hst⟩

/-- **After a training the table of the classes is the sum of the term table exactly when the
terms of every class have as many page views together as the class has lines.** -/
theorem train_termnum_iff (tests : WordTests) (infile : Bytes) (st : Statistic)
    (h : trainfile_statistic_word tests infile .fresh = some st) :
    Tally.IsRight st.hash_term_y_num st.hash_termnum_of_y ↔
      ∀ y, ((countedLines infile).countP fun l => l.1 = y : Int) =
        classPv tests (countedLines infile) y := by
  refine forall_congr' fun y => ?_
  obtain ⟨hsum, hnum⟩ := trainLines_terms h y
  have hempty : Statistic.fresh.hash_term_y_num.sum (fun k => k.2 = y) = 0 := rfl
  have hzero : Statistic.fresh.hash_termnum_of_y.get y = 0 := rfl
  rw [hsum, hnum, hempty, hzero, zero_add, zero_add, countedLines]

theorem train_termnum_small : ∃ st, trainfile_statistic_word noTests twoWords .fresh = some st ∧
    (Tally.IsRight st.hash_term_y_num st.hash_termnum_of_y ↔
      ∀ y, ((countedLines twoWords).countP fun l => l.1 = y : Int) =
        classPv noTests (countedLines twoWords) y) := by
  have hrun : (trainfile_statistic_word noTests twoWords .fresh).isSome := by decide +kernel
  obtain ⟨st, hst⟩ := Option.isSome_iff_exists.mp hrun
  exact ⟨st, hst, train_termnum_iff noTests twoWords st hst⟩

/-- One line whose two terms have four page views. -/
theorem train_termnum_differs : ∃ st,
    trainfile_statistic_word noTests twoWords .fresh = some st ∧
      st.hash_termnum_of_y.get [121] = 1 ∧
      st.hash_term_y_num.sum (fun k => k.2 = [121]) = 4 ∧
      ¬ Tally.IsRight st.hash_term_y_num st.hash_termnum_of_y := by
  have hrun : (trainfile_statistic_word noTests twoWords .fresh).map (fun st =>
      (st.hash_termnum_of_y.get [121], st.hash_term_y_num.sum fun k => k.2 = [121])) =
        some (1, 4) := by decide +kernel
  obtain ⟨st, hst, hvalues⟩ := Option.map_eq_some_iff.mp hrun
  obtain ⟨hnum, hsum⟩ := Prod.mk.inj hvalues
  refine ⟨st, hst, hnum, hsum, fun h => ?_⟩
  have heq := h [121]
  rw [hnum, hsum] at heq
  simp at heq

end CommonTools.Classify.WordGram
