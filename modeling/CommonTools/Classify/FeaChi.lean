import CommonTools.Gary.GaryString
import CommonTools.Index.IndexDa
import CommonTools.Lib.Tally
import CommonTools.Lib.Text
import Mathlib.Algebra.Order.Ring.Rat
import Mathlib.Tactic.LinearCombination
import Mathlib.Tactic.NormNum

/-! # The chi-square features

Every file is a class and every line of it a document. One pass over the files counts
documents by class and by term; a second pass over the pairs of a term and a class takes the
four counts of each from these tables. The final division is exact here. -/
namespace CommonTools.Classify.FeaSel
open CommonTools.Lib CommonTools.Gary
open Index.IndexDa (stringTrim)

/-! ## `feaChi.cpp` -/

structure FeaChi where
  trainInfo : Tally (Bytes × Bytes)
  documentNumOfTerm : Tally Bytes
  documentNumOfCla : Tally Bytes
  totalDocumentNum : Int
  feaCHI : Bytes × Bytes → Option ℚ

/-- A new object; the constructor leaves `totalDocumentNum` as it is. -/
def FeaChi.new (totalDocumentNum : Int) : FeaChi := ⟨∅, ∅, ∅, totalDocumentNum, fun _ => none⟩

def FeaChi.init (fea : FeaChi) : FeaChi := { fea with totalDocumentNum := 0 }

/-- The terms of a line, as `StringTrim` and `StringSplit` leave them. -/
def lineTerms (line : Bytes) : List Bytes := (stringSplit (stringTrim line) [32]).getD []

/-- One round of the loop over the terms; `isIn` has the terms of the line so far. -/
def loadTerm (cla : Bytes) (st : FeaChi × Tally Bytes) (word : Bytes) : FeaChi × Tally Bytes :=
  let (fea, isIn) := st
  if word ∈ isIn then (fea, isIn.add word 1)
  else
    ({ fea with trainInfo := fea.trainInfo.add (word, cla) 1,
                documentNumOfTerm := fea.documentNumOfTerm.add word 1 }, isIn.add word 1)

/-- One round of the loop over the lines. -/
def loadLine (cla : Bytes) (fea : FeaChi) (line : Bytes) : FeaChi :=
  let (fea, _) := (lineTerms line).foldl (loadTerm cla) (fea, ∅)
  { fea with documentNumOfCla := fea.documentNumOfCla.add cla 1,
             totalDocumentNum := fea.totalDocumentNum + 1 }

variable (file : Bytes → Option Bytes)

/-- `loadChiFile`: the return value and the object; `file` is what can be opened. -/
def FeaChi.loadChiFile (fea : FeaChi) (filename : Bytes) : Int × FeaChi :=
  match file filename with
  | none => (-1, fea)
  | some content => (0, (getlines 10 content).foldl (loadLine filename) fea)

def FeaChi.loadChiData (fea : FeaChi) (filenames : List Bytes) : Int × FeaChi :=
  if filenames.length < 2 then (-1, fea)
  else (0, filenames.foldl (fun fea filename => (fea.loadChiFile file (cstr filename)).2) fea)

structure Counts where
  A : Int
  B : Int
  C : Int
  D : Int
deriving DecidableEq

/-- The counts of the pair at `iter`. -/
def FeaChi.counts (fea : FeaChi) (iter : (Bytes × Bytes) × Int) : Counts :=
  let term := iter.1.1
  let cla := iter.1.2
  let A := iter.2
  let B := fea.documentNumOfTerm.get term - A
  let C := fea.documentNumOfCla.get cla - A
  let D := fea.totalDocumentNum - A - B - C
  ⟨A, B, C, D⟩

def Counts.weight (c : Counts) : ℚ :=
  let AD := c.A * c.D
  let BC := c.B * c.C
  let A_B := c.A + c.B
  let C_D := c.C + c.D
  let fractions := AD - BC
  let numerate := A_B * C_D
  let N := c.A + c.B + c.C + c.D
  let fractions := fractions.tdiv N
  ((fractions * fractions : Int) : ℚ) / (numerate : Int)

/-- One round of the loop over the pairs. -/
def FeaChi.scorePair (fea : FeaChi) (feaCHI : Bytes × Bytes → Option ℚ)
    (iter : (Bytes × Bytes) × Int) : Bytes × Bytes → Option ℚ :=
  Function.update feaCHI iter.1 (some (fea.counts iter).weight)

/-- `CHI`; it does not look at what `loadChiData` returns. -/
def FeaChi.chi (fea : FeaChi) (filenames : List Bytes) : FeaChi :=
  let fea := (fea.loadChiData file filenames).2
  { fea with feaCHI := fea.trainInfo.entries.foldl fea.scorePair fea.feaCHI }

/-! ## The corpus -/

/-- A document: its class and its terms. -/
structure Doc where
  cla : Bytes
  terms : List Bytes

instance (d : Doc) (term : Bytes) : Decidable (term ∈ d.terms) :=
  decidable_of_iff (d.terms.any fun t => t = term) (by simp)

def fileDocs (filename : Bytes) : List Doc :=
  match file (cstr filename) with
  | none => []
  | some content => (getlines 10 content).map fun line => ⟨cstr filename, lineTerms line⟩

/-- The documents that are loaded. -/
def corpus (filenames : List Bytes) : List Doc :=
  if filenames.length < 2 then [] else filenames.flatMap (fileDocs file)

/-- The documents of a corpus by class and by term. -/
def contingency (docs : List Doc) (term cla : Bytes) : Counts where
  A := docs.countP fun d => d.cla = cla ∧ term ∈ d.terms
  B := docs.countP fun d => d.cla ≠ cla ∧ term ∈ d.terms
  C := docs.countP fun d => d.cla = cla ∧ term ∉ d.terms
  D := docs.countP fun d => d.cla ≠ cla ∧ term ∉ d.terms

/-- What the tables hold behind the documents `docs`. -/
structure Counted (fea : FeaChi) (docs : List Doc) : Prop where
  pair : ∀ term cla, fea.trainInfo.get (term, cla) =
    docs.countP fun d => d.cla = cla ∧ term ∈ d.terms
  scored : ∀ term cla, (term, cla) ∈ fea.trainInfo ↔ ∃ d ∈ docs, d.cla = cla ∧ term ∈ d.terms
  term : ∀ term, fea.documentNumOfTerm.get term = docs.countP fun d => term ∈ d.terms
  cla : ∀ cla, fea.documentNumOfCla.get cla = docs.countP fun d => d.cla = cla
  total : fea.totalDocumentNum = docs.length

/-! ## Counting -/

section
variable {cla : Bytes} {fea : FeaChi} {docs : List Doc}

/-- In the loop over the terms of a line, behind the terms `done`: each of these is counted
once. -/
structure Partly (cla : Bytes) (fea : FeaChi) (done : List Bytes) (st : FeaChi × Tally Bytes) :
    Prop where
  isIn : ∀ word, word ∈ st.2 ↔ word ∈ done
  pair : ∀ term c, st.1.trainInfo.get (term, c) =
    fea.trainInfo.get (term, c) + if c = cla ∧ term ∈ done then 1 else 0
  scored : ∀ term c, (term, c) ∈ st.1.trainInfo ↔
    (term, c) ∈ fea.trainInfo ∨ (c = cla ∧ term ∈ done)
  term : ∀ term, st.1.documentNumOfTerm.get term =
    fea.documentNumOfTerm.get term + if term ∈ done then 1 else 0
  cla : st.1.documentNumOfCla = fea.documentNumOfCla
  total : st.1.totalDocumentNum = fea.totalDocumentNum

theorem Partly.init : Partly cla fea [] (fea, ∅) :=
  ⟨fun word => by simp [Tally.not_mem_empty], fun _ _ => by simp, fun _ _ => by simp,
    fun _ => by simp, rfl, rfl⟩

theorem Partly.round {done : List Bytes} {st : FeaChi × Tally Bytes} (h : Partly cla fea done st)
    (word : Bytes) : Partly cla fea (done ++ [word]) (loadTerm cla st word) := by
  obtain ⟨fea', isIn⟩ := st
  obtain ⟨hin, hpair, hscored, hterm, hcla, htotal⟩ := h
  by_cases hword : word ∈ isIn
  · have hdone : word ∈ done := (hin word).mp hword
    have hsame : ∀ t, t ∈ done ++ [word] ↔ t ∈ done := fun t => by
      rw [List.mem_append, List.mem_singleton]
      exact ⟨fun ht => ht.elim id fun heq => heq ▸ hdone, .inl⟩
    have hround : loadTerm cla (fea', isIn) word = (fea', isIn.add word 1) := by
      simp only [loadTerm, if_pos hword]
    rw [hround]
    refine ⟨fun t => ?_, ?_, ?_, ?_, hcla, htotal⟩
    · rw [Tally.mem_add, hin t, hsame t]
      exact ⟨fun ht => ht.elim (fun heq => heq ▸ hdone) id, .inr⟩
    · simpa only [hsame] using hpair
    · simpa only [hsame] using hscored
    · simpa only [hsame] using hterm
  · have hnew : word ∉ done := mt (hin word).mpr hword
    have hround : loadTerm cla (fea', isIn) word =
        ({ fea' with trainInfo := fea'.trainInfo.add (word, cla) 1,
                     documentNumOfTerm := fea'.documentNumOfTerm.add word 1 },
          isIn.add word 1) := by
      simp only [loadTerm, if_neg hword]
    rw [hround]
    refine ⟨fun t => ?_, fun t c => ?_, fun t c => ?_, fun t => ?_, hcla, htotal⟩
    · rw [Tally.mem_add, hin t, List.mem_append, List.mem_singleton, or_comm]
    · dsimp only
      rw [Tally.get_add, hpair t c]
      by_cases ht : t = word
      · subst ht
        by_cases hc : c = cla
        · simp [hc, hnew]
        · simp [hc, Ne.symm hc]
      · simp [ht, Ne.symm ht]
    · dsimp only
      rw [Tally.mem_add, hscored t c, Prod.mk.injEq, List.mem_append, List.mem_singleton]
      tauto
    · dsimp only
      rw [Tally.get_add, hterm t]
      by_cases ht : t = word
      · simp [ht, hnew]
      · simp [ht, Ne.symm ht]

theorem Partly.run {done : List Bytes} : ∀ {terms : List Bytes} {st : FeaChi × Tally Bytes},
    Partly cla fea done st → Partly cla fea (done ++ terms) (terms.foldl (loadTerm cla) st) := by
  intro terms
  induction terms generalizing done with
  | nil =>
    intro st h
    rwa [List.append_nil]
  | cons word terms ih =>
    intro st h
    rw [List.foldl_cons, List.append_cons]
    exact ih (h.round word)

theorem countP_concat (docs : List Doc) (doc : Doc) (p : Doc → Bool) :
    ((docs ++ [doc]).countP p : Int) = docs.countP p + if p doc then 1 else 0 := by
  rw [List.countP_append, List.countP_singleton]
  split <;> simp

theorem Counted.line (h : Counted fea docs) (line : Bytes) :
    Counted (loadLine cla fea line) (docs ++ [⟨cla, lineTerms line⟩]) := by
  have hterms : Partly cla fea (lineTerms line) ((lineTerms line).foldl (loadTerm cla) (fea, ∅)) :=
    Partly.init.run
  refine ⟨fun term c => ?_, fun term c => ?_, fun term => ?_, fun c => ?_, ?_⟩
  · rw [countP_concat, ← h.pair]
    refine (hterms.pair term c).trans ?_
    simp [@eq_comm _ c cla]
  · refine (hterms.scored term c).trans ?_
    rw [h.scored, @eq_comm _ c cla]
    simp only [List.mem_append, List.mem_singleton, or_and_right, exists_or, exists_eq_left]
  · rw [countP_concat, ← h.term]
    refine (hterms.term term).trans ?_
    simp
  · rw [countP_concat, ← h.cla, ← hterms.cla]
    simp [loadLine]
  · rw [List.length_append, Int.natCast_add, ← h.total, ← hterms.total]
    rfl

theorem Counted.lines (h : Counted fea docs) : ∀ {lines : List Bytes},
    Counted (lines.foldl (loadLine cla) fea)
      (docs ++ lines.map fun line => ⟨cla, lineTerms line⟩) := by
  intro lines
  induction lines generalizing fea docs with
  | nil => simpa using h
  | cons line lines ih =>
    rw [List.foldl_cons, List.map_cons, List.append_cons]
    exact ih (h.line line)

theorem Counted.loadFile (h : Counted fea docs) (file : Bytes → Option Bytes) (filename : Bytes) :
    Counted (fea.loadChiFile file (cstr filename)).2 (docs ++ fileDocs file filename) := by
  rw [FeaChi.loadChiFile, fileDocs]
  cases file (cstr filename) with
  | none => simpa using h
  | some content => exact h.lines

theorem Counted.loadFiles (h : Counted fea docs) (file : Bytes → Option Bytes) :
    ∀ {filenames : List Bytes},
      Counted (filenames.foldl (fun fea filename => (fea.loadChiFile file (cstr filename)).2) fea)
        (docs ++ filenames.flatMap (fileDocs file)) := by
  intro filenames
  induction filenames generalizing fea docs with
  | nil => simpa using h
  | cons filename filenames ih =>
    rw [List.foldl_cons, List.flatMap_cons, ← List.append_assoc]
    exact ih (h.loadFile file filename)

theorem counted_init (totalDocumentNum : Int) : Counted (FeaChi.new totalDocumentNum).init [] :=
  ⟨fun _ _ => rfl, fun _ _ => by simp [FeaChi.new, FeaChi.init, Tally.not_mem_empty],
    fun _ => rfl, fun _ => rfl, rfl⟩

/-- The tables count the documents of the corpus. -/
theorem chi_counted (file : Bytes → Option Bytes) (filenames : List Bytes)
    (totalDocumentNum : Int) :
    Counted ((FeaChi.new totalDocumentNum).init.chi file filenames) (corpus file filenames) := by
  have hload : Counted ((FeaChi.new totalDocumentNum).init.loadChiData file filenames).2
      (corpus file filenames) := by
    rw [FeaChi.loadChiData, corpus]
    split
    · exact counted_init totalDocumentNum
    · exact (counted_init totalDocumentNum).loadFiles file
  exact ⟨hload.pair, hload.scored, hload.term, hload.cla, hload.total⟩

end

/-! ## The four counts -/

section
variable {fea : FeaChi} {docs : List Doc}

theorem countP_split (docs : List Doc) (p q : Doc → Prop) [DecidablePred p] [DecidablePred q] :
    (docs.countP fun d => q d : Int) =
      (docs.countP fun d => p d ∧ q d) + docs.countP fun d => ¬ p d ∧ q d := by
  induction docs with
  | nil => rfl
  | cons d docs ih =>
    simp only [List.countP_cons, Int.natCast_add, ih]
    by_cases hp : p d <;> by_cases hq : q d <;> simp [hp, hq] <;> omega

theorem contingency_terms (docs : List Doc) (term cla : Bytes) :
    (contingency docs term cla).A + (contingency docs term cla).B =
      docs.countP fun d => term ∈ d.terms :=
  (countP_split docs (fun d => d.cla = cla) fun d => term ∈ d.terms).symm

theorem contingency_others (docs : List Doc) (term cla : Bytes) :
    (contingency docs term cla).C + (contingency docs term cla).D =
      docs.countP fun d => term ∉ d.terms :=
  (countP_split docs (fun d => d.cla = cla) fun d => term ∉ d.terms).symm

theorem contingency_class (docs : List Doc) (term cla : Bytes) :
    (contingency docs term cla).A + (contingency docs term cla).C =
      docs.countP fun d => d.cla = cla := by
  have hsplit := countP_split docs (fun d => term ∈ d.terms) fun d => d.cla = cla
  simp only [and_comm] at hsplit
  exact hsplit.symm

theorem contingency_sum (docs : List Doc) (term cla : Bytes) :
    (contingency docs term cla).A + (contingency docs term cla).B +
      (contingency docs term cla).C + (contingency docs term cla).D = docs.length := by
  have hterms := contingency_terms docs term cla
  have hothers := contingency_others docs term cla
  have hall := countP_split docs (fun d => term ∈ d.terms) fun _ => True
  simp only [and_true, decide_true, List.countP_true] at hall
  omega

/-- The counts of an entry are those of the documents. -/
theorem Counted.counts (h : Counted fea docs) {iter : (Bytes × Bytes) × Int}
    (hiter : iter ∈ fea.trainInfo.entries) :
    fea.counts iter = contingency docs iter.1.1 iter.1.2 := by
  obtain ⟨⟨term, cla⟩, n⟩ := iter
  have hpair : n = (contingency docs term cla).A :=
    (Tally.get_of_mem hiter).symm.trans (h.pair term cla)
  have hterm := h.term term
  have hcla := h.cla cla
  have htotal := h.total
  rw [← contingency_terms docs term cla] at hterm
  rw [← contingency_class docs term cla] at hcla
  rw [← contingency_sum docs term cla] at htotal
  simp only [FeaChi.counts, hpair, hterm, hcla, htotal]
  generalize contingency docs term cla = c
  obtain ⟨A, B, C, D⟩ := c
  simp only [Counts.mk.injEq, true_and]
  omega

/-- **The counts of every scored pair are those of the corpus.** -/
theorem chi_counts (file : Bytes → Option Bytes) (filenames : List Bytes)
    (totalDocumentNum : Int) (iter : (Bytes × Bytes) × Int)
    (hiter : iter ∈
      ((FeaChi.new totalDocumentNum).init.chi file filenames).trainInfo.entries) :
    let fea := (FeaChi.new totalDocumentNum).init.chi file filenames
    let docs := corpus file filenames
    let c := fea.counts iter
    c = contingency docs iter.1.1 iter.1.2 ∧ (0 ≤ c.A ∧ 0 ≤ c.B ∧ 0 ≤ c.C ∧ 0 ≤ c.D) ∧
      c.A + c.B + c.C + c.D = fea.totalDocumentNum ∧ fea.totalDocumentNum = docs.length := by
  intro fea docs c
  have hcounted : Counted fea docs := chi_counted file filenames totalDocumentNum
  have hc : c = contingency docs iter.1.1 iter.1.2 := hcounted.counts hiter
  refine ⟨hc, ?_, ?_, hcounted.total⟩
  · rw [hc]
    exact ⟨Int.natCast_nonneg _, Int.natCast_nonneg _, Int.natCast_nonneg _, Int.natCast_nonneg _⟩
  · rw [hc, contingency_sum, hcounted.total]

end

/-- Two files: `x` with the documents `a` and `b`, and `y` with the document `b`. -/
def twoFiles (filename : Bytes) : Option Bytes :=
  if filename = ascii "x" then some [97, 10, 98]
  else if filename = ascii "y" then some [98]
  else none

theorem chi_counts_small :
    let fea := (FeaChi.new 7).init.chi twoFiles [ascii "x", ascii "y"]
    let docs := corpus twoFiles [ascii "x", ascii "y"]
    let c := fea.counts (([98], ascii "x"), 1)
    c = contingency docs [98] (ascii "x") ∧ (0 ≤ c.A ∧ 0 ≤ c.B ∧ 0 ≤ c.C ∧ 0 ≤ c.D) ∧
      c.A + c.B + c.C + c.D = fea.totalDocumentNum ∧ fea.totalDocumentNum = docs.length :=
  chi_counts twoFiles [ascii "x", ascii "y"] 7 (([98], ascii "x"), 1) (by decide +kernel)

/-! ## The scores -/

/-- The chi-square statistic of a pair. -/
def chiSquare (c : Counts) : ℚ :=
  ((c.A * c.D - c.B * c.C : Int) : ℚ) ^ 2 /
    (((c.A + c.B + c.C + c.D : Int) : ℚ) ^ 2 * ((c.A + c.B) * (c.C + c.D) : Int))

/-- Every score is the statistic of its pair, with a denominator that is not zero, and orders
the terms of a class as the statistic does. -/
structure ScoresRight (fea : FeaChi) : Prop where
  denominator : ∀ iter ∈ fea.trainInfo.entries,
    ((fea.counts iter).A + (fea.counts iter).B) * ((fea.counts iter).C + (fea.counts iter).D) ≠ 0
  score : ∀ iter ∈ fea.trainInfo.entries,
    fea.feaCHI iter.1 = some (chiSquare (fea.counts iter))
  order : ∀ iter ∈ fea.trainInfo.entries, ∀ iter' ∈ fea.trainInfo.entries,
    iter.1.2 = iter'.1.2 → ∀ w w', fea.feaCHI iter.1 = some w → fea.feaCHI iter'.1 = some w' →
      (w ≤ w' ↔ chiSquare (fea.counts iter) ≤ chiSquare (fea.counts iter'))

/-- A square of a quotient without its rest is the square of the exact quotient when there is
no rest. -/
theorem tdiv_sq_eq_iff {x n m : Int} (hn : n ≠ 0) (hm : m ≠ 0) :
    ((x.tdiv n * x.tdiv n : Int) : ℚ) / (m : Int) = (x : ℚ) ^ 2 / ((n : ℚ) ^ 2 * (m : Int)) ↔
      n ∣ x := by
  have hn' : (n : ℚ) ≠ 0 := Int.cast_ne_zero.mpr hn
  have hm' : (m : ℚ) ≠ 0 := Int.cast_ne_zero.mpr hm
  have hexact : ((x.tdiv n * x.tdiv n : Int) : ℚ) / (m : Int) =
      (x : ℚ) ^ 2 / ((n : ℚ) ^ 2 * (m : Int)) ↔ (x.tdiv n * n) ^ 2 = x ^ 2 := by
    rw [div_eq_div_iff hm' (mul_ne_zero (pow_ne_zero 2 hn') hm'), ← @Int.cast_inj ℚ]
    push_cast
    constructor
    · intro h
      refine mul_right_cancel₀ hm' ?_
      linear_combination h
    · intro h
      linear_combination (m : ℚ) * h
  rw [hexact, sq_eq_sq_iff_eq_or_eq_neg]
  constructor
  · intro h
    rcases h with h | h
    · exact ⟨x.tdiv n, by rw [mul_comm, h]⟩
    · exact ⟨-x.tdiv n, by linear_combination h⟩
  · intro h
    obtain ⟨k, rfl⟩ := h
    rw [Int.mul_tdiv_cancel_left k hn, mul_comm]
    exact .inl rfl

/-- A pair with a document of its class and its term. -/
theorem weight_eq_iff {c : Counts} (hA : 0 < c.A) (hB : 0 ≤ c.B) (hC : 0 ≤ c.C) (hD : 0 ≤ c.D) :
    ((c.A + c.B) * (c.C + c.D) ≠ 0 ∧ c.weight = chiSquare c) ↔
      0 < c.C + c.D ∧ c.A + c.B + c.C + c.D ∣ c.A * c.D - c.B * c.C := by
  have hpos : (c.A + c.B) * (c.C + c.D) ≠ 0 ↔ 0 < c.C + c.D := by
    rw [mul_ne_zero_iff]
    omega
  rw [hpos]
  refine and_congr_right fun hCD => ?_
  exact tdiv_sq_eq_iff (by omega) (hpos.mpr hCD)

section
variable {file : Bytes → Option Bytes} {filenames : List Bytes} {totalDocumentNum : Int}

theorem foldl_scorePair (fea : FeaChi) {iter : (Bytes × Bytes) × Int} :
    ∀ {entries : List ((Bytes × Bytes) × Int)} (feaCHI : Bytes × Bytes → Option ℚ),
      (entries.map Prod.fst).Nodup → iter ∈ entries →
        entries.foldl fea.scorePair feaCHI iter.1 = some (fea.counts iter).weight := by
  have hkept : ∀ (entries : List ((Bytes × Bytes) × Int)) (feaCHI : Bytes × Bytes → Option ℚ),
      iter.1 ∉ entries.map Prod.fst →
        entries.foldl fea.scorePair feaCHI iter.1 = feaCHI iter.1 := by
    intro entries
    induction entries with
    | nil => exact fun _ _ => rfl
    | cons e entries ih =>
      intro feaCHI hnot
      simp only [List.map_cons, List.mem_cons, not_or] at hnot
      rw [List.foldl_cons, ih _ hnot.2, FeaChi.scorePair, Function.update_of_ne hnot.1]
  intro entries
  induction entries with
  | nil => exact fun _ _ h => absurd h List.not_mem_nil
  | cons e entries ih =>
    intro feaCHI hnodup hmem
    rw [List.map_cons, List.nodup_cons] at hnodup
    rcases List.mem_cons.mp hmem with rfl | hmem
    · rw [List.foldl_cons, hkept _ _ hnodup.1, FeaChi.scorePair, Function.update_self]
    · exact ih _ hnodup.2 hmem

/-- The score of an entry is stored under its pair. -/
theorem chi_feaCHI {iter : (Bytes × Bytes) × Int}
    (hiter : iter ∈
      ((FeaChi.new totalDocumentNum).init.chi file filenames).trainInfo.entries) :
    ((FeaChi.new totalDocumentNum).init.chi file filenames).feaCHI iter.1 =
      some (((FeaChi.new totalDocumentNum).init.chi file filenames).counts iter).weight :=
  foldl_scorePair _ _ (Tally.nodup _) hiter

/-- What a pair of the corpus has to be like to get the statistic as its score. -/
def Exact (docs : List Doc) (term cla : Bytes) : Prop :=
  (∃ d ∈ docs, term ∉ d.terms) ∧
    (docs.length : Int) ∣ (contingency docs term cla).A * (contingency docs term cla).D -
      (contingency docs term cla).B * (contingency docs term cla).C

theorem weight_eq_iff_exact {docs : List Doc} {doc : Doc} (hdoc : doc ∈ docs) {term : Bytes}
    (hterm : term ∈ doc.terms) :
    (((contingency docs term doc.cla).A + (contingency docs term doc.cla).B) *
        ((contingency docs term doc.cla).C + (contingency docs term doc.cla).D) ≠ 0 ∧
      (contingency docs term doc.cla).weight = chiSquare (contingency docs term doc.cla)) ↔
      Exact docs term doc.cla := by
  have hA : 0 < (contingency docs term doc.cla).A :=
    Int.natCast_pos.mpr (List.countP_pos_iff.mpr ⟨doc, hdoc, by simp [hterm]⟩)
  rw [weight_eq_iff hA (Int.natCast_nonneg _) (Int.natCast_nonneg _) (Int.natCast_nonneg _),
    contingency_others, contingency_sum, Exact, Int.natCast_pos, List.countP_pos_iff]
  simp

theorem Counted.scoresRight_iff {fea : FeaChi} {docs : List Doc} (h : Counted fea docs)
    (hstored : ∀ iter ∈ fea.trainInfo.entries,
      fea.feaCHI iter.1 = some (fea.counts iter).weight) :
    ScoresRight fea ↔ ∀ doc ∈ docs, ∀ term ∈ doc.terms, Exact docs term doc.cla := by
  constructor
  · intro hright doc hdoc term hterm
    obtain ⟨n, hiter⟩ := Tally.mem_iff.mp ((h.scored term doc.cla).mpr ⟨doc, hdoc, rfl, hterm⟩)
    have hden := hright.denominator _ hiter
    have hscore := (hstored _ hiter).symm.trans (hright.score _ hiter)
    rw [h.counts hiter] at hden hscore
    exact (weight_eq_iff_exact hdoc hterm).mp ⟨hden, Option.some.inj hscore⟩
  · intro hall
    have hexact : ∀ iter ∈ fea.trainInfo.entries,
        ((fea.counts iter).A + (fea.counts iter).B) *
            ((fea.counts iter).C + (fea.counts iter).D) ≠ 0 ∧
          (fea.counts iter).weight = chiSquare (fea.counts iter) := by
      intro iter hiter
      obtain ⟨⟨term, cla⟩, n⟩ := iter
      obtain ⟨doc, hdoc, rfl, hterm⟩ := (h.scored term cla).mp (Tally.mem_iff.mpr ⟨n, hiter⟩)
      rw [h.counts hiter]
      exact (weight_eq_iff_exact hdoc hterm).mpr (hall doc hdoc term hterm)
    have hscore : ∀ iter ∈ fea.trainInfo.entries,
        fea.feaCHI iter.1 = some (chiSquare (fea.counts iter)) := fun iter hiter =>
      (hstored iter hiter).trans (congrArg some (hexact iter hiter).2)
    refine ⟨fun iter hiter => (hexact iter hiter).1, hscore, ?_⟩
    intro iter hiter iter' hiter' _ w w' hw hw'
    rw [Option.some.inj (hw.symm.trans (hscore iter hiter)),
      Option.some.inj (hw'.symm.trans (hscore iter' hiter'))]

/-- **The scores are the chi-square statistics exactly when every term of the corpus is missing
from some document and the number of documents divides `A * D - B * C` for each of its
classes.** -/
theorem chi_scores_iff (file : Bytes → Option Bytes) (filenames : List Bytes)
    (totalDocumentNum : Int) :
    ScoresRight ((FeaChi.new totalDocumentNum).init.chi file filenames) ↔
      ∀ doc ∈ corpus file filenames, ∀ term ∈ doc.terms,
        Exact (corpus file filenames) term doc.cla :=
  (chi_counted file filenames totalDocumentNum).scoresRight_iff fun _ => chi_feaCHI

end

/-- One of three documents has the term `a`: its statistic is not 0, but its score is. -/
theorem chi_scores_small :
    let fea := (FeaChi.new 0).init.chi twoFiles [ascii "x", ascii "y"]
    fea.feaCHI ([97], ascii "x") = some 0 ∧ ¬ ScoresRight fea := by
  intro fea
  have hiter : (([97], ascii "x"), 1) ∈ fea.trainInfo.entries := by decide +kernel
  have hcounts : fea.counts (([97], ascii "x"), 1) = ⟨1, 0, 1, 1⟩ := by decide +kernel
  have hscore : fea.feaCHI ([97], ascii "x") = some 0 := by
    refine (chi_feaCHI hiter).trans (congrArg some ?_)
    change (fea.counts (([97], ascii "x"), 1)).weight = 0
    have hquot : Int.tdiv 1 3 = 0 := rfl
    rw [hcounts]
    norm_num [Counts.weight, hquot]
  refine ⟨hscore, fun h => ?_⟩
  have hright := h.score _ hiter
  rw [hcounts, hscore, Option.some_inj] at hright
  norm_num [chiSquare] at hright

end CommonTools.Classify.FeaSel
