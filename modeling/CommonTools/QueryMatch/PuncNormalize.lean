import CommonTools.Lib.InPlace

/-! # Punctuation in a `gchar` string

`PuncNormalize_gchar` drops punctuation, and full-width spaces when asked to, in
the buffer that holds the string. -/
namespace CommonTools.QueryMatch
open CommonTools.Lib

/-! ## Classes of characters -/

/-- The codes of `ispunct_gchar`. -/
def puncts : List UInt16 :=
  [44195, 41889, 41379, 49059,
    48035, 47779, 42915, 41635, 41633, 43171,
    43427, 44451, 48291, 48803, 46753, 47009,
    44707, 64419, 64931, 56227, 56739, 48801,
    49057, 43937]

def ispunctGchar (ch : UInt16) : Bool := puncts.contains ch

def isalphaGchar (ch : UInt16) : Bool :=
  ch &&& 0xff == 0xa3 &&
    (decide (ch &&& 0xff00 ≥ 0xe100) && decide (ch &&& 0xff00 ≤ 0xfa00) ||
      decide (ch &&& 0xff00 ≥ 0xc100) && decide (ch &&& 0xff00 ≤ 0xda00))

def isdigitGchar (ch : UInt16) : Bool :=
  ch &&& 0xff == 0xa3 && decide (ch &&& 0xff00 ≥ 0xb000) && decide (ch &&& 0xff00 ≤ 0xb900)

def isspaceGchar (ch : UInt16) : Bool := ch == 0xa1a1

/-- The letters, and `#` unless it is treated as the others are. -/
def isalphaOrSign (delNumberSign : Bool) (ch : UInt16) : Bool :=
  isalphaGchar ch || (!delNumberSign && ch == 0x23)

/-! ## The function -/

inductive AdState where
  | norm
  | alpha
  | digit
deriving DecidableEq

/-- The buffer, and the pointers into it as offsets. -/
structure PuncState where
  str : Nat → UInt16
  inp : Nat
  out : Nat
  adstate : AdState

/-- `*out++ = *in`, with the state that the character leaves. -/
def PuncState.put (st : PuncState) (adstate : AdState) : PuncState :=
  { st with str := Function.update st.str st.out (st.str st.inp), out := st.out + 1, adstate }

/-- The look-ahead behind a digit. -/
def lookDigit (p : UInt16 → Bool) (fuel : Nat) (st : PuncState) : Option PuncState := do
  let outt := st.out
  let str := Function.update st.str st.out (st.str st.inp)
  let (str, inp, out) ← copyWhile 0 p fuel str (st.inp + 1) (st.out + 1)
  let out := if !isdigitGchar (str inp) then outt else out
  some { st with str, inp := inp - 1, out }

/-- The look-ahead from a space behind a letter. -/
def lookAlpha (fuel : Nat) (st : PuncState) : Option PuncState := do
  let outt := st.out
  let str := Function.update st.str st.out (st.str st.inp)
  let inp ← skipWhile 0 (fun c => isspaceGchar c || ispunctGchar c) fuel str (st.inp + 1)
  let out := if !isalphaGchar (str inp) then outt else st.out + 1
  some { st with str, inp := inp - 1, out }

section
variable (delSpace delNumberSign : Bool)

def puncRound (fuel : Nat) (st : PuncState) : Option PuncState :=
  let ch := st.str st.inp
  if isdigitGchar ch then some (st.put .digit)
  else if isalphaOrSign delNumberSign ch then some (st.put .alpha)
  else if ispunctGchar ch then
    if st.adstate = .digit then
      lookDigit (fun c => ispunctGchar c || (delSpace && isspaceGchar c)) fuel st
    else some st
  else if delSpace && isspaceGchar ch then
    if st.adstate = .alpha then lookAlpha fuel st
    else if st.adstate = .digit then
      lookDigit (fun c => ispunctGchar c || isspaceGchar c) fuel st
    else some st
  else some (st.put .norm)

def puncLoop : Nat → PuncState → Option PuncState
  | 0, _ => none
  | fuel + 1, st =>
    if st.str st.inp = 0 then some st
    else do
      let st ← puncRound delSpace delNumberSign fuel st
      puncLoop fuel { st with inp := st.inp + 1 }

/-- `PuncNormalize_gchar`: the returned length and the buffer. -/
def puncNormalizeGchar (fuel : Nat) (str : Nat → UInt16) : Option (Nat × (Nat → UInt16)) := do
  let st ← puncLoop delSpace delNumberSign fuel ⟨str, 0, 0, .norm⟩
  if st.out ≠ 0 then some (st.out, Function.update st.str st.out 0)
  else some (st.inp, st.str)

/-! ## The rule -/

def inRun (c : UInt16) : Bool := ispunctGchar c || (delSpace && isspaceGchar c)

/-- What stays of a run between the characters `prev` and `next`. -/
def kept (prev : Option UInt16) (run : List UInt16) (next : Option UInt16) : List UInt16 :=
  if prev.any isdigitGchar && next.any isdigitGchar then run
  else if delSpace && prev.any (isalphaOrSign delNumberSign) && next.any isalphaGchar then
    (run.find? isspaceGchar).toList
  else []

/-- The string behind `prev`, run by run. -/
def normalized (prev : Option UInt16) : List UInt16 → List UInt16
  | [] => []
  | c :: s =>
    if inRun delSpace c then
      let run := c :: s.takeWhile (inRun delSpace)
      let rest := s.dropWhile (inRun delSpace)
      kept delSpace delNumberSign prev run rest.head? ++ normalized run.getLast? rest
    else c :: normalized (some c) s
termination_by s => s.length
decreasing_by
  · exact Nat.lt_succ_of_le (List.length_dropWhile_le _ _)
  · exact Nat.lt_succ_self _

end

/-! ## The classes are apart -/

theorem isdigitGchar_apart {c : UInt16} (h : isdigitGchar c = true) (delNumberSign : Bool) :
    isalphaOrSign delNumberSign c = false := by
  unfold isdigitGchar at h
  rw [Bool.and_eq_true, Bool.and_eq_true, decide_eq_true_iff, decide_eq_true_iff] at h
  obtain ⟨⟨hlow, -⟩, hhigh⟩ := h
  have hsign : (c == 0x23) = false := by
    rw [beq_eq_false_iff_ne]
    rintro rfl
    exact absurd hlow (by decide)
  have hhigh := UInt16.le_iff_toNat_le.mp hhigh
  have halpha : isalphaGchar c = false := by
    unfold isalphaGchar
    have h1 : ¬ c &&& 0xff00 ≥ 0xe100 := fun hge =>
      absurd (Nat.le_trans (UInt16.le_iff_toNat_le.mp hge) hhigh) (by decide)
    have h2 : ¬ c &&& 0xff00 ≥ 0xc100 := fun hge =>
      absurd (Nat.le_trans (UInt16.le_iff_toNat_le.mp hge) hhigh) (by decide)
    rw [decide_eq_false h1, decide_eq_false h2, Bool.false_and, Bool.false_and, Bool.false_or,
      Bool.and_false]
  rw [isalphaOrSign, halpha, hsign, Bool.and_false, Bool.false_or]

theorem inRun_apart {delSpace : Bool} {c : UInt16} (h : inRun delSpace c = true)
    (delNumberSign : Bool) :
    isdigitGchar c = false ∧ isalphaOrSign delNumberSign c = false := by
  have hall : (0xa1a1 :: puncts).all (fun c => isdigitGchar c == false &&
      (isalphaOrSign true c == false && isalphaOrSign false c == false)) = true := by decide
  have hmem : c ∈ 0xa1a1 :: puncts := by
    rw [inRun, Bool.or_eq_true, Bool.and_eq_true, ispunctGchar, isspaceGchar, beq_iff_eq,
      List.contains_iff_mem] at h
    rcases h with h | ⟨-, rfl⟩
    · exact List.mem_cons_of_mem _ h
    · exact List.mem_cons_self
  have hc := List.all_eq_true.mp hall c hmem
  rw [Bool.and_eq_true, Bool.and_eq_true, beq_iff_eq, beq_iff_eq, beq_iff_eq] at hc
  obtain ⟨hdigit, htrue, hfalse⟩ := hc
  cases delNumberSign
  · exact ⟨hdigit, hfalse⟩
  · exact ⟨hdigit, htrue⟩

end CommonTools.QueryMatch
