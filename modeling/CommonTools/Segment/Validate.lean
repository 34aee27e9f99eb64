import Mathlib.Algebra.Order.Ring.Rat
import Mathlib.Logic.Function.Basic
import CommonTools.Lib.Text

/-! # A convolution over the words of a query

The model is read from a text file. Before any query comes, the table
`convidres` gets the product of every embedding with every row of the filters;
a query then only adds numbers up. Numbers are exact here, `atof` reads them,
and a new array holds anything. `none` is an access outside an array. -/
namespace CommonTools.Segment
open CommonTools.Lib

abbrev dimnum : Nat := 100
abbrev filnum : Nat := 128
abbrev padnum : Nat := 12
abbrev layersize : Nat := (3 + 4 + 5) * filnum

/-- The most ids that `embd` has room for. -/
abbrev embdnum : Nat := 261953

def splitString (inputStr : Bytes) (splitChar : UInt8) : List Bytes :=
  (inputStr.splitOn splitChar).filter (· ≠ [])

/-- The arrays of numbers that `loadmodel` reads. -/
structure Arrays where
  embd : Nat → ℚ
  cw3 : Nat → ℚ
  cw4 : Nat → ℚ
  cw5 : Nat → ℚ
  cb3 : Nat → ℚ
  cb4 : Nat → ℚ
  cb5 : Nat → ℚ
  ow : Nat → ℚ
  ob : Nat → ℚ

/-- The state of the loop over the lines. -/
structure Loading extends Arrays where
  idmap : Bytes → Option Int
  cw3idx : Nat
  cw4idx : Nat
  cw5idx : Nat
  owidx : Nat
  idmax : Int

def Loading.init (new : Arrays) : Loading :=
  { new with idmap := fun _ => none, cw3idx := 0, cw4idx := 0, cw5idx := 0, owidx := 0, idmax := 0 }

/-- `arr[i] = v` in an array of `size` cells. -/
def store (size : Nat) (arr : Nat → ℚ) (i : Int) (v : ℚ) : Option (Nat → ℚ) :=
  if 0 ≤ i ∧ i < size then some (Function.update arr i.toNat v) else none

section
variable (atof : Bytes → ℚ)

/-- The loop that reads `n` numbers from the columns behind `skip`. -/
def readRow (size : Nat) (arr : Nat → ℚ) (start : Int) (n skip : Nat) (vec : List Bytes) :
    Option (Nat → ℚ) :=
  (List.range n).foldlM (fun arr i => do
    let text ← vec[i + skip]?
    store size arr (start + i) (atof (cstr text))) arr

/-- One round of the loop over the lines; a tab is 9. -/
def loadLine (st : Loading) (line : Bytes) : Option Loading :=
  match splitString line 9 with
  | [] => some st
  | [_] => some st
  | vec0 :: vec1 :: rest =>
    let vec := vec0 :: vec1 :: rest
    if vec1 = ascii "EMBEDDING" then do
      let id := atoi (cstr (← vec[2]?))
      let embd ← readRow atof (embdnum * dimnum) st.embd (id * dimnum) dimnum 3 vec
      some { st with embd, idmap := Function.update st.idmap vec0 (some id),
                     idmax := if id > st.idmax then id else st.idmax }
    else if vec0 = ascii "convW3" then do
      let cw3 ← readRow atof (filnum * dimnum * 3) st.cw3 (st.cw3idx * filnum : Nat) filnum 1 vec
      some { st with cw3, cw3idx := st.cw3idx + 1 }
    else if vec0 = ascii "convW4" then do
      let cw4 ← readRow atof (filnum * dimnum * 4) st.cw4 (st.cw4idx * filnum : Nat) filnum 1 vec
      some { st with cw4, cw4idx := st.cw4idx + 1 }
    else if vec0 = ascii "convW5" then do
      let cw5 ← readRow atof (filnum * dimnum * 5) st.cw5 (st.cw5idx * filnum : Nat) filnum 1 vec
      some { st with cw5, cw5idx := st.cw5idx + 1 }
    else if vec0 = ascii "convb3" then do
      some { st with cb3 := ← readRow atof filnum st.cb3 0 filnum 1 vec }
    else if vec0 = ascii "convb4" then do
      some { st with cb4 := ← readRow atof filnum st.cb4 0 filnum 1 vec }
    else if vec0 = ascii "convb5" then do
      some { st with cb5 := ← readRow atof filnum st.cb5 0 filnum 1 vec }
    else if vec0 = ascii "outputW" then do
      let ow ← readRow atof (filnum * 3 * 2) st.ow (st.owidx * 2 : Nat) 2 1 vec
      some { st with ow, owidx := st.owidx + 1 }
    else if vec0 = ascii "outputb" then do
      some { st with ob := ← readRow atof 2 st.ob 0 2 1 vec }
    else some st

/-- The loop over the lines of the file. -/
def loadLines (new : Arrays) (file : Bytes) : Option Loading :=
  (file.splitOn 10).foldlM (loadLine atof) (.init new)

end

/-! ## The table -/

/-- What `convsum` is for the filters of a width. -/
def convsum (convnum : Nat) : Nat := if convnum = 4 then 3 else if convnum = 5 then 7 else 0

def Arrays.cw (a : Arrays) (convnum : Nat) : Nat → ℚ :=
  if convnum = 3 then a.cw3 else if convnum = 4 then a.cw4 else a.cw5

def Arrays.cb (a : Arrays) (convnum : Nat) : Nat → ℚ :=
  if convnum = 3 then a.cb3 else if convnum = 4 then a.cb4 else a.cb5

/-- The loops over the ids, the widths, the filters and their rows. -/
def precompute (a : Arrays) (idmax : Nat) : Nat → ℚ :=
  (List.range idmax).foldl (fun table id =>
    [3, 4, 5].foldl (fun table convnum =>
      (List.range filnum).foldl (fun table f =>
        (List.range convnum).foldl (fun table j =>
          let res := (List.range dimnum).foldl (fun res k => res +
            a.embd (id * dimnum + k) * a.cw convnum (j * filnum * dimnum + k * filnum + f)) 0
          Function.update table
            ((j + convsum convnum) * filnum + f + id * (3 + 4 + 5) * filnum) res)
        table) table) table) fun _ => 0

/-- The model. `convidres` has `midsize` cells. -/
structure Model where
  arrays : Arrays
  idmap : Bytes → Option Int
  filid : Int
  padid : Int
  midsize : Nat
  convidres : Nat → ℚ

/-- `loadmodel`: the return value and, on success, the model; a `file` of `none`
cannot be opened. -/
def loadmodel (atof : Bytes → ℚ) (new : Arrays) (file : Option Bytes) :
    Option (Int × Option Model) :=
  match file with
  | none => some (-1, none)
  | some file => do
    let st ← loadLines atof new file
    match st.idmap (ascii "<FIL/>"), st.idmap (ascii "<PAD/>") with
    | some filid, some padid =>
      some (0, some ⟨st.toArrays, st.idmap, filid, padid,
        (st.idmax * (3 + 4 + 5) * filnum).toNat, precompute st.toArrays st.idmax.toNat⟩)
    | _, _ => some (-1, none)

/-! ## A query -/

/-- `convidres[i]`. -/
def Model.at? (m : Model) (i : Int) : Option ℚ :=
  if 0 ≤ i ∧ i < m.midsize then some (m.convidres i.toNat) else none

/-- One round of the loop that fills `querym` and counts the known words. -/
def lookUpRound (m : Model) (queryseg : List Bytes) (state : List Int × ℚ) (i : Nat) :
    List Int × ℚ :=
  match queryseg[i]? with
  | some word =>
    match m.idmap word with
    | none => (state.1 ++ [m.filid], state.2)
    | some id => (state.1 ++ [id], state.2 + 1)
  | none => (state.1 ++ [m.padid], state.2)

/-- `querym` and `hit`. -/
def lookUp (m : Model) (queryseg : List Bytes) : List Int × ℚ :=
  (List.range padnum).foldl (lookUpRound m queryseg) ([], 0)

def windowSum (m : Model) (querym : List Int) (convnum f i : Nat) : Option ℚ :=
  (List.range convnum).foldlM (fun res j => do
    let id ← querym[i + j]?
    let x ← m.at? ((j + convsum convnum) * filnum + f + id * layersize)
    some (res + x)) 0

/-- The largest sum of the windows up to the length of the query. -/
def relu (m : Model) (querym : List Int) (len convnum f : Nat) : Option ℚ :=
  (List.range (min (padnum - convnum + 1) (len + 1))).foldlM (fun relu i => do
    let res ← windowSum m querym convnum f i
    some (if res > relu then res else relu)) (-999)

/-- The loops that fill `convres`. -/
def convolve (m : Model) (querym : List Int) (len : Nat) : Option (Nat → ℚ) :=
  [3, 4, 5].foldlM (fun convres convnum =>
    (List.range filnum).foldlM (fun convres f => do
      let relu ← relu m querym len convnum f
      some (Function.update convres ((convnum - 3) * filnum + f) (relu + m.arrays.cb convnum f)))
    convres) fun _ => 0

def score (m : Model) (convres : Nat → ℚ) (c : Nat) : ℚ :=
  (List.range (filnum * 3)).foldl (fun score i => score + convres i * m.arrays.ow (i * 2 + c)) 0 +
    m.arrays.ob c

/-- `validate`: the return value and the two scores. -/
def validate (m : Model) (queryseg : List Bytes) : Option (Int × ℚ × ℚ) := do
  let len := queryseg.length
  let (querym, hit) := lookUp m queryseg
  if hit / (len + 1 / 1000) < 6 / 10 then some (0, 0, 0)
  else
    let convres ← convolve m querym len
    some (0, score m convres 0, score m convres 1)

end CommonTools.Segment
