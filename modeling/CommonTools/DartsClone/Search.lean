import CommonTools.DartsClone.DoubleArray

/-! # Searching a double array

A search follows the labels down to a leaf and compares what is left of the key with the
suffix of the leaf. -/
namespace CommonTools.DartsClone
open CommonTools.Lib

/-- A byte of the memory of the units. -/
def byteAt (units_ : List (BitVec 32)) (i : Nat) : Option UInt8 :=
  units_[i / 4]?.map fun u => UInt8.ofNat (getField (8 * (i % 4)) 8 u).toNat

/-- `get_value`, four bytes from `tail` on. -/
def getValue (units_ : List (BitVec 32)) (tail : Nat) : Option (BitVec 32) := do
  let bytes ← (List.range' tail 4).mapM (byteAt units_)
  some (Pod.ofBytes bytes)

/-- The loop for a leaf unit: the leaf with what is left of the query, or nothing when a
label differs. -/
def searchLeaf (units_ : List (BitVec 32)) : Bytes → Nat → Option (Option (BitVec 32 × Bytes))
  | [], _ => none
  | c :: query, index => do
    let unit ← units_[index]?
    let index := index ^^^ (offset unit ^^^ c.toNat)
    let unit ← units_[index]?
    if isLeaf unit then some (some (unit, c :: query))
    else if label unit ≠ c then some none
    else searchLeaf units_ query index

/-- The loop that compares suffixes: the place of the terminator when they are the same. -/
def compareSuffix (units_ : List (BitVec 32)) : Bytes → Nat → Option (Option Nat)
  | [], _ => none
  | c :: query, tail => do
    let b ← byteAt units_ tail
    if b ≠ c then some none
    else if b = 0 then some (some tail)
    else compareSuffix units_ query (tail + 1)

/-- `exactMatchSearch` for a zero-terminated key, from the root on. -/
def exactMatchSearch (units_ : List (BitVec 32)) (key : Bytes) : Option Int := do
  let size ← units_[1]?
  let tail_ := 4 * offset size
  match ← searchLeaf units_ (cstr key ++ [0]) 0 with
  | none => some (-1)
  | some (agent, query) =>
    match ← compareSuffix units_ query (tail_ + link agent) with
    | none => some (-1)
    | some tail =>
      let value ← getValue units_ (tail + (4 * valueId agent + 1))
      some value.toInt

/-! ## Prefixes -/

/-- The results that there is room for, and the number of all. -/
structure Results where
  results : List (Int × Nat)
  num_of_results : Nat

/-- `set_result` with the value at `tail`, as long as there is room, and the count. -/
def Results.add (units_ : List (BitVec 32)) (max_num_of_results tail length : Nat) (r : Results) :
    Option Results :=
  if r.num_of_results < max_num_of_results then do
    let value ← getValue units_ tail
    some ⟨r.results ++ [(value.toInt, length)], r.num_of_results + 1⟩
  else some { r with num_of_results := r.num_of_results + 1 }

/-- A key that ends in front of the character `c`. -/
def Results.extract (units_ : List (BitVec 32)) (tail_ max_num_of_results : Nat) (c : UInt8)
    (index length : Nat) (r : Results) : Option Results := do
  let unit ← units_[index]?
  if c ≠ 0 ∧ isEnd unit then
    let stray ← units_[index ^^^ offset unit]?
    r.add units_ max_num_of_results (tail_ + link stray + (4 * valueId stray + 1)) length
  else some r

/-- The loop for a leaf unit in `common_prefix_search`. -/
def prefixLoop (units_ : List (BitVec 32)) (tail_ max_num_of_results : Nat) :
    Bytes → Nat → Nat → Results → Option (Results × Option (BitVec 32 × Bytes × Nat))
  | [], _, _, _ => none
  | c :: query, length, index, r => do
    let r ← r.extract units_ tail_ max_num_of_results c index length
    let unit ← units_[index]?
    let index := index ^^^ (offset unit ^^^ c.toNat)
    let unit ← units_[index]?
    if isLeaf unit then some (r, some (unit, c :: query, length))
    else if label unit ≠ c then some (r, none)
    else prefixLoop units_ tail_ max_num_of_results query (length + 1) index r

/-- The `while` loop over a suffix: the byte where it ends, with its place and the length. -/
def suffixLoop (units_ : List (BitVec 32)) : Bytes → Nat → Nat → Option (UInt8 × Nat × Nat)
  | [], _, _ => none
  | c :: query, tail, length => do
    let b ← byteAt units_ tail
    if b ≠ 0 ∧ b = c then suffixLoop units_ query (tail + 1) (length + 1)
    else some (b, tail, length)

/-- The end of `common_prefix_search` at a leaf. -/
def Results.leaf (units_ : List (BitVec 32)) (tail_ max_num_of_results : Nat) (agent : BitVec 32)
    (query : Bytes) (length : Nat) (r : Results) : Option Results := do
  let b ← byteAt units_ (tail_ + link agent)
  if query.head? ≠ some b then some r
  else
    let (b, tail, length) ← suffixLoop units_ query (tail_ + link agent) length
    if b = 0 then r.add units_ max_num_of_results (tail + (4 * valueId agent + 1)) length
    else some r

/-- What follows the loop for a leaf unit. -/
def Results.finish (units_ : List (BitVec 32)) (tail_ max_num_of_results : Nat) :
    Results × Option (BitVec 32 × Bytes × Nat) → Option Results
  | (r, none) => some r
  | (r, some (agent, query, length)) =>
    r.leaf units_ tail_ max_num_of_results agent query length

/-- `commonPrefixSearch` for a zero-terminated key, from the root on. -/
def commonPrefixSearch (units_ : List (BitVec 32)) (key : Bytes) (max_num_of_results : Nat) :
    Option Results := do
  let size ← units_[1]?
  let tail_ := 4 * offset size
  let r ← prefixLoop units_ tail_ max_num_of_results (cstr key ++ [0]) 0 0 ⟨[], 0⟩
  Results.finish units_ tail_ max_num_of_results r

end CommonTools.DartsClone
