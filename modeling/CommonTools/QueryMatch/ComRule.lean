import CommonTools.Lib.CString
import CommonTools.Lib.Search
import Mathlib.Logic.Function.Basic

/-! # Rules from tagged words

`BasePosComRule` goes through the ways to write a query as a row of tagged
words, and stores the row of the tags with the row of the texts. -/
namespace CommonTools.QueryMatch
open CommonTools.Lib

/-- A word with its first byte and the byte behind it. -/
structure TagNode where
  text : Bytes
  start : Nat
  stop : Nat

/-- The words that start at one character, under their tags. -/
structure PosType where
  posTag : List (Bytes × List TagNode)

abbrev ComRuleMap := Bytes → Option Bytes

/-- `|`. -/
def bar : UInt8 := 124

/-- `_show_` and `_patt_`. -/
def showMark : Bytes := [95, 115, 104, 111, 119, 95]

def pattMark : Bytes := [95, 112, 97, 116, 116, 95]

/-- `number`. -/
def numberTag : Bytes := [110, 117, 109, 98, 101, 114]

/-- Neighbours with such a tag become one. -/
def mergeable (tag : Bytes) : Bool := (find showMark tag).isSome || (find pattMark tag).isSome

/-- The loop over the tags behind `prev`; `none` where `patQueryVec` has no text. -/
def mergeLoop (prev : Bytes) : List Bytes → List Bytes → Bytes → Bytes → Option (Bytes × Bytes)
  | [], _, ruleTagTmp, patQueryTmp => some (ruleTagTmp, patQueryTmp)
  | _ :: _, [], _, _ => none
  | tag :: ruleTagVec, pat :: patQueryVec, ruleTagTmp, patQueryTmp =>
    if tag = prev ∧ mergeable tag = true then
      mergeLoop tag ruleTagVec patQueryVec ruleTagTmp (patQueryTmp ++ pat)
    else
      mergeLoop tag ruleTagVec patQueryVec (ruleTagTmp ++ [bar] ++ tag)
        (patQueryTmp ++ [bar] ++ pat)

/-- What stands at the end of the query: the rows lose their last byte, are cut
at `|`, and equal neighbours are merged. -/
def storeRule (ruleTag patQuery : Bytes) (comRuleMapString : ComRuleMap) : Option ComRuleMap :=
  match ruleTag.dropLast.splitOn bar, patQuery.dropLast.splitOn bar with
  | tag :: ruleTagVec, pat :: patQueryVec =>
    (mergeLoop tag ruleTagVec patQueryVec tag pat).map fun (ruleTagTmp, patQueryTmp) =>
      Function.update comRuleMapString ruleTagTmp (some patQueryTmp)
  | _, _ => none

section
variable (tag oriQuery : Bytes) (vetPosType : List PosType)

/-- `strTmp.find(tag) == 0`. -/
def startsWith (strTmp tag : Bytes) : Bool := find tag strTmp == some 0

/-- `BasePosComRule`. A call goes on at a later index, which bounds the depth;
`none` is an access behind the end of `vetPosType` or of the query. -/
def comRule (flag : Nat) : Nat → Nat → Bool → Bytes → Bytes → ComRuleMap → Option ComRuleMap
  | 0, _, _, _, _, _ => none
  | depth + 1, index, disregard, ruleTag, patQuery, comRuleMapString =>
    if index = vetPosType.length then
      if disregard then storeRule (ruleTag ++ [42, bar]) (patQuery ++ [bar]) comRuleMapString
      else storeRule ruleTag patQuery comRuleMapString
    else if flag = 0 then
      (vetPosType[index]?).bind fun pos =>
        pos.posTag.foldlM (fun m (strTmp, vecTN) =>
          if !startsWith strTmp tag && !startsWith strTmp numberTag then some m
          else
            vecTN.foldlM (fun m node =>
              if node.stop / 2 ≤ index then some m
              else
                comRule flag depth (node.stop / 2) false (ruleTag ++ strTmp ++ [bar])
                  (patQuery ++ node.text ++ [bar]) m) m) comRuleMapString
    else if flag = 1 then
      (vetPosType[index]?).bind fun pos =>
        if pos.posTag.any fun (strTmp, _) => startsWith strTmp tag then
          pos.posTag.foldlM (fun m (strTmp, vecTN) =>
            if !startsWith strTmp tag then some m
            else
              let ruleTagTmp :=
                if disregard then ruleTag ++ [42, bar] ++ strTmp ++ [bar]
                else ruleTag ++ strTmp ++ [bar]
              let patQueryTmp := if disregard then patQuery ++ [bar] else patQuery
              vecTN.foldlM (fun m node =>
                if node.stop / 2 ≤ index then some m
                else
                  comRule flag depth (node.stop / 2) false ruleTagTmp
                    (patQueryTmp ++ node.text ++ [bar]) m) m) comRuleMapString
        else if oriQuery.length < index * 2 then none
        else
          comRule flag depth (index + 1) true ruleTag
            (patQuery ++ (oriQuery.drop (index * 2)).take 2) comRuleMapString
    else some comRuleMapString

def basePosComRule (index : Nat) (comRuleMapString : ComRuleMap) (ruleTag patQuery : Bytes)
    (flag : Nat) : Option ComRuleMap :=
  comRule tag oriQuery vetPosType flag (vetPosType.length + 1 - index) index false ruleTag patQuery
    comRuleMapString

end

end CommonTools.QueryMatch
