import CommonTools.Lib.CString
import CommonTools.Lib.Search

/-! # Messages

What the server and the client know of a message: a header, the empty line that
ends it, and a content whose length the header says. -/
namespace CommonTools.Http
open CommonTools.Lib

/-- The empty line behind a header. -/
def crlf2 : Bytes := [13, 10, 13, 10]

/-- A function gives up with its return value, or has no meaning. -/
inductive Stop where
  | returns (ret : Int)
  | undefined
deriving DecidableEq

/-- The value of an `int` that a wider number is stored in. -/
def toInt32 (v : Int) : Int := v.bmod (2 ^ 32)

def INT_MAX : Int := 2 ^ 31 - 1

/-- The `int` that the result of `std::string::find` is stored in; `npos` becomes -1. -/
def findInt (needle s : Bytes) : Int :=
  match find needle s with
  | none => -1
  | some i => toInt32 i

/-- `Content-Length:`. -/
def contentLength : Bytes := [67, 111, 110, 116, 101, 110, 116, 45, 76, 101, 110, 103, 116, 104, 58]

theorem toInt32_natCast {n : Nat} (h : (n : Int) ≤ INT_MAX) : toInt32 n = n := by
  unfold INT_MAX at h
  rw [toInt32, Int.bmod_eq_of_le] <;> omega

theorem findInt_none {needle s : Bytes} (h : find needle s = none) : findInt needle s = -1 := by
  rw [findInt, h]

theorem findInt_some {needle s : Bytes} {k : Nat} (h : find needle s = some k)
    (hmax : (k : Int) ≤ INT_MAX) : findInt needle s = k := by
  rw [findInt, h]
  exact toInt32_natCast hmax

/-- A size that is not negative as an `int` is not greater than before. -/
theorem toInt32_natCast_le {n m : Nat} (h : toInt32 n = m) : m ≤ n := by
  have hmod : (n : Int).bmod (2 ^ 32) = m := h
  rw [Int.bmod_def] at hmod
  split at hmod <;> omega

theorem toInt32_le (v : Int) : toInt32 v ≤ INT_MAX := by
  have hlt : v.bmod (2 ^ 32) < ((2 ^ 32 : Nat) + 1) / 2 := Int.bmod_lt (by decide)
  rw [toInt32, INT_MAX]
  omega

theorem nulFree_crlf2 : NulFree crlf2 := by decide

/-- As long as the header is not complete its end is not found. -/
theorem find_part {header part : Bytes} (hends : find crlf2 (header ++ crlf2) = some header.length)
    (hpart : part <+: header ++ crlf2) (hlt : part.length < header.length + 4) :
    find crlf2 part = none := by
  cases hfind : find crlf2 part with
  | none => rfl
  | some i =>
    obtain ⟨t, ht⟩ := hpart
    have hi := find_append hfind t
    rw [ht, hends, Option.some.injEq] at hi
    have hle : i + 4 ≤ part.length := find_le hfind
    omega

end CommonTools.Http
