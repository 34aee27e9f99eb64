import CommonTools.Http.Message
import CommonTools.Lib.Fitting

/-! # Cutting a string between characters

`cut_strLen` keeps in `realLen` the index of the last byte of the last character that fits. It is
0 before the first character, and 0 behind a first character of one byte. -/
namespace CommonTools.StringUtil
open CommonTools.Lib CommonTools.Http

/-! ## `string_Util.cpp` -/

/-- The loop of `cut_strLen` from `i` on: `realLen` at its end, unless `i + 1` overflows. -/
def cutLoop (len : Int) : Int → Int → Bytes → Option Int
  | _, realLen, [] => some realLen
  | i, realLen, tmp :: rest =>
    if 128 ≤ tmp then
      if INT_MAX < i + 1 then none
      else if len - 1 < i + 1 then some realLen
      else
        match rest with
        | [] => some (i + 1)
        | _ :: rest => cutLoop len (i + 2) (i + 1) rest
    else if len - 1 < i then some realLen
    else cutLoop len (i + 1) i rest

/-- `cut_strLen`; in the first comparison `len` is a `size_t`. -/
def cutStrLen (src : Bytes) (len : Int) : Except Stop Bytes :=
  if (src.length : Int) ≤ len % 2 ^ 64 then .ok src
  else
    match cutLoop len 0 0 src with
    | none => .error .undefined
    | some realLen =>
      if INT_MAX < realLen + 2 then .error .undefined
      else
        let src := src.take (realLen + 2).toNat
        if src.length ≤ realLen + 1 then .error .undefined
        else .ok (src.set (realLen + 1).toNat 0)

/-! ## GBK -/

/-- A character of a well-formed text. -/
inductive GbkChar where
  | single (c : UInt8) (h : c < 0x80)
  | double (lead trail : UInt8) (hlead : 0x81 ≤ lead ∧ lead ≤ 0xfe)
    (htrail : 0x40 ≤ trail ∧ trail ≤ 0xfe ∧ trail ≠ 0x7f)

def GbkChar.bytes : GbkChar → Bytes
  | .single c _ => [c]
  | .double lead trail _ _ => [lead, trail]

def gbkText (s : List GbkChar) : Bytes := (s.map GbkChar.bytes).flatten

/-- The whole characters within `len` bytes. -/
def wholeChars (s : List GbkChar) (len : Nat) : Bytes := fitting len (s.map GbkChar.bytes)

/-- No index outside is written, and read as a C string the result is the longest part of whole
characters with at most `len` bytes. -/
def CutsWhole (s : List GbkChar) (len : Nat) : Prop :=
  ∃ r, cutStrLen (gbkText s) len = .ok r ∧ LongestPart len (s.map GbkChar.bytes) (cstr r)

/-- A text that fits has no zero byte. Of a longer one the first character fits, and what fits
has no zero byte and fewer than `INT_MAX` bytes; or nothing fits, and the text begins with a
zero byte and has another byte. -/
def CutsRight (s : List GbkChar) (len : Nat) : Prop :=
  if (gbkText s).length ≤ len then NulFree (gbkText s)
  else if wholeChars s len = [] then (gbkText s).head? = some 0 ∧ 2 ≤ (gbkText s).length
  else NulFree (wholeChars s len) ∧ ((wholeChars s len).length : Int) < INT_MAX

/-! ## The loop -/

section
variable {len i realLen : Int} {rest : Bytes}

theorem cutLoop_single {c : UInt8} (hc : c < 0x80) :
    cutLoop len i realLen (c :: rest) =
      if len - 1 < i then some realLen else cutLoop len (i + 1) i rest := by
  rw [cutLoop.eq_def]
  exact if_neg (UInt8.not_le.mpr hc)

theorem cutLoop_double {lead : UInt8} (hlead : 0x81 ≤ lead) (trail : UInt8) :
    cutLoop len i realLen (lead :: trail :: rest) =
      if INT_MAX < i + 1 then none
      else if len - 1 < i + 1 then some realLen
      else cutLoop len (i + 2) (i + 1) rest := by
  have hbyte : 128 ≤ lead := UInt8.le_trans (by decide) hlead
  rw [cutLoop.eq_def]
  exact if_pos hbyte

end

/-- Behind a character `realLen` is where it ends. -/
theorem last_whole (w : Bytes) (i : Int) :
    (if w = [] then i - 1 else i + w.length - 1) = i + w.length - 1 := by
  split
  · rename_i hw
    rw [hw, List.length_nil, Int.natCast_zero, Int.add_zero]
  · rfl

/-- The loop ends behind the characters that fit; only in front of the largest `int` it may
overflow. -/
theorem cutLoop_spec {len : Nat} (hlen : (len : Int) ≤ INT_MAX) : ∀ (s : List GbkChar) {i : Nat}
    (realLen : Int), i ≤ len →
    cutLoop len i realLen (gbkText s) =
        some (if wholeChars s (len - i) = [] then realLen
          else i + (wholeChars s (len - i)).length - 1) ∨
      cutLoop len i realLen (gbkText s) = none ∧ i + (wholeChars s (len - i)).length = INT_MAX
  | [], i, realLen, hi => .inl rfl
  | .single c hc :: s, i, realLen, hi => by
    have htext : gbkText (.single c hc :: s) = c :: gbkText s := rfl
    have hwhole : wholeChars (.single c hc :: s) (len - i) =
        if 1 ≤ len - i then c :: wholeChars s (len - (i + 1)) else [] := rfl
    rw [htext, cutLoop_single hc, hwhole]
    by_cases hfits : 1 ≤ len - i
    · have ih := @cutLoop_spec len hlen s (i + 1) ((i + 1 : Nat) - 1) (by omega)
      have hnext : ((i + 1 : Nat) : Int) = i + 1 := rfl
      have hend : (i : Int) + ((wholeChars s (len - (i + 1))).length + 1 : Nat) =
          i + 1 + (wholeChars s (len - (i + 1))).length := by
        omega
      rw [last_whole, hnext, Int.add_sub_cancel] at ih
      rw [if_pos hfits, if_neg (by omega), if_neg (List.cons_ne_nil _ _), List.length_cons, hend]
      exact ih
    · rw [if_neg hfits, if_pos (by omega)]
      exact .inl rfl
  | .double lead trail hlead htrail :: s, i, realLen, hi => by
    have htext : gbkText (.double lead trail hlead htrail :: s) = lead :: trail :: gbkText s := rfl
    have hwhole : wholeChars (.double lead trail hlead htrail :: s) (len - i) =
        if 2 ≤ len - i then lead :: trail :: wholeChars s (len - (i + 2)) else [] := rfl
    rw [htext, cutLoop_double hlead.1, hwhole]
    by_cases hfits : 2 ≤ len - i
    · have ih := @cutLoop_spec len hlen s (i + 2) ((i + 2 : Nat) - 1) (by omega)
      have hnext : ((i + 2 : Nat) : Int) = i + 2 := rfl
      have hlast : (i : Int) + 2 - 1 = i + 1 := by omega
      have hend : (i : Int) + ((wholeChars s (len - (i + 2))).length + 1 + 1 : Nat) =
          i + 2 + (wholeChars s (len - (i + 2))).length := by
        omega
      rw [last_whole, hnext, hlast] at ih
      rw [if_pos hfits, if_neg (by omega), if_neg (by omega), if_neg (List.cons_ne_nil _ _),
        List.length_cons, List.length_cons, hend]
      exact ih
    · rw [if_neg hfits]
      by_cases hover : INT_MAX < (i : Int) + 1
      · rw [if_pos hover]
        refine .inr ⟨rfl, ?_⟩
        rw [List.length_nil]
        omega
      · rw [if_neg hover, if_pos (by omega)]
        exact .inl rfl

/-! ## The cut -/

section
variable {s : List GbkChar} {len : Nat}

theorem wholeChars_initial (s : List GbkChar) (len : Nat) : wholeChars s len <+: gbkText s :=
  fitting_initial _ _

theorem wholeChars_length_le (s : List GbkChar) (len : Nat) : (wholeChars s len).length ≤ len :=
  fitting_length_le

theorem cutLoop_start (hlen : (len : Int) ≤ INT_MAX) (s : List GbkChar) :
    cutLoop len 0 0 (gbkText s) =
        some (if wholeChars s len = [] then 0 else ((wholeChars s len).length : Int) - 1) ∨
      cutLoop len 0 0 (gbkText s) = none ∧ ((wholeChars s len).length : Int) = INT_MAX := by
  have hspec := @cutLoop_spec len hlen s 0 0 (Nat.zero_le len)
  simpa only [Int.natCast_zero, Nat.sub_zero, Int.zero_add] using hspec

theorem cutStrLen_kept (hlen : (len : Int) ≤ INT_MAX) (h : (gbkText s).length ≤ len) :
    cutStrLen (gbkText s) len = .ok (gbkText s) := by
  unfold INT_MAX at hlen
  unfold cutStrLen
  rw [Int.emod_eq_of_lt (by omega) (by omega)]
  exact if_pos (by omega)

/-- Where nothing fits a byte is kept all the same. -/
theorem cutStrLen_none (hlen : (len : Int) ≤ INT_MAX) (h : len < (gbkText s).length)
    (hnone : wholeChars s len = []) :
    cutStrLen (gbkText s) len =
      match gbkText s with
      | c :: _ :: _ => .ok [c, 0]
      | _ => .error .undefined := by
  have hloop : cutLoop len 0 0 (gbkText s) = some 0 := by
    rcases cutLoop_start hlen s with hloop | ⟨-, hmax⟩
    · rwa [if_pos hnone] at hloop
    · rw [hnone] at hmax
      exact absurd hmax (by decide)
  unfold cutStrLen
  unfold INT_MAX at hlen
  rw [Int.emod_eq_of_lt (by omega) (by omega), if_neg (by omega), hloop]
  match gbkText s, h with
  | [], h => exact absurd h (Nat.not_lt_zero len)
  | [_], _ => rfl
  | _ :: _ :: _, _ => rfl

/-- Where something fits, a zero byte is put behind it. -/
theorem cutStrLen_some (hlen : (len : Int) ≤ INT_MAX) (h : len < (gbkText s).length)
    (hsome : wholeChars s len ≠ []) :
    cutStrLen (gbkText s) len =
      if ((wholeChars s len).length : Int) < INT_MAX then .ok (wholeChars s len ++ [0])
      else .error .undefined := by
  have hle := wholeChars_length_le s len
  obtain ⟨rest, hrest⟩ := wholeChars_initial s len
  have hstart := cutLoop_start hlen s
  rw [if_neg hsome] at hstart
  unfold cutStrLen
  rw [if_neg (by unfold INT_MAX at hlen; omega)]
  by_cases hmax : ((wholeChars s len).length : Int) < INT_MAX
  · have hloop := hstart.resolve_right (by omega)
    rw [hloop, if_pos hmax]
    dsimp only
    have hnat : ((wholeChars s len).length - 1 + 2 : Int).toNat =
        (wholeChars s len).length + 1 := by
      omega
    have hindex : ((wholeChars s len).length - 1 + 1 : Int).toNat = (wholeChars s len).length := by
      omega
    have htake : (gbkText s).take ((wholeChars s len).length + 1) =
        wholeChars s len ++ rest.take 1 := by
      rw [← hrest, List.take_length_add_append]
    have hcut : (rest.take 1).length = 1 := by
      have hlen := congrArg List.length hrest
      rw [List.length_append] at hlen
      rw [List.length_take]
      omega
    obtain ⟨c, hc⟩ := List.length_eq_one_iff.mp hcut
    rw [if_neg (by omega), hnat, hindex, htake, hc, if_neg,
      List.set_append_right _ _ (Nat.le_refl _), Nat.sub_self]
    · rfl
    · rw [List.length_append, List.length_singleton]
      omega
  · rw [if_neg hmax]
    rcases hstart with hloop | ⟨hloop, -⟩
    · rw [hloop]
      exact if_pos (by omega)
    · rw [hloop]

end

/-- **When `cut_strLen` cuts at the end of a character.** -/
theorem cutStrLen_whole_iff (s : List GbkChar) (len : Nat) (hlen : (len : Int) ≤ INT_MAX) :
    CutsWhole s len ↔ CutsRight s len := by
  unfold CutsWhole CutsRight
  simp only [longestPart_iff]
  by_cases hfits : (gbkText s).length ≤ len
  · rw [if_pos hfits, cutStrLen_kept hlen hfits]
    have hall : fitting len (s.map GbkChar.bytes) = gbkText s := fitting_eq_flatten hfits
    rw [hall]
    constructor
    · rintro ⟨r, hr, hcut⟩
      cases hr
      exact cstr_eq_self_iff.mp hcut
    · exact fun h => ⟨_, rfl, cstr_eq_self h⟩
  rw [if_neg hfits]
  by_cases hnone : wholeChars s len = []
  · rw [if_pos hnone, cutStrLen_none hlen (by omega) hnone]
    have hnil : fitting len (s.map GbkChar.bytes) = [] := hnone
    rw [hnil]
    match gbkText s with
    | [] => simp
    | [_] => simp
    | c :: d :: t =>
      have hzero : cstr [c, 0] = [] ↔ c = 0 := by
        by_cases hc : c = 0
        · rw [hc]
          decide
        · exact iff_of_false (by simp [cstr, hc]) hc
      constructor
      · rintro ⟨r, hr, hcut⟩
        cases hr
        exact ⟨congrArg some (hzero.mp hcut), by simp⟩
      · rintro ⟨hhead, -⟩
        exact ⟨_, rfl, hzero.mpr (Option.some.inj hhead)⟩
  · rw [if_neg hnone, cutStrLen_some hlen (by omega) hnone]
    have hcstr : cstr (wholeChars s len ++ [0]) = cstr (wholeChars s len) := by
      by_cases hnul : NulFree (wholeChars s len)
      · rw [cstr_append_of_nulFree hnul, cstr_eq_self hnul]
        exact List.append_nil _
      · refine cstr_append_of_mem ?_ _
        simpa [NulFree] using hnul
    by_cases hmax : ((wholeChars s len).length : Int) < INT_MAX
    · rw [if_pos hmax, and_iff_left hmax, ← cstr_eq_self_iff, ← hcstr]
      constructor
      · rintro ⟨r, hr, hcut⟩
        cases hr
        exact hcut
      · exact fun h => ⟨_, rfl, h⟩
    · rw [if_neg hmax]
      refine iff_of_false ?_ fun h => hmax h.2
      rintro ⟨r, hr, -⟩
      cases hr

instance (s : List GbkChar) (len : Nat) : Decidable (CutsRight s len) :=
  inferInstanceAs (Decidable (ite _ _ _))

/-- `a` and two characters of two bytes, cut to four bytes. -/
def threeChars : List GbkChar :=
  [.single 97 (by decide), .double 0xb0 0xa1 (by decide) (by decide),
    .double 0xb0 0xa2 (by decide) (by decide)]

theorem cutStrLen_whole_iff_three : CutsWhole threeChars 4 :=
  (cutStrLen_whole_iff threeChars 4 (by decide)).mpr (by decide)

/-- Cut to one byte, a first character of two bytes is split. -/
theorem cutStrLen_split : ¬ CutsWhole (threeChars.drop 1) 1 := by
  rintro ⟨r, hr, hcut⟩
  have hsplit : cutStrLen (gbkText (threeChars.drop 1)) (1 : Nat) = .ok [0xb0, 0] := by
    decide +kernel
  rw [hsplit] at hr
  cases hr
  exact absurd (longestPart_iff.mp hcut) (by decide)

end CommonTools.StringUtil
