import CommonTools.Http.Message
import CommonTools.Url.UrlCode

/-! # Recognised encoded text

`is_url_encode_str` accepts escapes, `+`, blanks and `~` only, but it reads a C string, and
`url_decoded_str` returns one. On what it accepts both decoders take the same words; they differ
over zero bytes. -/
namespace CommonTools.Url
open CommonTools.Lib CommonTools.Http

/-! ## The recogniser -/

def isHexDigit (c : UInt8) : Bool :=
  isdigit c || (97 ≤ c && c ≤ 102) || (65 ≤ c && c ≤ 70)

/-- The loop of `is_url_encode_str`: `naive_count` at its end, or `none` where it returns. -/
def isUrlEncodeLoop (naive_count : Nat) : Bytes → Option Nat
  | [] => some naive_count
  | p :: rest =>
    if p = 0 then some naive_count
    else if p = 37 then
      match rest with
      | p1 :: p2 :: tail =>
        if p1 ≠ 0 ∧ p2 ≠ 0 ∧ isHexDigit p1 = true ∧ isHexDigit p2 = true then
          isUrlEncodeLoop naive_count tail
        else none
      | _ => none
    else if p = 43 ∨ p = 32 ∨ p = 126 then isUrlEncodeLoop (naive_count + 1) rest
    else none

def isUrlEncodeStr (str : Bytes) : Bool :=
  match isUrlEncodeLoop 0 str with
  | none => false
  | some naive_count => toInt32 naive_count != toInt32 str.length

/-- `url_decoded_str`: the result of `url_decode` is a C string. -/
def urlDecodedStr (str : Bytes) : Bytes := cstr (urlDecode str)

/-! ## The words that are accepted -/

/-- The text is made of words up to its end or a zero byte. -/
inductive Recognised : Bytes → Prop
  | nil : Recognised []
  | nul (rest : Bytes) : Recognised (0 :: rest)
  | word {c : UInt8} {w rest : Bytes} (h : Word c w) (hrest : Recognised rest) :
    Recognised (w ++ rest)

def hexDigits : Bytes :=
  [48, 49, 50, 51, 52, 53, 54, 55, 56, 57, 65, 66, 67, 68, 69, 70, 97, 98, 99, 100, 101, 102]

theorem mem_hexDigits {c : UInt8} (h : isHexDigit c = true) : c ∈ hexDigits :=
  @forall_byte (fun c => isHexDigit c = true → c ∈ hexDigits) (by decide +kernel) c h

theorem mem_hexDigits_of_char2num {c : UInt8} (h : Utils.char2num c ≠ -1) : c ∈ hexDigits :=
  @forall_byte (fun c => Utils.char2num c ≠ -1 → c ∈ hexDigits) (by decide +kernel) c h

/-- Both decoders put two digits together to the same byte. -/
theorem digits_of_isHexDigit {hi lo : UInt8} (hhi : isHexDigit hi = true)
    (hlo : isHexDigit lo = true) : Digits (fromHex hi <<< 4 ||| fromHex lo) hi lo := by
  have hall : hexDigits.all (fun hi => hexDigits.all fun lo =>
      decide (Digits (fromHex hi <<< 4 ||| fromHex lo) hi lo)) = true := by
    decide +kernel
  have hlos := List.all_eq_true.mp hall hi (mem_hexDigits hhi)
  exact of_decide_eq_true (List.all_eq_true.mp hlos lo (mem_hexDigits hlo))

theorem recognised_of_loop : ∀ {s : Bytes} {n m : Nat}, isUrlEncodeLoop n s = some m → Recognised s
  | [], _, _, _ => .nil
  | p :: rest, n, m, h => by
    rw [isUrlEncodeLoop.eq_def] at h
    dsimp only at h
    split at h
    · rename_i hp
      rw [hp]
      exact .nul rest
    · split at h
      · rename_i hp
        rw [hp]
        match rest, h with
        | p1 :: p2 :: tail, h =>
          dsimp only at h
          split at h
          · rename_i hhex
            exact .word (.escaped (digits_of_isHexDigit hhex.2.2.1 hhex.2.2.2))
              (recognised_of_loop h)
          · cases h
        | [_], h => cases h
        | [], h => cases h
      · split at h
        · rename_i hp
          rcases hp with rfl | rfl | rfl
          · exact .word .blank (recognised_of_loop h)
          · exact .word (.plain (by decide)) (recognised_of_loop h)
          · exact .word (.plain (by decide)) (recognised_of_loop h)
        · cases h

/-! ## Zero bytes -/

/-- `%00`. -/
def escapedNul : Bytes := [37, 48, 48]

theorem Word.eq_zero_iff {c : UInt8} {w : Bytes} (h : Word c w) : c = 0 ↔ w = escapedNul := by
  cases h with
  | plain h => exact iff_of_false h.1 (by simp [escapedNul])
  | blank => decide
  | escaped h =>
    rename_i hi lo
    constructor
    · rintro rfl
      have hall : hexDigits.all (fun hi => hexDigits.all fun lo =>
          decide (Digits 0 hi lo → [37, hi, lo] = escapedNul)) = true := by
        decide +kernel
      have hlos := List.all_eq_true.mp hall hi (mem_hexDigits_of_char2num h.2.2.1.1)
      have hlo := List.all_eq_true.mp hlos lo (mem_hexDigits_of_char2num h.2.2.1.2)
      exact of_decide_eq_true hlo h
    · intro hw
      obtain ⟨rfl, rfl⟩ : hi = 48 ∧ lo = 48 := by
        simpa [escapedNul] using hw
      rw [← h.2.1]
      decide

theorem Word.nulFree {c : UInt8} {w : Bytes} (h : Word c w) : NulFree w := by
  cases h with
  | plain h => simpa [NulFree] using h.1
  | blank => decide
  | escaped h => simpa [NulFree] using h.1

/-- A `%00` that reaches into a word is this word. -/
theorem Word.infix_iff {c : UInt8} {w : Bytes} (h : Word c w) (hc : c ≠ 0) (rest : Bytes) :
    escapedNul <:+: w ++ rest ↔ escapedNul <:+: rest := by
  have hskip : ∀ {x : UInt8} {t : Bytes}, x ≠ 37 →
      (escapedNul <:+: x :: t ↔ escapedNul <:+: t) := by
    intro x t hx
    rw [List.infix_cons_iff]
    refine or_iff_right fun hpre => hx ?_
    exact (List.cons_prefix_cons.mp hpre).1.symm
  have hdigit : ∀ {x : UInt8}, Utils.char2num x ≠ -1 → x ≠ 37 := by
    rintro x hx rfl
    exact hx (by decide)
  have hzero := h.eq_zero_iff
  cases h with
  | plain h => exact hskip h.2.1
  | blank => exact hskip (by decide)
  | escaped h =>
    rename_i hi lo
    obtain ⟨hhi, hlo⟩ := h.2.2.1
    rw [List.cons_append, List.cons_append, List.singleton_append, List.infix_cons_iff,
      hskip (hdigit hhi), hskip (hdigit hlo)]
    refine or_iff_right fun hpre => hc (hzero.mpr ?_)
    obtain ⟨t, ht⟩ := hpre
    simp only [escapedNul, List.cons_append, List.cons.injEq] at ht
    rw [← ht.2.1, ← ht.2.2.1]
    rfl

/-- The decoders agree on recognised words up to the zero byte of the text or of an escape. -/
theorem Recognised.agree_iff {s : Bytes} (h : Recognised s) :
    urlDecodedStr s = Utils.urlDecode s ↔ NulFree s ∧ ¬ escapedNul <:+: s := by
  unfold urlDecodedStr
  induction h with
  | nil => decide
  | nul rest =>
    refine iff_of_false ?_ fun h => h.1 0 List.mem_cons_self rfl
    have hstop : urlDecode (0 :: rest) = [] := by
      rw [urlDecode.eq_def]
      exact if_pos rfl
    have hcopy : Utils.urlDecode (0 :: rest) = 0 :: Utils.urlDecode rest := by
      rw [Utils.urlDecode.eq_def]
      rfl
    rw [hstop, hcopy]
    exact fun h => List.cons_ne_nil _ _ h.symm
  | word h hrest ih =>
    rename_i c w rest
    rw [urlDecode_word h, Utils.urlDecode_word h]
    by_cases hc : c = 0
    · rw [h.eq_zero_iff.mp hc, hc]
      exact iff_of_false (fun h => List.cons_ne_nil _ _ h.symm) fun hfree =>
        hfree.2 (List.prefix_append ..).isInfix
    · have hcstr : cstr (c :: urlDecode rest) = c :: cstr (urlDecode rest) :=
        List.takeWhile_cons_of_pos (by simpa using hc)
      rw [hcstr, List.cons.injEq, and_iff_right rfl, ih, nulFree_append, and_iff_right h.nulFree,
        h.infix_iff hc]

/-- **When the decoders agree on recognised text.** -/
theorem urlDecodedStr_eq_iff (s : Bytes) (h : isUrlEncodeStr s = true) :
    urlDecodedStr s = Utils.urlDecode s ↔ NulFree s ∧ ¬ escapedNul <:+: s := by
  refine Recognised.agree_iff ?_
  unfold isUrlEncodeStr at h
  split at h
  · cases h
  · rename_i hloop
    exact recognised_of_loop hloop

/-- `%2b+%7E`. -/
theorem urlDecodedStr_eq_iff_blank : isUrlEncodeStr [37, 50, 98, 43, 37, 55, 69] = true ∧
    urlDecodedStr [37, 50, 98, 43, 37, 55, 69] = Utils.urlDecode [37, 50, 98, 43, 37, 55, 69] :=
  have h : isUrlEncodeStr [37, 50, 98, 43, 37, 55, 69] = true := by decide +kernel
  ⟨h, (urlDecodedStr_eq_iff _ h).mpr (by decide +kernel)⟩

/-- `%7e%00%7e` is recognised; `url_decoded_str` loses what stands from the zero byte on. -/
theorem urlDecodedStr_nul : isUrlEncodeStr [37, 55, 101, 37, 48, 48, 37, 55, 101] = true ∧
    urlDecodedStr [37, 55, 101, 37, 48, 48, 37, 55, 101] ≠
      Utils.urlDecode [37, 55, 101, 37, 48, 48, 37, 55, 101] := by
  decide +kernel

end CommonTools.Url
