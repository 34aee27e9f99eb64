import CommonTools.Lib.CString

/-! # URL encoding and decoding

Two encoders and two decoders, written apart from each other. `url_encode` and
`url_decode` of the header work on C strings of signed characters; the encoder
of the handler and `URLDecode` of the utilities on counted strings. -/
namespace CommonTools.Url
open CommonTools.Lib

/-! ## `ctype.h` in the C locale -/

def isdigit (c : UInt8) : Bool := 48 ≤ c && c ≤ 57

/-- No byte from 128 on is a letter, read as a signed character or not. -/
def isalnum (c : UInt8) : Bool := isdigit c || (65 ≤ c && c ≤ 90) || (97 ≤ c && c ≤ 122)

def tolower (c : UInt8) : UInt8 := if 65 ≤ c ∧ c ≤ 90 then c + 32 else c

/-- The bytes both encoders copy: letters, digits, `-`, `_`, `.` and `~`. -/
def isPlain (c : UInt8) : Bool := isalnum c || c == 45 || c == 95 || c == 46 || c == 126

/-! ## `UrlEncodeAndDecode.h` -/

def fromHex (ch : UInt8) : UInt8 := if isdigit ch then ch - 48 else tolower ch - 97 + 10

/-- The digits `0123456789abcdef`. -/
def hex : Bytes := [48, 49, 50, 51, 52, 53, 54, 55, 56, 57, 97, 98, 99, 100, 101, 102]

def toHex (code : Int8) : UInt8 := hex.getD (code &&& 15).toUInt8.toNat 0

/-- What `url_encode` writes for one byte; the shift is that of a signed `char`. -/
def urlEncodeByte (c : UInt8) : Bytes :=
  if isPlain c then [c]
  else if c = 32 then [43]
  else [37, toHex (c.toInt8 >>> 4), toHex (c.toInt8 &&& 15)]

def urlEncode : Bytes → Bytes
  | [] => []
  | c :: rest => if c = 0 then [] else urlEncodeByte c ++ urlEncode rest

/-- `url_decode`: a `%` without two bytes behind it is dropped. -/
def urlDecode : Bytes → Bytes
  | [] => []
  | c :: rest =>
    if c = 0 then []
    else if c = 37 then
      match rest with
      | hi :: lo :: tail =>
        if hi ≠ 0 ∧ lo ≠ 0 then (fromHex hi <<< 4 ||| fromHex lo) :: urlDecode tail
        else urlDecode (hi :: lo :: tail)
      | [hi] => urlDecode [hi]
      | [] => []
    else if c = 43 then 32 :: urlDecode rest
    else c :: urlDecode rest

/-! ## `HttpHandler.cpp` and `utils.cpp` -/

namespace HttpHandler

def toHex (x : UInt8) : UInt8 := if x > 9 then x + 55 else x + 48

def urlEncodeByte (c : UInt8) : Bytes :=
  if isPlain c then [c]
  else if c = 32 then [43]
  else [37, toHex (c >>> 4), toHex (c % 16)]

def urlEncode (str : Bytes) : Bytes := str.flatMap urlEncodeByte

end HttpHandler

namespace Utils

def char2num (ch : UInt8) : Int32 :=
  if 48 ≤ ch ∧ ch ≤ 57 then (ch - 48).toUInt32.toInt32
  else if 97 ≤ ch ∧ ch ≤ 102 then (ch - 97 + 10).toUInt32.toInt32
  else if 65 ≤ ch ∧ ch ≤ 70 then (ch - 65 + 10).toUInt32.toInt32
  else -1

/-- `URLDecode`: a `%` without two digits behind it stands for itself. -/
def urlDecode : Bytes → Bytes
  | [] => []
  | ch :: rest =>
    if ch = 43 then 32 :: urlDecode rest
    else if ch = 37 then
      match rest with
      | hi :: lo :: tail =>
        if char2num hi ≠ -1 ∧ char2num lo ≠ -1 then
          (char2num hi <<< 4 ||| char2num lo).toInt8.toUInt8 :: urlDecode tail
        else ch :: urlDecode (hi :: lo :: tail)
      | [hi] => ch :: urlDecode [hi]
      | [] => [ch]
    else ch :: urlDecode rest

end Utils

/-! ## Texts encoded byte by byte -/

/-- A decoder that takes the word of each byte off the front of its input
undoes the encoder. -/
theorem decode_flatMap {enc : UInt8 → Bytes} {dec : Bytes → Bytes} (hnil : dec [] = []) :
    ∀ s : Bytes, (∀ c ∈ s, ∀ rest, dec (enc c ++ rest) = c :: dec rest) → dec (s.flatMap enc) = s
  | [], _ => hnil
  | c :: s, h => by
    rw [List.flatMap_cons, h c List.mem_cons_self,
      decode_flatMap hnil s fun x hx => h x (List.mem_cons_of_mem c hx)]

theorem urlEncode_eq_flatMap : ∀ {s : Bytes}, NulFree s → urlEncode s = s.flatMap urlEncodeByte
  | [], _ => rfl
  | c :: s, h => by
    have hs : NulFree s := fun x hx => h x (List.mem_cons_of_mem c hx)
    rw [urlEncode, if_neg (h c List.mem_cons_self), urlEncode_eq_flatMap hs, List.flatMap_cons]

/-- A property of all bytes, from its 256 cases. -/
theorem forall_byte {P : UInt8 → Prop} (h : ∀ n < 256, P (UInt8.ofNat n)) (c : UInt8) : P c := by
  have hc := h c.toNat c.toNat_lt
  rwa [UInt8.ofNat_toNat] at hc

/-- Both decoders put the digits `hi` and `lo` together to `c`. -/
def Digits (c hi lo : UInt8) : Prop :=
  (hi ≠ 0 ∧ lo ≠ 0) ∧ fromHex hi <<< 4 ||| fromHex lo = c ∧
    (Utils.char2num hi ≠ -1 ∧ Utils.char2num lo ≠ -1) ∧
      (Utils.char2num hi <<< 4 ||| Utils.char2num lo).toInt8.toUInt8 = c

instance (c hi lo : UInt8) : Decidable (Digits c hi lo) :=
  inferInstanceAs (Decidable ((hi ≠ 0 ∧ lo ≠ 0) ∧ fromHex hi <<< 4 ||| fromHex lo = c ∧
    (Utils.char2num hi ≠ -1 ∧ Utils.char2num lo ≠ -1) ∧
      (Utils.char2num hi <<< 4 ||| Utils.char2num lo).toInt8.toUInt8 = c))

/-- What stands for the byte `c`: itself, a `+`, or a `%` with two digits. -/
inductive Word : UInt8 → Bytes → Prop
  | plain {c : UInt8} (h : c ≠ 0 ∧ c ≠ 37 ∧ c ≠ 43) : Word c [c]
  | blank : Word 32 [43]
  | escaped {c hi lo : UInt8} (h : Digits c hi lo) : Word c [37, hi, lo]

theorem isPlain_ne (c : UInt8) (h : isPlain c = true) : c ≠ 0 ∧ c ≠ 37 ∧ c ≠ 43 := by
  refine ⟨?_, ?_, ?_⟩
  all_goals
    intro hc
    rw [hc] at h
    exact absurd h (by decide)

/-! ### What the encoders write -/

/-- The signed shift smears the sign over the high digit; `to_hex` masks it. -/
theorem digits_toHex (c : UInt8) : Digits c (toHex (c.toInt8 >>> 4)) (toHex (c.toInt8 &&& 15)) :=
  @forall_byte (fun c => Digits c (toHex (c.toInt8 >>> 4)) (toHex (c.toInt8 &&& 15)))
    (by decide +kernel) c

theorem HttpHandler.digits_toHex (c : UInt8) :
    Digits c (HttpHandler.toHex (c >>> 4)) (HttpHandler.toHex (c % 16)) :=
  @forall_byte (fun c => Digits c (HttpHandler.toHex (c >>> 4)) (HttpHandler.toHex (c % 16)))
    (by decide +kernel) c

theorem word_urlEncodeByte (c : UInt8) : Word c (urlEncodeByte c) := by
  unfold urlEncodeByte
  split
  · rename_i hplain
    exact .plain (isPlain_ne c hplain)
  · split
    · rename_i hblank
      rw [hblank]
      exact .blank
    · exact .escaped (digits_toHex c)

theorem HttpHandler.word_urlEncodeByte (c : UInt8) : Word c (HttpHandler.urlEncodeByte c) := by
  unfold HttpHandler.urlEncodeByte
  split
  · rename_i hplain
    exact .plain (isPlain_ne c hplain)
  · split
    · rename_i hblank
      rw [hblank]
      exact .blank
    · exact .escaped (HttpHandler.digits_toHex c)

/-! ### What the decoders read -/

theorem urlDecode_word {c : UInt8} {w : Bytes} (h : Word c w) (rest : Bytes) :
    urlDecode (w ++ rest) = c :: urlDecode rest := by
  cases h with
  | plain h =>
    rw [List.singleton_append, urlDecode.eq_def]
    simp only [h, if_false]
  | blank =>
    rw [List.singleton_append, urlDecode.eq_def]
    simp only [show (43 : UInt8) ≠ 0 by decide, show (43 : UInt8) ≠ 37 by decide, if_false, if_true]
  | escaped h =>
    obtain ⟨hnul, hfrom, -, -⟩ := h
    rw [List.cons_append, List.cons_append, List.singleton_append, urlDecode.eq_def]
    simp only [show (37 : UInt8) ≠ 0 by decide, hnul, ne_eq, not_false_eq_true, and_self,
      if_false, if_true, hfrom]

theorem Utils.urlDecode_word {c : UInt8} {w : Bytes} (h : Word c w) (rest : Bytes) :
    Utils.urlDecode (w ++ rest) = c :: Utils.urlDecode rest := by
  cases h with
  | plain h =>
    rw [List.singleton_append, Utils.urlDecode.eq_def]
    simp only [h, if_false]
  | blank =>
    rw [List.singleton_append, Utils.urlDecode.eq_def]
    simp only [if_true]
  | escaped h =>
    obtain ⟨-, -, hnum, hchar⟩ := h
    rw [List.cons_append, List.cons_append, List.singleton_append, Utils.urlDecode.eq_def]
    simp only [show (37 : UInt8) ≠ 43 by decide, hnum, ne_eq, not_false_eq_true, and_self,
      if_false, if_true, hchar]

/-- **Every decoder undoes every encoder.** -/
theorem urlDecode_urlEncode (s : Bytes) (hs : NulFree s) :
    urlDecode (urlEncode s) = s ∧ urlDecode (HttpHandler.urlEncode s) = s ∧
      Utils.urlDecode (urlEncode s) = s ∧ Utils.urlDecode (HttpHandler.urlEncode s) = s := by
  rw [urlEncode_eq_flatMap hs, HttpHandler.urlEncode]
  refine ⟨?_, ?_, ?_, ?_⟩
  · exact decode_flatMap rfl s fun c _ => urlDecode_word (word_urlEncodeByte c)
  · exact decode_flatMap rfl s fun c _ => urlDecode_word (HttpHandler.word_urlEncodeByte c)
  · exact decode_flatMap rfl s fun c _ => Utils.urlDecode_word (word_urlEncodeByte c)
  · exact decode_flatMap rfl s fun c _ => Utils.urlDecode_word (HttpHandler.word_urlEncodeByte c)

/-- A text that looks like an escape, a blank, a plus and a byte above 127. -/
theorem urlDecode_urlEncode_percent :
    NulFree [37, 52, 49, 32, 43, 228] ∧
      Utils.urlDecode (urlEncode [37, 52, 49, 32, 43, 228]) = [37, 52, 49, 32, 43, 228] :=
  ⟨by decide, (urlDecode_urlEncode [37, 52, 49, 32, 43, 228] (by decide)).2.2.1⟩

end CommonTools.Url
