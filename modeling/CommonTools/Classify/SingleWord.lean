import CommonTools.Http.Message

/-! # Splitting a text into single words

`split2singleWord_` cuts off a run of bytes below 128, a line break or three bytes at a time.
A zero byte is no `str[0] > 0`, and goes with the characters of three bytes. -/
namespace CommonTools.Classify.SingleWord
open CommonTools.Lib CommonTools.Http

/-! ## `general.cpp` -/

/-- The condition of the inner loop; 10 and 13 end a line. -/
def inRun (b : UInt8) : Bool := b < 128 && b != 10 && b != 13

/-- The branches of a round: what goes to `singleWord`, and `i`. -/
def takeWord (str : Bytes) (len : Int) : Option Bytes × Nat :=
  match str with
  | [] => (none, 0)
  | ch :: _ =>
    if ch = 32 then (none, 1)
    else if 0 < ch.toInt8 ∧ ch < 128 then
      let i := if ch = 10 ∨ ch = 13 then 1 else ((str.take len.toNat).takeWhile inRun).length
      (some (str.take i), i)
    else if ch < 176 then (some (str.take 3), 3)
    else (some (str.take 3), 3)

/-- The loop; `none` when it does not end. -/
def splitLoop : Nat → Bytes → List Bytes → Option (List Bytes)
  | 0, _, _ => none
  | fuel + 1, str, singleWord =>
    if str = [] then some singleWord
    else
      let len := toInt32 str.length
      let (word, i) := takeWord str len
      let singleWord := singleWord ++ word.toList
      if len ≤ i then some singleWord
      else splitLoop fuel ((str.drop i).take (len - i).toNat) singleWord

/-- `split2singleWord_`: the return value and `singleWord`. Every round but the last makes the
string shorter. -/
def split2singleWord_ (text : Bytes) (singleWord : List Bytes) : Option (Int × List Bytes) :=
  if text.length = 0 then some (-1, singleWord)
  else (splitLoop (text.length + 1) text singleWord).map fun singleWord => (0, singleWord)

/-! ## What it is to do -/

/-- A character of one or of three bytes. -/
inductive Utf8Char where
  | one (c : UInt8) (h : c < 0x80)
  | three (lead mid trail : UInt8) (hlead : 0xe0 ≤ lead ∧ lead ≤ 0xef)
    (hmid : 0x80 ≤ mid ∧ mid ≤ 0xbf) (htrail : 0x80 ≤ trail ∧ trail ≤ 0xbf)
    (hlong : lead = 0xe0 → 0xa0 ≤ mid) (hsurrogate : lead = 0xed → mid ≤ 0x9f)

def Utf8Char.bytes : Utf8Char → Bytes
  | .one c _ => [c]
  | .three lead mid trail _ _ _ _ _ => [lead, mid, trail]

def utf8Text (s : List Utf8Char) : Bytes := (s.map Utf8Char.bytes).flatten

def unspaced (s : Bytes) : Bytes := s.filter (· ≠ 32)

/-- The token is of ASCII characters, or is exactly one character. -/
def WholeToken (t : Bytes) : Prop := (∀ b ∈ t, b < 0x80) ∨ ∃ c : Utf8Char, t = c.bytes

/-- The function returns, nothing but blanks is lost, and in a well-formed text no token has a
part of a character. -/
def SplitsRight (text : Bytes) : Prop :=
  ∃ ret tokens,
    (∀ singleWord, split2singleWord_ text singleWord = some (ret, singleWord ++ tokens)) ∧
    unspaced tokens.flatten = unspaced text ∧
    ∀ s, text = utf8Text s → ∀ t ∈ tokens, WholeToken t

/-- What comes next in a text: a token, more of a run of ASCII characters, or a byte of the
token of a zero byte, with so many to come behind it. -/
inductive Place where
  | start
  | run
  | zero (left : Nat)

/-- No character of three bytes comes within the two bytes behind a zero byte that begins a
token. -/
def ZerosApart : Place → List Utf8Char → Prop
  | _, [] => True
  | .start, .one c _ :: s =>
    ZerosApart (if c = 0 then .zero 1 else if inRun c ∧ c ≠ 32 then .run else .start) s
  | .run, .one c _ :: s => ZerosApart (if inRun c then .run else .start) s
  | .zero 0, .one _ _ :: s => ZerosApart .start s
  | .zero (left + 1), .one _ _ :: s => ZerosApart (.zero left) s
  | .zero _, .three .. :: _ => False
  | _, .three .. :: s => ZerosApart .start s

/-- What the first round makes of a text: the bytes behind are given up when the length is no
`int`. -/
def kept (text : Bytes) : Nat :=
  max (takeWord text (toInt32 text.length)).2 (toInt32 text.length).toNat

/-! ## Rounds -/

/-- The tokens of a text that is not too long. -/
inductive Tokens : Bytes → List Bytes → Prop
  | nil : Tokens [] []
  | blank {s : Bytes} {ts : List Bytes} : Tokens s ts → Tokens (32 :: s) ts
  | line {c : UInt8} {s : Bytes} {ts : List Bytes} : c = 10 ∨ c = 13 → Tokens s ts →
      Tokens (c :: s) ([c] :: ts)
  | run {c : UInt8} {w s : Bytes} {ts : List Bytes} : c ≠ 0 → c ≠ 32 → inRun c →
      (∀ b ∈ w, inRun b) → (∀ b ∈ s.head?, ¬ inRun b) → Tokens s ts →
      Tokens (c :: (w ++ s)) ((c :: w) :: ts)
  | three {c : UInt8} {s : Bytes} {ts : List Bytes} : c = 0 ∨ 128 ≤ c → Tokens (s.drop 2) ts →
      Tokens (c :: s) ((c :: s.take 2) :: ts)

/-- What `char` is not positive or not ASCII. -/
theorem western_iff (c : UInt8) : 0 < c.toInt8 ∧ c < 128 ↔ ¬ (c = 0 ∨ 128 ≤ c) := by
  have hzero : (0 : Int8).toInt = 0 := rfl
  have hsigned : c.toInt8.toInt = c.toBitVec.toInt := rfl
  have hnat : c.toBitVec.toNat = c.toNat := rfl
  rw [Int8.lt_iff_toInt_lt, hzero, hsigned, BitVec.toInt_eq_toNat_cond, hnat,
    UInt8.lt_iff_toNat_lt, UInt8.le_iff_toNat_le, ← UInt8.toNat_inj]
  simp
  omega

theorem inRun_of_western {c : UInt8} (hc : ¬ (c = 0 ∨ 128 ≤ c)) (hline : ¬ (c = 10 ∨ c = 13)) :
    inRun c := by
  simp only [not_or, UInt8.not_le] at hc hline
  simp [inRun, hc, hline]

section
variable {c : UInt8} {s : Bytes} {len : Int}

theorem takeWord_blank : takeWord (32 :: s) len = (none, 1) := rfl

theorem takeWord_line (h : c = 10 ∨ c = 13) : takeWord (c :: s) len = (some [c], 1) := by
  rcases h with rfl | rfl <;> simp [takeWord]

theorem takeWord_run (hblank : c ≠ 32) (hc : ¬ (c = 0 ∨ 128 ≤ c)) (hline : ¬ (c = 10 ∨ c = 13)) :
    takeWord (c :: s) len =
      (some ((c :: s).take (((c :: s).take len.toNat).takeWhile inRun).length),
        (((c :: s).take len.toNat).takeWhile inRun).length) := by
  simp only [takeWord, if_neg hblank, if_pos ((western_iff c).mpr hc), if_neg hline]

theorem takeWord_three (hc : c = 0 ∨ 128 ≤ c) :
    takeWord (c :: s) len = (some (c :: s.take 2), 3) := by
  have hblank : c ≠ 32 := by rcases hc with rfl | hc <;> grind
  simp only [takeWord, if_neg hblank, if_neg fun h => (western_iff c).mp h hc, ite_self]
  rfl

end

/-- One round cuts a token off what it keeps of the string. -/
theorem takeWord_tokens {str : Bytes} {len : Int} {ts : List Bytes} (hne : str ≠ [])
    (hkept : max (takeWord str len).2 len.toNat ≠ 0)
    (h : Tokens ((str.take (max (takeWord str len).2 len.toNat)).drop (takeWord str len).2) ts) :
    Tokens (str.take (max (takeWord str len).2 len.toNat))
      ((takeWord str len).1.toList ++ ts) := by
  obtain ⟨c, s, rfl⟩ := List.exists_cons_of_ne_nil hne
  by_cases hblank : c = 32
  · subst hblank
    rw [takeWord_blank] at hkept h ⊢
    obtain ⟨k, hk⟩ := Nat.exists_eq_succ_of_ne_zero hkept
    rw [hk, List.take_succ_cons] at h ⊢
    exact .blank h
  by_cases hline : c = 10 ∨ c = 13
  · rw [takeWord_line hline] at hkept h ⊢
    obtain ⟨k, hk⟩ := Nat.exists_eq_succ_of_ne_zero hkept
    rw [hk, List.take_succ_cons] at h ⊢
    exact .line hline h
  by_cases hc : c = 0 ∨ 128 ≤ c
  · rw [takeWord_three hc] at h ⊢
    obtain ⟨k, hk⟩ : ∃ k, max 3 len.toNat = k + 1 + 2 := ⟨max 3 len.toNat - 3, by omega⟩
    rw [hk, List.take_succ_cons] at h ⊢
    have htoken : s.take 2 = (s.take (k + 2)).take 2 := by simp [List.take_take]
    rw [htoken]
    exact .three hc (by simpa using h)
  · rw [takeWord_run hblank hc hline] at hkept h ⊢
    have hle : (((c :: s).take len.toNat).takeWhile inRun).length ≤ len.toNat :=
      Nat.le_trans (List.takeWhile_prefix inRun).length_le (List.length_take_le _ _)
    rw [max_eq_right hle] at hkept h ⊢
    obtain ⟨n, hn⟩ := Nat.exists_eq_succ_of_ne_zero hkept
    rw [hn, List.take_succ_cons, List.takeWhile_cons_of_pos (inRun_of_western hc hline)] at h ⊢
    have hw : (s.take n).takeWhile inRun ++ (s.take n).dropWhile inRun = s.take n :=
      List.takeWhile_append_dropWhile
    have hall : ∀ b ∈ (s.take n).takeWhile inRun, inRun b := fun b => List.mem_takeWhile_imp
    have hend := List.head?_dropWhile_not inRun (s.take n)
    generalize (s.take n).takeWhile inRun = w at hw hall h ⊢
    generalize (s.take n).dropWhile inRun = rest at hw hend
    have htoken : s.take w.length = w :=
      (List.prefix_iff_eq_take.mp
        (List.IsPrefix.trans ⟨rest, hw⟩ (List.take_prefix n s))).symm
    rw [← hw] at h ⊢
    rw [List.length_cons, List.take_succ_cons, htoken]
    simp only [not_or] at hc
    refine .run hc.1 hblank (inRun_of_western (by simpa using hc) hline) hall ?_ (by simpa using h)
    intro b hb
    simpa [Option.mem_def.mp hb] using hend

/-- A round passes a byte unless the length is no positive `int`. -/
theorem takeWord_zero {str : Bytes} {len : Int} (hne : str ≠ []) (h : (takeWord str len).2 = 0) :
    len ≤ 0 ∧ (takeWord str len).1 = some [] := by
  obtain ⟨c, s, rfl⟩ := List.exists_cons_of_ne_nil hne
  by_cases hblank : c = 32
  · rw [hblank, takeWord_blank] at h
    cases h
  by_cases hline : c = 10 ∨ c = 13
  · rw [takeWord_line hline] at h
    cases h
  by_cases hc : c = 0 ∨ 128 ≤ c
  · rw [takeWord_three hc] at h
    cases h
  · rw [takeWord_run hblank hc hline] at h ⊢
    dsimp only at h
    refine ⟨?_, by rw [h]; rfl⟩
    by_contra hpos
    obtain ⟨n, hn⟩ := Nat.exists_eq_succ_of_ne_zero (show len.toNat ≠ 0 by omega)
    rw [hn, List.take_succ_cons, List.takeWhile_cons_of_pos (inRun_of_western hc hline)] at h
    cases h

theorem kept_short {str : Bytes} (h : (str.length : Int) ≤ INT_MAX) :
    str.length ≤ kept str := by
  rw [kept, toInt32_natCast h, Int.toNat_natCast]
  exact Nat.le_max_right _ _

theorem splitLoop_tokens : ∀ (fuel : Nat) (str : Bytes), str ≠ [] → str.length < fuel →
    ∃ ts, (∀ singleWord, splitLoop fuel str singleWord = some (singleWord ++ ts)) ∧
      (Tokens (str.take (kept str)) ts ∨ (kept str = 0 ∧ ts = [[]]))
  | 0, _, _, hfuel => absurd hfuel (Nat.not_lt_zero _)
  | fuel + 1, str, hne, hfuel => by
    obtain ⟨len, hlen⟩ : ∃ len, toInt32 str.length = len := ⟨_, rfl⟩
    have hmax : len ≤ INT_MAX := hlen ▸ toInt32_le _
    have hkept : kept str = max (takeWord str len).2 len.toNat := by rw [kept, hlen]
    have hround := @takeWord_tokens str len
    rw [← hkept] at hround
    simp only [splitLoop, if_neg hne, hlen]
    by_cases hlast : len ≤ (takeWord str len).2
    · simp only [if_pos hlast]
      refine ⟨_, fun singleWord => rfl, ?_⟩
      by_cases hzero : kept str = 0
      · obtain ⟨-, hword⟩ := takeWord_zero hne (show (takeWord str len).2 = 0 by omega)
        exact .inr ⟨hzero, by rw [hword]; rfl⟩
      · have hdrop : (str.take (kept str)).drop (takeWord str len).2 = [] := by
          rw [List.drop_eq_nil_iff]
          exact Nat.le_trans (List.length_take_le _ _) (by omega)
        have htokens := hround hne hzero (hdrop ▸ Tokens.nil)
        rw [List.append_nil] at htokens
        exact .inl htokens
    · simp only [if_neg hlast]
      have hpos : (takeWord str len).2 ≠ 0 := by
        intro hzero
        have hle := (takeWord_zero hne hzero).1
        omega
      have hwhole : len.toNat ≤ str.length := toInt32_natCast_le (m := len.toNat) (by omega)
      have hrest :
          ((str.drop (takeWord str len).2).take (len - (takeWord str len).2).toNat).length =
            len.toNat - (takeWord str len).2 := by
        rw [List.length_take, List.length_drop]
        omega
      have hdrop : (str.take (kept str)).drop (takeWord str len).2 =
          (str.drop (takeWord str len).2).take (len - (takeWord str len).2).toNat := by
        have hcount : kept str - (takeWord str len).2 = (len - (takeWord str len).2).toNat := by
          omega
        rw [List.drop_take, hcount]
      generalize (str.drop (takeWord str len).2).take (len - (takeWord str len).2).toNat = str'
        at hrest hdrop ⊢
      have hne' : str' ≠ [] := by
        rw [← List.length_pos_iff]
        omega
      obtain ⟨ts, hloop, htokens⟩ := splitLoop_tokens fuel str' hne' (by omega)
      have hshort := @kept_short str' (by omega)
      refine ⟨(takeWord str len).1.toList ++ ts, fun singleWord => ?_, .inl ?_⟩
      · rw [hloop, List.append_assoc]
      rcases htokens with htokens | ⟨hzero, -⟩
      · rw [List.take_of_length_le hshort, ← hdrop] at htokens
        exact hround hne (by omega) htokens
      · omega

/-! ## What the tokens hold -/

theorem unspaced_append (s t : Bytes) : unspaced (s ++ t) = unspaced s ++ unspaced t :=
  List.filter_append ..

theorem tokens_unspaced {s : Bytes} {ts : List Bytes} (h : Tokens s ts) :
    unspaced ts.flatten = unspaced s := by
  induction h with
  | nil => rfl
  | blank _ ih => simpa [unspaced] using ih
  | @line c s ts _ _ ih =>
    rw [List.flatten_cons, unspaced_append, ih, ← unspaced_append]
    rfl
  | @run c w s ts _ _ _ _ _ _ ih =>
    rw [List.flatten_cons, unspaced_append, ih, ← unspaced_append]
    rfl
  | @three c s ts _ _ ih =>
    have hs : c :: s = c :: s.take 2 ++ s.drop 2 := by simp
    rw [List.flatten_cons, unspaced_append, ih, hs, unspaced_append]

/-! ## Well-formed texts -/

@[simp] theorem utf8Text_nil : utf8Text [] = [] := rfl

@[simp] theorem utf8Text_one {c : UInt8} (h : c < 0x80) (s : List Utf8Char) :
    utf8Text (.one c h :: s) = c :: utf8Text s := rfl

theorem wholeToken_char (c : Utf8Char) : WholeToken c.bytes := .inr ⟨c, rfl⟩

/-- Behind a zero byte a token has nothing but ASCII characters. -/
theorem wholeToken_zero {t : Bytes} : WholeToken (0 :: t) ↔ ∀ b ∈ t, b < 0x80 := by
  constructor
  · intro h
    rcases h with hlow | ⟨c, hc⟩
    · exact (List.forall_mem_cons.mp hlow).2
    · match c with
      | .one c _ =>
        obtain ⟨-, rfl⟩ := List.cons.inj hc
        simp
      | .three lead _ _ hlead _ _ _ _ =>
        obtain ⟨rfl, -⟩ := List.cons.inj hc
        exact absurd hlead.1 (by decide)
  · intro h
    exact .inl (List.forall_mem_cons.mpr ⟨by decide, h⟩)

theorem not_low {lead : UInt8} (h : 0xe0 ≤ lead ∧ lead ≤ 0xef) : ¬ lead < 0x80 := fun hlow =>
  absurd (UInt8.lt_of_le_of_lt h.1 hlow) (by decide)

theorem not_three {s : List Utf8Char} {b : UInt8} {t : Bytes} (hs : utf8Text s = b :: t)
    (hb : b < 0x80) : ∃ h s', s = .one b h :: s' ∧ utf8Text s' = t := by
  match s with
  | [] => simp at hs
  | .one c h :: s' =>
    obtain ⟨rfl, rfl⟩ := List.cons.inj hs
    exact ⟨h, s', rfl, rfl⟩
  | .three lead _ _ hlead _ _ _ _ :: _ =>
    obtain ⟨rfl, -⟩ := List.cons.inj hs
    exact absurd hb (not_low hlead)

theorem low_of_inRun {b : UInt8} (h : inRun b) : b < 0x80 := by
  simp only [inRun, Bool.and_eq_true, decide_eq_true_eq] at h
  exact h.1.1

theorem zerosApart_run : ∀ {w t : Bytes} {s : List Utf8Char}, (∀ b ∈ w, inRun b) →
    utf8Text s = w ++ t → ∃ s', utf8Text s' = t ∧ (ZerosApart .run s ↔ ZerosApart .run s')
  | [], _, s, _, hs => ⟨s, hs, Iff.rfl⟩
  | b :: w, t, s, hw, hs => by
    obtain ⟨hb, hw⟩ := List.forall_mem_cons.mp hw
    obtain ⟨h, s', rfl, hs'⟩ := not_three hs (low_of_inRun hb)
    obtain ⟨s'', hs'', hrun⟩ := zerosApart_run hw hs'
    refine ⟨s'', hs'', ?_⟩
    rw [← hrun, ZerosApart, if_pos hb]

/-- A run ends in front of a line break and of a character of three bytes. -/
theorem zerosApart_run_end {s : List Utf8Char} (h : ∀ b ∈ (utf8Text s).head?, ¬ inRun b) :
    ZerosApart .run s ↔ ZerosApart .start s := by
  match s with
  | [] => exact Iff.rfl
  | .one c _ :: _ =>
    have hc : ¬ inRun c := h c rfl
    have hzero : c ≠ 0 := by
      intro hc0
      exact hc (hc0 ▸ rfl)
    simp [ZerosApart, hc, hzero]
  | .three .. :: _ => exact Iff.rfl

/-- The tokens of a text are whole exactly when its zero bytes are apart from the characters of
three bytes. -/
theorem tokens_whole_iff {a : Bytes} {ts : List Bytes} (h : Tokens a ts) :
    ∀ s, utf8Text s = a → ((∀ t ∈ ts, WholeToken t) ↔ ZerosApart .start s) := by
  induction h with
  | nil =>
    intro s hs
    match s with
    | [] => simp [ZerosApart]
    | .one _ _ :: _ => simp at hs
    | .three .. :: _ => cases hs
  | blank _ ih =>
    intro s hs
    obtain ⟨h, s', rfl, hs'⟩ := not_three hs (by decide)
    rw [ih s' hs']
    exact Iff.rfl
  | @line c _ _ hc _ ih =>
    intro s hs
    obtain ⟨h, s', rfl, hs'⟩ := not_three hs (by rcases hc with rfl | rfl <;> decide)
    have hwhole : WholeToken [c] := wholeToken_char (.one c h)
    rw [List.forall_mem_cons, ih s' hs']
    rcases hc with rfl | rfl <;> simp [ZerosApart, hwhole, inRun]
  | @run c w s₁ _ hzero hblank hc hw hend _ ih =>
    intro s hs
    obtain ⟨h, s', rfl, hs'⟩ := not_three hs (low_of_inRun hc)
    obtain ⟨s'', hs'', hrun⟩ := zerosApart_run hw hs'
    have hwhole : WholeToken (c :: w) :=
      .inl (List.forall_mem_cons.mpr ⟨h, fun b hb => low_of_inRun (hw b hb)⟩)
    rw [List.forall_mem_cons, ih s'' hs'', ← zerosApart_run_end (by rwa [hs'']), ← hrun, ZerosApart,
      if_neg hzero, if_pos ⟨hc, hblank⟩]
    exact and_iff_right hwhole
  | @three c t ts hc _ ih =>
    intro s hs
    rw [List.forall_mem_cons]
    rcases hc with rfl | hc
    · obtain ⟨h, s', rfl, rfl⟩ := not_three hs (by decide)
      rw [wholeToken_zero]
      match s' with
      | [] => simpa [ZerosApart] using ih [] rfl
      | [.one a ha] => simpa [ZerosApart, ha] using ih [] rfl
      | .one a ha :: .one b hb :: s'' => simpa [ZerosApart, ha, hb] using ih s'' rfl
      | .one a ha :: .three lead mid trail hlead hmid htrail hlong hsurrogate :: s'' =>
        have hmem : lead ∈ (a :: lead :: mid :: trail :: utf8Text s'').take 2 := by simp
        exact iff_of_false (fun h => not_low hlead (h.1 lead hmem)) id
      | .three lead mid trail hlead hmid htrail hlong hsurrogate :: s'' =>
        have hmem : lead ∈ (lead :: mid :: trail :: utf8Text s'').take 2 := by simp
        exact iff_of_false (fun h => not_low hlead (h.1 lead hmem)) id
    · match s with
      | [] => simp at hs
      | .one _ hlow :: _ =>
        obtain ⟨rfl, -⟩ := List.cons.inj hs
        exact absurd hlow (UInt8.not_lt.mpr hc)
      | .three lead mid trail hlead hmid htrail hlong hsurrogate :: s' =>
        obtain ⟨rfl, rfl⟩ := List.cons.inj hs
        have hwhole := wholeToken_char (.three lead mid trail hlead hmid htrail hlong hsurrogate)
        rw [ih s' rfl]
        exact and_iff_right hwhole

/-! ## Texts of any length -/

theorem zerosApart_blanks : ∀ (k : Nat) (place : Place),
    ZerosApart place (List.replicate k (.one 32 (by decide)))
  | 0, _ => by simp [ZerosApart]
  | k + 1, place => by
    have hrest := zerosApart_blanks k
    rw [List.replicate_succ]
    match place with
    | .start => exact hrest .start
    | .run => exact hrest .run
    | .zero 0 => exact hrest .start
    | .zero (left + 1) => exact hrest (.zero left)

theorem zerosApart_append_blanks (k : Nat) : ∀ (s : List Utf8Char) (place : Place),
    ZerosApart place (s ++ List.replicate k (.one 32 (by decide))) ↔ ZerosApart place s
  | [], place => by simp [ZerosApart, zerosApart_blanks k place]
  | .one c h :: s, place => by
    have hrest := zerosApart_append_blanks k s
    match place with
    | .start => exact hrest _
    | .run => exact hrest _
    | .zero 0 => exact hrest _
    | .zero (left + 1) => exact hrest _
  | .three .. :: s, place => by
    have hrest := zerosApart_append_blanks k s
    match place with
    | .start => exact hrest _
    | .run => exact hrest _
    | .zero 0 => exact Iff.rfl
    | .zero (left + 1) => exact Iff.rfl

theorem utf8Text_append (s t : List Utf8Char) : utf8Text (s ++ t) = utf8Text s ++ utf8Text t := by
  simp [utf8Text]

/-- A blank at the end of a text is a character of its own. -/
theorem utf8Text_eq_concat {s : List Utf8Char} {a : Bytes} (h : utf8Text s = a ++ [32]) :
    ∃ s', s = s' ++ [.one 32 (by decide)] ∧ utf8Text s' = a := by
  rcases List.eq_nil_or_concat s with rfl | ⟨s', ch, rfl⟩
  · simp at h
  · rw [List.concat_eq_append, utf8Text_append] at h
    match ch with
    | .one c _ =>
      obtain ⟨rfl, hc⟩ := List.append_inj' h rfl
      obtain ⟨rfl, -⟩ := List.cons.inj hc
      exact ⟨s', by simp, rfl⟩
    | .three lead mid trail _ _ htrail _ _ =>
      have h' : (utf8Text s' ++ [lead, mid]) ++ [trail] = a ++ [32] := by
        rw [← h]
        simp [utf8Text, Utf8Char.bytes]
      obtain ⟨-, hc⟩ := List.append_inj' h' rfl
      obtain ⟨rfl, -⟩ := List.cons.inj hc
      exact absurd htrail.1 (by decide)

theorem utf8Text_eq_append_blanks : ∀ {k : Nat} {s : List Utf8Char} {a : Bytes},
    utf8Text s = a ++ List.replicate k 32 →
      ∃ s', s = s' ++ List.replicate k (.one 32 (by decide)) ∧ utf8Text s' = a
  | 0, s, a, h => ⟨s, by simp, by simpa using h⟩
  | k + 1, s, a, h => by
    rw [List.replicate_succ', ← List.append_assoc] at h
    obtain ⟨s', rfl, hs'⟩ := utf8Text_eq_concat h
    obtain ⟨s'', rfl, hs''⟩ := utf8Text_eq_append_blanks hs'
    exact ⟨s'', by rw [List.replicate_succ', List.append_assoc], hs''⟩

/-- The function returns, and its tokens are those of the part that is kept. -/
theorem split2singleWord_tokens (text : Bytes) : ∃ ret ts,
    (∀ singleWord, split2singleWord_ text singleWord = some (ret, singleWord ++ ts)) ∧
      (Tokens (text.take (kept text)) ts ∨ (kept text = 0 ∧ ts = [[]] ∧ text ≠ [])) := by
  by_cases hne : text = []
  · subst hne
    exact ⟨-1, [], fun _ => by simp [split2singleWord_], .inl (by simpa using Tokens.nil)⟩
  · obtain ⟨ts, hloop, htokens⟩ := splitLoop_tokens (text.length + 1) text hne (Nat.lt_succ_self _)
    refine ⟨0, ts, fun singleWord => ?_, htokens.imp_right fun h => ⟨h.1, h.2, hne⟩⟩
    rw [split2singleWord_, if_neg (mt List.eq_nil_iff_length_eq_zero.mpr hne), hloop]
    rfl

theorem kept_blank (s : Bytes) : kept (32 :: s) ≠ 0 := by
  rw [kept, takeWord_blank]
  omega

/-- The tokens tell whether anything is lost. -/
theorem unspaced_kept {text : Bytes} {ts : List Bytes}
    (h : Tokens (text.take (kept text)) ts ∨ (kept text = 0 ∧ ts = [[]] ∧ text ≠ [])) :
    unspaced ts.flatten = unspaced text ↔ ∀ b ∈ text.drop (kept text), b = 32 := by
  have hkept : unspaced ts.flatten = unspaced (text.take (kept text)) := by
    rcases h with htokens | ⟨hzero, rfl, -⟩
    · exact tokens_unspaced htokens
    · rw [hzero]
      rfl
  have htext : unspaced text =
      unspaced (text.take (kept text)) ++ unspaced (text.drop (kept text)) := by
    rw [← unspaced_append, List.take_append_drop]
  rw [hkept, htext, List.self_eq_append_right]
  simp [unspaced]

/-- **The text is split without loss and between characters exactly when nothing but blanks is
behind the part that is kept, and when the zero bytes of a well-formed text are apart from its
characters of three bytes.** -/
theorem splitsRight_iff (text : Bytes) :
    SplitsRight text ↔
      (∀ b ∈ text.drop (kept text), b = 32) ∧
        ∀ s, text = utf8Text s → ZerosApart .start s := by
  obtain ⟨ret, ts, hrun, htokens⟩ := split2singleWord_tokens text
  have hsplits : SplitsRight text ↔ unspaced ts.flatten = unspaced text ∧
      ∀ s, text = utf8Text s → ∀ t ∈ ts, WholeToken t := by
    constructor
    · intro h
      obtain ⟨ret', tokens, hrun', hright⟩ := h
      have hsame := Option.some.inj ((hrun []).symm.trans (hrun' []))
      obtain rfl : ts = tokens := (Prod.mk.inj hsame).2
      exact hright
    · intro h
      exact ⟨ret, ts, hrun, h⟩
  rw [hsplits, unspaced_kept htokens]
  refine and_congr_right fun hblank => forall_congr' fun s => imp_congr_right fun hs => ?_
  have hrest : text =
      text.take (kept text) ++ List.replicate (text.drop (kept text)).length 32 := by
    rw [← List.eq_replicate_of_mem hblank, List.take_append_drop]
  obtain ⟨s', rfl, hs'⟩ := utf8Text_eq_append_blanks (hs.symm.trans hrest)
  rw [zerosApart_append_blanks]
  rcases htokens with htokens | ⟨hzero, -, hne⟩
  · exact tokens_whole_iff htokens s' hs'
  · obtain ⟨b, rest, rfl⟩ := List.exists_cons_of_ne_nil hne
    obtain rfl : b = 32 := hblank b (by rw [hzero]; exact List.mem_cons_self)
    exact absurd hzero (kept_blank rest)

/-- A zero byte takes the first two bytes of the character behind it. -/
theorem splitsRight_zero : ¬ SplitsRight [0, 0xe4, 0xb8, 0xad] := by
  intro h
  obtain ⟨ret, tokens, hrun, -, hwhole⟩ := h
  have hret : split2singleWord_ [0, 0xe4, 0xb8, 0xad] [] = some (0, [[0, 0xe4, 0xb8], [0xad]]) := by
    decide
  have hsame := Option.some.inj (hret.symm.trans (hrun []))
  obtain rfl : [[0, 0xe4, 0xb8], [0xad]] = tokens := (Prod.mk.inj hsame).2
  have htoken := hwhole [.one 0 (by decide), .three 0xe4 0xb8 0xad (by decide) (by decide)
    (by decide) (by decide) (by decide)] rfl [0, 0xe4, 0xb8] (by simp)
  exact absurd (wholeToken_zero.mp htoken 0xe4 (by simp)) (by decide)

end CommonTools.Classify.SingleWord
