import CommonTools.Lib.InPlace
import CommonTools.Lib.Words

/-! # Separators between the phrases of a keyword

`SBCSpace2PhrazeSep` copies the keyword, turns every separator of the copy into
`PhraseSepS` and writes the phrases back over the keyword. -/
namespace CommonTools.QueryMatch
open CommonTools.Lib

def MAXWORDLEN : Nat := 1024

def PhraseSepS : UInt16 := 0xa1a1

/-! ## Bytes of the buffer -/

/-- Byte `k` of a buffer of `gchar`s, the low byte of each first. -/
def byteAt (buff : Nat → UInt16) (k : Nat) : UInt8 :=
  if k % 2 = 0 then (buff (k / 2)).toUInt8 else (buff (k / 2) >>> 8).toUInt8

/-- `strlen((const char*)buff)`, if a zero byte stands in the buffer. -/
def strlenBuff (buff : Nat → UInt16) : Option Nat :=
  (List.range MAXWORDLEN).find? fun k => byteAt buff k == 0

/-- `memcmp(buff + p, literal, sizeof(gchar_t)) == 0`. -/
def memcmpGchar (buff : Nat → UInt16) (p : Nat) (fst snd : UInt8) : Bool :=
  byteAt buff (2 * p) == fst && byteAt buff (2 * p + 1) == snd

/-- The full-width space, `PhraseSepS`, the full-width comma and the full stop, as
the source file writes them. -/
def isSeparatorAt (buff : Nat → UInt16) (p : Nat) : Bool :=
  memcmpGchar buff p 0xa1 0xa1 || memcmpGchar buff p 0xa1 0xa1 || memcmpGchar buff p 0xa3 0xac ||
    memcmpGchar buff p 0xa1 0xa3

/-! ## The function -/

def markSeparators (length : Nat) (buff : Nat → UInt16) : Nat → UInt16 :=
  (List.range length).foldl
    (fun buff p => if isSeparatorAt buff p then Function.update buff p PhraseSepS else buff) buff

/-- The second loop with `left` rounds to go; `state` is 0, 1 or 2. -/
def writePhrases (buff : Nat → UInt16) :
    Nat → Nat → Spacing → Nat → (Nat → UInt16) → Nat → UInt16
  | 0, _, _, _, keyword => keyword
  | left + 1, i, .before, p, keyword =>
    if PhraseSepS ≠ buff i then
      writePhrases buff left (i + 1) .inside (p + 1) (Function.update keyword p (buff i))
    else writePhrases buff left (i + 1) .before p keyword
  | left + 1, i, .inside, p, keyword =>
    if PhraseSepS = buff i then writePhrases buff left (i + 1) .behind p keyword
    else if 0 = buff i then Function.update keyword p 0
    else writePhrases buff left (i + 1) .inside (p + 1) (Function.update keyword p (buff i))
  | left + 1, i, .behind, p, keyword =>
    if PhraseSepS = buff i then writePhrases buff left (i + 1) .behind p keyword
    else if 0 = buff i then Function.update keyword p 0
    else
      writePhrases buff left (i + 1) .inside (p + 2)
        (Function.update (Function.update keyword p PhraseSepS) (p + 1) (buff i))

/-- `SBCSpace2PhrazeSep`. Without a zero byte in the copy `strlen` reads behind it. -/
def sbcSpace2PhrazeSep (keyword : Nat → UInt16) : Option (Nat → UInt16) := do
  let bytes ← strlenBuff keyword
  let length := bytes / 2
  some (writePhrases (markSeparators length keyword) (length + 1) 0 .before 0 keyword)

/-! ## The characters -/

/-- The separators as characters. -/
def isSeparator (c : UInt16) : Bool := c == 0xa1a1 || c == 0xaca3 || c == 0xa3a1

theorem gchar_eq_iff (c : UInt16) (lo hi : UInt8) :
    (c.toUInt8 = lo ∧ (c >>> 8).toUInt8 = hi) ↔ c.toNat = 256 * hi.toNat + lo.toNat := by
  have hc := c.toNat_lt
  have hlo := lo.toNat_lt
  have hhi := hi.toNat_lt
  rw [← UInt8.toNat_inj, ← UInt8.toNat_inj, UInt16.toNat_toUInt8, UInt16.toNat_toUInt8,
    UInt16.toNat_shiftRight]
  have hshift : c.toNat >>> ((8 : UInt16).toNat % 16) = c.toNat / 256 :=
    Nat.shiftRight_eq_div_pow _ 8
  rw [hshift]
  omega

theorem byteAt_low (buff : Nat → UInt16) (p : Nat) : byteAt buff (2 * p) = (buff p).toUInt8 := by
  unfold byteAt
  rw [if_pos (Nat.mul_mod_right 2 p), Nat.mul_div_cancel_left p (by decide)]

theorem byteAt_high (buff : Nat → UInt16) (p : Nat) :
    byteAt buff (2 * p + 1) = (buff p >>> 8).toUInt8 := by
  have hdiv : (2 * p + 1) / 2 = p := by omega
  unfold byteAt
  rw [if_neg (by omega), hdiv]

/-- Two bytes are compared as one character. -/
theorem memcmpGchar_eq (buff : Nat → UInt16) (p : Nat) (fst snd : UInt8) {c : UInt16}
    (hc : c.toNat = 256 * snd.toNat + fst.toNat) : memcmpGchar buff p fst snd = (buff p == c) := by
  unfold memcmpGchar
  rw [byteAt_low, byteAt_high, Bool.eq_iff_iff, Bool.and_eq_true, beq_iff_eq, beq_iff_eq,
    beq_iff_eq, gchar_eq_iff, ← hc, UInt16.toNat_inj]

theorem isSeparatorAt_eq (buff : Nat → UInt16) (p : Nat) :
    isSeparatorAt buff p = isSeparator (buff p) := by
  unfold isSeparatorAt isSeparator
  rw [memcmpGchar_eq buff p 0xa1 0xa1 (c := 0xa1a1) rfl,
    memcmpGchar_eq buff p 0xa3 0xac (c := 0xaca3) rfl,
    memcmpGchar_eq buff p 0xa1 0xa3 (c := 0xa3a1) rfl, Bool.or_self]

def BothBytes (c : UInt16) : Prop := c.toUInt8 ≠ 0 ∧ (c >>> 8).toUInt8 ≠ 0

instance (c : UInt16) : Decidable (BothBytes c) :=
  inferInstanceAs (Decidable (c.toUInt8 ≠ 0 ∧ (c >>> 8).toUInt8 ≠ 0))

theorem BothBytes.ne_zero {c : UInt16} (h : BothBytes c) : c ≠ 0 := by
  rintro rfl
  exact h.1 rfl

section
variable {buff keyword : Nat → UInt16} {s : List UInt16}

theorem strlenBuff_eq (hs : ∀ c ∈ s, BothBytes c) (hbuff : Holds buff 0 (s ++ [0]))
    (hlen : 2 * s.length < MAXWORDLEN) : strlenBuff buff = some (2 * s.length) := by
  have hend : buff s.length = 0 := by
    have hdrop : Holds buff (0 + s.length) [0] := hbuff.drop
    rw [Nat.zero_add] at hdrop
    exact hdrop.head
  unfold strlenBuff
  refine List.find?_range_eq_some.mpr ⟨?_, List.mem_range.mpr hlen, ?_⟩
  · rw [byteAt_low, hend]
    rfl
  · intro k hk
    have hget : (s ++ [0])[k / 2]? = some s[k / 2] := by
      rw [List.getElem?_append_left (by omega)]
      exact List.getElem?_eq_getElem (by omega)
    have hat := hbuff (k / 2) _ hget
    rw [Nat.zero_add] at hat
    obtain ⟨hlow, hhigh⟩ := hs _ (List.getElem_mem (by omega : k / 2 < s.length))
    unfold byteAt
    rw [hat]
    by_cases heven : k % 2 = 0
    · rw [if_pos heven]
      simpa using hlow
    · rw [if_neg heven]
      simpa using hhigh

/-! ## The loops -/

theorem markSeparators_succ (length : Nat) (buff : Nat → UInt16) :
    markSeparators (length + 1) buff =
      if isSeparator (markSeparators length buff length) then
        Function.update (markSeparators length buff) length PhraseSepS
      else markSeparators length buff := by
  unfold markSeparators
  rw [List.range_succ, List.foldl_append, List.foldl_cons, List.foldl_nil, isSeparatorAt_eq]

theorem markSeparators_apply (length : Nat) (buff : Nat → UInt16) (i : Nat) :
    markSeparators length buff i =
      if i < length ∧ isSeparator (buff i) = true then PhraseSepS else buff i := by
  induction length generalizing i with
  | zero => rfl
  | succ length ih =>
    have hat : markSeparators length buff length = buff length := by
      rw [ih, if_neg fun h => Nat.lt_irrefl length h.1]
    rw [markSeparators_succ, hat]
    by_cases hi : i = length
    · subst hi
      cases hsep : isSeparator (buff i) with
      | true => rw [if_pos rfl, Function.update_self, if_pos ⟨Nat.lt_succ_self i, rfl⟩]
      | false => rw [if_neg Bool.false_ne_true, hat, if_neg fun h => Bool.false_ne_true h.2]
    · have hlt : i < length + 1 ↔ i < length := by omega
      cases isSeparator (buff length) with
      | true =>
        rw [if_pos rfl, Function.update_of_ne hi, ih]
        simp only [hlt]
      | false =>
        rw [if_neg Bool.false_ne_true, ih]
        simp only [hlt]

/-- A separator becomes `PhraseSepS`. -/
def marked (c : UInt16) : UInt16 := if isSeparator c then PhraseSepS else c

theorem markSeparators_holds (hbuff : Holds buff 0 (s ++ [0])) :
    Holds (markSeparators s.length buff) 0 (s.map marked ++ [0]) := by
  intro k c hk
  rw [Nat.zero_add, markSeparators_apply]
  by_cases hlt : k < s.length
  · rw [List.getElem?_append_left (by rwa [List.length_map]), List.getElem?_map] at hk
    obtain ⟨d, hd, rfl⟩ := Option.map_eq_some_iff.mp hk
    have hat := hbuff k d ((List.getElem?_append_left hlt).trans hd)
    rw [Nat.zero_add] at hat
    rw [hat, marked]
    simp only [hlt, true_and]
  · rw [List.getElem?_append_right (by rw [List.length_map]; exact Nat.le_of_not_lt hlt),
      List.length_map, ← List.getElem?_append_right (Nat.le_of_not_lt hlt)] at hk
    have hat := hbuff k c hk
    rw [Nat.zero_add] at hat
    rw [if_neg fun h => hlt h.1, hat]

theorem marked_eq (c : UInt16) : (PhraseSepS == marked c) = isSeparator c := by
  unfold marked
  cases hsep : isSeparator c with
  | true => rw [if_pos rfl, beq_self_eq_true]
  | false =>
    rw [if_neg Bool.false_ne_true, beq_eq_false_iff_ne]
    rintro rfl
    exact absurd hsep (by decide)

/-- What the second loop writes from its state on. -/
theorem writePhrases_holds : ∀ {s W : List UInt16} {i : Nat} {state : Spacing}
    {keyword : Nat → UInt16}, Holds buff i (s ++ [0]) → (∀ c ∈ s, c ≠ 0) → Holds keyword 0 W →
    (W.length + if state = .behind then 1 else 0) ≤ i →
    Holds (writePhrases buff (s.length + 1) i state W.length keyword) 0
        (W ++ respace PhraseSepS (PhraseSepS == ·) state s ++ [0]) ∧
      ∀ k, i + s.length < k →
        writePhrases buff (s.length + 1) i state W.length keyword k = keyword k := by
  intro s
  induction s with
  | nil =>
    intro W i state keyword hbuff _ hW hroom
    have hend : buff i = 0 := hbuff.head
    have hput := hW.put 0
    have hframe : ∀ k, i + 0 < k → Function.update keyword W.length 0 k = keyword k := by
      intro k hk
      refine Function.update_of_ne ?_ 0 keyword
      omega
    rw [respace, List.append_nil]
    cases state with
    | before =>
      rw [writePhrases, hend, if_pos (by decide)]
      exact ⟨hput, hframe⟩
    | inside =>
      rw [writePhrases, hend, if_neg (by decide), if_pos rfl]
      exact ⟨hput, hframe⟩
    | behind =>
      rw [writePhrases, hend, if_neg (by decide), if_pos rfl]
      exact ⟨hput, hframe⟩
  | cons c s ih =>
    intro W i state keyword hbuff hs hW hroom
    have hc : buff i = c := hbuff.head
    have hne : ¬ 0 = c := fun h => hs c List.mem_cons_self h.symm
    have hrest : ∀ d ∈ s, d ≠ 0 := fun d hd => hs d (List.mem_cons_of_mem c hd)
    -- a character that is read away
    have hpass : ∀ state, W.length + (if state = .behind then 1 else 0) ≤ i + 1 →
        Holds (writePhrases buff (s.length + 1) (i + 1) state W.length keyword) 0
            (W ++ respace PhraseSepS (PhraseSepS == ·) state s ++ [0]) ∧
          ∀ k, i + (s.length + 1) < k →
            writePhrases buff (s.length + 1) (i + 1) state W.length keyword k = keyword k := by
      intro state hle
      obtain ⟨hholds, hframe⟩ := @ih W (i + 1) state keyword hbuff.tail hrest hW hle
      exact ⟨hholds, fun k hk => hframe k (by omega)⟩
    -- one that is written
    have hput : ∀ {V : List UInt16} {m : Nat → UInt16}, Holds m 0 V → V.length ≤ i →
        Holds (writePhrases buff (s.length + 1) (i + 1) .inside (V.length + 1)
            (Function.update m V.length c)) 0
            (V ++ c :: respace PhraseSepS (PhraseSepS == ·) .inside s ++ [0]) ∧
          ∀ k, i + (s.length + 1) < k →
            writePhrases buff (s.length + 1) (i + 1) .inside (V.length + 1)
              (Function.update m V.length c) k = m k := by
      intro V m hV hle
      have hlen : (V ++ [c]).length = V.length + 1 := List.length_append
      obtain ⟨hholds, hframe⟩ := @ih (V ++ [c]) (i + 1) .inside _ hbuff.tail hrest (hV.put c)
        (by rw [hlen]; exact Nat.succ_le_succ hle)
      rw [hlen] at hholds hframe
      rw [List.append_assoc V, List.singleton_append] at hholds
      refine ⟨hholds, fun k hk => ?_⟩
      rw [hframe k (by omega), Function.update_of_ne (by omega)]
    by_cases hsep : PhraseSepS = c
    · have hbeq : (PhraseSepS == c) = true := beq_iff_eq.mpr hsep
      cases state with
      | before =>
        rw [writePhrases, hc, if_neg (not_not.mpr hsep), respace, hbeq, if_pos rfl]
        exact hpass .before (Nat.le_succ_of_le hroom)
      | inside =>
        rw [writePhrases, hc, if_pos hsep, respace, hbeq, if_pos rfl]
        exact hpass .behind (Nat.succ_le_succ hroom)
      | behind =>
        rw [writePhrases, hc, if_pos hsep, respace, hbeq, if_pos rfl]
        exact hpass .behind (Nat.le_succ_of_le hroom)
    · have hbeq : (PhraseSepS == c) = false := beq_eq_false_iff_ne.mpr hsep
      cases state with
      | before =>
        rw [writePhrases, hc, if_pos hsep, respace, hbeq, if_neg Bool.false_ne_true]
        exact hput hW hroom
      | inside =>
        rw [writePhrases, hc, if_neg hsep, if_neg hne, respace, hbeq, if_neg Bool.false_ne_true]
        exact hput hW hroom
      | behind =>
        have hlen : (W ++ [PhraseSepS]).length = W.length + 1 := List.length_append
        obtain ⟨hholds, hframe⟩ := hput (hW.put PhraseSepS) (by rw [hlen]; exact hroom)
        rw [hlen] at hholds hframe
        rw [List.append_assoc W, List.singleton_append] at hholds
        rw [writePhrases, hc, if_neg hsep, if_neg hne, respace, hbeq, if_neg Bool.false_ne_true]
        refine ⟨hholds, fun k hk => ?_⟩
        replace hroom : W.length + 1 ≤ i := hroom
        refine (hframe k hk).trans (Function.update_of_ne ?_ _ _)
        rw [List.length_cons] at hk
        omega

end

/-! ## The function -/

theorem sbcSpace2PhrazeSep_holds {keyword : Nat → UInt16} {s : List UInt16}
    (hs : ∀ c ∈ s, BothBytes c) (hlen : 2 * s.length < MAXWORDLEN)
    (hkeyword : Holds keyword 0 (s ++ [0])) :
    ∃ keyword', sbcSpace2PhrazeSep keyword = some keyword' ∧
      Holds keyword' 0 (spaced PhraseSepS isSeparator s ++ [0]) ∧
      ∀ k, s.length < k → keyword' k = keyword k := by
  have hmarked : ∀ c ∈ s.map marked, c ≠ 0 := by
    intro c hc
    obtain ⟨d, hd, rfl⟩ := List.mem_map.mp hc
    unfold marked
    split
    · decide
    · exact (hs d hd).ne_zero
  have hstart : Holds keyword 0 ([] : List UInt16) := Holds.nil keyword 0
  obtain ⟨hholds, hframe⟩ := @writePhrases_holds _ (s.map marked) [] 0 .before keyword
    (markSeparators_holds hkeyword) hmarked hstart (Nat.le_refl 0)
  rw [List.length_map] at hholds hframe
  rw [List.nil_append, respace_map marked_eq (fun c hc => if_neg (by rw [hc]; decide)),
    respace_before] at hholds
  refine ⟨_, ?_, hholds, fun k hk => hframe k (by rwa [Nat.zero_add])⟩
  unfold sbcSpace2PhrazeSep
  rw [strlenBuff_eq hs hkeyword hlen, Option.bind_eq_bind, Option.bind_some]
  dsimp only
  rw [Nat.mul_div_cancel_left s.length (by decide)]
  rfl

/-- **The function puts one separator between the phrases.** It leaves the phrases with
one `PhraseSepS` in between and a terminator behind them, and a second call changes
nothing. -/
theorem sbcSpace2PhrazeSep_spaced (keyword : Nat → UInt16) (s : List UInt16)
    (hs : ∀ c ∈ s, BothBytes c) (hlen : s.length < 512) (hkeyword : Holds keyword 0 (s ++ [0])) :
    ∃ keyword', sbcSpace2PhrazeSep keyword = some keyword' ∧
      Holds keyword' 0 (spaced PhraseSepS isSeparator s ++ [0]) ∧
      (∀ k, s.length < k → keyword' k = keyword k) ∧
      sbcSpace2PhrazeSep keyword' = some keyword' := by
  have hshort : (spaced PhraseSepS isSeparator s).length ≤ s.length := by
    rw [← respace_before]
    exact respace_length_le .before s
  have hspaced : ∀ c ∈ spaced PhraseSepS isSeparator s, BothBytes c := by
    intro c hc
    rcases mem_spaced hc with rfl | hc
    · decide
    · exact hs c hc
  obtain ⟨keyword', hrun, hholds, hframe⟩ :=
    sbcSpace2PhrazeSep_holds hs (by unfold MAXWORDLEN; omega) hkeyword
  obtain ⟨keyword'', hagain, hholds', hframe'⟩ :=
    sbcSpace2PhrazeSep_holds hspaced (by unfold MAXWORDLEN; omega) hholds
  rw [spaced_spaced (by decide)] at hholds'
  refine ⟨keyword', hrun, hholds, hframe, ?_⟩
  rw [hagain, hholds.unique hholds' fun k hk => hframe' k ?_]
  rw [List.length_append, List.length_singleton] at hk
  exact hk

/-- A comma and a space in front of a word, a full stop and a comma behind it. -/
theorem sbcSpace2PhrazeSep_around : ∃ keyword',
    sbcSpace2PhrazeSep (fun i =>
      ([0xaca3, 0xa1a1, 0xb0b0, 0xa3a1, 0xaca3, 0xb1b1, 0xa3a1, 0] : List UInt16)[i]?.getD 0) =
        some keyword' ∧
      Holds keyword' 0 [0xb0b0, 0xa1a1, 0xb1b1, 0] := by
  have hall : ([0xaca3, 0xa1a1, 0xb0b0, 0xa3a1, 0xaca3, 0xb1b1, 0xa3a1] : List UInt16).all
      (fun c => decide (BothBytes c)) = true := by decide
  obtain ⟨keyword', hrun, hholds, -⟩ := sbcSpace2PhrazeSep_spaced (fun i =>
      ([0xaca3, 0xa1a1, 0xb0b0, 0xa3a1, 0xaca3, 0xb1b1, 0xa3a1, 0] : List UInt16)[i]?.getD 0)
    [0xaca3, 0xa1a1, 0xb0b0, 0xa3a1, 0xaca3, 0xb1b1, 0xa3a1]
    (fun c hc => of_decide_eq_true (List.all_eq_true.mp hall c hc)) (by decide) (by
      intro k c h
      rw [Nat.zero_add]
      exact congrArg (Option.getD · 0) h)
  exact ⟨keyword', hrun, hholds⟩

end CommonTools.QueryMatch
