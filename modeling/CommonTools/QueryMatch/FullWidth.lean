import CommonTools.Lib.CString

/-! # Half-width and full-width characters

`toQBS` writes every visible ASCII character as the two bytes of its full-width
form, `toDBS` goes the other way. Of a GB2312 text `toDBS` takes two bytes at a
time only behind a lead byte from 163 on: a symbol of the first two rows is taken
byte by byte, and then its second byte is read as a lead byte. -/
namespace CommonTools.QueryMatch
open CommonTools.Lib

/-! ## The functions -/

/-- The loop of `toDBS` at byte `i`, or behind it when the body has counted `i` on.
An `i` that reaches `2 ^ 32` starts over, and the loop does not end. -/
def toDBSLoop : Nat → Bool → Bytes → Option Bytes
  | i, skip, [] => if i + skip.toNat < 2 ^ 32 then some [] else none
  | i, true, _ :: rest => toDBSLoop (i + 1) false rest
  | i, false, tmp :: rest =>
    -- behind the last byte stands the terminator
    let tmp1 := rest.headD 0
    if tmp = 163 then (toDBSLoop (i + 1) true rest).map fun dstStr => (tmp1 - 128) :: dstStr
    else if tmp > 163 then (toDBSLoop (i + 1) true rest).map fun dstStr => tmp :: tmp1 :: dstStr
    else if tmp = 161 ∧ tmp1 = 161 then toDBSLoop (i + 1) true rest
    else (toDBSLoop (i + 1) false rest).map fun dstStr => tmp :: dstStr

def toDBS (oriStr : Bytes) : Option Bytes := toDBSLoop 0 false oriStr

/-- What `toQBS` writes for one byte; from 128 on a `char` is negative. -/
def toQBSByte (c : UInt8) : Bytes := if c ≤ 127 ∧ c > 32 then [163, c + 128] else [c]

def toQBS (oriStr : Bytes) : Option Bytes :=
  if oriStr.length < 2 ^ 32 then some (oriStr.flatMap toQBSByte) else none

/-! ## GB2312 -/

/-- A character of a well-formed text. -/
inductive GbChar where
  | ascii (c : UInt8) (h : c < 128)
  | double (lead trail : UInt8) (hlead : 161 ≤ lead) (htrail : 161 ≤ trail)

def GbChar.bytes : GbChar → Bytes
  | .ascii c _ => [c]
  | .double lead trail _ _ => [lead, trail]

/-- Neither a full-width ASCII character nor the full-width space. -/
def GbChar.HalfWidth : GbChar → Prop
  | .ascii _ _ => True
  | .double lead trail _ _ => lead ≠ 163 ∧ ¬ (lead = 161 ∧ trail = 161)

def gbText (s : List GbChar) : Bytes := s.flatMap GbChar.bytes

/-- `toDBS` stays in step with the characters, or comes back in step where a byte has
been read as the second of a pair that it is not: with `some stray` the second byte of a
character is read as a lead byte. -/
def inStep : Option UInt8 → List GbChar → Bool
  | none, [] => true
  | none, .ascii _ _ :: s => inStep none s
  | none, .double lead trail _ _ :: s => inStep (if lead > 163 then none else some trail) s
  | some stray, [] => decide (stray < 163)
  | some stray, .ascii c _ :: s =>
    stray != 163 && (decide (stray < 163) || decide (c ≤ 32)) && inStep none s
  | some stray, .double lead trail _ _ :: s =>
    stray != 163 && !(stray == 161 && lead == 161) &&
      inStep (if stray < 163 ∧ lead > 163 then none else some trail) s

/-! ## Full-width texts -/

/-- The text with full-width characters. -/
def fullText (s : List GbChar) : Bytes := (gbText s).flatMap toQBSByte

theorem toQBSByte_visible {c : UInt8} (h : c < 128) (hc : 32 < c) :
    toQBSByte c = [163, c + 128] := by
  refine if_pos ⟨?_, hc⟩
  rw [UInt8.lt_iff_toNat_lt] at h
  exact UInt8.le_iff_toNat_le.mpr (Nat.le_of_lt_succ h)

theorem toQBSByte_control {c : UInt8} (hc : c ≤ 32) : toQBSByte c = [c] := by
  refine if_neg fun h => ?_
  exact absurd (UInt8.lt_of_lt_of_le h.2 hc) (UInt8.lt_irrefl 32)

theorem toQBSByte_high {c : UInt8} (hc : 161 ≤ c) : toQBSByte c = [c] := by
  refine if_neg fun h => ?_
  exact absurd (UInt8.le_trans hc h.1) (by decide)

theorem fullText_ascii (c : UInt8) (h : c < 128) (s : List GbChar) :
    fullText (.ascii c h :: s) = toQBSByte c ++ fullText s := by
  unfold fullText gbText
  rw [List.flatMap_cons, List.flatMap_append]
  simp [GbChar.bytes]

theorem fullText_double {lead trail : UInt8} (hlead : 161 ≤ lead) (htrail : 161 ≤ trail)
    (s : List GbChar) :
    fullText (.double lead trail hlead htrail :: s) = lead :: trail :: fullText s := by
  unfold fullText gbText
  rw [List.flatMap_cons, List.flatMap_append]
  simp [GbChar.bytes, toQBSByte_high hlead, toQBSByte_high htrail]

theorem fullText_ascii_head (c : UInt8) (h : c < 128) (s : List GbChar) :
    (fullText (.ascii c h :: s)).headD 0 ≠ 161 := by
  rw [fullText_ascii]
  by_cases hvisible : 32 < c
  · rw [toQBSByte_visible h hvisible, List.cons_append, List.headD_cons]
    decide
  · rw [toQBSByte_control (UInt8.not_lt.mp hvisible), List.cons_append, List.headD_cons]
    rintro rfl
    exact absurd h (by decide)

/-- Behind a character there is a control byte, the end, or a byte from 161 on. -/
theorem fullText_head (s : List GbChar) :
    (fullText s).headD 0 ≤ 32 ∨ 161 ≤ (fullText s).headD 0 := by
  cases s with
  | nil => exact .inl (by decide)
  | cons c s =>
    cases c with
    | ascii c h =>
      rw [fullText_ascii]
      by_cases hc : c ≤ 32
      · rw [toQBSByte_control hc]
        exact .inl hc
      · rw [toQBSByte_visible h (UInt8.not_le.mp hc), List.cons_append, List.headD_cons]
        exact .inr (by decide)
    | double lead trail hlead htrail =>
      rw [fullText_double]
      exact .inr hlead

/-! ## The loop on them -/

section
variable {i : Nat} {tmp x : UInt8} {rest t : Bytes} {o : Option Bytes}

theorem map_cons_eq_some : (o.map fun l => x :: l) = some (x :: t) ↔ o = some t := by
  cases o with
  | none => simp
  | some l => simp

theorem toDBSLoop_full : toDBSLoop i false (163 :: rest) =
    (toDBSLoop (i + 1) true rest).map fun dstStr => (rest.headD 0 - 128) :: dstStr := rfl

theorem toDBSLoop_high (h : 163 < tmp) : toDBSLoop i false (tmp :: rest) =
    (toDBSLoop (i + 1) true rest).map fun dstStr => tmp :: rest.headD 0 :: dstStr := by
  rw [toDBSLoop, if_neg (UInt8.ne_of_lt h).symm, if_pos h]

theorem toDBSLoop_low (h : tmp < 163) (hspace : ¬ (tmp = 161 ∧ rest.headD 0 = 161)) :
    toDBSLoop i false (tmp :: rest) =
      (toDBSLoop (i + 1) false rest).map fun dstStr => tmp :: dstStr := by
  have hnot : ¬ tmp > 163 := fun hgt => UInt8.lt_irrefl tmp (UInt8.lt_trans h hgt)
  rw [toDBSLoop, if_neg (UInt8.ne_of_lt h), if_neg hnot, if_neg hspace]

theorem toDBSLoop_space : toDBSLoop i false (161 :: 161 :: rest) = toDBSLoop (i + 2) false rest :=
  rfl

theorem toDBSLoop_skip : toDBSLoop i true (x :: rest) = toDBSLoop (i + 1) false rest := rfl

/-- Nothing becomes a byte between 160 and 163 but the byte itself. -/
theorem sub_ne (hrest : x ≤ 32 ∨ 161 ≤ x) {c : UInt8} (hlo : 161 ≤ c) (hhi : c ≤ 163) :
    x - 128 ≠ c := by
  intro heq
  have hx : x = c + 128 := by rw [← heq, UInt8.sub_add_cancel]
  have hnat : x.toNat = (c.toNat + 128) % 256 := by rw [hx, UInt8.toNat_add]; rfl
  simp only [UInt8.le_iff_toNat_le] at hrest hlo hhi
  have h32 : (32 : UInt8).toNat = 32 := rfl
  have h161 : (161 : UInt8).toNat = 161 := rfl
  have h163 : (163 : UInt8).toNat = 163 := rfl
  omega

/-- What a byte that is not 161 is turned into is not 161. -/
theorem toDBSLoop_head (hne : tmp ≠ 161) (hrest : rest.headD 0 ≤ 32 ∨ 161 ≤ rest.headD 0) :
    toDBSLoop i false (tmp :: rest) ≠ some (161 :: t) := by
  intro h
  by_cases hfull : tmp = 163
  · rw [hfull, toDBSLoop_full] at h
    obtain ⟨l, -, hl⟩ := Option.map_eq_some_iff.mp h
    exact sub_ne hrest (by decide) (by decide) (List.cons.inj hl).1
  · by_cases hhigh : 163 < tmp
    · rw [toDBSLoop_high hhigh] at h
      obtain ⟨l, -, hl⟩ := Option.map_eq_some_iff.mp h
      exact hne (List.cons.inj hl).1
    · have hlow : tmp < 163 := UInt8.lt_of_le_of_ne (UInt8.not_lt.mp hhigh) hfull
      rw [toDBSLoop_low hlow fun h => hne h.1] at h
      obtain ⟨l, -, hl⟩ := Option.map_eq_some_iff.mp h
      exact hne (List.cons.inj hl).1

end

/-! ## There and back -/

theorem gbText_ascii (c : UInt8) (h : c < 128) (s : List GbChar) :
    gbText (.ascii c h :: s) = c :: gbText s := rfl

theorem gbText_double {lead trail : UInt8} (hlead : 161 ≤ lead) (htrail : 161 ≤ trail)
    (s : List GbChar) :
    gbText (.double lead trail hlead htrail :: s) = lead :: trail :: gbText s := rfl

/-- The loop is right from here on, and comes to the end of the text. -/
def Restores (i : Nat) (text s : Bytes) (step : Bool) : Prop :=
  toDBSLoop i false text = some s ↔ i + text.length < 2 ^ 32 ∧ step = true

section
variable {i : Nat} {c t lead trail : UInt8} {text s : Bytes} {step : Bool}

theorem Restores.nil : Restores i [] [] true := by
  unfold Restores
  show (if i + 0 < 2 ^ 32 then some [] else none) = some [] ↔ _
  simp

theorem Restores.copy (hlow : c < 163) (hspace : ¬ (c = 161 ∧ text.headD 0 = 161))
    (h : Restores (i + 1) text s step) : Restores i (c :: text) (c :: s) step := by
  unfold Restores at h ⊢
  rw [toDBSLoop_low hlow hspace, map_cons_eq_some, h, List.length_cons, Nat.add_assoc i 1,
    Nat.add_comm 1]

theorem Restores.pair (hhigh : 163 < c) (h : Restores (i + 2) text s step) :
    Restores i (c :: t :: text) (c :: t :: s) step := by
  unfold Restores at h ⊢
  rw [toDBSLoop_high hhigh, toDBSLoop_skip, List.headD_cons]
  have hmap := @map_cons_eq_some t s (toDBSLoop (i + 2) false text)
  rw [List.length_cons, List.length_cons, Nat.add_assoc text.length 1 1, Nat.add_comm text.length,
    ← Nat.add_assoc, ← h]
  cases toDBSLoop (i + 2) false text with
  | none => simp
  | some l => simp

theorem Restores.visible (h : Restores (i + 2) text s step) :
    Restores i (163 :: (c + 128) :: text) (c :: s) step := by
  unfold Restores at h ⊢
  rw [toDBSLoop_full, toDBSLoop_skip, List.headD_cons, UInt8.add_sub_cancel, map_cons_eq_some]
  rw [List.length_cons, List.length_cons, Nat.add_assoc text.length 1 1, Nat.add_comm text.length,
    ← Nat.add_assoc, ← h]

theorem Restores.wrong (h : toDBSLoop i false text ≠ some s) : Restores i text s false := by
  unfold Restores
  simp [h]

end

section
variable {i : Nat} {c : GbChar} {s : List GbChar} {t : UInt8}

/-- A byte read as the lead byte of a full-width character does not come back. -/
theorem restores_full (i : Nat) (s : List GbChar) :
    Restores i (163 :: fullText s) (163 :: gbText s) false := by
  refine .wrong fun h => ?_
  rw [toDBSLoop_full] at h
  obtain ⟨l, -, hl⟩ := Option.map_eq_some_iff.mp h
  exact sub_ne (fullText_head s) (by decide) (by decide) (List.cons.inj hl).1

theorem restores_end (i : Nat) (t : UInt8) : Restores i [t] [t] (decide (t < 163)) := by
  by_cases hlow : t < 163
  · rw [decide_eq_true hlow]
    exact Restores.nil.copy hlow fun h => absurd h.2 (by decide)
  · rw [decide_eq_false hlow]
    by_cases hfull : t = 163
    · rw [hfull]
      exact restores_full i []
    · have hhigh : 163 < t := UInt8.lt_of_le_of_ne (UInt8.not_lt.mp hlow) (Ne.symm hfull)
      refine .wrong fun h => ?_
      rw [toDBSLoop_high hhigh] at h
      obtain ⟨l, -, hl⟩ := Option.map_eq_some_iff.mp h
      cases (List.cons.inj hl).2

theorem restores_cons (hc : c.HalfWidth)
    (ih : ∀ {stray : Option UInt8} {i : Nat},
      Restores i (stray.toList ++ fullText s) (stray.toList ++ gbText s) (inStep stray s)) :
    Restores i (fullText (c :: s)) (gbText (c :: s)) (inStep none (c :: s)) := by
  cases c with
  | ascii c h =>
    have hnext : ∀ i, Restores i (fullText s) (gbText s) (inStep none s) := by
      intro i
      exact @ih none i
    rw [fullText_ascii, gbText_ascii, inStep]
    by_cases hvisible : 32 < c
    · rw [toQBSByte_visible h hvisible]
      exact (hnext (i + 2)).visible
    · have hcontrol := UInt8.not_lt.mp hvisible
      rw [toQBSByte_control hcontrol]
      refine (hnext (i + 1)).copy (UInt8.lt_of_le_of_lt hcontrol (by decide)) ?_
      rintro ⟨rfl, -⟩
      exact absurd hcontrol (by decide)
  | double lead trail hlead htrail =>
    rw [fullText_double, gbText_double, inStep]
    by_cases hhigh : 163 < lead
    · rw [if_pos hhigh]
      exact Restores.pair hhigh (@ih none (i + 2))
    · rw [if_neg hhigh]
      obtain ⟨hne, hspace⟩ := hc
      have hlow : lead < 163 := UInt8.lt_of_le_of_ne (UInt8.not_lt.mp hhigh) hne
      exact Restores.copy hlow hspace (@ih (some trail) (i + 1))

/-- One character behind a byte that is read as a lead byte. -/
theorem restores_stray_cons (hc : c.HalfWidth)
    (ih : ∀ {stray : Option UInt8} {i : Nat},
      Restores i (stray.toList ++ fullText s) (stray.toList ++ gbText s) (inStep stray s)) :
    Restores i (t :: fullText (c :: s)) (t :: gbText (c :: s)) (inStep (some t) (c :: s)) := by
  have hstep := @restores_cons (i + 1) c s hc ih
  by_cases hfull : t = 163
  · have hfalse : inStep (some t) (c :: s) = false := by
      subst hfull
      cases c <;> rfl
    rw [hfalse, hfull]
    exact restores_full i (c :: s)
  have hbne : (t != 163) = true := bne_iff_ne.mpr hfull
  cases c with
  | ascii c h =>
    rw [inStep, hbne, Bool.true_and]
    by_cases hlow : t < 163
    · rw [decide_eq_true hlow, Bool.true_or, Bool.true_and]
      exact hstep.copy hlow fun hspace => fullText_ascii_head c h s hspace.2
    · have hhigh : 163 < t := UInt8.lt_of_le_of_ne (UInt8.not_lt.mp hlow) (Ne.symm hfull)
      rw [decide_eq_false hlow, Bool.false_or, fullText_ascii, gbText_ascii]
      by_cases hcontrol : c ≤ 32
      · rw [toQBSByte_control hcontrol, decide_eq_true hcontrol, Bool.true_and]
        exact Restores.pair hhigh (@ih none (i + 2))
      · rw [toQBSByte_visible h (UInt8.not_le.mp hcontrol), decide_eq_false hcontrol,
          Bool.false_and]
        refine .wrong fun hwrong => ?_
        rw [List.cons_append, toDBSLoop_high hhigh] at hwrong
        obtain ⟨l, -, hl⟩ := Option.map_eq_some_iff.mp hwrong
        have hhead : 163 = c := (List.cons.inj (List.cons.inj hl).2).1
        rw [← hhead] at h
        exact absurd h (by decide)
  | double lead trail hlead htrail =>
    rw [inStep, hbne, Bool.true_and]
    by_cases hlow : t < 163
    · by_cases hspace : t = 161 ∧ lead = 161
      · -- the two are taken for a full-width space
        obtain ⟨rfl, rfl⟩ := hspace
        have hne : trail ≠ 161 := fun h => hc.2 ⟨rfl, h⟩
        rw [fullText_double, gbText_double]
        refine .wrong fun hwrong => ?_
        rw [toDBSLoop_space] at hwrong
        exact toDBSLoop_head hne (fullText_head s) hwrong
      · have hbeq : (t == 161 && lead == 161) = false := by
          rw [Bool.and_eq_false_iff, beq_eq_false_iff_ne, beq_eq_false_iff_ne]
          exact not_and_or.mp hspace
        rw [hbeq, Bool.not_false, Bool.true_and]
        simp only [hlow, true_and]
        rw [inStep] at hstep
        refine hstep.copy hlow ?_
        rw [fullText_double]
        exact hspace
    · have hhigh : 163 < t := UInt8.lt_of_le_of_ne (UInt8.not_lt.mp hlow) (Ne.symm hfull)
      have hbeq : (t == 161) = false := by
        rw [beq_eq_false_iff_ne]
        rintro rfl
        exact absurd hhigh (by decide)
      rw [hbeq, Bool.false_and, Bool.not_false, Bool.true_and, if_neg fun h => hlow h.1,
        fullText_double, gbText_double]
      exact Restores.pair hhigh (@ih (some trail) (i + 2))

end

/-- The loop stands in front of the text, or of a byte that belongs to the character
before it. -/
theorem toDBSLoop_fullText : ∀ {s : List GbChar} {stray : Option UInt8} {i : Nat},
    (∀ c ∈ s, c.HalfWidth) →
    Restores i (stray.toList ++ fullText s) (stray.toList ++ gbText s) (inStep stray s) := by
  intro s
  induction s with
  | nil =>
    intro stray i _
    cases stray with
    | none => exact .nil
    | some t => exact restores_end i t
  | cons c s ih =>
    intro stray i hs
    have hrest : ∀ d ∈ s, d.HalfWidth := fun d hd => hs d (List.mem_cons_of_mem c hd)
    have hc : c.HalfWidth := hs c List.mem_cons_self
    cases stray with
    | none => exact restores_cons hc (ih hrest)
    | some t => exact restores_stray_cons hc (ih hrest)

theorem length_le_flatMap_toQBSByte (s : Bytes) : s.length ≤ (s.flatMap toQBSByte).length := by
  induction s with
  | nil => exact Nat.le_refl 0
  | cons c s ih =>
    have hone : 1 ≤ (toQBSByte c).length := by
      unfold toQBSByte
      split
      · exact Nat.le_succ 1
      · exact Nat.le_refl 1
    rw [List.flatMap_cons, List.length_append, List.length_cons]
    omega

/-- **When half-width conversion undoes full-width conversion.** The text comes back exactly
when `toDBS` stays in step with its characters and the full-width text is not too long for
the index of the loops. -/
theorem toDBS_toQBS_iff (s : List GbChar) (hs : ∀ c ∈ s, c.HalfWidth) :
    (toQBS (gbText s)).bind toDBS = some (gbText s) ↔
      ((gbText s).flatMap toQBSByte).length < 2 ^ 32 ∧ inStep none s = true := by
  have hle := length_le_flatMap_toQBSByte (gbText s)
  have hloop := @toDBSLoop_fullText s none 0 hs
  unfold Restores at hloop
  rw [Nat.zero_add] at hloop
  unfold toQBS
  by_cases hlen : (gbText s).length < 2 ^ 32
  · rw [if_pos hlen, Option.bind_some]
    exact hloop
  · rw [if_neg hlen, Option.bind_none]
    constructor
    · intro h
      cases h
    · intro h
      exact absurd (Nat.lt_of_le_of_lt hle h.1) hlen

/-- Words, a symbol whose second byte is harmless, and a symbol that takes the lead byte of
the next character with it. -/
def mixedText : List GbChar :=
  [.ascii 65 (by decide), .double 161 162 (by decide) (by decide), .ascii 98 (by decide),
    .double 161 170 (by decide) (by decide), .double 176 162 (by decide) (by decide),
    .double 176 161 (by decide) (by decide)]

theorem toDBS_toQBS_mixed : (toQBS (gbText mixedText)).bind toDBS = some (gbText mixedText) := by
  refine (toDBS_toQBS_iff mixedText ?_).mpr ⟨by decide, by decide⟩
  intro c hc
  simp only [mixedText, List.mem_cons, List.not_mem_nil, or_false] at hc
  rcases hc with rfl | rfl | rfl | rfl | rfl | rfl
  all_goals simp [GbChar.HalfWidth]

/-- The full stop `。` is the byte pair 161, 163, and its second byte is taken for the lead
byte of a full-width character. -/
theorem toDBS_toQBS_fullStop : ∃ s : List GbChar, (∀ c ∈ s, c.HalfWidth) ∧
    (toQBS (gbText s)).bind toDBS ≠ some (gbText s) := by
  refine ⟨[.double 161 163 (by decide) (by decide)], ?_, by decide⟩
  intro c hc
  rw [List.mem_singleton.mp hc]
  exact ⟨by decide, by decide⟩

end CommonTools.QueryMatch
