import CommonTools.Http.Message
import CommonTools.Lib.PartialList

/-! # Cutting off silence

`postProcessingFloatSequence` moves two positions towards each other over samples that are
zero. The one at the end starts behind the last sample, at the number of samples as an
`int32_t`. -/
namespace CommonTools.Speech
open CommonTools.Lib CommonTools.Http

/-! ## `readWav.cpp` -/

/-- What the function hands back by reference. -/
structure Sequence (α : Type) where
  begin : Int
  end_ : Int
  size : Int
  float_new : List α

section
variable {α : Type} [Zero α] [DecidableEq α]

/-- The loop, with fuel for its rounds; `none` when it reads outside of the vector. -/
def silenceLoop (float1 : List α) : Nat → Int → Int → Option (Int × Int)
  | 0, begin, end_ => if begin < end_ then none else some (begin, end_)
  | fuel + 1, begin, end_ =>
    if begin < end_ then do
      let begin := if (← at? float1 begin) = 0 then begin + 1 else begin
      let end_ := if (← at? float1 end_) = 0 then end_ - 1 else end_
      if (← at? float1 begin) = 0 then silenceLoop float1 fuel begin end_
      else if (← at? float1 end_) = 0 then silenceLoop float1 fuel begin end_
      else some (begin, end_)
    else some (begin, end_)

/-- `postProcessingFloatSequence`: the return value and what the references hold. -/
def postProcessingFloatSequence (float1 : List α) (out : Sequence α) :
    Option (Int × Sequence α) :=
  if float1.length = 0 then some (-1, out)
  else do
    let end_ := toInt32 float1.length
    let (begin, end_) ← silenceLoop float1 end_.toNat 0 end_
    if end_ = begin then some (-1, { out with begin, end_ })
    else do
      let float_new ← (List.range (end_ + 1 - begin).toNat).mapM fun i : Nat => at? float1 (begin + i)
      some (0, ⟨begin, end_, end_ + 1 - begin, float_new⟩)

end

/-! ## What it should do -/

section
variable {α : Type} [Zero α]

def Silent (float1 : List α) : Prop := ∀ x ∈ float1, x = 0

structure FirstSound (float1 : List α) (i : Nat) : Prop where
  sound : ∃ x, float1[i]? = some x ∧ x ≠ 0
  before : ∀ j < i, float1[j]? = some 0

structure LastSound (float1 : List α) (i : Nat) : Prop where
  sound : ∃ x, float1[i]? = some x ∧ x ≠ 0
  behind : ∀ j, i < j → j < float1.length → float1[j]? = some 0

/-- The references hold the part from the first to the last sound. -/
structure Cut (float1 : List α) (out : Sequence α) : Prop where
  first : ∃ b : Nat, out.begin = b ∧ FirstSound float1 b
  last : ∃ e : Nat, out.end_ = e ∧ LastSound float1 e
  size : out.size = out.end_ - out.begin + 1
  slice : out.float_new = (float1.drop out.begin.toNat).take out.size.toNat

/-- Nothing outside is read, silence is reported, and everything else is cut. -/
def CutsSilence [DecidableEq α] (float1 : List α) : Prop :=
  ∀ out, ∃ ret cut, postProcessingFloatSequence float1 out = some (ret, cut) ∧
    (ret = -1 ↔ Silent float1) ∧ (¬ Silent float1 → ret = 0 ∧ Cut float1 cut)

/-- The number of samples is stored as an `m` inside of the vector, which takes `2 ^ 32`
samples or more. All samples are zero and `m` is even, or at least two are not and none of
these is behind `m`. -/
def WrapsInside (float1 : List α) : Prop :=
  ∃ m : Nat, toInt32 float1.length = m ∧ m < float1.length ∧
    (Silent float1 ∧ m % 2 = 0 ∨ ∃ b e, b < e ∧ e ≤ m ∧ FirstSound float1 b ∧ LastSound float1 e)

end

/-! ## The loop -/

section
variable {α : Type} [Zero α] {float1 : List α} {begin end_ b e : Int}

/-- What the loop leaves of the positions from `begin` to `end_`. -/
structure Closed (float1 : List α) (begin end_ b e : Int) : Prop where
  inside : begin ≤ b ∧ e ≤ end_ ∧ b ≤ e + 1
  left : ∀ i, begin ≤ i → i < b → at? float1 i = some 0
  right : ∀ i, e < i → i ≤ end_ → at? float1 i = some 0
  stopped : b < e → ∃ x y, at? float1 b = some x ∧ x ≠ 0 ∧ at? float1 e = some y ∧ y ≠ 0
  even : (∀ i, begin ≤ i → i ≤ end_ → at? float1 i = some 0) → b + e = begin + end_

theorem Closed.refl (h : begin ≤ end_ + 1) (hstop : begin < end_ →
    ∃ x y, at? float1 begin = some x ∧ x ≠ 0 ∧ at? float1 end_ = some y ∧ y ≠ 0) :
    Closed float1 begin end_ begin end_ where
  inside := ⟨Int.le_refl _, Int.le_refl _, h⟩
  left _ hlo hhi := absurd hlo (Int.not_le.mpr hhi)
  right _ hlo hhi := absurd hhi (Int.not_le.mpr hlo)
  stopped := hstop
  even _ := rfl

/-- A round moves each of the two positions over a zero or not at all. -/
structure Moved (float1 : List α) (begin end_ b e : Int) : Prop where
  left : (b = begin + 1 ∧ at? float1 begin = some 0) ∨ (b = begin ∧ at? float1 begin ≠ some 0)
  right : (e = end_ - 1 ∧ at? float1 end_ = some 0) ∨ (e = end_ ∧ at? float1 end_ ≠ some 0)

theorem Moved.trans {b' e' : Int} (hlt : begin < end_) (h : Moved float1 begin end_ b e)
    (hrest : Closed float1 b e b' e') : Closed float1 begin end_ b' e' := by
  obtain ⟨hb, he, hmeet⟩ := hrest.inside
  refine ⟨⟨?_, ?_, hmeet⟩, fun i hlo hhi => ?_, fun i hlo hhi => ?_, hrest.stopped, fun hall => ?_⟩
  · rcases h.left with ⟨rfl, -⟩ | ⟨rfl, -⟩ <;> omega
  · rcases h.right with ⟨rfl, -⟩ | ⟨rfl, -⟩ <;> omega
  · by_cases hin : b ≤ i
    · exact hrest.left i hin hhi
    · rcases h.left with ⟨rfl, hzero⟩ | ⟨rfl, -⟩
      · have heq : i = begin := by omega
        rw [heq, hzero]
      · exact absurd hlo hin
  · by_cases hin : i ≤ e
    · exact hrest.right i hlo hin
    · rcases h.right with ⟨rfl, hzero⟩ | ⟨rfl, -⟩
      · have heq : i = end_ := by omega
        rw [heq, hzero]
      · exact absurd hhi hin
  · have hfirst := hall begin (Int.le_refl _) (Int.le_of_lt hlt)
    have hlast := hall end_ (Int.le_of_lt hlt) (Int.le_refl _)
    rcases h.left with ⟨rfl, -⟩ | ⟨-, hno⟩
    · rcases h.right with ⟨rfl, -⟩ | ⟨-, hno⟩
      · rw [hrest.even fun i hlo hhi => hall i (by omega) (by omega)]
        omega
      · exact absurd hlast hno
    · exact absurd hfirst hno

end

section
variable {α : Type} [Zero α] [DecidableEq α] {float1 : List α} {begin end_ b e : Int}

/-- With both positions inside, a round reads only inside. It moves a position or is the
last. -/
theorem silenceLoop_round (fuel : Nat) (h0 : 0 ≤ begin) (hend : end_ < float1.length)
    (hlt : begin < end_) :
    ∃ b e, Moved float1 begin end_ b e ∧
      (silenceLoop float1 (fuel + 1) begin end_ = silenceLoop float1 fuel b e ∧
          (begin < b ∨ e < end_) ∨
        silenceLoop float1 (fuel + 1) begin end_ = some (b, e) ∧
          ∃ x y, at? float1 b = some x ∧ x ≠ 0 ∧ at? float1 e = some y ∧ y ≠ 0) := by
  have hread : ∀ i : Int, 0 ≤ i → i < float1.length → ∃ x, at? float1 i = some x := fun i hi hi' =>
    Option.isSome_iff_exists.mp (at?_isSome.mpr ⟨hi, hi'⟩)
  obtain ⟨first, hfirst⟩ := hread begin h0 (by omega)
  obtain ⟨last, hlast⟩ := hread end_ (by omega) hend
  obtain ⟨b, hb⟩ : ∃ b, (if first = 0 then begin + 1 else begin) = b := ⟨_, rfl⟩
  obtain ⟨e, he⟩ : ∃ e, (if last = 0 then end_ - 1 else end_) = e := ⟨_, rfl⟩
  have hmoved : Moved float1 begin end_ b e := by
    constructor
    · by_cases hz : first = 0
      · exact .inl ⟨by rw [← hb, if_pos hz], by rw [hfirst, hz]⟩
      · exact .inr ⟨by rw [← hb, if_neg hz], by simp [hfirst, hz]⟩
    · by_cases hz : last = 0
      · exact .inl ⟨by rw [← he, if_pos hz], by rw [hlast, hz]⟩
      · exact .inr ⟨by rw [← he, if_neg hz], by simp [hlast, hz]⟩
  have hbin : 0 ≤ b ∧ b < float1.length := by
    rcases hmoved.left with ⟨rfl, -⟩ | ⟨rfl, -⟩ <;> omega
  have hein : 0 ≤ e ∧ e < float1.length := by
    rcases hmoved.right with ⟨rfl, -⟩ | ⟨rfl, -⟩ <;> omega
  obtain ⟨x, hx⟩ := hread b hbin.1 hbin.2
  obtain ⟨y, hy⟩ := hread e hein.1 hein.2
  refine ⟨b, e, hmoved, ?_⟩
  simp only [silenceLoop, if_pos hlt, hfirst, hlast, Option.bind_eq_bind, Option.bind_some, hb, he,
    hx, hy]
  by_cases hxz : x = 0
  · refine .inl ⟨if_pos hxz, .inl ?_⟩
    rcases hmoved.left with ⟨rfl, -⟩ | ⟨rfl, hno⟩
    · omega
    · exact absurd (by rw [hx, hxz]) hno
  · by_cases hyz : y = 0
    · refine .inl ⟨by rw [if_neg hxz, if_pos hyz], .inr ?_⟩
      rcases hmoved.right with ⟨rfl, -⟩ | ⟨rfl, hno⟩
      · omega
      · exact absurd (by rw [hy, hyz]) hno
    · exact .inr ⟨by rw [if_neg hxz, if_neg hyz], x, y, rfl, hxz, rfl, hyz⟩

theorem silenceLoop_met (fuel : Nat) (h : ¬ begin < end_) :
    silenceLoop float1 fuel begin end_ = some (begin, end_) := by
  cases fuel <;> simp [silenceLoop, h]

theorem silenceLoop_closed : ∀ (fuel : Nat) (begin end_ : Int), 0 ≤ begin →
    end_ < float1.length → begin ≤ end_ + 1 → end_ ≤ begin + fuel →
    ∃ b e, silenceLoop float1 fuel begin end_ = some (b, e) ∧ Closed float1 begin end_ b e := by
  intro fuel
  induction fuel with
  | zero =>
    intro begin end_ _ _ hle hfuel
    have hmet : ¬ begin < end_ := by omega
    exact ⟨begin, end_, silenceLoop_met 0 hmet, .refl hle fun hlt => absurd hlt hmet⟩
  | succ fuel ih =>
    intro begin end_ h0 hend hle hfuel
    by_cases hlt : begin < end_
    · obtain ⟨b, e, hmoved, hround⟩ := silenceLoop_round fuel h0 hend hlt
      have hb : begin ≤ b ∧ b ≤ begin + 1 := by
        rcases hmoved.left with ⟨rfl, -⟩ | ⟨rfl, -⟩ <;> omega
      have he : end_ - 1 ≤ e ∧ e ≤ end_ := by
        rcases hmoved.right with ⟨rfl, -⟩ | ⟨rfl, -⟩ <;> omega
      have hin : b ≤ e + 1 := by omega
      rcases hround with ⟨hround, hmore⟩ | ⟨hround, hstop⟩
      · obtain ⟨b', e', hloop, hclosed⟩ := ih b e (by omega) (by omega) hin (by omega)
        exact ⟨b', e', hround.trans hloop, hmoved.trans hlt hclosed⟩
      · exact ⟨b, e, hround, hmoved.trans hlt (.refl hin fun _ => hstop)⟩
    · exact ⟨begin, end_, silenceLoop_met _ hlt, .refl hle fun h => absurd h hlt⟩

/-- With an end inside of the vector the function returns. -/
theorem postProcessingFloatSequence_inside {m : Nat} (hm : toInt32 float1.length = m)
    (hin : m < float1.length) (out : Sequence α) :
    ∃ (b : Nat) (e : Int), Closed float1 0 m b e ∧
      postProcessingFloatSequence float1 out =
        if e = b then some (-1, { out with begin := b, end_ := e })
        else some (0, ⟨b, e, e + 1 - b, (float1.drop b).take (e + 1 - b).toNat⟩) := by
  have hends : ∃ b e, silenceLoop float1 m 0 m = some (b, e) ∧ Closed float1 0 m b e :=
    silenceLoop_closed m 0 m (Int.le_refl 0) (by omega) (by omega) (by omega)
  obtain ⟨b, e, hloop, hclosed⟩ := hends
  obtain ⟨hb, he, hmeet⟩ := hclosed.inside
  obtain ⟨b, rfl⟩ := Int.eq_ofNat_of_zero_le hb
  have hne : float1.length ≠ 0 := by omega
  have hread : (List.range (e + 1 - b).toNat).mapM (fun i : Nat => at? float1 (b + i)) =
      some ((float1.drop b).take (e + 1 - b).toNat) := mapM_at?_slice (by omega)
  refine ⟨b, e, hclosed, ?_⟩
  simp only [postProcessingFloatSequence, if_neg hne, hm, Int.toNat_natCast, hloop, hread,
    Option.bind_eq_bind, Option.bind_some]

/-- The first round reads behind the last sample. -/
theorem postProcessingFloatSequence_outside (hne : float1 ≠ [])
    (hm : toInt32 float1.length = float1.length) (out : Sequence α) :
    postProcessingFloatSequence float1 out = none := by
  obtain ⟨first, rest, rfl⟩ := List.exists_cons_of_ne_nil hne
  have hlt : (0 : Int) < ((first :: rest).length : Nat) := by simp
  have hlast : at? (first :: rest) ((first :: rest).length : Nat) = none :=
    (at?_natCast _ _).trans (List.getElem?_eq_none (Nat.le_refl _))
  have hfirst : at? (first :: rest) 0 = some first := at?_natCast _ 0
  simp only [postProcessingFloatSequence, hm]
  rw [if_neg (by simp), Int.toNat_natCast, List.length_cons, silenceLoop, ← List.length_cons,
    if_pos hlt, hfirst, hlast]
  rfl

theorem postProcessingFloatSequence_negative (hne : float1 ≠ []) (hm : toInt32 float1.length < 0)
    (out : Sequence α) :
    ∃ cut, postProcessingFloatSequence float1 out = some (0, cut) ∧ cut.end_ < 0 := by
  have hlen : float1.length ≠ 0 := mt List.eq_nil_iff_length_eq_zero.mpr hne
  obtain ⟨m, hwrap⟩ : ∃ m, toInt32 float1.length = m := ⟨_, rfl⟩
  rw [hwrap] at hm
  have hcount : (m + 1 - 0).toNat = 0 := by omega
  have hloop : silenceLoop float1 m.toNat 0 m = some (0, m) :=
    silenceLoop_met m.toNat (Int.not_lt.mpr (Int.le_of_lt hm))
  refine ⟨⟨0, m, m + 1 - 0, []⟩, ?_, hm⟩
  rw [postProcessingFloatSequence, if_neg hlen, hwrap]
  simp only [hloop, Option.bind_eq_bind, Option.bind_some, if_neg (Int.ne_of_lt hm), hcount,
    List.range_zero, List.mapM_nil, Option.pure_def]

end

/-! ## When it cuts right -/

section
variable {α : Type} [Zero α] {float1 : List α} {b e : Int}

theorem silent_iff : Silent float1 ↔ ∀ i < float1.length, float1[i]? = some 0 := by
  simp only [Silent, List.forall_mem_iff_getElem]
  constructor
  · intro h i hi
    rw [List.getElem?_eq_getElem hi, h i hi]
  · intro h i hi
    exact Option.some.inj ((List.getElem?_eq_getElem hi).symm.trans (h i hi))

theorem FirstSound.not_silent {i : Nat} (h : FirstSound float1 i) : ¬ Silent float1 := by
  obtain ⟨x, hx, hne⟩ := h.sound
  exact fun hall => hne (hall x (List.mem_of_getElem? hx))

/-- Two positions between which all sounds stand are the first and the last of them. -/
theorem Closed.eq_sounds {m b' e' : Nat} (h : Closed float1 0 m b e) (hlt : b' < e') (hle : e' ≤ m)
    (hfirst : FirstSound float1 b') (hlast : LastSound float1 e') : b = b' ∧ e = e' := by
  obtain ⟨x, hx, hxne⟩ := hfirst.sound
  obtain ⟨y, hy, hyne⟩ := hlast.sound
  have hb : b ≤ b' := by
    by_contra hno
    have hzero := h.left b' (by omega) (by omega)
    rw [at?_natCast, hx, Option.some.injEq] at hzero
    exact hxne hzero
  have he : e' ≤ e := by
    by_contra hno
    have hzero := h.right e' (by omega) (by omega)
    rw [at?_natCast, hy, Option.some.injEq] at hzero
    exact hyne hzero
  obtain ⟨x', y', hx', hxne', hy', hyne'⟩ := h.stopped (by omega)
  obtain ⟨k, rfl, hk⟩ := at?_eq_some.mp hx'
  obtain ⟨l, rfl, hl⟩ := at?_eq_some.mp hy'
  refine ⟨?_, ?_⟩
  · by_contra hno
    have hzero := hfirst.before k (by omega)
    rw [hk, Option.some.injEq] at hzero
    exact hxne' hzero
  · by_contra hno
    have hzero := hlast.behind l (by omega) (List.getElem?_eq_some_iff.mp hl).1
    rw [hl, Option.some.injEq] at hzero
    exact hyne' hzero

/-- Silence is closed from both ends at the same pace. -/
theorem Closed.of_silent {m : Nat} (h : Closed float1 0 m b e) (hm : m < float1.length)
    (hsilent : Silent float1) : b + e = m ∧ e ≤ b := by
  have hall : ∀ i : Int, 0 ≤ i → i ≤ m → at? float1 i = some 0 := by
    intro i hlo hhi
    obtain ⟨k, rfl⟩ := Int.eq_ofNat_of_zero_le hlo
    rw [at?_natCast]
    exact silent_iff.mp hsilent k (by omega)
  refine ⟨by simpa using h.even hall, ?_⟩
  by_contra hlt
  obtain ⟨x, -, hx, hne, -⟩ := h.stopped (by omega)
  obtain ⟨hlo, hhi, -⟩ := h.inside
  rw [hall b hlo (by omega), Option.some.injEq] at hx
  exact hne hx.symm

theorem FirstSound.lt_last {b e : Nat} (hfirst : FirstSound float1 b) (hlast : LastSound float1 e)
    (hne : e ≠ b) : b < e := by
  by_contra hno
  obtain ⟨y, hy, hyne⟩ := hlast.sound
  have hzero := hfirst.before e (by omega)
  rw [hy, Option.some.injEq] at hzero
  exact hyne hzero

end

/-- **Silence is cut off exactly when the number of samples wraps to a place behind the last
sound.** -/
theorem postProcessingFloatSequence_cuts_iff {α : Type} [Zero α] [DecidableEq α]
    {float1 : List α} (hne : float1 ≠ []) : CutsSilence float1 ↔ WrapsInside float1 := by
  constructor
  · intro h
    obtain ⟨ret, cut, hpost, hret, hcut⟩ := h ⟨0, 0, 0, []⟩
    rcases Int.lt_or_le (toInt32 float1.length) 0 with hneg | hpos
    · obtain ⟨cut', hpost', hend⟩ := postProcessingFloatSequence_negative hne hneg ⟨0, 0, 0, []⟩
      rw [hpost] at hpost'
      obtain ⟨rfl, rfl⟩ := Prod.mk.inj (Option.some.inj hpost')
      have hloud : ¬ Silent float1 := fun hsilent => by simpa using hret.mpr hsilent
      obtain ⟨e, he, -⟩ := (hcut hloud).2.last
      omega
    · obtain ⟨m, hm⟩ := Int.eq_ofNat_of_zero_le hpos
      have hle : m ≤ float1.length := toInt32_natCast_le hm
      rcases Nat.lt_or_eq_of_le hle with hin | heq
      · refine ⟨m, hm, hin, ?_⟩
        obtain ⟨b, e, hclosed, hpost'⟩ := postProcessingFloatSequence_inside hm hin ⟨0, 0, 0, []⟩
        rw [hpost] at hpost'
        by_cases hmet : e = b
        · rw [if_pos hmet] at hpost'
          obtain ⟨rfl, rfl⟩ := Prod.mk.inj (Option.some.inj hpost')
          have hsilent := hret.mp rfl
          have hsum := (hclosed.of_silent hin hsilent).1
          exact .inl ⟨hsilent, by omega⟩
        · rw [if_neg hmet] at hpost'
          obtain ⟨rfl, rfl⟩ := Prod.mk.inj (Option.some.inj hpost')
          have hloud : ¬ Silent float1 := fun hsilent => by simpa using hret.mpr hsilent
          obtain ⟨-, ⟨b', hb, hfirst⟩, ⟨e', rfl, hlast⟩, -, -⟩ := hcut hloud
          obtain rfl := Int.ofNat.inj hb
          have hlt := hfirst.lt_last hlast fun h => hmet (congrArg Nat.cast h)
          have hlast_in := hclosed.inside.2.1
          exact .inr ⟨b, e', hlt, by omega, hfirst, hlast⟩
      · rw [heq] at hm
        rw [postProcessingFloatSequence_outside hne hm] at hpost
        cases hpost
  · intro h
    obtain ⟨m, hm, hin, hcase⟩ := h
    intro out
    obtain ⟨b, e, hclosed, hpost⟩ := postProcessingFloatSequence_inside hm hin out
    rcases hcase with ⟨hsilent, heven⟩ | ⟨b', e', hlt, hle, hfirst, hlast⟩
    · obtain ⟨hsum, hle⟩ := hclosed.of_silent hin hsilent
      have hmet : e = b := by
        have hstep := hclosed.inside.2.2
        omega
      rw [if_pos hmet] at hpost
      exact ⟨-1, _, hpost, by simp [hsilent], fun hloud => absurd hsilent hloud⟩
    · obtain ⟨hb, rfl⟩ := hclosed.eq_sounds hlt hle hfirst hlast
      obtain rfl := Int.ofNat.inj hb
      rw [if_neg (by omega)] at hpost
      refine ⟨0, _, hpost, by simp [hfirst.not_silent], fun _ => ⟨rfl, ⟨⟨b, rfl, hfirst⟩,
        ⟨e', rfl, hlast⟩, ?_, rfl⟩⟩⟩
      simp only
      omega

theorem postProcessingFloatSequence_cuts_iff_one :
    CutsSilence ([1] : List Int) ↔ WrapsInside ([1] : List Int) :=
  postProcessingFloatSequence_cuts_iff (by simp)

theorem postProcessingFloatSequence_reads_behind : ¬ CutsSilence ([0, 1, 2, 0] : List Int) := by
  intro h
  obtain ⟨ret, cut, hpost, -⟩ := h ⟨0, 0, 0, []⟩
  rw [postProcessingFloatSequence_outside (by simp) (by decide)] at hpost
  cases hpost

end CommonTools.Speech
