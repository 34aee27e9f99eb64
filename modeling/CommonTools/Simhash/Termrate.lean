import Mathlib.Algebra.Order.Ring.Rat
import CommonTools.Lib.CString
import CommonTools.Lib.RunLength
import CommonTools.Simhash.Signature

/-! # The weight of a feature by its frequency

The features are sorted and their runs counted. Characters are those of a
library for UTF-8, and weights are exact up to the square root. -/
namespace CommonTools.Simhash
open CommonTools.Lib

/-- `comp`: the larger string stands first. -/
def comp {W : Type} (tmp1 tmp2 : Funit W) : Int :=
  if tmp2.feature < tmp1.feature then -1 else 0

section
variable {W : Type} (ulCcodeNextUtf8 : Bytes → Nat) (ulCcodeIsSingleCnchar : Bytes → Bool)
variable (sqrt : ℚ → W)

/-- The loop of `_get_text_weight` over the characters: how many are Chinese. -/
def cncharCount : Bytes → Nat
  | [] => 0
  | b :: rest =>
    let len := ulCcodeNextUtf8 (b :: rest)
    if len = 0 then 0
    else
      (if ulCcodeIsSingleCnchar (b :: rest) then 1 else 0) + cncharCount ((b :: rest).drop len)
termination_by cur => cur.length
decreasing_by
  rw [List.length_drop, List.length_cons]
  omega

/-- `_get_text_weight` of a text that is not null. -/
def getTextWeight (txt : Bytes) (frequency : Nat) : ℚ :=
  let count := cncharCount ulCcodeNextUtf8 ulCcodeIsSingleCnchar txt
  if count ≤ 0 then frequency - frequency * (1 / 2)
  else if count = 1 then frequency
  else frequency + frequency * ((count - 1) * (1 / 2))

def weighted (feature : Bytes) (frequency : Nat) : Funit W :=
  ⟨sqrt (getTextWeight ulCcodeNextUtf8 ulCcodeIsSingleCnchar (cstr feature) frequency), feature⟩

/-- The loop over the sorted features behind the first, with the string at
`start`; the last run follows the loop. -/
def frequencyLoop : List (Funit W) → Bytes → Nat → List (Funit W) → List (Funit W)
  | [], start, frequency, ftmp =>
    ftmp ++ [weighted ulCcodeNextUtf8 ulCcodeIsSingleCnchar sqrt start frequency]
  | f :: rest, start, frequency, ftmp =>
    if f.feature ≠ start then
      frequencyLoop rest f.feature 1
        (ftmp ++ [weighted ulCcodeNextUtf8 ulCcodeIsSingleCnchar sqrt start frequency])
    else frequencyLoop rest start (frequency + 1) ftmp

/-- `feature_weight_by_frequency`: the return value and the list. -/
def featureWeightByFrequency (std : StdSort (Funit W)) (features : List (Funit W)) :
    Int × List (Funit W) :=
  if features.length = 0 then (-1, features)
  else
    match std.sort (fun tmp1 tmp2 => decide (comp tmp1 tmp2 ≠ 0)) features with
    -- a sort leaves no list empty
    | [] => (0, [])
    | first :: rest =>
      (0, frequencyLoop ulCcodeNextUtf8 ulCcodeIsSingleCnchar sqrt rest first.feature 1 [])

end

/-! ## The order -/

section
variable {W : Type}

theorem comp_eq_zero_iff {tmp1 tmp2 : Funit W} :
    comp tmp1 tmp2 = 0 ↔ tmp1.feature ≤ tmp2.feature := by
  rw [comp, ← List.not_lt]
  split <;> simp [*]

/-- Strings that are not ordered are equal, so the comparison may be sorted by. -/
theorem comp_isStrictWeakOrder :
    IsStrictWeakOrder (Funit W) fun tmp1 tmp2 => decide (comp tmp1 tmp2 ≠ 0) = true where
  irrefl a := by
    rw [decide_eq_true_iff, not_not, comp_eq_zero_iff]
    exact List.le_refl a.feature
  trans a b c hab hbc := by
    simp only [decide_eq_true_iff, ne_eq, comp_eq_zero_iff, List.not_le] at hab hbc ⊢
    exact List.lt_trans hbc hab
  incomp_trans a b c hab hbc := by
    simp only [decide_eq_true_iff, ne_eq, not_not, comp_eq_zero_iff] at hab hbc ⊢
    exact ⟨List.le_trans hab.1 hbc.1, List.le_trans hbc.2 hab.2⟩

end

/-! ## Runs of the sorted features -/

section
variable {W : Type} {ulCcodeNextUtf8 : Bytes → Nat} {ulCcodeIsSingleCnchar : Bytes → Bool}
variable {sqrt : ℚ → W}

theorem frequencyLoop_eq : ∀ (rest : List (Funit W)) (start : Bytes) (frequency : Nat)
    (ftmp : List (Funit W)),
    frequencyLoop ulCcodeNextUtf8 ulCcodeIsSingleCnchar sqrt rest start frequency ftmp =
      ftmp ++ (runsFrom start frequency (rest.map Funit.feature)).map fun r =>
        weighted ulCcodeNextUtf8 ulCcodeIsSingleCnchar sqrt r.1 r.2 := by
  intro rest
  induction rest with
  | nil =>
    intro start frequency ftmp
    rfl
  | cons f rest ih =>
    intro start frequency ftmp
    rw [frequencyLoop, List.map_cons, runsFrom]
    by_cases hf : f.feature = start
    · rw [if_neg (not_not.mpr hf), if_pos hf, ih]
    · rw [if_pos hf, if_neg hf, ih, List.append_assoc, List.map_cons]
      rfl

/-- What the features become: their strings from the largest on, each once and
with the weight of its frequency. -/
structure FrequencyWeighted (ulCcodeNextUtf8 : Bytes → Nat) (ulCcodeIsSingleCnchar : Bytes → Bool)
    (sqrt : ℚ → W) (features out : List (Funit W)) : Prop where
  descending : (out.map Funit.feature).Pairwise fun a b => b < a
  once : ∀ s, (out.map Funit.feature).count s = if s ∈ features.map Funit.feature then 1 else 0
  weight : ∀ fu ∈ out, fu.weight = sqrt (getTextWeight ulCcodeNextUtf8 ulCcodeIsSingleCnchar
    (cstr fu.feature) ((features.map Funit.feature).count fu.feature))

/-- **Run-length counting of the sorted features.** -/
theorem featureWeightByFrequency_runs (ulCcodeNextUtf8 : Bytes → Nat)
    (ulCcodeIsSingleCnchar : Bytes → Bool) (sqrt : ℚ → W) (std : StdSort (Funit W))
    (features : List (Funit W)) :
    (featureWeightByFrequency ulCcodeNextUtf8 ulCcodeIsSingleCnchar sqrt std features).1 =
        (if features = [] then -1 else 0) ∧
      FrequencyWeighted ulCcodeNextUtf8 ulCcodeIsSingleCnchar sqrt features
        (featureWeightByFrequency ulCcodeNextUtf8 ulCcodeIsSingleCnchar sqrt std features).2 := by
  rw [featureWeightByFrequency]
  by_cases hempty : features = []
  · subst hempty
    exact ⟨rfl, List.Pairwise.nil, fun s => rfl, fun fu hfu => absurd hfu List.not_mem_nil⟩
  rw [if_neg (mt List.length_eq_zero_iff.mp hempty), if_neg hempty]
  have hperm := std.perm _ features comp_isStrictWeakOrder
  have hsorted := std.sorted _ features comp_isStrictWeakOrder
  cases hsort : std.sort (fun tmp1 tmp2 => decide (comp tmp1 tmp2 ≠ 0)) features with
  | nil =>
    rw [hsort] at hperm
    exact absurd hperm.symm.eq_nil hempty
  | cons first rest =>
    rw [hsort] at hperm hsorted
    dsimp only
    rw [frequencyLoop_eq, List.nil_append]
    have hnames : (first.feature :: rest.map Funit.feature).Perm (features.map Funit.feature) :=
      hperm.map Funit.feature
    have hdesc : (first.feature :: rest.map Funit.feature).Pairwise fun a b => b ≤ a := by
      rw [← List.map_cons, List.pairwise_map]
      refine hsorted.imp fun {a b} h => ?_
      rwa [decide_eq_true_iff, not_not, comp_eq_zero_iff] at h
    have hexp : expand (runsFrom first.feature 1 (rest.map Funit.feature)) =
        first.feature :: rest.map Funit.feature := expand_runsFrom _ _ 1
    have hstrict := runsFrom_strict (fun hab hba => List.le_antisymm hba hab) _ _ 1 hdesc
    have hnd : ((runsFrom first.feature 1 (rest.map Funit.feature)).map Prod.fst).Nodup :=
      hstrict.imp And.right
    have hfirst : ((runsFrom first.feature 1 (rest.map Funit.feature)).map fun r =>
        weighted ulCcodeNextUtf8 ulCcodeIsSingleCnchar sqrt r.1 r.2).map Funit.feature =
        (runsFrom first.feature 1 (rest.map Funit.feature)).map Prod.fst := List.map_map
    refine ⟨rfl, ?_, fun s => ?_, fun fu hfu => ?_⟩
    · rw [hfirst]
      exact hstrict.imp fun h => Std.lt_of_le_of_ne h.1 h.2.symm
    · rw [hfirst, hnd.count]
      refine if_congr ?_ rfl rfl
      rw [← mem_expand (runsFrom_pos _ Nat.one_pos), hexp]
      exact hnames.mem_iff
    · obtain ⟨r, hr, rfl⟩ := List.mem_map.mp hfu
      have hcount := count_expand hnd r hr
      rw [hexp, hnames.count_eq] at hcount
      dsimp only [weighted]
      rw [hcount]

end

end CommonTools.Simhash
