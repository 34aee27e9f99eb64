import Mathlib.Algebra.Order.Ring.Rat
import Mathlib.Tactic.Common
import Mathlib.Tactic.Ring
import CommonTools.Lib.CString
import CommonTools.Lib.Weights

/-! # The signature of a list of features

Each feature adds its weight to the counters of the bits that its hash has set
and takes it from the others; the signs of the counters are the signature.
Weights are exact here. -/
namespace CommonTools.Simhash
open CommonTools.Lib

structure Funit (W : Type) where
  weight : W
  feature : Bytes
deriving DecidableEq

/-- `update_hist`, from the counter of the lowest bit on. -/
def updateHist : List ℚ → BitVec 64 → ℚ → List ℚ
  | [], _, _ => []
  | hist :: rest, token, weight =>
    (if token &&& 1 ≠ 0 then hist + weight else hist - weight) ::
      updateHist rest (token >>> 1) weight

section
variable (creatSignMds64 : Bytes → Option (BitVec 64))

/-- One round of the loop over the features, with `hist` and `token`. The hash
may fail on a string. -/
def addFeature (state : List ℚ × BitVec 64) (tmp : Funit ℚ) : List ℚ × BitVec 64 :=
  let str := cstr tmp.feature
  if str.length ≤ 0 then state
  else
    match creatSignMds64 str with
    | none => state
    | some token => (updateHist state.1 token tmp.weight, token)

def simhashSign (features : List (Funit ℚ)) : BitVec 64 :=
  let hist := (features.foldl (addFeature creatSignMds64) (List.replicate 64 0, 0)).1
  (List.range 64).foldl
    (fun sign i => sign ||| ((if 0 < hist.getD i 0 then 1 else 0 : BitVec 64) <<< i)) 0

end

/-! ## A bit of the signature -/

theorem updateHist_getD : ∀ (hist : List ℚ) (token : BitVec 64) (weight : ℚ) (i : Nat),
    i < hist.length → (updateHist hist token weight).getD i 0 =
      hist.getD i 0 + (if token.getLsbD i then 1 else -1) * weight
  | [], _, _, _, h => absurd h (Nat.not_lt_zero _)
  | h :: hist, token, weight, 0, _ => by
    have hbit : token &&& 1 ≠ 0 ↔ token.getLsbD 0 = true := by
      have hone : token &&& 1 = (BitVec.ofBool (token.getLsbD 0)).setWidth 64 :=
        BitVec.and_one_eq_setWidth_ofBool_getLsbD
      rw [hone]
      cases token.getLsbD 0 <;> decide
    rw [updateHist, List.getD_cons_zero, List.getD_cons_zero]
    simp only [hbit]
    split
    · rw [one_mul]
    · rw [neg_one_mul, sub_eq_add_neg]
  | h :: hist, token, weight, i + 1, hi => by
    rw [updateHist, List.getD_cons_succ, List.getD_cons_succ,
      updateHist_getD hist (token >>> 1) weight i (Nat.lt_of_succ_lt_succ hi),
      BitVec.getLsbD_ushiftRight, Nat.add_comm 1 i]

theorem updateHist_length : ∀ (hist : List ℚ) (token : BitVec 64) (weight : ℚ),
    (updateHist hist token weight).length = hist.length
  | [], _, _ => rfl
  | h :: hist, token, weight => by
    rw [updateHist, List.length_cons, List.length_cons, updateHist_length]

section
variable {creatSignMds64 : Bytes → Option (BitVec 64)}

/-- With which sign a feature counts for the bit `i`, if it counts. -/
def vote (creatSignMds64 : Bytes → Option (BitVec 64)) (i : Nat) (feature : Bytes) : ℚ :=
  if cstr feature = [] then 0
  else
    match creatSignMds64 (cstr feature) with
    | none => 0
    | some token => if token.getLsbD i then 1 else -1

/-- The features as weighted names. -/
def named (features : List (Funit ℚ)) : List (Bytes × ℚ) :=
  features.map fun f => (f.feature, f.weight)

theorem foldl_addFeature : ∀ (features : List (Funit ℚ)) (state : List ℚ × BitVec 64),
    (features.foldl (addFeature creatSignMds64) state).1.length = state.1.length ∧
      ∀ i < state.1.length, (features.foldl (addFeature creatSignMds64) state).1.getD i 0 =
        state.1.getD i 0 + weightedSum (vote creatSignMds64 i) (named features) := by
  intro features
  induction features with
  | nil =>
    intro state
    exact ⟨rfl, fun i _ => (add_zero _).symm⟩
  | cons f features ih =>
    intro state
    have hstep : (addFeature creatSignMds64 state f).1.length = state.1.length ∧
        ∀ i < state.1.length, (addFeature creatSignMds64 state f).1.getD i 0 =
          state.1.getD i 0 + vote creatSignMds64 i f.feature * f.weight := by
      rw [addFeature]
      by_cases hempty : cstr f.feature = []
      · simp [vote, hempty]
      · have hlen : ¬ (cstr f.feature).length ≤ 0 := by
          rwa [Nat.le_zero, List.length_eq_zero_iff]
        simp only [vote, if_neg hempty, if_neg hlen]
        cases creatSignMds64 (cstr f.feature) with
        | none => simp
        | some token =>
          exact ⟨updateHist_length _ _ _, fun i hi => updateHist_getD _ _ _ i hi⟩
    obtain ⟨hlen, hget⟩ := ih (addFeature creatSignMds64 state f)
    rw [List.foldl_cons]
    refine ⟨hlen.trans hstep.1, fun i hi => ?_⟩
    rw [hget i (hstep.1 ▸ hi), hstep.2 i hi, add_assoc]
    have hsum := weightedSum_cons (vote creatSignMds64 i) (f.feature, f.weight) (named features)
    exact congrArg (state.1.getD i 0 + ·) hsum.symm

theorem foldl_or_getLsbD (p : Nat → Bool) {j : Nat} (hj : j < 64) : ∀ n : Nat,
    ((List.range n).foldl (fun sign i => sign ||| ((if p i then 1 else 0 : BitVec 64) <<< i))
      0).getLsbD j = (decide (j < n) && p j)
  | 0 => by simp
  | n + 1 => by
    have hone : ((if p n then 1 else 0 : BitVec 64) <<< n).getLsbD j = (decide (j = n) && p n) := by
      rw [BitVec.getLsbD_shiftLeft]
      by_cases hjn : j = n
      · subst hjn
        cases p j <;> simp [hj]
      · cases p n
        · simp
        · by_cases hlt : j < n
          · simp [hlt, hjn]
          · have hpos : j - n ≠ 0 := by omega
            simp [hjn, BitVec.getLsbD_one, hpos]
    rw [List.range_succ, List.foldl_append, List.foldl_cons, List.foldl_nil, BitVec.getLsbD_or,
      foldl_or_getLsbD p hj n, hone]
    rcases Nat.lt_trichotomy j n with h | h | h
    · rw [decide_eq_true h, decide_eq_true (Nat.lt_succ_of_lt h), decide_eq_false (Nat.ne_of_lt h)]
      simp
    · subst h
      simp
    · rw [decide_eq_false (Nat.not_lt_of_gt h), decide_eq_false (by omega : ¬ j < n + 1),
        decide_eq_false (Nat.ne_of_gt h)]
      rfl

/-- A bit is set when more weight votes for it than against it. -/
theorem simhashSign_getLsbD (features : List (Funit ℚ)) {i : Nat} (hi : i < 64) :
    (simhashSign creatSignMds64 features).getLsbD i =
      decide (0 < weightedSum (vote creatSignMds64 i) (named features)) := by
  have hhist := (@foldl_addFeature creatSignMds64 features (List.replicate 64 0, 0)).2 i
    (by rwa [List.length_replicate])
  have hzero : (List.replicate 64 (0 : ℚ)).getD i 0 = 0 := by
    rw [List.getD_eq_getElem?_getD, List.getElem?_replicate_of_lt hi]
    rfl
  rw [hzero, zero_add] at hhist
  rw [simhashSign]
  have hbits := foldl_or_getLsbD (fun i => decide (0 < (features.foldl (addFeature creatSignMds64)
    (List.replicate 64 0, 0)).1.getD i 0)) hi 64
  simp only [decide_eq_true_iff] at hbits
  rw [hbits, decide_eq_true hi, Bool.true_and, hhist]

/-! ## Lists with one signature -/

/-- **The signature only sees total weights.** Features whose totals stand in one
positive ratio, the empty string apart, have one signature. -/
theorem simhashSign_totals {features features' : List (Funit ℚ)} {c : ℚ} (hc : 0 < c)
    (h : ∀ s, s ≠ [] → totalWeight s (named features') = c * totalWeight s (named features)) :
    simhashSign creatSignMds64 features' = simhashSign creatSignMds64 features := by
  refine BitVec.eq_of_getLsbD_eq fun i hi => ?_
  have hvotes : weightedSum (vote creatSignMds64 i) (named features') =
      c * weightedSum (vote creatSignMds64 i) (named features) := by
    refine weightedSum_totals fun s hs => h s ?_
    rintro rfl
    exact hs (if_pos rfl)
  rw [simhashSign_getLsbD _ hi, simhashSign_getLsbD _ hi, hvotes]
  simp only [mul_pos_iff_of_pos_left hc]

/-- One feature for each string, with all of its weight. -/
def merged (features : List (Funit ℚ)) : List (Funit ℚ) :=
  (features.map Funit.feature).dedup.map fun s => ⟨totalWeight s (named features), s⟩

/-- **Order, scale and grouping do not change the signature.** -/
theorem simhashSign_invariant (creatSignMds64 : Bytes → Option (BitVec 64))
    (features : List (Funit ℚ)) :
    (∀ features' : List (Funit ℚ), features'.Perm features →
      simhashSign creatSignMds64 features' = simhashSign creatSignMds64 features) ∧
    (∀ c : ℚ, 0 < c → simhashSign creatSignMds64
      (features.map fun f => { f with weight := c * f.weight }) =
        simhashSign creatSignMds64 features) ∧
    (∀ (l m r : List (Funit ℚ)) (s : Bytes) (w w' : ℚ),
      features = l ++ ⟨w, s⟩ :: m ++ ⟨w', s⟩ :: r →
      simhashSign creatSignMds64 (l ++ ⟨w + w', s⟩ :: m ++ r) =
        simhashSign creatSignMds64 features) ∧
    simhashSign creatSignMds64 (merged features) = simhashSign creatSignMds64 features ∧
    simhashSign creatSignMds64 (features.filter fun f => f.feature ≠ []) =
      simhashSign creatSignMds64 features := by
  refine ⟨fun features' h => ?_, fun c hc => ?_, fun l m r s w w' h => ?_, ?_, ?_⟩
  · refine simhashSign_totals one_pos fun s _ => ?_
    rw [one_mul]
    exact totalWeight_perm s (h.map _)
  · refine simhashSign_totals hc fun s _ => ?_
    rw [← totalWeight_scale, named, named, List.map_map, List.map_map]
    rfl
  · subst h
    refine simhashSign_totals one_pos fun t _ => ?_
    rw [one_mul]
    simp only [named, List.map_append, List.map_cons, totalWeight_append, totalWeight_cons]
    split
    · ring
    · ring
  · refine simhashSign_totals one_pos fun s _ => ?_
    rw [one_mul, named, merged, List.map_map]
    refine (totalWeight_of_nodup (List.nodup_dedup _) (fun s => totalWeight s (named features))
      s).trans ?_
    split
    · rfl
    · rename_i hs
      rw [List.mem_dedup] at hs
      refine (totalWeight_of_notMem ?_).symm
      rwa [named, List.map_map]
  · refine simhashSign_totals one_pos fun s hs => ?_
    rw [one_mul, totalWeight, totalWeight, named, named, List.filter_map, List.filter_map,
      List.filter_filter]
    congr 3
    refine List.filter_congr fun f _ => ?_
    by_cases hf : f.feature = s
    · simp [hf, hs]
    · simp [hf]

end

end CommonTools.Simhash
