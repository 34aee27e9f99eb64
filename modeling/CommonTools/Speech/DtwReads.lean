import Mathlib.Algebra.Field.Rat
import Mathlib.Algebra.Order.Ring.Unbundled.Rat
import CommonTools.Speech.HeadDTW

/-! # What the warping functions read

The loops go up to and with `I` and `J`, so each function reads one sample behind those that
it has counted. That sample is there only when the count was cut down to `DTWMAXNUM`. -/
namespace CommonTools.Speech
open CommonTools.Lib CommonTools.Http

section
variable {K : Type}

/-- Only the samples of the vector can be read. -/
def ofList (A : List K) : Samples K := ⟨A.length, at? A⟩

/-- Only the samples from `begin` to `end_` can be read. -/
def between (A : List K) (begin end_ : Int) : Samples K :=
  ⟨A.length, fun i => if begin ≤ i ∧ i ≤ end_ then at? A i else none⟩

/-- The call does not read any other sample. -/
def ReadsInside (result : Except Fault (Cells K × K)) : Prop := result ≠ .error .outside

/-- Both vectors have more than `DTWMAXNUM` samples; where one has not, the size of the other
is negative as an `int32_t` and not -1, so that the allocation throws before anything is read. -/
def Clamped (m n : Nat) : Prop :=
  (DTWMAXNUM < m ∨ toInt32 n < -1) ∧ (DTWMAXNUM < n ∨ toInt32 m < -1)

/-- The same for the numbers of samples between positions; only the whole range of an `int32_t`
makes such a number negative. -/
def ClampedBetween (begin1 end1 begin2 end2 : Int) : Prop :=
  (DTWMAXNUM ≤ end1 - begin1 ∨ (begin2 = 0 ∧ end2 = INT_MAX)) ∧
    (DTWMAXNUM ≤ end2 - begin2 ∨ (begin1 = 0 ∧ end1 = INT_MAX))

end

/-! ## The loops -/

section
variable {K : Type} [Field K] [LinearOrder K]

/-- A sample that is missing in the first column or the first row ends the run. -/
theorem fillTable_none {cost : Nat → Nat → Option K} {I J : Nat}
    (h : (∃ i ≤ I, cost i 0 = none) ∨ ∃ j ≤ J, cost 0 j = none) (distance : Cells K) :
    fillTable cost I J distance = none := by
  cases h00 : cost 0 0 with
  | none => rw [fillTable, h00]; rfl
  | some c00 =>
    have hpos : ∀ k, (cost k 0 = none → k ≠ 0) ∧ (cost 0 k = none → k ≠ 0) := by
      intro k
      constructor <;> intro hnone hk <;> rw [hk, h00] at hnone <;> cases hnone
    rw [fillTable, h00]
    simp only [Option.bind_eq_bind, Option.bind_some]
    rcases h with ⟨i, hi, hnone⟩ | ⟨j, hj, hnone⟩
    · have hpos := (hpos i).1 hnone
      rw [loopM_none (i := i) (by omega) (by omega) fun s => by rw [hnone]; rfl]
      rfl
    · have hpos := (hpos j).2 hnone
      cases loopM 1 I (fun i distance => (cost i 0).bind fun v =>
          some (distance.set i 0 (distance (i - 1) 0 + v))) (distance.set 0 0 (2 * c00)) with
      | none => rfl
      | some distance =>
        rw [Option.bind_some, loopM_none (i := j) (by omega) (by omega) fun s => by rw [hnone]; rfl]
        rfl

variable {A B : Int → Option K} {begin1 begin2 : Int} {m n : Nat}

theorem sampleCost_isSome {i j : Nat} (hA : (A (i + begin1)).isSome)
    (hB : (B (j + begin2)).isSome) : (sampleCost A B begin1 begin2 i j).isSome := by
  obtain ⟨a, ha⟩ := Option.isSome_iff_exists.mp hA
  obtain ⟨b, hb⟩ := Option.isSome_iff_exists.mp hB
  simp [sampleCost, ha, hb]

theorem sampleCost_none {i j : Nat} (h : A (i + begin1) = none ∨ B (j + begin2) = none) :
    sampleCost A B begin1 begin2 i j = none := by
  rcases h with h | h
  · simp [sampleCost, h]
  · cases ha : A (i + begin1) <;> simp [sampleCost, ha, h]

/-- With `m` and `n` samples to be read, a run reads no others when it throws or `I` and `J`
are samples. -/
theorem dtwRun_readsInside_iff
    (hA : ∀ i : Nat, (A (i + begin1)).isSome ↔ i < m)
    (hB : ∀ j : Nat, (B (j + begin2)).isSome ↔ j < n) (I J : Int) (new : Cells K) :
    ReadsInside (dtwRun A B begin1 begin2 I J new) ↔
      (I + 1 < 0 ∨ (0 < I + 1 ∧ J + 1 < 0)) ∨ (I.toNat < m ∧ J.toNat < n) := by
  unfold dtwRun
  by_cases hthrow : I + 1 < 0 ∨ (0 < I + 1 ∧ J + 1 < 0)
  · rw [if_pos hthrow]
    exact ⟨fun _ => .inl hthrow, fun _ => by simp [ReadsInside]⟩
  · rw [if_neg hthrow]
    dsimp only
    generalize loop 0 I.toNat _ new = distance
    by_cases hin : I.toNat < m ∧ J.toNat < n
    · have hall : ∀ i ≤ I.toNat, ∀ j ≤ J.toNat, sampleCost A B begin1 begin2 i j =
          some ((sampleCost A B begin1 begin2 i j).getD 0) := by
        intro i hi j hj
        obtain ⟨v, hv⟩ := Option.isSome_iff_exists.mp
          (sampleCost_isSome ((hA i).mpr (by omega)) ((hB j).mpr (by omega)))
        rw [hv]
        rfl
      rw [fillTable_some hall]
      have hok : ∀ result : Except Fault (Cells K × K), (result = .error .table ∨
          ∃ r, result = .ok r) → ReadsInside result := by
        intro result h
        rcases h with rfl | ⟨r, rfl⟩ <;> simp [ReadsInside]
      refine ⟨fun _ => .inr hin, fun _ => hok _ ?_⟩
      by_cases htable : I < 1 ∨ J < 1
      · exact .inl (if_pos htable)
      · exact .inr ⟨_, if_neg htable⟩
    · have hmiss : fillTable (sampleCost A B begin1 begin2) I.toNat J.toNat distance = none := by
        refine fillTable_none ?_ distance
        rcases not_and_or.mp hin with hi | hj
        · refine .inl ⟨I.toNat, Nat.le_refl _, sampleCost_none (.inl ?_)⟩
          rw [← Option.not_isSome_iff_eq_none, hA]
          exact hi
        · refine .inr ⟨J.toNat, Nat.le_refl _, sampleCost_none (.inr ?_)⟩
          rw [← Option.not_isSome_iff_eq_none, hB]
          exact hj
      rw [hmiss]
      exact ⟨fun h => absurd rfl h, fun h => absurd h (not_or.mpr ⟨hthrow, hin⟩)⟩

end

/-! ## The three functions -/

section
variable {K : Type} {A B : List K}

theorem ofList_read (A : List K) (i : Nat) : ((ofList A).read (i + 0)).isSome ↔ i < A.length := by
  rw [Int.add_zero]
  change (at? A i).isSome ↔ i < A.length
  rw [at?_isSome]
  omega

theorem between_read {begin end_ : Int} (h0 : 0 ≤ begin) (hend : end_ < A.length) (i : Nat) :
    ((between A begin end_).read (i + begin)).isSome ↔ i < (end_ + 1 - begin).toNat := by
  simp only [between]
  split
  · rw [at?_isSome]
    omega
  · simp only [Option.isSome_none, Bool.false_eq_true, false_iff]
    omega

theorem toInt32_small {n : Nat} (h : (n : Int) ≤ DTWMAXNUM) : toInt32 n = n :=
  toInt32_natCast (by unfold DTWMAXNUM at h; unfold INT_MAX; omega)

theorem clampSize_le (I : Int) : clampSize I ≤ DTWMAXNUM := by
  unfold clampSize
  split <;> omega

theorem clampSize_eq {I : Int} (h : I ≤ DTWMAXNUM) : clampSize I = I :=
  if_neg (Int.not_lt.mpr h)

theorem clampSize_neg_iff {I k : Int} (hk : k ≤ 0) : clampSize I < k ↔ I < k := by
  unfold clampSize DTWMAXNUM
  split <;> omega

/-- The last index of the loops is that of a sample when the count was cut down. -/
theorem toNat_clampSize_lt_iff {n : Nat} {I : Int} (hn : 0 < n)
    (hsmall : (n : Int) ≤ DTWMAXNUM → I = n) : (clampSize I).toNat < n ↔ DTWMAXNUM < n := by
  have hle := clampSize_le I
  have heq : I ≤ DTWMAXNUM → clampSize I = I := clampSize_eq
  unfold DTWMAXNUM at *
  omega

/-- What throws and what is counted, put together for both vectors. -/
theorem counted_iff {m n : Nat} {I J : Int} (hm : 0 < m) (hn : 0 < n)
    (hI : (m : Int) ≤ DTWMAXNUM → I = m) (hJ : (n : Int) ≤ DTWMAXNUM → J = n) :
    (clampSize I + 1 < 0 ∨ (0 < clampSize I + 1 ∧ clampSize J + 1 < 0)) ∨
        ((clampSize I).toNat < m ∧ (clampSize J).toNat < n) ↔
      (DTWMAXNUM < m ∨ J < -1) ∧ (DTWMAXNUM < n ∨ I < -1) := by
  rw [toNat_clampSize_lt_iff hm hI, toNat_clampSize_lt_iff hn hJ]
  have hI' := clampSize_neg_iff (I := I) (k := -1) (by omega)
  have hJ' := clampSize_neg_iff (I := J) (k := -1) (by omega)
  have hI0 := clampSize_neg_iff (I := I) (Int.le_refl 0)
  have hJ0 := clampSize_neg_iff (I := J) (Int.le_refl 0)
  unfold DTWMAXNUM at *
  omega

/-- The number of the positions of an `int32_t` range. -/
theorem toInt32_count_iff {begin end_ : Int} (h0 : 0 ≤ begin) (hle : begin ≤ end_)
    (hend : end_ ≤ INT_MAX) :
    toInt32 (end_ + 1 - begin) < -1 ↔ begin = 0 ∧ end_ = INT_MAX := by
  unfold INT_MAX at *
  unfold toInt32
  rw [Int.bmod_def]
  split <;> omega

theorem toInt32_count_small {begin end_ : Int} (hle : begin ≤ end_)
    (hsmall : ((end_ + 1 - begin).toNat : Int) ≤ DTWMAXNUM) :
    toInt32 (end_ + 1 - begin) = (end_ + 1 - begin).toNat := by
  have hcast : end_ + 1 - begin = (end_ + 1 - begin).toNat := by omega
  rw [hcast]
  exact toInt32_small hsmall

end

section
variable {K : Type} [Field K] [LinearOrder K] {A B : List K}

theorem dtwDistanceFun_readsInside_iff (hA : A ≠ []) (hB : B ≠ []) (r : Int) (new : Cells K) :
    ReadsInside (dtwDistanceFun (ofList A) (ofList B) r new) ↔ Clamped A.length B.length := by
  rw [dtwDistanceFun, dtwRun_readsInside_iff (ofList_read A) (ofList_read B)]
  exact counted_iff (List.length_pos_iff.mpr hA) (List.length_pos_iff.mpr hB) toInt32_small
    toInt32_small

theorem dtwDistanceFunOri_readsInside_iff (hA : A ≠ []) (hB : B ≠ []) (r : Int) (new : Cells K) :
    ReadsInside (dtwDistanceFunOri (ofList A) (ofList B) r new) ↔
      DTWMAXNUM < toInt32 A.length ∨ DTWMAXNUM < toInt32 B.length ∨
        Clamped A.length B.length := by
  have hori : dtwDistanceFunOri (ofList A) (ofList B) r new =
      if toInt32 A.length > DTWMAXNUM ∨ toInt32 B.length > DTWMAXNUM then .ok (new, -1)
      else dtwRun (at? A) (at? B) 0 0 (toInt32 A.length) (toInt32 B.length) new := rfl
  by_cases hlong : toInt32 A.length > DTWMAXNUM ∨ toInt32 B.length > DTWMAXNUM
  · rw [hori, if_pos hlong, ← or_assoc]
    exact ⟨fun _ => .inl hlong, fun _ => by simp [ReadsInside]⟩
  · obtain ⟨hI, hJ⟩ := not_or.mp hlong
    have hfun : dtwDistanceFun (ofList A) (ofList B) r new =
        dtwRun (at? A) (at? B) 0 0 (toInt32 A.length) (toInt32 B.length) new := by
      rw [← clampSize_eq (Int.not_lt.mp hI), ← clampSize_eq (Int.not_lt.mp hJ)]
      rfl
    rw [hori, if_neg hlong, ← hfun, or_iff_right hI, or_iff_right hJ]
    exact dtwDistanceFun_readsInside_iff hA hB r new

theorem dtwDistanceFunBetween_readsInside_iff {begin1 end1 begin2 end2 : Int} (h1 : 0 ≤ begin1)
    (hle1 : begin1 ≤ end1) (hin1 : end1 < A.length) (hmax1 : end1 ≤ INT_MAX) (h2 : 0 ≤ begin2)
    (hle2 : begin2 ≤ end2) (hin2 : end2 < B.length) (hmax2 : end2 ≤ INT_MAX) (r : Int)
    (new : Cells K) :
    ReadsInside (dtwDistanceFunBetween (between A begin1 end1) begin1 end1
      (between B begin2 end2) begin2 end2 r new) ↔ ClampedBetween begin1 end1 begin2 end2 := by
  have hsize : ¬ ((between A begin1 end1).size = 0 ∨ (between B begin2 end2).size = 0) := by
    simp only [between]
    omega
  rw [dtwDistanceFunBetween, if_neg hsize,
    dtwRun_readsInside_iff (between_read h1 hin1) (between_read h2 hin2),
    counted_iff (by omega) (by omega) (toInt32_count_small hle1) (toInt32_count_small hle2),
    toInt32_count_iff h1 hle1 hmax1, toInt32_count_iff h2 hle2 hmax2, ClampedBetween]
  unfold DTWMAXNUM
  omega

end

/-- **The functions read a sample behind the counted ones, unless they count fewer than
there are.** -/
theorem dtw_readsInside_iff {K : Type} [Field K] [LinearOrder K] {A B : List K} (hA : A ≠ [])
    (hB : B ≠ []) (r : Int) (new : Cells K) :
    (ReadsInside (dtwDistanceFun (ofList A) (ofList B) r new) ↔ Clamped A.length B.length) ∧
    (∀ begin1 end1 begin2 end2 : Int, 0 ≤ begin1 → begin1 ≤ end1 → end1 < A.length →
      end1 ≤ INT_MAX → 0 ≤ begin2 → begin2 ≤ end2 → end2 < B.length → end2 ≤ INT_MAX →
      (ReadsInside (dtwDistanceFunBetween (between A begin1 end1) begin1 end1
        (between B begin2 end2) begin2 end2 r new) ↔ ClampedBetween begin1 end1 begin2 end2)) ∧
    (ReadsInside (dtwDistanceFunOri (ofList A) (ofList B) r new) ↔
      DTWMAXNUM < toInt32 A.length ∨ DTWMAXNUM < toInt32 B.length ∨
        Clamped A.length B.length) := by
  refine ⟨dtwDistanceFun_readsInside_iff hA hB r new, ?_,
    dtwDistanceFunOri_readsInside_iff hA hB r new⟩
  intro begin1 end1 begin2 end2 h1 hle1 hin1 hmax1 h2 hle2 hin2 hmax2
  exact dtwDistanceFunBetween_readsInside_iff h1 hle1 hin1 hmax1 h2 hle2 hin2 hmax2 r new

theorem dtw_readsInside_iff_two :
    ReadsInside (dtwDistanceFunBetween (between ([1, 3] : List ℚ) 0 1) 0 1
      (between [2] 0 0) 0 0 0 (fun _ _ => 0)) ↔ ClampedBetween 0 1 0 0 :=
  (dtw_readsInside_iff (A := [1, 3]) (B := [2]) (by simp) (by simp) 0 fun _ _ => 0).2.1 0 1 0 0
    (by simp) (by simp) (by simp) (by simp [INT_MAX]) (by simp) (by simp) (by simp)
    (by simp [INT_MAX])

/-- One sample each: the first column reads the second sample of the first vector. -/
theorem dtwDistanceFun_reads_behind :
    ¬ ReadsInside (dtwDistanceFun (ofList ([1] : List ℚ)) (ofList [2]) 0 (fun _ _ => 0)) := by
  rw [dtwDistanceFun_readsInside_iff (by simp) (by simp)]
  simp [Clamped, DTWMAXNUM, toInt32]

end CommonTools.Speech
