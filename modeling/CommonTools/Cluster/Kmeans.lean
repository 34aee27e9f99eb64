import CommonTools.Lib.Best
import CommonTools.Lib.PartialList
import CommonTools.Lib.Runs
import Mathlib.Algebra.BigOperators.Group.Finset.Basic
import Mathlib.Algebra.Order.BigOperators.Group.List
import Mathlib.Algebra.Order.Field.Basic
import Mathlib.Data.Rat.Sqrt
import Mathlib.Algebra.Field.Rat
import Mathlib.Algebra.Order.Ring.Rat
import Mathlib.Order.WithBot

/-! # K-means over rows of numbers

A round gives every row to the centroid with the least distance, divided by the numbers of
entries of row and centroid, and moves each centroid to the mean of its rows. -/
namespace CommonTools.Cluster
open CommonTools.Lib

/-! ## `kmeans.cpp` -/

/-- Exact numbers with a root; `GAbs_` says how far two costs are apart. -/
structure Exact (F : Type) [Field F] [LinearOrder F] [IsStrictOrderedRing F] where
  sqrt : F → F
  GAbs_ : F → F → F
  sqrt_mul_self : ∀ a, sqrt (a * a) = |a|
  GAbs_self : ∀ a, GAbs_ a a = 0

/-- An element of `cent` with the one of `centEleNum`. -/
structure Centroid (F : Type) where
  dot : List F
  eleNum : Nat
deriving DecidableEq

/-- What a round of the loop leaves: the centroids, the clusters, for which no entry in the map is
an empty one, and the cost. -/
structure RunState (F : Type) where
  cent : List (Centroid F)
  clusterSet : Nat → List Nat
  precost : F

section
variable {F : Type} [Field F] [LinearOrder F] [IsStrictOrderedRing F] (r : Exact F)

/-- `dataVecEleNum` of a row. -/
def eleNumInLine (row : List F) : Nat := row.countP fun w => 0 < w

/-- `readFile` over the rows of numbers: the dimension, or `none` when it is not consistent. -/
def readFile (dataVec : List (List F)) : Option Nat :=
  dataVec.foldlM (fun dimension row =>
    if dimension = 0 then some row.length
    else if dimension ≠ row.length then none
    else some dimension) 0

def distDot (a b : List F) : F :=
  if a.length ≠ b.length then -1
  else r.sqrt ((a.zip b).foldl (fun sum e => sum + (e.1 - e.2) * (e.1 - e.2)) 0)

/-- `InitCent`: the first rows. -/
def InitCent (n_cluster : Int) (dataVec : List (List F)) : Option (List (Centroid F)) :=
  if n_cluster < 0 ∨ dataVec.length < n_cluster then none
  else some ((dataVec.take n_cluster.toNat).map fun row => ⟨row, eleNumInLine row⟩)

/-- The distance of a row to a centroid. -/
def distance (c : Centroid F) (dot : List F) : F :=
  distDot r c.dot dot / (eleNumInLine dot + c.eleNum : Nat)

/-- `nearest`: `min_d`, which is added to the cost, and `min_i`. `none` when a divisor is 0, or
when there is no centroid and `min_d` stays `HUGE_VAL`. What is written through `d2`, which the
caller never sets, is left out. -/
def nearest (dot : List F) (cent : List (Centroid F)) : Option (F × Nat) :=
  if ∃ c ∈ cent, eleNumInLine dot + c.eleNum = 0 then none
  else
    let best := bestOf (fun a b : WithTop F => a < b) (fun c => WithTop.some (distance r c.1 dot))
      Prod.snd (⊤, 0) cent.zipIdx
    Option.map (fun min_d => (min_d, best.2)) best.1

def clusterRound (cent : List (Centroid F)) (st : F × (Nat → List Nat)) (row : List F × Nat) :
    Option (F × (Nat → List Nat)) :=
  (nearest r row.1 cent).map fun (min_d, nearestCluster) =>
    (st.1 + min_d, Function.update st.2 nearestCluster (st.2 nearestCluster ++ [row.2]))

/-- `cluster`: the cost and `clusterSet`. -/
def cluster (dataVec : List (List F)) (cent : List (Centroid F)) :
    Option (F × (Nat → List Nat)) :=
  dataVec.zipIdx.foldlM (clusterRound r cent) (0, fun _ => [])

/-- The mean of a column over some rows; `none` where it reads outside. -/
def mean (dataVec : List (List F)) (vecset : List Nat) (col : Nat) : Option F :=
  (vecset.mapM fun chi => (dataVec[chi]?).bind fun row => row[col]?).map fun w =>
    w.sum / vecset.length

/-- One round of the outer loop of `Cent`; `none` where it reads or writes outside. -/
def centRound (dataVec : List (List F)) (dimension : Nat) (clusterSet : Nat → List Nat)
    (cent : List (Centroid F)) (j : Nat) : Option (List (Centroid F)) :=
  if clusterSet j = [] then some cent
  else do
    let value ← (List.range dimension).mapM (mean dataVec (clusterSet j))
    let c ← cent[j]?
    if c.dot.length < dimension then none
    else some (cent.set j ⟨value ++ c.dot.drop dimension, value.countP fun v => v ≠ 0⟩)

/-- `Cent`. Every row is in the cluster of a centroid. -/
def Cent (dataVec : List (List F)) (dimension : Nat) (clusterSet : Nat → List Nat)
    (cent : List (Centroid F)) : Option (List (Centroid F)) :=
  (List.range cent.length).foldlM (centRound dataVec dimension clusterSet) cent

/-- One round of the loop of `Run_`: what it leaves, and whether it ends the loop. -/
def runRound (dataVec : List (List F)) (dimension : Nat) (thres : F) (st : RunState F) :
    Option (RunState F × Bool) := do
  let (cost, clusterSet) ← cluster r dataVec st.cent
  let cent ← Cent dataVec dimension clusterSet st.cent
  some (⟨cent, clusterSet, cost⟩, r.GAbs_ cost st.precost < thres)

/-- The state after so many rounds that did not end the loop. -/
def rounds (dataVec : List (List F)) (dimension : Nat) (thres : F) (cent : List (Centroid F)) :
    Nat → Option (RunState F)
  | 0 => some ⟨cent, fun _ => [], 0⟩
  | k + 1 => do
    let st ← rounds dataVec dimension thres cent k
    let (next, ends) ← runRound r dataVec dimension thres st
    if ends then none else some next

/-! ## What the rounds are to do -/

/-- No round but the first costs more than the one before. -/
def NeverWorse (dataVec : List (List F)) (n_cluster : Int) (thres : F) : Prop :=
  ∀ dimension cent, readFile dataVec = some dimension → InitCent n_cluster dataVec = some cent →
    ∀ k st next ends, rounds r dataVec dimension thres cent (k + 1) = some st →
      runRound r dataVec dimension thres st = some (next, ends) → next.precost ≤ st.precost

/-- The distance of a row of the file to a centroid. -/
def distanceAt (dataVec : List (List F)) (cent : List (Centroid F)) (j i : Nat) : F :=
  match cent[j]?, dataVec[i]? with
  | some c, some row => distance r c row
  | _, _ => 0

/-- What clusters cost when their rows stay with their centroids. -/
def spread (dataVec : List (List F)) (cent : List (Centroid F)) (clusterSet : Nat → List Nat) :
    F :=
  ∑ j ∈ Finset.range cent.length, ((clusterSet j).map (distanceAt r dataVec cent j)).sum

end

/-! ## A row and its centroid -/

section
variable {F : Type} [Field F] [LinearOrder F] [IsStrictOrderedRing F] {r : Exact F}
  {cent : List (Centroid F)}

/-- The centroid that is found is the nearest one. -/
theorem nearest_spec {dot : List F} {min_d : F} {min_i : Nat}
    (h : nearest r dot cent = some (min_d, min_i)) :
    min_i < cent.length ∧ ∀ c ∈ cent, min_d ≤ distance r c dot := by
  rw [nearest] at h
  split at h
  · cases h
  · obtain ⟨d, hd, heq⟩ := Option.map_eq_some_iff.mp h
    obtain ⟨rfl, hi⟩ := Prod.mk.inj heq
    have hcases := @bestOf_cases _ _ _ (fun a b : WithTop F => a < b) _
      (fun c : Centroid F × Nat => WithTop.some (distance r c.1 dot)) Prod.snd (⊤, 0)
      cent.zipIdx _
    have hleast := @bestOf_unbeaten _ _ _ (fun a b : WithTop F => a < b) _
      (fun c : Centroid F × Nat => WithTop.some (distance r c.1 dot)) Prod.snd (⊤, 0)
      cent.zipIdx _
    rw [show (bestOf _ _ _ _ _).1 = WithTop.some d from hd] at hleast
    refine ⟨?_, fun c hc => ?_⟩
    · rcases hcases with hkept | ⟨⟨c, i⟩, hmem, hbest, -⟩
      · rw [hkept] at hd
        cases hd
      · rw [hbest] at hi
        obtain ⟨hlt, -⟩ := List.getElem?_eq_some_iff.mp (List.mem_zipIdx_iff_getElem?.mp hmem)
        exact hi ▸ hlt
    · obtain ⟨i, hi, rfl⟩ := List.getElem_of_mem hc
      have hno := hleast.2 (cent[i], i) (by simp [List.mem_zipIdx_iff_getElem?])
      exact WithTop.coe_le_coe.mp (not_lt.mp hno)

def nearestCluster (r : Exact F) (cent : List (Centroid F)) (dot : List F) : Nat :=
  ((nearest r dot cent).map Prod.snd).getD 0

def nearestCost (r : Exact F) (cent : List (Centroid F)) (dot : List F) : F :=
  ((nearest r dot cent).map Prod.fst).getD 0

theorem nearestCluster_lt {dot : List F} (h : (nearest r dot cent).isSome) :
    nearestCluster r cent dot < cent.length := by
  obtain ⟨⟨min_d, min_i⟩, hnear⟩ := Option.isSome_iff_exists.mp h
  rw [nearestCluster, hnear]
  exact (nearest_spec hnear).1

theorem nearestCost_le {dot : List F} {c : Centroid F} (h : (nearest r dot cent).isSome)
    (hc : c ∈ cent) : nearestCost r cent dot ≤ distance r c dot := by
  obtain ⟨⟨min_d, min_i⟩, hnear⟩ := Option.isSome_iff_exists.mp h
  rw [nearestCost, hnear]
  exact (nearest_spec hnear).2 c hc

end

/-! ## The clusters -/

section
variable {F : Type} [AddCommMonoid F] {clusterSet : Nat → List Nat} {j : Nat}

/-- Clusters and their rows, each of which has some weight. -/
def weigh (n : Nat) (weight : Nat → Nat → F) (clusterSet : Nat → List Nat) : F :=
  ∑ j ∈ Finset.range n, ((clusterSet j).map (weight j)).sum

theorem weigh_update {n : Nat} (weight : Nat → Nat → F) (hj : j < n) (i : Nat) :
    weigh n weight (Function.update clusterSet j (clusterSet j ++ [i])) =
      weigh n weight clusterSet + weight j i := by
  have hmem : j ∈ Finset.range n := Finset.mem_range.mpr hj
  rw [weigh, weigh, ← Finset.add_sum_erase _ _ hmem, ← Finset.add_sum_erase _ _ hmem]
  have hothers : ∑ k ∈ (Finset.range n).erase j,
      ((Function.update clusterSet j (clusterSet j ++ [i]) k).map (weight k)).sum =
        ∑ k ∈ (Finset.range n).erase j, ((clusterSet k).map (weight k)).sum := by
    refine Finset.sum_congr rfl fun k hk => ?_
    rw [Function.update_of_ne (Finset.ne_of_mem_erase hk)]
  rw [hothers, Function.update_self, List.map_append, List.sum_append, add_right_comm]
  simp

end

section
variable {F : Type} [Field F] [LinearOrder F] [IsStrictOrderedRing F] {r : Exact F}
  {dataVec : List (List F)} {cent cent' : List (Centroid F)} {clusterSet : Nat → List Nat}

theorem clusterRounds_spec : ∀ {rows : List (List F × Nat)} {st st' : F × (Nat → List Nat)},
    rows.foldlM (clusterRound r cent) st = some st' →
      (∀ row ∈ rows, (nearest r row.1 cent).isSome) ∧
        st'.1 = st.1 + (rows.map fun row => nearestCost r cent row.1).sum ∧
        ∀ weight : Nat → Nat → F, weigh cent.length weight st'.2 =
          weigh cent.length weight st.2 +
            (rows.map fun row => weight (nearestCluster r cent row.1) row.2).sum
  | [], st, st', h => by
    obtain rfl := Option.some.inj h
    simp
  | row :: rows, st, st', h => by
    obtain ⟨mid, hround, hrest⟩ := foldlM_cons_some.mp h
    obtain ⟨⟨min_d, min_i⟩, hnear, rfl⟩ := Option.map_eq_some_iff.mp hround
    obtain ⟨hall, hcost, hweigh⟩ := clusterRounds_spec hrest
    have hsome : (nearest r row.1 cent).isSome := by rw [hnear]; rfl
    have hcluster : nearestCluster r cent row.1 = min_i := by rw [nearestCluster, hnear]; rfl
    have hrow : nearestCost r cent row.1 = min_d := by rw [nearestCost, hnear]; rfl
    refine ⟨List.forall_mem_cons.mpr ⟨hsome, hall⟩, ?_, fun weight => ?_⟩
    · rw [hcost, List.map_cons, List.sum_cons, hrow, add_assoc]
    · rw [hweigh weight, weigh_update weight (nearest_spec hnear).1, List.map_cons, List.sum_cons,
        hcluster, add_assoc]

/-- The cost of a round, and what its clusters weigh. -/
theorem cluster_spec {cost : F} (h : cluster r dataVec cent = some (cost, clusterSet)) :
    (∀ row ∈ dataVec.zipIdx, (nearest r row.1 cent).isSome) ∧
      cost = (dataVec.zipIdx.map fun row => nearestCost r cent row.1).sum ∧
      ∀ weight : Nat → Nat → F, weigh cent.length weight clusterSet =
        (dataVec.zipIdx.map fun row => weight (nearestCluster r cent row.1) row.2).sum := by
  obtain ⟨hall, hcost, hweigh⟩ := clusterRounds_spec h
  have hempty : ∀ weight : Nat → Nat → F, weigh cent.length weight (fun _ => []) = 0 := by
    simp [weigh]
  refine ⟨hall, by simpa using hcost, fun weight => ?_⟩
  rw [hweigh weight, hempty, zero_add]

/-- **A round costs at most what the clusters of another round cost at its centroids.** -/
theorem cluster_cost_le {cost cost' : F} {clusterSet' : Nat → List Nat}
    (h : cluster r dataVec cent = some (cost, clusterSet)) (hlen : cent'.length = cent.length)
    (h' : cluster r dataVec cent' = some (cost', clusterSet')) :
    cost' ≤ spread r dataVec cent' clusterSet := by
  obtain ⟨hall, -, hweigh⟩ := cluster_spec h
  obtain ⟨hall', hcost', -⟩ := cluster_spec h'
  have hspread : spread r dataVec cent' clusterSet =
      (dataVec.zipIdx.map fun row =>
        distanceAt r dataVec cent' (nearestCluster r cent row.1) row.2).sum := by
    rw [← hweigh, spread, hlen, weigh]
  rw [hcost', hspread]
  refine List.sum_le_sum fun row hrow => ?_
  have hlt : nearestCluster r cent row.1 < cent'.length := hlen ▸ nearestCluster_lt (hall row hrow)
  have hat : distanceAt r dataVec cent' (nearestCluster r cent row.1) row.2 =
      distance r (cent'.get ⟨nearestCluster r cent row.1, hlt⟩) row.1 := by
    simp [distanceAt, List.mem_zipIdx_iff_getElem?.mp hrow, List.getElem?_eq_getElem hlt]
  rw [hat]
  exact nearestCost_le (hall' row hrow) (List.get_mem _ _)

end

/-! ## The centroids -/

section
variable {F : Type} [Field F] [LinearOrder F] {dataVec : List (List F)} {dimension : Nat}
  {cent cent' : List (Centroid F)} {clusterSet : Nat → List Nat} {j k : Nat}

theorem centRound_eq_some_iff : centRound dataVec dimension clusterSet cent j = some cent' ↔
    (clusterSet j = [] ∧ cent' = cent) ∨ (clusterSet j ≠ [] ∧ ∃ value c,
      (List.range dimension).mapM (mean dataVec (clusterSet j)) = some value ∧
        cent[j]? = some c ∧ dimension ≤ c.dot.length ∧
        cent' = cent.set j ⟨value ++ c.dot.drop dimension, value.countP fun v => v ≠ 0⟩) := by
  rw [centRound]
  by_cases hempty : clusterSet j = []
  · simp [hempty, eq_comm]
  · rw [if_neg hempty]
    constructor
    · intro h
      obtain ⟨value, hvalue, h⟩ := Option.bind_eq_some_iff.mp h
      obtain ⟨c, hc, h⟩ := Option.bind_eq_some_iff.mp h
      split at h
      · cases h
      · exact .inr ⟨hempty, value, c, hvalue, hc, by omega, (Option.some.inj h).symm⟩
    · intro h
      rcases h with ⟨hnil, -⟩ | ⟨-, value, c, hvalue, hc, hlen, rfl⟩
      · exact absurd hnil hempty
      · simp [hvalue, hc, Nat.not_lt.mpr hlen]

theorem centRound_length (h : centRound dataVec dimension clusterSet cent j = some cent') :
    cent'.length = cent.length := by
  rcases centRound_eq_some_iff.mp h with ⟨-, rfl⟩ | ⟨-, value, c, -, -, -, rfl⟩
  · rfl
  · exact List.length_set

/-- The round of a centroid changes nothing. -/
def Settled (dataVec : List (List F)) (dimension : Nat) (clusterSet : Nat → List Nat)
    (cent : List (Centroid F)) (j : Nat) : Prop :=
  centRound dataVec dimension clusterSet cent j = some cent

theorem centRound_settles (h : centRound dataVec dimension clusterSet cent j = some cent') :
    Settled dataVec dimension clusterSet cent' j := by
  refine centRound_eq_some_iff.mpr ?_
  rcases centRound_eq_some_iff.mp h with ⟨hempty, -⟩ | ⟨hrows, value, c, hvalue, hc, hlen, rfl⟩
  · exact .inl ⟨hempty, rfl⟩
  · obtain ⟨hlt, -⟩ := List.getElem?_eq_some_iff.mp hc
    have hvalues : value.length = dimension := by
      rw [← (forall₂_of_mapM hvalue).length_eq, List.length_range]
    refine .inr ⟨hrows, value, _, hvalue, List.getElem?_set_self hlt, by simp [hvalues], ?_⟩
    rw [List.drop_left' hvalues, List.set_set]

/-- It stays settled in the rounds of the others. -/
theorem Settled.centRound (hset : Settled dataVec dimension clusterSet cent k)
    (h : centRound dataVec dimension clusterSet cent j = some cent') :
    Settled dataVec dimension clusterSet cent' k := by
  by_cases hjk : j = k
  · subst hjk
    obtain rfl := Option.some.inj (hset.symm.trans h)
    exact hset
  · rcases centRound_eq_some_iff.mp h with ⟨-, rfl⟩ | ⟨-, value, c, -, -, -, rfl⟩
    · exact hset
    · refine centRound_eq_some_iff.mpr ?_
      rcases centRound_eq_some_iff.mp hset with
        ⟨hempty, -⟩ | ⟨hrows, value', c', hvalue, hc, hlen, hput⟩
      · exact .inl ⟨hempty, rfl⟩
      -- the round of `j` leaves `k` where it is
      · refine .inr ⟨hrows, value', c', hvalue, ?_, hlen, ?_⟩
        · rw [List.getElem?_set_ne hjk, hc]
        · rw [List.set_comm _ _ hjk, ← hput]

/-- After the rounds of some centroids these are settled. -/
theorem centRounds_settle : ∀ {js : List Nat} {cent cent' : List (Centroid F)},
    js.foldlM (centRound dataVec dimension clusterSet) cent = some cent' →
      cent'.length = cent.length ∧
        (∀ k, Settled dataVec dimension clusterSet cent k →
          Settled dataVec dimension clusterSet cent' k) ∧
        ∀ j ∈ js, Settled dataVec dimension clusterSet cent' j
  | [], cent, cent', h => by
    obtain rfl := Option.some.inj h
    simp
  | j :: js, cent, cent', h => by
    obtain ⟨mid, hround, hrest⟩ := foldlM_cons_some.mp h
    obtain ⟨hlen, hkeep, hsettled⟩ := centRounds_settle hrest
    refine ⟨hlen.trans (centRound_length hround), fun k hk => hkeep k (hk.centRound hround), ?_⟩
    exact List.forall_mem_cons.mpr ⟨hkeep j (centRound_settles hround), hsettled⟩

theorem foldlM_settled : ∀ {js : List Nat},
    (∀ j ∈ js, Settled dataVec dimension clusterSet cent j) →
      js.foldlM (centRound dataVec dimension clusterSet) cent = some cent
  | [], _ => rfl
  | j :: js, h => by
    obtain ⟨hj, hjs⟩ := List.forall_mem_cons.mp h
    exact foldlM_cons_some.mpr ⟨cent, hj, foldlM_settled hjs⟩

theorem Cent_length (h : Cent dataVec dimension clusterSet cent = some cent') :
    cent'.length = cent.length := (centRounds_settle h).1

/-- The same clusters move the centroids only once. -/
theorem Cent_again (h : Cent dataVec dimension clusterSet cent = some cent') :
    Cent dataVec dimension clusterSet cent' = some cent' := by
  obtain ⟨hlen, -, hsettled⟩ := centRounds_settle h
  rw [Cent, hlen]
  exact foldlM_settled hsettled

end

/-! ## The rounds -/

section
variable {F : Type} [Field F] [LinearOrder F] [IsStrictOrderedRing F] {r : Exact F}
  {dataVec : List (List F)} {dimension : Nat} {thres : F}

theorem runRound_eq_some_iff {st next : RunState F} {ends : Bool} :
    runRound r dataVec dimension thres st = some (next, ends) ↔
      cluster r dataVec st.cent = some (next.precost, next.clusterSet) ∧
        Cent dataVec dimension next.clusterSet st.cent = some next.cent ∧
        ends = decide (r.GAbs_ next.precost st.precost < thres) := by
  constructor
  · intro h
    obtain ⟨⟨cost, clusterSet⟩, hcluster, h⟩ := Option.bind_eq_some_iff.mp h
    obtain ⟨cent', hcent, h⟩ := Option.bind_eq_some_iff.mp h
    obtain ⟨rfl, rfl⟩ := Prod.mk.inj (Option.some.inj h)
    exact ⟨hcluster, hcent, rfl⟩
  · intro h
    obtain ⟨hcluster, hcent, rfl⟩ := h
    rw [runRound, hcluster, Option.bind_eq_bind, Option.bind_some]
    dsimp only
    rw [hcent, Option.bind_eq_bind, Option.bind_some]

theorem rounds_succ {cent : List (Centroid F)} {k : Nat} {st : RunState F}
    (h : rounds r dataVec dimension thres cent (k + 1) = some st) :
    ∃ prev, rounds r dataVec dimension thres cent k = some prev ∧
      cluster r dataVec prev.cent = some (st.precost, st.clusterSet) ∧
      Cent dataVec dimension st.clusterSet prev.cent = some st.cent := by
  obtain ⟨prev, hprev, h⟩ := Option.bind_eq_some_iff.mp h
  obtain ⟨⟨next, ends⟩, hround, h⟩ := Option.bind_eq_some_iff.mp h
  dsimp only at h
  split at h
  · cases h
  · obtain rfl := Option.some.inj h
    obtain ⟨hcluster, hcent, -⟩ := runRound_eq_some_iff.mp hround
    exact ⟨prev, hprev, hcluster, hcent⟩

/-- **A round costs at most what the clusters of the round before cost at the centroids they
were given; so it costs more than that round only when moving the centroids made the clusters
cost more. Once the clusters are the same the centroids stay, and the next round ends the loop.** -/
theorem round_cost_le (r : Exact F) (dataVec : List (List F)) (dimension : Nat) (thres : F)
    (cent : List (Centroid F)) {k : Nat} {st next : RunState F} {ends : Bool}
    (hst : rounds r dataVec dimension thres cent (k + 1) = some st)
    (hnext : runRound r dataVec dimension thres st = some (next, ends)) :
    next.precost ≤ spread r dataVec st.cent st.clusterSet ∧
      (spread r dataVec st.cent st.clusterSet ≤ st.precost → next.precost ≤ st.precost) ∧
      (next.clusterSet = st.clusterSet → next.cent = st.cent ∧
        (0 < thres → runRound r dataVec dimension thres next = some (next, true))) := by
  obtain ⟨prev, -, hcluster, hmoved⟩ := rounds_succ hst
  obtain ⟨hcluster', hmoved', -⟩ := runRound_eq_some_iff.mp hnext
  have hle := cluster_cost_le hcluster (Cent_length hmoved) hcluster'
  refine ⟨hle, hle.trans, fun hsame => ?_⟩
  have hstay : next.cent = st.cent := by
    rw [hsame, Cent_again hmoved] at hmoved'
    exact (Option.some.inj hmoved').symm
  refine ⟨hstay, fun hthres => runRound_eq_some_iff.mpr ⟨?_, ?_, ?_⟩⟩
  · rw [hstay]
    exact hcluster'
  · rw [hstay] at hmoved' ⊢
    exact hmoved'
  · rw [r.GAbs_self, decide_eq_true hthres]

end

/-- Exact numbers that are quotients. -/
def rationals : Exact ℚ where
  sqrt := Rat.sqrt
  GAbs_ a b := |a - b|
  sqrt_mul_self := Rat.sqrt_eq
  GAbs_self a := by simp

/-- Two rows side by side and one apart. -/
def threeRows : List (List ℚ) := [[1], [1], [4]]

theorem round_cost_le_three : ∃ st next ends,
    rounds rationals threeRows 1 (1 / 10) [⟨[1], 1⟩] 1 = some st ∧
      runRound rationals threeRows 1 (1 / 10) st = some (next, ends) ∧
      next.precost ≤ spread rationals threeRows st.cent st.clusterSet ∧
      (spread rationals threeRows st.cent st.clusterSet ≤ st.precost →
        next.precost ≤ st.precost) ∧
      (next.clusterSet = st.clusterSet → next.cent = st.cent ∧
        ((0 : ℚ) < 1 / 10 →
          runRound rationals threeRows 1 (1 / 10) next = some (next, true))) := by
  have hrun : ((rounds rationals threeRows 1 (1 / 10) [⟨[1], 1⟩] 1).bind
      (runRound rationals threeRows 1 (1 / 10))).isSome := by decide +kernel
  obtain ⟨⟨next, ends⟩, hrun⟩ := Option.isSome_iff_exists.mp hrun
  obtain ⟨st, hst, hnext⟩ := Option.bind_eq_some_iff.mp hrun
  exact ⟨st, next, ends, hst, hnext,
    round_cost_le rationals threeRows 1 (1 / 10) [⟨[1], 1⟩] hst hnext⟩

/-- Three rows in one cluster: the mean is farther away from them together than the first row. -/
theorem neverWorse_fails : ¬ NeverWorse rationals threeRows 1 (1 / 10) := by
  intro h
  have hround : ((rounds rationals threeRows 1 (1 / 10) [⟨[1], 1⟩] 1).bind fun st =>
      (runRound rationals threeRows 1 (1 / 10) st).map fun next =>
        (st.precost, next.1.precost)) = some (3 / 2, 2) := by decide +kernel
  obtain ⟨st, hst, hround⟩ := Option.bind_eq_some_iff.mp hround
  obtain ⟨⟨next, ends⟩, hnext, hcosts⟩ := Option.map_eq_some_iff.mp hround
  obtain ⟨hbefore, hafter⟩ := Prod.mk.inj hcosts
  have hle := h 1 [⟨[1], 1⟩] (by decide +kernel) (by decide +kernel) 0 st next ends hst hnext
  rw [hbefore, hafter] at hle
  exact absurd hle (by decide +kernel)

end CommonTools.Cluster
