import CommonTools.Lib.CString
import CommonTools.Lib.StableInsert

/-! # The search for places near a point

`GetLocationResult` takes the stored entries one after another. An entry below the limit
goes in front of the first one that is farther away; its distance goes to the same place of
a second vector. -/
namespace CommonTools.Locate
open CommonTools.Lib

/-- `C` is the type of the coordinates, which the source keeps as `long double`. -/
structure ResultData (C : Type) where
  longitude : C
  latitude : C
  lng : Bytes
  lat : Bytes
  title : Bytes
  url : Bytes
  source : Bytes
  datatime : Bytes

section
variable {C K : Type} [LinearOrder K]

/-- The round of the loop in `GetLocationResult` for an entry below the limit: its distance
and the entry go to the same index of both vectors. -/
def locateInsert (tmpDis : K) (it : ResultData C) (vecDistance : List K)
    (locateResult : List (ResultData C)) : List K × List (ResultData C) :=
  let vit := vecDistance.findIdx fun d => tmpDis < d
  if vit = vecDistance.length then (vecDistance ++ [tmpDis], locateResult ++ [it])
  else (vecDistance.insertIdx vit tmpDis, locateResult.insertIdx vit it)

def locateLoop (dis : ResultData C → K) (distance : K) :
    List (ResultData C) → List K → List (ResultData C) → List (ResultData C)
  | [], _, locateResult => locateResult
  | it :: rest, vecDistance, locateResult =>
    if distance ≤ dis it then locateLoop dis distance rest vecDistance locateResult
    else
      let (vecDistance, locateResult) := locateInsert (dis it) it vecDistance locateResult
      locateLoop dis distance rest vecDistance locateResult

/-- `GetLocationResult`: the return value and what `locateResult` holds afterwards. -/
def getLocationResult (getDistance : C → C → C → C → K) (locateInfoALL : List (ResultData C))
    (longitude latitude : C) (locateResult : List (ResultData C)) (distance : K) :
    Bool × List (ResultData C) :=
  let dis := fun it => getDistance latitude longitude it.latitude it.longitude
  (true, locateLoop dis distance locateInfoALL [] locateResult)

variable {dis : ResultData C → K}

/-- Both vectors grow by the same insertion. -/
theorem locateInsert_eq (it : ResultData C) (locateResult : List (ResultData C)) :
    locateInsert (dis it) it (locateResult.map dis) locateResult =
      ((insertBehind dis it locateResult).map dis, insertBehind dis it locateResult) := by
  unfold locateInsert
  by_cases hend : (locateResult.map dis).findIdx (fun d => dis it < d) =
      (locateResult.map dis).length
  · have hall : insertBehind dis it locateResult = locateResult ++ [it] :=
      insertBehind_of_all (hend.trans (List.length_map dis))
    simp [hend, hall]
  · simp only [if_neg hend, insertIdx_findIdx, map_insertBehind]

/-- The vectors hold the entries seen so far that are below the limit. -/
theorem locateLoop_sorted (distance : K) (seen : List (ResultData C)) :
    ∀ (rest : List (ResultData C)) {locateResult : List (ResultData C)},
      StableSort dis (seen.filter (dis · < distance)) locateResult →
      StableSort dis ((seen ++ rest).filter (dis · < distance))
        (locateLoop dis distance rest (locateResult.map dis) locateResult) := by
  intro rest
  induction rest generalizing seen with
  | nil =>
    intro locateResult h
    simpa [locateLoop] using h
  | cons it rest ih =>
    intro locateResult h
    rw [← List.singleton_append, ← List.append_assoc, List.singleton_append, locateLoop]
    by_cases hfar : distance ≤ dis it
    · rw [if_pos hfar]
      refine ih _ ?_
      simpa [List.filter_append, hfar] using h
    · rw [if_neg hfar, locateInsert_eq]
      refine ih _ ?_
      have hnear : dis it < distance := not_le.mp hfar
      simpa [List.filter_append, hnear] using h.insertBehind it

/-- **The result is the stable sort of the entries below the limit.** -/
theorem getLocationResult_sorted (getDistance : C → C → C → C → K)
    (locateInfoALL : List (ResultData C)) (longitude latitude : C) (distance : K) :
    let dis := fun it : ResultData C => getDistance latitude longitude it.latitude it.longitude
    ∃ locateResult,
      getLocationResult getDistance locateInfoALL longitude latitude [] distance =
        (true, locateResult) ∧
      StableSort dis (locateInfoALL.filter (dis · < distance)) locateResult :=
  ⟨_, rfl, locateLoop_sorted distance [] locateInfoALL .nil⟩

end

end CommonTools.Locate
