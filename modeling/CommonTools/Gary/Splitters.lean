import CommonTools.Gary.GaryString
import CommonTools.Http.ContentBuffer

/-! # The other two splitters

`split_vec` and `split_sam` look for the separator from the left like `StringSplit`, but they
keep positions in an `int`. `split_sam` cuts the text behind each separator and keeps empty
parts. -/
namespace CommonTools.Gary
open CommonTools.Lib CommonTools.Http

/-! ## `split_vec` of `general.cpp` -/

/-- `line.find(blank.c_str(), start)` as the `int` it is stored in. -/
def findFrom (blank line : Bytes) (start : Int) : Int :=
  match find (cstr blank) (line.drop (toSize start)) with
  | none => -1
  | some k => toInt32 (toSize start + k : Nat)

/-- The loop; `none` when `end - start` is no `int` or `substr` throws, or when the loop does
not end. What it leaves in `start` and `vec`. -/
def splitVecLoop (line blank : Bytes) : Nat → Int → List Bytes → Option (Int × List Bytes)
  | 0, _, _ => none
  | fuel + 1, start, vec =>
    let end_ := findFrom blank line start
    if end_ = -1 then some (start, vec)
    else if end_ - start < -2 ^ 31 ∨ INT_MAX < end_ - start ∨ line.length < toSize start then none
    else
      let sub := (line.drop (toSize start)).take (toSize (end_ - start))
      let vec := if sub.length < 1 ∨ sub = blank then vec else vec ++ [cstr sub]
      let start := toInt32 (end_ + blank.length)
      if line.length ≤ toSize start then some (start, vec)
      else splitVecLoop line blank fuel start vec

def splitVecRest (line : Bytes) (start : Int) (vec : List Bytes) : List Bytes :=
  if toSize start < line.length then
    let sub := line.drop (toSize start)
    if 0 < sub.length then vec ++ [cstr sub] else vec
  else vec

/-- `split_vec`: the return value and `vec`. The rounds start at different places of the line. -/
def splitVec (line blank : Bytes) (vec : List Bytes) : Option (Int × List Bytes) :=
  if line.length < 1 then some (-1, vec)
  else
    (splitVecLoop line blank (line.length + 1) 0 vec).map fun (start, vec) =>
      (0, splitVecRest line start vec)

/-! ## `split_sam` of `Index_da.cpp` -/

/-- The loop and the part behind it. -/
def splitSamLoop (blank : Bytes) : Nat → List Bytes → Bytes → Option (List Bytes)
  | 0, _, _ => none
  | fuel + 1, vec, line =>
    let loc := findInt (cstr blank) line
    if loc = -1 then some (vec ++ [line])
    else
      let sub := line.take (toSize loc)
      let start := toInt32 (loc + blank.length)
      if line.length < toSize start then none
      else splitSamLoop blank fuel (vec ++ [sub]) (line.drop (toSize start))

/-- `split_sam`: the return value and `vec`. Every round makes the line shorter. -/
def splitSam (vec : List Bytes) (line blank : Bytes) : Option (Int × List Bytes) :=
  if line.length < 1 then some (0, vec)
  else (splitSamLoop blank (line.length + 1) vec line).map fun vec => (1, vec)

/-! ## What the splitters are to do -/

/-- All three find the same pieces, and the parts of `split_sam` are the text again. -/
def SplittersAgree (s sep : Bytes) : Prop :=
  ∃ pieces parts ret ret', stringSplit s sep = some pieces ∧
    splitVec s sep [] = some (ret, pieces) ∧ splitSam [] s sep = some (ret', parts) ∧
    parts.filter (· ≠ []) = pieces ∧ (s ≠ [] → sep.intercalate parts = s)

/-- From one separator to the end of the next one the text is not longer than an `int` can say. -/
inductive Close (sep : Bytes) : Bytes → Prop
  | none {s : Bytes} : find sep s = none → Close sep s
  | cut {s : Bytes} {k : Nat} : find sep s = some k → (k + sep.length : Int) ≤ INT_MAX →
      Close sep (s.drop (k + sep.length)) → Close sep s

/-- The separators of a text that begins at position `pos` are close, and all of them end at a
position that is an `int`; the first one that does not still begins at one, and nothing but
separators is behind it. -/
inductive InRange (sep : Bytes) : Nat → Bytes → Prop
  | none {pos : Nat} {s : Bytes} : find sep s = none → InRange sep pos s
  | cut {pos : Nat} {s : Bytes} {k : Nat} : find sep s = some k →
      (pos + k + sep.length : Int) ≤ INT_MAX →
      InRange sep (pos + k + sep.length) (s.drop (k + sep.length)) → InRange sep pos s
  | last {pos : Nat} {s : Bytes} {k m : Nat} : find sep s = some k →
      (k + sep.length : Int) ≤ INT_MAX → (pos + k : Int) ≤ INT_MAX →
      INT_MAX < (pos + k + sep.length : Int) →
      s.drop (k + sep.length) = (List.replicate m sep).flatten → InRange sep pos s

/-! ## Positions -/

theorem toSize_natCast {n : Nat} (h : (n : Int) ≤ INT_MAX) : toSize n = n := by
  unfold INT_MAX at h
  rw [toSize]
  omega

theorem toSize_neg {v : Int} (h : v < 0) (hmin : -2 ^ 31 ≤ v) : 2 ^ 63 ≤ toSize v := by
  rw [toSize]
  omega

/-- A sum of two sizes that is no `int` becomes negative, but not -1. -/
theorem toInt32_wrap {v : Int} (h : INT_MAX < v) (hmax : v ≤ 2 * INT_MAX) :
    toInt32 v = v - 2 ^ 32 := by
  unfold INT_MAX at h hmax
  rw [toInt32, Int.bmod_def]
  split <;> omega

/-! ## A round of `split_vec` -/

section
variable {line sep : Bytes} {pos k : Nat}

theorem findFrom_none (hnul : NulFree sep) (hpos : (pos : Int) ≤ INT_MAX)
    (hfind : find sep (line.drop pos) = none) : findFrom sep line pos = -1 := by
  simp [findFrom, hnul, toSize_natCast hpos, hfind]

theorem findFrom_some (hnul : NulFree sep) (hpos : (pos : Int) ≤ INT_MAX)
    (hfind : find sep (line.drop pos) = some k) : findFrom sep line pos = toInt32 (pos + k) := by
  simp [findFrom, hnul, toSize_natCast hpos, hfind]

/-- A separator that begins behind all `int` positions. -/
theorem splitVecLoop_outside (hnul : NulFree sep) (hpos : (pos : Int) ≤ INT_MAX)
    (hfind : find sep (line.drop pos) = some k) (hclose : (k + sep.length : Int) ≤ INT_MAX)
    (hbegin : INT_MAX < (pos + k : Int)) (fuel : Nat) (vec : List Bytes) :
    splitVecLoop line sep (fuel + 1) pos vec = none := by
  have hend : findFrom sep line pos = pos + k - 2 ^ 32 := by
    rw [findFrom_some hnul hpos hfind, toInt32_wrap hbegin (by omega)]
  unfold INT_MAX at hpos hclose
  rw [splitVecLoop, hend, if_neg (by omega), if_pos (.inl (by omega))]

/-- The part in front of the first separator is no separator. -/
theorem take_ne_of_find {t : Bytes} (hne : sep ≠ []) (hfind : find sep t = some k) :
    t.take k ≠ sep := by
  intro heq
  obtain ⟨⟨hle, -⟩, hfirst⟩ := find_eq_some_iff.mp hfind
  have hk : k = sep.length := by rw [← heq, List.length_take_of_le hle]
  have hlen := List.length_pos_iff.mpr hne
  exact hfirst 0 (by omega) (heq ▸ List.take_prefix k t)

theorem push_part {t : Bytes} (ht : NulFree t) (hne : sep ≠ []) (hfind : find sep t = some k)
    (vec : List Bytes) :
    (if (t.take k).length < 1 ∨ t.take k = sep then vec else vec ++ [cstr (t.take k)]) =
      vec ++ [t.take k].filter (· ≠ []) := by
  rw [cstr_eq_self (ht.take k)]
  by_cases hnil : t.take k = []
  · simp [hnil]
  · have hpos := List.length_pos_iff.mpr hnil
    have hpart := take_ne_of_find hne hfind
    rw [if_neg (not_or.mpr ⟨by omega, hpart⟩)]
    simp [hnil]

/-- A separator that begins at an `int` position. -/
theorem splitVecLoop_round (hline : NulFree line) (hnul : NulFree sep) (hne : sep ≠ [])
    (hpos : (pos : Int) ≤ INT_MAX) (hfind : find sep (line.drop pos) = some k)
    (hbegin : (pos + k : Int) ≤ INT_MAX) (fuel : Nat) (vec : List Bytes) :
    splitVecLoop line sep (fuel + 1) pos vec =
      let vec := vec ++ [(line.drop pos).take k].filter (· ≠ [])
      let start := toInt32 (pos + k + sep.length)
      if line.length ≤ toSize start then some (start, vec)
      else splitVecLoop line sep fuel start vec := by
  have hend : findFrom sep line pos = pos + k := by
    rw [findFrom_some hnul hpos hfind, ← Int.natCast_add, toInt32_natCast (by simpa using hbegin)]
  have hle := find_le hfind
  have hlen := List.length_pos_iff.mpr hne
  rw [List.length_drop] at hle
  have hsub : toSize (pos + k - pos) = k := by
    rw [show (pos + k - pos : Int) = k by omega]
    exact toSize_natCast (by omega)
  have hint : ¬ ((pos + k - pos : Int) < -2 ^ 31 ∨ INT_MAX < (pos + k - pos : Int) ∨
      line.length < toSize pos) := by
    rw [toSize_natCast hpos]
    omega
  rw [splitVecLoop, hend, if_neg (by omega), if_neg hint, hsub, toSize_natCast hpos]
  dsimp only
  rw [push_part (hline.drop pos) hne hfind]

end

/-! ## `split_vec` finds the pieces -/

section
variable {line sep : Bytes}

/-- What the loop leaves when it ends at the end of the text or at no position at all. -/
theorem splitVecRest_end {start : Int} (h : line.length ≤ toSize start) (vec : List Bytes) :
    splitVecRest line start vec = vec :=
  if_neg (Nat.not_lt.mpr h)

theorem splitVecRest_part (hline : NulFree line) {pos : Nat} (hpos : (pos : Int) ≤ INT_MAX)
    (vec : List Bytes) :
    splitVecRest line pos vec = vec ++ [line.drop pos].filter (· ≠ []) := by
  rw [splitVecRest, toSize_natCast hpos]
  dsimp only
  rw [cstr_eq_self (hline.drop pos)]
  by_cases hlt : pos < line.length
  · have hne : line.drop pos ≠ [] := by simpa using hlt
    rw [if_pos hlt, if_pos (List.length_pos_iff.mpr hne)]
    simp [hne]
  · have hnil : line.drop pos = [] := List.drop_eq_nil_of_le (Nat.not_lt.mp hlt)
    simp [hlt, hnil]

theorem splitVecLoop_inRange (hline : NulFree line) (hmax : line.length < 2 ^ 63)
    (hnul : NulFree sep) (hne : sep ≠ []) {pos : Nat} {s : Bytes} (h : InRange sep pos s) :
    ∀ (fuel : Nat) (vec : List Bytes), s = line.drop pos → pos ≤ line.length →
      line.length < fuel + pos → (pos : Int) ≤ INT_MAX → ∃ l start vec', Pieces sep s l ∧
        splitVecLoop line sep fuel pos vec = some (start, vec') ∧
        splitVecRest line start vec' = vec ++ l := by
  have hlen := List.length_pos_iff.mpr hne
  induction h with
  | @none pos s hfind =>
    intro fuel vec hs hle hfuel hpos
    subst hs
    obtain ⟨fuel, rfl⟩ := Nat.exists_eq_add_of_lt (show 0 < fuel by omega)
    refine ⟨_, pos, vec, (pieces_of_none hfind).mpr rfl, ?_, splitVecRest_part hline hpos vec⟩
    rw [splitVecLoop, findFrom_none hnul hpos hfind, if_pos rfl]
  | @cut pos s k hfind hend _ ih =>
    intro fuel vec hs hle hfuel hpos
    subst hs
    obtain ⟨fuel, rfl⟩ := Nat.exists_eq_add_of_lt (show 0 < fuel by omega)
    have hin := find_le hfind
    rw [List.length_drop] at hin
    have hstart : toInt32 (pos + k + sep.length) = (pos + k + sep.length : Nat) :=
      toInt32_natCast (by simpa using hend)
    have hround := splitVecLoop_round hline hnul hne hpos hfind (by omega) fuel vec
    rw [Nat.zero_add, hround, hstart]
    dsimp only
    rw [toSize_natCast (by simpa using hend)]
    have hdrop : (line.drop pos).drop (k + sep.length) = line.drop (pos + k + sep.length) := by
      rw [List.drop_drop, Nat.add_assoc]
    by_cases hlast : line.length ≤ pos + k + sep.length
    · have hnil : (line.drop pos).drop (k + sep.length) = [] := by
        rw [hdrop]
        exact List.drop_eq_nil_of_le hlast
      refine ⟨_, _, _, (pieces_iff_of_find hfind).mpr ⟨[], ?_, rfl⟩, if_pos hlast, ?_⟩
      · rw [hnil]
        exact .nil (find_eq_none_of_short hlen)
      · rw [splitVecRest_end, List.append_nil]
        rw [toSize_natCast (by simpa using hend)]
        exact hlast
    · obtain ⟨l, start, vec', hl, hloop, hrest⟩ := ih fuel
        (vec ++ [(line.drop pos).take k].filter (· ≠ [])) hdrop (by omega) (by omega)
        (by simpa using hend)
      refine ⟨_, start, vec', (pieces_iff_of_find hfind).mpr ⟨l, hl, rfl⟩, ?_, ?_⟩
      · rw [if_neg hlast]
        exact hloop
      · rw [hrest, List.append_assoc]
  | @last pos s k m hfind hclose hbegin hend hblank =>
    intro fuel vec hs hle hfuel hpos
    subst hs
    obtain ⟨fuel, rfl⟩ := Nat.exists_eq_add_of_lt (show 0 < fuel by omega)
    have hwrap := toInt32_wrap hend (by omega)
    have hround := splitVecLoop_round hline hnul hne hpos hfind hbegin fuel vec
    have hout : line.length ≤ toSize (toInt32 (pos + k + sep.length)) := by
      rw [hwrap]
      unfold INT_MAX at *
      exact (Nat.le_of_lt hmax).trans (toSize_neg (by omega) (by omega))
    rw [Nat.zero_add, hround]
    refine ⟨_, _, _, (pieces_iff_of_find hfind).mpr ⟨[], ?_, rfl⟩, if_pos hout, ?_⟩
    · exact (pieces_nil_iff hne).mpr ⟨m, hblank⟩
    · rw [splitVecRest_end hout, List.append_nil]

theorem splitVec_inRange (hline : NulFree line) (hmax : line.length < 2 ^ 63)
    (hnul : NulFree sep) (hne : sep ≠ []) (h : InRange sep 0 line) :
    ∃ l ret, Pieces sep line l ∧ splitVec line sep [] = some (ret, l) := by
  by_cases hnil : line = []
  · subst hnil
    exact ⟨[], -1, .nil (find_eq_none_of_short (List.length_pos_iff.mpr hne)), rfl⟩
  · obtain ⟨l, start, vec', hl, hloop, hrest⟩ := splitVecLoop_inRange hline hmax hnul hne h
      (line.length + 1) [] rfl (Nat.zero_le _) (Nat.lt_succ_self _) (by simp [INT_MAX])
    refine ⟨l, 0, hl, ?_⟩
    have hpos := List.length_pos_iff.mpr hnil
    rw [Int.natCast_zero] at hloop
    rw [splitVec, if_neg (by omega), hloop, Option.map_some]
    dsimp only
    rw [hrest, List.nil_append]

end

/-- In a text whose positions are all `int`s the loop ends, also when parts have zero bytes. -/
theorem splitVecLoop_short {line sep : Bytes} (hnul : NulFree sep) (hne : sep ≠ [])
    (hmax : (line.length : Int) ≤ INT_MAX) : ∀ (fuel pos : Nat) (vec : List Bytes),
      line.length < fuel + pos → pos ≤ line.length → (∀ part ∈ vec, part.length ≤ line.length) →
      ∃ start vec', splitVecLoop line sep fuel pos vec = some (start, vec') ∧
        ∀ part ∈ vec', part.length ≤ line.length
  | 0, pos, _, hfuel, hpos, _ => absurd hfuel (by omega)
  | fuel + 1, pos, vec, hfuel, hpos, hvec => by
    have hint : (pos : Int) ≤ INT_MAX := by omega
    rw [splitVecLoop]
    cases hfind : find sep (line.drop pos) with
    | none =>
      rw [findFrom_none hnul hint hfind]
      exact ⟨pos, vec, rfl, hvec⟩
    | some k =>
      have hle := find_le hfind
      have hlen := List.length_pos_iff.mpr hne
      rw [List.length_drop] at hle
      have hend : findFrom sep line pos = (pos + k : Nat) := by
        rw [findFrom_some hnul hint hfind, ← Int.natCast_add, toInt32_natCast (by omega)]
      have hcount : ((pos + k : Nat) : Int) - pos = k := by omega
      have hstart : toInt32 (((pos + k : Nat) : Int) + sep.length) = (pos + k + sep.length : Nat) :=
        toInt32_natCast (by omega)
      have hok : ¬ ((k : Int) < -2 ^ 31 ∨ INT_MAX < (k : Int) ∨ line.length < pos) := by omega
      rw [hend, hcount, hstart]
      simp only [toSize_natCast hint, toSize_natCast (show ((k : Nat) : Int) ≤ INT_MAX by omega),
        toSize_natCast (show ((pos + k + sep.length : Nat) : Int) ≤ INT_MAX by omega)]
      rw [if_neg (by omega), if_neg hok]
      have hnext : ∀ part ∈ (if ((line.drop pos).take k).length < 1 ∨ (line.drop pos).take k = sep
          then vec else vec ++ [cstr ((line.drop pos).take k)]), part.length ≤ line.length := by
        have hsub : (cstr ((line.drop pos).take k)).length ≤ line.length := by
          refine Nat.le_trans (List.takeWhile_prefix _).length_le ?_
          rw [List.length_take, List.length_drop]
          omega
        split
        · exact hvec
        · intro part hpart
          rcases List.mem_append.mp hpart with hpart | hpart
          · exact hvec part hpart
          · rwa [List.mem_singleton.mp hpart]
      split
      · exact ⟨_, _, rfl, hnext⟩
      · exact splitVecLoop_short hnul hne hmax fuel _ _ (by omega) (by omega) hnext

/-- In such a text `split_vec` returns, and no part is longer than the text. -/
theorem splitVec_short {line sep : Bytes} (hnul : NulFree sep) (hne : sep ≠ [])
    (hmax : (line.length : Int) ≤ INT_MAX) :
    ∃ ret vec, splitVec line sep [] = some (ret, vec) ∧
      ∀ part ∈ vec, part.length ≤ line.length := by
  rw [splitVec]
  split
  · exact ⟨-1, [], rfl, by simp⟩
  · obtain ⟨start, vec, hloop, hvec⟩ := splitVecLoop_short hnul hne hmax (line.length + 1) 0 []
      (by omega) (Nat.zero_le _) (by simp)
    rw [Int.natCast_zero] at hloop
    refine ⟨0, splitVecRest line start vec, by rw [hloop]; rfl, ?_⟩
    rw [splitVecRest]
    split
    · dsimp only
      split
      · intro part hpart
        rcases List.mem_append.mp hpart with hpart | hpart
        · exact hvec part hpart
        · rw [List.mem_singleton.mp hpart]
          refine Nat.le_trans (List.takeWhile_prefix _).length_le ?_
          rw [List.length_drop]
          omega
      · exact hvec
    · exact hvec

/-- Pieces that `split_vec` finds stand where it can find them. -/
theorem inRange_of_splitVecLoop {line sep : Bytes} (hline : NulFree line)
    (hmax : line.length < 2 ^ 63) (hnul : NulFree sep) (hne : sep ≠ []) {s : Bytes}
    (h : Close sep s) :
    ∀ (fuel pos : Nat) (vec l : List Bytes) (start : Int) (vec' : List Bytes),
      s = line.drop pos → (pos : Int) ≤ INT_MAX →
      splitVecLoop line sep fuel pos vec = some (start, vec') →
      splitVecRest line start vec' = vec ++ l → Pieces sep s l → InRange sep pos s := by
  have hlen := List.length_pos_iff.mpr hne
  induction h with
  | none hfind =>
    intro _ _ _ _ _ _ _ _ _ _ _
    exact .none hfind
  | @cut s k hfind hclose _ ih =>
    intro fuel pos vec l start vec' hs hpos hloop hrest hl
    subst hs
    obtain ⟨l', hl', rfl⟩ := (pieces_iff_of_find hfind).mp hl
    cases fuel with
    | zero => cases hloop
    | succ fuel =>
      by_cases hbegin : INT_MAX < (pos + k : Int)
      · rw [splitVecLoop_outside hnul hpos hfind hclose hbegin] at hloop
        cases hloop
      · have hbegin := Int.not_lt.mp hbegin
        rw [splitVecLoop_round hline hnul hne hpos hfind hbegin] at hloop
        dsimp only at hloop
        have hdrop : (line.drop pos).drop (k + sep.length) = line.drop (pos + k + sep.length) := by
          rw [List.drop_drop, Nat.add_assoc]
        by_cases hend : (pos + k + sep.length : Int) ≤ INT_MAX
        · have hstart : toInt32 (pos + k + sep.length) = (pos + k + sep.length : Nat) :=
            toInt32_natCast (by simpa using hend)
          refine .cut hfind hend ?_
          rw [hstart, toSize_natCast (by simpa using hend)] at hloop
          by_cases hlast : line.length ≤ pos + k + sep.length
          · rw [hdrop, List.drop_eq_nil_of_le hlast]
            exact .none (find_eq_none_of_short hlen)
          · rw [if_neg hlast] at hloop
            exact ih fuel _ _ l' start vec' hdrop (by simpa using hend) hloop
              (by rw [hrest, List.append_assoc]) hl'
        · have hend := Int.not_le.mp hend
          have hout : line.length ≤ toSize (toInt32 (pos + k + sep.length)) := by
            rw [toInt32_wrap hend (by omega)]
            unfold INT_MAX at *
            exact (Nat.le_of_lt hmax).trans (toSize_neg (by omega) (by omega))
          rw [if_pos hout] at hloop
          obtain ⟨rfl, rfl⟩ := Prod.mk.inj (Option.some.inj hloop)
          rw [splitVecRest_end hout, List.append_cancel_left_eq] at hrest
          obtain rfl := List.self_eq_append_right.mp hrest
          obtain ⟨m, hm⟩ := (pieces_nil_iff hne).mp hl'
          exact .last hfind hclose hbegin hend hm

/-! ## `split_sam` finds the parts -/

section
variable {sep : Bytes}

theorem close_replicate (hne : sep ≠ []) (hsize : (sep.length : Int) ≤ INT_MAX) (m : Nat) :
    Close sep (List.replicate m sep).flatten := by
  induction m with
  | zero => exact .none (find_eq_none_of_short (List.length_pos_iff.mpr hne))
  | succ m ih =>
    have hfind : find sep (List.replicate (m + 1) sep).flatten = some 0 := by
      rw [List.replicate_succ, List.flatten_cons]
      exact find_eq_some_iff.mpr ⟨⟨Nat.zero_le _, List.prefix_append _ _⟩,
        fun j hj => absurd hj (Nat.not_lt_zero j)⟩
    refine .cut hfind (by simpa using hsize) ?_
    rw [List.replicate_succ, List.flatten_cons, Nat.zero_add, List.drop_left]
    exact ih

theorem InRange.close (hne : sep ≠ []) {pos : Nat} {s : Bytes} (h : InRange sep pos s) :
    Close sep s := by
  induction h with
  | none hfind => exact .none hfind
  | cut hfind hend _ ih => exact .cut hfind (by omega) ih
  | @last pos s k m hfind hclose _ _ hblank =>
    refine .cut hfind hclose ?_
    rw [hblank]
    exact close_replicate hne (by omega) m

theorem splitSamLoop_close (hnul : NulFree sep) (hne : sep ≠ []) {s : Bytes} (h : Close sep s) :
    ∀ (fuel : Nat) (vec : List Bytes), s.length < fuel →
      ∃ l, Cuts sep s l ∧ splitSamLoop sep fuel vec s = some (vec ++ l) := by
  have hlen := List.length_pos_iff.mpr hne
  induction h with
  | @none s hfind =>
    intro fuel vec hfuel
    obtain ⟨fuel, rfl⟩ := Nat.exists_eq_add_of_lt hfuel
    refine ⟨[s], .last hfind, ?_⟩
    simp [splitSamLoop, findInt, hnul, hfind]
  | @cut s k hfind hclose _ ih =>
    intro fuel vec hfuel
    obtain ⟨fuel, rfl⟩ := Nat.exists_eq_add_of_lt (Nat.zero_lt_of_lt hfuel)
    have hin := find_le hfind
    have hloc : findInt sep s = k := findInt_some hfind (by omega)
    have hstart : toInt32 (k + sep.length) = (k + sep.length : Nat) :=
      toInt32_natCast (by simpa using hclose)
    have hk : (k : Int) ≤ INT_MAX := by omega
    obtain ⟨l, hl, hloop⟩ := ih fuel (vec ++ [s.take k]) (by rw [List.length_drop]; omega)
    refine ⟨s.take k :: l, .cut hfind hl, ?_⟩
    rw [Nat.zero_add, splitSamLoop, cstr_eq_self hnul, hloc]
    dsimp only
    rw [if_neg (by omega), hstart, toSize_natCast hk, toSize_natCast (by simpa using hclose),
      if_neg (by omega), hloop, List.append_assoc, List.singleton_append]

theorem splitSam_close (hnul : NulFree sep) (hne : sep ≠ []) {s : Bytes} (h : Close sep s)
    (hs : s ≠ []) : ∃ l, Cuts sep s l ∧ splitSam [] s sep = some (1, l) := by
  obtain ⟨l, hl, hloop⟩ := splitSamLoop_close hnul hne h (s.length + 1) [] (Nat.lt_succ_self _)
  have hpos := List.length_pos_iff.mpr hs
  refine ⟨l, hl, ?_⟩
  rw [splitSam, if_neg (by omega), hloop]
  rfl

/-! ## What the joined parts of `split_sam` say -/

/-- What `vec` holds before stays in front. -/
theorem splitSamLoop_append (blank : Bytes) : ∀ (fuel : Nat) (vec : List Bytes) (line : Bytes),
    splitSamLoop blank fuel vec line = (splitSamLoop blank fuel [] line).map (vec ++ ·)
  | 0, _, _ => rfl
  | fuel + 1, vec, line => by
    unfold splitSamLoop
    dsimp only
    split
    · rfl
    · split
      · rfl
      · rw [splitSamLoop_append blank fuel (vec ++ _), splitSamLoop_append blank fuel ([] ++ _),
          Option.map_map]
        congr 1
        funext l
        simp

/-- One round, seen from the parts that come out. -/
theorem splitSamLoop_parts (hnul : NulFree sep) {fuel : Nat} {line : Bytes} {out : List Bytes}
    (h : splitSamLoop sep (fuel + 1) [] line = some out) :
    (findInt sep line = -1 ∧ out = [line]) ∨
      ∃ out', findInt sep line ≠ -1 ∧
        toSize (toInt32 (findInt sep line + sep.length)) ≤ line.length ∧
        out = line.take (toSize (findInt sep line)) :: out' ∧
        splitSamLoop sep fuel []
          (line.drop (toSize (toInt32 (findInt sep line + sep.length)))) = some out' := by
  rw [splitSamLoop, cstr_eq_self hnul] at h
  dsimp only at h
  split at h
  · rename_i hnone
    exact .inl ⟨hnone, (Option.some.inj h).symm⟩
  · rename_i hsome
    split at h
    · cases h
    · rename_i hin
      rw [splitSamLoop_append, Option.map_eq_some_iff] at h
      obtain ⟨out', hout', rfl⟩ := h
      exact .inr ⟨out', hsome, Nat.not_lt.mp hin, rfl, hout'⟩

theorem splitSamLoop_ne_nil (hnul : NulFree sep) {fuel : Nat} {line : Bytes} {out : List Bytes}
    (h : splitSamLoop sep fuel [] line = some out) : out ≠ [] := by
  cases fuel with
  | zero => cases h
  | succ fuel =>
    rcases splitSamLoop_parts hnul h with ⟨-, rfl⟩ | ⟨out', -, -, rfl, -⟩ <;> simp

/-- A position that is not negative as an `int` is not greater than before. -/
theorem toSize_toInt32_le {v : Int} {n : Nat} (hsmall : toSize (toInt32 (v + n)) < 2 ^ 63) :
    toSize (toInt32 (v + n)) ≤ toSize v + n ∧ (toSize (toInt32 (v + n)) : Int) ≤ INT_MAX := by
  obtain ⟨w, hw⟩ : ∃ w, toInt32 (v + n) = w := ⟨_, rfl⟩
  have hle := toInt32_le (v + n)
  rw [hw] at hle hsmall ⊢
  rw [toInt32, Int.bmod_def] at hw
  unfold toSize INT_MAX at *
  split at hw <;> omega

/-- The joined parts are not shorter than the text. -/
theorem length_le_intercalate (hnul : NulFree sep) : ∀ (fuel : Nat) (line : Bytes)
    (out : List Bytes), line.length < 2 ^ 63 → splitSamLoop sep fuel [] line = some out →
      line.length ≤ (sep.intercalate out).length := by
  intro fuel
  induction fuel with
  | zero =>
    intro _ _ _ h
    cases h
  | succ fuel ih =>
    intro line out hmax h
    rcases splitSamLoop_parts hnul h with ⟨-, rfl⟩ | ⟨out', -, hin, rfl, hout'⟩
    · rw [List.intercalate_singleton]
    · have hrest := ih _ out' (by rw [List.length_drop]; omega) hout'
      obtain ⟨hle, -⟩ := toSize_toInt32_le (Nat.lt_of_le_of_lt hin hmax)
      rw [List.intercalate_cons_of_ne_nil (splitSamLoop_ne_nil hnul hout'), List.length_append,
        List.length_append, List.length_take]
      rw [List.length_drop] at hrest
      omega

/-- When the joined parts are the text, a round cuts at the first separator or does not cut. -/
theorem splitSamLoop_joined (hnul : NulFree sep) (hne : sep ≠ []) {fuel : Nat} {line : Bytes}
    {out : List Bytes} (hmax : line.length < 2 ^ 63)
    (h : splitSamLoop sep (fuel + 1) [] line = some out) (hjoin : sep.intercalate out = line) :
    (findInt sep line = -1 ∧ out = [line]) ∨
      ∃ k out', find sep line = some k ∧ (k + sep.length : Int) ≤ INT_MAX ∧
        out = line.take k :: out' ∧
        splitSamLoop sep fuel [] (line.drop (k + sep.length)) = some out' ∧
        sep.intercalate out' = line.drop (k + sep.length) := by
  rcases splitSamLoop_parts hnul h with hnone | ⟨out', hsome, hin, rfl, hout'⟩
  · exact .inl hnone
  · refine .inr ?_
    have hpos := List.length_pos_iff.mpr hne
    have hrest := length_le_intercalate hnul fuel _ out' (by rw [List.length_drop]; omega) hout'
    obtain ⟨hle, hmaxint⟩ := toSize_toInt32_le (Nat.lt_of_le_of_lt hin hmax)
    rw [List.intercalate_cons_of_ne_nil (splitSamLoop_ne_nil hnul hout'),
      List.append_assoc] at hjoin
    have hlen := congrArg List.length hjoin
    rw [List.length_append, List.length_append, List.length_take] at hlen
    rw [List.length_drop] at hrest
    -- nothing is longer than it has to be, so the next round starts behind the separator
    have hstart : toSize (toInt32 (findInt sep line + sep.length)) =
        toSize (findInt sep line) + sep.length := by omega
    have hq : toSize (findInt sep line) ≤ line.length := by omega
    rw [hstart] at hmaxint hout'
    generalize hloc : toSize (findInt sep line) = q at hjoin hstart hq hmaxint hout'
    have hdrop : line.drop q = sep ++ sep.intercalate out' := by
      exact (congrArg (List.drop q) hjoin).symm.trans
        (List.drop_left' (List.length_take_of_le hq))
    cases hfind : find sep line with
    | none => simp [findInt, hfind] at hsome
    | some k =>
      have hkq : k ≤ q := by
        by_contra hlt
        exact (find_eq_some_iff.mp hfind).2 q (by omega) (hdrop ▸ List.prefix_append _ _)
      have hk : findInt sep line = k := findInt_some hfind (by omega)
      rw [hk, toSize_natCast (by omega)] at hloc
      subst hloc
      refine ⟨k, out', rfl, by simpa using hmaxint, rfl, hout', ?_⟩
      rw [← List.drop_drop, hdrop, List.drop_left]

/-- A separator that is found but stored as -1 is not at the beginning, and the text does not end
with it left in. -/
theorem stray_part {line : Bytes} {k : Nat} {l : List Bytes} (hne : sep ≠ [])
    (hfind : find sep line = some k) (hstray : findInt sep line = -1) :
    [line.take k].filter (· ≠ []) ++ l ≠ [line].filter (· ≠ []) := by
  have hpos := List.length_pos_iff.mpr hne
  have hle := find_le hfind
  have hk : k ≠ 0 := by
    intro hk
    rw [findInt, hfind, hk] at hstray
    exact absurd hstray (by decide)
  have hline : line ≠ [] := List.length_pos_iff.mp (by omega)
  have htake : line.take k ≠ [] := by simp [hk, hline]
  intro heq
  have heq : line.take k :: l = [line] := by simpa [hline, hk] using heq
  have hlen := congrArg List.length (List.head_eq_of_cons_eq heq)
  rw [List.length_take] at hlen
  omega

/-- Parts that are the text again and hold the pieces come from separators that are close. -/
theorem close_of_splitSamLoop (hnul : NulFree sep) (hne : sep ≠ []) : ∀ (fuel : Nat)
    (line : Bytes) (out : List Bytes), line.length < 2 ^ 63 →
      splitSamLoop sep fuel [] line = some out → sep.intercalate out = line →
      Pieces sep line (out.filter (· ≠ [])) → Close sep line := by
  intro fuel
  induction fuel with
  | zero =>
    intro _ _ _ h
    cases h
  | succ fuel ih =>
    intro line out hmax h hjoin hpieces
    rcases splitSamLoop_joined hnul hne hmax h hjoin with
      ⟨hstray, rfl⟩ | ⟨k, out', hfind, hclose, rfl, hout', hjoin'⟩
    · cases hfind : find sep line with
      | none => exact .none hfind
      | some k =>
        obtain ⟨l', -, hl'⟩ := (pieces_iff_of_find hfind).mp hpieces
        exact absurd hl'.symm (stray_part hne hfind hstray)
    · obtain ⟨l', hl', hfilter⟩ := (pieces_iff_of_find hfind).mp hpieces
      refine .cut hfind hclose (ih _ out' (by rw [List.length_drop]; omega) hout' hjoin' ?_)
      rw [← List.singleton_append, List.filter_append, List.append_cancel_left_eq] at hfilter
      exact hfilter ▸ hl'

end

/-! ## `StringSplit` with any separator -/

section
variable {s sep : Bytes}

theorem splitLoop_pushed {strItem splitWord : Bytes} : ∀ (fuel posFindBegin : Nat)
    (vectRes l : List Bytes), splitLoop strItem splitWord fuel posFindBegin vectRes = some l →
      vectRes <+: l := by
  intro fuel
  induction fuel with
  | zero =>
    intro _ _ _ h
    cases h
  | succ fuel ih =>
    intro posFindBegin vectRes l h
    unfold splitLoop at h
    split at h
    · obtain rfl := Option.some.inj h
      split
      · exact List.prefix_append _ _
      · exact List.prefix_rfl
    · have hpre := ih _ _ _ h
      split at hpre
      · exact (List.prefix_append _ _).trans hpre
      · exact hpre

/-- What stands in front of the first separator is the first piece. -/
theorem stringSplit_first {k : Nat} {l : List Bytes} (hfind : find sep s = some k)
    (h : stringSplit s sep = some l) : ∃ l', l = [s.take k].filter (· ≠ []) ++ l' := by
  rw [stringSplit, splitLoop, List.drop_zero, hfind] at h
  dsimp only at h
  rw [Nat.zero_add, Nat.sub_zero] at h
  obtain ⟨l', rfl⟩ := splitLoop_pushed _ _ _ _ h
  refine ⟨l', ?_⟩
  by_cases hk : k = 0
  · simp [hk]
  · have hle := find_le hfind
    have hpart : s.take k ≠ [] := by
      rw [← List.length_pos_iff, List.length_take]
      omega
    rw [if_pos hk, List.filter_cons_of_pos (by simpa using hpart)]
    rfl

/-- Without a separator the text is the only piece. -/
theorem stringSplit_none (hfind : find sep s = none) :
    stringSplit s sep = some ([s].filter (· ≠ [])) := by
  rw [stringSplit, splitLoop, List.drop_zero, hfind]
  by_cases hnil : s = []
  · simp [hnil]
  · have hpos := List.length_pos_iff.mpr hnil
    simp [hnil, hpos]

end

/-! ## When the splitters agree -/

section
variable {s sep : Bytes}

/-- A separator in range is shorter than `2^31` bytes, if it is found at all. -/
theorem Close.size (h : Close sep s) : find sep s = Option.none ∨ sep.length < 2 ^ 32 := by
  cases h with
  | none hfind => exact .inl hfind
  | cut hfind hclose _ =>
    unfold INT_MAX at hclose
    exact .inr (by omega)

theorem stringSplit_close (hne : sep ≠ []) (h : Close sep s) :
    ∃ l, Pieces sep s l ∧ stringSplit s sep = some l := by
  rcases h.size with hfind | hsize
  · exact ⟨_, (pieces_of_none hfind).mpr rfl, stringSplit_none hfind⟩
  · exact stringSplit_pieces hne hsize

theorem splittersAgree_of_inRange (hs : NulFree s) (hmax : s.length < 2 ^ 63)
    (hnul : NulFree sep) (hne : sep ≠ []) (h : InRange sep 0 s) : SplittersAgree s sep := by
  obtain ⟨pieces, hpieces, hsplit⟩ := stringSplit_close hne (h.close hne)
  obtain ⟨l, ret, hl, hvec⟩ := splitVec_inRange hs hmax hnul hne h
  obtain rfl := hl.unique hpieces
  by_cases hnil : s = []
  · subst hnil
    obtain rfl := hl.unique (.nil (find_eq_none_of_short (List.length_pos_iff.mpr hne)))
    exact ⟨[], [], ret, 0, hsplit, hvec, rfl, rfl, fun h => absurd rfl h⟩
  · obtain ⟨parts, hparts, hsam⟩ := splitSam_close hnul hne (h.close hne) hnil
    exact ⟨l, parts, ret, 1, hsplit, hvec, hsam, hparts.pieces.unique hl,
      fun _ => hparts.intercalate⟩

/-- The parts that `split_sam` joins to the text cut it at separators that are close. -/
theorem SplittersAgree.close (hmax : s.length < 2 ^ 63) (hnul : NulFree sep) (hne : sep ≠ [])
    (hnil : s ≠ []) (h : SplittersAgree s sep) : Close sep s := by
  obtain ⟨pieces, parts, -, ret', hsplit, -, hsam, rfl, hjoin⟩ := h
  have hpos := List.length_pos_iff.mpr hnil
  rw [splitSam, if_neg (by omega), Option.map_eq_some_iff] at hsam
  obtain ⟨parts', hloop, hsam⟩ := hsam
  obtain ⟨-, rfl⟩ := Prod.mk.inj hsam
  by_cases hsize : sep.length < 2 ^ 32
  · exact close_of_splitSamLoop hnul hne _ s parts' hmax hloop (hjoin hnil)
      ((stringSplit_eq_some_iff hne hsize).mp hsplit)
  · cases hfind : find sep s with
    | none => exact .none hfind
    | some k =>
      obtain ⟨l', hl'⟩ := stringSplit_first hfind hsplit
      rcases splitSamLoop_joined hnul hne hmax hloop (hjoin hnil) with
        ⟨hstray, rfl⟩ | ⟨k, out', -, hclose, -⟩
      · exact absurd hl'.symm (stray_part hne hfind hstray)
      · unfold INT_MAX at hclose
        exact absurd hclose (by omega)

/-- **The splitters agree exactly when the separators stand in the range of an `int`.** -/
theorem splittersAgree_iff (hs : NulFree s) (hmax : s.length < 2 ^ 63) (hnul : NulFree sep)
    (hne : sep ≠ []) : SplittersAgree s sep ↔ InRange sep 0 s := by
  refine ⟨fun h => ?_, splittersAgree_of_inRange hs hmax hnul hne⟩
  by_cases hnil : s = []
  · subst hnil
    exact .none (find_eq_none_of_short (List.length_pos_iff.mpr hne))
  · have hclose := h.close hmax hnul hne hnil
    obtain ⟨pieces, parts, ret, ret', hsplit, hvec, -⟩ := h
    obtain ⟨l, hl, hsplit'⟩ := stringSplit_close hne hclose
    obtain rfl := Option.some.inj (hsplit'.symm.trans hsplit)
    have hpos := List.length_pos_iff.mpr hnil
    rw [splitVec, if_neg (by omega), Option.map_eq_some_iff] at hvec
    obtain ⟨⟨start, vec'⟩, hloop, hret⟩ := hvec
    exact inRange_of_splitVecLoop hs hmax hnul hne hclose _ 0 [] l start vec' rfl
      (by simp [INT_MAX]) hloop (Prod.mk.inj hret).2 hl

theorem inRange_of_length (sep : Bytes) {pos : Nat} (hne : sep ≠ [])
    (hmax : (pos + s.length : Int) ≤ INT_MAX) : InRange sep pos s := by
  have hlen := List.length_pos_iff.mpr hne
  induction hsize : s.length using Nat.strong_induction_on generalizing pos s with
  | _ n ih =>
    subst hsize
    cases hfind : find sep s with
    | none => exact .none hfind
    | some k =>
      have hle := find_le hfind
      refine .cut hfind (by omega) (ih _ ?_ ?_ rfl)
      · rw [List.length_drop]
        omega
      · rw [List.length_drop]
        push_cast
        omega

end

theorem splittersAgree_iff_two :
    SplittersAgree [97, 44, 44, 98] [44] ↔ InRange [44] 0 [97, 44, 44, 98] :=
  splittersAgree_iff (by simp [NulFree]) (by simp) (by simp [NulFree]) (by simp)

/-- A first separator at position `2^31`: the next round would start at a negative position. -/
theorem splitSam_throws {a : Bytes} (ha : (44 : UInt8) ∉ a) (hlen : a.length = 2 ^ 31) :
    splitSam [] (a ++ 44 :: [98]) [44] = none := by
  have hline : (a ++ 44 :: [98]).length = 2 ^ 31 + 2 := by rw [List.length_append, hlen]; rfl
  have hloc : findInt [44] (a ++ 44 :: [98]) = -2 ^ 31 := by
    rw [findInt, find_singleton ha, hlen]
    rfl
  have hstart : toSize (toInt32 (-2 ^ 31 + ([44] : Bytes).length)) = 2 ^ 64 - 2 ^ 31 + 1 := rfl
  rw [splitSam, if_neg (by omega), splitSamLoop, cstr_eq_self (by simp [NulFree])]
  dsimp only
  rw [hloc, hstart, hline, if_neg (by simp), if_pos (by simp)]
  rfl

/-- With a comma behind `2^31` letters the splitters do not agree. -/
theorem splitters_long : ¬ SplittersAgree (List.replicate (2 ^ 31) 97 ++ 44 :: [98]) [44] := by
  intro h
  obtain ⟨_, _, _, _, -, -, hsam, -⟩ := h
  have ha : (44 : UInt8) ∉ List.replicate (2 ^ 31) 97 := by
    intro hin
    exact absurd (List.eq_of_mem_replicate hin) (by simp)
  rw [splitSam_throws ha List.length_replicate] at hsam
  cases hsam

end CommonTools.Gary
