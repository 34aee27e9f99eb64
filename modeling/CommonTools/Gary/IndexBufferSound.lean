import CommonTools.Gary.IndexBuffer
import CommonTools.Gary.PriorSortSound
import CommonTools.Gary.QuickSortStack
import CommonTools.Lib.Runs

/-! # Where `Heapify` uses its index buffer

The stack of `Heapify` never holds more than one place, so the only entry it uses is
the one at which it starts: the place of the value that is put in order. -/
namespace CommonTools.Gary
open CommonTools.Lib

variable {T : Type} [LinearOrder T]

theorem sortArray_short (pBuf : List T) {n : Nat} (hn : n ≤ pBuf.length) (hshort : n ≤ 106) :
    ∃ pBuf', sortArray pBuf 0 (n - 1) = some pBuf' ∧ pBuf'.length = pBuf.length ∧
      (pBuf'.take n).Perm (pBuf.take n) ∧ (pBuf'.take n).Pairwise (· ≤ ·) := by
  cases pBuf with
  | nil =>
    obtain rfl : n = 0 := by simpa using hn
    exact ⟨[], rfl, rfl, .refl _, .nil⟩
  | cons d row =>
    obtain ⟨memory, hmemory⟩ : ∃ memory : Int → T,
      memory = fun i => (d :: row).getD i.toNat d := ⟨_, rfl⟩
    obtain ⟨memory', heq, hrearr, hsorted⟩ := quickSortAsc_short (Int.le_refl 0)
      (by omega : (n : Int) - 1 < 2 ^ 30 + 8) (by omega) memory
    have htake : (d :: row).take n = (List.range n).map fun i : Nat => memory i := by
      refine List.ext_getElem (by simpa using hn) fun i hi _ => ?_
      have hlt : i < (d :: row).length := by simp only [List.length_take] at hi; omega
      rw [List.getElem_take, List.getElem_map, List.getElem_range, hmemory]
      dsimp only
      rw [List.getD_eq_getElem?_getD, Int.toNat_natCast, List.getElem?_eq_getElem hlt]
      rfl
    have htake' : ((List.range (d :: row).length).map fun i : Nat => memory' i).take n =
        (List.range n).map fun i : Nat => memory' i := by
      rw [← List.map_take, List.take_range, min_eq_left hn]
    refine ⟨(List.range (d :: row).length).map fun i : Nat => memory' i, ?_, ?_, ?_, ?_⟩
    · rw [sortArray, if_pos (.inr ⟨Int.le_refl 0, by omega⟩), ← hmemory, heq]
      rfl
    · rw [List.length_map, List.length_range]
    · rw [htake, htake']
      exact hrearr.perm
    · rw [htake', List.pairwise_map]
      refine List.pairwise_lt_range.imp_of_mem fun _ hj hij => ?_
      exact hsorted _ _ (by omega) (by omega) (by have := List.mem_range.mp hj; omega)

namespace IndexedSort

/-! ## One call of `Heapify` -/

/-- Going on after something that may have no meaning. -/
theorem orFault_bind_map {α β γ : Type} (o : Option α) {f : α → Except Fault β} {g : β → γ}
    {h : α → Option γ} (hfh : ∀ a, (f a).map g = orFault .other (h a)) :
    ((orFault .other o).bind f).map g = orFault .other (o.bind h) := by
  cases o with
  | none => rfl
  | some a => exact hfh a

theorem orFault_cases {α β : Type} {r : Except Fault (α × β)} {o : Option β}
    (h : r.map Prod.snd = orFault .other o) :
    o = none ∧ r = .error .other ∨ ∃ a b, o = some b ∧ r = .ok (a, b) := by
  cases r with
  | error fault =>
    cases o with
    | none => exact .inl ⟨rfl, by rw [Except.error.inj h]⟩
    | some b => cases h
  | ok r =>
    obtain ⟨a, b⟩ := r
    cases o with
    | none => cases h
    | some b' => exact .inr ⟨a, b, congrArg some (Except.ok.inj h).symm, rfl⟩

/-- The loop uses the place `k` only, and there it finds what it has put there. -/
theorem stackLoop_spec {w : Window} {k : Int} (hlo : w.lo ≤ k) (hup : k ≤ w.up) (n : Nat) :
    ∀ (rounds : Nat) (buff : Int → Nat) (v : List T),
      (stackLoop w n k (rounds + 1) k buff v).map Prod.snd =
        orFault .other (PriorSort.heapifyLoop n rounds v (buff k))
  | rounds, buff, v => by
    rw [stackLoop, if_neg (Int.lt_irrefl k), Window.read_eq hlo hup]
    have hwrite : ∀ m : Nat, w.write buff (k - 1 + 1) m = some (Function.update buff k m) := by
      intro m
      rw [Int.sub_add_cancel, Window.write_eq hlo hup]
    cases rounds with
    | zero =>
      -- no round is left to see that the stack is empty
      have hnone : ∀ {α : Type} (o : Option α), o.bind (fun _ => none) = (none : Option (List T)) :=
        Option.bind_fun_none
      rw [PriorSort.heapifyLoop, ← hnone (PriorSort.smaller n v (leftPrior (buff k)) (buff k))]
      refine orFault_bind_map _ fun m₁ => ?_
      rw [← hnone (PriorSort.smaller n v (rightPrior (buff k)) m₁)]
      refine orFault_bind_map _ fun m => ?_
      by_cases hm : m ≠ buff k
      · rw [if_pos hm, ← hnone v[buff k]?]
        refine orFault_bind_map _ fun tValue => ?_
        rw [← hnone v[m]?]
        refine orFault_bind_map _ fun value => ?_
        dsimp only
        rw [hwrite]
        rfl
      · rw [if_neg hm]
        rfl
    | succ rounds =>
      rw [PriorSort.heapifyLoop]
      refine orFault_bind_map _ fun m₁ => orFault_bind_map _ fun m => ?_
      by_cases hm : m ≠ buff k
      · rw [if_pos hm, if_pos hm]
        refine orFault_bind_map _ fun tValue => orFault_bind_map _ fun value => ?_
        have ih := stackLoop_spec hlo hup n rounds (Function.update buff k m)
          ((v.set (buff k) value).set m tValue)
        rw [Function.update_self] at ih
        dsimp only
        rw [hwrite, Int.sub_add_cancel]
        exact ih
      · rw [if_neg hm, if_neg hm]
        rw [stackLoop, if_pos (by omega)]
        rfl

variable {s s' : IndexedSort T} {k : Int}

theorem heapify_outside (hk : ¬ (0 ≤ k ∧ k < s.udwStackSize)) (rounds : Nat) :
    s.heapify rounds k = .error .idxBuff := by
  have hwrite : ∀ m : Nat, s.places.write s.m_udwpIdxBuff k m = none := by
    intro m
    refine Window.write_outside (fun h => hk ⟨h.1, ?_⟩) m
    have hup : k ≤ (s.udwStackSize : Int) - 1 := h.2
    omega
  unfold heapify
  dsimp only
  rw [hwrite]
  rfl

/-- Inside of the buffer `Heapify` is the loop on the values. -/
theorem heapify_inside (hk : 0 ≤ k ∧ k < s.udwStackSize) (h32 : k < 2 ^ 32) (rounds : Nat) :
    (s.heapify (rounds + 1) k).map (·.toPriorSort) =
      orFault .other ((PriorSort.heapifyLoop s.m_udwMaxSortElemNum rounds s.m_tpValues k.toNat).map
        fun m_tpValues => { s.toPriorSort with m_tpValues }) := by
  have hlo : s.places.lo ≤ k := hk.1
  have hup : k ≤ s.places.up := by
    show k ≤ (s.udwStackSize : Int) - 1
    omega
  have hidx : (BitVec.ofInt 32 k).toNat = k.toNat := by
    rw [BitVec.toNat_ofInt, Int.emod_eq_of_lt hk.1 (by simpa using h32)]
  have hloop := stackLoop_spec hlo hup s.m_udwMaxSortElemNum rounds
    (Function.update s.m_udwpIdxBuff k k.toNat) s.m_tpValues
  rw [Function.update_self] at hloop
  unfold heapify
  dsimp only
  rw [hidx, Window.write_eq hlo hup]
  rcases orFault_cases hloop with ⟨hnone, hrun⟩ | ⟨buff, v, hv, hrun⟩
  · rw [hnone, Option.map_none]
    show Except.map _ (Except.bind (stackLoop _ _ _ _ _ _ _) _) = _
    rw [hrun]
    rfl
  · rw [hv, Option.map_some]
    show Except.map _ (Except.bind (stackLoop _ _ _ _ _ _ _) _) = _
    rw [hrun]
    rfl

/-- Whatever the number of rounds, no other entry of the buffer is used. -/
theorem heapify_avoids (hk : 0 ≤ k ∧ k < s.udwStackSize) (h32 : k < 2 ^ 32) (rounds : Nat) :
    s.heapify rounds k ≠ .error .idxBuff := by
  intro h
  cases rounds with
  | zero =>
    have hup : k ≤ s.places.up := by
      show k ≤ (s.udwStackSize : Int) - 1
      omega
    unfold heapify at h
    dsimp only at h
    rw [Window.write_eq hk.1 hup] at h
    cases h
  | succ rounds =>
    have hinside := heapify_inside hk h32 rounds
    rw [h] at hinside
    cases hloop : PriorSort.heapifyLoop s.m_udwMaxSortElemNum rounds s.m_tpValues k.toNat with
    | none =>
      rw [hloop] at hinside
      cases hinside
    | some v =>
      rw [hloop] at hinside
      cases hinside

/-- `Heapify` of `PriorSort` leaves the buffer aside, and loses nothing with it. -/
theorem heapify_refines (hstack : s.udwStackSize ≤ 2 ^ 32) :
    (s.heapify (s.m_udwMaxSortElemNum + 2) k).toOption.map (·.toPriorSort) =
      s.toPriorSort.heapify k := by
  have htoOption : ∀ r : Except Fault (IndexedSort T),
      r.toOption.map (·.toPriorSort) = (r.map (·.toPriorSort)).toOption := by
    intro r
    cases r <;> rfl
  have horFault : ∀ o : Option (PriorSort T), (orFault .other o).toOption = o := by
    intro o
    cases o <;> rfl
  unfold PriorSort.heapify
  by_cases hk : 0 ≤ k ∧ k < s.udwStackSize
  · rw [if_pos hk, htoOption, heapify_inside hk (by omega), horFault]
  · rw [if_neg hk, heapify_outside hk]
    rfl

/-! ## One call of `Add` -/

/-- When a value takes part in a full row again, its place is one of the buffer. -/
def FoundEarly (s : IndexedSort T) (tValue : T) : Prop :=
  s.m_udwCurrElemNum = s.m_udwMaxSortElemNum → (∀ first ∈ s.m_tpValues[0]?, first < tValue) →
    ∀ i ∈ (s.m_tpValues.take s.m_udwCurrElemNum).idxOf? tValue, i < s.udwStackSize

/-- The place of a value is passed as a `TINT32`. -/
theorem heapify_place_iff {i : Nat} (hi : i < 2 ^ 32) (hstack : s.udwStackSize < 2 ^ 31)
    (rounds : Nat) : s.heapify rounds (tint32 i) ≠ .error .idxBuff ↔ i < s.udwStackSize := by
  have hplace : 0 ≤ tint32 i ∧ tint32 i < s.udwStackSize ↔ i < s.udwStackSize := by
    by_cases hsmall : i < 2 ^ 31
    · rw [tint32_eq (by omega) (by omega)]
      omega
    · have hneg := tint32_neg (x := i) (by omega) (by omega)
      omega
  rw [← hplace]
  by_cases hin : 0 ≤ tint32 i ∧ tint32 i < s.udwStackSize
  · exact iff_of_true (heapify_avoids hin (by omega) rounds) hin
  · exact iff_of_false (not_not.mpr (heapify_outside hin rounds)) hin

/-- A new value in a row with room for it. -/
theorem add_room {tValue : T} (hroom : s.m_udwCurrElemNum < s.m_udwMaxSortElemNum)
    (hnew : ¬ (s.m_tpValues.take s.m_udwCurrElemNum).contains tValue)
    (hlen : s.m_udwCurrElemNum < s.m_tpValues.length) (rounds : Nat) :
    s.add rounds tValue = Except.bind
      (if s.m_udwCurrElemNum + 1 = s.m_udwMaxSortElemNum then
        orFault .other (sortArray (s.m_tpValues.set s.m_udwCurrElemNum tValue) 0
          (tint32 (s.m_udwMaxSortElemNum - 1)))
      else .ok (s.m_tpValues.set s.m_udwCurrElemNum tValue))
      fun m_tpValues => .ok { s with m_udwCurrElemNum := s.m_udwCurrElemNum + 1, m_tpValues } := by
  rw [add, if_pos hroom, if_neg hnew, if_pos hlen]
  dsimp only
  split <;> rfl

/-- A larger value in a full row, found at the place `i`. -/
theorem add_found {tValue first : T} {i : Nat} (hfull : s.m_udwCurrElemNum = s.m_udwMaxSortElemNum)
    (hfirst : s.m_tpValues[0]? = some first) (hlt : first < tValue)
    (hidx : (s.m_tpValues.take s.m_udwCurrElemNum).idxOf? tValue = some i) (rounds : Nat) :
    s.add rounds tValue = s.heapify rounds (tint32 i) := by
  rw [add, if_neg (by omega), if_pos hfull, hfirst]
  show (if tValue ≤ first then _ else _) = _
  rw [if_neg (not_le.mpr hlt), hidx]

/-- A larger value in a full row, which replaces the first one. -/
theorem add_replaces {tValue first : T} (hfull : s.m_udwCurrElemNum = s.m_udwMaxSortElemNum)
    (hfirst : s.m_tpValues[0]? = some first) (hlt : first < tValue)
    (hidx : (s.m_tpValues.take s.m_udwCurrElemNum).idxOf? tValue = none) (rounds : Nat) :
    s.add rounds tValue = heapify rounds { s with m_tpValues := s.m_tpValues.set 0 tValue } 0 := by
  rw [add, if_neg (by omega), if_pos hfull, hfirst]
  show (if tValue ≤ first then _ else _) = _
  rw [if_neg (not_le.mpr hlt), hidx]

/-- What `Add` can do: leave the buffer aside, put a new value into the first place, or
put a value in order that it has found. -/
theorem add_cases (rounds : Nat) (tValue : T) :
    ((s.add rounds tValue = .error .other ∨ ∃ m_tpValues m_udwCurrElemNum,
        s.add rounds tValue = .ok { s with m_tpValues, m_udwCurrElemNum }) ∧
      s.FoundEarly tValue) ∨
    (∃ m_tpValues, s.add rounds tValue = heapify rounds { s with m_tpValues } 0 ∧
      s.FoundEarly tValue) ∨
    ∃ i < s.m_udwMaxSortElemNum, s.add rounds tValue = s.heapify rounds (tint32 i) ∧
      (s.FoundEarly tValue ↔ i < s.udwStackSize) := by
  by_cases hroom : s.m_udwCurrElemNum < s.m_udwMaxSortElemNum
  · refine .inl ⟨?_, fun hfull => absurd hfull (Nat.ne_of_lt hroom)⟩
    by_cases hnew : (s.m_tpValues.take s.m_udwCurrElemNum).contains tValue
    · refine .inr ⟨s.m_tpValues, s.m_udwCurrElemNum, ?_⟩
      rw [add, if_pos hroom, if_pos hnew]
    · by_cases hlen : s.m_udwCurrElemNum < s.m_tpValues.length
      · rw [add_room hroom hnew hlen]
        by_cases hlast : s.m_udwCurrElemNum + 1 = s.m_udwMaxSortElemNum
        · rw [if_pos hlast]
          cases hsort : sortArray (s.m_tpValues.set s.m_udwCurrElemNum tValue) 0
              (tint32 (s.m_udwMaxSortElemNum - 1)) with
          | none => exact .inl rfl
          | some row => exact .inr ⟨row, _, rfl⟩
        · rw [if_neg hlast]
          exact .inr ⟨_, _, rfl⟩
      · exact .inl (by rw [add, if_pos hroom, if_neg hnew, if_neg hlen])
  · by_cases hfull : s.m_udwCurrElemNum = s.m_udwMaxSortElemNum
    · cases hfirst : s.m_tpValues[0]? with
      | none =>
        have hnil : s.m_tpValues = [] :=
          List.eq_nil_of_length_eq_zero (Nat.le_zero.mp (List.getElem?_eq_none_iff.mp hfirst))
        refine .inl ⟨.inl ?_, fun _ _ i hi => ?_⟩
        · rw [add, if_neg hroom, if_pos hfull, hfirst]
          rfl
        · rw [hnil, List.take_nil] at hi
          cases hi
      | some first =>
        have hearly : s.FoundEarly tValue ↔ (first < tValue →
            ∀ i ∈ (s.m_tpValues.take s.m_udwCurrElemNum).idxOf? tValue, i < s.udwStackSize) := by
          unfold FoundEarly
          rw [hfirst]
          simp only [hfull, forall_const, Option.mem_some_iff, forall_eq']
        rw [hearly]
        by_cases hle : tValue ≤ first
        · refine .inl ⟨.inr ⟨s.m_tpValues, s.m_udwCurrElemNum, ?_⟩,
            fun hlt => absurd hle (not_le.mpr hlt)⟩
          rw [add, if_neg hroom, if_pos hfull, hfirst]
          exact if_pos hle
        · have hlt := not_le.mp hle
          rw [forall_prop_of_true hlt]
          cases hidx : (s.m_tpValues.take s.m_udwCurrElemNum).idxOf? tValue with
          | none =>
            exact .inr (.inl ⟨_, add_replaces hfull hfirst hlt hidx rounds, fun i hi => nomatch hi⟩)
          | some i =>
            obtain ⟨hi, -⟩ := List.idxOf?_eq_some_iff.mp hidx
            rw [List.length_take] at hi
            refine .inr (.inr ⟨i, by omega, add_found hfull hfirst hlt hidx rounds, ?_⟩)
            simp only [Option.mem_some_iff, forall_eq']
    · refine .inl ⟨.inr ⟨s.m_tpValues, s.m_udwCurrElemNum, ?_⟩, fun h => absurd h hfull⟩
      rw [add, if_neg hroom, if_neg hfull]

theorem add_avoids_iff {tValue : T} (hpos : 0 < s.udwStackSize) (hstack : s.udwStackSize < 2 ^ 31)
    (hmax : s.m_udwMaxSortElemNum < 2 ^ 32) (rounds : Nat) :
    s.add rounds tValue ≠ .error .idxBuff ↔ s.FoundEarly tValue := by
  rcases add_cases (s := s) rounds tValue with
    ⟨heq | ⟨v, n, heq⟩, hearly⟩ | ⟨v, heq, hearly⟩ | ⟨i, hi, heq, hearly⟩
  · exact iff_of_true (by rw [heq]; exact fun h => nomatch h) hearly
  · exact iff_of_true (by rw [heq]; exact fun h => nomatch h) hearly
  · have hfirst : (0 : Int) < s.udwStackSize := by omega
    rw [heq]
    refine iff_of_true ?_ hearly
    exact heapify_avoids (s := { s with m_tpValues := v }) ⟨Int.le_refl 0, hfirst⟩ (by omega) rounds
  · rw [heq, hearly]
    exact heapify_place_iff (by omega) hstack rounds

/-- `Add` of `PriorSort`, where `quickSortAsc` is the sort on an array. -/
theorem add_refines {quickSortAsc : List T → Int → Int → List T} {tValue : T}
    (hstack : s.udwStackSize ≤ 2 ^ 32)
    (hsort : ∀ row : List T, row.length = s.m_tpValues.length →
      sortArray row 0 (tint32 (s.m_udwMaxSortElemNum - 1)) =
        some (quickSortAsc row 0 (tint32 (s.m_udwMaxSortElemNum - 1)))) :
    (s.add (s.m_udwMaxSortElemNum + 2) tValue).toOption.map (·.toPriorSort) =
      s.toPriorSort.add quickSortAsc tValue := by
  unfold PriorSort.add
  by_cases hroom : s.m_udwCurrElemNum < s.m_udwMaxSortElemNum
  · rw [if_pos hroom]
    by_cases hnew : (s.m_tpValues.take s.m_udwCurrElemNum).contains tValue
    · rw [if_pos (List.contains_iff_mem.mp hnew), add, if_pos hroom, if_pos hnew]
      rfl
    · rw [if_neg fun hmem => hnew (List.contains_iff_mem.mpr hmem)]
      by_cases hlen : s.m_udwCurrElemNum < s.m_tpValues.length
      · rw [if_pos hlen, add_room hroom hnew hlen]
        dsimp only
        by_cases hlast : s.m_udwCurrElemNum + 1 = s.m_udwMaxSortElemNum
        · rw [if_pos hlast, if_pos hlast, hsort _ List.length_set]
          rfl
        · rw [if_neg hlast, if_neg hlast]
          rfl
      · rw [if_neg hlen, add, if_pos hroom, if_neg hnew, if_neg hlen]
        rfl
  · rw [if_neg hroom, add, if_neg hroom]
    by_cases hfull : s.m_udwCurrElemNum = s.m_udwMaxSortElemNum
    · rw [if_pos hfull, if_pos hfull]
      cases hfirst : s.m_tpValues[0]? with
      | none => rfl
      | some first =>
        show Option.map _ (Except.toOption (if tValue ≤ first then _ else _)) =
          (if tValue ≤ first then _ else _)
        by_cases hle : tValue ≤ first
        · rw [if_pos hle, if_pos hle]
          rfl
        · rw [if_neg hle, if_neg hle]
          cases hidx : (s.m_tpValues.take s.m_udwCurrElemNum).idxOf? tValue with
          | some i => exact heapify_refines hstack
          | none =>
            exact heapify_refines (s := { s with m_tpValues := s.m_tpValues.set 0 tValue }) hstack
    · rw [if_neg hfull, if_neg hfull]
      rfl

/-! ## Runs -/

/-- What the constructor fixes, and the bound on every `Reset`. -/
structure Built (udwMaxElemNum : Nat) (s : IndexedSort T) : Prop where
  room : s.m_udwMaxElemNum = udwMaxElemNum
  stack : s.udwStackSize = Nat.log 2 udwMaxElemNum + 20
  sort_le : s.m_udwMaxSortElemNum ≤ udwMaxElemNum

omit [LinearOrder T] in
theorem construct_built (max : Nat) (values : Fin max → T) (buff : Int → Nat) :
    Built max (construct max values buff) := ⟨rfl, rfl, Nat.zero_le max⟩

theorem heapify_keeps {rounds : Nat} (h : s.heapify rounds k = .ok s') :
    ∃ m_udwpIdxBuff m_tpValues, s' = { s with m_udwpIdxBuff, m_tpValues } := by
  unfold heapify at h
  dsimp only at h
  cases hwrite : s.places.write s.m_udwpIdxBuff k (BitVec.ofInt 32 k).toNat with
  | none =>
    rw [hwrite] at h
    cases h
  | some buff =>
    rw [hwrite] at h
    change Except.bind (stackLoop _ _ _ _ _ _ _) _ = _ at h
    cases hrun : stackLoop s.places s.m_udwMaxSortElemNum k rounds k buff s.m_tpValues with
    | error fault =>
      rw [hrun] at h
      cases h
    | ok r =>
      rw [hrun] at h
      exact ⟨r.1, r.2, (Except.ok.inj h).symm⟩

theorem add_keeps {rounds : Nat} {tValue : T} (h : s.add rounds tValue = .ok s') :
    ∃ m_udwpIdxBuff m_tpValues m_udwCurrElemNum,
      s' = { s with m_udwpIdxBuff, m_tpValues, m_udwCurrElemNum } := by
  rcases add_cases (s := s) rounds tValue with
    ⟨heq | ⟨v, n, heq⟩, -⟩ | ⟨v, heq, -⟩ | ⟨i, -, heq, -⟩
  · rw [heq] at h
    cases h
  · rw [heq] at h
    exact ⟨_, v, n, (Except.ok.inj h).symm⟩
  · rw [heq] at h
    obtain ⟨buff, v', rfl⟩ := heapify_keeps h
    exact ⟨buff, v', _, rfl⟩
  · rw [heq] at h
    obtain ⟨buff, v', rfl⟩ := heapify_keeps h
    exact ⟨buff, v', _, rfl⟩

theorem Built.call {max rounds : Nat} {c : Call T max} (hs : Built max s)
    (h : call rounds s c = .ok s') : Built max s' := by
  cases c with
  | reset n hle =>
    obtain rfl := Except.ok.inj h
    refine ⟨hs.room, hs.stack, ?_⟩
    show (if 0 < n then n else s.m_udwMaxElemNum) ≤ max
    split
    · exact hle
    · exact hs.room.le
  | add tValue =>
    obtain ⟨buff, v, n, rfl⟩ := add_keeps h
    exact ⟨hs.room, hs.stack, hs.sort_le⟩

/-- A call that stays inside of the index buffer. -/
def Within {max : Nat} (s : IndexedSort T) : Call T max → Prop
  | .reset _ _ => True
  | .add tValue => s.FoundEarly tValue

theorem call_avoids_iff {max rounds : Nat} {c : Call T max} (hmax : max < 2 ^ 32)
    (hs : Built max s) : call rounds s c ≠ .error .idxBuff ↔ Within s c := by
  cases c with
  | reset n hle => exact iff_of_true (fun h => nomatch h) trivial
  | add tValue =>
    have hlog : Nat.log 2 max < 32 := Nat.log_lt_of_lt_pow' (by omega) (by omega)
    have hstack := hs.stack
    have hle := hs.sort_le
    exact add_avoids_iff (by omega) (by omega) (by omega) rounds

theorem run_avoids_iff_within {max : Nat} (hmax : max < 2 ^ 32) (rounds : Nat)
    (values : Fin max → T) (buff : Int → Nat) (calls : List (Call T max)) :
    calls.foldlM (call rounds) (construct max values buff) ≠ .error .idxBuff ↔
      Throughout (fun s c => (call rounds s c).toOption) Within (construct max values buff) calls :=
  run_avoids_iff (I := Built max) Built.call (call_avoids_iff hmax)
    (construct_built max values buff)

/-! ## A duplicate behind the buffer -/

/-- The numbers below `j` stand in a row of which `n` are kept, more than the buffer has
places. -/
structure Filled (n j : Nat) (s : IndexedSort Nat) : Prop where
  sort : s.m_udwMaxSortElemNum = n
  curr : s.m_udwCurrElemNum = j
  room : n ≤ s.m_tpValues.length
  stack : 0 < s.udwStackSize ∧ s.udwStackSize < n
  row : s.m_tpValues.take j = List.range j

theorem Filled.add {n j : Nat} {s : IndexedSort Nat} (hs : Filled n j s) (hj : j < n)
    (hn : n ≤ 106) (rounds : Nat) : ∃ s', s.add rounds j = .ok s' ∧ Filled n (j + 1) s' := by
  obtain ⟨hsort, rfl, hroom, hstack, hrow⟩ := hs
  have hlen : s.m_udwCurrElemNum < s.m_tpValues.length := by omega
  have hnew : ¬ (s.m_tpValues.take s.m_udwCurrElemNum).contains s.m_udwCurrElemNum := by
    rw [hrow, List.contains_iff_mem]
    exact List.not_mem_range_self
  have hset : (s.m_tpValues.set s.m_udwCurrElemNum s.m_udwCurrElemNum).take
      (s.m_udwCurrElemNum + 1) = List.range (s.m_udwCurrElemNum + 1) := by
    rw [PriorSort.take_set_succ hlen, hrow, ← List.range_succ]
  rw [add_room (by omega) hnew hlen]
  by_cases hlast : s.m_udwCurrElemNum + 1 = s.m_udwMaxSortElemNum
  · rw [if_pos hlast]
    have hfits : s.m_udwMaxSortElemNum ≤
        (s.m_tpValues.set s.m_udwCurrElemNum s.m_udwCurrElemNum).length := by
      rw [List.length_set]
      omega
    obtain ⟨row, heq, hrowlen, hperm, hsorted⟩ := sortArray_short _ hfits (by omega)
    rw [tint32_eq (by omega) (by omega), heq]
    refine ⟨_, rfl, hsort, rfl, ?_, hstack, ?_⟩
    · show n ≤ row.length
      rw [hrowlen, List.length_set]
      exact hroom
    · show row.take (s.m_udwCurrElemNum + 1) = _
      rw [← hlast] at hperm hsorted
      rw [hset] at hperm
      exact hperm.eq_of_pairwise' hsorted (List.pairwise_lt_range.imp Nat.le_of_lt)
  · rw [if_neg hlast]
    refine ⟨_, rfl, hsort, rfl, ?_, hstack, hset⟩
    show n ≤ (s.m_tpValues.set _ _).length
    rw [List.length_set]
    exact hroom

theorem Filled.run {n : Nat} (hn : n ≤ 106) (max rounds : Nat) {s : IndexedSort Nat}
    (hs : Filled n 0 s) : ∀ j, j ≤ n → ∃ s',
      ((List.range j).map fun i => (Call.add i : Call Nat max)).foldlM (call rounds) s = .ok s' ∧
        Filled n j s' := by
  intro j
  induction j with
  | zero =>
    intro _
    exact ⟨s, rfl, hs⟩
  | succ j ih =>
    intro hj
    obtain ⟨mid, hrun, hmid⟩ := ih (by omega)
    obtain ⟨s', hadd, hs'⟩ := hmid.add (by omega) hn rounds
    refine ⟨s', ?_, hs'⟩
    rw [List.range_succ, List.map_append, List.foldlM_append, hrun]
    show Except.bind (mid.add rounds j) _ = _
    rw [hadd]
    rfl

theorem Filled.again {n : Nat} {s : IndexedSort Nat} (hs : Filled n n s) (hn : n ≤ 106)
    (rounds : Nat) : s.add rounds (n - 1) = .error .idxBuff := by
  obtain ⟨hpos, hstack⟩ := hs.stack
  have hsort := hs.sort
  have hfirst : s.m_tpValues[0]? = some 0 := by
    rw [← List.getElem?_take_of_lt (by omega : 0 < n), hs.row]
    exact List.getElem?_range (by omega)
  have hidx : (s.m_tpValues.take s.m_udwCurrElemNum).idxOf? (n - 1) = some (n - 1) := by
    rw [hs.curr, hs.row, List.idxOf?_eq_some_iff]
    refine ⟨by rw [List.length_range]; omega, List.getElem_range _, fun j hj => ?_⟩
    rw [List.getElem_range]
    omega
  have hlate : ¬ s.FoundEarly (n - 1) := by
    intro hearly
    have hlt := hearly (hs.curr.trans hsort.symm) ?_ (n - 1) hidx
    · omega
    · intro first h
      rw [hfirst] at h
      obtain rfl := Option.some.inj h
      omega
  by_contra havoids
  exact hlate ((add_avoids_iff hpos (by omega) (by omega) rounds).mp havoids)

/-- `Reset(n)`, the numbers below `n`, and the last of them again. -/
def lastAgain {max : Nat} (n : Nat) (hle : n ≤ max) : List (Call Nat max) :=
  .reset n hle :: ((List.range n).map .add ++ [.add (n - 1)])

theorem lastAgain_outside {max n : Nat} (hle : n ≤ max) (hn : n ≤ 106)
    (hstack : Nat.log 2 max + 20 < n) (rounds : Nat) (values : Fin max → Nat) (buff : Int → Nat) :
    (lastAgain n hle).foldlM (call rounds) (construct max values buff) = .error .idxBuff := by
  have hstart : Filled n 0 { construct max values buff with
      toPriorSort := (construct max values buff).reset n } := by
    refine ⟨if_pos (by omega), rfl, ?_, ⟨Nat.succ_pos _, hstack⟩, rfl⟩
    show n ≤ (List.ofFn values).length
    rwa [List.length_ofFn]
  obtain ⟨s', hrun, hfull⟩ := hstart.run hn max rounds n (Nat.le_refl n)
  rw [lastAgain, List.foldlM_cons]
  show List.foldlM (call rounds) _ _ = _
  rw [List.foldlM_append, hrun]
  show Except.bind (s'.add rounds (n - 1)) _ = _
  rw [hfull.again hn rounds]
  rfl

/-! ## Which runs stay inside -/

/-- A capacity for which every place is one of the buffer. -/
theorem Built.within {max : Nat} (hs : Built max s) (hmax : max ≤ 24) (c : Call T max) :
    Within s c := by
  cases c with
  | reset n hle => trivial
  | add tValue =>
    intro hfull _ i hi
    obtain ⟨hlt, -⟩ := List.idxOf?_eq_some_iff.mp hi
    rw [List.length_take] at hlt
    have hsort := hs.sort_le
    have hsmall : ∀ m ≤ 24, m ≤ Nat.log 2 m + 20 := by decide
    have hroom := hsmall max hmax
    rw [hs.stack]
    omega

/-- **`Heapify` stays inside of its index buffer exactly in the runs in which no value is
found again behind it; and in all runs exactly for a capacity of up to 24.** -/
theorem idxBuff_within_iff (udwMaxElemNum : Nat) (h32 : udwMaxElemNum < 2 ^ 32) :
    (∀ (T : Type) [LinearOrder T] (rounds : Nat) (m_tpValues : Fin udwMaxElemNum → T)
        (m_udwpIdxBuff : Int → Nat) (calls : List (Call T udwMaxElemNum)),
      calls.foldlM (call rounds) (construct udwMaxElemNum m_tpValues m_udwpIdxBuff) ≠
          .error .idxBuff ↔
        Throughout (fun s c => (call rounds s c).toOption) Within
          (construct udwMaxElemNum m_tpValues m_udwpIdxBuff) calls) ∧
    ((∀ (T : Type) [LinearOrder T] (rounds : Nat) (m_tpValues : Fin udwMaxElemNum → T)
        (m_udwpIdxBuff : Int → Nat) (calls : List (Call T udwMaxElemNum)),
      calls.foldlM (call rounds) (construct udwMaxElemNum m_tpValues m_udwpIdxBuff) ≠
          .error .idxBuff) ↔ udwMaxElemNum ≤ 24) := by
  refine ⟨fun T _ => run_avoids_iff_within h32, ?_, ?_⟩
  · intro hall
    by_contra hlarge
    have hlog : Nat.log 2 udwMaxElemNum < 32 := Nat.log_lt_of_lt_pow' (by omega) (by omega)
    have hsmall : ∀ m < 53, 25 ≤ m → Nat.log 2 m + 21 ≤ m := by decide
    have hle : Nat.log 2 udwMaxElemNum + 21 ≤ udwMaxElemNum := by
      by_cases h53 : udwMaxElemNum < 53
      · exact hsmall udwMaxElemNum h53 (by omega)
      · omega
    exact hall Nat 0 (fun _ => 0) (fun _ => 0) (lastAgain _ hle)
      (lastAgain_outside hle (by omega) (Nat.lt_succ_self _) 0 _ _)
  · intro hsmall T _ rounds values buff calls
    refine (run_avoids_iff (I := Built udwMaxElemNum) (P := fun _ _ => True) Built.call
      (fun {s c} hs => ?_) (construct_built _ values buff)).mpr fun _ _ _ _ _ _ => trivial
    exact iff_of_true ((call_avoids_iff h32 hs).mpr (hs.within hsmall c)) trivial

/-- The row is full when 5 comes again, and `Heapify` starts at its place. -/
theorem idxBuff_within_24 :
    ([.reset 2 (by decide), .add 3, .add 5, .add 5] : List (Call Nat 24)).foldlM (call 26)
      (construct 24 (fun _ => 0) (fun _ => 0)) ≠ .error .idxBuff :=
  (idxBuff_within_iff 24 (by decide)).2.mpr (by decide) Nat 26 _ _ _

/-- The numbers below 30, and 29 again: its place is 29, and the buffer has 24. -/
theorem idxBuff_outside :
    (lastAgain 30 (Nat.le_refl 30)).foldlM (call 32) (construct 30 (fun _ => 0) (fun _ => 0)) =
      .error .idxBuff :=
  lastAgain_outside (Nat.le_refl 30) (by decide) (by decide) 32 _ _

end IndexedSort

end CommonTools.Gary
