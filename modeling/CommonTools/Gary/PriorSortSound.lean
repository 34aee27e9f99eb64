import CommonTools.Gary.PriorSort

/-! # The values that are kept

Whatever is added, the values kept are the largest ones, each of them once: they
stand in a row until there are `n` of them, and form a heap from then on. -/
namespace CommonTools.Gary
open CommonTools.Lib

/-- `QuickSortAsc` puts the values up to the place `dwRight` in order. -/
def Sorts {T : Type} [LE T] (quickSortAsc : List T → Int → Int → List T) : Prop :=
  ∀ (pBuf : List T) (dwRight : Int), -1 ≤ dwRight → dwRight < pBuf.length →
    ∃ row, row.Perm (pBuf.take (dwRight + 1).toNat) ∧ row.Pairwise (· ≤ ·) ∧
      quickSortAsc pBuf 0 dwRight = row ++ pBuf.drop (dwRight + 1).toNat

namespace PriorSort
variable {T : Type} [LinearOrder T]

/-! ## Going down -/

section
variable {v : List T} {n k child : Nat} {a : T}

/-- Of a place and one child, the one with the smaller value is taken. -/
theorem smaller_spec (hn : n ≤ v.length) (ha : v[k]? = some a) (child : Nat) :
    ∃ m b, smaller n v child k = some m ∧ v[m]? = some b ∧ b ≤ a ∧
      (m = k ∨ m = child ∧ child < n ∧ b < a) ∧
      ∀ c, child < n → v[child]? = some c → b ≤ c := by
  rw [smaller]
  by_cases hc : child < n
  · have hget : v[child]? = some v[child] := List.getElem?_eq_getElem (by omega)
    simp only [if_pos hc, hget, ha, Option.bind_eq_bind, Option.bind_some]
    by_cases hlt : v[child] < a
    · rw [if_pos hlt]
      refine ⟨child, v[child], rfl, hget, hlt.le, .inr ⟨rfl, hc, hlt⟩, fun c _ hcv => ?_⟩
      cases hcv
      exact le_refl _
    · rw [if_neg hlt]
      refine ⟨k, a, rfl, ha, le_refl _, .inl rfl, fun c _ hcv => ?_⟩
      cases hcv
      exact not_lt.mp hlt
  · rw [if_neg hc]
    exact ⟨k, a, rfl, ha, le_refl _, .inl rfl, fun c hlt _ => absurd hlt hc⟩

theorem leftPrior_eq (hk : k < 2 ^ 31) : leftPrior k = 2 * k := by
  rw [leftPrior, Nat.shiftLeft_eq]
  omega

theorem rightPrior_eq (hk : k < 2 ^ 31) : rightPrior k = 2 * k + 1 := by
  rw [rightPrior, Nat.shiftLeft_eq]
  omega

/-- One round: the element stays when no child is smaller, or goes down to the
smallest child. -/
theorem smallest_spec (hn : n ≤ v.length) (hn31 : n ≤ 2 ^ 31) (hk : k < n) (ha : v[k]? = some a) :
    ∃ m₁ m b, smaller n v (leftPrior k) k = some m₁ ∧ smaller n v (rightPrior k) m₁ = some m ∧
      v[m]? = some b ∧ (m = k ∨ 0 < m ∧ m < n ∧ m / 2 = k ∧ b < a) ∧
      ∀ i c, 0 < i → i < n → i / 2 = k → v[i]? = some c → b ≤ c := by
  rw [leftPrior_eq (by omega), rightPrior_eq (by omega)]
  obtain ⟨m₁, b₁, hm₁, hb₁, hle₁, hcase₁, hleft⟩ := smaller_spec hn ha (2 * k)
  obtain ⟨m, b, hm, hb, hle, hcase, hright⟩ := smaller_spec hn hb₁ (2 * k + 1)
  refine ⟨m₁, m, b, hm₁, hm, hb, ?_, fun i c h0 hi hik hc => ?_⟩
  · rcases hcase with rfl | ⟨rfl, hlt, hba⟩
    · rcases hcase₁ with rfl | ⟨rfl, hlt, hba⟩
      · exact .inl rfl
      · rw [hb₁] at hb
        cases hb
        by_cases hk0 : k = 0
        · -- place 0 is its own left child
          subst hk0
          exact .inl rfl
        · exact .inr ⟨by omega, hlt, by omega, hba⟩
    · exact .inr ⟨by omega, hlt, by omega, lt_of_lt_of_le hba hle₁⟩
  · obtain rfl | rfl : i = 2 * k ∨ i = 2 * k + 1 := by omega
    · exact hle.trans (hleft c hi hc)
    · exact hright c hi hc

/-- `Heapify` makes a heap again, of the same values. -/
theorem heapifyLoop_spec (hn31 : n ≤ 2 ^ 31) : ∀ {rounds k : Nat} {v : List T}, n ≤ v.length →
    k < n → n - k < rounds → HeapBut v n k →
      ∃ v', heapifyLoop n rounds v k = some v' ∧ HeapTo v' n ∧ v'.length = v.length ∧
        (v'.take n).Perm (v.take n) := by
  intro rounds
  induction rounds with
  | zero =>
    intro k v _ _ hr _
    exact absurd hr (Nat.not_lt_zero _)
  | succ rounds ih =>
    intro k v hn hk hr h
    have ha : v[k]? = some v[k] := List.getElem?_eq_getElem (by omega)
    obtain ⟨m₁, m, b, hm₁, hm, hb, hcase, hmin⟩ := smallest_spec hn hn31 hk ha
    rw [heapifyLoop]
    simp only [hm₁, hm, Option.bind_eq_bind, Option.bind_some]
    by_cases hmk : m = k
    · rw [if_neg (not_not.mpr hmk)]
      rw [hmk, ha] at hb
      cases hb
      exact ⟨v, rfl, h.finish ha hmin, rfl, .refl _⟩
    · obtain ⟨h0, hmn, hpar, hlt⟩ := hcase.resolve_left hmk
      rw [if_pos hmk]
      simp only [ha, hb, Option.bind_some]
      have hmove := h.move ha hb h0 hmn hpar hlt hmin
      have hless : n - m < rounds := by omega
      have hroom : n ≤ ((v.set k b).set m v[k]).length := by simpa using hn
      obtain ⟨v', hloop, hheap, hlen, hperm⟩ := ih hroom hmn hless hmove
      refine ⟨v', hloop, hheap, by simpa using hlen, hperm.trans ?_⟩
      obtain ⟨hml, rfl⟩ := List.getElem?_eq_some_iff.mp hb
      have hkt : k < (v.take n).length := by rw [List.length_take]; omega
      have hmt : m < (v.take n).length := by rw [List.length_take]; omega
      have hset := List.set_set_perm hkt hmt
      rwa [List.getElem_take, List.getElem_take, ← List.take_set, ← List.take_set] at hset

end

/-! ## The values kept -/

/-- What the constructor allocates: `TUINT32` many values, and an index buffer in
which every place of a heap of `n` values can be put. -/
structure Allocated (p : PriorSort T) (n : Nat) : Prop where
  count : p.m_udwMaxElemNum < 2 ^ 32
  values : p.m_tpValues.length = p.m_udwMaxElemNum
  buffer : ∀ i < n, 0 ≤ tint32 i ∧ tint32 i < p.udwStackSize

/-- The values kept out of those in `s`. -/
structure Keeps (p : PriorSort T) (n : Nat) (s : Finset T) : Prop where
  max : p.m_udwMaxSortElemNum = n
  small : n ≤ 2 ^ 31
  room : n ≤ p.m_tpValues.length
  buffer : n ≤ p.udwStackSize
  curr : p.m_udwCurrElemNum ≤ n
  nodup : (p.m_tpValues.take p.m_udwCurrElemNum).Nodup
  top : IsTop n s (p.m_tpValues.take p.m_udwCurrElemNum).toFinset
  heap : p.m_udwCurrElemNum = n → HeapTo p.m_tpValues n
  unsorted : p.is_sort = false

omit [LinearOrder T] in
theorem Allocated.small {p : PriorSort T} {n : Nat} (h : Allocated p n)
    (hcap : n ≤ p.m_udwMaxElemNum) : n ≤ 2 ^ 31 ∧ n ≤ p.udwStackSize := by
  have hcount := h.count
  by_cases hn : n = 0
  · omega
  · obtain ⟨hpos, hlt⟩ := h.buffer (n - 1) (by omega)
    have hsmall : n - 1 < 2 ^ 31 := by
      by_contra hbig
      have hneg := tint32_neg (x := ((n - 1 : Nat) : Int)) (by omega) (by omega)
      omega
    rw [tint32_eq (by omega) (by omega)] at hlt
    omega

section
variable {p : PriorSort T} {n : Nat} {s : Finset T} {t : T}

theorem reset_keeps (h : Allocated p n) (hn : 0 < n) (hcap : n ≤ p.m_udwMaxElemNum) :
    Keeps (p.reset n) n ∅ := by
  obtain ⟨hsmall, hbuffer⟩ := h.small hcap
  refine ⟨if_pos hn, hsmall, ?_, hbuffer, Nat.zero_le n, ?_, ?_, fun h0 => ?_, rfl⟩
  · rw [reset, h.values]
    exact hcap
  · exact List.nodup_nil
  · exact .empty n
  · exact absurd h0 (Nat.ne_of_lt hn)

theorem Keeps.card (h : Keeps p n s) :
    (p.m_tpValues.take p.m_udwCurrElemNum).toFinset.card = p.m_udwCurrElemNum := by
  have hcurr := h.curr
  have hroom := h.room
  rw [List.toFinset_card_of_nodup h.nodup, List.length_take]
  omega

omit [LinearOrder T] in
theorem take_set_succ {v : List T} {k : Nat} (hk : k < v.length) :
    (v.set k t).take (k + 1) = v.take k ++ [t] := by
  rw [List.take_succ_eq_append_getElem (by rwa [List.length_set]), List.take_set_of_le (Nat.le_refl k),
    List.getElem_set_self]

theorem quickSort_whole {quickSortAsc : List T → Int → Int → List T} (hsort : Sorts quickSortAsc)
    {v : List T} {k : Nat} (hk : k ≤ v.length) (h31 : k ≤ 2 ^ 31) :
    ∃ row, row.Perm (v.take k) ∧ row.Pairwise (· ≤ ·) ∧ row.length = k ∧
      quickSortAsc v 0 (tint32 ((k : Int) - 1)) = row ++ v.drop k := by
  have hsucc : ((k : Int) - 1 + 1).toNat = k := by omega
  obtain ⟨row, hperm, hrow, heq⟩ := hsort v ((k : Int) - 1) (by omega) (by omega)
  rw [hsucc] at hperm heq
  have hlen := hperm.length_eq
  rw [List.length_take] at hlen
  exact ⟨row, hperm, hrow, by omega, by rw [tint32_eq (by omega) (by omega), heq]⟩

theorem Keeps.append (h : Keeps p n s) {quickSortAsc : List T → Int → Int → List T}
    (hsort : Sorts quickSortAsc) (hlt : p.m_udwCurrElemNum < n) :
    ∃ p', p.add quickSortAsc t = some p' ∧ Keeps p' n (insert t s) := by
  have hmax := h.max
  have hroom := h.room
  rw [add, if_pos (by omega)]
  by_cases hmem : t ∈ p.m_tpValues.take p.m_udwCurrElemNum
  · rw [if_pos hmem]
    exact ⟨p, rfl, { h with top := h.top.again (List.mem_toFinset.mpr hmem) }⟩
  · rw [if_neg hmem, if_pos (by omega)]
    refine ⟨_, rfl, ?_⟩
    have htake := @take_set_succ _ t p.m_tpValues p.m_udwCurrElemNum (by omega)
    have hnd : (p.m_tpValues.take p.m_udwCurrElemNum ++ [t]).Nodup :=
      List.nodup_append.mpr ⟨h.nodup, List.nodup_singleton t, fun a ha b hb he =>
        hmem (List.mem_singleton.mp hb ▸ he ▸ ha)⟩
    have htop : IsTop n (insert t s) (p.m_tpValues.take p.m_udwCurrElemNum ++ [t]).toFinset := by
      have hadd := h.top.add (t := t) (by rw [h.card]; exact hlt)
      rwa [List.toFinset_append, List.toFinset_cons, List.toFinset_nil, Finset.union_comm]
    rw [← htake] at hnd htop
    by_cases hfull : p.m_udwCurrElemNum + 1 = p.m_udwMaxSortElemNum
    · -- the row is full and is put in order
      obtain ⟨row, hperm, hrow, hlen, heq⟩ := quickSort_whole hsort (k := p.m_udwMaxSortElemNum)
        (v := p.m_tpValues.set p.m_udwCurrElemNum t) (by rw [List.length_set]; omega)
        (by have := h.small; omega)
      simp only [if_pos hfull, heq]
      have hwhole : (row ++ (p.m_tpValues.set p.m_udwCurrElemNum t).drop
          p.m_udwMaxSortElemNum).take (p.m_udwCurrElemNum + 1) = row := by
        rw [List.take_append_of_le_length (by omega), List.take_of_length_le (by omega)]
      rw [← hfull] at hperm
      refine ⟨hmax, h.small, ?_, h.buffer, by dsimp only; omega, ?_, ?_, fun _ => ?_, h.unsorted⟩
      · rw [List.length_append, List.length_drop, List.length_set]
        omega
      · rw [hwhole]
        exact hperm.nodup_iff.mpr hnd
      · rw [hwhole, List.toFinset_eq_of_perm _ _ hperm]
        exact htop
      · refine heapTo_of_pairwise ?_
        rw [List.take_append_of_le_length (by omega), List.take_of_length_le (by omega)]
        exact hrow
    · simp only [if_neg hfull]
      exact ⟨hmax, h.small, by rw [List.length_set]; exact hroom, h.buffer, by dsimp only; omega, hnd,
        htop, fun he => absurd (he.trans hmax.symm) hfull, h.unsorted⟩

/-- The values of a heap that was put right are the same. -/
theorem Keeps.heapify (h : Keeps p n s) (hfull : p.m_udwCurrElemNum = n) {v : List T} {k : Nat}
    (hk : k < n) (hlen : v.length = p.m_tpValues.length) (hbut : HeapBut v n k)
    (hnd : (v.take n).Nodup) {s' : Finset T} (htop : IsTop n s' (v.take n).toFinset) :
    ∃ p', PriorSort.heapify { p with m_tpValues := v } k = some p' ∧ Keeps p' n s' := by
  have hroom := h.room
  have hbuffer := h.buffer
  have hv : n ≤ v.length := by omega
  have hless : n - k < n + 1 := by omega
  obtain ⟨v', hloop, hheap, hlen', hperm⟩ := heapifyLoop_spec h.small hv hk hless hbut
  refine ⟨{ p with m_tpValues := v' }, ?_, h.max, h.small, ?_, h.buffer, h.curr, ?_, ?_,
    fun _ => hheap, h.unsorted⟩
  · rw [PriorSort.heapify, if_pos (by dsimp only; omega)]
    simp only [h.max, Int.toNat_natCast, hloop, Option.map_some]
  · dsimp only
    omega
  · dsimp only
    rw [hfull]
    exact hperm.nodup_iff.mpr hnd
  · dsimp only
    rw [hfull, List.toFinset_eq_of_perm _ _ hperm]
    exact htop

/-- A value that comes when the heap is full. -/
theorem Keeps.replace (h : Keeps p n s) {quickSortAsc : List T → Int → Int → List T} (hn : 0 < n)
    (hfull : p.m_udwCurrElemNum = n) :
    ∃ p', p.add quickSortAsc t = some p' ∧ Keeps p' n (insert t s) := by
  have hmax := h.max
  have hroom := h.room
  have hcard := h.card
  have hfirst : p.m_tpValues[0]? = some p.m_tpValues[0] := List.getElem?_eq_getElem (by omega)
  have hin : p.m_tpValues[0] ∈ (p.m_tpValues.take p.m_udwCurrElemNum).toFinset := by
    refine List.mem_toFinset.mpr (List.mem_take_iff_getElem.mpr ⟨0, by omega, rfl⟩)
  have hmin : ∀ x ∈ (p.m_tpValues.take p.m_udwCurrElemNum).toFinset, p.m_tpValues[0] ≤ x := by
    intro x hx
    obtain ⟨i, hi, rfl⟩ := List.mem_take_iff_getElem.mp (List.mem_toFinset.mp hx)
    exact (h.heap hfull).first_le hroom hfirst i _ (by omega) (List.getElem?_eq_getElem (by omega))
  rw [add, if_neg (by omega), if_pos (by omega)]
  simp only [hfirst, Option.bind_eq_bind, Option.bind_some]
  by_cases hle : t ≤ p.m_tpValues[0]
  · rw [if_pos hle]
    exact ⟨p, rfl, { h with top := h.top.skip (by omega) hmin hle }⟩
  · rw [if_neg hle]
    cases hidx : (p.m_tpValues.take p.m_udwCurrElemNum).idxOf? t with
    | some i =>
      -- the value is there already, and the heap is in order below its place
      have hmem : t ∈ p.m_tpValues.take p.m_udwCurrElemNum := by
        by_contra hnot
        rw [List.idxOf?_eq_none_iff.mpr hnot] at hidx
        cases hidx
      have hi : i < n := by
        obtain ⟨hlt, -⟩ := List.idxOf?_eq_some_iff.mp hidx
        rw [List.length_take] at hlt
        omega
      have h31 := h.small
      dsimp only
      rw [tint32_eq (by omega) (by omega)]
      have hnd := h.nodup
      have htop := h.top.again (List.mem_toFinset.mpr hmem)
      rw [hfull] at hnd htop
      exact h.heapify hfull hi rfl ((h.heap hfull).but i) hnd htop
    | none =>
      have hnot : t ∉ p.m_tpValues.take p.m_udwCurrElemNum := List.idxOf?_eq_none_iff.mp hidx
      have hset : (p.m_tpValues.set 0 t).take n = t :: (p.m_tpValues.take n).tail := by
        obtain ⟨a, v, hv⟩ := List.exists_cons_of_length_pos (by omega : 0 < p.m_tpValues.length)
        obtain ⟨m, rfl⟩ := Nat.exists_eq_succ_of_ne_zero (Nat.ne_of_gt hn)
        rw [hv, List.set_cons_zero, List.take_succ_cons, List.take_succ_cons, List.tail_cons]
      have hold : p.m_tpValues.take n = p.m_tpValues[0] :: (p.m_tpValues.take n).tail := by
        obtain ⟨a, v, hv⟩ := List.exists_cons_of_length_pos (by omega : 0 < p.m_tpValues.length)
        obtain ⟨m, rfl⟩ := Nat.exists_eq_succ_of_ne_zero (Nat.ne_of_gt hn)
        simp only [hv, List.take_succ_cons, List.tail_cons, List.getElem_cons_zero]
      have hnd := h.nodup
      have htop := h.top.replace (by omega) hin hmin (fun he => hnot (List.mem_toFinset.mp he))
        (not_le.mp hle)
      rw [hfull, hold] at hnd htop hnot
      obtain ⟨hfirst', hrest⟩ := List.nodup_cons.mp hnd
      have hnd' : (t :: (p.m_tpValues.take n).tail).Nodup :=
        List.nodup_cons.mpr ⟨fun he => hnot (List.mem_cons_of_mem _ he), hrest⟩
      have hfin : (t :: (p.m_tpValues.take n).tail).toFinset =
          insert t ((p.m_tpValues[0] :: (p.m_tpValues.take n).tail).toFinset.erase
            p.m_tpValues[0]) := by
        rw [List.toFinset_cons, List.toFinset_cons, Finset.erase_insert fun he =>
          hfirst' (List.mem_toFinset.mp he)]
      rw [← hfin, ← hset] at htop
      rw [← hset] at hnd'
      exact h.heapify hfull hn (List.length_set ..) ((h.heap hfull).set_zero t) hnd' htop

/-! ## A whole search -/

variable {quickSortAsc : List T → Int → Int → List T}

theorem Keeps.add (h : Keeps p n s) (hsort : Sorts quickSortAsc) (hn : 0 < n) (t : T) :
    ∃ p', p.add quickSortAsc t = some p' ∧ Keeps p' n (insert t s) := by
  by_cases hlt : p.m_udwCurrElemNum < n
  · exact h.append hsort hlt
  · exact h.replace hn (Nat.le_antisymm h.curr (not_lt.mp hlt))

theorem Keeps.addAll (hsort : Sorts quickSortAsc) (hn : 0 < n) :
    ∀ {ts : List T} {s : Finset T} {p : PriorSort T}, Keeps p n s →
      ∃ p', p.addAll quickSortAsc ts = some p' ∧ Keeps p' n (ts.toFinset ∪ s) := by
  intro ts
  induction ts with
  | nil =>
    intro s p h
    exact ⟨p, rfl, by rwa [List.toFinset_nil, Finset.empty_union]⟩
  | cons t ts ih =>
    intro s p h
    obtain ⟨p₁, hadd, h₁⟩ := h.add hsort hn t
    obtain ⟨p', hall, h'⟩ := ih h₁
    refine ⟨p', ?_, ?_⟩
    · rw [PriorSort.addAll, List.foldlM_cons, hadd]
      exact hall
    · rwa [List.toFinset_cons, Finset.insert_union, ← Finset.union_insert]

theorem Keeps.fillResult (h : Keeps p n s) (hsort : Sorts quickSortAsc) :
    (p.fillResult quickSortAsc).1 = s.sort.drop (s.card - n) := by
  have hcurr := h.curr
  have hroom := h.room
  have hsmall := h.small
  have hlen : p.m_udwCurrElemNum ≤ p.m_tpValues.length := by omega
  have h31 : p.m_udwCurrElemNum ≤ 2 ^ 31 := by omega
  obtain ⟨row, hperm, hrow, hrowlen, heq⟩ := quickSort_whole hsort hlen h31
  have hfill : (p.fillResult quickSortAsc).1 = row := by
    rw [PriorSort.fillResult]
    simp only [h.unsorted, Bool.false_eq_true, if_false, heq]
    rw [List.take_append_of_le_length (by omega), List.take_of_length_le (by omega)]
  rw [hfill]
  exact h.top.sort_eq hrow (hperm.nodup_iff.mpr h.nodup) (List.toFinset_eq_of_perm _ _ hperm)

end

/-- **The top `n`.** Whatever was there before `Reset(n)`, `FillResult` returns the
largest of the added values, each once and in ascending order: `n` of them, or all
when there are fewer. -/
theorem fillResult_largest {quickSortAsc : List T → Int → Int → List T} (hsort : Sorts quickSortAsc)
    (p : PriorSort T) (n : Nat) (halloc : Allocated p n) (hn : 1 ≤ n)
    (hcap : n ≤ p.m_udwMaxElemNum) (tValues : List T) :
    ∃ p', (p.reset n).addAll quickSortAsc tValues = some p' ∧
      (p'.fillResult quickSortAsc).1 =
        tValues.toFinset.sort.drop (tValues.toFinset.card - n) := by
  have hrun : ∃ p', (p.reset n).addAll quickSortAsc tValues = some p' ∧
      Keeps p' n (tValues.toFinset ∪ ∅) := (reset_keeps halloc hn hcap).addAll hsort hn
  obtain ⟨p', hall, h⟩ := hrun
  rw [Finset.union_empty] at h
  exact ⟨p', hall, h.fillResult hsort⟩

/-- An insertion sort in place of `QuickSortAsc`. -/
def insertionSortAsc (pBuf : List Nat) (_dwLeft dwRight : Int) : List Nat :=
  (pBuf.take (dwRight + 1).toNat).insertionSort (· ≤ ·) ++ pBuf.drop (dwRight + 1).toNat

/-- Room for three values, of which one search keeps two. -/
def threeValues : PriorSort Nat := ⟨3, 0, [7, 7, 7], 21, 0, true⟩

theorem fillResult_largest_two :
    ∃ p', (threeValues.reset 2).addAll insertionSortAsc [5, 3, 5, 9, 4] = some p' ∧
      (p'.fillResult insertionSortAsc).1 = [5, 9] := by
  have hsort : Sorts insertionSortAsc := fun pBuf dwRight _ _ =>
    ⟨_, List.perm_insertionSort _ _, List.pairwise_insertionSort _ _, rfl⟩
  have halloc : Allocated threeValues 2 := ⟨by decide, rfl, by decide⟩
  obtain ⟨p', hall, hfill⟩ :=
    fillResult_largest hsort threeValues 2 halloc (by decide) (by decide) [5, 3, 5, 9, 4]
  have htop : IsTop 2 [5, 3, 5, 9, 4].toFinset {5, 9} := ⟨by decide, by decide, by decide⟩
  refine ⟨p', hall, hfill.trans ?_⟩
  exact (htop.sort_eq (l := [5, 9]) (by decide) (by decide) (by decide)).symm

end PriorSort

end CommonTools.Gary
