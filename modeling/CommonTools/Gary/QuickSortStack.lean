import CommonTools.Gary.QuickSortSound

/-! # The stack of `QuickSortAsc`

A range that waits takes three elements, so the guard of the stack is met in long arrays
only; there it is met, by elements that a partition splits next to their end, again and
again. -/
namespace CommonTools.Gary
open CommonTools.Lib CommonTools.Lib.RangeStack

/-! ## Elements that are split badly -/

/-- The middle of `0 … r` is smaller than the last and than the last but two only, and
`c` comes back when it has gone to its place. -/
def unbalanced (c : Int → Int) (r : Int) : Int → Int := fun i =>
  if i = r then r
  else if i = r - 1 then c (r / 2)
  else if i = r - 2 then r - 1
  else if i = r / 2 then r - 2
  else c i

/-- Elements on `0 … r` that are split so `d` times. -/
def unbalancedTimes : Nat → Int → Int → Int
  | 0, _ => id
  | d + 1, r => unbalanced (unbalancedTimes d (r - 3)) r

variable {w : Window} {c p : Int → Int} {r : Int}

theorem unbalanced_of_lt {i : Int} (hi : i ≤ r - 3) (hne : i ≠ r / 2) : unbalanced c r i = c i := by
  rw [unbalanced, if_neg (by omega), if_neg (by omega), if_neg (by omega), if_neg hne]

theorem unbalanced_middle (h16 : 16 ≤ r) : unbalanced c r (r / 2) = r - 2 := by
  rw [unbalanced, if_neg (by omega), if_neg (by omega), if_neg (by omega), if_pos rfl]

theorem unbalanced_last : unbalanced c r r = r := if_pos rfl

theorem unbalanced_pred : unbalanced c r (r - 1) = c (r / 2) := by
  rw [unbalanced, if_neg (by omega), if_pos rfl]

theorem unbalanced_pred_pred : unbalanced c r (r - 2) = r - 1 := by
  rw [unbalanced, if_neg (by omega), if_neg (by omega), if_pos rfl]

theorem unbalancedTimes_le : ∀ (d : Nat) (r : Int), 3 * d + 16 ≤ r → ∀ i, 0 ≤ i → i ≤ r →
    unbalancedTimes d r i ≤ r := by
  intro d
  induction d with
  | zero =>
    intro _ _ _ _ hi
    exact hi
  | succ d ih =>
    intro r hd i h0 hi
    have hle := ih (r - 3) (by omega)
    have hmiddle := hle (r / 2) (by omega) (by omega)
    have hother := hle i h0
    unfold unbalancedTimes unbalanced
    split_ifs <;> omega

theorem putInOrder_of_le {i j : Int} (hi : w.lo ≤ i ∧ i ≤ w.up) (hj : w.lo ≤ j ∧ j ≤ w.up)
    (hle : p i ≤ p j) : putInOrder w i j p = some p := by
  unfold putInOrder
  simp only [Window.read_eq hi.1 hi.2, Window.read_eq hj.1 hj.2, Option.bind_eq_bind,
    Option.bind_some]
  exact if_neg (not_lt.mpr hle)

/-- The middle goes to the end of the range, and nothing else moves. -/
theorem medianOfThree_unbalanced (hlo : w.lo ≤ 0) (hup : r ≤ w.up) (h16 : 16 ≤ r)
    (hfit : r < 2 ^ 31) (hc : ∀ i, 0 ≤ i → i ≤ r - 3 → c i < r - 2)
    (hp : ∀ i, 0 ≤ i → i ≤ r → p i = unbalanced c r i) :
    ∃ p', medianOfThree w 0 r p = some p' ∧ (∀ i, 0 ≤ i → i ≤ r - 3 → p' i = c i) ∧
      p' (r - 2) = r - 1 ∧ p' (r - 1) = r - 2 := by
  have hmid : tint32 (0 + r) >>> (1 : Nat) = r / 2 := by
    rw [middle_eq (Int.le_refl 0) (by omega) (by omega), Int.zero_add]
  obtain ⟨p', hexch, hp'⟩ : ∃ p', w.exchange (r / 2) (r - 1) p = some p' ∧
      ∀ i, p' i = p (Equiv.swap (r / 2) (r - 1) i) :=
    ⟨_, Window.exchange_eq (by omega) (by omega), fun _ => rfl⟩
  have hkeep : ∀ i, 0 ≤ i → i ≤ r → i ≠ r / 2 → i ≠ r - 1 → p' i = unbalanced c r i := by
    intro i h0 hi hne hne'
    rw [hp', Equiv.swap_apply_of_ne_of_ne hne hne', hp i h0 hi]
  have hleft : ∀ i, 0 ≤ i → i ≤ r - 3 → p' i = c i := by
    intro i h0 hi
    by_cases heq : i = r / 2
    · rw [hp', heq, Equiv.swap_apply_left, hp _ (by omega) (by omega), unbalanced_pred]
    · rw [hkeep i h0 (by omega) heq (by omega), unbalanced_of_lt hi heq]
  have hlast : p' r = r := by
    rw [hkeep r (by omega) (by omega) (by omega) (by omega), unbalanced_last]
  have hpred : p' (r - 1) = r - 2 := by
    rw [hp', Equiv.swap_apply_right, hp _ (by omega) (by omega), unbalanced_middle h16]
  have hfirst : p' 0 < r - 2 := by
    rw [hleft 0 (by omega) (by omega)]
    exact hc 0 (by omega) (by omega)
  refine ⟨p', ?_, hleft, ?_, hpred⟩
  · unfold medianOfThree
    simp only [hmid, hexch, Option.bind_eq_bind, Option.bind_some]
    rw [putInOrder_of_le (by omega) (by omega) (by omega), Option.bind_some,
      putInOrder_of_le (by omega) (by omega) (by omega), Option.bind_some,
      putInOrder_of_le (by omega) (by omega) (by omega)]
  · rw [hkeep _ (by omega) (by omega) (by omega) (by omega), unbalanced_pred_pred]

/-- Two elements stand behind the split, and `c` in front of it. -/
theorem partition_unbalanced (hlo : w.lo ≤ 0) (hup : r ≤ w.up) (h16 : 16 ≤ r)
    (hfit : r < 2 ^ 31) (hc : ∀ i, 0 ≤ i → i ≤ r - 3 → c i < r - 2)
    (hp : ∀ i, 0 ≤ i → i ≤ r → p i = unbalanced c r i) {rounds : Nat} (hrounds : r < rounds) :
    ∃ p', partition w rounds 0 r p = some (r - 2, p') ∧ ∀ i, 0 ≤ i → i ≤ r - 3 → p' i = c i := by
  obtain ⟨p₁, hmedian, hleft, hhigh, hV⟩ := medianOfThree_unbalanced hlo hup h16 hfit hc hp
  have hstop : r - 2 ≤ p₁ (r - 2) := by omega
  obtain ⟨k, hright, h0k, hk, hbefore, hat⟩ :=
    scanRight_spec (by omega : r - 2 ≤ w.up) hstop rounds 0 (by omega) (by omega) (by omega)
  -- in front of `r - 2` all is smaller
  obtain rfl : k = r - 2 := by
    by_contra hne
    have hlt := hc k (by omega) (by omega)
    rw [hleft k (by omega) (by omega)] at hat
    omega
  obtain ⟨n, rfl⟩ : ∃ n, rounds = n + 1 := ⟨rounds - 1, by omega⟩
  have hscan : scanLeft w (r - 2) (r - 2) p₁ (n + 1) (r - 1) = some (r - 2) := by
    unfold scanLeft
    rw [show r - 1 - 1 = r - 2 by omega, Window.read_eq (by omega) (by omega)]
    simp only [Option.bind_eq_bind, Option.bind_some, hhigh]
    rw [if_pos (by omega), if_pos trivial]
  have hloop : partitionLoop w (r - 2) (n + 1) (n + 1) 0 (r - 1) p₁ = some (r - 2, p₁) := by
    unfold partitionLoop
    rw [hright]
    simp only [Option.bind_eq_bind, Option.bind_some, hscan]
    exact if_pos (Int.le_refl _)
  refine ⟨fun i => p₁ (Equiv.swap (r - 1) (r - 2) i), ?_, fun i h0 hi => ?_⟩
  · unfold partition
    rw [hmedian]
    simp only [Option.bind_eq_bind, Option.bind_some]
    rw [Window.read_eq (by omega) (by omega), Option.bind_some, hV, hloop, Option.bind_some,
      Window.exchange_eq (by omega) (by omega), Option.bind_some]
  · show p₁ (Equiv.swap (r - 1) (r - 2) i) = c i
    rw [Equiv.swap_apply_of_ne_of_ne (by omega) (by omega)]
    exact hleft i h0 hi

/-- `d` partitions leave `d` ranges that wait, if the guard does not end the run before. -/
theorem sortLoop_unbalancedTimes {up size : Int} {rounds : Nat} (hup : up < 2 ^ 31)
    (hrounds : up < rounds) : ∀ (d n : Nat) (r : Int) (stack : List (Int × Int)) (p : Int → Int),
      d < n → 3 * d + 16 ≤ r → r ≤ up → size - 4 ≤ 2 * (stack.length + d) →
      (∀ i, 0 ≤ i → i ≤ r → p i = unbalancedTimes d r i) →
      ∃ p', sortLoop ⟨0, up⟩ size rounds n ((0, r) :: stack) p = some (-1, p')
  | 0, n + 1, r, stack, p, _, h16, hr, hsize, _ => by
    obtain ⟨k, p', hstep, -⟩ := partition_spec (w := ⟨0, up⟩) (Int.le_refl 0) hr (Int.le_refl 0)
      (by omega) (by omega) (by omega : r - 0 < rounds) p
    refine ⟨p', ?_⟩
    rw [sortLoop, if_neg (by omega), hstep]
    exact if_pos (by omega)
  | d + 1, n + 1, r, stack, p, hn, h16, hr, hsize, hp => by
    have hc : ∀ i, 0 ≤ i → i ≤ r - 3 → unbalancedTimes d (r - 3) i < r - 2 := by
      intro i h0 hi
      have hle := unbalancedTimes_le d (r - 3) (by omega) i h0 hi
      omega
    obtain ⟨p₁, hstep, hleft⟩ := partition_unbalanced (w := ⟨0, up⟩) (Int.le_refl 0) hr (by omega)
      (by omega) hc hp (by omega : r < rounds)
    rw [sortLoop, if_neg (by omega), hstep]
    by_cases hfull : size - 4 ≤ 2 * stack.length
    · exact ⟨p₁, if_pos hfull⟩
    · have hsize' : size - 4 ≤ 2 * (((r - 1, r) :: stack).length + d) := by
        rw [List.length_cons]
        omega
      obtain ⟨p', hrest⟩ := sortLoop_unbalancedTimes hup hrounds d n (r - 3)
        ((r - 1, r) :: stack) p₁ (by omega) (by omega) (by omega) hsize' hleft
      refine ⟨p', ?_⟩
      have hsides : sides 0 r (r - 2) = [(0, r - 3), (r - 1, r)] := by
        rw [sides, if_pos (by omega), if_pos (by omega), show r - 2 - 1 = r - 3 by omega,
          show r - 2 + 1 = r - 1 by omega]
        rfl
      simp only [Option.bind_eq_bind, Option.bind_some, if_neg hfull]
      rw [push_sides hfull, hsides]
      exact hrest

/-! ## The guard -/

/-- A range that is too short for the guard is sorted. -/
theorem quickSortAsc_short {T : Type} [LinearOrder T] {dwLeft dwRight : Int} (h0 : 0 ≤ dwLeft)
    (hfit : dwRight < 2 ^ 30 + 8)
    (hshort : dwRight - dwLeft < 96 * (1 + Nat.log 2 (dwRight - 1).toNat) + 10) (pBuf : Int → T) :
    ∃ pBuf', quickSortAsc pBuf dwLeft dwRight = some (0, pBuf') ∧
      Rearranged dwLeft dwRight pBuf pBuf' ∧ SortedOn (· ≤ ·) dwLeft dwRight pBuf' := by
  obtain ⟨ret, pBuf', heq, hrearr, hended⟩ := quickSortAsc_spec h0 hfit pBuf
  rcases hended with ⟨rfl, hsorted⟩ | ⟨-, waiting, hfull, hwaiting⟩
  · exact ⟨pBuf', heq, hrearr, hsorted⟩
  · unfold stackSize at hfull
    omega

theorem quickSortAsc_unbalancedTimes {dwRight : Int} (hup : dwRight < 2 ^ 31) {d : Nat}
    (hlong : 3 * d + 16 ≤ dwRight) (hsize : stackSize dwRight - 4 ≤ 2 * d) :
    ∃ pBuf', quickSortAsc (unbalancedTimes d dwRight) 0 dwRight = some (-1, pBuf') := by
  rw [quickSortAsc_eq (Int.le_refl 0) (by omega)]
  exact sortLoop_unbalancedTimes hup (by omega) d _ dwRight [] _ (by omega) hlong
    (Int.le_refl dwRight) (by simpa using hsize) fun _ _ _ => rfl

/-- **`QuickSortAsc` sorts or gives up by itself, and it never gives up exactly where the
stack has room for every third element.** -/
theorem quickSortAsc_stack (dwRight : Int) (h31 : dwRight < 2 ^ 31) :
    (dwRight < 2 ^ 30 + 8 → ∀ (T : Type) [LinearOrder T] (pBuf : Int → T), ∃ ret pBuf',
      quickSortAsc pBuf 0 dwRight = some (ret, pBuf') ∧
        (ret = 0 ∧ SortedOn (· ≤ ·) 0 dwRight pBuf' ∨ ret = -1)) ∧
    ((∀ (T : Type) [LinearOrder T] (pBuf : Int → T), ∃ pBuf',
      quickSortAsc pBuf 0 dwRight = some (0, pBuf')) ↔
        dwRight < 96 * (1 + Nat.log 2 (dwRight - 1).toNat) + 10) := by
  constructor
  · intro hfit T _ pBuf
    obtain ⟨ret, pBuf', heq, -, hended⟩ := quickSortAsc_spec (Int.le_refl 0) hfit pBuf
    exact ⟨ret, pBuf', heq, hended.imp_right And.left⟩
  constructor
  · intro hzero
    by_contra hlong
    obtain ⟨d, hd⟩ : ∃ d : Nat, stackSize dwRight - 4 = 2 * d :=
      ⟨32 * Nat.log 2 (dwRight - 1).toNat + 30, by unfold stackSize; push_cast; omega⟩
    have hlong' : 3 * d + 16 ≤ dwRight := by
      unfold stackSize at hd
      omega
    obtain ⟨pBuf', hminus⟩ := quickSortAsc_unbalancedTimes h31 hlong' (by omega)
    obtain ⟨pBuf'', heq⟩ := hzero Int (unbalancedTimes d dwRight)
    rw [hminus] at heq
    cases heq
  · intro hshort T _ pBuf
    have hlog : Nat.log 2 (dwRight - 1).toNat < 32 := Nat.log_lt_of_lt_pow' (by omega) (by omega)
    obtain ⟨pBuf', heq, -⟩ := quickSortAsc_short (Int.le_refl 0) (by omega : dwRight < 2 ^ 30 + 8)
      (by rwa [Int.sub_zero]) pBuf
    exact ⟨pBuf', heq⟩

/-- 970 elements are always sorted. -/
theorem quickSortAsc_970 :
    ∃ pBuf', quickSortAsc (fun i : Int => -i) 0 969 = some (0, pBuf') :=
  (quickSortAsc_stack 969 (by decide)).2.mpr (by decide) Int _

/-- 971 elements for which the stack of 640 numbers is too small. -/
theorem quickSortAsc_gives_up :
    ∃ pBuf', quickSortAsc (unbalancedTimes 318 970) 0 970 = some (-1, pBuf') :=
  quickSortAsc_unbalancedTimes (by decide) (by decide) (by decide)

end CommonTools.Gary
