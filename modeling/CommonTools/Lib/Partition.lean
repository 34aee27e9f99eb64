import CommonTools.Lib.PartialList

/-! # Quicksort over an index range of a vector

The two scans and the exchange loop that the index structures share. Indices
are machine `int`s, so they may run below zero; a read outside the vector is
`none`. `goesLeft` says on which side of the split an element belongs. -/
namespace CommonTools.Lib

section Vector
variable {α : Type}

/-- Exchange through a temporary and the element type's own `operator=`. -/
def wap (assign : α → α → α) (tmp : α) (vect : List α) (i j : Int) : Option (List α) := do
  let node1 ← at? vect i
  let node2 ← at? vect j
  let tmp := assign tmp node1
  let vect ← put? vect i (assign node1 node2)
  put? vect j (assign node2 tmp)

theorem wap_length {assign : α → α → α} {tmp : α} {vect vect' : List α} {i j : Int}
    (h : wap assign tmp vect i j = some vect') : vect'.length = vect.length := by
  obtain ⟨node1, -, h⟩ := Option.bind_eq_some_iff.mp h
  obtain ⟨node2, -, h⟩ := Option.bind_eq_some_iff.mp h
  obtain ⟨vect1, hput, h⟩ := Option.bind_eq_some_iff.mp h
  exact (put?_length h).trans (put?_length hput)

/-- Exchange of two elements that are copied whole. -/
def swap (vect : List α) (i j : Int) : Option (List α) := do
  let node1 ← at? vect i
  let node2 ← at? vect j
  let vect ← put? vect i node2
  put? vect j node1

/-- Where `operator=` copies the whole element, both are the same. -/
theorem wap_eq_swap {assign : α → α → α} (hassign : ∀ dst src, assign dst src = src) (tmp : α) :
    wap assign tmp = swap := by
  funext vect i j
  simp only [wap, swap, hassign]

end Vector

section Scan
variable {α : Type} (goesLeft : α → Option Bool)

/-- `while (left < right && goesLeft(vect[left])) left++`; the first argument
is the number of steps the bound leaves. -/
def scanUp (vect : List α) (right : Int) : Nat → Int → Option Int
  | 0, left => some left
  | n + 1, left =>
    if left < right then do
      let node ← at? vect left
      if ← goesLeft node then scanUp vect right n (left + 1) else some left
    else some left

/-- `while (left <= right && right > key && !goesLeft(vect[right])) right--`. -/
def scanDown (vect : List α) (left key : Int) : Nat → Int → Option Int
  | 0, right => some right
  | n + 1, right =>
    if left ≤ right ∧ key < right then do
      let node ← at? vect right
      if ← goesLeft node then some right else scanDown vect left key n (right - 1)
    else some right

/-- The exchange loop `while (left < right)` of a partition. -/
def exchange (exch : List α → Int → Int → Option (List α)) (key : Int) :
    Nat → List α → Int → Int → Option (List α × Int × Int)
  | 0, vect, left, right => some (vect, left, right)
  | n + 1, vect, left, right =>
    if left < right then do
      let left ← scanUp goesLeft vect right (right - left).toNat left
      let right ← scanDown goesLeft vect left key (right - left + 1).toNat right
      if left < right then
        let vect ← exch vect left right
        exchange exch key n vect (left + 1) (right - 1)
      else some (vect, left, right)
    else some (vect, left, right)

/-- Where `scanUp` stands still: the first element already goes right. -/
theorem scanUp_stay {vect : List α} {left right : Int} {a : α} (n : Nat)
    (ha : at? vect left = some a) (hg : goesLeft a = some false) :
    scanUp goesLeft vect right n left = some left := by
  cases n with
  | zero => rfl
  | succ n => simp [scanUp, ha, hg]

/-- When nothing between `key` and `right` goes left, `scanDown` ends just
below `left`. -/
theorem scanDown_through {vect : List α} {left key : Int} (hk : key = left - 1) :
    ∀ (n : Nat) (right : Int), right - left + 1 = n →
      (∀ i, left ≤ i → i ≤ right → ∃ a, at? vect i = some a ∧ goesLeft a = some false) →
      scanDown goesLeft vect left key n right = some key := by
  intro n
  induction n with
  | zero =>
    intro right hn _
    have hr : right = key := by omega
    simp [scanDown, hr]
  | succ n ih =>
    intro right hn hall
    obtain ⟨a, ha, hg⟩ := hall right (by omega) (by omega)
    have hcond : left ≤ right ∧ key < right := by omega
    simp only [scanDown, if_pos hcond, ha, Option.bind_eq_bind, Option.bind_some, hg]
    exact ih (right - 1) (by omega) fun i hi hir => hall i hi (by omega)

/-- If every element belongs to the right part, the exchange loop leaves the
vector alone and ends with `right` on the key. -/
theorem exchange_stay {exch : List α → Int → Int → Option (List α)} {vect : List α}
    {left right key : Int} (hk : key = left - 1) (hlr : left < right)
    (hall : ∀ i, left ≤ i → i ≤ right → ∃ a, at? vect i = some a ∧ goesLeft a = some false) :
    exchange goesLeft exch key (right - left).toNat vect left right = some (vect, left, key) := by
  obtain ⟨n, hn⟩ : ∃ n, (right - left).toNat = n + 1 := ⟨(right - left).toNat - 1, by omega⟩
  obtain ⟨a, ha, hg⟩ := hall left (Int.le_refl _) (by omega)
  have hup := @scanUp_stay _ goesLeft vect left right a (n + 1) ha hg
  have hdown := scanDown_through goesLeft hk (right - left + 1).toNat right (by omega) hall
  have hend : ¬ left < key := by omega
  rw [hn]
  simp only [exchange, if_pos hlr, hn, hup, hdown, Option.bind_eq_bind, Option.bind_some,
    if_neg hend]

theorem exchange_keeps {exch : List α → Int → Int → Option (List α)} {key : Int}
    {P : List α → Prop} (hexch : ∀ {v v' i j}, P v → exch v i j = some v' → P v') :
    ∀ {n : Nat} {vect : List α} {left right : Int} {r : List α × Int × Int}, P vect →
      exchange goesLeft exch key n vect left right = some r → P r.1 := by
  intro n
  induction n with
  | zero =>
    intro _ _ _ _ h he
    cases he
    exact h
  | succ n ih =>
    intro vect left right r h he
    rw [exchange] at he
    split at he
    · obtain ⟨left', -, he⟩ := Option.bind_eq_some_iff.mp he
      obtain ⟨right', -, he⟩ := Option.bind_eq_some_iff.mp he
      split at he
      · obtain ⟨vect', hexch', he⟩ := Option.bind_eq_some_iff.mp he
        exact ih (hexch h hexch') he
      · cases he
        exact h
    · cases he
      exact h

end Scan

end CommonTools.Lib
