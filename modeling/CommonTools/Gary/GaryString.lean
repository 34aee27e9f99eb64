import CommonTools.Lib.CString
import CommonTools.Lib.Separator

/-! # `StringSplit` of `gary_string.h`

A search for the separator from the left; what stands between two occurrences goes
to the result unless it is empty. -/
namespace CommonTools.Gary
open CommonTools.Lib

/-- The loop of `StringSplit` and what follows it. `nSplitWordLen` is an `unsigned int`; when it
is 0, as with an empty separator, the source does not leave the loop, and no fuel is enough. -/
def splitLoop (strItem splitWord : Bytes) : Nat → Nat → List Bytes → Option (List Bytes)
  | 0, _, _ => none
  | fuel + 1, posFindBegin, vectRes =>
    match find splitWord (strItem.drop posFindBegin) with
    | none =>
      some (if posFindBegin < strItem.length then vectRes ++ [strItem.drop posFindBegin]
        else vectRes)
    | some k =>
      let posOnePart := posFindBegin + k
      let nSplitWordLen := splitWord.length % 2 ^ 32
      splitLoop strItem splitWord fuel (posOnePart + nSplitWordLen)
        (if posOnePart ≠ posFindBegin then
          vectRes ++ [(strItem.drop posFindBegin).take (posOnePart - posFindBegin)]
        else vectRes)

/-- `StringSplit`, what `vectRes` holds afterwards; every round but the last passes a
character. -/
def stringSplit (strItem splitWord : Bytes) : Option (List Bytes) :=
  splitLoop strItem splitWord (strItem.length + 1) 0 []

theorem splitLoop_pieces {strItem splitWord : Bytes} (hsep : splitWord ≠ [])
    (hsize : splitWord.length < 2 ^ 32) :
    ∀ (fuel posFindBegin : Nat) (vectRes : List Bytes), strItem.length < fuel + posFindBegin →
      posFindBegin ≤ strItem.length →
      ∃ l, Pieces splitWord (strItem.drop posFindBegin) l ∧
        splitLoop strItem splitWord fuel posFindBegin vectRes = some (vectRes ++ l) := by
  intro fuel
  induction fuel with
  | zero =>
    intro _ _ hfuel hpos
    exact absurd hfuel (by omega)
  | succ fuel ih =>
    intro posFindBegin vectRes hfuel hpos
    have hlen := List.length_pos_iff.mpr hsep
    unfold splitLoop
    simp only [Nat.mod_eq_of_lt hsize]
    cases hfind : find splitWord (strItem.drop posFindBegin) with
    | none =>
      by_cases hrest : posFindBegin < strItem.length
      · have hne : strItem.drop posFindBegin ≠ [] := by
          rw [← List.length_pos_iff, List.length_drop]
          omega
        exact ⟨[_], .last hfind hne, congrArg some (if_pos hrest)⟩
      · have hnil : strItem.drop posFindBegin = [] := List.drop_eq_nil_of_le (by omega)
        rw [hnil] at hfind ⊢
        refine ⟨[], .nil hfind, ?_⟩
        rw [List.append_nil]
        exact congrArg some (if_neg hrest)
    | some k =>
      have hle := find_le hfind
      rw [List.length_drop] at hle
      have hin : posFindBegin + k + splitWord.length ≤ strItem.length := by omega
      by_cases hk : k = 0
      · subst hk
        obtain ⟨l, hl, hloop⟩ := ih (posFindBegin + 0 + splitWord.length)
          vectRes (by omega) hin
        refine ⟨l, .skip hfind ?_, ?_⟩
        · rw [List.drop_drop]
          exact hl
        · simp only [ne_eq, Nat.add_zero, not_true_eq_false, if_false] at hloop ⊢
          exact hloop
      · obtain ⟨l, hl, hloop⟩ := ih (posFindBegin + k + splitWord.length)
          (vectRes ++ [(strItem.drop posFindBegin).take k]) (by omega) hin
        refine ⟨(strItem.drop posFindBegin).take k :: l, .cut hfind (Nat.pos_of_ne_zero hk) ?_, ?_⟩
        · rw [List.drop_drop, ← Nat.add_assoc]
          exact hl
        · have hmoved : posFindBegin + k ≠ posFindBegin := by omega
          simp only [if_pos hmoved, Nat.add_sub_cancel_left, hloop, List.append_assoc,
            List.singleton_append]

theorem stringSplit_pieces {strItem splitWord : Bytes} (hsep : splitWord ≠ [])
    (hsize : splitWord.length < 2 ^ 32) :
    ∃ l, Pieces splitWord strItem l ∧ stringSplit strItem splitWord = some l := by
  obtain ⟨l, hl, hloop⟩ := @splitLoop_pieces strItem _ hsep hsize (strItem.length + 1) 0 []
    (Nat.lt_succ_self _) (Nat.zero_le _)
  exact ⟨l, hl, hloop⟩

theorem stringSplit_eq_some_iff {strItem splitWord : Bytes} (hsep : splitWord ≠ [])
    (hsize : splitWord.length < 2 ^ 32) {l : List Bytes} :
    stringSplit strItem splitWord = some l ↔ Pieces splitWord strItem l := by
  obtain ⟨l', hl', hsplit⟩ := @stringSplit_pieces strItem _ hsep hsize
  rw [hsplit, Option.some.injEq]
  constructor
  · intro h
    exact h ▸ hl'
  · exact fun h => hl'.unique h

theorem stringSplit_byte (s : Bytes) (x : UInt8) :
    stringSplit s [x] = some ((s.splitOn x).filter (· ≠ [])) :=
  (stringSplit_eq_some_iff (by simp) (by simp)).mpr (pieces_singleton x s)

end CommonTools.Gary
