import CommonTools.Gary.DictionarySound

/-! # A lookup that goes on from a node

The second `LookUp` returns a node and can start at one. It folds capital letters
outside of two-byte characters, so a word may be cut between characters only. -/
namespace CommonTools.Gary.Dictionary
open CommonTools.Lib

/-- `cTheChar` after the conversion; a `TCHAR` from 0x80 on is negative. -/
def foldChar (c : UInt8) : UInt8 := if 0x41 ≤ c ∧ c ≤ 0x5a then c - (0x41 - 0x61) else c

/-- The loop of `LookUp` from `pCharNode` on. -/
def lookUpLoop (d : Dictionary) : NodePtr → Int → Bytes → Option NodePtr
  | pCharNode, _, [] => some pCharNode
  | pCharNode, dwNeedWordMatchLen, c :: pWord =>
    let (cTheChar, dwNeedWordMatchLen) :=
      if dwNeedWordMatchLen = 0 then
        if 0x80 ≤ c then (c, 2) else (foldChar c, 1)
      else (c, dwNeedWordMatchLen)
    match (d.node pCharNode).next cTheChar with
    | none => none
    | some pCharNode => lookUpLoop d pCharNode (dwNeedWordMatchLen - 1) pWord

/-- `LookUp` with three arguments; `none` is `NULL`, for `pBeginNode` and for the
result. A null pointer counts as the empty word. -/
def lookUpNode (d : Dictionary) (pWord : Bytes) (pBeginNode : Option NodePtr) : Option NodePtr :=
  if pWord = [] then none else lookUpLoop d (pBeginNode.getD .root) 0 pWord

/-! ## Characters -/

/-- A byte from 0x80 on takes the following byte with it, which is there. -/
def wholeChars : Bytes → Bool
  | [] => true
  | [c] => decide (c < 0x80)
  | c :: t :: w => if 0x80 ≤ c then wholeChars w else wholeChars (t :: w)

/-- `A` to `Z` as `a` to `z`, outside of two-byte characters. -/
def foldWord : Bytes → Bytes
  | [] => []
  | [c] => if 0x80 ≤ c then [c] else [foldChar c]
  | c :: t :: w => if 0x80 ≤ c then c :: t :: foldWord w else foldChar c :: foldWord (t :: w)

theorem foldWord_append : ∀ {u : Bytes} (v : Bytes), wholeChars u = true →
    foldWord (u ++ v) = foldWord u ++ foldWord v
  | [], v, _ => rfl
  | [c], [], h => by rw [List.append_nil, foldWord, List.append_nil]
  | [c], t :: v, h => by
    have hc : ¬ 0x80 ≤ c := UInt8.not_le.mpr (decide_eq_true_iff.mp h)
    rw [foldWord, if_neg hc, List.singleton_append, foldWord, if_neg hc, List.singleton_append]
  | c :: t :: u, v, h => by
    rw [wholeChars] at h
    by_cases hc : 0x80 ≤ c
    · rw [if_pos hc] at h
      rw [List.cons_append, List.cons_append, foldWord, if_pos hc, foldWord, if_pos hc,
        foldWord_append v h, List.cons_append, List.cons_append]
    · rw [if_neg hc] at h
      have hrest := foldWord_append v h
      rw [List.cons_append] at hrest
      rw [List.cons_append, List.cons_append, foldWord, if_neg hc, foldWord, if_neg hc, hrest,
        List.cons_append]

/-! ## The loop -/

section
variable (d : Dictionary) {p : NodePtr} {c : UInt8} {w : Bytes}

theorem lookUpLoop_wide (hc : 0x80 ≤ c) : lookUpLoop d p 0 (c :: w) =
    ((d.node p).next c).bind fun q => lookUpLoop d q 1 w := by
  rw [lookUpLoop]
  simp only [if_true, if_pos hc]
  cases (d.node p).next c with
  | none => rfl
  | some q => rfl

theorem lookUpLoop_narrow (hc : ¬ 0x80 ≤ c) : lookUpLoop d p 0 (c :: w) =
    ((d.node p).next (foldChar c)).bind fun q => lookUpLoop d q 0 w := by
  rw [lookUpLoop]
  simp only [if_true, if_neg hc]
  cases (d.node p).next (foldChar c) with
  | none => rfl
  | some q => rfl

/-- The second byte of a character is taken as it is. -/
theorem lookUpLoop_trail : lookUpLoop d p 1 (c :: w) =
    ((d.node p).next c).bind fun q => lookUpLoop d q 0 w := by
  rw [lookUpLoop]
  have hone : ¬ (1 : Int) = 0 := by decide
  simp only [if_neg hone]
  cases (d.node p).next c with
  | none => rfl
  | some q => rfl

end

/-- Between two characters the loop follows the folded word. -/
theorem lookUpLoop_eq_follow (d : Dictionary) : ∀ (w : Bytes) (p : NodePtr),
    lookUpLoop d p 0 w = follow (fun p c => (d.node p).next c) p (foldWord w)
  | [], p => rfl
  | [c], p => by
    by_cases hc : 0x80 ≤ c
    · rw [lookUpLoop_wide d hc, foldWord, if_pos hc]
      rfl
    · rw [lookUpLoop_narrow d hc, foldWord, if_neg hc]
      rfl
  | c :: t :: w, p => by
    by_cases hc : 0x80 ≤ c
    · rw [lookUpLoop_wide d hc, foldWord, if_pos hc, follow]
      refine congrArg _ (funext fun q => ?_)
      rw [lookUpLoop_trail, follow]
      exact congrArg _ (funext fun r => lookUpLoop_eq_follow d w r)
    · rw [lookUpLoop_narrow d hc, foldWord, if_neg hc, follow]
      exact congrArg _ (funext fun q => lookUpLoop_eq_follow d (t :: w) q)

theorem lookUpNode_eq_follow (d : Dictionary) {w : Bytes} (hw : w ≠ [])
    (pBeginNode : Option NodePtr) : lookUpNode d w pBeginNode =
      follow (fun p c => (d.node p).next c) (pBeginNode.getD .root) (foldWord w) := by
  rw [lookUpNode, if_neg hw, lookUpLoop_eq_follow]

/-- In the tree of a run the node is the one that stands for the folded word. -/
theorem lookUpNode_eq_some_iff {d : Dictionary} {path : NodePtr → Option Bytes} (h : Tree d path)
    {w : Bytes} (hw : w ≠ []) {p : NodePtr} :
    lookUpNode d w none = some p ↔ path p = some (foldWord w) := by
  rw [lookUpNode_eq_follow d hw]
  exact h.tree.follow_iff

/-- **A lookup can be cut between characters.** A word of at least one byte ends at the
node of the folded word, the empty word at none. -/
theorem lookUpNode_resume (d : Dictionary) :
    (∀ u v, u ≠ [] → wholeChars u = true → v ≠ [] →
        lookUpNode d (u ++ v) none =
          (lookUpNode d u none).bind fun p => lookUpNode d v (some p)) ∧
      (∀ w, w ≠ [] → lookUpNode d w none =
        follow (fun p c => (d.node p).next c) .root (foldWord w)) ∧
      lookUpNode d [] none = none := by
  refine ⟨fun u v hu hwhole hv => ?_, fun w hw => lookUpNode_eq_follow d hw none, if_pos rfl⟩
  rw [lookUpNode_eq_follow d (List.append_ne_nil_of_left_ne_nil hu v), foldWord_append v hwhole,
    follow_append, lookUpNode_eq_follow d hu]
  exact congrArg _ (funext fun p => (lookUpNode_eq_follow d hv (some p)).symm)

/-- A two-byte character whose second byte is `A`, and then `A` alone. -/
theorem lookUpNode_resume_wide :
    ∃ s, run 4 [.addWord [0x81, 0x41, 0x61]] = some s ∧ ∃ p,
      lookUpNode s.2 [0x81, 0x41] none = some p ∧
      lookUpNode s.2 [0x81, 0x41, 0x41] none = lookUpNode s.2 [0x41] (some p) ∧
      (lookUpNode s.2 [0x41] (some p)).isSome := by
  have heval : (run 4 [.addWord [0x81, 0x41, 0x61]]).map (fun s =>
      ((lookUpNode s.2 [0x81, 0x41] none).isSome,
        (lookUpNode s.2 [0x81, 0x41, 0x41] none).isSome)) = some (true, true) := by
    decide +kernel
  obtain ⟨s, hrun, hfound⟩ := Option.map_eq_some_iff.mp heval
  obtain ⟨hu, hword⟩ := Prod.mk.inj hfound
  obtain ⟨p, hp⟩ := Option.isSome_iff_exists.mp hu
  have hcut := (lookUpNode_resume s.2).1 [0x81, 0x41] [0x41] (by decide) (by decide) (by decide)
  rw [hp, Option.bind_some] at hcut
  refine ⟨s, hrun, p, hp, hcut, ?_⟩
  rw [← hcut]
  exact hword

/-- The empty word is not looked up, though the root is its node. -/
theorem lookUpNode_empty : ¬ ∀ (d : Dictionary) (w : Bytes), lookUpNode d w none =
    follow (fun p c => (d.node p).next c) .root (foldWord w) := by
  intro h
  exact absurd (h new []) (by decide)

end CommonTools.Gary.Dictionary
