import CommonTools.Gary.Dictionary

/-! # The dictionary over a run

The nodes that hang together from the root form a tree of words; what else lies
in the pool is left over from before a `Reset`. An insertion only adds leaves,
with a negative index, and at its end makes the index of one node positive. -/
namespace CommonTools.Gary.Dictionary
open CommonTools.Lib

/-! ## The tree in the pool -/

/-- The nodes below `m_dwCurNodeIndex` that have a word form a tree. -/
structure Tree (d : Dictionary) (path : NodePtr → Option Bytes) : Prop where
  tree : PathTree .root (fun p c => (d.node p).next c) path
  cur_pos : 0 < d.m_dwCurNodeIndex
  pooled : ∀ {i u}, path (.pool i) = some u → 0 < i ∧ (i : Int) < d.m_dwCurNodeIndex

/-- New leaves have negative indices; all other nodes stay. -/
structure Grown (d : Dictionary) (path : NodePtr → Option Bytes) (d' : Dictionary)
    (path' : NodePtr → Option Bytes) : Prop where
  tree : Tree d' path'
  keep : ∀ {p u}, path p = some u → path' p = some u ∧ (d'.node p).dwIndex = (d.node p).dwIndex
  fresh : ∀ {p u}, path' p = some u → path p = some u ∨
    (∀ q, path q ≠ some u) ∧ ∃ i : Nat, p = .pool i ∧ (d'.node p).dwIndex = -i

section
variable {d d' d'' : Dictionary} {path path' path'' : NodePtr → Option Bytes}

theorem Grown.refl (h : Tree d path) : Grown d path d path :=
  ⟨h, fun hp => ⟨hp, rfl⟩, fun hp => .inl hp⟩

theorem Grown.trans (h : Grown d path d' path') (h' : Grown d' path' d'' path'') :
    Grown d path d'' path'' := by
  refine ⟨h'.tree, fun hp => ?_, fun {p u} hp => ?_⟩
  · obtain ⟨hp', hd⟩ := h.keep hp
    obtain ⟨hp'', hd'⟩ := h'.keep hp'
    exact ⟨hp'', hd'.trans hd⟩
  · rcases h'.fresh hp with hp' | ⟨hno, hnew⟩
    · rcases h.fresh hp' with hp₀ | ⟨hno, i, hi, hd⟩
      · exact .inl hp₀
      · exact .inr ⟨hno, i, hi, (h'.keep hp').2.trans hd⟩
    · exact .inr ⟨fun q hq => hno q (h.keep hq).1, hnew⟩

theorem tree_root (h : Tree d path) {p : NodePtr} {u : Bytes} (hp : path p = some u) (hu : u ≠ []) :
    ∃ i, p = .pool i := by
  cases p with
  | root => exact absurd (Option.some.inj (hp.symm.trans h.tree.path_root)) hu
  | pool i => exact ⟨i, rfl⟩

theorem lookUp_eq (h : Tree d path) {w : Bytes} (hw : w ≠ []) :
    (∃ p, path p = some w ∧ d.lookUp w = (d.node p).dwIndex) ∨
      (∀ p, path p ≠ some w) ∧ d.lookUp w = 0 := by
  rw [lookUp, if_neg hw]
  cases hfollow : follow (fun p c => (d.node p).next c) .root w with
  | some p => exact .inl ⟨p, h.tree.follow_iff.mp hfollow, rfl⟩
  | none =>
    refine .inr ⟨fun p hp => ?_, rfl⟩
    rw [h.tree.follow_iff.mpr hp] at hfollow
    cases hfollow

theorem Grown.lookUp (h : Tree d path) (hg : Grown d path d' path') (w : Bytes) {k : Int}
    (hk : 0 < k) : d'.lookUp w = k ↔ d.lookUp w = k := by
  by_cases hw : w = []
  · rw [hw]
    rfl
  · rcases lookUp_eq h hw with ⟨p, hp, hd⟩ | ⟨hno, hd⟩ <;>
      rcases lookUp_eq hg.tree hw with ⟨p', hp', hd'⟩ | ⟨hno', hd'⟩
    · obtain ⟨hpath, hkeep⟩ := hg.keep hp
      rw [hd, hd', hg.tree.tree.unique hp' hpath, hkeep]
    · exact absurd (hg.keep hp).1 (hno' p)
    · rcases hg.fresh hp' with hp | ⟨-, i, -, hneg⟩
      · exact absurd hp (hno p')
      · rw [hd, hd', hneg]
        omega
    · rw [hd, hd']

variable {T_udwDicSize : Nat}

/-- What `AllocateNode` does when there is a node left. -/
theorem allocateNode_some {q : NodePtr} (h : d.allocateNode T_udwDicSize = some (some q, d')) :
    q = .pool d.m_dwCurNodeIndex.toNat ∧ d'.m_dwCurNodeIndex = d.m_dwCurNodeIndex + 1 ∧
      d'.node q = { SCharNode.reset with dwIndex := -d.m_dwCurNodeIndex } ∧
      ∀ r, r ≠ q → d'.node r = d.node r := by
  rw [allocateNode] at h
  split at h
  · cases h
  · split at h
    · cases h
    · cases h
      exact ⟨rfl, rfl, Function.update_self .., fun r hr => Function.update_of_ne hr ..⟩

theorem allocateNode_none (h : d.allocateNode T_udwDicSize = some (none, d')) : d' = d := by
  rw [allocateNode] at h
  split at h
  · cases h
    rfl
  · split at h <;> cases h

/-- The node that `AllocateNode` takes becomes a leaf behind `p`. -/
theorem allocate_grown (h : Tree d path) {p q : NodePtr} {u : Bytes} {c : UInt8}
    (hp : path p = some u) (hfree : (d.node p).next c = none)
    (hall : d.allocateNode T_udwDicSize = some (some q, d')) :
    Grown d path (d'.setNode p { d'.node p with
        next := Function.update (d'.node p).next c (some q) })
      (Function.update path q (some (u ++ [c]))) := by
  obtain ⟨rfl, hcur, hnew, hold⟩ := allocateNode_some hall
  have hpos := h.cur_pos
  have hout : path (.pool d.m_dwCurNodeIndex.toNat) = none := by
    cases hpath : path (.pool d.m_dwCurNodeIndex.toNat) with
    | none => rfl
    | some v => exact absurd (h.pooled hpath).2 (by omega)
  have hne : ∀ {r v}, path r = some v → r ≠ .pool d.m_dwCurNodeIndex.toNat := fun hr he => by
    rw [he, hout] at hr
    cases hr
  have hpq := hne hp
  generalize hq : NodePtr.pool d.m_dwCurNodeIndex.toNat = q at *
  have hindex : ∀ r, ((d'.setNode p { d'.node p with
      next := Function.update (d'.node p).next c (some q) }).node r).dwIndex =
      (d'.node r).dwIndex := by
    intro r
    by_cases hr : r = p
    · rw [hr, setNode_self]
    · rw [setNode_of_ne _ _ hr]
  refine ⟨⟨h.tree.grow hp hfree hout (fun x => ?_) ?_ fun r x hr hrx => ?_, ?_, ?_⟩, ?_, ?_⟩
  · rw [setNode_of_ne _ _ (Ne.symm hpq), hnew]
    rfl
  · rw [setNode_self]
    exact Function.update_self ..
  · by_cases hrp : r = p
    · rw [hrp, setNode_self]
      dsimp only
      rw [Function.update_of_ne (fun hx => hrx ⟨hrp, hx⟩), hold p hpq]
    · rw [setNode_of_ne _ _ hrp, hold r hr]
  · rw [setNode_cur, hcur]
    omega
  · intro i v hi
    rw [setNode_cur, hcur]
    by_cases hiq : NodePtr.pool i = q
    · rw [← hq] at hiq
      cases hiq
      omega
    · rw [Function.update_of_ne hiq] at hi
      obtain ⟨h0, hlt⟩ := h.pooled hi
      omega
  · intro r v hr
    refine ⟨?_, ?_⟩
    · rw [Function.update_of_ne (hne hr), hr]
    · rw [hindex, hold r (hne hr)]
  · intro r v hr
    by_cases hrq : r = q
    · rw [hrq, Function.update_self] at hr
      cases hr
      refine .inr ⟨fun s hs => ?_, d.m_dwCurNodeIndex.toNat, by rw [hrq, hq], ?_⟩
      · rw [(h.tree.next_iff hp c s).mpr hs] at hfree
        cases hfree
      · rw [hindex, hrq, hnew]
        simp only
        omega
    · rw [Function.update_of_ne hrq] at hr
      exact .inl hr

/-- The loop of `AddWord` ends at the node of the word, or leaves a part of its
path behind. -/
theorem addLoop_grown : ∀ {w u : Bytes} {p : NodePtr} {d d' : Dictionary}
    {path : NodePtr → Option Bytes} {r : Option NodePtr}, Tree d path → path p = some u →
    addLoop T_udwDicSize p w d = some (r, d') →
      ∃ path', Grown d path d' path' ∧ ∀ q, r = some q → path' q = some (u ++ w) := by
  intro w
  induction w with
  | nil =>
    intro u p d d' path r h hp hadd
    cases hadd
    refine ⟨path, .refl h, fun q hq => ?_⟩
    cases hq
    rw [List.append_nil, hp]
  | cons c w ih =>
    intro u p d d' path r h hp hadd
    have happ : u ++ c :: w = u ++ [c] ++ w := by simp
    rw [addLoop] at hadd
    cases hc : (d.node p).next c with
    | some p' =>
      rw [hc] at hadd
      obtain ⟨path', hg, hend⟩ := ih h ((h.tree.next_iff hp c p').mp hc) hadd
      exact ⟨path', hg, by rwa [happ]⟩
    | none =>
      rw [hc] at hadd
      obtain ⟨⟨new, d₁⟩, hall, hadd⟩ := Option.bind_eq_some_iff.mp hadd
      cases new with
      | none =>
        cases hadd
        rw [allocateNode_none hall]
        exact ⟨path, .refl h, fun q hq => nomatch hq⟩
      | some q =>
        have hg := allocate_grown h hp hc hall
        obtain ⟨path', hg', hend⟩ := ih hg.tree (Function.update_self ..) hadd
        exact ⟨path', hg.trans hg', by rwa [happ]⟩

end

/-! ## The words -/

/-- The positive indices are those that `AddWord` returned. -/
structure Holds (d : Dictionary) (past : History) (path : NodePtr → Option Bytes) : Prop where
  tree : Tree d path
  index : ∀ {i u}, path (.pool i) = some u →
    (d.node (.pool i)).dwIndex = i ∧ (u, (i : Int)) ∈ past ∨
      (d.node (.pool i)).dwIndex = -i ∧ ∀ k, (u, k) ∈ past → k ≤ 0
  added : ∀ {w k}, (w, k) ∈ past → 0 < k → ∃ i : Nat, path (.pool i) = some w ∧ k = i

section
variable {d d' : Dictionary} {past : History} {path : NodePtr → Option Bytes} {T_udwDicSize : Nat}

theorem reset_holds (d : Dictionary) :
    Holds d.reset [] fun p => if p = .root then some [] else none := by
  have hroot : ∀ c, (d.reset.node .root).next c = none := fun c => by
    have hnode : d.reset.node .root = .reset := setNode_self d .root .reset
    rw [hnode]
    rfl
  refine ⟨⟨.single hroot, Int.one_pos, fun {i u} hi => ?_⟩, fun {i u} hi => ?_, fun h => nomatch h⟩
  · rw [if_neg NodePtr.noConfusion] at hi
    cases hi
  · rw [if_neg NodePtr.noConfusion] at hi
    cases hi

theorem Holds.node_of_added (h : Holds d past path) {w : Bytes} {k : Int} (hk : (w, k) ∈ past)
    (hpos : 0 < k) : ∃ i : Nat, path (.pool i) = some w ∧ (d.node (.pool i)).dwIndex = k := by
  obtain ⟨i, hi, rfl⟩ := h.added hk hpos
  refine ⟨i, hi, ?_⟩
  rcases h.index hi with ⟨hd, -⟩ | ⟨-, hno⟩
  · exact hd
  · exact absurd (hno i hk) (by omega)

/-- A word has a positive index exactly when `AddWord` returned one for it. -/
theorem Holds.lookUp_iff (h : Holds d past path) {w : Bytes} (hw : w ≠ []) {k : Int} (hk : 0 < k) :
    d.lookUp w = k ↔ (w, k) ∈ past := by
  constructor
  · rintro rfl
    rcases lookUp_eq h.tree hw with ⟨p, hp, hd⟩ | ⟨-, hd⟩
    · obtain ⟨i, rfl⟩ := tree_root h.tree hp hw
      rcases h.index hp with ⟨hi, hmem⟩ | ⟨hi, -⟩
      · rwa [hd, hi]
      · omega
    · omega
  · intro hmem
    obtain ⟨i, hi, hd⟩ := h.node_of_added hmem hk
    rcases lookUp_eq h.tree hw with ⟨p, hp, hlook⟩ | ⟨hno, -⟩
    · rw [hlook, h.tree.tree.unique hp hi, hd]
    · exact absurd hi (hno _)

/-- Leaves that are new do not count as words. -/
theorem Holds.grown (h : Holds d past path) {path' : NodePtr → Option Bytes}
    (hg : Grown d path d' path') : Holds d' past path' := by
  refine ⟨hg.tree, fun {i u} hi => ?_, fun hmem hk => ?_⟩
  · rcases hg.fresh hi with hold | ⟨hno, j, hj, hneg⟩
    · rw [(hg.keep hold).2]
      exact h.index hold
    · cases hj
      refine .inr ⟨hneg, fun k hk => ?_⟩
      by_contra hpos
      obtain ⟨j, hj, -⟩ := h.added hk (by omega)
      exact hno _ hj
  · obtain ⟨i, hi, hki⟩ := h.added hmem hk
    exact ⟨i, (hg.keep hi).1, hki⟩

theorem Holds.fail (h : Holds d past path) (w : Bytes) : Holds d (past ++ [(w, 0)]) path := by
  refine ⟨h.tree, fun {i u} hi => ?_, fun {v k} hmem hk => ?_⟩
  · refine (h.index hi).imp (fun hd => ⟨hd.1, List.mem_append_left _ hd.2⟩) fun hd => ⟨hd.1, ?_⟩
    intro k hk
    rcases List.mem_append.mp hk with hk | hk
    · exact hd.2 k hk
    · cases List.mem_singleton.mp hk
      exact Int.le_refl 0
  · rcases List.mem_append.mp hmem with hmem | hmem
    · exact h.added hmem hk
    · cases List.mem_singleton.mp hmem
      exact absurd hk (by decide)

/-- The node of the word gets its index with the right sign. -/
theorem Holds.mark (h : Holds d past path) {i : Nat} {w : Bytes} (hi : path (.pool i) = some w)
    {dwIndex : Int} (hd : dwIndex = i) :
    Holds (d.setNode (.pool i) { d.node (.pool i) with dwIndex }) (past ++ [(w, dwIndex)]) path := by
  subst hd
  have hnext : (fun p c => ((d.setNode (.pool i) { d.node (.pool i) with dwIndex := i }).node p).next
      c) = fun p c => (d.node p).next c := by
    funext p c
    by_cases hp : p = .pool i
    · rw [hp, setNode_self]
    · rw [setNode_of_ne _ _ hp]
  refine ⟨⟨hnext ▸ h.tree.tree, h.tree.cur_pos, h.tree.pooled⟩, fun {j u} hj => ?_,
    fun {v k} hmem hk => ?_⟩
  · by_cases hji : j = i
    · subst hji
      cases hi.symm.trans hj
      refine .inl ⟨by rw [setNode_self], ?_⟩
      exact List.mem_append_right _ List.mem_cons_self
    · have hne : NodePtr.pool j ≠ .pool i := fun he => hji (NodePtr.pool.inj he)
      rw [setNode_of_ne _ _ hne]
      refine (h.index hj).imp (fun hd => ⟨hd.1, List.mem_append_left _ hd.2⟩) fun hd => ⟨hd.1, ?_⟩
      intro k hk
      rcases List.mem_append.mp hk with hk | hk
      · exact hd.2 k hk
      · cases List.mem_singleton.mp hk
        exact absurd (h.tree.tree.unique hj hi) hne
  · rcases List.mem_append.mp hmem with hmem | hmem
    · exact h.added hmem hk
    · cases List.mem_singleton.mp hmem
      exact ⟨i, hi, rfl⟩

/-- `AddWord`, with what it leaves as it was when it fails. -/
theorem Holds.addWord (h : Holds d past path) {w : Bytes} {k : Int}
    (hadd : d.addWord T_udwDicSize w = some (k, d')) :
    (∃ path', Holds d' (past ++ [(w, k)]) path') ∧
      (k ≤ 0 → ∀ v j, 0 < j → (d'.lookUp v = j ↔ d.lookUp v = j)) := by
  rw [Dictionary.addWord] at hadd
  split at hadd
  · cases hadd
    exact ⟨⟨path, h.fail w⟩, fun _ v j _ => Iff.rfl⟩
  · rename_i hw
    obtain ⟨⟨r, d₁⟩, hloop, hadd⟩ := Option.bind_eq_some_iff.mp hadd
    obtain ⟨path', hg, hend⟩ := addLoop_grown h.tree h.tree.tree.path_root hloop
    have h₁ := h.grown hg
    cases r with
    | none =>
      cases hadd
      exact ⟨⟨path', h₁.fail w⟩, fun _ v j hj => hg.lookUp h.tree v hj⟩
    | some p =>
      have hp := hend p rfl
      rw [List.nil_append] at hp
      obtain ⟨i, rfl⟩ := tree_root h₁.tree hp hw
      obtain ⟨hi0, -⟩ := h₁.tree.pooled hp
      cases hadd
      have hd : (if (d₁.node (.pool i)).dwIndex < 0 then -(d₁.node (.pool i)).dwIndex
          else (d₁.node (.pool i)).dwIndex) = i := by
        rcases h₁.index hp with ⟨hd, -⟩ | ⟨hd, -⟩ <;> rw [hd] <;> split <;> omega
      exact ⟨⟨path', h₁.mark hp hd⟩, fun hk => by rw [hd] at hk; omega⟩

theorem new_holds : Holds new [] fun p => if p = .root then some [] else none := by
  have hnew : new.reset = new := by
    rw [reset, setNode, new, Function.update_eq_self]
  rw [← hnew]
  exact reset_holds new

/-! ## Runs -/

theorem call_holds {c : Call} {past' : History} (h : Holds d past path)
    (hcall : call T_udwDicSize c (past, d) = some (past', d')) : ∃ path', Holds d' past' path' := by
  cases c with
  | addWord w =>
    obtain ⟨⟨k, d₁⟩, hadd, he⟩ := Option.map_eq_some_iff.mp hcall
    cases he
    exact (h.addWord hadd).1
  | reset =>
    cases hcall
    exact ⟨_, reset_holds d⟩

theorem calls_hold : ∀ {calls : List Call} {past past' : History} {d d' : Dictionary}
    {path : NodePtr → Option Bytes}, Holds d past path →
    calls.foldlM (fun s c => call T_udwDicSize c s) (past, d) = some (past', d') →
      ∃ path', Holds d' past' path' := by
  intro calls
  induction calls with
  | nil =>
    intro _ _ _ _ path h hrun
    cases hrun
    exact ⟨path, h⟩
  | cons c calls ih =>
    intro past past' d d' path h hrun
    rw [List.foldlM_cons] at hrun
    obtain ⟨⟨past₁, d₁⟩, hcall, hrun⟩ := Option.bind_eq_some_iff.mp hrun
    obtain ⟨path₁, h₁⟩ := call_holds h hcall
    exact ih h₁ hrun

/-- As long as the index of the next node is a `TINT32`, no call lacks a meaning. -/
def InRange (T_udwDicSize : Nat) (d : Dictionary) : Prop :=
  0 < d.m_dwCurNodeIndex ∧ (d.m_dwCurNodeIndex ≤ T_udwDicSize ∨ d.m_dwCurNodeIndex = 1)

theorem addLoop_total (hT : T_udwDicSize < 2 ^ 31) : ∀ {w : Bytes} {p : NodePtr} {d : Dictionary},
    InRange T_udwDicSize d → ∃ r d', addLoop T_udwDicSize p w d = some (r, d') ∧
      InRange T_udwDicSize d' := by
  intro w
  induction w with
  | nil =>
    intro p d h
    exact ⟨_, _, rfl, h⟩
  | cons c w ih =>
    intro p d h
    rw [addLoop]
    cases hc : (d.node p).next c with
    | some q => exact ih h
    | none =>
      have hcur : (BitVec.ofInt 32 d.m_dwCurNodeIndex).toNat = d.m_dwCurNodeIndex.toNat := by
        rw [BitVec.toNat_ofInt]
        obtain ⟨h0, h1⟩ := h
        omega
      have h0 := h.1
      rw [allocateNode, hcur]
      by_cases hfull : T_udwDicSize ≤ d.m_dwCurNodeIndex.toNat
      · rw [if_pos hfull]
        exact ⟨_, _, rfl, h⟩
      · rw [if_neg hfull, if_neg (by omega)]
        refine ih ⟨?_, .inl ?_⟩
        · show 0 < d.m_dwCurNodeIndex + 1
          omega
        · show d.m_dwCurNodeIndex + 1 ≤ T_udwDicSize
          omega

theorem call_total (hT : T_udwDicSize < 2 ^ 31) (c : Call) (h : InRange T_udwDicSize d) :
    ∃ past' d', call T_udwDicSize c (past, d) = some (past', d') ∧ InRange T_udwDicSize d' := by
  cases c with
  | reset => exact ⟨_, _, rfl, Int.one_pos, .inr rfl⟩
  | addWord w =>
    rw [call, Dictionary.addWord]
    split
    · exact ⟨_, _, rfl, h⟩
    · obtain ⟨r, d', hloop, h'⟩ := @addLoop_total T_udwDicSize hT w .root d h
      rw [hloop]
      cases r with
      | none => exact ⟨_, _, rfl, h'⟩
      | some p => exact ⟨_, _, rfl, h'⟩

theorem calls_total (hT : T_udwDicSize < 2 ^ 31) : ∀ (calls : List Call) (past : History)
    {d : Dictionary}, InRange T_udwDicSize d →
      ∃ s, calls.foldlM (fun s c => call T_udwDicSize c s) (past, d) = some s := by
  intro calls
  induction calls with
  | nil =>
    intro _ _ _
    exact ⟨_, rfl⟩
  | cons c calls ih =>
    intro past d h
    obtain ⟨past', d', hcall, h'⟩ := @call_total d past T_udwDicSize hT c h
    rw [List.foldlM_cons, hcall]
    exact ih past' h'

end

/-- **A dictionary.** In every run the words with a positive index are those for
which `AddWord` returned it since the last `Reset`, no two words share one, and
an `AddWord` that fails changes none. A pool that a `TINT32` can index keeps every
run going. -/
theorem run_dictionary (T_udwDicSize : Nat) :
    (T_udwDicSize < 2 ^ 31 → ∀ calls, ∃ s, run T_udwDicSize calls = some s) ∧
    ∀ calls past d, run T_udwDicSize calls = some (past, d) →
      (∀ w, w ≠ [] → (0 < d.lookUp w ↔ ∃ k, 0 < k ∧ (w, k) ∈ past)) ∧
      (∀ w k, w ≠ [] → 0 < k → (w, k) ∈ past → d.lookUp w = k) ∧
      (∀ w v, w ≠ [] → v ≠ [] → 0 < d.lookUp w → d.lookUp w = d.lookUp v → w = v) ∧
      ∀ w k d', d.addWord T_udwDicSize w = some (k, d') → k ≤ 0 →
        ∀ v j, 0 < j → (d'.lookUp v = j ↔ d.lookUp v = j) := by
  refine ⟨fun hT calls => calls_total hT calls [] ⟨Int.one_pos, .inr rfl⟩,
    fun calls past d hrun => ?_⟩
  obtain ⟨path, h⟩ := calls_hold new_holds hrun
  refine ⟨fun w hw => ⟨fun hpos => ⟨_, hpos, (h.lookUp_iff hw hpos).mp rfl⟩, ?_⟩,
    fun w k hw hk hmem => (h.lookUp_iff hw hk).mpr hmem, ?_,
    fun w k d' hadd => (h.addWord hadd).2⟩
  · rintro ⟨k, hk, hmem⟩
    rwa [(h.lookUp_iff hw hk).mpr hmem]
  · intro w v hw hv hpos hsame
    obtain ⟨i, hi, hki⟩ := h.added ((h.lookUp_iff hw hpos).mp rfl) hpos
    obtain ⟨j, hj, hkj⟩ := h.added ((h.lookUp_iff hv (hsame ▸ hpos)).mp rfl) (hsame ▸ hpos)
    have hij : i = j := by omega
    rw [hij] at hi
    exact Option.some.inj (hi.symm.trans hj)

/-- `ab`, `a`, and `b` for which no node is left. -/
def smallRun : List Call := [.addWord [97, 98], .addWord [97], .addWord [98]]

theorem run_dictionary_small : ∃ past d, run 3 smallRun = some (past, d) ∧
    d.lookUp [97, 98] = 2 ∧ d.lookUp [97] = 1 ∧ ¬ 0 < d.lookUp [98] := by
  obtain ⟨htotal, hruns⟩ := run_dictionary 3
  obtain ⟨⟨past, d⟩, hrun⟩ := htotal (by decide) smallRun
  obtain ⟨hpos, hindex, -, -⟩ := hruns smallRun past d hrun
  have hpast : past = [([97, 98], 2), ([97], 1), ([98], 0)] := by
    have heval : (run 3 smallRun).map Prod.fst = some [([97, 98], 2), ([97], 1), ([98], 0)] := by
      decide +kernel
    rw [hrun] at heval
    exact Option.some.inj heval
  subst hpast
  refine ⟨_, d, hrun, hindex _ 2 (by decide) (by decide) (by simp),
    hindex _ 1 (by decide) (by decide) (by simp), fun h => ?_⟩
  obtain ⟨k, hk, hmem⟩ := (hpos [98] (by decide)).mp h
  simp at hmem
  omega

end CommonTools.Gary.Dictionary
