import CommonTools.Index.AhoCorasickCom
import CommonTools.Lib.BreadthFirst

/-! # The failure links of `com/`

The walk along the links waits for a null pointer, but the root is linked to
itself. So the walk ends only at a node that has the byte. -/
namespace CommonTools.Index.Com
open CommonTools.Lib AhoCorasick

/-! ## What the links do not change -/

section
variable {t t' : Tree} {paths : List Bytes}

theorem edges_of_bare (h : bare t' = bare t) : edges t' = edges t := by
  have hedges : ∀ s : Tree, edges s = (bare s).map TreeNode.next := fun s => by simp [edges, bare]
  rw [hedges, hedges, h]

theorem WellFormed.of_bare (h : WellFormed t paths) (hbare : bare t' = bare t) :
    WellFormed t' paths where
  trie := edges_of_bare hbare ▸ h.trie
  par := by
    intro p node w c hnode hp
    have hb : (bare t)[p]? = some { node with fail := none } := by
      rw [← hbare, bare, List.getElem?_map, hnode]
      rfl
    obtain ⟨node₀, hnode₀, he⟩ := Option.map_eq_some_iff.mp (List.getElem?_map ▸ hb)
    obtain ⟨hchar, q, hpar, hq⟩ := h.par hnode₀ hp
    have hsame := TreeNode.mk.inj he
    exact ⟨hsame.2.2.2.1 ▸ hchar, q, hsame.2.1 ▸ hpar, hq⟩

theorem setFail_spec {p : Nat} {node : TreeNode} (hnode : t[p]? = some node) (f : Nat) :
    ∃ t', setFail t p f = some t' ∧ bare t' = bare t ∧
      t'[p]? = some { node with fail := some f } ∧ ∀ q, q ≠ p → t'[q]? = t[q]? := by
  have hlt : p < t.length := (List.getElem?_eq_some_iff.mp hnode).1
  refine ⟨t.set p { node with fail := some f }, ?_, ?_, List.getElem?_set_self hlt,
    fun q hq => List.getElem?_set_ne (Ne.symm hq)⟩
  · simp only [setFail, hnode, Option.bind_eq_bind, Option.bind_some]
  · exact map_set_of_same (by rw [List.getElem?_map, hnode]; rfl)

end

/-! ## Right links -/

/-- The node for `w` is linked to the one for the longest proper suffix of `w`,
the root to itself. -/
def FailAt (t : Tree) (paths : List Bytes) (w : Bytes) : Prop :=
  ∀ p : Nat, paths[p]? = some w → ∃ node f, t[p]? = some node ∧ node.fail = some f ∧
    paths[f]? = some (longest paths w.tail)

section
variable {t t' : Tree} {paths : List Bytes}

theorem FailAt.setFail {p f : Nat} {w : Bytes} (h : WellFormed t paths)
    (hp : paths[p]? = some w) (hf : paths[f]? = some (longest paths w.tail)) :
    ∃ t', setFail t p f = some t' ∧ bare t' = bare t ∧ FailAt t' paths w ∧
      ∀ u, FailAt t paths u → FailAt t' paths u := by
  obtain ⟨node, hnode, -⟩ := node_of_trie h.trie hp
  obtain ⟨t', hset, hbare, hnew, hkeep⟩ := setFail_spec hnode f
  have hw : FailAt t' paths w := fun q hq => by
    obtain rfl := h.trie.path_unique hp hq
    exact ⟨_, f, hnew, rfl, hf⟩
  refine ⟨t', hset, hbare, hw, fun u hu q hq => ?_⟩
  by_cases hqp : q = p
  · subst hqp
    obtain rfl : w = u := Option.some.inj (hp.symm.trans hq)
    exact hw q hq
  · rw [hkeep q hqp]
    exact hu q hq

/-- One round of the walk: the byte at hand, or the link. -/
theorem failWalk_round (h : WellFormed t paths) (c : UInt8) {p : Nat} {w : Bytes}
    (hw : FailAt t paths w) (hp : paths[p]? = some w) (n : Nat) :
    (∃ q, failWalk t c (n + 1) (some p) = some (some q) ∧ paths[q]? = some (w ++ [c])) ∨
      w ++ [c] ∉ paths ∧ ∃ f, failWalk t c (n + 1) (some p) = failWalk t c n (some f) ∧
        paths[f]? = some (longest paths w.tail) := by
  obtain ⟨node, hnode, hedge⟩ := node_of_trie h.trie hp
  simp only [failWalk, hnode, Option.bind_eq_bind, Option.bind_some]
  cases hc : node.next[c]? with
  | some q => exact .inl ⟨q, rfl, (h.trie.next hedge hp c q).mp hc⟩
  | none =>
    obtain ⟨node', f, hnode', hfail, hf⟩ := hw p hp
    obtain rfl := Option.some.inj (hnode.symm.trans hnode')
    rw [hfail]
    exact .inr ⟨(h.trie.next_eq_none hedge hp c).mp hc, f, rfl, hf⟩

/-- A walk that ends has found the longest suffix with the byte. -/
theorem failWalk_sound (h : WellFormed t paths) {c : UInt8} : ∀ {n p : Nat} {w : Bytes}
    {r : Option Nat}, (∀ u ∈ paths, u.length ≤ w.length → FailAt t paths u) →
    paths[p]? = some w → failWalk t c n (some p) = some r →
    longest paths (w ++ [c]) ≠ [] ∧ ∃ q, r = some q ∧
      paths[q]? = some (longest paths (w ++ [c])) := by
  intro n
  induction n with
  | zero =>
    intro p w r _ _ hr
    simp [failWalk] at hr
  | succ n ih =>
    intro p w r hl hp hr
    have hw : FailAt t paths w := hl w (List.mem_of_getElem? hp) (Nat.le_refl _)
    obtain ⟨q, hround, hq⟩ | ⟨hout, f, hround, hf⟩ := failWalk_round h c hw hp n
    · rw [longest_eq_self (List.mem_of_getElem? hq)]
      exact ⟨by simp, q, Option.some.inj (hr.symm.trans hround), hq⟩
    · have hle : (longest paths w.tail).length ≤ w.length :=
        (longest_length_le h.trie.closed.nil _).trans (by simp)
      rw [longest_append_of_notMem h.trie.closed hout]
      exact ih (fun u hu hlen => hl u hu (hlen.trans hle)) hf (hround.symm.trans hr)

/-- The walk ends when some suffix has the byte. -/
theorem failWalk_ends (h : WellFormed t paths) {c : UInt8} : ∀ {n p : Nat} {w : Bytes},
    (∀ u ∈ paths, u.length ≤ w.length → FailAt t paths u) → paths[p]? = some w →
    longest paths (w ++ [c]) ≠ [] → w.length < n → ∃ r, failWalk t c n (some p) = some r := by
  intro n
  induction n with
  | zero =>
    intro p w _ _ _ hlt
    exact absurd hlt (Nat.not_lt_zero _)
  | succ n ih =>
    intro p w hl hp hne hlt
    have hw : FailAt t paths w := hl w (List.mem_of_getElem? hp) (Nat.le_refl _)
    obtain ⟨q, hround, -⟩ | ⟨hout, f, hround, hf⟩ := failWalk_round h c hw hp n
    · exact ⟨some q, hround⟩
    · have hle := longest_length_le h.trie.closed.nil w.tail
      rw [List.length_tail] at hle
      rw [longest_append_of_notMem h.trie.closed hout] at hne
      -- at the root nothing is left to be found
      have hw : w ≠ [] := by
        rintro rfl
        rw [List.tail_nil, longest_nil] at hne
        exact hne (by rw [List.nil_append] at hout ⊢; rw [longest_cons_of_notMem hout, longest_nil])
      have hpos := List.length_pos_iff.mpr hw
      rw [hround]
      exact ih (fun u hu hlen => hl u hu (by omega)) hf hne (by omega)

end

/-! ## The loops -/

/-- The visited words have their links, the queue holds the others' nodes. -/
structure Building (t : Tree) (paths visited pending : List Bytes) (myqueue : List Nat) :
    Prop where
  shape : WellFormed t paths
  frontier : Frontier paths visited pending
  linked : ∀ w ∈ visited, FailAt t paths w
  queue : List.Forall₂ (fun (p : Nat) w => paths[p]? = some w) myqueue pending
  deep : ∀ w ∈ pending, 2 ≤ w.length

section
variable {t t' : Tree} {paths visited pending rest : List Bytes} {w : Bytes}
  {tmp : Nat} {myqueue myqueue' : List Nat}

theorem nodeToQueue_spec (h : WellFormed t paths) {p : Nat} {next : NextMap}
    (hedge : (edges t)[p]? = some next) (hp : paths[p]? = some w)
    (hq : List.Forall₂ (fun (p : Nat) w => paths[p]? = some w) myqueue pending) :
    List.Forall₂ (fun (p : Nat) w => paths[p]? = some w)
      (myqueue ++ next.toList.map Prod.snd) (pending ++ childWords w next) := by
  refine List.rel_append hq ?_
  rw [childWords, List.forall₂_map_left_iff, List.forall₂_map_right_iff]
  refine List.forall₂_same.mpr fun it hit => ?_
  exact (h.trie.next hedge hp it.1 it.2).mp (Std.TreeMap.mem_toList_iff_getElem?_eq_some.mp hit)

/-- What the round for `tmp` reads: where the walk starts and what it looks
for. -/
theorem Building.head (h : Building t paths visited (w :: rest) (tmp :: myqueue)) :
    ∃ node par q f x, t[tmp]? = some node ∧ node.par = some q ∧ t[q]? = some par ∧
      par.fail = some f ∧ paths[f]? = some x ∧ x.length < w.length ∧
      (∀ u ∈ paths, u.length ≤ x.length → FailAt t paths u) ∧
      longest paths (x ++ [node.inputchar]) = longest paths w.tail := by
  have hclosed := h.shape.trie.closed
  have htmp : paths[tmp]? = some w := (List.forall₂_cons.mp h.queue).1
  have hlen := h.deep w List.mem_cons_self
  obtain ⟨v, c, rfl⟩ : ∃ v c, w = v ++ [c] := by
    refine (List.eq_nil_or_concat' w).resolve_left ?_
    rintro rfl
    simp at hlen
  obtain ⟨node, hnode, -⟩ := node_of_trie h.shape.trie htmp
  obtain ⟨rfl, q, hpar, hq⟩ := h.shape.par hnode htmp
  have hv : v ∈ visited :=
    h.frontier.parents v _ (List.mem_append_right _ List.mem_cons_self)
  obtain ⟨par, f, hparent, hfail, hf⟩ := h.linked v hv q hq
  have hx : (longest paths v.tail).length ≤ v.length :=
    (longest_length_le hclosed.nil _).trans (by simp)
  have hlt : (longest paths v.tail).length < (v ++ [node.inputchar]).length := by
    rw [List.length_append, List.length_singleton]
    omega
  refine ⟨node, par, q, f, longest paths v.tail, hnode, hpar, hparent, hfail, hf, hlt,
    fun u hu hle => ?_, ?_⟩
  · exact h.linked u (h.frontier.visited_of_lt hclosed hu (Nat.lt_of_le_of_lt hle hlt))
  · have hne : v ≠ [] := by
      rintro rfl
      simp at hlen
    rw [longest_longest_append hclosed, List.tail_append_of_ne_nil hne]

/-- A round that ends has set the right link. -/
theorem Building.round_sound (h : Building t paths visited (w :: rest) (tmp :: myqueue))
    {rounds : Nat} (hr : failStep rounds t tmp myqueue = some (t', myqueue')) :
    longest paths w.tail ≠ [] ∧ bare t' = bare t ∧
      ∃ pending', Building t' paths (visited ++ [w]) pending' myqueue' := by
  obtain ⟨node, par, q, f, x, hnode, hpar, hparent, hfail, hf, -, hlinked, hx⟩ := h.head
  have htmp : paths[tmp]? = some w := (List.forall₂_cons.mp h.queue).1
  simp only [failStep, hnode, hpar, hparent, hfail, Option.bind_eq_bind, Option.bind_some] at hr
  obtain ⟨r, hwalk, hr⟩ := Option.bind_eq_some_iff.mp hr
  obtain ⟨hne, g, rfl, hg⟩ := failWalk_sound h.shape hlinked hf hwalk
  rw [hx] at hne hg
  obtain ⟨t₁, hset, hbare, hnew, hkeep⟩ := FailAt.setFail h.shape htmp hg
  rw [Option.getD_some, hset, Option.bind_some] at hr
  obtain ⟨rfl, rfl⟩ := Prod.mk.inj (Option.some.inj hr)
  have hedge : (edges t)[tmp]? = some node.next := by
    rw [edges, List.getElem?_map, hnode]
    rfl
  refine ⟨hne, hbare, rest ++ childWords w node.next, h.shape.of_bare hbare, ?_, fun u hu => ?_, ?_,
    fun u hu => ?_⟩
  · exact h.frontier.step (childWords_nodup w node.next) (h.shape.trie.mem_childWords hedge htmp)
  · rcases List.mem_append.mp hu with hu | hu
    · exact hkeep u (h.linked u hu)
    · rw [List.mem_singleton.mp hu]
      exact hnew
  · exact nodeToQueue_spec h.shape hedge htmp (List.forall₂_cons.mp h.queue).2
  · rcases List.mem_append.mp hu with hu | hu
    · exact h.deep u (List.mem_cons_of_mem w hu)
    · obtain ⟨c, rfl, -⟩ := (h.shape.trie.mem_childWords hedge htmp u).mp hu
      have := h.deep w List.mem_cons_self
      rw [List.length_append, List.length_singleton]
      omega

theorem Building.round_ends (h : Building t paths visited (w :: rest) (tmp :: myqueue))
    {rounds : Nat} (hne : longest paths w.tail ≠ []) (hrounds : w.length ≤ rounds) :
    ∃ t' myqueue', failStep rounds t tmp myqueue = some (t', myqueue') := by
  obtain ⟨node, par, q, f, x, hnode, hpar, hparent, hfail, hf, hlt, hlinked, hx⟩ := h.head
  have hlt' := Nat.lt_of_lt_of_le hlt hrounds
  obtain ⟨r, hwalk⟩ := failWalk_ends h.shape hlinked hf (hx ▸ hne) hlt'
  obtain ⟨t', hset, -⟩ := setFail_spec hnode (r.getD root)
  refine ⟨t', nodeToQueue node myqueue, ?_⟩
  simp only [failStep, hnode, hpar, hparent, hfail, hwalk, hset, Option.bind_eq_bind,
    Option.bind_some]

/-- With an empty queue all words are visited. -/
theorem Building.all_visited (h : Building t paths visited pending []) (hw : w ∈ paths) :
    w ∈ visited := by
  have hnil := List.forall₂_nil_left_iff.mp h.queue
  exact Frontier.seen_all (hnil ▸ h.frontier) h.shape.trie.closed w hw

/-- When the loop has ended, every walk of it had something to find. -/
theorem Building.loop_sound {rounds : Nat} : ∀ {n : Nat} {t : Tree}
    {visited pending : List Bytes} {myqueue : List Nat},
    Building t paths visited pending myqueue → failLoop rounds n t myqueue = some t' →
    bare t' = bare t ∧ (∀ w ∈ paths, FailAt t' paths w) ∧
      ∀ w ∈ paths, w ∈ visited ∨ longest paths w.tail ≠ [] := by
  intro n
  induction n with
  | zero =>
    intro t visited pending myqueue h hr
    cases myqueue with
    | cons tmp myqueue => simp [failLoop] at hr
    | nil =>
      obtain rfl := Option.some.inj hr
      exact ⟨rfl, fun w hw => h.linked w (h.all_visited hw), fun w hw => .inl (h.all_visited hw)⟩
  | succ n ih =>
    intro t visited pending myqueue h hr
    cases myqueue with
    | nil =>
      obtain rfl := Option.some.inj hr
      exact ⟨rfl, fun w hw => h.linked w (h.all_visited hw), fun w hw => .inl (h.all_visited hw)⟩
    | cons tmp myqueue =>
      obtain ⟨w, rest, -, -, rfl⟩ := List.forall₂_cons_left_iff.mp h.queue
      rw [failLoop] at hr
      obtain ⟨⟨t₁, myqueue₁⟩, hround, hr⟩ := Option.bind_eq_some_iff.mp hr
      obtain ⟨hne, hbare₁, pending₁, h₁⟩ := h.round_sound hround
      obtain ⟨hbare, hlinked, hall⟩ := ih h₁ hr
      refine ⟨hbare.trans hbare₁, hlinked, fun u hu => ?_⟩
      rcases hall u hu with hin | hin
      · rcases List.mem_append.mp hin with hin | hin
        · exact .inl hin
        · rw [List.mem_singleton.mp hin]
          exact .inr hne
      · exact .inr hin

/-- The loop ends when all walks have something to find. -/
theorem Building.loop_ends {rounds : Nat} (hrounds : paths.length ≤ rounds)
    (hfound : ∀ w ∈ paths, 2 ≤ w.length → longest paths w.tail ≠ []) : ∀ {n : Nat} {t : Tree}
    {visited pending : List Bytes} {myqueue : List Nat},
    Building t paths visited pending myqueue → paths.length ≤ visited.length + n →
    ∃ t', failLoop rounds n t myqueue = some t' := by
  intro n
  induction n with
  | zero =>
    intro t visited pending myqueue h hn
    cases myqueue with
    | nil => exact ⟨t, rfl⟩
    | cons tmp myqueue =>
      obtain ⟨w, rest, -, -, rfl⟩ := List.forall₂_cons_left_iff.mp h.queue
      have hroom := h.frontier.room
      omega
  | succ n ih =>
    intro t visited pending myqueue h hn
    cases myqueue with
    | nil => exact ⟨t, rfl⟩
    | cons tmp myqueue =>
      obtain ⟨w, rest, -, -, rfl⟩ := List.forall₂_cons_left_iff.mp h.queue
      have hw : w ∈ paths := h.frontier.sub w (List.mem_append_right _ List.mem_cons_self)
      have hlt := h.shape.trie.closed.length_lt hw
      obtain ⟨t₁, myqueue₁, hround⟩ := h.round_ends
        (hfound w hw (h.deep w List.mem_cons_self)) (by omega : w.length ≤ rounds)
      obtain ⟨-, -, pending₁, h₁⟩ := h.round_sound hround
      obtain ⟨t', hloop⟩ := ih h₁ (by rw [List.length_append, List.length_singleton]; omega)
      exact ⟨t', by simp only [failLoop, hround, hloop, Option.bind_eq_bind, Option.bind_some]⟩

/-- The loop over the children of the root. -/
theorem startChildren_spec : ∀ {its : List (UInt8 × Nat)} {t : Tree} {visited pending : List Bytes}
    {myqueue : List Nat}, WellFormed t paths →
    Frontier paths visited (its.map (fun it => [it.1]) ++ pending) →
    (∀ w ∈ visited, FailAt t paths w) →
    List.Forall₂ (fun (p : Nat) w => paths[p]? = some w) myqueue pending →
    (∀ w ∈ pending, 2 ≤ w.length) → (∀ it ∈ its, paths[it.2]? = some [it.1]) →
    ∃ t' myqueue' pending', its.foldlM startChild (t, myqueue) = some (t', myqueue') ∧
      bare t' = bare t ∧
      Building t' paths (visited ++ its.map fun it => [it.1]) pending' myqueue' := by
  intro its
  induction its with
  | nil =>
    intro t visited pending myqueue h hf hl hq hdeep _
    refine ⟨t, myqueue, pending, rfl, rfl, ?_⟩
    rw [List.map_nil, List.append_nil]
    exact ⟨h, hf, hl, hq, hdeep⟩
  | cons it its ih =>
    intro t visited pending myqueue h hf hl hq hdeep hits
    have hp : paths[it.2]? = some [it.1] := hits it List.mem_cons_self
    have hroot : paths[root]? = some (longest paths ([it.1] : Bytes).tail) := by
      rw [List.tail_cons, longest_nil]
      exact h.trie.root
    obtain ⟨t₁, hset, hbare, hnew, hkeep⟩ := FailAt.setFail h hp hroot
    have h₁ := h.of_bare hbare
    obtain ⟨node, hnode, hedge⟩ := node_of_trie h₁.trie hp
    rw [List.map_cons, List.cons_append] at hf
    have hstep := hf.step (childWords_nodup [it.1] node.next) (h₁.trie.mem_childWords hedge hp)
    rw [List.append_assoc] at hstep
    have hl₁ : ∀ w ∈ visited ++ [[it.1]], FailAt t₁ paths w := fun w hw => by
      rcases List.mem_append.mp hw with hw | hw
      · exact hkeep w (hl w hw)
      · rw [List.mem_singleton.mp hw]
        exact hnew
    have hdeep₁ : ∀ w ∈ pending ++ childWords [it.1] node.next, 2 ≤ w.length := fun w hw => by
      rcases List.mem_append.mp hw with hw | hw
      · exact hdeep w hw
      · obtain ⟨c, rfl, -⟩ := (h₁.trie.mem_childWords hedge hp w).mp hw
        simp
    obtain ⟨t', myqueue', pending', hrest, hbare', hbuilding⟩ := ih h₁ hstep hl₁
      (nodeToQueue_spec h₁ hedge hp hq) hdeep₁ fun i hi => hits i (List.mem_cons_of_mem it hi)
    refine ⟨t', myqueue', pending', ?_, hbare'.trans hbare, by simpa using hbuilding⟩
    rw [List.foldlM_cons]
    simp only [startChild, hset, hnode, Option.bind_eq_bind, Option.bind_some]
    exact hrest

theorem buildingFailPath_start (h : WellFormed t paths) :
    ∃ t' visited pending myqueue, bare t' = bare t ∧
      Building t' paths visited pending myqueue ∧ (∀ w ∈ visited, w.length ≤ 1) ∧
      ∀ rounds, buildingFailPath rounds t = failLoop rounds rounds t' myqueue := by
  have hroot : paths[root]? = some (longest paths ([] : Bytes).tail) := by
    rw [List.tail_nil, longest_nil]
    exact h.trie.root
  obtain ⟨t₁, hset, hbare, hnew, -⟩ := FailAt.setFail h h.trie.root hroot
  have h₁ := h.of_bare hbare
  obtain ⟨node, hnode, hedge⟩ := node_of_trie h₁.trie h₁.trie.root
  have hstep := (frontier_start h.trie.closed.nil).step (childWords_nodup [] node.next)
    (h₁.trie.mem_childWords hedge h₁.trie.root)
  have hits : ∀ it ∈ node.next.toList, paths[it.2]? = some [it.1] := fun it hit =>
    (h₁.trie.next hedge h₁.trie.root it.1 it.2).mp
      (Std.TreeMap.mem_toList_iff_getElem?_eq_some.mp hit)
  have hfrontier : Frontier paths [[]] (node.next.toList.map (fun it => [it.1]) ++ []) := by
    simpa [childWords] using hstep
  obtain ⟨t', myqueue, pending, hfold, hbare', hbuilding⟩ := startChildren_spec h₁ hfrontier
    (fun w hw => by rwa [List.mem_singleton.mp hw]) .nil (by simp) hits
  refine ⟨t', _, pending, myqueue, hbare'.trans hbare, hbuilding, fun w hw => ?_, fun rounds => ?_⟩
  · rcases List.mem_append.mp hw with hw | hw
    · rw [List.mem_singleton.mp hw]
      exact Nat.zero_le _
    · obtain ⟨it, -, rfl⟩ := List.mem_map.mp hw
      exact Nat.le_refl _
  · have hset' : setFail t root root = some t₁ := hset
    have hnode' : t₁[root]? = some node := hnode
    simp only [buildingFailPath, hset', hnode', hfold, Option.bind_eq_bind, Option.bind_some]

theorem buildingFailPath_sound (h : WellFormed t paths) {rounds : Nat}
    (hr : buildingFailPath rounds t = some t') :
    bare t' = bare t ∧ (∀ w ∈ paths, FailAt t' paths w) ∧
      ∀ w ∈ paths, 2 ≤ w.length → longest paths w.tail ≠ [] := by
  obtain ⟨t₁, visited, pending, myqueue, hbare, hbuilding, hshort, hloop⟩ :=
    buildingFailPath_start h
  obtain ⟨hbare', hlinked, hall⟩ := hbuilding.loop_sound (hloop rounds ▸ hr)
  refine ⟨hbare'.trans hbare, hlinked, fun w hw hlen => (hall w hw).resolve_left fun hin => ?_⟩
  have := hshort w hin
  omega

theorem buildingFailPath_ends (h : WellFormed t paths)
    (hfound : ∀ w ∈ paths, 2 ≤ w.length → longest paths w.tail ≠ []) :
    ∃ t', buildingFailPath paths.length t = some t' := by
  obtain ⟨t₁, visited, pending, myqueue, -, hbuilding, -, hloop⟩ := buildingFailPath_start h
  rw [hloop]
  exact hbuilding.loop_ends (Nat.le_refl _) hfound (Nat.le_add_left _ _)

end

/-! ## When the builder ends -/

/-- Every node but the root is linked to the node for the longest proper suffix
of its path in the trie. -/
def FailsRight (t : Tree) (paths : List Bytes) : Prop :=
  ∀ (p : Nat) (w : Bytes), paths[p]? = some w → w ≠ [] → ∃ node f u, t[p]? = some node ∧
    node.fail = some f ∧ paths[f]? = some u ∧ LongestProper (· ∈ paths) w u

/-- A byte that leads from some node to a child leads from the root to one. -/
def RootHasAll (t : Tree) : Prop :=
  ∀ node ∈ t, ∀ c : UInt8, (node.next[c]?).isSome →
    ∃ node₀, t[root]? = some node₀ ∧ (node₀.next[c]?).isSome

section
variable {t : Tree} {paths : List Bytes}

theorem failsRight (h : PrefixClosed paths) (hl : ∀ w ∈ paths, FailAt t paths w) :
    FailsRight t paths := by
  intro p w hp hw
  obtain ⟨node, f, hnode, hfail, hf⟩ := hl w (List.mem_of_getElem? hp) p hp
  cases w with
  | nil => exact absurd rfl hw
  | cons a w => exact ⟨node, f, _, hnode, hfail, hf, longestProper_cons h.nil a w⟩

theorem rootHasAll_iff (h : WellFormed t paths) :
    RootHasAll t ↔ ∀ w c, w ++ [c] ∈ paths → [c] ∈ paths := by
  have hchild : ∀ {p : Nat} {node : TreeNode} {w : Bytes} (c : UInt8), t[p]? = some node →
      paths[p]? = some w → ((node.next[c]?).isSome ↔ w ++ [c] ∈ paths) := by
    intro p node w c hnode hp
    have hedge : (edges t)[p]? = some node.next := by
      rw [edges, List.getElem?_map, hnode]
      rfl
    rw [← not_iff_not, ← h.trie.next_eq_none hedge hp c, Option.not_isSome_iff_eq_none]
  constructor
  · intro hall w c hw
    obtain ⟨p, hp⟩ := List.mem_iff_getElem?.mp (h.trie.closed.init w c hw)
    obtain ⟨node, hnode, -⟩ := node_of_trie h.trie hp
    obtain ⟨node₀, hnode₀, hc⟩ :=
      hall node (List.mem_of_getElem? hnode) c ((hchild c hnode hp).mpr hw)
    exact (hchild c hnode₀ h.trie.root).mp hc
  · intro hall node hin c hc
    obtain ⟨p, hnode⟩ := List.mem_iff_getElem?.mp hin
    have hlt : p < paths.length := by
      rw [← h.trie.length, edges, List.length_map]
      exact (List.getElem?_eq_some_iff.mp hnode).1
    have hp := List.getElem?_eq_getElem hlt
    obtain ⟨node₀, hnode₀, -⟩ := node_of_trie h.trie h.trie.root
    exact ⟨node₀, hnode₀,
      (hchild c hnode₀ h.trie.root).mpr (hall _ c ((hchild c hnode hp).mp hc))⟩

end

/-- The tree for one pattern of two bytes, before it has links. -/
def pairTree (a b : UInt8) : Tree :=
  [⟨(∅ : NextMap).insert a 1, none, none, 0, 0, 0⟩,
    ⟨(∅ : NextMap).insert b 2, some 0, none, a, 0, 0⟩, ⟨∅, some 1, none, b, 1, 0⟩]

theorem pairTree_wellFormed (a b : UInt8) : WellFormed (pairTree a b) [[], [a], [a, b]] where
  trie := by
    have hone := holds_new.trie.grow (p := 0) (w := []) (c := a) rfl rfl (by simp)
    exact hone.grow (p := 1) (w := [a]) (c := b) rfl rfl (by simp)
  par := by
    intro p node w c hnode hp
    match p with
    | 0 => simp at hp
    | 1 =>
      have he : [] ++ [a] = w ++ [c] := Option.some.inj hp
      obtain ⟨rfl, hw⟩ := List.append_inj' he rfl
      obtain rfl := Option.some.inj hnode
      exact ⟨(List.cons.inj hw).1, 0, rfl, rfl⟩
    | 2 =>
      have he : [a] ++ [b] = w ++ [c] := Option.some.inj hp
      obtain ⟨rfl, hw⟩ := List.append_inj' he rfl
      obtain rfl := Option.some.inj hnode
      exact ⟨(List.cons.inj hw).1, 1, rfl, rfl⟩
    | p + 3 => simp at hp

/-- **The builder ends exactly on tries whose root has all their bytes.** Then
it has set the right links and nothing else; on any other trie no number of
rounds is enough. -/
theorem buildingFailPath_iff {t : Tree} {paths : List Bytes} (h : WellFormed t paths) :
    (∃ rounds t', buildingFailPath rounds t = some t' ∧ bare t' = bare t ∧ FailsRight t' paths) ↔
      RootHasAll t := by
  have hclosed := h.trie.closed
  rw [rootHasAll_iff h, ← longest_tail_ne_nil_iff hclosed]
  constructor
  · rintro ⟨rounds, t', hr, -⟩
    exact (buildingFailPath_sound h hr).2.2
  · intro hfound
    obtain ⟨t', hr⟩ := buildingFailPath_ends h hfound
    obtain ⟨hbare, hl, -⟩ := buildingFailPath_sound h hr
    exact ⟨paths.length, t', hr, hbare, failsRight hclosed hl⟩

/-- On the pattern `aa` it ends. -/
theorem buildingFailPath_aa : ∃ rounds t', buildingFailPath rounds (pairTree 97 97) = some t' ∧
    bare t' = bare (pairTree 97 97) ∧ FailsRight t' [[], [97], [97, 97]] := by
  refine (buildingFailPath_iff (pairTree_wellFormed 97 97)).mpr ?_
  refine (rootHasAll_iff (pairTree_wellFormed 97 97)).mpr fun w c hw => ?_
  have hbyte : ∀ u ∈ ([[], [97], [97, 97]] : List Bytes), ∀ x ∈ u, x = 97 := by simp
  rw [hbyte _ hw c (by simp)]
  simp

/-- On the pattern `ab` it does not: `b` is looked for at the root for ever. -/
theorem buildingFailPath_ab : WellFormed (pairTree 97 98) [[], [97], [97, 98]] ∧
    ∀ rounds, buildingFailPath rounds (pairTree 97 98) = none := by
  have h := pairTree_wellFormed 97 98
  refine ⟨h, fun rounds => ?_⟩
  cases hr : buildingFailPath rounds (pairTree 97 98) with
  | none => rfl
  | some t' =>
    have hfound := (buildingFailPath_sound h hr).2.2 [97, 98] (by simp) (Nat.le_refl _)
    exact absurd (by simp [longest, chain]) hfound

end CommonTools.Index.Com
