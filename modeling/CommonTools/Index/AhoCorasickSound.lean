import CommonTools.Index.AhoCorasick
import CommonTools.Lib.BreadthFirst

/-! # Aho-Corasick search is exact

`Trie` names every node by the word on its path from the root. The failure
link of a node leads to the longest proper suffix of its word in the trie, so
the walks of the search follow `chain`. -/
namespace CommonTools.Index.AhoCorasick
open CommonTools.Lib

/-! ## The parts of a trie -/

def edges (t : AhoCorasick) : List NextMap := t.nodes.map TrieNode.next

/-- The pattern that ends at each node. -/
def marks (t : AhoCorasick) : List (Option Nat) :=
  t.nodes.map fun node => if node.end_ then some node.pIndex else none

def fails (t : AhoCorasick) : List (Option Nat) := t.nodes.map TrieNode.fail

/-- `paths` gives the word of every node. -/
structure Trie (edges : List NextMap) (paths : List Bytes) : Prop where
  length : edges.length = paths.length
  root : paths[0]? = some []
  nodup : paths.Nodup
  closed : PrefixClosed paths
  next : ∀ {p : Nat} {next : NextMap} {w : Bytes}, edges[p]? = some next →
    paths[p]? = some w → ∀ (c : UInt8) (q : Nat), next[c]? = some q ↔ paths[q]? = some (w ++ [c])

theorem Trie.node {t : AhoCorasick} {paths : List Bytes} (h : Trie t.edges paths) {p : Nat}
    {w : Bytes} (hp : paths[p]? = some w) :
    ∃ node, t.nodes[p]? = some node ∧ t.edges[p]? = some node.next ∧
      t.marks[p]? = some (if node.end_ then some node.pIndex else none) ∧
      t.fails[p]? = some node.fail := by
  have hlt : p < t.nodes.length := by
    have hlen := h.length
    rw [edges, List.length_map] at hlen
    rw [hlen]
    exact (List.getElem?_eq_some_iff.mp hp).1
  have hnode := List.getElem?_eq_getElem hlt
  exact ⟨t.nodes[p], hnode, by simp [edges, hnode], by simp [marks, hnode], by simp [fails, hnode]⟩

/-- A node has a child for `c` when the trie goes on with `c` there. -/
theorem Trie.next_eq_none {e : List NextMap} {paths : List Bytes}
    (h : Trie e paths) {p : Nat} {next : NextMap} {w : Bytes}
    (hn : e[p]? = some next) (hp : paths[p]? = some w) (c : UInt8) :
    next[c]? = none ↔ w ++ [c] ∉ paths := by
  rw [← not_iff_not, not_not, ← ne_eq, Option.ne_none_iff_exists']
  simp only [h.next hn hp, List.mem_iff_getElem?]

theorem Trie.path_unique {e : List NextMap} {paths : List Bytes}
    (h : Trie e paths) {p q : Nat} {w : Bytes} (hp : paths[p]? = some w)
    (hq : paths[q]? = some w) : p = q := by
  obtain ⟨hplt, hpw⟩ := List.getElem?_eq_some_iff.mp hp
  obtain ⟨hqlt, hqw⟩ := List.getElem?_eq_some_iff.mp hq
  exact (h.nodup.getElem_inj_iff).mp (hpw.trans hqw.symm)

/-! ## Inserting patterns -/

/-- The largest index that holds `w`. -/
def lastIndex (patterns : List Bytes) (w : Bytes) : Option Nat :=
  ((patterns.zipIdx.filter fun e => e.1 = w).map Prod.snd).getLast?

/-- What a node for `w` is marked with. -/
def markOf (patterns : List Bytes) (w : Bytes) : Option Nat :=
  if w = [] then none else lastIndex patterns w

theorem lastIndex_append (patterns : List Bytes) (x w : Bytes) :
    lastIndex (patterns ++ [x]) w =
      if x = w then some patterns.length else lastIndex patterns w := by
  by_cases h : x = w <;> simp [lastIndex, List.zipIdx_append, List.filter_append, h]

theorem lastIndex_eq_some {patterns : List Bytes} {w : Bytes} {idx : Nat} :
    lastIndex patterns w = some idx ↔
      patterns[idx]? = some w ∧ ∀ j, patterns[j]? = some w → j ≤ idx := by
  induction patterns using List.reverseRecOn with
  | nil => simp [lastIndex]
  | append_singleton patterns x ih =>
    rw [lastIndex_append]
    by_cases h : x = w
    · subst h
      rw [if_pos rfl]
      constructor
      · rintro ⟨rfl⟩
        refine ⟨by simp, fun j hj => ?_⟩
        have := (List.getElem?_eq_some_iff.mp hj).1
        rw [List.length_append, List.length_singleton] at this
        omega
      · rintro ⟨hidx, hmax⟩
        have hle := hmax patterns.length (by simp)
        have hlt := (List.getElem?_eq_some_iff.mp hidx).1
        rw [List.length_append, List.length_singleton] at hlt
        exact congrArg some (by omega)
    · have hsame : ∀ j : Nat, (patterns ++ [x])[j]? = some w ↔ patterns[j]? = some w := by
        intro j
        rcases Nat.lt_trichotomy j patterns.length with hj | rfl | hj
        · rw [List.getElem?_append_left hj]
        · simp [h]
        · rw [List.getElem?_eq_none (by simp; omega), List.getElem?_eq_none (by omega)]
      rw [if_neg h, ih]
      simp only [hsame]

/-- The trie of the patterns inserted so far, with no link at the root yet. -/
structure Holds (t : AhoCorasick) (paths patterns : List Bytes) : Prop where
  trie : Trie t.edges paths
  marks : ∀ (p : Nat) (w : Bytes), paths[p]? = some w → t.marks[p]? = some (markOf patterns w)
  patterns : ∀ w ∈ patterns, w ∈ paths
  root : t.fails[0]? = some none

theorem holds_new : Holds new [[]] [] where
  trie := by
    refine ⟨rfl, rfl, by simp, ⟨by simp, fun w c h => by simp at h⟩, ?_⟩
    intro p next w hn hp c q
    have hnext : next = ∅ := by
      cases p with
      | zero => exact (Option.some.inj hn).symm
      | succ p => simp [edges, new] at hn
    subst hnext
    cases q <;> simp
  marks p w hp := by
    cases p with
    | zero =>
      have hw : w = [] := by simpa using hp.symm
      subst hw
      rfl
    | succ p => simp at hp
  patterns w hw := absurd hw List.not_mem_nil
  root := rfl

theorem lastIndex_eq_none {patterns : List Bytes} {w : Bytes} (h : w ∉ patterns) :
    lastIndex patterns w = none := by
  cases hl : lastIndex patterns w with
  | none => rfl
  | some idx => exact absurd (List.mem_of_getElem? (lastIndex_eq_some.mp hl).1) h

theorem map_set_of_same {α β : Type} {f : α → β} {l : List α} {p : Nat} {a : α}
    (h : (l.map f)[p]? = some (f a)) : (l.set p a).map f = l.map f := by
  obtain ⟨hlt, hget⟩ := List.getElem?_eq_some_iff.mp h
  rw [List.map_set, ← hget, List.set_getElem_self]

theorem getElem?_concat_eq_some {α : Type} {l : List α} {x y : α} {q : Nat} :
    (l ++ [x])[q]? = some y ↔ l[q]? = some y ∨ (q = l.length ∧ x = y) := by
  rcases Nat.lt_trichotomy q l.length with hq | rfl | hq
  · rw [List.getElem?_append_left hq]
    simp [Nat.ne_of_lt hq]
  · simp
  · rw [List.getElem?_eq_none (by simp; omega), List.getElem?_eq_none (by omega)]
    simp [Nat.ne_of_gt hq]

theorem Trie.grow {e : List NextMap} {paths : List Bytes} (h : Trie e paths)
    {p : Nat} {next : NextMap} {w : Bytes} (hn : e[p]? = some next)
    (hp : paths[p]? = some w) {c : UInt8} (hnew : w ++ [c] ∉ paths) :
    Trie (e.set p (next.insert c paths.length) ++ [∅]) (paths ++ [w ++ [c]]) where
  length := by simp [h.length]
  root := getElem?_concat_eq_some.mpr (.inl h.root)
  nodup := by
    refine List.nodup_append.mpr ⟨h.nodup, by simp, fun u hu v hv he => hnew ?_⟩
    rwa [← List.mem_singleton.mp hv, ← he]
  closed := by
    refine ⟨List.mem_append_left _ h.closed.nil, fun u d hu => List.mem_append_left _ ?_⟩
    rcases List.mem_append.mp hu with hu | hu
    · exact h.closed.init u d hu
    · obtain ⟨rfl, -⟩ := List.append_inj' (List.mem_singleton.mp hu) rfl
      exact List.mem_of_getElem? hp
  next := by
    have hplt : p < e.length := (List.getElem?_eq_some_iff.mp hn).1
    have hnotin : ∀ q : Nat, paths[q]? ≠ some (w ++ [c]) := fun q hq =>
      hnew (List.mem_of_getElem? hq)
    intro p' next' w' hn' hp' d q
    rw [getElem?_concat_eq_some] at hn' hp' ⊢
    rw [List.length_set, h.length] at hn'
    rcases hp' with hp' | ⟨rfl, rfl⟩
    · have hlt' : p' < paths.length := (List.getElem?_eq_some_iff.mp hp').1
      have hget := hn'.resolve_right (by omega)
      by_cases hpp : p = p'
      · subst hpp
        rw [List.getElem?_set_self hplt] at hget
        obtain rfl := Option.some.inj hget
        obtain rfl : w = w' := Option.some.inj (hp.symm.trans hp')
        rw [Std.TreeMap.getElem?_insert]
        by_cases hcd : c = d
        · subst hcd
          simp [hnotin q, eq_comm]
        · have hne : compare c d ≠ .eq := fun he => hcd (Std.compare_eq_iff_eq.mp he)
          simp [hne, hcd, h.next hn hp d q]
      · rw [List.getElem?_set_ne hpp] at hget
        have hww : w ++ [c] ≠ w' ++ [d] := fun he =>
          hpp (h.path_unique hp ((List.append_inj' he rfl).1 ▸ hp'))
        rw [h.next hget hp' d q]
        exact ⟨.inl, fun hq => hq.resolve_right fun hw => hww hw.2⟩
    · -- the new leaf has no children
      have hleaf : next' = ∅ := by
        rcases hn' with hn' | ⟨-, he⟩
        · have := (List.getElem?_eq_some_iff.mp hn').1
          rw [List.length_set, h.length] at this
          omega
        · exact he.symm
      have hno : paths[q]? ≠ some (w ++ [c] ++ [d]) := fun hq =>
        hnew (h.closed.init _ d (List.mem_of_getElem? hq))
      have hlen : w ++ [c] ≠ w ++ [c] ++ [d] := fun he => by
        have := congrArg List.length he
        simp at this
      rw [hleaf, Std.TreeMap.getElem?_emptyc]
      exact ⟨nofun, fun hq => hq.elim (fun hq => absurd hq hno) fun hq => absurd hq.2 hlen⟩

/-- What `child` does: it goes to a node of the trie, or it makes a bare leaf. -/
theorem Trie.child {t : AhoCorasick} {paths : List Bytes} (h : Trie t.edges paths) {p : Nat}
    {w : Bytes} (hp : paths[p]? = some w) (c : UInt8) :
    (∃ q, t.child p c = some (t, q) ∧ paths[q]? = some (w ++ [c])) ∨
      ∃ t', w ++ [c] ∉ paths ∧ t.child p c = some (t', paths.length) ∧
        Trie t'.edges (paths ++ [w ++ [c]]) ∧ t'.marks = t.marks ++ [none] ∧
        t'.fails = t.fails ++ [none] := by
  obtain ⟨node, hnode, hedge, hmark, hfail⟩ := h.node hp
  cases hc : node.next[c]? with
  | some q =>
    refine .inl ⟨q, ?_, (h.next hedge hp c q).mp hc⟩
    simp only [AhoCorasick.child, hnode, hc, Option.bind_eq_bind, Option.bind_some]
  | none =>
    have hnew : w ++ [c] ∉ paths := (h.next_eq_none hedge hp c).mp hc
    have hlen : t.nodes.length = paths.length := by
      rw [← h.length, edges, List.length_map]
    let node' : TrieNode := { node with next := node.next.insert c paths.length }
    refine .inr ⟨⟨t.nodes.set p node' ++ [TrieNode.new]⟩, hnew, ?_, ?_, ?_, ?_⟩
    · simp only [AhoCorasick.child, hnode, hc, hlen, Option.bind_eq_bind, Option.bind_some]
      rfl
    · have hedges : (⟨t.nodes.set p node' ++ [TrieNode.new]⟩ : AhoCorasick).edges =
          t.edges.set p (node.next.insert c paths.length) ++ [∅] := by
        rw [edges, List.map_append, List.map_set]
        rfl
      rw [hedges]
      exact h.grow hedge hp hnew
    · have hmarks : (t.nodes.set p node').map
          (fun node => if node.end_ then some node.pIndex else none) = t.marks :=
        map_set_of_same hmark
      rw [AhoCorasick.marks, List.map_append, hmarks]
      rfl
    · have hfails : (t.nodes.set p node').map TrieNode.fail = t.fails := map_set_of_same hfail
      rw [fails, List.map_append, hfails]
      rfl

/-- After `child` the node for `w ++ [c]` exists. -/
theorem Holds.child {t : AhoCorasick} {paths patterns : List Bytes} (h : Holds t paths patterns)
    {p : Nat} {w : Bytes} (hp : paths[p]? = some w) (c : UInt8) :
    ∃ t' q paths', t.child p c = some (t', q) ∧ Holds t' paths' patterns ∧
      paths'[q]? = some (w ++ [c]) := by
  rcases h.trie.child hp c with ⟨q, hchild, hq⟩ | ⟨t', hnew, hchild, htrie, hmarks, hfails⟩
  · exact ⟨t, q, paths, hchild, h, hq⟩
  · refine ⟨t', paths.length, paths ++ [w ++ [c]], hchild,
      ⟨htrie, fun p' u hu => ?_, fun u hu => List.mem_append_left _ (h.patterns u hu), ?_⟩,
      by simp⟩
    · rw [hmarks]
      rcases getElem?_concat_eq_some.mp hu with hu | ⟨rfl, rfl⟩
      · exact getElem?_concat_eq_some.mpr (.inl (h.marks p' u hu))
      · have hnone : markOf patterns (w ++ [c]) = none := by
          rw [markOf, if_neg (by simp), lastIndex_eq_none fun hin => hnew (h.patterns _ hin)]
        refine getElem?_concat_eq_some.mpr (.inr ⟨?_, hnone.symm⟩)
        rw [← h.trie.length, AhoCorasick.marks, edges, List.length_map, List.length_map]
    · rw [hfails]
      exact getElem?_concat_eq_some.mpr (.inl h.root)

theorem Holds.descend {patterns : List Bytes} :
    ∀ (rest : Bytes) {t : AhoCorasick} {paths : List Bytes} {p : Nat} {w : Bytes},
      Holds t paths patterns → paths[p]? = some w →
      ∃ t' q paths', t.descend p rest = some (t', q) ∧ Holds t' paths' patterns ∧
        paths'[q]? = some (w ++ rest)
  | [], t, paths, p, w, h, hp => ⟨t, p, paths, rfl, h, by rwa [List.append_nil]⟩
  | c :: rest, t, paths, p, w, h, hp => by
    obtain ⟨t1, q1, paths1, hchild, h1, hq1⟩ := h.child hp c
    obtain ⟨t', q, paths', hrest, h', hq⟩ := h1.descend rest hq1
    refine ⟨t', q, paths', ?_, h', by simpa using hq⟩
    simp only [AhoCorasick.descend, hchild, hrest, Option.bind_eq_bind, Option.bind_some]

/-- What is left to `insert` when the path of the pattern is there. -/
theorem insert_of_descend {t t1 : AhoCorasick} {paths : List Bytes} {pattern : Bytes} {q : Nat}
    (hne : pattern ≠ []) (hdescend : t.descend AhoCorasick.root pattern = some (t1, q))
    (h1 : Trie t1.edges paths) (hq : paths[q]? = some pattern) (patternIndex : Nat) :
    ∃ t', t.insert pattern patternIndex = some (0, t') ∧ t'.edges = t1.edges ∧
      t'.fails = t1.fails ∧ t'.marks = t1.marks.set q (some patternIndex) := by
  obtain ⟨node, hnode, hedge, -, hfail⟩ := h1.node hq
  let node' : TrieNode := { node with end_ := true, pIndex := patternIndex }
  have hlen : ¬ pattern.length = 0 := by simpa using hne
  refine ⟨⟨t1.nodes.set q node'⟩, ?_, map_set_of_same hedge, map_set_of_same hfail,
    List.map_set⟩
  simp only [AhoCorasick.insert, if_neg hlen, hdescend, hnode, Option.bind_eq_bind,
    Option.bind_some]
  rfl

/-- A pattern that is there twice keeps the later index. -/
theorem Holds.insert {t : AhoCorasick} {paths patterns : List Bytes} (h : Holds t paths patterns)
    (pattern : Bytes) :
    ∃ ret t' paths', t.insert pattern patterns.length = some (ret, t') ∧
      Holds t' paths' (patterns ++ [pattern]) := by
  by_cases hnil : pattern = []
  · subst hnil
    refine ⟨-1, t, paths, rfl, h.trie, fun p w hp => ?_, fun w hw => ?_, h.root⟩
    · rw [h.marks p w hp, markOf, markOf, lastIndex_append]
      by_cases hw : w = []
      · rw [if_pos hw, if_pos hw]
      · rw [if_neg hw, if_neg hw, if_neg (Ne.symm hw)]
    · rcases List.mem_append.mp hw with hw | hw
      · exact h.patterns w hw
      · rw [List.mem_singleton.mp hw]; exact h.trie.closed.nil
  · obtain ⟨t1, q, paths', hdescend, h1, hq⟩ := h.descend pattern h.trie.root
    obtain ⟨t', hinsert, hedges, hfails, hmarks⟩ :=
      insert_of_descend hnil hdescend h1.trie hq patterns.length
    refine ⟨0, t', paths', hinsert, hedges ▸ h1.trie, fun p w hp => ?_, fun w hw => ?_,
      hfails ▸ h1.root⟩
    · have hold := h1.marks p w hp
      rw [hmarks, markOf, lastIndex_append]
      by_cases hpq : q = p
      · subst hpq
        obtain rfl : pattern = w := Option.some.inj (hq.symm.trans hp)
        rw [List.getElem?_set_self (List.getElem?_eq_some_iff.mp hold).1, if_neg hnil, if_pos rfl]
      · have hne : pattern ≠ w := fun he => hpq (h1.trie.path_unique hq (he ▸ hp))
        rw [List.getElem?_set_ne hpq, hold, markOf, if_neg hne]
    · rcases List.mem_append.mp hw with hw | hw
      · exact h1.patterns w hw
      · rw [List.mem_singleton.mp hw]; exact List.mem_of_getElem? hq

theorem Holds.insertAll :
    ∀ (more : List Bytes) {t : AhoCorasick} {paths patterns : List Bytes}, Holds t paths patterns →
      ∃ t' paths', t.insertAll patterns.length more = some t' ∧ Holds t' paths' (patterns ++ more)
  | [], t, paths, patterns, h => ⟨t, paths, rfl, by rwa [List.append_nil]⟩
  | pattern :: more, t, paths, patterns, h => by
    obtain ⟨ret, t1, paths1, hinsert, h1⟩ := h.insert pattern
    obtain ⟨t', paths', hrest, h'⟩ := h1.insertAll more
    refine ⟨t', paths', ?_, by simpa using h'⟩
    rw [List.length_append, List.length_singleton] at hrest
    simp only [AhoCorasick.insertAll, hinsert, hrest, Option.bind_eq_bind, Option.bind_some]

/-! ## Failure links -/

/-- The right link of the node for a word. -/
def Link (paths : List Bytes) : Bytes → Option Nat → Prop
  | [], l => l = none
  | _ :: u, l => ∃ q, l = some q ∧ paths[q]? = some (longest paths u)

/-- The node for `w` has its right link. -/
def LinkedAt (t : AhoCorasick) (paths : List Bytes) (w : Bytes) : Prop :=
  ∀ p : Nat, paths[p]? = some w → ∃ l, t.fails[p]? = some l ∧ Link paths w l

/-- Every word up to length `n` has its right link. -/
def LinkedTo (t : AhoCorasick) (paths : List Bytes) (n : Nat) : Prop :=
  ∀ w ∈ paths, w.length ≤ n → LinkedAt t paths w

theorem LinkedTo.fail {t : AhoCorasick} {paths : List Bytes} {n : Nat} (h : LinkedTo t paths n)
    {p : Nat} {node : TrieNode} {w : Bytes} (hp : paths[p]? = some w)
    (hnode : t.fails[p]? = some node.fail) (hw : w.length ≤ n) : Link paths w node.fail := by
  obtain ⟨l, hl, hlink⟩ := h w (List.mem_of_getElem? hp) hw p hp
  rwa [Option.some.inj (hnode.symm.trans hl)]

/-- Following links from the node of `w` finds the longest suffix of
`w ++ [c]`. -/
theorem failTarget_spec {t : AhoCorasick} {paths : List Bytes} {d : Nat}
    (ht : Trie t.edges paths) (hl : LinkedTo t paths d) (c : UInt8) :
    ∀ {n p : Nat} {w : Bytes}, paths[p]? = some w → w.length ≤ d → w.length < n →
      ∃ r, failTarget t.nodes c n (some p) = some r ∧
        paths[r.getD root]? = some (longest paths (w ++ [c]))
  | 0, _, _, _, _, hlt => absurd hlt (Nat.not_lt_zero _)
  | n + 1, p, w, hp, hn, hlt => by
    obtain ⟨node, hnode, hedge, -, hfail⟩ := ht.node hp
    cases hc : node.next[c]? with
    | some q =>
      have hq := (ht.next hedge hp c q).mp hc
      refine ⟨some q, by simp only [failTarget, hnode, hc, Option.bind_eq_bind, Option.bind_some],
        ?_⟩
      rw [longest_eq_self (List.mem_of_getElem? hq)]
      exact hq
    | none =>
      have hout := (ht.next_eq_none hedge hp c).mp hc
      have hlink := hl.fail hp hfail hn
      cases w with
      | nil =>
        refine ⟨none, ?_, ?_⟩
        · have hnull : node.fail = none := hlink
          simp only [failTarget, hnode, hc, hnull, Option.bind_eq_bind, Option.bind_some]
        · rw [List.nil_append] at hout ⊢
          rw [longest_cons_of_notMem hout, longest_nil]
          exact ht.root
      | cons a u =>
        obtain ⟨q, hq, hqp⟩ := hlink
        have hle := longest_length_le ht.closed.nil u
        rw [List.length_cons] at hn hlt
        obtain ⟨r, hr, hrp⟩ := failTarget_spec ht hl c (n := n) hqp (by omega) (by omega)
        refine ⟨r, ?_, ?_⟩
        · simp only [failTarget, hnode, hc, hq, hr, Option.bind_eq_bind, Option.bind_some]
        · rw [longest_append_of_notMem ht.closed hout]
          exact hrp

theorem setFail_spec {t : AhoCorasick} {paths : List Bytes} (ht : Trie t.edges paths) {p f : Nat}
    {w : Bytes} (hp : paths[p]? = some w) (hlink : Link paths w (some f)) :
    ∃ t', t.setFail p f = some t' ∧ t'.edges = t.edges ∧ t'.marks = t.marks ∧
      LinkedAt t' paths w ∧ ∀ u, LinkedAt t paths u → LinkedAt t' paths u := by
  obtain ⟨node, hnode, hedge, hmark, hfail⟩ := ht.node hp
  let node' : TrieNode := { node with fail := some f }
  have hfails : (⟨t.nodes.set p node'⟩ : AhoCorasick).fails = t.fails.set p (some f) := List.map_set
  have hnew : LinkedAt ⟨t.nodes.set p node'⟩ paths w := by
    intro q hq
    obtain rfl := ht.path_unique hp hq
    refine ⟨some f, ?_, hlink⟩
    rw [hfails, List.getElem?_set_self (List.getElem?_eq_some_iff.mp hfail).1]
  refine ⟨⟨t.nodes.set p node'⟩, ?_, map_set_of_same hedge, map_set_of_same hmark, hnew,
    fun u hu q hq => ?_⟩
  · simp only [setFail, hnode, Option.bind_eq_bind, Option.bind_some]
    rfl
  · by_cases hpq : p = q
    · subst hpq
      obtain rfl : w = u := Option.some.inj (hp.symm.trans hq)
      exact hnew p hq
    · rw [hfails, List.getElem?_set_ne hpq]
      exact hu q hq

theorem fixChild_spec {t : AhoCorasick} {paths : List Bytes} (ht : Trie t.edges paths)
    {parent : Nat} {v : Bytes} (hparent : paths[parent]? = some v)
    (hl : LinkedTo t paths v.length) {c : UInt8} {q : Nat} (hq : paths[q]? = some (v ++ [c])) :
    ∃ t', fixChild parent t (c, q) = some t' ∧ t'.edges = t.edges ∧ t'.marks = t.marks ∧
      LinkedAt t' paths (v ++ [c]) ∧ ∀ u, LinkedAt t paths u → LinkedAt t' paths u := by
  by_cases hroot : parent = root
  · have hv : v = [] := by
      rw [hroot] at hparent
      exact Option.some.inj (hparent.symm.trans ht.root)
    subst hv
    have hlink : Link paths ([] ++ [c]) (some root) := ⟨root, rfl, by rw [longest_nil]; exact ht.root⟩
    rw [fixChild, if_pos hroot]
    exact setFail_spec ht hq hlink
  · obtain ⟨node, hnode, -, -, hfail⟩ := ht.node hparent
    have hlink := hl.fail hparent hfail (Nat.le_refl _)
    cases v with
    | nil => exact absurd (ht.path_unique hparent ht.root) hroot
    | cons a u =>
      obtain ⟨f, hf, hfp⟩ := hlink
      have hle := longest_length_le ht.closed.nil u
      have hlt : (longest paths u).length < t.nodes.length := by
        have hlen := ht.length
        rw [edges, List.length_map] at hlen
        rw [hlen]
        exact ht.closed.length_lt (longest_mem ht.closed.nil u)
      obtain ⟨r, hr, hrp⟩ := failTarget_spec ht hl c hfp
        (by rw [List.length_cons]; omega) hlt
      have hlink' : Link paths (a :: u ++ [c]) (some (r.getD root)) :=
        ⟨_, rfl, by rw [longest_longest_append ht.closed] at hrp; exact hrp⟩
      obtain ⟨t', hset, h'⟩ := setFail_spec ht hq hlink'
      refine ⟨t', ?_, h'⟩
      simp only [fixChild, if_neg hroot, hnode, hf, hr, hset, Option.bind_eq_bind,
        Option.bind_some]

theorem fixChildren_spec {paths : List Bytes} {parent : Nat} {v : Bytes}
    (hparent : paths[parent]? = some v) :
    ∀ {its : List (UInt8 × Nat)} {t : AhoCorasick}, Trie t.edges paths →
      LinkedTo t paths v.length → (∀ it ∈ its, paths[it.2]? = some (v ++ [it.1])) →
      ∃ t', its.foldlM (fixChild parent) t = some t' ∧ t'.edges = t.edges ∧ t'.marks = t.marks ∧
        (∀ it ∈ its, LinkedAt t' paths (v ++ [it.1])) ∧
        ∀ u, LinkedAt t paths u → LinkedAt t' paths u := by
  intro its
  induction its with
  | nil =>
    intro t _ _ _
    exact ⟨t, rfl, rfl, rfl, fun it h => absurd h List.not_mem_nil, fun _ h => h⟩
  | cons it its ih =>
    intro t ht hl hits
    obtain ⟨t1, hfix, he, hm, hnew, hkeep⟩ := fixChild_spec ht hparent hl
      (hits it List.mem_cons_self)
    obtain ⟨t', hrest, he', hm', hnew', hkeep'⟩ := ih (t := t1) (he ▸ ht)
      (fun u hu hle => hkeep u (hl u hu hle)) fun i hi => hits i (List.mem_cons_of_mem it hi)
    refine ⟨t', ?_, he'.trans he, hm'.trans hm, fun i hi => ?_, fun u hu => hkeep' u (hkeep u hu)⟩
    · rw [List.foldlM_cons, hfix, Option.bind_eq_bind, Option.bind_some, hrest]
    · rcases List.mem_cons.mp hi with rfl | hi
      · exact hkeep' _ hnew
      · exact hnew' i hi

/-! ## The breadth-first walk -/

/-- The nodes that left the queue and those that are in it, by their words.
The queue never falls in length and spans at most two levels, so all shorter
words have left it. -/
structure Front (t : AhoCorasick) (paths visited pending : List Bytes) : Prop where
  nodup : (visited ++ pending).Nodup
  sub : ∀ w ∈ visited ++ pending, w ∈ paths
  root : [] ∈ visited ++ pending
  children : ∀ w ∈ visited, ∀ c, w ++ [c] ∈ paths → w ++ [c] ∈ visited ++ pending
  parents : ∀ w c, w ++ [c] ∈ visited ++ pending → w ∈ visited
  rising : pending.Pairwise fun u v => u.length ≤ v.length
  spread : ∀ u ∈ pending, ∀ v ∈ pending, v.length ≤ u.length + 1
  linked : ∀ w ∈ visited ++ pending, LinkedAt t paths w

/-- Without the links the walk is one through the words. -/
theorem Front.frontier {t : AhoCorasick} {paths visited pending : List Bytes}
    (h : Front t paths visited pending) : Frontier paths visited pending :=
  ⟨h.nodup, h.sub, h.root, h.children, h.parents, h.rising, h.spread⟩

/-- The words of the children of `v`, in the order of the map. -/
def childWords (v : Bytes) (next : NextMap) : List Bytes :=
  next.toList.map fun it => v ++ [it.1]

theorem Trie.mem_childWords {e : List NextMap} {paths : List Bytes} (h : Trie e paths) {p : Nat}
    {next : NextMap} {v : Bytes} (hn : e[p]? = some next) (hp : paths[p]? = some v) (w : Bytes) :
    w ∈ childWords v next ↔ ∃ c, w = v ++ [c] ∧ v ++ [c] ∈ paths := by
  rw [childWords, List.mem_map]
  constructor
  · rintro ⟨⟨c, q⟩, hit, rfl⟩
    have hq := (h.next hn hp c q).mp (Std.TreeMap.mem_toList_iff_getElem?_eq_some.mp hit)
    exact ⟨c, rfl, List.mem_of_getElem? hq⟩
  · rintro ⟨c, rfl, hin⟩
    obtain ⟨q, hq⟩ := List.mem_iff_getElem?.mp hin
    have hget := (h.next hn hp c q).mpr hq
    exact ⟨(c, q), Std.TreeMap.mem_toList_iff_getElem?_eq_some.mpr hget, rfl⟩

theorem childWords_nodup (v : Bytes) (next : NextMap) : (childWords v next).Nodup := by
  rw [childWords, List.Nodup, List.pairwise_map]
  refine Std.TreeMap.distinct_keys_toList.imp fun hne heq => hne ?_
  exact Std.compare_eq_iff_eq.mpr (by simpa using heq)

/-- The head of the queue is visited and its children are queued. -/
theorem Front.step {t t' : AhoCorasick} {paths visited rest : List Bytes} {v : Bytes} {p : Nat}
    {next : NextMap} (h : Front t paths visited (v :: rest)) (ht : Trie t.edges paths)
    (hn : t.edges[p]? = some next) (hp : paths[p]? = some v)
    (hnew : ∀ w ∈ childWords v next, LinkedAt t' paths w)
    (hkeep : ∀ u, LinkedAt t paths u → LinkedAt t' paths u) :
    Front t' paths (visited ++ [v]) (rest ++ childWords v next) := by
  have hstep := h.frontier.step (childWords_nodup v next) (ht.mem_childWords hn hp)
  refine ⟨hstep.nodup, hstep.sub, hstep.root, hstep.children, hstep.parents, hstep.rising,
    hstep.spread, fun w hw => ?_⟩
  have hsplit : w ∈ visited ++ (v :: rest) ∨ w ∈ childWords v next := by
    simpa [or_assoc] using hw
  rcases hsplit with hw | hw
  · exact hkeep w (h.linked w hw)
  · exact hnew w hw

/-- The loop ends and leaves every node with its right link. -/
theorem fixLoop_spec {paths : List Bytes} :
    ∀ {n : Nat} {t : AhoCorasick} {visited pending : List Bytes} {queue : List Nat},
      Trie t.edges paths → Front t paths visited pending →
      List.Forall₂ (fun (p : Nat) w => paths[p]? = some w) queue pending →
      paths.length ≤ visited.length + n →
      ∃ t', fixLoop n t queue = some t' ∧ t'.edges = t.edges ∧ t'.marks = t.marks ∧
        ∀ w ∈ paths, LinkedAt t' paths w
  | n, t, visited, [], [], ht, hf, .nil, _ =>
    ⟨t, by cases n <;> rfl, rfl, rfl, fun w hw => hf.linked w
      (List.mem_append_left _ (hf.frontier.seen_all ht.closed w hw))⟩
  | 0, t, visited, v :: rest, p :: queue, ht, hf, .cons hp hq, hn => by
    have hroom := hf.frontier.room
    omega
  | n + 1, t, visited, v :: rest, p :: queue, ht, hf, .cons hp hq, hn => by
    obtain ⟨node, hnode, hedge, -, -⟩ := ht.node hp
    have hl : LinkedTo t paths v.length := fun w hw hle =>
      hf.linked w (hf.frontier.seen ht.closed w hw hle)
    have hits : ∀ it ∈ node.next.toList, paths[it.2]? = some (v ++ [it.1]) := fun it hit =>
      (ht.next hedge hp it.1 it.2).mp (Std.TreeMap.mem_toList_iff_getElem?_eq_some.mp hit)
    obtain ⟨t1, hfix, he, hm, hnew, hkeep⟩ := fixChildren_spec hp ht hl hits
    have hnew' : ∀ w ∈ childWords v node.next, LinkedAt t1 paths w := fun w hw => by
      obtain ⟨it, hit, rfl⟩ := List.mem_map.mp hw
      exact hnew it hit
    have hqueue : List.Forall₂ (fun (p : Nat) w => paths[p]? = some w)
        (queue ++ node.next.toList.map Prod.snd) (rest ++ childWords v node.next) := by
      refine List.rel_append hq ?_
      rw [childWords, List.forall₂_map_left_iff, List.forall₂_map_right_iff]
      exact List.forall₂_same.mpr hits
    obtain ⟨t', hloop, he', hm', hall⟩ := fixLoop_spec (n := n) (t := t1) (he ▸ ht)
      (hf.step ht hedge hp hnew' hkeep) hqueue (by simp; omega)
    refine ⟨t', ?_, he'.trans he, hm'.trans hm, hall⟩
    simp only [fixLoop, hnode, hfix, hloop, Option.bind_eq_bind, Option.bind_some]

/-- An automaton for the patterns, ready to search. -/
structure Ready (t : AhoCorasick) (paths patterns : List Bytes) : Prop where
  trie : Trie t.edges paths
  marks : ∀ (p : Nat) (w : Bytes), paths[p]? = some w → t.marks[p]? = some (markOf patterns w)
  patterns : ∀ w ∈ patterns, w ∈ paths
  linked : ∀ w ∈ paths, LinkedAt t paths w

/-- `fixAhoCorasick` ends with the right links, whatever links there were. -/
theorem fixAhoCorasick_spec {t : AhoCorasick} {paths : List Bytes} (h : Trie t.edges paths)
    (hroot : t.fails[0]? = some none) :
    ∃ t', t.fixAhoCorasick = some t' ∧ t'.edges = t.edges ∧ t'.marks = t.marks ∧
      ∀ w ∈ paths, LinkedAt t' paths w := by
  have hlen : t.nodes.length = paths.length := by
    rw [← h.length, edges, List.length_map]
  have hlinked : LinkedAt t paths [] := fun p hp => by
    obtain rfl := h.path_unique hp h.root
    exact ⟨none, hroot, rfl⟩
  have hfront : Front t paths [] [[]] :=
    ⟨by simp, by simpa using h.closed.nil, by simp, by simp, by simp, by simp, by simp,
      by simpa using hlinked⟩
  have hqueue : List.Forall₂ (fun (p : Nat) w => paths[p]? = some w) [root] [[]] :=
    .cons h.root .nil
  exact fixLoop_spec (n := t.nodes.length) h hfront hqueue (by simp [hlen])

theorem initializeTrie_ready (patterns : List Bytes) :
    ∃ t paths, new.initializeTrie patterns = some t ∧ Ready t paths patterns := by
  obtain ⟨t1, paths, hinsert, h⟩ := holds_new.insertAll patterns
  rw [List.nil_append] at h
  obtain ⟨t, hfix, he, hm, hall⟩ := fixAhoCorasick_spec h.trie h.root
  refine ⟨t, paths, ?_, he ▸ h.trie, fun p w hp => hm ▸ h.marks p w hp, h.patterns, hall⟩
  have hinsert' : new.insertAll 0 patterns = some t1 := hinsert
  simp only [initializeTrie, hinsert', hfix, Option.bind_eq_bind, Option.bind_some]

/-! ## Searching -/

namespace Ready
variable {t : AhoCorasick} {paths patterns : List Bytes}

theorem linkedTo (h : Ready t paths patterns) (d : Nat) : LinkedTo t paths d :=
  fun w hw _ => h.linked w hw

theorem length_lt (h : Ready t paths patterns) {w : Bytes} (hw : w ∈ paths) :
    w.length < t.nodes.length := by
  have hlen := h.trie.length
  rw [edges, List.length_map] at hlen
  rw [hlen]
  exact h.trie.closed.length_lt hw

/-- `retreat` stops where the next byte leads to the longest suffix. -/
theorem retreat_spec (h : Ready t paths patterns) (c : UInt8) :
    ∀ {n p : Nat} {w : Bytes}, paths[p]? = some w → w.length < n →
      ∃ p' node, retreat t.nodes c n p = some p' ∧ t.nodes[p']? = some node ∧
        paths[(node.next[c]?).getD root]? = some (longest paths (w ++ [c]))
  | 0, _, _, _, hlt => absurd hlt (Nat.not_lt_zero _)
  | n + 1, p, w, hp, hlt => by
    obtain ⟨node, hnode, hedge, -, hfail⟩ := h.trie.node hp
    cases hc : node.next[c]? with
    | some q =>
      have hq := (h.trie.next hedge hp c q).mp hc
      refine ⟨p, node, ?_, hnode, ?_⟩
      · simp only [retreat, hnode, hc, Option.bind_eq_bind, Option.bind_some, reduceCtorEq,
          false_and, if_false]
      · rw [hc, longest_eq_self (List.mem_of_getElem? hq)]
        exact hq
    | none =>
      have hout := (h.trie.next_eq_none hedge hp c).mp hc
      have hlink := (h.linkedTo w.length).fail hp hfail (Nat.le_refl _)
      cases w with
      | nil =>
        obtain rfl := h.trie.path_unique hp h.trie.root
        refine ⟨0, node, ?_, hnode, ?_⟩
        · simp only [retreat, hnode, Option.bind_eq_bind, Option.bind_some, root, ne_eq,
            not_true, and_false, if_false]
        · rw [List.nil_append] at hout ⊢
          rw [hc, longest_cons_of_notMem hout, longest_nil]
          exact h.trie.root
      | cons a u =>
        obtain ⟨q, hq, hqp⟩ := hlink
        have hne : p ≠ root := fun he => by
          rw [he] at hp
          exact absurd (hp.symm.trans h.trie.root) (by simp)
        have hle := longest_length_le h.trie.closed.nil u
        rw [List.length_cons] at hlt
        obtain ⟨p', node', hr, hn', hp'⟩ := h.retreat_spec c (n := n) hqp (by omega)
        refine ⟨p', node', ?_, hn', ?_⟩
        · simp only [retreat, hnode, hc, hq, hr, Option.bind_eq_bind, Option.bind_some, hne,
            ne_eq, not_false_eq_true, and_self, if_true]
        · rw [longest_append_of_notMem h.trie.closed hout]
          exact hp'

/-- The pairs for the words that end a pattern. -/
def hits (patterns : List Bytes) (e : Nat) (ws : List Bytes) : List (Nat × Nat) :=
  ws.filterMap fun w => (markOf patterns w).map (·, e)

/-- `report` lists the marks of the whole chain. -/
theorem report_spec (h : Ready t paths patterns) (e : Nat) :
    ∀ {n p : Nat} {w : Bytes} (result : List (Nat × Nat)), paths[p]? = some w → w.length < n →
      report t.nodes e n (some p) result =
        some (result ++ hits patterns e (chain paths w))
  | 0, _, _, _, _, hlt => absurd hlt (Nat.not_lt_zero _)
  | n + 1, p, w, result, hp, hlt => by
    obtain ⟨node, hnode, -, hmark, hfail⟩ := h.trie.node hp
    have hm : (if node.end_ then some node.pIndex else none) = markOf patterns w :=
      Option.some.inj (hmark.symm.trans (h.marks p w hp))
    have hlink := (h.linkedTo w.length).fail hp hfail (Nat.le_refl _)
    have hin : w ∈ paths := List.mem_of_getElem? hp
    have hhead : (if node.end_ then result ++ [(node.pIndex, e)] else result) =
        result ++ hits patterns e [w] := by
      cases hend : node.end_ <;> simp [hend] at hm <;> simp [hits, ← hm]
    rw [report]
    simp only [hnode, Option.bind_eq_bind, Option.bind_some, hhead]
    cases w with
    | nil =>
      have hnull : node.fail = none := hlink
      rw [hnull, report, chain_nil hin]
    | cons a u =>
      obtain ⟨q, hq, hqp⟩ := hlink
      have hle := longest_length_le h.trie.closed.nil u
      rw [List.length_cons] at hlt
      rw [hq, h.report_spec e _ hqp (by omega), chain_longest h.trie.closed.nil, chain_cons,
        if_pos hin, List.append_assoc]
      simp [hits, List.filterMap_cons]
      cases markOf patterns (a :: u) <;> rfl

/-- The search from position `i`, after the text `done`. -/
theorem searchFrom_spec (h : Ready t paths patterns) :
    ∀ (str done : Bytes) {p : Nat} (result : List (Nat × Nat)),
      paths[p]? = some (longest paths done) →
      t.searchFrom done.length p str result =
        some (result ++ (List.range str.length).flatMap fun i =>
          hits patterns (done.length + i + 1) (chain paths (done ++ str.take (i + 1))))
  | [], done, p, result, _ => by simp [searchFrom]
  | c :: str, done, p, result, hp => by
    have hin : ∀ w, longest paths w ∈ paths := longest_mem h.trie.closed.nil
    obtain ⟨p', node, hr, hnode, hp'⟩ := h.retreat_spec c hp (h.length_lt (hin done))
    rw [longest_longest_append h.trie.closed] at hp'
    have hreport := h.report_spec (done.length + 1) result hp' (h.length_lt (hin _))
    rw [chain_longest h.trie.closed.nil] at hreport
    have hrest := h.searchFrom_spec str (done ++ [c])
      (result ++ hits patterns (done.length + 1) (chain paths (done ++ [c]))) hp'
    rw [List.length_append, List.length_singleton] at hrest
    simp only [searchFrom, hr, hnode, hreport, hrest, Option.bind_eq_bind, Option.bind_some]
    rw [List.length_cons, List.range_succ_eq_map, List.flatMap_cons, List.flatMap_map,
      List.append_assoc]
    have hshift : ∀ i, done.length + 1 + i + 1 = done.length + (i + 1) + 1 := fun i => by omega
    simp [hshift]

end Ready

theorem markOf_eq_some {patterns : List Bytes} {w : Bytes} {idx : Nat} :
    markOf patterns w = some idx ↔
      w ≠ [] ∧ patterns[idx]? = some w ∧ ∀ j, patterns[j]? = some w → j ≤ idx := by
  rw [markOf]
  by_cases h : w = []
  · simp [h]
  · rw [if_neg h, lastIndex_eq_some]
    simp [h]

theorem mem_hits {patterns : List Bytes} {e : Nat} {ws : List Bytes} {x : Nat × Nat} :
    x ∈ Ready.hits patterns e ws ↔ x.2 = e ∧ ∃ w ∈ ws, markOf patterns w = some x.1 := by
  obtain ⟨idx, e'⟩ := x
  simp only [Ready.hits, List.mem_filterMap, Option.map_eq_some_iff, Prod.mk.injEq]
  constructor
  · rintro ⟨w, hw, _, hm, rfl, rfl⟩
    exact ⟨rfl, w, hw, hm⟩
  · rintro ⟨rfl, w, hw, hm⟩
    exact ⟨w, hw, idx, hm, rfl, rfl⟩

/-- First by the end of the match, then the longer pattern first. -/
def Before (patterns : List Bytes) (a b : Nat × Nat) : Prop :=
  a.2 < b.2 ∨ (a.2 = b.2 ∧ (patterns.getD b.1 []).length < (patterns.getD a.1 []).length)

theorem hits_pairwise (patterns : List Bytes) (e : Nat) (S : List Bytes) (w : Bytes) :
    (Ready.hits patterns e (chain S w)).Pairwise (Before patterns) := by
  refine List.pairwise_filterMap.mpr ((chain_pairwise w).imp fun {u v} hlt a ha b hb => .inr ?_)
  obtain ⟨i, hi, rfl⟩ := Option.map_eq_some_iff.mp ha
  obtain ⟨j, hj, rfl⟩ := Option.map_eq_some_iff.mp hb
  rw [List.getD_eq_getElem?_getD, List.getD_eq_getElem?_getD, (markOf_eq_some.mp hi).2.1,
    (markOf_eq_some.mp hj).2.1]
  exact ⟨rfl, hlt⟩

/-- **The search is exact.** It ends, and it finds every place where a pattern
ends, once for each pattern string and under the largest index of the string. -/
theorem search_exact (patterns : List Bytes) (text : Bytes) :
    ∃ t result, new.initializeTrie patterns = some t ∧ t.search text = some result ∧
      (∀ idx e, (idx, e) ∈ result ↔ e ≤ text.length ∧ ∃ w, w ≠ [] ∧ w <:+ text.take e ∧
        patterns[idx]? = some w ∧ ∀ j, patterns[j]? = some w → j ≤ idx) ∧
      result.Pairwise (Before patterns) := by
  obtain ⟨t, paths, hinit, h⟩ := initializeTrie_ready patterns
  have hsearch := h.searchFrom_spec text [] (p := 0) [] (by rw [longest_nil]; exact h.trie.root)
  simp only [List.nil_append, List.length_nil, Nat.zero_add] at hsearch
  refine ⟨t, _, hinit, hsearch, fun idx e => ?_, ?_⟩
  · simp only [List.mem_flatMap, List.mem_range, mem_hits, mem_chain, markOf_eq_some]
    constructor
    · rintro ⟨i, hi, rfl, w, ⟨hsuf, -⟩, hne, hidx⟩
      exact ⟨hi, w, hne, hsuf, hidx⟩
    · rintro ⟨he, w, hne, hsuf, hidx⟩
      obtain ⟨i, rfl⟩ : ∃ i, e = i + 1 := by
        refine Nat.exists_eq_succ_of_ne_zero fun h0 => hne ?_
        rw [h0, List.take_zero] at hsuf
        exact List.suffix_nil.mp hsuf
      exact ⟨i, he, rfl, w, ⟨hsuf, h.patterns w (List.mem_of_getElem? hidx.1)⟩, hne, hidx⟩
  · refine List.pairwise_flatMap.mpr ⟨fun i _ => hits_pairwise patterns _ paths _, ?_⟩
    refine List.pairwise_lt_range.imp fun {i j} hij a ha b hb => .inl ?_
    rw [(mem_hits.mp ha).1, (mem_hits.mp hb).1]
    omega

end CommonTools.Index.AhoCorasick
