import CommonTools.Index.AhoCorasickSound
import CommonTools.Lib.PathTree

/-! # The failure links of `AhoCorasick`

A word names the node to which its bytes lead from the root. After
`fixAhoCorasick` every other node is linked to the one for the longest proper
suffix of its word, in a trie that any calls of `insert` have built. -/
namespace CommonTools.Index.AhoCorasick
open CommonTools.Lib

def childAt (t : AhoCorasick) (p : Nat) (index : UInt8) : Option Nat := do
  let node ← t.nodes[p]?
  node.next[index]?

/-- The node to which the bytes of a word lead from the root. -/
def nodeOf (t : AhoCorasick) (word : Bytes) : Option Nat := follow t.childAt root word

/-- The trie has a node for the word. -/
def IsPath (t : AhoCorasick) (word : Bytes) : Prop := ∃ p, t.nodeOf word = some p

/-- The node at which `n` links from `p` arrive. -/
def behindLinks (t : AhoCorasick) : Nat → Nat → Option Nat
  | 0, p => some p
  | n + 1, p => do
    let node ← t.nodes[p]?
    behindLinks t n (← node.fail)

/-- A call that builds the automaton. -/
inductive Call
  | insert (pattern : Bytes) (patternIndex : Nat)
  | fixAhoCorasick

def Call.pattern? : Call → Option Bytes
  | .insert pattern _ => some pattern
  | .fixAhoCorasick => none

def call (t : AhoCorasick) : Call → Option AhoCorasick
  | .insert pattern patternIndex => (t.insert pattern patternIndex).map Prod.snd
  | .fixAhoCorasick => t.fixAhoCorasick

/-! ## Words and nodes -/

theorem Trie.pathTree {t : AhoCorasick} {paths : List Bytes} (h : Trie t.edges paths) :
    PathTree AhoCorasick.root t.childAt fun p => paths[p]? where
  root_iff p := by
    constructor
    · exact fun hp => h.path_unique hp h.root
    · rintro rfl
      exact h.root
  next_iff {p u} hp c q := by
    obtain ⟨node, hnode, hedge, -⟩ := h.node hp
    simp only [childAt, hnode, Option.bind_eq_bind, Option.bind_some]
    exact h.next hedge hp c q
  closed {q u c} hq := List.mem_iff_getElem?.mp (h.closed.init u c (List.mem_of_getElem? hq))

theorem Trie.nodeOf {t : AhoCorasick} {paths : List Bytes} (h : Trie t.edges paths)
    {word : Bytes} {q : Nat} : t.nodeOf word = some q ↔ paths[q]? = some word :=
  h.pathTree.follow_iff

theorem Trie.isPath {t : AhoCorasick} {paths : List Bytes} (h : Trie t.edges paths)
    {word : Bytes} : t.IsPath word ↔ word ∈ paths := by
  rw [List.mem_iff_getElem?]
  exact exists_congr fun p => h.nodeOf

/-! ## Tries that are built by calls -/

/-- A trie whose root has no link. -/
structure Rooted (t : AhoCorasick) (paths : List Bytes) : Prop where
  trie : Trie t.edges paths
  root : t.fails[0]? = some none

theorem Rooted.child {t : AhoCorasick} {paths : List Bytes} (h : Rooted t paths) {p : Nat}
    {w : Bytes} (hp : paths[p]? = some w) (c : UInt8) :
    ∃ t' q paths', t.child p c = some (t', q) ∧ Rooted t' paths' ∧
      paths'[q]? = some (w ++ [c]) ∧ ∀ u, u ∈ paths' ↔ u ∈ paths ∨ u = w ++ [c] := by
  rcases h.trie.child hp c with ⟨q, hchild, hq⟩ | ⟨t', -, hchild, htrie, -, hfails⟩
  · refine ⟨t, q, paths, hchild, h, hq, fun u => ⟨.inl, ?_⟩⟩
    rintro (hu | rfl)
    · exact hu
    · exact List.mem_of_getElem? hq
  · refine ⟨t', paths.length, paths ++ [w ++ [c]], hchild, ⟨htrie, ?_⟩, by simp,
      fun u => by simp⟩
    rw [hfails]
    exact getElem?_concat_eq_some.mpr (.inl h.root)

theorem Rooted.descend (rest : Bytes) : ∀ {t : AhoCorasick} {paths : List Bytes} {p : Nat}
    {w : Bytes}, Rooted t paths → paths[p]? = some w →
    ∃ t' q paths', t.descend p rest = some (t', q) ∧ Rooted t' paths' ∧
      paths'[q]? = some (w ++ rest) ∧
      ∀ u, u ∈ paths' ↔ u ∈ paths ∨ ∃ v, v <+: rest ∧ u = w ++ v := by
  induction rest with
  | nil =>
    intro t paths p w h hp
    refine ⟨t, p, paths, rfl, h, by rwa [List.append_nil], fun u => ⟨.inl, ?_⟩⟩
    rintro (hu | ⟨v, hv, rfl⟩)
    · exact hu
    · rw [List.prefix_nil.mp hv, List.append_nil]
      exact List.mem_of_getElem? hp
  | cons c rest ih =>
    intro t paths p w h hp
    obtain ⟨t₁, q₁, paths₁, hchild, h₁, hq₁, hwords₁⟩ := h.child hp c
    obtain ⟨t', q, paths', hrest, h', hq, hwords⟩ := ih h₁ hq₁
    refine ⟨t', q, paths', ?_, h', by simpa using hq, fun u => ?_⟩
    · simp only [AhoCorasick.descend, hchild, hrest, Option.bind_eq_bind, Option.bind_some]
    · rw [hwords, hwords₁, or_assoc]
      refine or_congr_right' fun hu => ⟨?_, ?_⟩
      · rintro (rfl | ⟨v, hv, rfl⟩)
        · exact ⟨[c], by simp, rfl⟩
        · exact ⟨c :: v, List.cons_prefix_cons.mpr ⟨rfl, hv⟩, by simp⟩
      · rintro ⟨v, hv, rfl⟩
        rcases List.prefix_cons_iff.mp hv with rfl | ⟨v', rfl, hv'⟩
        · rw [List.append_nil] at hu
          exact absurd (List.mem_of_getElem? hp) hu
        · exact .inr ⟨v', hv', by simp⟩

/-- The trie has the prefixes of the patterns. -/
structure Grown (t : AhoCorasick) (paths patterns : List Bytes) : Prop extends Rooted t paths where
  words : ∀ w, w ∈ paths ↔ w = [] ∨ ∃ pattern ∈ patterns, w <+: pattern

theorem grown_new : Grown new [[]] [] :=
  ⟨⟨holds_new.trie, rfl⟩, fun w => by simp⟩

theorem Grown.insert {t : AhoCorasick} {paths patterns : List Bytes} (h : Grown t paths patterns)
    (pattern : Bytes) (patternIndex : Nat) :
    ∃ ret t' paths', t.insert pattern patternIndex = some (ret, t') ∧
      Grown t' paths' (patterns ++ [pattern]) := by
  by_cases hnil : pattern = []
  · subst hnil
    refine ⟨-1, t, paths, rfl, h.toRooted, fun w => ?_⟩
    rw [h.words]
    by_cases hw : w = [] <;> simp [hw, or_and_right, exists_or]
  · obtain ⟨t₁, q, paths', hdescend, h₁, hq, hwords⟩ := h.toRooted.descend pattern h.trie.root
    obtain ⟨t', hinsert, hedges, hfails, -⟩ :=
      insert_of_descend hnil hdescend h₁.trie hq patternIndex
    refine ⟨0, t', paths', hinsert, ⟨hedges ▸ h₁.trie, hfails ▸ h₁.root⟩, fun w => ?_⟩
    rw [hwords, h.words]
    simp only [List.nil_append, exists_eq_right', List.mem_append, List.mem_singleton,
      or_and_right, exists_or, exists_eq_left, or_assoc]

theorem Grown.fixAhoCorasick {t : AhoCorasick} {paths patterns : List Bytes}
    (h : Grown t paths patterns) :
    ∃ t', t.fixAhoCorasick = some t' ∧ Grown t' paths patterns ∧
      ∀ w ∈ paths, LinkedAt t' paths w := by
  obtain ⟨t', hfix, hedges, -, hlinked⟩ := fixAhoCorasick_spec h.trie h.root
  obtain ⟨l, hl, hnull⟩ := hlinked [] h.trie.closed.nil 0 h.trie.root
  obtain rfl : l = none := hnull
  exact ⟨t', hfix, ⟨⟨hedges ▸ h.trie, hl⟩, h.words⟩, hlinked⟩

/-- Any calls succeed, and what they insert is in the trie. -/
theorem Grown.calls (calls : List Call) : ∀ {t : AhoCorasick} {paths patterns : List Bytes},
    Grown t paths patterns → ∃ t' paths', calls.foldlM call t = some t' ∧
      Grown t' paths' (patterns ++ calls.filterMap Call.pattern?) := by
  induction calls with
  | nil =>
    intro t paths patterns h
    exact ⟨t, paths, rfl, by simpa using h⟩
  | cons c calls ih =>
    intro t paths patterns h
    cases c with
    | insert pattern patternIndex =>
      obtain ⟨ret, t₁, paths₁, hinsert, h₁⟩ := h.insert pattern patternIndex
      obtain ⟨t', paths', hcalls, h'⟩ := ih h₁
      refine ⟨t', paths', ?_, by simpa [Call.pattern?] using h'⟩
      simp [List.foldlM_cons, call, hinsert, hcalls]
    | fixAhoCorasick =>
      obtain ⟨t₁, hfix, h₁, -⟩ := h.fixAhoCorasick
      obtain ⟨t', paths', hcalls, h'⟩ := ih h₁
      refine ⟨t', paths', ?_, h'⟩
      simp [List.foldlM_cons, call, hfix, hcalls]

/-! ## The links -/

/-- What the links of an automaton are for. -/
structure Linked (t : AhoCorasick) : Prop where
  root : t.fails[root]? = some none
  suffix : ∀ w p, t.nodeOf w = some p → w ≠ [] → ∃ u q,
    t.fails[p]? = some (some q) ∧ t.nodeOf u = some q ∧ LongestProper t.IsPath w u

theorem Linked.chain {t : AhoCorasick} (h : Linked t) : ∀ {n : Nat} {w : Bytes} {p : Nat},
    w.length ≤ n → t.nodeOf w = some p →
    ∃ m, m ≤ w.length ∧ t.behindLinks m p = some AhoCorasick.root := by
  intro n
  induction n with
  | zero =>
    intro w p hn hp
    rw [List.eq_nil_of_length_eq_zero (Nat.le_zero.mp hn)] at hp
    exact ⟨0, Nat.zero_le _, hp.symm⟩
  | succ n ih =>
    intro w p hn hp
    by_cases hw : w = []
    · rw [hw] at hp
      exact ⟨0, Nat.zero_le _, hp.symm⟩
    · obtain ⟨u, q, hfail, hq, hu⟩ := h.suffix w p hp hw
      obtain ⟨m, hm, hfollow⟩ := ih (Nat.le_of_lt_succ (Nat.lt_of_lt_of_le hu.shorter hn)) hq
      obtain ⟨node, hnode, hlink⟩ := Option.map_eq_some_iff.mp (List.getElem?_map ▸ hfail)
      refine ⟨m + 1, Nat.lt_of_le_of_lt hm hu.shorter, ?_⟩
      simp only [behindLinks, hnode, hlink, hfollow, Option.bind_eq_bind, Option.bind_some]

theorem Rooted.linked {t : AhoCorasick} {paths : List Bytes} (h : Rooted t paths)
    (hlinked : ∀ w ∈ paths, LinkedAt t paths w) : Linked t := by
  refine ⟨h.root, fun w p hp hw => ?_⟩
  have hpath : paths[p]? = some w := h.trie.nodeOf.mp hp
  obtain ⟨l, hl, hlink⟩ := hlinked w (List.mem_of_getElem? hpath) p hpath
  cases w with
  | nil => exact absurd rfl hw
  | cons a w =>
    obtain ⟨q, rfl, hq⟩ := hlink
    refine ⟨longest paths w, q, hl, h.trie.nodeOf.mpr hq, ?_⟩
    have hsame : t.IsPath = (· ∈ paths) := funext fun u => propext h.trie.isPath
    rw [hsame]
    exact longestProper_cons h.trie.closed.nil a w

/-- **The links lead to the longest proper suffixes.** The calls that build an
automaton succeed and their trie has the prefixes of the patterns, a node for
each. `fixAhoCorasick` then ends with the same trie; a node other than the root
is linked to the node for the longest proper suffix of its word, and so, after
at most as many links as its word has bytes, to the root, which has no link. -/
theorem fixAhoCorasick_links (calls : List Call) :
    ∃ t t', calls.foldlM call new = some t ∧ t.fixAhoCorasick = some t' ∧
      (∀ w, t'.nodeOf w = t.nodeOf w) ∧
      (∀ w, t'.IsPath w ↔ w = [] ∨ ∃ pattern ∈ calls.filterMap Call.pattern?, w <+: pattern) ∧
      (∀ p < t'.nodes.length, ∃! w, t'.nodeOf w = some p) ∧
      t'.Linked ∧
      ∀ w p, t'.nodeOf w = some p → ∃ n ≤ w.length, t'.behindLinks n p = some root := by
  obtain ⟨t, paths, hcalls, h⟩ := grown_new.calls calls
  obtain ⟨t', hfix, h', hlinked⟩ := h.fixAhoCorasick
  have hl := h'.toRooted.linked hlinked
  refine ⟨t, t', hcalls, hfix, fun w => ?_, fun w => ?_, fun p hp => ?_, hl, fun w p hp => ?_⟩
  · exact Option.ext fun p => h'.trie.nodeOf.trans h.trie.nodeOf.symm
  · rw [h'.trie.isPath, h'.words, List.nil_append]
  · have hlt : p < paths.length := by rwa [← h'.trie.length, edges, List.length_map]
    refine ⟨paths[p], h'.trie.nodeOf.mpr (List.getElem?_eq_getElem hlt), fun w hw => ?_⟩
    exact (List.getElem_eq_iff hlt).mpr (h'.trie.nodeOf.mp hw) |>.symm
  · exact hl.chain (Nat.le_refl _) hp

end CommonTools.Index.AhoCorasick
