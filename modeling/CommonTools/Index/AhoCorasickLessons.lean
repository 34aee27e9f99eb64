import CommonTools.Index.AhoCorasickSound

/-! # The other `AhoCorasick`

`lessons/` holds an automaton that is built by the same code. Its search skips
a byte that has no child at the root, and goes on without a report where the
failure links end without a child. -/
namespace CommonTools.Index.Lessons
open CommonTools.Lib AhoCorasick

/-- `initialize` of `lessons/`. -/
def initializeTrie (patterns : List Bytes) : Option AhoCorasick :=
  AhoCorasick.new.initializeTrie patterns

/-- The loop over the text, from position `i` on. -/
def searchFrom (t : AhoCorasick) :
    Nat → Nat → Bytes → List (Nat × Nat) → Option (List (Nat × Nat))
  | _, _, [], result => some result
  | i, p, index :: str, result => do
    let node ← t.nodes[p]?
    if p = root ∧ node.next[index]? = none then searchFrom t (i + 1) p str result
    else
      -- a null `p` ends in the condition of the loop, before it is compared with `NULL`
      let p ← retreat t.nodes index t.nodes.length p
      let node ← t.nodes[p]?
      match node.next[index]? with
      | none => searchFrom t (i + 1) root str result
      | some q =>
        let result ← report t.nodes (i + 1) t.nodes.length (some q) result
        searchFrom t (i + 1) q str result

/-- `search` of `lessons/`. -/
def search (t : AhoCorasick) (str : Bytes) : Option (List (Nat × Nat)) :=
  searchFrom t 0 root str []

section
variable {t : AhoCorasick} {paths patterns : List Bytes}

/-- At the root there is nothing to report. -/
theorem report_root (h : Ready t paths patterns) (e : Nat) (result : List (Nat × Nat)) :
    report t.nodes e t.nodes.length (some root) result = some result := by
  have hin : ([] : Bytes) ∈ paths := List.mem_of_getElem? h.trie.root
  have hmark : markOf patterns [] = none := by rw [markOf, if_pos rfl]
  have hroot : paths[root]? = some [] := h.trie.root
  rw [h.report_spec e result hroot (h.length_lt hin), chain_nil hin]
  simp [Ready.hits, hmark]

/-- The two loops go through the same nodes and report the same. -/
theorem searchFrom_eq (h : Ready t paths patterns) :
    ∀ (str : Bytes) (i : Nat) {p : Nat} {w : Bytes} (result : List (Nat × Nat)),
      paths[p]? = some w → searchFrom t i p str result = t.searchFrom i p str result := by
  intro str
  induction str with
  | nil =>
    intro _ _ _ _ _
    rfl
  | cons c str ih =>
    intro i p w result hp
    obtain ⟨p', node', hretreat, hnode', hp'⟩ :=
      h.retreat_spec c hp (h.length_lt (List.mem_of_getElem? hp))
    obtain ⟨node, hnode, -⟩ := h.trie.node hp
    rw [searchFrom, AhoCorasick.searchFrom]
    simp only [hnode, hretreat, hnode', Option.bind_eq_bind, Option.bind_some]
    by_cases hskip : p = root ∧ node.next[c]? = none
    · -- the other loop stays at the root and reports nothing
      obtain ⟨rfl, hnone⟩ := hskip
      have hstay : p' = root := by
        have hpos := h.length_lt (List.mem_of_getElem? hp)
        obtain ⟨n, hn⟩ := Nat.exists_eq_succ_of_ne_zero (Nat.ne_of_gt (Nat.zero_lt_of_lt hpos))
        rw [hn, retreat, hnode] at hretreat
        simpa [eq_comm] using hretreat
      subst hstay
      obtain rfl := Option.some.inj (hnode.symm.trans hnode')
      rw [if_pos ⟨rfl, hnone⟩, hnone, Option.getD_none, report_root h]
      exact ih (i + 1) result hp
    · rw [if_neg hskip]
      cases hchild : node'.next[c]? with
      | none =>
        rw [Option.getD_none, report_root h]
        exact ih (i + 1) result h.trie.root
      | some q =>
        rw [hchild, Option.getD_some] at hp'
        rw [Option.getD_some]
        dsimp only
        cases report t.nodes (i + 1) t.nodes.length (some q) result with
        | none => rfl
        | some result => exact ih (i + 1) result hp'

end

/-- **The two automata agree.** On the same patterns both searches end with the
same results in the same order. -/
theorem search_agrees (patterns : List Bytes) (text : Bytes) :
    ∃ t t' result, AhoCorasick.new.initializeTrie patterns = some t ∧
      initializeTrie patterns = some t' ∧ t.search text = some result ∧
      search t' text = some result := by
  obtain ⟨t, paths, hinit, h⟩ := initializeTrie_ready patterns
  have hsearch := h.searchFrom_spec text [] (p := 0) [] (by rw [longest_nil]; exact h.trie.root)
  refine ⟨t, t, _, hinit, hinit, hsearch, ?_⟩
  have hroot : paths[root]? = some [] := h.trie.root
  exact (searchFrom_eq h text 0 [] hroot).trans hsearch

end CommonTools.Index.Lessons
