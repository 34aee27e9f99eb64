import CommonTools.Index.AhoCorasickComFail

/-! # The search of `com/`

A pattern is printed where the automaton steps to its node with a byte, and
where it comes to its node over a failure link. The second kind of line is too
late: the byte behind the pattern has been looked at already, or a longer word
ends at the same place. -/
namespace CommonTools.Index.Com
open CommonTools.Lib AhoCorasick

/-! ## What is to be printed -/

/-- A tree for distinct nonempty patterns, with its links. A pattern is what
`strlen` sees of it. -/
structure Searchable (t : Tree) (paths pattern : List Bytes) : Prop where
  trie : Trie (edges t) paths
  linked : ∀ w ∈ paths, FailAt t paths w
  marked : ∀ {p : Nat} {node : TreeNode} {w : Bytes}, t[p]? = some node → paths[p]? = some w →
    (node.patterTag = 1 ↔ w ∈ pattern.map cstr) ∧
      (node.patterTag = 1 → (pattern.map cstr)[node.patterNo]? = some w)
  words : ∀ w ∈ pattern.map cstr, w ∈ paths ∧ w ≠ []
  distinct : (pattern.map cstr).Nodup

/-- The line is for an occurrence of its pattern. -/
def Occurs (pattern : List Bytes) (str : Bytes) (l : Line) : Prop :=
  pattern[l.patterNo]? = some l.pattern ∧ cstr l.pattern <+: str.drop l.start

/-- Every occurrence is printed once, and nothing else. -/
def Exact (pattern : List Bytes) (str : Bytes) (out : List Line) : Prop :=
  out.Nodup ∧ ∀ l, l ∈ out ↔ Occurs pattern str l

/-- No path that occurs in the text has another pattern at its end. -/
def NoInner (paths pattern : List Bytes) (str : Bytes) : Prop :=
  ∀ v ∈ paths, v <:+: str → ∀ w ∈ pattern.map cstr, w <:+ v → w = v

/-! ## What is printed -/

/-- The line of the pattern `w`, which it prints with `i` as the position. -/
def LineOf (pattern : List Bytes) (w : Bytes) (i : Nat) (l : Line) : Prop :=
  pattern[l.patterNo]? = some l.pattern ∧ cstr l.pattern = w ∧ l.start + w.length = i + 1

/-- Printed on a step: the longest path that ends behind position `i`. -/
def StepLine (paths pattern : List Bytes) (str : Bytes) (i : Nat) (l : Line) : Prop :=
  LineOf pattern (longest paths (str.take (i + 1))) i l

/-- Printed at a link: a shorter path that ends in front of position `i`. -/
def LinkLine (paths pattern : List Bytes) (str : Bytes) (i : Nat) (l : Line) : Prop :=
  ∃ w ∈ chain paths (str.take i), w ≠ longest paths (str.take i) ∧ LineOf pattern w i l

section
variable {t : Tree} {paths pattern : List Bytes} {str : Bytes}

theorem start_eq {i len : Nat} (hi : i < 2 ^ 31) (hlen : len ≤ i + 1) :
    (BitVec.ofNat 64 i - BitVec.ofNat 64 len + 1).toNat + len = i + 1 := by
  bv_omega

theorem mem_words {no : Nat} {word : Bytes} (h : pattern[no]? = some word) :
    cstr word ∈ pattern.map cstr := List.mem_map.mpr ⟨word, List.mem_of_getElem? h, rfl⟩

/-- Distinct patterns have one line for a word and a position. -/
theorem LineOf.unique {w : Bytes} {i : Nat} {l l' : Line} (hnodup : (pattern.map cstr).Nodup)
    (h : LineOf pattern w i l) (h' : LineOf pattern w i l') : l = l' := by
  have hget : ∀ {l : Line}, LineOf pattern w i l → (pattern.map cstr)[l.patterNo]? = some w := by
    intro l h
    rw [List.getElem?_map, h.1, Option.map_some, h.2.1]
  obtain ⟨hlt, he⟩ := List.getElem?_eq_some_iff.mp (hget h)
  obtain ⟨hlt', he'⟩ := List.getElem?_eq_some_iff.mp (hget h')
  have hnum : l.patterNo = l'.patterNo := hnodup.getElem_inj_iff.mp (he.trans he'.symm)
  have hstart : l.start = l'.start := Nat.add_right_cancel (h.2.2.trans h'.2.2.symm)
  have hpattern : l.pattern = l'.pattern := by
    have hl := h.1
    rw [hnum, h'.1] at hl
    exact (Option.some.inj hl).symm
  obtain ⟨start, no, word⟩ := l
  obtain ⟨start', no', word'⟩ := l'
  rw [Line.mk.injEq]
  exact ⟨hstart, hnum, hpattern⟩

/-- At the node of a path its pattern is printed, when it is one. -/
theorem Searchable.lineAt (h : Searchable t paths pattern) {p i : Nat} {w : Bytes}
    (hp : paths[p]? = some w) (hi : i < 2 ^ 31) (hlen : w.length ≤ i + 1) :
    ∃ ls, lineAt t pattern p i = some ls ∧ ls.Nodup ∧ ∀ l, l ∈ ls ↔ LineOf pattern w i l := by
  obtain ⟨node, hnode, -⟩ := node_of_trie h.trie hp
  obtain ⟨htag, hno⟩ := h.marked hnode hp
  simp only [Com.lineAt, hnode, Option.bind_eq_bind, Option.bind_some]
  by_cases hone : node.patterTag = 1
  · have hword := hno hone
    obtain ⟨word, hpattern, hcstr⟩ := Option.map_eq_some_iff.mp (List.getElem?_map ▸ hword)
    rw [if_pos hone, hpattern, Option.bind_some, hcstr]
    have hline : LineOf pattern w i ⟨_, node.patterNo, word⟩ :=
      ⟨hpattern, hcstr, start_eq hi hlen⟩
    refine ⟨_, rfl, List.nodup_singleton _, fun l => ?_⟩
    rw [List.mem_singleton]
    constructor
    · rintro rfl
      exact hline
    · exact fun hl => hl.unique h.distinct hline
  · rw [if_neg hone]
    refine ⟨[], rfl, List.nodup_nil, fun l => ⟨fun hl => absurd hl List.not_mem_nil, ?_⟩⟩
    rintro ⟨hl, rfl, -⟩
    exact absurd (htag.mpr (mem_words hl)) hone

/-! ## What has been printed -/

/-- The lines printed when the text in front of position `i` has been read. -/
structure Printed (paths pattern : List Bytes) (str : Bytes) (i : Nat) (out : List Line) :
    Prop where
  sound : ∀ l ∈ out, (∃ e < i, StepLine paths pattern str e l) ∨
    ∃ e ≤ i, LinkLine paths pattern str e l
  complete : ∀ e < i, ∀ l, StepLine paths pattern str e l → l ∈ out
  nodup : (∀ e ≤ i, ∀ l, ¬ LinkLine paths pattern str e l) → out.Nodup

theorem printed_nil : Printed paths pattern str 0 [] :=
  ⟨by simp, by simp, by simp⟩

theorem StepLine.stop {e : Nat} {l : Line} (h : StepLine paths pattern str e l) :
    l.start + (cstr l.pattern).length = e + 1 := by
  rw [h.2.1]
  exact h.2.2

namespace Printed
variable {i : Nat} {out ls : List Line}

theorem step (h : Printed paths pattern str i out) (hnodup : ls.Nodup)
    (hls : ∀ l, l ∈ ls ↔ StepLine paths pattern str i l) :
    Printed paths pattern str (i + 1) (out ++ ls) where
  sound l hl := by
    rcases List.mem_append.mp hl with hl | hl
    · rcases h.sound l hl with ⟨e, he, hline⟩ | ⟨e, he, hline⟩
      · exact .inl ⟨e, Nat.lt_succ_of_lt he, hline⟩
      · exact .inr ⟨e, Nat.le_succ_of_le he, hline⟩
    · exact .inl ⟨i, Nat.lt_succ_self i, (hls l).mp hl⟩
  complete e he l hline := by
    rcases Nat.lt_succ_iff_lt_or_eq.mp he with he | rfl
    · exact List.mem_append_left _ (h.complete e he l hline)
    · exact List.mem_append_right _ ((hls l).mpr hline)
  nodup hno := by
    have hno' : ∀ e ≤ i, ∀ l, ¬ LinkLine paths pattern str e l := fun e he =>
      hno e (Nat.le_succ_of_le he)
    refine List.nodup_append.mpr ⟨h.nodup hno', hnodup, fun a ha b hb hab => ?_⟩
    -- the new line's occurrence ends behind all others
    subst hab
    have hnew := ((hls a).mp hb).stop
    rcases h.sound a ha with ⟨e, he, hline⟩ | ⟨e, he, hline⟩
    · have hold := hline.stop
      omega
    · exact hno' e he a hline

theorem skip (h : Printed paths pattern str i out)
    (hno : ∀ l, ¬ StepLine paths pattern str i l) : Printed paths pattern str (i + 1) out := by
  have hstep := h.step List.nodup_nil fun l => by simpa using hno l
  rwa [List.append_nil] at hstep

theorem link (h : Printed paths pattern str i out) {w : Bytes} (hw : w ∈ chain paths (str.take i))
    (hne : w ≠ longest paths (str.take i)) (hls : ∀ l, l ∈ ls ↔ LineOf pattern w i l) :
    Printed paths pattern str i (out ++ ls) where
  sound l hl := by
    rcases List.mem_append.mp hl with hl | hl
    · exact h.sound l hl
    · exact .inr ⟨i, Nat.le_refl i, w, hw, hne, (hls l).mp hl⟩
  complete e he l hline := List.mem_append_left _ (h.complete e he l hline)
  nodup hno := by
    have hnil : ls = [] := List.eq_nil_iff_forall_not_mem.mpr fun l hl =>
      hno i (Nat.le_refl i) l ⟨w, hw, hne, (hls l).mp hl⟩
    rw [hnil, List.append_nil]
    exact h.nodup hno

end Printed

/-! ## The loops -/

/-- The automaton is at a path that ends in front of position `i`. -/
structure At (paths : List Bytes) (str : Bytes) (i : Nat) (u : Bytes) : Prop where
  path : u ∈ paths
  suffix : u <:+ str.take i
  next : ∀ c, str[i]? = some c → longest paths (u ++ [c]) = longest paths (str.take (i + 1))

theorem at_longest (h : PrefixClosed paths) (i : Nat) :
    At paths str i (longest paths (str.take i)) where
  path := longest_mem h.nil _
  suffix := longest_suffix h.nil _
  next c hc := by
    rw [longest_longest_append h, List.take_add_one, hc]
    rfl

theorem At.link {i : Nat} {u : Bytes} (h : At paths str i u) (hc : PrefixClosed paths)
    (hu : u ≠ []) (hout : ∀ c, str[i]? = some c → u ++ [c] ∉ paths) :
    At paths str i (longest paths u.tail) ∧ longest paths u.tail ∈ chain paths (str.take i) ∧
      longest paths u.tail ≠ longest paths (str.take i) ∧
      (longest paths u.tail).length < u.length := by
  have hsuffix : longest paths u.tail <:+ str.take i :=
    (longest_suffix hc.nil _).trans ((List.tail_suffix u).trans h.suffix)
  have hlt : (longest paths u.tail).length < u.length := by
    have hle := longest_length_le hc.nil u.tail
    have hpos := List.length_pos_iff.mpr hu
    rw [List.length_tail] at hle
    omega
  refine ⟨⟨longest_mem hc.nil _, hsuffix, fun c hci => ?_⟩,
    mem_chain.mpr ⟨hsuffix, longest_mem hc.nil _⟩, fun he => ?_, hlt⟩
  · rw [← longest_append_of_notMem hc (hout c hci)]
    exact h.next c hci
  · have hle := (suffix_longest hc.nil h.path h.suffix).length_le
    rw [← he] at hle
    omega

theorem root_iff (h : Trie (edges t) paths) {p : Nat} {w : Bytes} (hp : paths[p]? = some w) :
    p = root ↔ w = [] := by
  constructor
  · rintro rfl
    exact Option.some.inj (hp.symm.trans h.root)
  · rintro rfl
    exact h.path_unique hp h.root

/-- The state of the first loop, at the node of `u`. -/
structure Reached (paths pattern : List Bytes) (str : Bytes) (p i : Nat) (u rest : Bytes)
    (out : List Line) : Prop where
  node : paths[p]? = some u
  place : At paths str i u
  rest : str.drop i = rest
  printed : Printed paths pattern str i out

/-- One round: a step with the byte, a byte that is skipped at the root, or a
link. -/
theorem Searchable.round (h : Searchable t paths pattern) (hlen : str.length < 2 ^ 31)
    {p i : Nat} {u rest : Bytes} {c : UInt8} {out : List Line}
    (hr : Reached paths pattern str p i u (c :: rest) out) :
    ∃ q j v rest' out', j ≤ str.length ∧ Reached paths pattern str q j v rest' out' ∧
      2 * rest'.length + v.length < 2 * (c :: rest).length + u.length ∧
      ∀ n, searchLoop t pattern (n + 1) p i (c :: rest) out =
        searchLoop t pattern n q j rest' out' := by
  have hclosed := h.trie.closed
  have hc : str[i]? = some c := by
    have hhead : (str.drop i)[0]? = some c := by
      rw [hr.rest]
      rfl
    rwa [List.getElem?_drop, Nat.add_zero] at hhead
  have hlt : i < str.length := (List.getElem?_eq_some_iff.mp hc).1
  have hi : i < 2 ^ 31 := Nat.lt_trans hlt hlen
  have hrest : str.drop (i + 1) = rest := by
    rw [← List.drop_drop, hr.rest]
    rfl
  have hule : u.length ≤ i :=
    hr.place.suffix.length_le.trans (List.length_take_le i str)
  obtain ⟨node, hnode, hedge⟩ := node_of_trie h.trie hr.node
  cases hnext : node.next[c]? with
  | some q =>
    have hq := (h.trie.next hedge hr.node c q).mp hnext
    have hlongest := hr.place.next c hc
    rw [longest_eq_self (List.mem_of_getElem? hq)] at hlongest
    obtain ⟨ls, hline, hnodup, hls⟩ := h.lineAt hq hi (by simpa using hule)
    rw [hlongest] at hq hls
    refine ⟨q, i + 1, _, rest, out ++ ls, hlt,
      ⟨hq, at_longest hclosed (i + 1), hrest, hr.printed.step hnodup hls⟩, ?_, fun n => ?_⟩
    · rw [← hlongest, List.length_append, List.length_singleton, List.length_cons]
      omega
    · simp only [Com.searchLoop, hnode, hnext, hline, Option.bind_eq_bind, Option.bind_some]
  | none =>
    have hout := (h.trie.next_eq_none hedge hr.node c).mp hnext
    by_cases hroot : p = root
    · -- at the root no path ends with the byte
      have hnil := (root_iff h.trie hr.node).mp hroot
      have hlongest := hr.place.next c hc
      rw [hnil, List.nil_append] at hlongest hout
      rw [longest_cons_of_notMem hout, longest_nil] at hlongest
      have hno : ∀ l, ¬ StepLine paths pattern str i l := by
        rintro l ⟨hl, hword, -⟩
        rw [← hlongest] at hword
        exact (h.words _ (mem_words hl)).2 hword
      have hat : At paths str (i + 1) _ := at_longest hclosed (i + 1)
      rw [← hlongest] at hat
      refine ⟨p, i + 1, [], rest, out, hlt, ⟨hnil ▸ hr.node, hat, hrest, hr.printed.skip hno⟩, ?_,
        fun n => ?_⟩
      · rw [List.length_nil, List.length_cons]
        omega
      · simp only [Com.searchLoop, hnode, hnext, if_pos hroot, Option.bind_eq_bind,
          Option.bind_some]
    · have hne : u ≠ [] := fun he => hroot ((root_iff h.trie hr.node).mpr he)
      obtain ⟨hat, hchain, hshort, hfall⟩ := hr.place.link hclosed hne fun d hd => by
        obtain rfl := Option.some.inj (hc.symm.trans hd)
        exact hout
      obtain ⟨node', f, hnode', hfail, hf⟩ := h.linked u hr.place.path p hr.node
      obtain rfl := Option.some.inj (hnode.symm.trans hnode')
      obtain ⟨ls, hline, -, hls⟩ := h.lineAt hf hi (by omega)
      refine ⟨f, i, _, c :: rest, out ++ ls, Nat.le_of_lt hlt,
        ⟨hf, hat, hr.rest, hr.printed.link hchain hshort hls⟩, ?_, fun n => ?_⟩
      · omega
      · simp only [Com.searchLoop, hnode, hnext, if_neg hroot, hfail, hline, Option.bind_eq_bind,
          Option.bind_some]

/-- The first loop ends with the whole text read. -/
theorem Searchable.run (h : Searchable t paths pattern) (hlen : str.length < 2 ^ 31) :
    ∀ {k p i : Nat} {u rest : Bytes} {out : List Line}, i ≤ str.length →
      Reached paths pattern str p i u rest out → 2 * rest.length + u.length ≤ k →
      ∃ q v out', Reached paths pattern str q str.length v [] out' ∧
        ∀ rounds, k ≤ rounds →
          searchLoop t pattern rounds p i rest out = some (q, str.length, out') := by
  have hend : ∀ {p i : Nat} {u : Bytes} {out : List Line}, i ≤ str.length →
      Reached paths pattern str p i u [] out → i = str.length := fun hi hr =>
    Nat.le_antisymm hi (List.drop_eq_nil_iff.mp hr.rest)
  intro k
  induction k with
  | zero =>
    intro p i u rest out hi hr hk
    obtain rfl : rest = [] := List.eq_nil_of_length_eq_zero (by omega)
    obtain rfl := hend hi hr
    exact ⟨p, u, out, hr, fun rounds _ => by rw [Com.searchLoop]⟩
  | succ k ih =>
    intro p i u rest out hi hr hk
    cases rest with
    | nil =>
      obtain rfl := hend hi hr
      exact ⟨p, u, out, hr, fun rounds _ => by rw [Com.searchLoop]⟩
    | cons c rest =>
      obtain ⟨q, j, v, rest', out', hj, hr', hlt, hround⟩ := h.round hlen hr
      obtain ⟨q', v', out'', hr'', hrun⟩ := ih hj hr' (by omega)
      refine ⟨q', v', out'', hr'', fun rounds hrounds => ?_⟩
      obtain ⟨n, rfl⟩ := Nat.exists_eq_add_of_le' (Nat.le_trans (Nat.succ_pos k) hrounds)
      rw [hround, hrun n (by omega)]

/-- The second loop goes along the links to the root. -/
theorem Searchable.runEnd (h : Searchable t paths pattern) (hlen : str.length < 2 ^ 31) :
    ∀ {k p : Nat} {u : Bytes} {out : List Line},
      Reached paths pattern str p str.length u [] out → u.length ≤ k →
      ∃ out', Printed paths pattern str str.length out' ∧
        ∀ rounds, k ≤ rounds → searchEnd t pattern rounds p str.length out = some out' := by
  have hend : ∀ {p : Nat} {out : List Line} (rounds : Nat), p = root →
      searchEnd t pattern rounds p str.length out = some out := fun rounds hp => by
    cases rounds with
    | zero => rw [searchEnd, if_pos hp]
    | succ n => rw [searchEnd, if_pos hp]
  intro k
  induction k with
  | zero =>
    intro p u out hr hk
    have hroot := (root_iff h.trie hr.node).mpr (List.eq_nil_of_length_eq_zero (by omega))
    exact ⟨out, hr.printed, fun rounds _ => hend rounds hroot⟩
  | succ k ih =>
    intro p u out hr hk
    by_cases hroot : p = root
    · exact ⟨out, hr.printed, fun rounds _ => hend rounds hroot⟩
    · have hne : u ≠ [] := fun he => hroot ((root_iff h.trie hr.node).mpr he)
      obtain ⟨hat, hchain, hshort, hlt⟩ := hr.place.link h.trie.closed hne fun c hc => by simp at hc
      have hule : u.length ≤ str.length :=
        hr.place.suffix.length_le.trans (List.length_take_le _ str)
      obtain ⟨node, f, hnode, hfail, hf⟩ := h.linked u hr.place.path p hr.node
      obtain ⟨ls, hline, -, hls⟩ := h.lineAt hf hlen (by omega)
      obtain ⟨out', hout', hrun⟩ := ih
        ⟨hf, hat, hr.rest, hr.printed.link hchain hshort hls⟩ (by omega)
      refine ⟨out', hout', fun rounds hrounds => ?_⟩
      obtain ⟨n, rfl⟩ := Nat.exists_eq_add_of_le' (Nat.le_trans (Nat.succ_pos k) hrounds)
      rw [searchEnd, if_neg hroot]
      simp only [hnode, hfail, hline, hrun n (by omega), Option.bind_eq_bind, Option.bind_some]

/-- The search ends, on a text of `n` bytes after at most `2 * n` rounds. -/
theorem Searchable.searchAC (h : Searchable t paths pattern) (hlen : str.length < 2 ^ 31) :
    ∃ out, Printed paths pattern str str.length out ∧ ∀ rounds, 2 * str.length ≤ rounds →
      searchAC rounds t pattern str = some out := by
  have hat : At paths str 0 [] := by
    have hat : At paths str 0 _ := at_longest h.trie.closed 0
    rwa [List.take_zero, longest_nil] at hat
  obtain ⟨q, v, out, hr, hrun⟩ := h.run hlen (k := 2 * str.length) (Nat.zero_le _)
    ⟨h.trie.root, hat, rfl, printed_nil⟩ (by simp)
  have hv := hr.place.suffix.length_le
  rw [List.take_length] at hv
  obtain ⟨out', hout', hrunEnd⟩ := h.runEnd hlen hr (k := 2 * str.length) (by omega)
  refine ⟨out', hout', fun rounds hrounds => ?_⟩
  have hloop : searchLoop t pattern rounds root 0 str [] = some (q, str.length, out) :=
    hrun rounds hrounds
  simp only [Com.searchAC, hloop, hrunEnd rounds hrounds, Option.bind_eq_bind, Option.bind_some]

/-! ## When this is every occurrence -/

/-- An occurrence by its start and by its end. -/
theorem prefix_drop_iff {w : Bytes} {start stop : Nat} (h : start + w.length = stop)
    (hstop : stop ≤ str.length) : w <+: str.drop start ↔ w <:+ str.take stop := by
  rw [← h, List.take_add, List.prefix_iff_eq_take]
  have hlen : (List.take w.length (str.drop start)).length = w.length := by
    rw [List.length_take, List.length_drop]
    omega
  constructor
  · intro he
    rw [← he]
    exact List.suffix_append _ _
  · intro hw
    exact (List.suffix_of_suffix_length_le hw (List.suffix_append _ _) (by rw [hlen])).eq_of_length
      hlen.symm

theorem Searchable.occurs (h : Searchable t paths pattern) {l : Line}
    (hl : Occurs pattern str l) :
    ∃ e < str.length, l.start + (cstr l.pattern).length = e + 1 ∧
      cstr l.pattern ∈ chain paths (str.take (e + 1)) := by
  obtain ⟨hpattern, hprefix⟩ := hl
  obtain ⟨hpath, hne⟩ := h.words _ (mem_words hpattern)
  have hpos := List.length_pos_iff.mpr hne
  have hle := hprefix.length_le
  rw [List.length_drop] at hle
  have hstop : l.start + (cstr l.pattern).length - 1 + 1 = l.start + (cstr l.pattern).length := by
    omega
  refine ⟨l.start + (cstr l.pattern).length - 1, by omega, hstop.symm, ?_⟩
  rw [hstop]
  exact mem_chain.mpr ⟨(prefix_drop_iff rfl (by omega)).mp hprefix, hpath⟩

/-- The occurrence of a pattern that ends behind position `e`. -/
theorem occurs_of_chain {w : Bytes} {e : Nat} (hw : w ∈ pattern.map cstr) (he : e < str.length)
    (hchain : w ∈ chain paths (str.take (e + 1))) :
    ∃ l, LineOf pattern w e l ∧ Occurs pattern str l := by
  obtain ⟨word, hin, rfl⟩ := List.mem_map.mp hw
  obtain ⟨no, hno⟩ := List.mem_iff_getElem?.mp hin
  have hsuffix := (mem_chain.mp hchain).1
  have hle := hsuffix.length_le.trans (List.length_take_le _ _)
  have hstart : e + 1 - (cstr word).length + (cstr word).length = e + 1 := Nat.sub_add_cancel hle
  exact ⟨⟨e + 1 - (cstr word).length, no, word⟩, ⟨hno, rfl, hstart⟩, hno,
    (prefix_drop_iff hstart he).mpr hsuffix⟩

/-- No pattern ends inside the longest path that ends there. -/
theorem noInner_iff (h : Searchable t paths pattern) :
    NoInner paths pattern str ↔ ∀ e ≤ str.length, ∀ w ∈ pattern.map cstr,
      w ∈ chain paths (str.take e) → w = longest paths (str.take e) := by
  have hnil := h.trie.closed.nil
  constructor
  · intro hno e _ w hw hchain
    obtain ⟨hsuffix, hpath⟩ := mem_chain.mp hchain
    refine hno _ (longest_mem hnil _) ?_ w hw (suffix_longest hnil hpath hsuffix)
    exact (longest_suffix hnil _).isInfix.trans (List.take_prefix e str).isInfix
  · rintro hall v hv ⟨s, r, rfl⟩ w hw hwv
    have hsuffix : v <:+ List.take (s ++ v).length (s ++ v ++ r) := by
      rw [List.take_left]
      exact List.suffix_append s v
    have hpath := (h.words w hw).1
    have he := hall (s ++ v).length (by simp) w hw (mem_chain.mpr ⟨hwv.trans hsuffix, hpath⟩)
    have hle := (suffix_longest hnil hv hsuffix).length_le
    rw [← he] at hle
    exact hwv.eq_of_length (Nat.le_antisymm hwv.length_le hle)

theorem Printed.exact_iff (h : Searchable t paths pattern) {out : List Line}
    (hout : Printed paths pattern str str.length out) :
    Exact pattern str out ↔ NoInner paths pattern str := by
  rw [noInner_iff h]
  constructor
  · rintro ⟨-, hexact⟩ e
    -- the first place where a pattern is hidden is printed neither on a step nor at a link
    induction e with
    | zero =>
      intro _ w hw hchain
      rw [List.take_zero] at hchain ⊢
      rw [longest_nil]
      exact List.suffix_nil.mp (mem_chain.mp hchain).1
    | succ e ih =>
      intro he w hw hchain
      obtain ⟨l, hline, hoccurs⟩ := occurs_of_chain hw he hchain
      obtain ⟨-, hword, hstop⟩ := hline
      rcases hout.sound l ((hexact l).mpr hoccurs) with
        ⟨e', -, hstep⟩ | ⟨e', -, w', hw', hne, hlink⟩
      · have hsame := hstep.stop
        rw [hword] at hsame
        obtain rfl : e' = e := by omega
        exact hword.symm.trans hstep.2.1
      · obtain rfl : w = w' := hword.symm.trans hlink.2.1
        have hsame := hlink.2.2
        obtain rfl : e' = e := by omega
        exact absurd (ih (Nat.le_of_succ_le he) w hw hw') hne
  · intro hall
    have hno : ∀ e ≤ str.length, ∀ l, ¬ LinkLine paths pattern str e l := by
      rintro e he l ⟨w, hw, hne, hl, hword, -⟩
      exact hne (hall e he w (hword ▸ mem_words hl) hw)
    refine ⟨hout.nodup hno, fun l => ⟨fun hl => ?_, fun hl => ?_⟩⟩
    · rcases hout.sound l hl with ⟨e, he, hstep⟩ | ⟨e, he, hlink⟩
      · refine ⟨hstep.1, (prefix_drop_iff hstep.stop he).mpr ?_⟩
        rw [hstep.2.1]
        exact longest_suffix h.trie.closed.nil _
      · exact absurd hlink (hno e he l)
    · obtain ⟨e, he, hstop, hchain⟩ := h.occurs hl
      have hlongest := hall (e + 1) he _ (mem_words hl.1) hchain
      exact hout.complete e he l ⟨hl.1, hlongest, hlongest ▸ hstop⟩

/-- The linked tree for the patterns `ab` and `b`. -/
def abTree : Tree :=
  [⟨((∅ : NextMap).insert 97 1).insert 98 3, none, some 0, 0, 0, 0⟩,
    ⟨(∅ : NextMap).insert 98 2, some 0, some 0, 97, 0, 0⟩, ⟨∅, some 1, some 3, 98, 1, 0⟩,
    ⟨∅, some 0, some 0, 98, 1, 1⟩]

def abPaths : List Bytes := [[], [97], [97, 98], [98]]

theorem abPaths_index {p : Nat} {w : Bytes} (h : abPaths[p]? = some w) :
    p = 0 ∨ p = 1 ∨ p = 2 ∨ p = 3 := by
  have hlt : p < 4 := (List.getElem?_eq_some_iff.mp h).1
  omega

theorem abTree_searchable : Searchable abTree abPaths [[97, 98], [98]] where
  trie := by
    have hone := holds_new.trie.grow (p := 0) (w := []) (c := 97) rfl rfl (by simp)
    have htwo := hone.grow (p := 1) (w := [97]) (c := 98) rfl rfl (by simp)
    exact htwo.grow (p := 0) (w := []) (c := 98) rfl rfl (by simp)
  linked w _ p hp := by
    rcases abPaths_index hp with rfl | rfl | rfl | rfl <;> obtain rfl := Option.some.inj hp
    · exact ⟨_, 0, rfl, rfl, by simp [abPaths, longest, chain]⟩
    · exact ⟨_, 0, rfl, rfl, by simp [abPaths, longest, chain]⟩
    · exact ⟨_, 3, rfl, rfl, by simp [abPaths, longest, chain]⟩
    · exact ⟨_, 0, rfl, rfl, by simp [abPaths, longest, chain]⟩
  marked := by
    intro p node w hnode hp
    rcases abPaths_index hp with rfl | rfl | rfl | rfl <;>
      (obtain rfl := Option.some.inj hp; obtain rfl := Option.some.inj hnode; simp [cstr])
  words := by simp [cstr, abPaths]
  distinct := by simp [cstr]

/-- **The search is exact when no pattern ends inside a path.** It ends on every
text, after at most two rounds for each byte, and what it prints is every
occurrence once, and nothing else, exactly when no path of the trie that occurs
in the text has another pattern at its end. -/
theorem searchAC_exact_iff (h : Searchable t paths pattern) (hlen : str.length < 2 ^ 31) :
    ∃ out, (∀ rounds, 2 * str.length ≤ rounds → searchAC rounds t pattern str = some out) ∧
      (Exact pattern str out ↔ NoInner paths pattern str) := by
  obtain ⟨out, hout, hrun⟩ := h.searchAC hlen
  exact ⟨out, hrun, hout.exact_iff h⟩

end

/-- In `ba` no path hides a pattern. -/
theorem searchAC_ba : ∃ out, (∀ rounds, 4 ≤ rounds →
    searchAC rounds abTree [[97, 98], [98]] [98, 97] = some out) ∧
    Exact [[97, 98], [98]] [98, 97] out := by
  have hlen : ([98, 97] : Bytes).length < 2 ^ 31 := by simp
  obtain ⟨out, hrun, hexact⟩ := searchAC_exact_iff abTree_searchable hlen
  have hall : ∀ v ∈ ([[], [97], [98]] : List Bytes), ∀ w ∈ ([[97, 98], [98]] : List Bytes),
      w <:+ v → w = v := by decide
  refine ⟨out, hrun, hexact.mpr fun v hv hin w hw => ?_⟩
  have hne : v ≠ [97, 98] := by
    rintro rfl
    exact absurd hin (by decide)
  exact hall v (by simpa [abPaths, hne] using hv) w (by simpa [cstr] using hw)

/-- In `ab` the path `ab` hides `b`, which is printed at 2, behind the text,
instead of 1. -/
theorem searchAC_ab : Searchable abTree abPaths [[97, 98], [98]] ∧
    (∀ rounds, 4 ≤ rounds → searchAC rounds abTree [[97, 98], [98]] [97, 98] =
      some [⟨0, 0, [97, 98]⟩, ⟨2, 1, [98]⟩]) ∧
    ¬ Exact [[97, 98], [98]] [97, 98] [⟨0, 0, [97, 98]⟩, ⟨2, 1, [98]⟩] := by
  refine ⟨abTree_searchable, fun rounds hrounds => ?_, fun hexact => ?_⟩
  · obtain ⟨n, rfl⟩ := Nat.exists_eq_add_of_le' hrounds
    rfl
  · have hout : (⟨1, 1, [98]⟩ : Line) ∈ [⟨0, 0, [97, 98]⟩, ⟨2, 1, [98]⟩] :=
      (hexact.2 _).mpr ⟨rfl, by simp [cstr]⟩
    simp at hout

end CommonTools.Index.Com
