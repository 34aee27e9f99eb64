import CommonTools.Index.AhoCorasickSound

/-! # The automaton of `com/`

`com/Aho-Corasick.cpp` has a trie of its own. A node knows its parent and the
byte that leads to it, and the root's failure link is the root. -/
namespace CommonTools.Index.Com
open CommonTools.Lib AhoCorasick

/-- `patterNo` is read only where `patterTag` is 1. -/
structure TreeNode where
  next : NextMap
  par : Option Nat
  fail : Option Nat
  inputchar : UInt8
  patterTag : Int
  patterNo : Nat

/-- The nodes in the order of their allocation, the root first. A pointer to a
node is its position. -/
abbrev Tree := List TreeNode

/-! ## The failure links -/

/-- `nodeToQueue`: the children of a node go to the end of the queue. -/
def nodeToQueue (node : TreeNode) (myqueue : List Nat) : List Nat :=
  myqueue ++ node.next.toList.map Prod.snd

def setFail (t : Tree) (p fail : Nat) : Option Tree := do
  let node ← t[p]?
  some (t.set p { node with fail := some fail })

/-- One round of the loop over the children of the root, with the queue. -/
def startChild (s : Tree × List Nat) (iter : UInt8 × Nat) : Option (Tree × List Nat) := do
  let t ← setFail s.1 iter.2 root
  let node ← t[iter.2]?
  some (t, nodeToQueue node s.2)

/-- `while(failp != NULL)`, for a number of rounds: the child for `inputchar`
of the first node that has one. The inner `none` is the null pointer. -/
def failWalk (t : Tree) (inputchar : UInt8) : Nat → Option Nat → Option (Option Nat)
  | _, none => some none
  | 0, some _ => none
  | n + 1, some failp => do
    let node ← t[failp]?
    match node.next[inputchar]? with
    | some q => some (some q)
    | none => failWalk t inputchar n node.fail

/-- One round of `while(!myqueue.empty())`. -/
def failStep (rounds : Nat) (t : Tree) (tmp : Nat) (myqueue : List Nat) :
    Option (Tree × List Nat) := do
  let node ← t[tmp]?
  let par ← t[← node.par]?
  let failp ← failWalk t node.inputchar rounds par.fail
  let t ← setFail t tmp (failp.getD root)
  some (t, nodeToQueue node myqueue)

def failLoop (rounds : Nat) : Nat → Tree → List Nat → Option Tree
  | _, t, [] => some t
  | 0, _, _ :: _ => none
  | n + 1, t, tmp :: myqueue => do
    let (t, myqueue) ← failStep rounds t tmp myqueue
    failLoop rounds n t myqueue

/-- `buildingFailPath`, when none of its `while` loops takes more than `rounds`
rounds; it ends when some number is enough. -/
def buildingFailPath (rounds : Nat) (t : Tree) : Option Tree := do
  let t ← setFail t root root
  let node ← t[root]?
  let (t, myqueue) ← node.next.toList.foldlM startChild (t, [])
  failLoop rounds rounds t myqueue

/-! ## Searching -/

/-- A line that `searchAC` prints. -/
structure Line where
  start : Nat
  patterNo : Nat
  pattern : Bytes
deriving DecidableEq

/-- What is printed at the node `tmp`, when a pattern ends there. The start is
`i-strlen(..)+1`, which is computed as a `size_t`. -/
def lineAt (t : Tree) (pattern : List Bytes) (tmp i : Nat) : Option (List Line) := do
  let node ← t[tmp]?
  if node.patterTag = 1 then do
    let word ← pattern[node.patterNo]?
    let start := BitVec.ofNat 64 i - BitVec.ofNat 64 (cstr word).length + 1
    some [⟨start.toNat, node.patterNo, word⟩]
  else some []

/-- `while(i < len)`; `str` is what follows position `i`. -/
def searchLoop (t : Tree) (pattern : List Bytes) :
    Nat → Nat → Nat → Bytes → List Line → Option (Nat × Nat × List Line)
  | _, tmp, i, [], out => some (tmp, i, out)
  | 0, _, _, _ :: _, _ => none
  | n + 1, tmp, i, pos :: str, out => do
    let node ← t[tmp]?
    match node.next[pos]? with
    | some q => searchLoop t pattern n q (i + 1) str (out ++ (← lineAt t pattern q i))
    | none =>
      if tmp = root then searchLoop t pattern n tmp (i + 1) str out
      else do
        let tmp ← node.fail
        searchLoop t pattern n tmp i (pos :: str) (out ++ (← lineAt t pattern tmp i))

/-- `while(tmp!=root)`. -/
def searchEnd (t : Tree) (pattern : List Bytes) :
    Nat → Nat → Nat → List Line → Option (List Line)
  | 0, tmp, _, out => if tmp = root then some out else none
  | n + 1, tmp, i, out =>
    if tmp = root then some out
    else do
      let node ← t[tmp]?
      let tmp ← node.fail
      searchEnd t pattern n tmp i (out ++ (← lineAt t pattern tmp i))

/-- `searchAC` with what it prints, when none of its loops takes more than
`rounds` rounds. -/
def searchAC (rounds : Nat) (t : Tree) (pattern : List Bytes) (str : Bytes) :
    Option (List Line) := do
  let (tmp, i, out) ← searchLoop t pattern rounds root 0 str []
  searchEnd t pattern rounds tmp i out

/-! ## The parts of a tree -/

def edges (t : Tree) : List NextMap := t.map TreeNode.next

/-- A tree without its failure links. -/
def bare (t : Tree) : Tree := t.map fun node => { node with fail := none }

/-- `paths` gives the word of every node; child maps, parents and input
characters agree with it. -/
structure WellFormed (t : Tree) (paths : List Bytes) : Prop where
  trie : Trie (edges t) paths
  par : ∀ {p : Nat} {node : TreeNode} {w : Bytes} {c : UInt8}, t[p]? = some node →
    paths[p]? = some (w ++ [c]) →
    node.inputchar = c ∧ ∃ q, node.par = some q ∧ paths[q]? = some w

theorem node_of_trie {t : Tree} {paths : List Bytes} (h : Trie (edges t) paths) {p : Nat}
    {w : Bytes} (hp : paths[p]? = some w) :
    ∃ node, t[p]? = some node ∧ (edges t)[p]? = some node.next := by
  have hlt : p < t.length := by
    have hlen := h.length
    rw [edges, List.length_map] at hlen
    rw [hlen]
    exact (List.getElem?_eq_some_iff.mp hp).1
  exact ⟨t[p], List.getElem?_eq_getElem hlt, by simp [edges, List.getElem?_eq_getElem hlt]⟩

end CommonTools.Index.Com
