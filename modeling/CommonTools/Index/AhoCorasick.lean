import Std.Data.TreeMap.Lemmas
import CommonTools.Lib.CString

/-! # `AhoCorasick`

A trie of byte patterns with failure links. Nodes live in `nodes`, in the
order of their allocation, and a pointer to a node is its position. -/
namespace CommonTools.Index
open CommonTools.Lib

/-- `std::map` from a byte to the child it leads to. -/
abbrev NextMap := Std.TreeMap UInt8 Nat

/-- `end_` says whether a pattern ends here; `pIndex` is read only then. -/
structure TrieNode where
  fail : Option Nat
  next : NextMap
  end_ : Bool
  pIndex : Nat

/-- The constructor of `trieNode`. -/
def TrieNode.new : TrieNode := ⟨none, ∅, false, 0⟩

structure AhoCorasick where
  nodes : List TrieNode

namespace AhoCorasick

def root : Nat := 0

def new : AhoCorasick := ⟨[TrieNode.new]⟩

/-! ## Building the trie -/

/-- One round of the loop of `insert`: go to the child for `index`, which is
made when it is missing. -/
def child (t : AhoCorasick) (p : Nat) (index : UInt8) : Option (AhoCorasick × Nat) := do
  let node ← t.nodes[p]?
  match node.next[index]? with
  | some q => some (t, q)
  | none =>
    let q := t.nodes.length
    some (⟨t.nodes.set p { node with next := node.next.insert index q } ++ [TrieNode.new]⟩, q)

def descend (t : AhoCorasick) (p : Nat) : Bytes → Option (AhoCorasick × Nat)
  | [] => some (t, p)
  | index :: pattern => do
    let (t, p) ← t.child p index
    descend t p pattern

def insert (t : AhoCorasick) (pattern : Bytes) (patternIndex : Nat) : Option (Int × AhoCorasick) :=
  if pattern.length = 0 then some (-1, t)
  else do
    let (t, p) ← t.descend root pattern
    let node ← t.nodes[p]?
    some (0, ⟨t.nodes.set p { node with end_ := true, pIndex := patternIndex }⟩)

/-! ## The failure links -/

/-- `while (failp != NULL)`: the child for `index` of the first node that has
one; the inner `none` is the end of the chain. -/
def failTarget (nodes : List TrieNode) (index : UInt8) : Nat → Option Nat → Option (Option Nat)
  | _, none => some none
  | 0, some _ => none
  | n + 1, some failp => do
    let node ← nodes[failp]?
    match node.next[index]? with
    | some q => some (some q)
    | none => failTarget nodes index n node.fail

def setFail (t : AhoCorasick) (p fail : Nat) : Option AhoCorasick := do
  let node ← t.nodes[p]?
  some ⟨t.nodes.set p { node with fail := some fail }⟩

/-- One round of the loop over the children of `parent`. -/
def fixChild (parent : Nat) (t : AhoCorasick) (it : UInt8 × Nat) : Option AhoCorasick :=
  if parent = root then t.setFail it.2 root
  else do
    let node ← t.nodes[parent]?
    let failp ← failTarget t.nodes it.1 t.nodes.length node.fail
    t.setFail it.2 (failp.getD root)

/-- `while (nodeQueue.size() > 0)`. -/
def fixLoop : Nat → AhoCorasick → List Nat → Option AhoCorasick
  | _, t, [] => some t
  | 0, _, _ :: _ => none
  | n + 1, t, parent :: nodeQueue => do
    let node ← t.nodes[parent]?
    let t ← node.next.toList.foldlM (fixChild parent) t
    fixLoop n t (nodeQueue ++ node.next.toList.map Prod.snd)

def fixAhoCorasick (t : AhoCorasick) : Option AhoCorasick := fixLoop t.nodes.length t [root]

/-- The loop of `initialize`, from pattern `i` on. -/
def insertAll (t : AhoCorasick) (i : Nat) : List Bytes → Option AhoCorasick
  | [] => some t
  | pattern :: patterns => do
    let (_, t) ← t.insert pattern i
    insertAll t (i + 1) patterns

def initializeTrie (t : AhoCorasick) (patterns : List Bytes) : Option AhoCorasick := do
  (← t.insertAll 0 patterns).fixAhoCorasick

/-! ## Searching -/

/-- `while (p->next.find(index) == p->next.end() && p != root)`. -/
def retreat (nodes : List TrieNode) (index : UInt8) : Nat → Nat → Option Nat
  | 0, _ => none
  | n + 1, p => do
    let node ← nodes[p]?
    if node.next[index]? = none ∧ p ≠ root then retreat nodes index n (← node.fail)
    else some p

/-- `while (q)`: the patterns that end at position `e` of the text. -/
def report (nodes : List TrieNode) (e : Nat) :
    Nat → Option Nat → List (Nat × Nat) → Option (List (Nat × Nat))
  | _, none, result => some result
  | 0, some _, _ => none
  | n + 1, some q, result => do
    let node ← nodes[q]?
    report nodes e n node.fail (if node.end_ then result ++ [(node.pIndex, e)] else result)

/-- The loop over the text, from position `i` on. -/
def searchFrom (t : AhoCorasick) :
    Nat → Nat → Bytes → List (Nat × Nat) → Option (List (Nat × Nat))
  | _, _, [], result => some result
  | i, p, index :: str, result => do
    let p ← retreat t.nodes index t.nodes.length p
    let node ← t.nodes[p]?
    let p := (node.next[index]?).getD root
    let result ← report t.nodes (i + 1) t.nodes.length (some p) result
    searchFrom t (i + 1) p str result

/-- `search`: the index of a pattern with the position behind its last byte. -/
def search (t : AhoCorasick) (str : Bytes) : Option (List (Nat × Nat)) :=
  t.searchFrom 0 root str []

end AhoCorasick

end CommonTools.Index
