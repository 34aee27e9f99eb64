import CommonTools.Lib.Chain
import CommonTools.Lib.CString
import CommonTools.Lib.Scanf

/-! # Configuration

The tree of `config_map`. A node points to its first child and to its right
neighbour; sections and values stand in the same chain of children, newest
first. Addresses are numbers, and `new` gives the next one; no node is freed
before the map is. Arguments of type `const char *` are the bytes they show. -/
namespace CommonTools.Http
open CommonTools.Lib

abbrev Addr := Nat

inductive NodeType where
  | SECTION
  | VALUE
deriving DecidableEq

structure Node where
  type : NodeType
  key : Bytes
  value : Bytes
  left : Option Addr
  right : Option Addr

/-- `root` is the node 0. -/
structure ConfigMap where
  heap : Addr → Node
  next : Addr
  cur : Addr
  iter : Option Addr

/-- `config_map()`; the key of the root is `ROOT`. -/
def ConfigMap.init : ConfigMap :=
  { heap := fun _ => ⟨.SECTION, [82, 79, 79, 84], [], none, none⟩
    next := 1
    cur := 0
    iter := none }

def strip (str : Bytes) : Bytes :=
  ((str.dropWhile Scanf.isspace).reverse.dropWhile Scanf.isspace).reverse

/-- What `set_section` takes from between the slashes of `key`. -/
def components (key : Bytes) : List Bytes :=
  (((key.map fun c => if c = 92 then 47 else c).splitOn 47).map strip).filter (· ≠ [])

namespace ConfigMap

/-- The loop that goes right from `cur->left` to a node of one type with one key. -/
def search (c : ConfigMap) (type : NodeType) (key : Bytes) : Option Addr :=
  walk (fun a => (c.heap a).right) (fun a => (c.heap a).type == type && (c.heap a).key == key)
    c.next (c.heap c.cur).left

/-- `new config_map_node` in front of the children of `cur`. -/
def insertFront (c : ConfigMap) (type : NodeType) (key value : Bytes) : ConfigMap :=
  { c with
    heap := Function.update
      (Function.update c.heap c.next ⟨type, key, value, none, (c.heap c.cur).left⟩)
      c.cur { c.heap c.cur with left := some c.next }
    next := c.next + 1 }

def enterSection (c : ConfigMap) (sub : Bytes) : ConfigMap :=
  match c.search .SECTION sub with
  | some pos => { c with cur := pos, iter := (c.heap pos).left }
  | none =>
    let c' := c.insertFront .SECTION sub []
    { c' with cur := c.next, iter := (c'.heap c.next).left }

def setSection (c : ConfigMap) (key : Bytes) : ConfigMap :=
  (components key).foldl enterSection { c with cur := 0 }

def setValue (c : ConfigMap) (key value : Bytes) : ConfigMap :=
  match c.search .VALUE key with
  | some pos => { c with heap := Function.update c.heap pos { c.heap pos with value := value } }
  | none => c.insertFront .VALUE key value

/-- `none` is the return value -1. -/
def getValue (c : ConfigMap) (key : Bytes) : Option Bytes :=
  (c.search .VALUE key).map fun pos => (c.heap pos).value

/-- `enum_value`: the next key with its value, and the map after the call. -/
def enumValue (c : ConfigMap) : Option (Bytes × Bytes) × ConfigMap :=
  match walk (fun a => (c.heap a).right) (fun a => (c.heap a).type == .VALUE) c.next c.iter with
  | none => (none, { c with iter := none })
  | some a => (some ((c.heap a).key, (c.heap a).value), { c with iter := (c.heap a).right })

end ConfigMap

/-- The calls that change the map. -/
inductive ConfigCall where
  | setSection (key : Bytes)
  | setValue (key value : Bytes)
  | enumValue

def ConfigMap.step (c : ConfigMap) : ConfigCall → ConfigMap
  | .setSection key => c.setSection key
  | .setValue key value => c.setValue key value
  | .enumValue => c.enumValue.2

def ConfigMap.run (calls : List ConfigCall) : ConfigMap := calls.foldl step init

end CommonTools.Http
