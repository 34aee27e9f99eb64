import CommonTools.Http.ConfigMap
import Mathlib.Data.List.Nodup

/-! # Sections and values

What the tree is for: a map from paths of sections to maps from keys to values,
and a current path. The tree stands for it when every node is chained under its
section, no section has two children of one type and key, and the path of a
section is read off the keys above it. -/
namespace CommonTools.Http
open CommonTools.Lib

/-! ## The map -/

structure Sections where
  map : List Bytes → Bytes → Option Bytes
  cur : List Bytes

namespace Sections

def empty : Sections := ⟨fun _ _ => none, []⟩

def setValue (a : Sections) (key value : Bytes) : Sections :=
  { a with map := Function.update a.map a.cur (Function.update (a.map a.cur) key (some value)) }

def step (a : Sections) : ConfigCall → Sections
  | .setSection key => { a with cur := components key }
  | .setValue key value => a.setValue key value
  | .enumValue => a

def run (calls : List ConfigCall) : Sections := calls.foldl step empty

theorem setValue_map (a : Sections) (key value : Bytes) (p : List Bytes) (k : Bytes) :
    (a.setValue key value).map p k = if p = a.cur ∧ k = key then some value else a.map p k := by
  show Function.update a.map a.cur (Function.update (a.map a.cur) key (some value)) p k = _
  by_cases hp : p = a.cur
  · by_cases hk : k = key
    · rw [if_pos ⟨hp, hk⟩, hp, hk, Function.update_self, Function.update_self]
    · rw [if_neg (fun h => hk h.2), hp, Function.update_self, Function.update_of_ne hk]
  · rw [if_neg (fun h => hp h.1), Function.update_of_ne hp]

end Sections

/-! ## The tree -/

/-- The children of `p` among the first nodes, newest first. -/
def children (parent : Addr → Addr) (p : Addr) : Nat → List Addr
  | 0 => []
  | n + 1 => if n ≠ 0 ∧ parent n = p then n :: children parent p n else children parent p n

section
variable {parent : Addr → Addr} {p n : Addr}

theorem mem_children : ∀ {size : Nat}, n ∈ children parent p size ↔ n < size ∧ n ≠ 0 ∧ parent n = p
  | 0 => by simp [children]
  | size + 1 => by
    have ih := @mem_children size
    rw [children]
    split
    · rename_i h
      rw [List.mem_cons, ih]
      constructor
      · rintro (rfl | ⟨hlt, hn⟩)
        · exact ⟨Nat.lt_succ_self n, h⟩
        · exact ⟨Nat.lt_succ_of_lt hlt, hn⟩
      · intro ⟨hlt, hn⟩
        rcases Nat.lt_succ_iff_lt_or_eq.mp hlt with hlt | rfl
        · exact .inr ⟨hlt, hn⟩
        · exact .inl rfl
    · rename_i h
      rw [ih]
      constructor
      · intro ⟨hlt, hn⟩
        exact ⟨Nat.lt_succ_of_lt hlt, hn⟩
      · intro ⟨hlt, hn⟩
        rcases Nat.lt_succ_iff_lt_or_eq.mp hlt with hlt | rfl
        · exact ⟨hlt, hn⟩
        · exact absurd hn h

theorem length_children_le : ∀ size : Nat, (children parent p size).length ≤ size
  | 0 => Nat.le_refl 0
  | size + 1 => by
    have ih := length_children_le size
    rw [children]
    split
    · exact Nat.succ_le_succ ih
    · exact Nat.le_succ_of_le ih

/-- A node that is new does not change what was there. -/
theorem children_update (fresh q : Addr) : ∀ {size : Nat}, size ≤ fresh →
    children (Function.update parent fresh q) p size = children parent p size := by
  intro size
  induction size with
  | zero =>
    intro _
    rfl
  | succ size ih =>
    intro h
    rw [children, children, ih (Nat.le_of_succ_le h),
      Function.update_of_ne (Nat.ne_of_lt h)]

end

/-- The node `size` is new and the first child of `cur`. -/
structure Grown (heap heap' : Addr → Node) (size cur : Addr) (node : Node) : Prop where
  fresh : heap' size = node
  front : heap' cur = { heap cur with left := some size }
  old : ∀ n < size, n ≠ cur → heap' n = heap n

/-- Of an old node only the first child of `cur` changes. -/
theorem Grown.keeps {heap heap' : Addr → Node} {size cur n : Addr} {node : Node}
    (h : Grown heap heap' size cur node) (hn : n < size) :
    (heap' n).type = (heap n).type ∧ (heap' n).key = (heap n).key ∧
      (heap' n).value = (heap n).value ∧ (heap' n).right = (heap n).right := by
  by_cases hc : n = cur
  · rw [hc, h.front]
    exact ⟨rfl, rfl, rfl, rfl⟩
  · rw [h.old n hn hc]
    exact ⟨rfl, rfl, rfl, rfl⟩

/-- Every node has its parent among the older ones and stands in the chain of
its children; the keys on the way from the root are its path. -/
structure Tree (heap : Addr → Node) (size : Nat) (parent : Addr → Addr)
    (path : Addr → List Bytes) : Prop where
  root : 0 < size
  root_type : (heap 0).type = .SECTION
  root_path : path 0 = []
  older : ∀ n < size, n ≠ 0 → parent n < n
  inner : ∀ n < size, n ≠ 0 → (heap (parent n)).type = .SECTION
  chain : ∀ p < size, Chain (fun a => (heap a).right) (heap p).left (children parent p size)
  distinct : ∀ n < size, ∀ m < size, n ≠ 0 → m ≠ 0 → parent n = parent m →
    (heap n).type = (heap m).type → (heap n).key = (heap m).key → n = m
  path_eq : ∀ n < size, n ≠ 0 → path n = path (parent n) ++ [(heap n).key]

namespace Tree
variable {heap : Addr → Node} {size : Nat} {parent : Addr → Addr} {path : Addr → List Bytes}

/-- Sections with one path are one section. -/
theorem path_inj (h : Tree heap size parent path) : ∀ {n m : Addr}, n < size → m < size →
    (heap n).type = .SECTION → (heap m).type = .SECTION → path n = path m → n = m := by
  intro n
  induction n using Nat.strongRecOn with
  | ind n ih =>
    intro m hn hm hnt hmt hpath
    by_cases hn0 : n = 0
    · by_cases hm0 : m = 0
      · rw [hn0, hm0]
      · rw [hn0, h.root_path, h.path_eq m hm hm0] at hpath
        simp at hpath
    · by_cases hm0 : m = 0
      · rw [hm0, h.root_path, h.path_eq n hn hn0] at hpath
        simp at hpath
      · rw [h.path_eq n hn hn0, h.path_eq m hm hm0] at hpath
        obtain ⟨hparents, hkey⟩ := List.append_inj' hpath rfl
        have hpn := h.older n hn hn0
        have hpm := h.older m hm hm0
        have hparent := ih (parent n) hpn (Nat.lt_trans hpn hn) (Nat.lt_trans hpm hm)
          (h.inner n hn hn0) (h.inner m hm hm0) hparents
        exact h.distinct n hn m hm hn0 hm0 hparent (hnt.trans hmt.symm)
          (List.singleton_inj.mp hkey)

/-- The fields that make the tree are those of the pointers, types and keys. -/
theorem congr {heap' : Addr → Node} (h : Tree heap size parent path)
    (htype : ∀ n, (heap' n).type = (heap n).type) (hkey : ∀ n, (heap' n).key = (heap n).key)
    (hleft : ∀ n, (heap' n).left = (heap n).left) (hright : ∀ n, (heap' n).right = (heap n).right) :
    Tree heap' size parent path where
  root := h.root
  root_type := (htype 0).trans h.root_type
  root_path := h.root_path
  older := h.older
  inner n hn hn0 := (htype _).trans (h.inner n hn hn0)
  chain p hp := by
    rw [hleft]
    exact (h.chain p hp).congr fun a _ => hright a
  distinct n hn m hm hn0 hm0 := by
    rw [htype, htype, hkey, hkey]
    exact h.distinct n hn m hm hn0 hm0
  path_eq n hn hn0 := by
    rw [hkey]
    exact h.path_eq n hn hn0

variable {cur : Addr} {type : NodeType} {key value : Bytes}

theorem insert {heap' : Addr → Node} (h : Tree heap size parent path) (hcur : cur < size)
    (htype : (heap cur).type = .SECTION)
    (hfresh : ∀ n < size, n ≠ 0 → parent n = cur → (heap n).type = type → (heap n).key ≠ key)
    (hgrown : Grown heap heap' size cur ⟨type, key, value, none, (heap cur).left⟩) :
    Tree heap' (size + 1) (Function.update parent size cur)
      (Function.update path size (path cur ++ [key])) := by
  have hne : size ≠ cur := Nat.ne_of_gt hcur
  have hnew := hgrown.fresh
  have hpar : ∀ n < size, Function.update parent size cur n = parent n := fun n hn =>
    Function.update_of_ne (Nat.ne_of_lt hn) _ _
  have hpath : ∀ n < size, Function.update path size (path cur ++ [key]) n = path n := fun n hn =>
    Function.update_of_ne (Nat.ne_of_lt hn) _ _
  have hchain : ∀ p < size, Chain (fun a => (heap' a).right) (heap p).left
      (children parent p size) := fun p hp =>
    (h.chain p hp).congr fun a ha => (hgrown.keeps (mem_children.mp ha).1).2.2.2
  have hroot := h.root
  constructor
  case root => exact Nat.succ_pos size
  case root_type => rw [(hgrown.keeps hroot).1, h.root_type]
  case root_path => rw [hpath 0 hroot, h.root_path]
  case older =>
    intro n hn hn0
    rcases Nat.lt_succ_iff_lt_or_eq.mp hn with hn | rfl
    · rw [hpar n hn]
      exact h.older n hn hn0
    · rw [Function.update_self]
      exact hcur
  case inner =>
    intro n hn hn0
    rcases Nat.lt_succ_iff_lt_or_eq.mp hn with hn | rfl
    · rw [hpar n hn, (hgrown.keeps (Nat.lt_trans (h.older n hn hn0) hn)).1]
      exact h.inner n hn hn0
    · rw [Function.update_self, (hgrown.keeps hcur).1, htype]
  case chain =>
    intro p hp
    rw [children, children_update size cur (Nat.le_refl size), Function.update_self]
    rcases Nat.lt_succ_iff_lt_or_eq.mp hp with hp | rfl
    · by_cases hc : p = cur
      · rw [if_pos ⟨by omega, hc.symm⟩, hc, hgrown.front]
        refine ⟨rfl, ?_⟩
        show Chain _ (heap' size).right _
        rw [hnew]
        exact hchain cur hcur
      · rw [if_neg (fun hp => hc hp.2.symm), hgrown.old p hp hc]
        exact hchain p hp
    · have hnone : children parent p p = [] := by
        refine List.eq_nil_iff_forall_not_mem.mpr fun n hn => ?_
        obtain ⟨hlt, hn0, hn⟩ := mem_children.mp hn
        have hparent := h.older n hlt hn0
        rw [hn] at hparent
        exact Nat.lt_asymm hlt hparent
      rw [if_neg (fun hp => hne hp.2.symm), hnone, hnew]
      rfl
  case distinct =>
    intro n hn m hm hn0 hm0
    rcases Nat.lt_succ_iff_lt_or_eq.mp hn with hn | rfl
    · obtain ⟨hnt, hnk, -⟩ := hgrown.keeps hn
      rw [hpar n hn, hnt, hnk]
      rcases Nat.lt_succ_iff_lt_or_eq.mp hm with hm | rfl
      · obtain ⟨hmt, hmk, -⟩ := hgrown.keeps hm
        rw [hpar m hm, hmt, hmk]
        exact h.distinct n hn m hm hn0 hm0
      · rw [Function.update_self, hnew]
        exact fun hp ht hk => absurd hk (hfresh n hn hn0 hp ht)
    · rcases Nat.lt_succ_iff_lt_or_eq.mp hm with hm | rfl
      · obtain ⟨hmt, hmk, -⟩ := hgrown.keeps hm
        rw [hpar m hm, hmt, hmk, Function.update_self, hnew]
        exact fun hp ht hk => absurd hk.symm (hfresh m hm hm0 hp.symm ht.symm)
      · exact fun _ _ _ => rfl
  case path_eq =>
    intro n hn hn0
    rcases Nat.lt_succ_iff_lt_or_eq.mp hn with hn | rfl
    · rw [hpath n hn, hpar n hn, (hgrown.keeps hn).2.1,
        hpath _ (Nat.lt_trans (h.older n hn hn0) hn)]
      exact h.path_eq n hn hn0
    · rw [Function.update_self, Function.update_self, hnew, hpath cur hcur]

end Tree

/-! ## What the tree stands for -/

/-- The values of the tree are those of the map, and the enumeration goes along
nodes of the tree. -/
structure Holds (c : ConfigMap) (a : Sections) (parent : Addr → Addr)
    (path : Addr → List Bytes) : Prop where
  tree : Tree c.heap c.next parent path
  cur_lt : c.cur < c.next
  cur_type : (c.heap c.cur).type = .SECTION
  cur_path : path c.cur = a.cur
  map_iff : ∀ p key value, a.map p key = some value ↔ ∃ n < c.next, n ≠ 0 ∧
    (c.heap n).type = .VALUE ∧ path (parent n) = p ∧ (c.heap n).key = key ∧ (c.heap n).value = value
  iter : ∃ l, Chain (fun n => (c.heap n).right) c.iter l ∧ (∀ n ∈ l, n < c.next) ∧ l.length ≤ c.next

def Stands (c : ConfigMap) (a : Sections) : Prop := ∃ parent path, Holds c a parent path

section
variable (c : ConfigMap) {type : NodeType} {key value : Bytes}

theorem ConfigMap.insertFront_grown (hcur : c.cur < c.next) :
    Grown c.heap (c.insertFront type key value).heap c.next c.cur
      ⟨type, key, value, none, (c.heap c.cur).left⟩ where
  fresh := (Function.update_of_ne (Nat.ne_of_gt hcur) _ _).trans (Function.update_self ..)
  front := Function.update_self ..
  old _ hn hc := (Function.update_of_ne hc _ _).trans (Function.update_of_ne (Nat.ne_of_lt hn) _ _)

end

namespace Holds
variable {c : ConfigMap} {a : Sections} {parent : Addr → Addr} {path : Addr → List Bytes}
  {type : NodeType} {key value : Bytes} {n : Addr}

theorem search_eq (h : Holds c a parent path) :
    c.search type key = (children parent c.cur c.next).find?
      fun n => (c.heap n).type == type && (c.heap n).key == key :=
  walk_eq_find? (h.tree.chain c.cur h.cur_lt) (length_children_le c.next)

theorem search_some (h : Holds c a parent path) (hs : c.search type key = some n) :
    n < c.next ∧ n ≠ 0 ∧ parent n = c.cur ∧ (c.heap n).type = type ∧ (c.heap n).key = key := by
  rw [h.search_eq] at hs
  obtain ⟨hlt, hn0, hp⟩ := mem_children.mp (List.mem_of_find?_eq_some hs)
  have hmatch := List.find?_some hs
  rw [Bool.and_eq_true, beq_iff_eq, beq_iff_eq] at hmatch
  exact ⟨hlt, hn0, hp, hmatch⟩

theorem search_none (h : Holds c a parent path) (hs : c.search type key = none) :
    ∀ n < c.next, n ≠ 0 → parent n = c.cur → (c.heap n).type = type → (c.heap n).key ≠ key := by
  intro n hlt hn0 hp ht hk
  rw [h.search_eq, List.find?_eq_none] at hs
  refine hs n (mem_children.mpr ⟨hlt, hn0, hp⟩) ?_
  rw [Bool.and_eq_true, beq_iff_eq, beq_iff_eq]
  exact ⟨ht, hk⟩

/-- The values of the current section are its children. -/
theorem map_cur_iff (h : Holds c a parent path) : a.map a.cur key = some value ↔
    ∃ n ∈ children parent c.cur c.next, (c.heap n).type = .VALUE ∧ (c.heap n).key = key ∧
      (c.heap n).value = value := by
  rw [h.map_iff]
  constructor
  · rintro ⟨n, hlt, hn0, ht, hp, hkv⟩
    have hpn := Nat.lt_trans (h.tree.older n hlt hn0) hlt
    have hparent := h.tree.path_inj hpn h.cur_lt (h.tree.inner n hlt hn0) h.cur_type
      (hp.trans h.cur_path.symm)
    exact ⟨n, mem_children.mpr ⟨hlt, hn0, hparent⟩, ht, hkv⟩
  · rintro ⟨n, hn, ht, hkv⟩
    obtain ⟨hlt, hn0, hp⟩ := mem_children.mp hn
    exact ⟨n, hlt, hn0, ht, by rw [hp, h.cur_path], hkv⟩

theorem getValue_eq (h : Holds c a parent path) (key : Bytes) :
    c.getValue key = a.map a.cur key := by
  rw [ConfigMap.getValue]
  cases hs : c.search .VALUE key with
  | some n =>
    obtain ⟨hlt, hn0, hp, ht, hk⟩ := h.search_some hs
    exact (h.map_cur_iff.mpr ⟨n, mem_children.mpr ⟨hlt, hn0, hp⟩, ht, hk, rfl⟩).symm
  | none =>
    cases hm : a.map a.cur key with
    | none => rfl
    | some value =>
      obtain ⟨n, hn, ht, hk, -⟩ := h.map_cur_iff.mp hm
      obtain ⟨hlt, hn0, hp⟩ := mem_children.mp hn
      exact absurd hk (h.search_none hs n hlt hn0 hp ht)

/-! ### Calls -/

/-- A new child; a section adds nothing to the map, a value its key. -/
theorem insertFront (h : Holds c a parent path) (hs : c.search type key = none) {a' : Sections}
    (hcur : a'.cur = a.cur)
    (hmap : ∀ p k v, a'.map p k = some v ↔
      a.map p k = some v ∨ (type = .VALUE ∧ a.cur = p ∧ key = k ∧ value = v)) :
    Holds (c.insertFront type key value) a' (Function.update parent c.next c.cur)
      (Function.update path c.next (path c.cur ++ [key])) := by
  have hgrown := @ConfigMap.insertFront_grown c type key value h.cur_lt
  have htree := h.tree.insert h.cur_lt h.cur_type (h.search_none hs) hgrown
  have hnew := hgrown.fresh
  have hpath : ∀ n < c.next, Function.update path c.next (path c.cur ++ [key]) n = path n :=
    fun n hn => Function.update_of_ne (Nat.ne_of_lt hn) _ _
  constructor
  case tree => exact htree
  case cur_lt => exact Nat.lt_succ_of_lt h.cur_lt
  case cur_type => exact (hgrown.keeps h.cur_lt).1.trans h.cur_type
  case cur_path => exact (hpath c.cur h.cur_lt).trans (h.cur_path.trans hcur.symm)
  case map_iff =>
    intro p k v
    rw [hmap, h.map_iff]
    constructor
    · rintro (⟨n, hn, hn0, ht, hp, hk, hv⟩ | ⟨ht, hp, hk, hv⟩)
      · obtain ⟨hnt, hnk, hnv, -⟩ := hgrown.keeps hn
        refine ⟨n, Nat.lt_succ_of_lt hn, hn0, hnt.trans ht, ?_, hnk.trans hk, hnv.trans hv⟩
        rw [Function.update_of_ne (Nat.ne_of_lt hn),
          hpath _ (Nat.lt_trans (h.tree.older n hn hn0) hn), hp]
      · refine ⟨c.next, Nat.lt_succ_self _, Nat.ne_of_gt h.tree.root, ?_⟩
        rw [hnew, Function.update_self, hpath c.cur h.cur_lt, h.cur_path]
        exact ⟨ht, hp, hk, hv⟩
    · rintro ⟨n, hn, hn0, ht, hp, hk, hv⟩
      rcases Nat.lt_succ_iff_lt_or_eq.mp hn with hn | rfl
      · obtain ⟨hnt, hnk, hnv, -⟩ := hgrown.keeps hn
        rw [Function.update_of_ne (Nat.ne_of_lt hn),
          hpath _ (Nat.lt_trans (h.tree.older n hn hn0) hn)] at hp
        exact .inl ⟨n, hn, hn0, hnt.symm.trans ht, hp, hnk.symm.trans hk, hnv.symm.trans hv⟩
      · rw [hnew] at ht hk hv
        rw [Function.update_self, hpath c.cur h.cur_lt, h.cur_path] at hp
        exact .inr ⟨ht, hp, hk, hv⟩
  case iter =>
    obtain ⟨l, hl, hlt, hlen⟩ := h.iter
    refine ⟨l, hl.congr fun n hn => (hgrown.keeps (hlt n hn)).2.2.2, ?_, Nat.le_succ_of_le hlen⟩
    exact fun n hn => Nat.lt_succ_of_lt (hlt n hn)

theorem overwrite (h : Holds c a parent path) (hs : c.search .VALUE key = some n)
    {heap' : Addr → Node} (hself : heap' n = { c.heap n with value := value })
    (hother : ∀ m, m ≠ n → heap' m = c.heap m) :
    Holds { c with heap := heap' } (a.setValue key value) parent path := by
  obtain ⟨hlt, hn0, hp, ht, hk⟩ := h.search_some hs
  have hkeep : ∀ m, (heap' m).type = (c.heap m).type ∧ (heap' m).key = (c.heap m).key ∧
      (heap' m).left = (c.heap m).left ∧ (heap' m).right = (c.heap m).right := by
    intro m
    by_cases hm : m = n
    · rw [hm, hself]
      exact ⟨rfl, rfl, rfl, rfl⟩
    · rw [hother m hm]
      exact ⟨rfl, rfl, rfl, rfl⟩
  constructor
  case tree =>
    exact h.tree.congr (fun m => (hkeep m).1) (fun m => (hkeep m).2.1) (fun m => (hkeep m).2.2.1)
      fun m => (hkeep m).2.2.2
  case cur_lt => exact h.cur_lt
  case cur_type => exact (hkeep c.cur).1.trans h.cur_type
  case cur_path => exact h.cur_path
  case map_iff =>
    intro p k v
    dsimp only
    have hat : path (parent n) = a.cur := by rw [hp, h.cur_path]
    rw [Sections.setValue_map]
    by_cases hpk : p = a.cur ∧ k = key
    · obtain ⟨rfl, rfl⟩ := hpk
      rw [if_pos ⟨rfl, rfl⟩]
      constructor
      · intro hv
        cases hv
        exact ⟨n, hlt, hn0, (hkeep n).1.trans ht, hat, (hkeep n).2.1.trans hk, by rw [hself]⟩
      · rintro ⟨m, hm, hm0, hmt, hmp, hmk, hmv⟩
        have hparent := h.tree.path_inj (Nat.lt_trans (h.tree.older m hm hm0) hm)
          (Nat.lt_trans (h.tree.older n hlt hn0) hlt) (h.tree.inner m hm hm0)
          (h.tree.inner n hlt hn0)
          (hmp.trans hat.symm)
        have hmn := h.tree.distinct m hm n hlt hm0 hn0 hparent
          ((hkeep m).1.symm.trans (hmt.trans ht.symm))
          ((hkeep m).2.1.symm.trans (hmk.trans hk.symm))
        rw [hmn, hself] at hmv
        rw [← hmv]
    · rw [if_neg hpk, h.map_iff]
      have hne : ∀ m, path (parent m) = p → (c.heap m).key = k → m ≠ n := by
        rintro m hmp hmk rfl
        exact hpk ⟨hmp.symm.trans hat, hmk.symm.trans hk⟩
      constructor
      · rintro ⟨m, hm, hm0, hmt, hmp, hmk, hmv⟩
        refine ⟨m, hm, hm0, ?_⟩
        rw [hother m (hne m hmp hmk)]
        exact ⟨hmt, hmp, hmk, hmv⟩
      · rintro ⟨m, hm, hm0, hmt, hmp, hmk, hmv⟩
        rw [(hkeep m).2.1] at hmk
        rw [hother m (hne m hmp hmk)] at hmt hmv
        exact ⟨m, hm, hm0, hmt, hmp, hmk, hmv⟩
  case iter =>
    obtain ⟨l, hl, hlt, hlen⟩ := h.iter
    exact ⟨l, hl.congr fun m _ => (hkeep m).2.2.2, hlt, hlen⟩

/-- The enumeration goes on along the children, and changes nothing else. -/
theorem enumValue (h : Holds c a parent path) : Holds c.enumValue.2 a parent path := by
  obtain ⟨l, hl, hlt, hlen⟩ := h.iter
  rw [ConfigMap.enumValue, walk_eq_find? hl hlen]
  cases hfind : l.find? fun n => (c.heap n).type == .VALUE with
  | none =>
    exact ⟨h.tree, h.cur_lt, h.cur_type, h.cur_path, h.map_iff, [], rfl, by simp, Nat.zero_le _⟩
  | some n =>
    obtain ⟨l', hl', -, hsuffix⟩ := hl.rest hfind
    refine ⟨h.tree, h.cur_lt, h.cur_type, h.cur_path, h.map_iff, l', hl', ?_, ?_⟩
    · exact fun m hm => hlt m (hsuffix.subset (List.mem_cons_of_mem n hm))
    · have hle := hsuffix.length_le
      exact Nat.le_of_succ_le (Nat.le_trans hle hlen)

end Holds

/-! ## Every run -/

section
variable {c : ConfigMap} {a : Sections}

theorem stands_init : Stands ConfigMap.init Sections.empty := by
  refine ⟨fun _ => 0, fun _ => [], ⟨Nat.zero_lt_one, rfl, rfl, ?_, ?_, ?_, ?_, ?_⟩, Nat.zero_lt_one,
    rfl, rfl, ?_, [], rfl, by simp, Nat.zero_le _⟩
  · intro n hn hn0
    exact absurd (Nat.lt_one_iff.mp hn) hn0
  · intro n hn hn0
    rfl
  · intro p hp
    rfl
  · intro n hn m hm hn0
    exact absurd (Nat.lt_one_iff.mp hn) hn0
  · intro n hn hn0
    exact absurd (Nat.lt_one_iff.mp hn) hn0
  · intro p key value
    constructor
    · intro h
      cases h
    · rintro ⟨n, hn, hn0, -⟩
      exact absurd (Nat.lt_one_iff.mp hn) hn0

theorem Stands.setValue (h : Stands c a) (key value : Bytes) :
    Stands (c.setValue key value) (a.setValue key value) := by
  obtain ⟨parent, path, h⟩ := h
  rw [ConfigMap.setValue]
  cases hs : c.search .VALUE key with
  | some n =>
    exact ⟨parent, path, h.overwrite hs (Function.update_self ..)
      fun m hm => Function.update_of_ne hm _ _⟩
  | none =>
    have hnone : a.map a.cur key = none := by
      rw [← h.getValue_eq, ConfigMap.getValue, hs]
      rfl
    refine ⟨_, _, h.insertFront hs rfl fun p k v => ?_⟩
    rw [Sections.setValue_map]
    by_cases hpk : p = a.cur ∧ k = key
    · rw [if_pos hpk, hpk.1, hpk.2, hnone]
      simp
    · rw [if_neg hpk]
      constructor
      · exact .inl
      · rintro (hv | ⟨-, hp, hk, -⟩)
        · exact hv
        · exact absurd ⟨hp.symm, hk.symm⟩ hpk

/-- One component further; the enumeration starts at the children. -/
theorem Stands.enterSection (h : Stands c a) (sub : Bytes) :
    Stands (c.enterSection sub) { a with cur := a.cur ++ [sub] } ∧
      (c.enterSection sub).iter = ((c.enterSection sub).heap (c.enterSection sub).cur).left := by
  obtain ⟨parent, path, h⟩ := h
  rw [ConfigMap.enterSection]
  cases hs : c.search .SECTION sub with
  | some n =>
    obtain ⟨hlt, hn0, hp, ht, hk⟩ := h.search_some hs
    refine ⟨⟨parent, path, h.tree, hlt, ht, ?_, h.map_iff, ?_⟩, rfl⟩
    · rw [h.tree.path_eq n hlt hn0, hp, hk, h.cur_path]
    · exact ⟨_, h.tree.chain n hlt, fun m hm => (mem_children.mp hm).1, length_children_le c.next⟩
  | none =>
    have h' := @Holds.insertFront c a parent path .SECTION sub [] h hs a rfl (by simp)
    have hnew := (@ConfigMap.insertFront_grown c .SECTION sub [] h.cur_lt).fresh
    refine ⟨⟨_, _, h'.tree, Nat.lt_succ_self _, ?_, ?_, h'.map_iff, ?_⟩, rfl⟩
    · show ((c.insertFront .SECTION sub []).heap c.next).type = _
      rw [hnew]
    · show Function.update path c.next (path c.cur ++ [sub]) c.next = _
      rw [Function.update_self, h.cur_path]
    · refine ⟨[], ?_, by simp, Nat.zero_le _⟩
      show ((c.insertFront .SECTION sub []).heap c.next).left = none
      rw [hnew]

theorem Stands.enterSections : ∀ {subs : List Bytes} {c : ConfigMap} {a : Sections}, Stands c a →
    Stands (subs.foldl ConfigMap.enterSection c) { a with cur := a.cur ++ subs } ∧
      (subs ≠ [] → (subs.foldl ConfigMap.enterSection c).iter =
        ((subs.foldl ConfigMap.enterSection c).heap
          (subs.foldl ConfigMap.enterSection c).cur).left)
  | [], _, _, h => by
    rw [List.append_nil]
    exact ⟨h, fun hne => absurd rfl hne⟩
  | sub :: subs, c, a, h => by
    obtain ⟨h₁, hiter⟩ := h.enterSection sub
    obtain ⟨h₂, hiters⟩ := @Stands.enterSections subs _ _ h₁
    rw [List.foldl_cons]
    refine ⟨?_, fun _ => ?_⟩
    · rw [List.append_assoc] at h₂
      exact h₂
    · cases subs with
      | nil => exact hiter
      | cons sub' subs => exact hiters (List.cons_ne_nil _ _)

theorem Stands.setSection (h : Stands c a) (key : Bytes) :
    Stands (c.setSection key) { a with cur := components key } ∧
      (components key ≠ [] →
        (c.setSection key).iter = ((c.setSection key).heap (c.setSection key).cur).left) := by
  obtain ⟨parent, path, h⟩ := h
  have hroot : Stands { c with cur := 0 } { a with cur := [] } :=
    ⟨parent, path, h.tree, h.tree.root, h.tree.root_type, h.tree.root_path, h.map_iff, h.iter⟩
  exact hroot.enterSections

/-- One call keeps what the tree stands for. -/
theorem Stands.step (h : Stands c a) : ∀ call : ConfigCall, Stands (c.step call) (a.step call)
  | .setSection key => (h.setSection key).1
  | .setValue key value => h.setValue key value
  | .enumValue => by
    obtain ⟨parent, path, h⟩ := h
    exact ⟨parent, path, h.enumValue⟩

theorem Stands.foldl : ∀ {calls : List ConfigCall} {c : ConfigMap} {a : Sections}, Stands c a →
    Stands (calls.foldl ConfigMap.step c) (calls.foldl Sections.step a)
  | [], _, _, h => h
  | call :: _, _, _, h => (h.step call).foldl

theorem stands_run (calls : List ConfigCall) : Stands (ConfigMap.run calls) (Sections.run calls) :=
  stands_init.foldl

theorem Stands.getValue_eq (h : Stands c a) (key : Bytes) : c.getValue key = a.map a.cur key := by
  obtain ⟨parent, path, h⟩ := h
  exact h.getValue_eq key

end

/-! ## Enumeration -/

/-- What repeated calls of `enum_value` return. -/
def ConfigMap.enumerate : Nat → ConfigMap → List (Option (Bytes × Bytes))
  | 0, _ => []
  | n + 1, c => c.enumValue.1 :: enumerate n c.enumValue.2

section
variable {c : ConfigMap}

/-- The values among the nodes of a chain, as the calls return them. -/
def ConfigMap.entries (c : ConfigMap) (l : List Addr) : List (Bytes × Bytes) :=
  (l.filter fun n => (c.heap n).type == .VALUE).map fun n => ((c.heap n).key, (c.heap n).value)

theorem enumerate_eq : ∀ {n : Nat} {c : ConfigMap} {l : List Addr},
    Chain (fun n => (c.heap n).right) c.iter l → l.length ≤ c.next →
    c.enumerate n = (List.range n).map fun i => (c.entries l)[i]?
  | 0, _, _, _, _ => rfl
  | n + 1, c, l, hl, hlen => by
    rw [ConfigMap.enumerate, List.range_succ_eq_map, List.map_cons, List.map_map]
    cases hfind : l.find? fun n => (c.heap n).type == .VALUE with
    | none =>
      have hcall : c.enumValue = (none, { c with iter := none }) := by
        rw [ConfigMap.enumValue, walk_eq_find? hl hlen, hfind]
      have hnil : c.entries l = [] := by
        rw [ConfigMap.entries, List.filter_eq_nil_iff.mpr (List.find?_eq_none.mp hfind),
          List.map_nil]
      rw [hcall, hnil]
      have hrec := @enumerate_eq n { c with iter := none } [] rfl (Nat.zero_le _)
      rw [hrec]
      rfl
    | some a =>
      obtain ⟨l', hl', hfilter, hsuffix⟩ := hl.rest hfind
      have hcall : c.enumValue =
          (some ((c.heap a).key, (c.heap a).value), { c with iter := (c.heap a).right }) := by
        rw [ConfigMap.enumValue, walk_eq_find? hl hlen, hfind]
      have hcons : c.entries l = ((c.heap a).key, (c.heap a).value) :: c.entries l' := by
        rw [ConfigMap.entries, hfilter]
        rfl
      have hle := hsuffix.length_le
      rw [List.length_cons] at hle
      have hrec := @enumerate_eq n { c with iter := (c.heap a).right } l' hl'
        (Nat.le_of_succ_le (Nat.le_trans hle hlen))
      rw [hcall, hcons, hrec]
      rfl

end

theorem nodup_children {parent : Addr → Addr} {p : Addr} :
    ∀ size : Nat, (children parent p size).Nodup
  | 0 => List.nodup_nil
  | size + 1 => by
    rw [children]
    split
    · refine List.nodup_cons.mpr ⟨fun h => ?_, nodup_children size⟩
      exact Nat.lt_irrefl _ (mem_children.mp h).1
    · exact nodup_children size

/-- The children of the current section are its keys, each once. -/
theorem Holds.entries {c : ConfigMap} {a : Sections} {parent : Addr → Addr}
    {path : Addr → List Bytes} (h : Holds c a parent path) :
    ((c.entries (children parent c.cur c.next)).map Prod.fst).Nodup ∧
      ∀ key value, (key, value) ∈ c.entries (children parent c.cur c.next) ↔
        a.map a.cur key = some value := by
  constructor
  · rw [ConfigMap.entries, List.map_map]
    refine List.Nodup.map_on ?_ ((nodup_children _).filter _)
    intro n hn m hm hkey
    obtain ⟨hn, hnt⟩ := List.mem_filter.mp hn
    obtain ⟨hm, hmt⟩ := List.mem_filter.mp hm
    obtain ⟨hnlt, hn0, hnp⟩ := mem_children.mp hn
    obtain ⟨hmlt, hm0, hmp⟩ := mem_children.mp hm
    exact h.tree.distinct n hnlt m hmlt hn0 hm0 (hnp.trans hmp.symm)
      ((beq_iff_eq.mp hnt).trans (beq_iff_eq.mp hmt).symm) hkey
  · intro key value
    rw [h.map_cur_iff, ConfigMap.entries, List.mem_map]
    constructor
    · rintro ⟨n, hn, hkv⟩
      obtain ⟨hn, hnt⟩ := List.mem_filter.mp hn
      obtain ⟨hk, hv⟩ := Prod.mk.inj hkv
      exact ⟨n, hn, beq_iff_eq.mp hnt, hk, hv⟩
    · rintro ⟨n, hn, hnt, hk, hv⟩
      exact ⟨n, List.mem_filter.mpr ⟨hn, beq_iff_eq.mpr hnt⟩, by rw [hk, hv]⟩

/-- **Refinement.** After every sequence of calls the current section shows what
the map says; a value is seen in its own section under its own key only, entering
sections changes none; and an enumeration lists the section that was entered,
each key once, and then fails. -/
theorem configMap_refines (calls : List ConfigCall) :
    (∀ key, (ConfigMap.run calls).getValue key =
      (Sections.run calls).map (Sections.run calls).cur key) ∧
    (∀ key value path key', components path ≠ (Sections.run calls).cur ∨ key' ≠ key →
      (((ConfigMap.run calls).setValue key value).setSection path).getValue key' =
        ((ConfigMap.run calls).setSection path).getValue key') ∧
    (∀ path path' key, (((ConfigMap.run calls).setSection path).setSection path').getValue key =
      ((ConfigMap.run calls).setSection path').getValue key) ∧
    (∀ path, components path ≠ [] → ∃ entries : List (Bytes × Bytes),
      (entries.map Prod.fst).Nodup ∧
      (∀ key value, (key, value) ∈ entries ↔
        (Sections.run calls).map (components path) key = some value) ∧
      ∀ n, ((ConfigMap.run calls).setSection path).enumerate n =
        (List.range n).map fun i => entries[i]?) := by
  have hrun := stands_run calls
  refine ⟨hrun.getValue_eq, ?_, ?_, ?_⟩
  · intro key value path key' hother
    rw [((hrun.setValue key value).setSection path).1.getValue_eq,
      (hrun.setSection path).1.getValue_eq]
    show ((Sections.run calls).setValue key value).map (components path) key' = _
    rw [Sections.setValue_map, if_neg (fun h => hother.elim (· h.1) (· h.2))]
  · intro path path' key
    rw [((hrun.setSection path).1.setSection path').1.getValue_eq,
      (hrun.setSection path').1.getValue_eq]
  · intro path hne
    obtain ⟨⟨parent, paths, h⟩, hiter⟩ := hrun.setSection path
    have hchain := h.tree.chain _ h.cur_lt
    rw [← hiter hne] at hchain
    obtain ⟨hnodup, hmem⟩ := h.entries
    exact ⟨_, hnodup, hmem, fun n => enumerate_eq hchain (length_children_le _)⟩

/-- The section `a\b` with one key that is set twice. -/
def nestedCalls : List ConfigCall :=
  [.setSection [97, 92, 98], .setValue [107] [49], .setValue [107] [50]]

theorem configMap_refines_nested :
    (ConfigMap.run nestedCalls).getValue [107] = some [50] ∧
    (((ConfigMap.run nestedCalls).setValue [107] [51]).setSection [97]).getValue [107] =
      ((ConfigMap.run nestedCalls).setSection [97]).getValue [107] ∧
    ∃ entries : List (Bytes × Bytes), (entries.map Prod.fst).Nodup ∧ ([107], [50]) ∈ entries ∧
      ∀ n, ((ConfigMap.run nestedCalls).setSection [97, 47, 98]).enumerate n =
        (List.range n).map fun i => entries[i]? := by
  obtain ⟨hget, hother, -, henum⟩ := configMap_refines nestedCalls
  obtain ⟨entries, hnodup, hmem, hall⟩ := henum [97, 47, 98] (by decide +kernel)
  refine ⟨(hget [107]).trans (by decide +kernel), hother [107] [51] [97] [107] ?_, entries,
    hnodup, ?_, hall⟩
  · exact .inl (by decide +kernel)
  · exact (hmem [107] [50]).mpr (by decide +kernel)

end CommonTools.Http
