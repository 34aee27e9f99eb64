import Mathlib.Data.List.Basic
import Mathlib.Data.List.Perm.Basic
import Mathlib.Data.List.Perm.Lattice
import Mathlib.Logic.Function.Basic
import Mathlib.Tactic.Common

/-! # Lists under keys, with the commands of a Redis server

A key without values does not exist, so a store is a function to lists. A
command changes the list of one key; `execAll_apply` says that a batch acts on
every key by the commands for that key alone. -/
namespace CommonTools.Lib

abbrev ListStore (κ ν : Type) := κ → List ν

section Lists
variable {ν : Type}

/-- `LRANGE`, and what `LTRIM` keeps: a negative index counts from the end, and
indices out of range are cut to the list. -/
def keepRange (l : List ν) (start stop : Int) : List ν :=
  let len : Int := l.length
  let start := max 0 (if start < 0 then start + len else start)
  let stop := if stop < 0 then stop + len else stop
  if stop < start ∨ len ≤ start then []
  else (l.take (min stop (len - 1) + 1).toNat).drop start.toNat

/-- Take the first `n` occurrences of `v` away. -/
def removeFirst [DecidableEq ν] (v : ν) : Nat → List ν → List ν
  | 0, l => l
  | n + 1, l => removeFirst v n (l.erase v)

/-- Up to the last element a range is what follows its first index. -/
theorem keepRange_to_end (l : List ν) (start : Int) :
    keepRange l start (-1) =
      l.drop (max 0 (if start < 0 then start + l.length else start)).toNat := by
  unfold keepRange
  dsimp only
  rw [if_pos (by decide : (-1 : Int) < 0)]
  generalize max 0 (if start < 0 then start + (l.length : Int) else start) = s
  split
  · rw [List.drop_eq_nil_of_le (by omega)]
  · rw [show (min (-1 + (l.length : Int)) ((l.length : Int) - 1) + 1).toNat = l.length by omega,
      List.take_length]

theorem keepRange_all (l : List ν) : keepRange l 0 (-1) = l := by
  rw [keepRange_to_end]
  simp

/-- A negative start keeps that many values from the end. -/
theorem keepRange_neg (l : List ν) {n : Nat} (hn : 0 < n) :
    keepRange l (-n) (-1) = l.drop (l.length - n) := by
  rw [keepRange_to_end, if_pos (by omega)]
  congr 1
  omega

theorem keepRange_natCast (l : List ν) (n : Nat) : keepRange l n (-1) = l.drop n := by
  rw [keepRange_to_end, if_neg (by omega)]
  simp

end Lists

inductive Cmd (κ ν : Type) where
  | lrem (key : κ) (count : Int) (value : ν)
  | rpush (key : κ) (values : List ν)
  | ltrim (key : κ) (start stop : Int)
  | expire (key : κ) (seconds : Int)

section
variable {κ ν : Type} [DecidableEq κ] [DecidableEq ν]

namespace Cmd

def key : Cmd κ ν → κ
  | lrem key _ _ => key
  | rpush key _ => key
  | ltrim key _ _ => key
  | expire key _ => key

/-- What the command does at once to the list of its key. `EXPIRE` with no time
left deletes the key. -/
def apply : Cmd κ ν → List ν → List ν
  | lrem _ count value, l =>
    if count = 0 then l.filter (· ≠ value)
    else if 0 < count then removeFirst value count.toNat l
    else (removeFirst value (-count).toNat l.reverse).reverse
  | rpush _ values, l => l ++ values
  | ltrim _ start stop, l => keepRange l start stop
  | expire _ seconds, l => if seconds ≤ 0 then [] else l

def exec (store : ListStore κ ν) (c : Cmd κ ν) : ListStore κ ν :=
  Function.update store c.key (c.apply (store c.key))

def execAll (store : ListStore κ ν) (cmds : List (Cmd κ ν)) : ListStore κ ν :=
  cmds.foldl exec store

/-- Each key sees the commands for it and no others. -/
theorem execAll_apply (cmds : List (Cmd κ ν)) :
    ∀ (store : ListStore κ ν) (k : κ), execAll store cmds k =
      (cmds.filter (·.key = k)).foldl (fun l c => c.apply l) (store k) := by
  induction cmds with
  | nil => intro store k; rfl
  | cons c cmds ih =>
    intro store k
    rw [execAll, List.foldl_cons, ← execAll, ih, exec]
    by_cases hk : c.key = k
    · subst hk
      rw [Function.update_self, List.filter_cons_of_pos (by simp), List.foldl_cons]
    · rw [Function.update_of_ne (Ne.symm hk), List.filter_cons_of_neg (by simpa using hk)]

theorem execAll_append (store : ListStore κ ν) (a b : List (Cmd κ ν)) :
    execAll store (a ++ b) = execAll (execAll store a) b :=
  List.foldl_append

theorem execAll_lrem_one (vals : List (κ × ν)) (store : ListStore κ ν) (k : κ) :
    execAll store (vals.map fun p => lrem p.1 1 p.2) k =
      (store k).diff ((vals.filter (·.1 = k)).map Prod.snd) := by
  rw [execAll_apply, List.filter_map, List.foldl_map, List.diff_eq_foldl, List.foldl_map]
  rfl

/-- A batch with one command for each of different keys. -/
theorem execAll_map_nodup {keys : List κ} (hnd : keys.Nodup) (f : κ → Cmd κ ν)
    (hf : ∀ k, (f k).key = k) (store : ListStore κ ν) (k : κ) :
    execAll store (keys.map f) k = if k ∈ keys then (f k).apply (store k) else store k := by
  have hfilter : (keys.map f).filter (·.key = k) = (keys.filter (· = k)).map f := by
    rw [List.filter_map]
    exact congrArg (List.map f) (List.filter_congr fun x _ => by simp [hf])
  rw [execAll_apply, hfilter, List.filter_eq, hnd.count]
  split
  · simp
  · simp

end Cmd

/-! ## Taking values away by value -/

omit [DecidableEq κ] in
/-- Taking away every value with a property, one occurrence at a time. -/
theorem diff_filter (p : ν → Bool) (l : List ν) : l.diff (l.filter p) = l.filter (!p ·) := by
  induction l with
  | nil => simp
  | cons a l ih =>
    by_cases ha : p a
    · rw [List.filter_cons_of_pos ha, List.diff_cons, List.erase_cons_head, ih,
        List.filter_cons_of_neg (by simp [ha])]
    · have hnot : a ∉ l.filter p := fun h => ha (List.mem_filter.mp h).2
      rw [List.filter_cons_of_neg ha, List.filter_cons_of_pos (by simp [ha]),
        List.cons_diff_of_not_mem hnot, ih]

end

end CommonTools.Lib
