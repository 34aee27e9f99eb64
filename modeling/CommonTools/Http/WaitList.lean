import CommonTools.Lib.Ring
import Mathlib.Data.List.Perm.Basic

/-! # The queue of the workers

`linked_list_t` threads nodes that lie inside the queued objects, with a
sentinel in the list; `wait_list_t` counts them and makes every call atomic. A
call that has to wait is not a step. -/
namespace CommonTools.Http.WaitList
open CommonTools.Lib

/-! ## `linked_list_t` -/

/-- The address of a node: in the object `some t`, or the list's own `_head`. -/
abbrev Node (T : Type) := Option T

def head {T : Type} : Node T := none

/-- `next` and `prev` of every node, of those outside the list too. -/
structure LinkedListT (T : Type) where
  next : Node T → Node T
  prev : Node T → Node T

/-- `entry`: the object around a node, and `NULL` for the sentinel. -/
def LinkedListT.entry {T : Type} (node : Node T) : Option T := node

section
variable {T : Type} [DecidableEq T]

/-- The constructor, with the pointers of all other nodes as they were. -/
def LinkedListT.init (memory : LinkedListT T) : LinkedListT T :=
  ⟨Function.update memory.next head head, Function.update memory.prev head head⟩

def LinkedListT.isEmpty (l : LinkedListT T) : Bool := l.next head == head

/-- `add`, assignment by assignment. -/
def LinkedListT.add (l : LinkedListT T) (node : T) : LinkedListT T :=
  let l := { l with prev := Function.update l.prev (l.next head) (some node) }
  let l := { l with next := Function.update l.next (some node) (l.next head) }
  let l := { l with prev := Function.update l.prev (some node) head }
  { l with next := Function.update l.next head (some node) }

/-- `del`; the pointers of the node itself stay. -/
def LinkedListT.del (l : LinkedListT T) (node : T) : LinkedListT T :=
  let l := { l with prev := Function.update l.prev (l.next (some node)) (l.prev (some node)) }
  { l with next := Function.update l.next (l.prev (some node)) (l.next (some node)) }

/-! ## `wait_list_t` -/

/-- `_num` is an `int`: less than `2^31` objects are in the list. -/
structure WaitListT (T : Type) extends LinkedListT T where
  _alive : Bool
  _num : Int

def WaitListT.init (memory : LinkedListT T) : WaitListT T := ⟨memory.init, true, 0⟩

/-- How a call ends: it waits for the condition, it uses a null pointer, or it
returns. -/
inductive Outcome (σ β : Type) where
  | waits
  | undefined
  | returns (ret : β) (s : σ)

def Outcome.bind {σ β γ : Type} : Outcome σ β → (β → σ → Outcome σ γ) → Outcome σ γ
  | .waits, _ => .waits
  | .undefined, _ => .undefined
  | .returns ret s, k => k ret s

def WaitListT.put (s : WaitListT T) (node : T) : WaitListT T :=
  if s._alive then { s with toLinkedListT := s.add node, _num := s._num + 1 } else s

/-- The end of both readers: take out the object around `node`. -/
def WaitListT.take (s : WaitListT T) (node : Node T) : Outcome (WaitListT T) (Option T) :=
  match LinkedListT.entry node with
  | none => .undefined
  | some ret => .returns (some ret) { s with toLinkedListT := s.del ret, _num := s._num - 1 }

def WaitListT.get (s : WaitListT T) : Outcome (WaitListT T) (Option T) :=
  if s._alive && s.isEmpty then .waits
  else if s._alive then s.take (s.prev head)
  else .returns none s

def WaitListT.getFromHead (s : WaitListT T) : Outcome (WaitListT T) (Option T) :=
  if s._alive && s.isEmpty then .waits
  else if s._alive then s.take (s.next head)
  else .returns none s

def WaitListT.flush (s : WaitListT T) : WaitListT T := { s with _alive := false }

/-- The calls of the threads, in the order in which they hold the mutex. -/
inductive Call (T : Type) where
  | put (node : T)
  | get
  | getFromHead

def WaitListT.step (s : WaitListT T) : Call T → Outcome (WaitListT T) (Option T)
  | .put node => .returns none (s.put node)
  | .get => s.get
  | .getFromHead => s.getFromHead

/-- What a sequence of calls hands out. -/
def WaitListT.run (s : WaitListT T) : List (Call T) → Outcome (WaitListT T) (List T)
  | [] => .returns [] s
  | c :: cs => (s.step c).bind fun ret s =>
      (s.run cs).bind fun rets s => .returns (ret.toList ++ rets) s

end

/-! ## The queue it is meant to be -/

section
variable {T : Type}

/-- One call on the objects in the queue, the most recently put one first. -/
def queueStep (q : List T) : Call T → Option (Option T × List T)
  | .put node => some (none, node :: q)
  | .get => q.getLast?.map fun ret => (some ret, q.dropLast)
  | .getFromHead => q.head?.map fun ret => (some ret, q.tail)

/-- What the calls hand out and what is left; `none` when one finds nothing. -/
def queueRun (q : List T) : List (Call T) → Option (List T × List T)
  | [] => some ([], q)
  | c :: cs => (queueStep q c).bind fun r =>
      (queueRun r.2 cs).map fun r' => (r.1.toList ++ r'.1, r'.2)

/-- Every object is put while it is not in the queue. -/
def Fresh (q : List T) : List (Call T) → Prop
  | [] => True
  | .put node :: cs => node ∉ q ∧ Fresh (node :: q) cs
  | .get :: cs => Fresh q.dropLast cs
  | .getFromHead :: cs => Fresh q.tail cs

/-- The objects put by a sequence of calls. -/
def puts : List (Call T) → List T
  | [] => []
  | .put node :: cs => node :: puts cs
  | _ :: cs => puts cs

/-! ## What the queue hands out -/

/-- One call: what it hands out was in the queue, and only a put adds. -/
theorem queueStep_perm {q q' : List T} {c : Call T} {ret : Option T}
    (h : queueStep q c = some (ret, q')) : (ret.toList ++ q').Perm (puts [c] ++ q) := by
  cases c with
  | put node => cases h; exact List.Perm.refl _
  | get =>
    obtain ⟨x, hx, he⟩ := Option.map_eq_some_iff.mp h
    cases he
    rw [← List.dropLast_append_getLast? x hx]
    simpa [puts] using @List.perm_append_comm _ [x] q.dropLast
  | getFromHead =>
    obtain ⟨x, hx, he⟩ := Option.map_eq_some_iff.mp h
    cases he
    cases q with
    | nil => cases hx
    | cons y q => cases hx; exact List.Perm.refl _

theorem puts_cons (c : Call T) (cs : List (Call T)) : puts (c :: cs) = puts [c] ++ puts cs := by
  cases c <;> rfl

/-- Nothing is lost and nothing handed out twice. -/
theorem queueRun_perm : ∀ {cs : List (Call T)} {q rets q' : List T},
    queueRun q cs = some (rets, q') → (rets ++ q').Perm (puts cs ++ q) := by
  intro cs
  induction cs with
  | nil =>
    intro q _ _ h
    exact by cases h; exact List.Perm.refl _
  | cons c cs ih =>
    intro q rets q' h
    obtain ⟨⟨ret, q₁⟩, hstep, hrest⟩ := Option.bind_eq_some_iff.mp h
    obtain ⟨⟨rets', q₂⟩, hrun, he⟩ := Option.map_eq_some_iff.mp hrest
    cases he
    rw [puts_cons, List.append_assoc, List.append_assoc]
    calc List.Perm (ret.toList ++ (rets' ++ q₂)) (ret.toList ++ (puts cs ++ q₁)) :=
          (ih hrun).append_left _
      List.Perm _ (puts cs ++ (ret.toList ++ q₁)) := List.perm_append_comm_assoc ..
      List.Perm _ (puts cs ++ (puts [c] ++ q)) := (queueStep_perm hstep).append_left _
      List.Perm _ (puts [c] ++ (puts cs ++ q)) := List.perm_append_comm_assoc ..

/-- Without `get_from_head` the objects come out in the order of the puts. -/
theorem queueRun_fifo : ∀ {cs : List (Call T)} {q rets q' : List T},
    queueRun q cs = some (rets, q') → (∀ c ∈ cs, c ≠ .getFromHead) →
    rets ++ q'.reverse = q.reverse ++ puts cs := by
  intro cs
  induction cs with
  | nil =>
    intro q _ _ h _
    exact by cases h; simp [puts]
  | cons c cs ih =>
    intro q rets q' h hget
    obtain ⟨⟨ret, q₁⟩, hstep, hrest⟩ := Option.bind_eq_some_iff.mp h
    obtain ⟨⟨rets', q₂⟩, hrun, he⟩ := Option.map_eq_some_iff.mp hrest
    cases he
    have hall := ih hrun fun c hc => hget c (List.mem_cons_of_mem _ hc)
    rw [List.append_assoc, hall]
    cases c with
    | put node => cases hstep; simp [puts]
    | get =>
      obtain ⟨x, hx, he⟩ := Option.map_eq_some_iff.mp hstep
      cases he
      rw [← List.dropLast_append_getLast? x hx]
      simp [puts]
    | getFromHead => exact absurd rfl (hget _ List.mem_cons_self)

end

/-! ## Refinement -/

section
variable {T : Type} [DecidableEq T]

/-- The list holds the objects `q`: its nodes form a ring through the sentinel
and `_num` counts them. -/
structure Holds (s : WaitListT T) (q : List T) : Prop where
  ring : Ring s.next s.prev head (q.map some)
  alive : s._alive = true
  num : s._num = q.length

theorem holds_init (memory : LinkedListT T) : Holds (WaitListT.init memory) [] :=
  ⟨Ring.empty (by simp [WaitListT.init, LinkedListT.init])
    (by simp [WaitListT.init, LinkedListT.init]), rfl, rfl⟩

section
variable {s : WaitListT T} {q : List T}

theorem Holds.isEmpty (h : Holds s q) : s.isEmpty = true ↔ q = [] := by
  rw [LinkedListT.isEmpty, beq_iff_eq, h.ring.next_head]
  cases q with
  | nil => exact ⟨fun _ => rfl, fun _ => rfl⟩
  | cons x q => exact ⟨fun he => absurd he (Option.some_ne_none x), fun he => absurd he (by simp)⟩

theorem Holds.put (h : Holds s q) {node : T} (hnew : node ∉ q) :
    Holds (s.put node) (node :: q) := by
  have hnot : some node ∉ head :: q.map some := by
    intro hin
    cases List.mem_cons.mp hin with
    | inl he => exact Option.some_ne_none node he
    | inr hin =>
      obtain ⟨x, hx, he⟩ := List.mem_map.mp hin
      exact hnew (Option.some.inj he ▸ hx)
  rw [WaitListT.put, if_pos h.alive]
  refine ⟨h.ring.insert hnot, h.alive, ?_⟩
  rw [h.num, List.length_cons]
  rfl

/-- Either reader, with the node that it looks at. -/
theorem Holds.take {xs ys : List T} {node : T} (h : Holds s (xs ++ node :: ys)) :
    ∃ s', s.take (some node) = .returns (some node) s' ∧ Holds s' (xs ++ ys) := by
  refine ⟨_, rfl, ?_, h.alive, ?_⟩
  · have hring := h.ring
    rw [List.map_append, List.map_cons] at hring
    rw [List.map_append]
    -- the first assignment leaves the pointer back of the node itself
    have hself : (Function.update s.prev (s.next (some node)) (s.prev (some node))) (some node) =
        s.prev (some node) := by
      by_cases hn : some node = s.next (some node)
      · rw [← hn, Function.update_self]
      · exact Function.update_of_ne hn ..
    show Ring (Function.update s.next ((Function.update s.prev (s.next (some node))
      (s.prev (some node))) (some node)) (s.next (some node))) _ head _
    rw [hself]
    exact hring.delete
  · show s._num - 1 = _
    rw [h.num, List.length_append, List.length_append, List.length_cons]
    omega

theorem Holds.get (h : Holds s q) : match queueStep q .get with
    | none => s.get = .waits
    | some (ret, q') => ∃ s', s.get = .returns ret s' ∧ Holds s' q' := by
  rw [WaitListT.get, h.alive, Bool.true_and]
  cases List.eq_nil_or_concat' q with
  | inl hnil =>
    subst hnil
    exact if_pos (h.isEmpty.mpr rfl)
  | inr hconcat =>
    obtain ⟨q, x, rfl⟩ := hconcat
    have hne : ¬ s.isEmpty = true := fun he => absurd (h.isEmpty.mp he) (by simp)
    have hlast : s.prev head = some x := by
      rw [h.ring.prev_head, List.map_append]
      simp
    rw [if_neg hne, if_pos rfl, hlast]
    obtain ⟨s', htake, hs'⟩ := h.take
    simp only [queueStep, List.getLast?_concat, Option.map_some, List.dropLast_concat]
    exact ⟨s', htake, List.append_nil q ▸ hs'⟩

theorem Holds.getFromHead (h : Holds s q) : match queueStep q .getFromHead with
    | none => s.getFromHead = .waits
    | some (ret, q') => ∃ s', s.getFromHead = .returns ret s' ∧ Holds s' q' := by
  rw [WaitListT.getFromHead, h.alive, Bool.true_and]
  cases q with
  | nil => exact if_pos (h.isEmpty.mpr rfl)
  | cons x q =>
    have hne : ¬ s.isEmpty = true := fun he => absurd (h.isEmpty.mp he) (by simp)
    have hfirst : s.next head = some x := h.ring.next_head
    rw [if_neg hne, if_pos rfl, hfirst]
    exact @Holds.take _ _ s [] q x h

end

/-- One call on the list does what it does on the queue. -/
theorem Holds.step {s : WaitListT T} {q : List T} (h : Holds s q) (c : Call T) (cs : List (Call T))
    (hfresh : Fresh q (c :: cs)) : match queueStep q c with
    | none => s.step c = .waits
    | some (ret, q') => ∃ s', s.step c = .returns ret s' ∧ Holds s' q' ∧ Fresh q' cs := by
  cases c with
  | put node => exact ⟨s.put node, rfl, h.put hfresh.1, hfresh.2⟩
  | get =>
    have hget := h.get
    cases hq : q.getLast? with
    | none =>
      rw [queueStep, hq] at hget ⊢
      exact hget
    | some x =>
      rw [queueStep, hq] at hget ⊢
      obtain ⟨s', hs', hholds⟩ := hget
      exact ⟨s', hs', hholds, hfresh⟩
  | getFromHead =>
    have hget := h.getFromHead
    cases hq : q.head? with
    | none =>
      rw [queueStep, hq] at hget ⊢
      exact hget
    | some x =>
      rw [queueStep, hq] at hget ⊢
      obtain ⟨s', hs', hholds⟩ := hget
      exact ⟨s', hs', hholds, hfresh⟩

theorem Holds.run : ∀ (cs : List (Call T)) {s : WaitListT T} {q : List T}, Holds s q → Fresh q cs →
    match queueRun q cs with
    | none => s.run cs = .waits
    | some (rets, q') => ∃ s', s.run cs = .returns rets s' ∧ Holds s' q'
  | [], s, _, h, _ => ⟨s, rfl, h⟩
  | c :: cs, s, q, h, hfresh => by
    have hstep := h.step c cs hfresh
    cases hq : queueStep q c with
    | none =>
      rw [hq] at hstep
      rw [queueRun, hq, WaitListT.run, hstep]
      rfl
    | some r =>
      rw [hq] at hstep
      obtain ⟨s', hs', hholds, hfresh'⟩ := hstep
      have hrest := hholds.run cs hfresh'
      rw [queueRun, hq, WaitListT.run, hs']
      cases hr : queueRun r.2 cs with
      | none =>
        rw [hr] at hrest
        simp only [Option.bind_some, hr, Option.map_none, Outcome.bind, hrest]
      | some r' =>
        rw [hr] at hrest
        obtain ⟨s'', hs'', hholds'⟩ := hrest
        simp only [Option.bind_some, hr, Option.map_some, Outcome.bind, hs'']
        exact ⟨s'', rfl, hholds'⟩

/-- **The queue loses and duplicates nothing.** Calls on the list end as they do
on the queue: all of them, or one of them waits; then the list is the ring of
what is left, and what is left and what was handed out is what was put. -/
theorem run_refines (memory : LinkedListT T) (cs : List (Call T)) (hfresh : Fresh [] cs) :
    (queueRun [] cs = none ∧ (WaitListT.init memory).run cs = .waits) ∨
      ∃ rets q s, queueRun [] cs = some (rets, q) ∧
        (WaitListT.init memory).run cs = .returns rets s ∧ Holds s q ∧
        (rets ++ q).Perm (puts cs) ∧
        ((∀ c ∈ cs, c ≠ .getFromHead) → rets ++ q.reverse = puts cs) := by
  have hrun := (holds_init memory).run cs hfresh
  cases hq : queueRun [] cs with
  | none =>
    rw [hq] at hrun
    exact .inl ⟨rfl, hrun⟩
  | some r =>
    obtain ⟨rets, q⟩ := r
    rw [hq] at hrun
    obtain ⟨s, hs, hholds⟩ := hrun
    refine .inr ⟨rets, q, s, rfl, hs, hholds, ?_, fun hget => queueRun_fifo hq hget⟩
    have hperm := queueRun_perm hq
    rwa [List.append_nil] at hperm

/-- After `flush` no call waits, and none changes the list or hands out a node. -/
theorem run_flush (s : WaitListT T) : ∀ cs, s.flush.run cs = .returns [] s.flush
  | [] => rfl
  | c :: cs => by
    have hstep : s.flush.step c = .returns none s.flush := by cases c <;> rfl
    rw [WaitListT.run, hstep, Outcome.bind, run_flush s cs]
    rfl

/-- Three objects, one taken at each end. -/
theorem run_refines_three : ∃ s, (WaitListT.init ⟨id, id⟩).run
      [.put 1, .put 2, .put 3, .get, .getFromHead] = .returns [1, 3] s ∧ Holds s [2] := by
  obtain ⟨hnone, -⟩ | ⟨rets, q, s, hq, hs, hholds, -⟩ := run_refines ⟨id, id⟩
    [.put 1, .put 2, .put 3, .get, .getFromHead] (by simp [Fresh])
  · cases hnone
  · cases hq
    exact ⟨s, hs, hholds⟩

end

end CommonTools.Http.WaitList
