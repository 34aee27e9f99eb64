import Mathlib.Logic.Function.Basic
import CommonTools.Lib.CString

/-! # Handles of connections

`Http_Server` keeps one `SocketHandle` for each connection, found by the number
of its file descriptor and deleted by the release that takes its count to zero.
A use of a deleted handle has no meaning here. -/
namespace CommonTools.Http
open CommonTools.Lib

abbrev Fd := Nat

abbrev Ptr := Nat

structure SocketHandle where
  _fd : Fd
  _ref : Int
  _read_buf : Bytes
deriving DecidableEq

def SocketHandle.acquire (h : SocketHandle) : SocketHandle := { h with _ref := h._ref + 1 }

def SocketHandle.release (h : SocketHandle) : SocketHandle := { h with _ref := h._ref - 1 }

/-- The members of `Http_Server` about connections, the memory of the handles,
and what the kernel keeps: the open numbers and those registered for input. -/
structure Server where
  heap : Ptr → Option SocketHandle
  m_fd_set : Fd → Option Ptr
  _now_connections : Int
  isOpen : Fd → Bool
  input : Fd → Bool

namespace Server

def setHandle (s : Server) (hdle : Ptr) (h : SocketHandle) : Server :=
  { s with heap := Function.update s.heap hdle (some h) }

/-- `epoll_ctl` with `EPOLL_CTL_ADD`, which fails on a closed number. -/
def addInputFd (s : Server) (fd : Fd) : Server :=
  if s.isOpen fd then { s with input := Function.update s.input fd true } else s

def delInputFd (s : Server) (fd : Fd) : Server :=
  { s with input := Function.update s.input fd false }

/-- `::close`, which ends the registration as well. -/
def close (s : Server) (fd : Fd) : Server :=
  { s with isOpen := Function.update s.isOpen fd false, input := Function.update s.input fd false }

def insertHandle (s : Server) (fd : Fd) (hdle : Ptr) : Server :=
  match s.m_fd_set fd with
  | some _ => s
  | none => { s with m_fd_set := Function.update s.m_fd_set fd (some hdle) }

/-- `create_handle`, with the address that `new` returns. -/
def createHandle (s : Server) (fd : Fd) (newhdle : Ptr) : Server :=
  (s.setHandle newhdle ⟨fd, 0, []⟩).insertHandle fd newhdle

/-! ## Acquiring and releasing -/

/-- What one call does to a handle and its connection, in order. -/
inductive Effect where
  | acquire
  | release
  | delInput
  | close
  | delete
  | erase
  | leave
deriving DecidableEq

/-- `get_handle`; the inner `none` is `NULL`. -/
def getHandle (s : Server) (fd : Fd) : Option (Option Ptr × Server × List Effect) :=
  match s.m_fd_set fd with
  | none => some (none, s, [])
  | some hdle => do
    let h ← s.heap hdle
    some (some hdle, s.setHandle hdle h.acquire, [.acquire])

def releaseHandle (s : Server) (hdle : Ptr) (close_handle : Bool) :
    Option (Server × List Effect) := do
  let h ← s.heap hdle
  let fd := h._fd
  let h := h.release
  if close_handle then
    if h._ref = 0 then
      let s := (s.delInputFd fd).close fd
      let s := { s with heap := Function.update s.heap hdle none }
      let s := { s with m_fd_set := Function.update s.m_fd_set fd none }
      let s := { s with _now_connections := s._now_connections - 1 }
      some (s, [.release, .delInput, .close, .delete, .erase, .leave])
    else
      -- the message about the count calls `release` once more
      some (s.setHandle hdle h.release, [.release, .release])
  else some (s.setHandle hdle h, [.release])

/-! ## Holders of one handle -/

/-- A holder comes, or goes and wants the connection closed. -/
inductive HolderCall where
  | get
  | release
deriving DecidableEq

/-- One call of a holder of the handle `hdle` on `fd`. -/
def holderStep (s : Server) (fd : Fd) (hdle : Ptr) : HolderCall → Option (Server × List Effect)
  | .get => do
    let (ret, s, effects) ← s.getHandle fd
    if ret = some hdle then some (s, effects) else none
  | .release => s.releaseHandle hdle true

/-- What each call does, with the state behind it. -/
def holderRun (s : Server) (fd : Fd) (hdle : Ptr) :
    List HolderCall → Option (List (Server × List Effect))
  | [] => some []
  | c :: cs => do
    let r ← s.holderStep fd hdle c
    let rest ← r.1.holderRun fd hdle cs
    some (r :: rest)

/-- `held` holders and the calls to come: the handle is held until the last
call, which is the release of the last holder. -/
def Ahead : Nat → List HolderCall → Prop
  | held, [] => held = 0
  | held, .get :: cs => Ahead (held + 1) cs
  | held, .release :: cs => 0 < held ∧ (held = 1 → cs = []) ∧ Ahead (held - 1) cs

/-- Counting is exact: no call decrements twice, no count is negative, and the
last call, and no other, closes the connection and forgets the handle. -/
structure Exact (s : Server) (fd : Fd) (hdle : Ptr) (log : List (Server × List Effect)) : Prop where
  once : ∀ r ∈ log, r.2.count .release ≤ 1
  nonneg : ∀ r ∈ log, ∀ h, r.1.heap hdle = some h → 0 ≤ h._ref
  closed : ∃ front last, log = front ++ [last] ∧
    (∀ r ∈ front, .close ∉ r.2 ∧ .erase ∉ r.2 ∧ .leave ∉ r.2 ∧
      r.1._now_connections = s._now_connections) ∧
    last.2.count .close = 1 ∧ last.2.count .erase = 1 ∧ last.2.count .leave = 1 ∧
    last.1.isOpen fd = false ∧ last.1.m_fd_set fd = none ∧
    last.1._now_connections = s._now_connections - 1

/-- The server knows the handle `hdle` of `fd`, which has `ref` holders. -/
structure Known (s : Server) (fd : Fd) (hdle : Ptr) (ref : Int) : Prop where
  entry : s.m_fd_set fd = some hdle
  handle : ∃ h, s.heap hdle = some h ∧ h._fd = fd ∧ h._ref = ref

section
variable {s : Server} {fd : Fd} {hdle : Ptr} {ref : Int}

theorem Known.get (h : Known s fd hdle ref) :
    ∃ s', s.holderStep fd hdle .get = some (s', [.acquire]) ∧ Known s' fd hdle (ref + 1) ∧
      s'._now_connections = s._now_connections := by
  obtain ⟨hentry, sh, hheap, hfd, href⟩ := h
  refine ⟨s.setHandle hdle sh.acquire, ?_, ⟨hentry, sh.acquire, ?_, hfd, ?_⟩, rfl⟩
  · simp [holderStep, getHandle, hentry, hheap]
  · exact Function.update_self ..
  · rw [SocketHandle.acquire, href]

/-- A release that leaves holders behind decrements twice. -/
theorem Known.release_twice (h : Known s fd hdle ref) (href : ref ≠ 1) :
    ∃ s', s.holderStep fd hdle .release = some (s', [.release, .release]) := by
  obtain ⟨-, sh, hheap, -, hr⟩ := h
  refine ⟨s.setHandle hdle sh.release.release, ?_⟩
  have hne : ¬ sh.release._ref = 0 := by
    show ¬ sh._ref - 1 = 0
    omega
  simp [holderStep, releaseHandle, hheap, hne]

/-- The release of the only holder closes the connection. -/
theorem Known.release_last (h : Known s fd hdle 1) :
    ∃ s', s.holderStep fd hdle .release =
        some (s', [.release, .delInput, .close, .delete, .erase, .leave]) ∧
      s'.heap hdle = none ∧ s'.isOpen fd = false ∧ s'.m_fd_set fd = none ∧
      s'._now_connections = s._now_connections - 1 := by
  obtain ⟨-, sh, hheap, hfd, hr⟩ := h
  have hzero : sh.release._ref = 0 := by
    rw [SocketHandle.release, hr]
    rfl
  simp only [holderStep, releaseHandle, hheap, hzero, if_true, Option.bind_eq_bind,
    Option.bind_some, hfd]
  refine ⟨_, rfl, ?_, ?_, ?_, rfl⟩
  · exact Function.update_self ..
  · exact Function.update_self ..
  · exact Function.update_self ..

end

/-- With two holders at any time, the first release decrements twice. -/
theorem twice_of_two {fd : Fd} {hdle : Ptr} : ∀ {cs : List HolderCall} {held : Nat} {s : Server}
    {log : List (Server × List Effect)}, Known s fd hdle held → Ahead held cs →
    2 ≤ held + cs.count .get → s.holderRun fd hdle cs = some log →
    ∃ r ∈ log, r.2.count .release = 2
  | [], held, _, _, _, hahead, htwo, _ => by
    unfold Ahead at hahead
    subst hahead
    exact absurd htwo (by decide)
  | .get :: cs, held, s, log, hknown, hahead, htwo, hrun => by
    obtain ⟨s', hstep, hknown', -⟩ := hknown.get
    obtain ⟨r, hr, hrest⟩ := Option.bind_eq_some_iff.mp hrun
    obtain ⟨log', hlog', he⟩ := Option.bind_eq_some_iff.mp hrest
    cases hstep.symm.trans hr
    cases he
    have htwo' : 2 ≤ held + 1 + cs.count .get := by
      rw [List.count_cons_self] at htwo
      omega
    obtain ⟨x, hx, hcount⟩ := twice_of_two hknown' hahead htwo' hlog'
    exact ⟨x, List.mem_cons_of_mem _ hx, hcount⟩
  | .release :: cs, held, s, log, hknown, hahead, htwo, hrun => by
    obtain ⟨-, hlast, -⟩ := hahead
    have hne : (held : Int) ≠ 1 := by
      intro he
      have hone : held = 1 := by exact_mod_cast he
      rw [hlast hone, hone] at htwo
      exact absurd htwo (by decide)
    obtain ⟨s', hstep⟩ := hknown.release_twice hne
    obtain ⟨r, hr, hrest⟩ := Option.bind_eq_some_iff.mp hrun
    obtain ⟨log', -, he⟩ := Option.bind_eq_some_iff.mp hrest
    cases hstep.symm.trans hr
    cases he
    exact ⟨_, List.mem_cons_self, rfl⟩

theorem Ahead.single {calls : List HolderCall} (h : Ahead 0 calls) (hone : calls.count .get = 1) :
    calls = [.get, .release] := by
  cases calls with
  | nil => cases hone
  | cons c cs =>
    cases c with
    | release => exact absurd h.1 (Nat.lt_irrefl 0)
    | get =>
      rw [List.count_cons_self] at hone
      have h' : Ahead 1 cs := h
      cases cs with
      | nil => cases h'
      | cons c cs =>
        cases c with
        | get => rw [List.count_cons_self] at hone; cases hone
        | release => rw [h'.2.1 rfl]

theorem Known.single {s : Server} {fd : Fd} {hdle : Ptr} (h : Known s fd hdle 0) :
    ∃ log, s.holderRun fd hdle [.get, .release] = some log ∧ Exact s fd hdle log := by
  obtain ⟨s₁, hget, hknown, hnow⟩ := h.get
  obtain ⟨s₂, hrelease, hgone, hopen, hentry, hnow'⟩ := hknown.release_last
  refine ⟨[(s₁, [.acquire]), (s₂, [.release, .delInput, .close, .delete, .erase, .leave])], ?_, ?_⟩
  · simp only [holderRun, hget, hrelease, Option.bind_eq_bind, Option.bind_some]
  · refine ⟨?_, ?_, [(s₁, [.acquire])], _, rfl, ?_, rfl, rfl, rfl, hopen, hentry, ?_⟩
    · intro r hr
      cases List.mem_cons.mp hr with
      | inl he => subst he; exact Nat.zero_le 1
      | inr hr => cases List.mem_singleton.mp hr; exact Nat.le_refl 1
    · intro r hr sh hsh
      cases List.mem_cons.mp hr with
      | inl he =>
        subst he
        obtain ⟨-, x, hx, -, href⟩ := hknown
        cases hx.symm.trans hsh
        rw [href]
        decide
      | inr hr =>
        cases List.mem_singleton.mp hr
        cases hgone.symm.trans hsh
    · intro r hr
      cases List.mem_singleton.mp hr
      exact ⟨by simp, by simp, by simp, hnow⟩
    · rw [hnow', hnow]

/-- **Counting is exact for a single holder only.** -/
theorem holderRun_exact_iff (s : Server) (fd : Fd) (hdle : Ptr) (hknown : Known s fd hdle 0)
    (calls : List HolderCall) (hahead : Ahead 0 calls) (n : Nat) (hn : 1 ≤ n)
    (hget : calls.count .get = n) :
    (∃ log, s.holderRun fd hdle calls = some log ∧ Exact s fd hdle log) ↔ n = 1 := by
  constructor
  · rintro ⟨log, hrun, hexact⟩
    by_contra hne
    obtain ⟨r, hr, htwo⟩ := twice_of_two hknown hahead (by omega) hrun
    have hle := hexact.once r hr
    omega
  · intro hone
    rw [hahead.single (hget.trans hone)]
    exact hknown.single

/-- The handle `0` of the connection 5. -/
def oneHandle : Server :=
  (Server.mk (fun _ => none) (fun _ => none) 1 (· == 5) (· == 5)).createHandle 5 0

theorem oneHandle_known : Known oneHandle 5 0 0 := ⟨rfl, ⟨5, 0, []⟩, rfl, rfl, rfl⟩

theorem holderRun_exact_iff_one : (1 ≤ 1 ∧ Ahead 0 [.get, .release]) ∧
    ∃ log, oneHandle.holderRun 5 0 [.get, .release] = some log ∧ Exact oneHandle 5 0 log :=
  ⟨by simp [Ahead], (holderRun_exact_iff oneHandle 5 0 oneHandle_known [.get, .release]
    (by simp [Ahead]) 1 (Nat.le_refl 1) rfl).mpr rfl⟩

/-- Two holders: the first release takes both of them from the count, and the
last one finds it negative and closes nothing. -/
theorem holderRun_two : Known oneHandle 5 0 0 ∧
    Ahead 0 [.get, .get, .release, .release] ∧
    (oneHandle.holderRun 5 0 [.get, .get, .release, .release]).map
        (·.map fun r => (r.1.heap 0, r.2)) =
      some [(some ⟨5, 1, []⟩, [.acquire]), (some ⟨5, 2, []⟩, [.acquire]),
        (some ⟨5, 0, []⟩, [.release, .release]), (some ⟨5, -2, []⟩, [.release, .release])] ∧
    ¬ ∃ log, oneHandle.holderRun 5 0 [.get, .get, .release, .release] = some log ∧
      Exact oneHandle 5 0 log := by
  refine ⟨oneHandle_known, by simp [Ahead], by decide, ?_⟩
  rintro ⟨log, hrun, hexact⟩
  obtain ⟨r, hr, htwo⟩ := @twice_of_two 5 0 [.get, .get, .release, .release] 0 _ _ oneHandle_known
    (by simp [Ahead]) (by decide) hrun
  have hle := hexact.once r hr
  omega

end Server

end CommonTools.Http
