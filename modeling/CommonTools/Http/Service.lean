import CommonTools.Http.Handles

/-! # The service threads

Every thread runs `svc`: under `_epoll_mutex` it takes an event, accepts new
connections or gives up the registration of a connection that has become
readable, and then serves that connection without the mutex. One action is what
a thread does between two points where another thread can come in; the kernel
gives the number of a closed descriptor to any later `accept`. -/
namespace CommonTools.Http
open CommonTools.Lib

def MAX_EPOLL_EVENT_NUM : Nat := 256
def MAX_FD_NUM : Nat := 1024

/-! ## The threads -/

/-- Where a thread stands in `svc` and `recv_request`. -/
inductive Pc where
  | top
  | polling
  | accepting
  | accepted (new_fd : Fd)
  | created (new_fd : Fd)
  | event (fd : Fd)
  | receiving (fd : Fd)
  | serving (fd : Fd) (hdle : Ptr)
  | handled (fd : Fd)
deriving DecidableEq

/-- The descriptors after `open`: those of the process, and the two of them that
are registered for input. -/
structure Config where
  isOpen : Fd → Bool
  _socket_server_listen : Fd
  _pipe_read : Fd
  listen_open : isOpen _socket_server_listen = true
  pipe_open : isOpen _pipe_read = true

/-- All threads and what they share; `ready` is the part of `_epoll_ready_event`
not yet taken, and `_epoll_mutex` is held by `owner`. -/
structure Service (T : Type) where
  server : Server
  ready : List Fd
  owner : Option T
  pc : T → Pc

def Config.registered (cfg : Config) (fd : Fd) : Bool :=
  fd == cfg._socket_server_listen || fd == cfg._pipe_read

def Service.init {T : Type} (cfg : Config) : Service T where
  server := ⟨fun _ => none, fun _ => none, 0, cfg.isOpen, cfg.registered⟩
  ready := []
  owner := none
  pc _ := .top

/-- One step of a thread, with what the kernel, the memory and the network
decide in it. -/
inductive Action where
  | lock
  | epollWait (events : List Fd)
  | interrupted
  | take
  | accept (new_fd : Fd)
  | acceptFails
  | createHandle (newhdle : Ptr)
  | addNew
  | delInput
  | getHandle
  | fail
  | handle (keep_alive : Bool)
  | addBack

namespace Service
variable {T : Type} [DecidableEq T]

def goto (st : Service T) (t : T) (pc : Pc) : Service T :=
  { st with pc := Function.update st.pc t pc }

def unlock (st : Service T) : Service T := { st with owner := none }

/-- The thread `t` does `a`; `none` when it cannot. -/
def step (cfg : Config) (st : Service T) (t : T) (a : Action) : Option (Service T) :=
  match st.pc t, a with
  | .top, .lock =>
    if st.owner = none then some ({ st with owner := some t }.goto t .polling) else none
  | .polling, .epollWait events =>
    if st.ready = [] ∧ events ≠ [] ∧ events.Nodup ∧ events.length ≤ MAX_EPOLL_EVENT_NUM ∧
        events.all st.server.input = true then
      some { st with ready := events }
    else none
  | .polling, .interrupted => if st.ready = [] then some (st.unlock.goto t .top) else none
  | .polling, .take => do
    let fd ← st.ready.getLast?
    let st := { st with ready := st.ready.dropLast }
    if fd = cfg._socket_server_listen then some (st.goto t .accepting)
    else if fd = cfg._pipe_read then some (st.unlock.goto t .top)
    else some (st.goto t (.event fd))
  | .accepting, .accept new_fd =>
    if st.server.isOpen new_fd = false then
      let server := { st.server with isOpen := Function.update st.server.isOpen new_fd true }
      some ({ st with server := server }.goto t (.accepted new_fd))
    else none
  | .accepting, .acceptFails => some (st.unlock.goto t .top)
  | .accepted new_fd, .createHandle newhdle =>
    if MAX_FD_NUM ≤ st.server._now_connections ∨ 1024 ≤ new_fd then
      some ({ st with server := st.server.close new_fd }.goto t .accepting)
    else if st.server.heap newhdle = none then
      let server := { st.server with _now_connections := st.server._now_connections + 1 }
      some ({ st with server := server.createHandle new_fd newhdle }.goto t (.created new_fd))
    else none
  | .created new_fd, .addNew =>
    some ({ st with server := st.server.addInputFd new_fd }.goto t .accepting)
  | .event fd, .delInput =>
    some ({ st with server := st.server.delInputFd fd }.unlock.goto t (.receiving fd))
  | .receiving fd, .getHandle => do
    let (ret, server, _) ← st.server.getHandle fd
    -- `assert(hdle)`
    let hdle ← ret
    some ({ st with server := server }.goto t (.serving fd hdle))
  | .serving _ hdle, .fail => do
    let (server, _) ← st.server.releaseHandle hdle true
    some ({ st with server := server }.goto t .top)
  | .serving fd hdle, .handle keep_alive => do
    let (server, _) ← st.server.releaseHandle hdle (!keep_alive)
    some ({ st with server := server }.goto t (.handled fd))
  | .handled fd, .addBack =>
    some ({ st with server := st.server.addInputFd fd }.goto t .top)
  | _, _ => none

/-- A run: which thread does what, in order. -/
def run (cfg : Config) (st : Service T) : List (T × Action) → Option (Service T)
  | [] => some st
  | (t, a) :: rest => (st.step cfg t a).bind fun st => st.run cfg rest

/-- No handle has two workers, and whatever is registered besides the listening
socket and the pipe is a connection with a live handle. -/
structure Safe (cfg : Config) (st : Service T) : Prop where
  exclusive : ∀ t₁ t₂ fd₁ fd₂ hdle,
    st.pc t₁ = .serving fd₁ hdle → st.pc t₂ = .serving fd₂ hdle → t₁ = t₂
  live : ∀ fd, st.server.input fd = true → cfg.registered fd = false →
    ∃ hdle h, st.server.m_fd_set fd = some hdle ∧ st.server.heap hdle = some h ∧ h._fd = fd

/-- The number that `accept` returns is not one that a thread is still to
register again. -/
def Quiet (st : Service T) : Action → Prop
  | .accept new_fd => ∀ t, st.pc t ≠ .handled new_fd
  | _ => True

/-- All steps of a run are quiet. -/
def QuietRun (cfg : Config) (st : Service T) : List (T × Action) → Prop
  | [] => True
  | (t, a) :: rest => st.Quiet a ∧
    match st.step cfg t a with
    | none => True
    | some st => st.QuietRun cfg rest

end Service

end CommonTools.Http
