import Mathlib.Data.List.Basic
import CommonTools.Http.Service

/-! # One worker for a connection

While no closed number is reused before its last registration, every descriptor
goes through one life: closed, accepted, with a handle, waiting for input, held
by one thread, and waiting again or closed. The shared state is what the lives
say it is, so two threads never hold one handle. -/
namespace CommonTools.Http
open CommonTools.Lib

/-! ## Lives -/

/-- The life of a descriptor number. `own` ones belong to the process. -/
inductive Life (T : Type) where
  | free
  | own (registered : Bool)
  | accepted (t : T)
  | created (t : T) (hdle : Ptr)
  | waiting (hdle : Ptr)
  | event (t : T) (hdle : Ptr)
  | receiving (t : T) (hdle : Ptr)
  | serving (t : T) (hdle : Ptr)
  | kept (t : T) (hdle : Ptr)
  | gone (t : T)

namespace Life
variable {T : Type}

def isOpen : Life T → Bool
  | free | gone _ => false
  | _ => true

def input : Life T → Bool
  | own registered => registered
  | waiting _ | event _ _ => true
  | _ => false

def hdle : Life T → Option Ptr
  | created _ p | waiting p | event _ p | receiving _ p | serving _ p | kept _ p => some p
  | _ => none

def ref : Life T → Int
  | serving _ _ => 1
  | _ => 0

/-- The thread that holds the descriptor, and where it stands. -/
def place (fd : Fd) : Life T → Option (T × Pc)
  | accepted t => some (t, .accepted fd)
  | created t _ => some (t, .created fd)
  | event t _ => some (t, .event fd)
  | receiving t _ => some (t, .receiving fd)
  | serving t p => some (t, .serving fd p)
  | kept t _ | gone t => some (t, .handled fd)
  | _ => none

/-- What a thread that stands at `q` with the descriptor has made of its life. -/
theorem of_place {l : Life T} {fd : Fd} {t : T} {q : Pc} (h : l.place fd = some (t, q)) :
    match q with
    | .accepted _ => l = .accepted t
    | .created _ => ∃ p, l = .created t p
    | .event _ => ∃ p, l = .event t p
    | .receiving _ => ∃ p, l = .receiving t p
    | .serving _ p => l = .serving t p
    | .handled _ => (∃ p, l = .kept t p) ∨ l = .gone t
    | _ => False := by
  cases l <;> cases h <;> simp

end Life

/-- The descriptor that a thread holds. -/
def Pc.fd : Pc → Option Fd
  | accepted fd | created fd | event fd | receiving fd | serving fd _ | handled fd => some fd
  | _ => none

/-- The thread is inside `_epoll_mutex`. -/
def Pc.locked : Pc → Bool
  | polling | accepting | accepted _ | created _ | event _ => true
  | _ => false

variable {T : Type}

/-! ## Threads and lives -/

/-- Every descriptor is where its life says, and nowhere else. -/
structure Placed (pc : T → Pc) (life : Fd → Life T) : Prop where
  held : ∀ fd t q, (life fd).place fd = some (t, q) → pc t = q
  holds : ∀ t fd, (pc t).fd = some fd → (life fd).place fd = some (t, pc t)

section
variable [DecidableEq T]

/-- Thread `t` moves on with at most the descriptor `fd`, whose life changes. -/
theorem Placed.move {pc : T → Pc} {life : Fd → Life T} (h : Placed pc life) {t : T} {fd : Fd}
    {q : Pc} {l : Life T} (hold : ∀ t' q', (life fd).place fd = some (t', q') → t' = t)
    (hfrom : ∀ fd', (pc t).fd = some fd' → fd' = fd) (hto : ∀ fd', q.fd = some fd' → fd' = fd)
    (hplace : l.place fd = q.fd.map fun _ => (t, q)) :
    Placed (Function.update pc t q) (Function.update life fd l) := by
  refine ⟨?_, ?_⟩
  · intro fd' t' q' hp
    by_cases hfd : fd' = fd
    · subst hfd
      rw [Function.update_self, hplace] at hp
      obtain ⟨_, -, he⟩ := Option.map_eq_some_iff.mp hp
      cases he
      exact Function.update_self ..
    · rw [Function.update_of_ne hfd] at hp
      have hpc := h.held fd' t' q' hp
      by_cases ht : t' = t
      · subst ht
        -- a thread that holds `fd'` does not leave it behind
        have hq : q'.fd = some fd' := by
          cases hl : life fd' <;> rw [hl] at hp <;> cases hp <;> rfl
        exact absurd (hfrom fd' (hpc ▸ hq)) hfd
      · rw [Function.update_of_ne ht]
        exact hpc
  · intro t' fd' hfd'
    by_cases ht : t' = t
    · subst ht
      rw [Function.update_self] at hfd' ⊢
      have he := hto fd' hfd'
      subst he
      rw [Function.update_self, hplace, hfd']
      rfl
    · rw [Function.update_of_ne ht] at hfd' ⊢
      have hp := h.holds t' fd' hfd'
      have hne : fd' ≠ fd := by
        intro he
        subst he
        exact ht (hold _ _ hp)
      rw [Function.update_of_ne hne]
      exact hp

/-- A move between places without a descriptor. -/
theorem Placed.walk {pc : T → Pc} {life : Fd → Life T} (h : Placed pc life) {t : T} {q : Pc}
    (hfrom : (pc t).fd = none) (hto : q.fd = none) : Placed (Function.update pc t q) life := by
  refine ⟨?_, ?_⟩
  · intro fd t' q' hp
    have hpc := h.held fd t' q' hp
    have hne : t' ≠ t := by
      intro he
      subst he
      rw [hpc] at hfrom
      cases hl : life fd <;> rw [hl] at hp <;> cases hp <;> cases hfrom
    rw [Function.update_of_ne hne]
    exact hpc
  · intro t' fd hfd
    by_cases ht : t' = t
    · subst ht
      rw [Function.update_self, hto] at hfd
      cases hfd
    · rw [Function.update_of_ne ht] at hfd ⊢
      exact h.holds t' fd hfd

end

/-! ## The server and lives -/

/-- The server knows of every descriptor what its life says. -/
structure Serves (s : Server) (life : Fd → Life T) : Prop where
  isOpen : ∀ fd, s.isOpen fd = (life fd).isOpen
  input : ∀ fd, s.input fd = (life fd).input
  entry : ∀ fd, s.m_fd_set fd = (life fd).hdle
  handle : ∀ fd p, (life fd).hdle = some p → ∃ buf, s.heap p = some ⟨fd, (life fd).ref, buf⟩
  owned : ∀ p h, s.heap p = some h → (life h._fd).hdle = some p

section
variable {s s' : Server} {life : Fd → Life T} {fd : Fd} {l : Life T}

/-- What is told by the life of every descriptor still is after a change at
one of them. -/
theorem agrees_update {β : Type} {g g' : Fd → β} {f : Life T → β} (h : ∀ fd, g fd = f (life fd))
    (hg : g' = Function.update g fd (f l)) (fd' : Fd) :
    g' fd' = f (Function.update life fd l fd') := by
  rw [hg]
  by_cases he : fd' = fd
  · subst he
    rw [Function.update_self, Function.update_self]
  · rw [Function.update_of_ne he, Function.update_of_ne he, h]

/-- A change that leaves the handles alone. -/
theorem Serves.relabel (h : Serves s life)
    (hopen : s'.isOpen = Function.update s.isOpen fd l.isOpen)
    (hinput : s'.input = Function.update s.input fd l.input) (hentry : s'.m_fd_set = s.m_fd_set)
    (hheap : s'.heap = s.heap) (hhdle : l.hdle = (life fd).hdle)
    (href : l.hdle ≠ none → l.ref = (life fd).ref) : Serves s' (Function.update life fd l) := by
  have hptr : ∀ fd', (Function.update life fd l fd').hdle = (life fd').hdle := by
    intro fd'
    by_cases he : fd' = fd
    · subst he
      rw [Function.update_self, hhdle]
    · rw [Function.update_of_ne he]
  refine ⟨agrees_update h.isOpen hopen, agrees_update h.input hinput, ?_, ?_, ?_⟩
  · intro fd'
    rw [hentry, h.entry, hptr]
  · intro fd' p hp
    have hp' := hptr fd' ▸ hp
    obtain ⟨buf, hbuf⟩ := h.handle fd' p hp'
    refine ⟨buf, ?_⟩
    by_cases he : fd' = fd
    · subst he
      rw [Function.update_self] at hp ⊢
      rw [hheap, hbuf, href (by rw [hp]; exact Option.some_ne_none p)]
    · rw [Function.update_of_ne he, hheap, hbuf]
  · intro p x hx
    rw [hptr]
    exact h.owned p x (hheap ▸ hx)

/-- A change to the handle `p` of `fd`, or to its presence. -/
theorem Serves.store (h : Serves s life) {p : Ptr} {buf : Bytes}
    (hopen : s'.isOpen = Function.update s.isOpen fd l.isOpen)
    (hinput : s'.input = Function.update s.input fd l.input)
    (hentry : s'.m_fd_set = Function.update s.m_fd_set fd l.hdle)
    (hheap : s'.heap = Function.update s.heap p (l.hdle.map fun _ => ⟨fd, l.ref, buf⟩))
    (hfrom : ∀ p', (life fd).hdle = some p' → p' = p) (hto : ∀ p', l.hdle = some p' → p' = p)
    (hother : ∀ fd', (life fd').hdle = some p → fd' = fd) :
    Serves s' (Function.update life fd l) := by
  refine ⟨agrees_update h.isOpen hopen, agrees_update h.input hinput,
    agrees_update h.entry hentry, ?_, ?_⟩
  · intro fd' p' hp'
    by_cases he : fd' = fd
    · subst he
      rw [Function.update_self] at hp' ⊢
      have hpp := hto p' hp'
      subst hpp
      exact ⟨buf, by rw [hheap, Function.update_self, hp']; rfl⟩
    · rw [Function.update_of_ne he] at hp' ⊢
      obtain ⟨buf', hbuf'⟩ := h.handle fd' p' hp'
      have hne : p' ≠ p := by
        intro hpp
        subst hpp
        exact he (hother fd' hp')
      exact ⟨buf', by rw [hheap, Function.update_of_ne hne, hbuf']⟩
  · intro p' x hx
    rw [hheap] at hx
    by_cases hpp : p' = p
    · subst hpp
      rw [Function.update_self] at hx
      obtain ⟨p'', hl, hx'⟩ := Option.map_eq_some_iff.mp hx
      cases hx'
      rw [Function.update_self, hl, hto p'' hl]
    · rw [Function.update_of_ne hpp] at hx
      have hold := h.owned p' x hx
      have hne : x._fd ≠ fd := by
        intro he
        rw [he] at hold
        exact hpp (hfrom p' hold)
      rw [Function.update_of_ne hne]
      exact hold

theorem Serves.fd_unique (h : Serves s life) {fd₁ fd₂ : Fd} {p : Ptr}
    (h₁ : (life fd₁).hdle = some p) (h₂ : (life fd₂).hdle = some p) : fd₁ = fd₂ := by
  obtain ⟨_, hb₁⟩ := h.handle fd₁ p h₁
  obtain ⟨_, hb₂⟩ := h.handle fd₂ p h₂
  cases hb₁.symm.trans hb₂
  rfl

end

/-! ### What the calls do to the lives -/

section
variable {s : Server} {life : Fd → Life T} {fd : Fd} {l : Life T}

theorem Serves.isOpen_same (h : Serves s life) (hl : l.isOpen = (life fd).isOpen) :
    s.isOpen = Function.update s.isOpen fd l.isOpen := by
  rw [hl, ← h.isOpen, Function.update_eq_self]

theorem Serves.input_same (h : Serves s life) (hl : l.input = (life fd).input) :
    s.input = Function.update s.input fd l.input := by
  rw [hl, ← h.input, Function.update_eq_self]

theorem Serves.entry_same (h : Serves s life) (hl : l.hdle = (life fd).hdle) :
    s.m_fd_set = Function.update s.m_fd_set fd l.hdle := by
  rw [hl, ← h.entry, Function.update_eq_self]

theorem Serves.accept (h : Serves s life) (hl : life fd = .free) (t : T) :
    Serves { s with isOpen := Function.update s.isOpen fd true }
      (Function.update life fd (.accepted t)) := by
  refine h.relabel rfl (h.input_same ?_) rfl rfl ?_ (fun he => absurd rfl he)
  · rw [hl]; rfl
  · rw [hl]; rfl

theorem Serves.refuse (h : Serves s life) {t : T} (hl : life fd = .accepted t) :
    Serves (s.close fd) (Function.update life fd .free) := by
  refine h.relabel rfl rfl rfl rfl ?_ (fun he => absurd rfl he)
  rw [hl]; rfl

theorem Serves.create (h : Serves s life) {t : T} (hl : life fd = .accepted t) {p : Ptr}
    (hfresh : s.heap p = none) (n : Int) :
    Serves (Server.createHandle { s with _now_connections := n } fd p)
      (Function.update life fd (.created t p)) := by
  have hentry : s.m_fd_set fd = none := by rw [h.entry, hl]; rfl
  have hserver : Server.createHandle { s with _now_connections := n } fd p =
      { s with
        _now_connections := n
        heap := Function.update s.heap p (some ⟨fd, 0, []⟩)
        m_fd_set := Function.update s.m_fd_set fd (some p) } := by
    simp only [Server.createHandle, Server.setHandle, Server.insertHandle, hentry]
  rw [hserver]
  refine @Serves.store T s _ life fd _ h p [] (h.isOpen_same ?_) (h.input_same ?_) rfl rfl ?_ ?_ ?_
  · rw [hl]; rfl
  · rw [hl]; rfl
  · rw [hl]
    intro p' hp
    cases hp
  · intro p' hp
    cases hp
    rfl
  · intro fd' hp
    obtain ⟨buf, hbuf⟩ := h.handle fd' p hp
    cases hfresh.symm.trans hbuf

/-- `add_input_fd` for a connection with a handle. -/
theorem Serves.register (h : Serves s life) {p : Ptr} (hopen : (life fd).isOpen = true)
    (hp : (life fd).hdle = some p) (href : (life fd).ref = 0) :
    Serves (s.addInputFd fd) (Function.update life fd (.waiting p)) := by
  rw [Server.addInputFd, if_pos ((h.isOpen fd).trans hopen)]
  exact h.relabel (h.isOpen_same hopen.symm) rfl rfl rfl hp.symm fun _ => href.symm

theorem Serves.register_gone (h : Serves s life) {t : T} (hl : life fd = .gone t) :
    Serves (s.addInputFd fd) (Function.update life fd .free) := by
  have hclosed : ¬ s.isOpen fd = true := by
    rw [h.isOpen, hl]
    exact Bool.false_ne_true
  rw [Server.addInputFd, if_neg hclosed]
  refine h.relabel (h.isOpen_same ?_) (h.input_same ?_) rfl rfl ?_ (fun he => absurd rfl he)
  · rw [hl]; rfl
  · rw [hl]; rfl
  · rw [hl]; rfl

theorem Serves.delInput (h : Serves s life) {t : T} {p : Ptr} (hl : life fd = .event t p) :
    Serves (s.delInputFd fd) (Function.update life fd (.receiving t p)) := by
  refine h.relabel (h.isOpen_same ?_) rfl rfl rfl ?_ fun _ => ?_
  · rw [hl]; rfl
  · rw [hl]; rfl
  · rw [hl]; rfl

/-- The handle of a life, and no other descriptor with it. -/
theorem Serves.sole (h : Serves s life) {p : Ptr} (hp : (life fd).hdle = some p) :
    (∀ p', (life fd).hdle = some p' → p' = p) ∧ ∀ fd', (life fd').hdle = some p → fd' = fd :=
  ⟨fun _ hp' => Option.some.inj (hp'.symm.trans hp), fun _ hp' => h.fd_unique hp' hp⟩

/-- Another count of a handle whose connection stays as it is. -/
theorem Serves.recount (h : Serves s life) {p : Ptr} (hp : (life fd).hdle = some p)
    (hhdle : l.hdle = some p) (buf : Bytes) (hopen : l.isOpen = (life fd).isOpen)
    (hinput : l.input = (life fd).input) :
    Serves (s.setHandle p ⟨fd, l.ref, buf⟩) (Function.update life fd l) := by
  obtain ⟨hsame, hother⟩ := h.sole hp
  refine @Serves.store T s _ life fd l h p buf (h.isOpen_same hopen) (h.input_same hinput)
    (h.entry_same (hhdle.trans hp.symm)) ?_ hsame ?_ hother
  · rw [hhdle]
    rfl
  · intro p' hp'
    exact Option.some.inj (hp'.symm.trans hhdle)

theorem Serves.getHandle (h : Serves s life) {t : T} {p : Ptr} (hl : life fd = .receiving t p) :
    ∃ s' effects, s.getHandle fd = some (some p, s', effects) ∧
      Serves s' (Function.update life fd (.serving t p)) := by
  have hp : (life fd).hdle = some p := by rw [hl]; rfl
  obtain ⟨buf, hbuf⟩ := h.handle fd p hp
  have hentry : s.m_fd_set fd = some p := (h.entry fd).trans hp
  refine ⟨s.setHandle p ⟨fd, 1, buf⟩, [.acquire], ?_, ?_⟩
  · simp [Server.getHandle, hentry, hbuf, SocketHandle.acquire, hl, Life.ref]
  · exact h.recount (l := .serving t p) hp rfl buf (by rw [hl]; rfl) (by rw [hl]; rfl)

/-- A release by the only holder that leaves the connection open. -/
theorem Serves.release_keep (h : Serves s life) {t : T} {p : Ptr} (hl : life fd = .serving t p) :
    ∃ s' effects, s.releaseHandle p false = some (s', effects) ∧
      Serves s' (Function.update life fd (.kept t p)) := by
  have hp : (life fd).hdle = some p := by rw [hl]; rfl
  obtain ⟨buf, hbuf⟩ := h.handle fd p hp
  refine ⟨s.setHandle p ⟨fd, 0, buf⟩, [.release], ?_, ?_⟩
  · simp [Server.releaseHandle, hbuf, SocketHandle.release, hl, Life.ref]
  · exact h.recount (l := .kept t p) hp rfl buf (by rw [hl]; rfl) (by rw [hl]; rfl)

/-- A release by the only holder that closes the connection. -/
theorem Serves.release_close (h : Serves s life) {t : T} {p : Ptr} (hl : life fd = .serving t p)
    (hopen : l.isOpen = false) (hinput : l.input = false) (hhdle : l.hdle = none) :
    ∃ s' effects, s.releaseHandle p true = some (s', effects) ∧
      Serves s' (Function.update life fd l) := by
  have hp : (life fd).hdle = some p := by rw [hl]; rfl
  obtain ⟨buf, hbuf⟩ := h.handle fd p hp
  have hzero : (SocketHandle.release ⟨fd, (life fd).ref, buf⟩)._ref = 0 := by rw [hl]; rfl
  simp only [Server.releaseHandle, hbuf, hzero, if_true, Option.bind_eq_bind, Option.bind_some]
  refine ⟨_, _, rfl, ?_⟩
  obtain ⟨hsame, hother⟩ := h.sole hp
  refine @Serves.store T s _ life fd l h p buf ?_ ?_ ?_ ?_ hsame ?_ hother
  · rw [hopen]; rfl
  · rw [hinput]
    exact Function.update_idem ..
  · rw [hhdle]; rfl
  · rw [hhdle]; rfl
  · rw [hhdle]
    intro p' hp'
    cases hp'

end

/-! ## The whole service -/

/-- The state of the service is what the lives of the descriptors say. -/
structure Lives (cfg : Config) (st : Service T) (life : Fd → Life T) : Prop where
  placed : Placed st.pc life
  serves : Serves st.server life
  locked : ∀ t, (st.pc t).locked = true → st.owner = some t
  nodup : st.ready.Nodup
  ready : ∀ fd ∈ st.ready, cfg.registered fd = true ∨ ∃ p, life fd = .waiting p
  own : ∀ fd, cfg.registered fd = true ↔ life fd = .own true

section
variable {cfg : Config} {st : Service T} {life : Fd → Life T}

theorem Lives.locked_unique (h : Lives cfg st life) {t t' : T} (ht : (st.pc t).locked = true)
    (ht' : (st.pc t').locked = true) : t' = t :=
  Option.some.inj ((h.locked t' ht').symm.trans (h.locked t ht))

theorem Lives.not_ready (h : Lives cfg st life) {fd : Fd} (hwait : ∀ p, life fd ≠ .waiting p)
    (hown : ∀ b, life fd ≠ .own b) : fd ∉ st.ready := by
  intro hin
  cases h.ready fd hin with
  | inl hreg => exact hown true ((h.own fd).mp hreg)
  | inr hw =>
    obtain ⟨p, hp⟩ := hw
    exact hwait p hp

/-- In such a state two workers never have one handle, and what is registered
is a connection with a live handle. -/
theorem Lives.safe (h : Lives cfg st life) : st.Safe cfg := by
  refine ⟨?_, ?_⟩
  · intro t₁ t₂ fd₁ fd₂ p h₁ h₂
    have hp₁ := h.placed.holds t₁ fd₁ (by rw [h₁]; rfl)
    have hp₂ := h.placed.holds t₂ fd₂ (by rw [h₂]; rfl)
    rw [h₁] at hp₁
    rw [h₂] at hp₂
    have hl : ∀ {fd t}, (life fd).place fd = some (t, .serving fd p) → life fd = .serving t p := by
      intro fd t hp
      cases hl : life fd <;> rw [hl] at hp <;> cases hp
      rfl
    have hl₁ := hl hp₁
    have hl₂ := hl hp₂
    have hfd := h.serves.fd_unique (by rw [hl₁]; rfl) (by rw [hl₂]; rfl : (life fd₂).hdle = some p)
    subst hfd
    cases hl₁.symm.trans hl₂
    rfl
  · intro fd hin hreg
    rw [h.serves.input] at hin
    have hptr : ∃ p, (life fd).hdle = some p := by
      cases hl : life fd with
      | own b =>
        rw [hl] at hin
        cases (show b = true from hin)
        rw [(h.own fd).mpr hl] at hreg
        cases hreg
      | waiting p => exact ⟨p, rfl⟩
      | event t p => exact ⟨p, rfl⟩
      | free | accepted t | created t p | receiving t p | serving t p | kept t p | gone t =>
        rw [hl] at hin
        cases hin
    obtain ⟨p, hp⟩ := hptr
    obtain ⟨buf, hbuf⟩ := h.serves.handle fd p hp
    exact ⟨p, _, (h.serves.entry fd).trans hp, hbuf, rfl⟩

/-- The life of the descriptor that a thread holds. -/
theorem Lives.place (h : Lives cfg st life) {t : T} {q : Pc} (hpc : st.pc t = q) {fd : Fd}
    (hq : q.fd = some fd) : (life fd).place fd = some (t, q) := by
  rw [← hpc]
  exact h.placed.holds t fd (hpc ▸ hq)

theorem Lives.epollWait (h : Lives cfg st life) {t : T} (hpc : st.pc t = .polling)
    {events : List Fd}
    (hnodup : events.Nodup) (hinput : ∀ fd ∈ events, st.server.input fd = true) :
    Lives cfg { st with ready := events } life := by
  refine ⟨h.placed, h.serves, h.locked, hnodup, ?_, h.own⟩
  intro fd hfd
  have hin := hinput fd hfd
  rw [h.serves.input] at hin
  cases hl : life fd with
  | own b =>
    rw [hl] at hin
    cases (show b = true from hin)
    exact .inl ((h.own fd).mpr hl)
  | waiting p => exact .inr ⟨p, rfl⟩
  | event t' p =>
    -- the thread that has taken the event holds the mutex, so it is `t`
    have hpc' := h.placed.held fd t' (.event fd) (by rw [hl]; rfl)
    have ht := h.locked_unique (by rw [hpc]; rfl) (by rw [hpc']; rfl : (st.pc t').locked = true)
    rw [ht, hpc] at hpc'
    cases hpc'
  | free | accepted t | created t p | receiving t p | serving t p | kept t p | gone t =>
    rw [hl] at hin
    cases hin

variable [DecidableEq T]

/-- What a step of `t` that ends at `q` does to the mutex: it keeps it, or
gives it up. -/
def Keeps (st : Service T) (t : T) (q : Pc) (owner : Option T) : Prop :=
  (owner = st.owner ∧ (q.locked = true → (st.pc t).locked = true)) ∨
    (owner = none ∧ (st.pc t).locked = true ∧ q.locked = false)

theorem Lives.keeps (h : Lives cfg st life) {t : T} {q : Pc} {owner : Option T}
    (hkeep : Keeps st t q owner) :
    ∀ t', (Function.update st.pc t q t').locked = true → owner = some t' := by
  intro t' hlocked
  by_cases ht : t' = t
  · subst ht
    rw [Function.update_self] at hlocked
    obtain ⟨he, hq⟩ | ⟨-, -, hq⟩ := hkeep
    · rw [he]
      exact h.locked t' (hq hlocked)
    · rw [hq] at hlocked
      cases hlocked
  · rw [Function.update_of_ne ht] at hlocked
    obtain ⟨he, -⟩ | ⟨-, ht', -⟩ := hkeep
    · rw [he]
      exact h.locked t' hlocked
    · exact absurd (h.locked_unique ht' hlocked) ht

/-- A step that changes the life of one connection. -/
theorem Lives.move (h : Lives cfg st life) {t : T} {fd : Fd} {q : Pc} {l : Life T}
    {server : Server} {ready : List Fd} {owner : Option T}
    (hold : ∀ t' q', (life fd).place fd = some (t', q') → t' = t)
    (hfrom : ∀ fd', (st.pc t).fd = some fd' → fd' = fd) (hto : ∀ fd', q.fd = some fd' → fd' = fd)
    (hplace : l.place fd = q.fd.map fun _ => (t, q))
    (hserves : Serves server (Function.update life fd l))
    (hown : ∀ b, life fd ≠ .own b) (hl : ∀ b, l ≠ .own b)
    (hready : ready.Sublist st.ready) (hnot : fd ∉ ready) (hkeep : Keeps st t q owner) :
    Lives cfg ⟨server, ready, owner, Function.update st.pc t q⟩ (Function.update life fd l) := by
  refine ⟨h.placed.move hold hfrom hto hplace, hserves, h.keeps hkeep, h.nodup.sublist hready,
    ?_, ?_⟩
  · intro fd' hin
    have hne : fd' ≠ fd := by
      intro he
      exact hnot (he ▸ hin)
    rw [Function.update_of_ne hne]
    exact h.ready fd' (hready.subset hin)
  · intro fd'
    by_cases he : fd' = fd
    · subst he
      rw [Function.update_self, h.own]
      exact ⟨fun ho => absurd ho (hown true), fun ho => absurd ho (hl true)⟩
    · rw [Function.update_of_ne he, h.own]

theorem Lives.walk (h : Lives cfg st life) {t : T} {q : Pc} {ready : List Fd} {owner : Option T}
    (hfrom : (st.pc t).fd = none) (hto : q.fd = none) (hready : ready.Sublist st.ready)
    (hkeep : Keeps st t q owner) :
    Lives cfg ⟨st.server, ready, owner, Function.update st.pc t q⟩ life :=
  ⟨h.placed.walk hfrom hto, h.serves, h.keeps hkeep, h.nodup.sublist hready,
    fun fd hin => h.ready fd (hready.subset hin), h.own⟩

/-! ## Steps -/

section
variable {t : T}

/-- The life of a descriptor that a thread holds changes with the thread. -/
theorem Lives.advance (h : Lives cfg st life) {fd : Fd} {q₀ q : Pc} {l : Life T} {server : Server}
    {owner : Option T} (hpc : st.pc t = q₀) (hq₀ : q₀.fd = some fd)
    (hto : q.fd = none ∨ q.fd = some fd) (hplace : l.place fd = q.fd.map fun _ => (t, q))
    (hserves : Serves server (Function.update life fd l)) (hl : ∀ b, l ≠ .own b)
    (hkeep : Keeps st t q owner) :
    Lives cfg ⟨server, st.ready, owner, Function.update st.pc t q⟩ (Function.update life fd l) := by
  have hp := h.place hpc hq₀
  have hown : ∀ b, life fd ≠ .own b := by
    intro b hb
    rw [hb] at hp
    cases hp
  have hwait : ∀ p, life fd ≠ .waiting p := by
    intro p hw
    rw [hw] at hp
    cases hp
  refine h.move ?_ ?_ ?_ hplace hserves hown hl (List.Sublist.refl _) (h.not_ready hwait hown) hkeep
  · intro t' q' hp'
    cases hp.symm.trans hp'
    rfl
  · intro fd' hfd'
    rw [hpc, hq₀] at hfd'
    exact (Option.some.inj hfd').symm
  · intro fd' hfd'
    cases hto with
    | inl hnone => rw [hnone] at hfd'; cases hfd'
    | inr hsome => rw [hsome] at hfd'; exact (Option.some.inj hfd').symm

theorem Lives.lock (h : Lives cfg st life) (hpc : st.pc t = .top) (hfree : st.owner = none) :
    Lives cfg ({ st with owner := some t }.goto t .polling) life := by
  refine ⟨h.placed.walk (by rw [hpc]; rfl) rfl, h.serves, ?_, h.nodup, h.ready, h.own⟩
  intro t' hlocked
  by_cases ht : t' = t
  · rw [ht]; rfl
  · have hlocked' : (Function.update st.pc t .polling t').locked = true := hlocked
    rw [Function.update_of_ne ht] at hlocked'
    rw [h.locked t' hlocked'] at hfree
    cases hfree

theorem Lives.take (h : Lives cfg st life) (hpc : st.pc t = .polling) {fd : Fd}
    (hlast : st.ready.getLast? = some fd) (hreg : cfg.registered fd = false) :
    ∃ life', Lives cfg ({ st with ready := st.ready.dropLast }.goto t (.event fd)) life' := by
  have hsplit : st.ready = st.ready.dropLast ++ [fd] :=
    (List.dropLast_append_getLast? fd hlast).symm
  have hin : fd ∈ st.ready := by rw [hsplit]; simp
  cases h.ready fd hin with
  | inl hr => rw [hreg] at hr; cases hr
  | inr hw =>
    obtain ⟨p, hl⟩ := hw
    refine ⟨Function.update life fd (.event t p), h.move ?_ ?_ ?_ rfl ?_ ?_ ?_ ?_ ?_ ?_⟩
    · intro t' q' hp
      rw [hl] at hp
      cases hp
    · rw [hpc]
      intro fd' hfd'
      cases hfd'
    · intro fd' hfd'
      exact (Option.some.inj hfd').symm
    · refine h.serves.relabel (h.serves.isOpen_same ?_) (h.serves.input_same ?_) rfl rfl ?_
        fun _ => ?_
      all_goals rw [hl]; rfl
    · rw [hl]
      intro b hb
      cases hb
    · intro b hb
      cases hb
    · exact List.dropLast_sublist _
    · intro hin'
      have hnd := h.nodup
      rw [hsplit] at hnd
      exact (List.nodup_append.mp hnd).2.2 fd hin' fd (List.mem_singleton_self fd) rfl
    · refine .inl ⟨rfl, fun _ => ?_⟩
      rw [hpc]
      rfl

/-- A closed number that no thread is to register again is accepted. -/
theorem Lives.accept (h : Lives cfg st life) (hpc : st.pc t = .accepting) {fd : Fd}
    (hclosed : st.server.isOpen fd = false) (hquiet : ∀ t, st.pc t ≠ .handled fd) :
    ∃ life', Lives cfg ({ st with
      server := { st.server with isOpen := Function.update st.server.isOpen fd true } }.goto t
        (.accepted fd)) life' := by
  have hl : life fd = .free := by
    rw [h.serves.isOpen] at hclosed
    cases hl : life fd with
    | free => rfl
    | gone t' => exact absurd (h.placed.held fd t' (.handled fd) (by rw [hl]; rfl)) (hquiet t')
    | own b | waiting p | accepted t | created t p | event t p | receiving t p | serving t p
      | kept t p =>
      rw [hl] at hclosed
      cases hclosed
  refine ⟨Function.update life fd (.accepted t), h.move ?_ ?_ ?_ rfl (h.serves.accept hl t) ?_ ?_
    (List.Sublist.refl _) (h.not_ready ?_ ?_) ?_⟩
  · intro t' q' hp
    rw [hl] at hp
    cases hp
  · rw [hpc]
    intro fd' hfd'
    cases hfd'
  · intro fd' hfd'
    exact (Option.some.inj hfd').symm
  · rw [hl]
    intro b hb
    cases hb
  · intro b hb
    cases hb
  · rw [hl]
    intro p hp
    cases hp
  · rw [hl]
    intro b hb
    cases hb
  · refine .inl ⟨rfl, fun _ => ?_⟩
    rw [hpc]
    rfl

/-- The mutex is given up, with no connection in hand. -/
theorem Lives.unlock (h : Lives cfg st life) (hfd : (st.pc t).fd = none)
    (hlocked : (st.pc t).locked = true) {ready : List Fd} (hready : ready.Sublist st.ready) :
    Lives cfg ({ st with ready }.unlock.goto t .top) life :=
  h.walk hfd rfl hready (.inr ⟨rfl, hlocked, rfl⟩)

/-- A connection for which there is no room is closed. -/
theorem Lives.refuse (h : Lives cfg st life) {fd : Fd} (hpc : st.pc t = .accepted fd) :
    ∃ life', Lives cfg ({ st with server := st.server.close fd }.goto t .accepting) life' := by
  have hl := Life.of_place (h.place hpc rfl)
  exact ⟨_, h.advance hpc rfl (.inl rfl) rfl (h.serves.refuse hl) (fun _ => nofun)
    (.inl ⟨rfl, fun _ => by rw [hpc]; rfl⟩)⟩

theorem Lives.create (h : Lives cfg st life) {fd : Fd} (hpc : st.pc t = .accepted fd) {p : Ptr}
    (hfresh : st.server.heap p = none) :
    ∃ life', Lives cfg ({ st with
      server := Server.createHandle
        { st.server with _now_connections := st.server._now_connections + 1 } fd p }.goto t
          (.created fd)) life' := by
  have hl := Life.of_place (h.place hpc rfl)
  exact ⟨_, h.advance hpc rfl (.inr rfl) rfl (h.serves.create hl hfresh _) (fun _ => nofun)
    (.inl ⟨rfl, fun _ => by rw [hpc]; rfl⟩)⟩

theorem Lives.addNew (h : Lives cfg st life) {fd : Fd} (hpc : st.pc t = .created fd) :
    ∃ life', Lives cfg ({ st with server := st.server.addInputFd fd }.goto t .accepting) life' := by
  obtain ⟨p, hl⟩ := Life.of_place (h.place hpc rfl)
  have hserves := @Serves.register T _ _ fd h.serves p (by rw [hl]; rfl) (by rw [hl]; rfl)
    (by rw [hl]; rfl)
  exact ⟨_, h.advance hpc rfl (.inl rfl) rfl hserves (fun _ => nofun)
    (.inl ⟨rfl, fun _ => by rw [hpc]; rfl⟩)⟩

/-- The connection leaves the epoll set before the mutex is given up. -/
theorem Lives.delInput (h : Lives cfg st life) {fd : Fd} (hpc : st.pc t = .event fd) :
    ∃ life', Lives cfg
      ({ st with server := st.server.delInputFd fd }.unlock.goto t (.receiving fd)) life' := by
  obtain ⟨p, hl⟩ := Life.of_place (h.place hpc rfl)
  exact ⟨_, h.advance hpc rfl (.inr rfl) rfl (h.serves.delInput hl) (fun _ => nofun)
    (.inr ⟨rfl, by rw [hpc]; rfl, rfl⟩)⟩

/-- The handle is there, so the assertion behind `get_handle` holds. -/
theorem Lives.getHandle (h : Lives cfg st life) {fd : Fd} (hpc : st.pc t = .receiving fd) :
    ∃ p server effects, st.server.getHandle fd = some (some p, server, effects) ∧
      ∃ life', Lives cfg ({ st with server }.goto t (.serving fd p)) life' := by
  obtain ⟨p, hl⟩ := Life.of_place (h.place hpc rfl)
  obtain ⟨s', effects, hget, hserves⟩ := h.serves.getHandle hl
  exact ⟨p, s', effects, hget,
    _, h.advance hpc rfl (.inr rfl) rfl hserves (fun _ => nofun) (.inl ⟨rfl, nofun⟩)⟩

/-- The request could not be read, and the connection is closed. -/
theorem Lives.fail (h : Lives cfg st life) {fd : Fd} {p : Ptr} (hpc : st.pc t = .serving fd p) :
    ∃ server effects, st.server.releaseHandle p true = some (server, effects) ∧
      ∃ life', Lives cfg ({ st with server }.goto t .top) life' := by
  have hl := Life.of_place (h.place hpc rfl)
  obtain ⟨s', effects, hrelease, hserves⟩ :=
    @Serves.release_close T _ _ fd .free h.serves t p hl rfl rfl rfl
  exact ⟨s', effects, hrelease,
    _, h.advance hpc rfl (.inl rfl) rfl hserves (fun _ => nofun) (.inl ⟨rfl, nofun⟩)⟩

/-- The request is answered; the connection is kept or closed. -/
theorem Lives.handle (h : Lives cfg st life) {fd : Fd} {p : Ptr} (hpc : st.pc t = .serving fd p)
    (keep_alive : Bool) :
    ∃ server effects, st.server.releaseHandle p (!keep_alive) = some (server, effects) ∧
      ∃ life', Lives cfg ({ st with server }.goto t (.handled fd)) life' := by
  have hl := Life.of_place (h.place hpc rfl)
  cases keep_alive with
  | true =>
    obtain ⟨s', effects, hrelease, hserves⟩ := h.serves.release_keep hl
    exact ⟨s', effects, hrelease,
      _, h.advance hpc rfl (.inr rfl) rfl hserves (fun _ => nofun) (.inl ⟨rfl, nofun⟩)⟩
  | false =>
    obtain ⟨s', effects, hrelease, hserves⟩ :=
      @Serves.release_close T _ _ fd (.gone t) h.serves t p hl rfl rfl rfl
    exact ⟨s', effects, hrelease,
      _, h.advance hpc rfl (.inr rfl) rfl hserves (fun _ => nofun) (.inl ⟨rfl, nofun⟩)⟩

/-- The number is registered again, also when its connection was closed. -/
theorem Lives.addBack (h : Lives cfg st life) {fd : Fd} (hpc : st.pc t = .handled fd) :
    ∃ life', Lives cfg ({ st with server := st.server.addInputFd fd }.goto t .top) life' := by
  have hkeep : Keeps st t .top st.owner := .inl ⟨rfl, nofun⟩
  cases Life.of_place (h.place hpc rfl) with
  | inl hkept =>
    obtain ⟨p, hl⟩ := hkept
    have hserves := @Serves.register T _ _ fd h.serves p (by rw [hl]; rfl) (by rw [hl]; rfl)
      (by rw [hl]; rfl)
    exact ⟨_, h.advance hpc rfl (.inl rfl) rfl hserves (fun _ => nofun) hkeep⟩
  | inr hl =>
    exact ⟨_, h.advance hpc rfl (.inl rfl) rfl (h.serves.register_gone hl) (fun _ => nofun) hkeep⟩

theorem Lives.step (h : Lives cfg st life) {a : Action} {st' : Service T}
    (hstep : st.step cfg t a = some st') (hquiet : st.Quiet a) : ∃ life', Lives cfg st' life' := by
  unfold Service.step at hstep
  split at hstep
  case h_1 hpc =>
    -- lock
    split at hstep
    · rename_i hfree
      cases hstep
      exact ⟨life, h.lock hpc hfree⟩
    · cases hstep
  case h_2 events hpc =>
    -- epollWait
    split at hstep
    · rename_i hevents
      cases hstep
      exact ⟨life, h.epollWait hpc hevents.2.2.1 (List.all_eq_true.mp hevents.2.2.2.2)⟩
    · cases hstep
  case h_3 hpc =>
    -- interrupted
    split at hstep
    · cases hstep
      exact ⟨life, h.unlock (by rw [hpc]; rfl) (by rw [hpc]; rfl) (List.Sublist.refl _)⟩
    · cases hstep
  case h_4 hpc =>
    -- take
    obtain ⟨fd, hlast, hrest⟩ := Option.bind_eq_some_iff.mp hstep
    split at hrest
    · cases hrest
      exact ⟨life, h.walk (by rw [hpc]; rfl) rfl (List.dropLast_sublist _)
        (.inl ⟨rfl, fun _ => by rw [hpc]; rfl⟩)⟩
    · split at hrest
      · cases hrest
        exact ⟨life, h.unlock (by rw [hpc]; rfl) (by rw [hpc]; rfl) (List.dropLast_sublist _)⟩
      · rename_i hlisten hpipe
        cases hrest
        exact h.take hpc hlast (by simp [Config.registered, hlisten, hpipe])
  case h_5 fd hpc =>
    -- accept
    split at hstep
    · rename_i hclosed
      cases hstep
      exact h.accept hpc hclosed hquiet
    · cases hstep
  case h_6 hpc =>
    -- acceptFails
    cases hstep
    exact ⟨life, h.unlock (by rw [hpc]; rfl) (by rw [hpc]; rfl) (List.Sublist.refl _)⟩
  case h_7 fd p hpc =>
    -- createHandle
    split at hstep
    · cases hstep
      exact h.refuse hpc
    · split at hstep
      · rename_i hfresh
        cases hstep
        exact h.create hpc hfresh
      · cases hstep
  case h_8 fd hpc =>
    -- addNew
    cases hstep
    exact h.addNew hpc
  case h_9 fd hpc =>
    -- delInput
    cases hstep
    exact h.delInput hpc
  case h_10 fd hpc =>
    -- getHandle
    obtain ⟨p, s', effects, hget, hlives⟩ := h.getHandle hpc
    rw [hget] at hstep
    cases hstep
    exact hlives
  case h_11 fd p hpc =>
    -- fail
    obtain ⟨s', effects, hrelease, hlives⟩ := h.fail hpc
    rw [hrelease] at hstep
    cases hstep
    exact hlives
  case h_12 fd p keep_alive hpc =>
    -- handle
    obtain ⟨s', effects, hrelease, hlives⟩ := h.handle hpc keep_alive
    rw [hrelease] at hstep
    cases hstep
    exact hlives
  case h_13 fd hpc =>
    -- addBack
    cases hstep
    exact h.addBack hpc
  case h_14 => cases hstep

end

end

/-! ## Runs -/

/-- Before the first step, only the descriptors of the process are open. -/
theorem lives_init (cfg : Config) : Lives cfg (@Service.init T cfg)
    fun fd => if cfg.isOpen fd then .own (cfg.registered fd) else .free := by
  have hopen : ∀ fd, cfg.registered fd = true → cfg.isOpen fd = true := by
    intro fd hreg
    rw [Config.registered, Bool.or_eq_true, beq_iff_eq, beq_iff_eq] at hreg
    cases hreg with
    | inl he => rw [he]; exact cfg.listen_open
    | inr he => rw [he]; exact cfg.pipe_open
  refine ⟨⟨?_, ?_⟩, ⟨?_, ?_, ?_, ?_, ?_⟩, ?_, List.nodup_nil, ?_, ?_⟩
  · intro fd t q hp
    split at hp <;> cases hp
  · intro t fd hfd
    cases hfd
  · intro fd
    show cfg.isOpen fd = _
    split
    · assumption
    · exact Bool.eq_false_iff.mpr ‹_›
  · intro fd
    show cfg.registered fd = _
    split
    · rfl
    · rename_i hclosed
      exact Bool.eq_false_iff.mpr fun hreg => hclosed (hopen fd hreg)
  · intro fd
    split <;> rfl
  · intro fd p hp
    split at hp <;> cases hp
  · intro p x hx
    cases hx
  · intro t hlocked
    cases hlocked
  · intro fd hin
    cases hin
  · intro fd
    split
    · constructor
      · intro hreg; rw [hreg]
      · intro he; exact Life.own.inj he
    · rename_i hclosed
      exact ⟨fun hreg => absurd (hopen fd hreg) hclosed, nofun⟩

variable [DecidableEq T]

theorem Lives.run {cfg : Config} : ∀ {steps : List (T × Action)} {st st' : Service T}
    {life : Fd → Life T}, Lives cfg st life → st.run cfg steps = some st' →
    st.QuietRun cfg steps → ∃ life', Lives cfg st' life'
  | [], st, st', life, h, hrun, _ => by
    cases hrun
    exact ⟨life, h⟩
  | (t, a) :: steps, st, st', life, h, hrun, hquiet => by
    obtain ⟨st₁, hstep, hrest⟩ := Option.bind_eq_some_iff.mp hrun
    obtain ⟨hq, hquiet⟩ := hquiet
    rw [hstep] at hquiet
    obtain ⟨life₁, h₁⟩ := h.step hstep hq
    exact h₁.run hrest hquiet

/-- **One worker for a connection.** In every state that quiet steps reach, no
handle has two workers and every registered connection has a live handle. -/
theorem run_safe (cfg : Config) (steps : List (T × Action)) (st : Service T)
    (hrun : (Service.init cfg).run cfg steps = some st)
    (hquiet : (Service.init cfg).QuietRun cfg steps) : st.Safe cfg := by
  obtain ⟨life, h⟩ := (lives_init cfg).run hrun hquiet
  exact h.safe

/-! ### Two threads and one number -/

/-- The listening socket is 3 and the pipe 4; 0 to 6 are open. -/
def sevenOpen : Config := ⟨fun fd => decide (fd < 7), 3, 4, rfl, rfl⟩

/-- Thread `t` takes a new connection 7 and gives it the handle `p`. -/
def takesNew (t : Bool) (p : Ptr) : List (Bool × Action) :=
  [(t, .lock), (t, .epollWait [3]), (t, .take), (t, .accept 7), (t, .createHandle p), (t, .addNew),
    (t, .acceptFails)]

/-- Thread `t` takes the event of 7 and becomes its worker. -/
def takesRequest (t : Bool) : List (Bool × Action) :=
  [(t, .lock), (t, .epollWait [7]), (t, .take), (t, .delInput), (t, .getHandle)]

instance (st : Service Bool) : ∀ a, Decidable (st.Quiet a)
  | .accept fd => decidable_of_iff (st.pc false ≠ .handled fd ∧ st.pc true ≠ .handled fd)
      (@Bool.forall_bool fun t => st.pc t ≠ .handled fd).symm
  | .lock | .epollWait _ | .interrupted | .take | .acceptFails | .createHandle _ | .addNew
  | .delInput | .getHandle | .fail | .handle _ | .addBack => .isTrue trivial

instance decidableQuietRun (cfg : Config) :
    ∀ (steps : List (Bool × Action)) (st : Service Bool), Decidable (st.QuietRun cfg steps)
  | [], _ => .isTrue trivial
  | (t, a) :: rest, st => @instDecidableAnd (st.Quiet a) _ inferInstance
      (match st.step cfg t a with
        | none => .isTrue trivial
        | some st => decidableQuietRun cfg rest st)

/-- A kept connection is served by one thread after the other. -/
theorem run_safe_kept : ∃ st, (@Service.init Bool sevenOpen).run sevenOpen
      (takesNew false 0 ++ takesRequest true ++ [(true, .handle true), (true, .addBack)] ++
        takesRequest false) = some st ∧ st.pc false = .serving 7 0 ∧ st.Safe sevenOpen := by
  have hpc : ((@Service.init Bool sevenOpen).run sevenOpen
      (takesNew false 0 ++ takesRequest true ++ [(true, .handle true), (true, .addBack)] ++
        takesRequest false)).map (·.pc false) = some (.serving 7 0) := by decide +kernel
  obtain ⟨st, hrun, hst⟩ := Option.map_eq_some_iff.mp hpc
  exact ⟨st, hrun, hst, run_safe sevenOpen _ st hrun (by decide +kernel)⟩

/-- The connection 7 is closed by its worker, the number goes to a new
connection, and then the first worker registers it again: while the new
connection has no handle yet, or while it is served already, so that a second
worker gets its handle. -/
theorem run_reused :
    (∃ st, (@Service.init Bool sevenOpen).run sevenOpen
        (takesNew false 0 ++ takesRequest false ++ [(false, .handle false)] ++
          takesNew true 1 ++ takesRequest true ++ [(false, .addBack)] ++ takesRequest false) =
      some st ∧ ¬ st.Safe sevenOpen) ∧
    ∃ st, (@Service.init Bool sevenOpen).run sevenOpen
        (takesNew false 0 ++ takesRequest false ++ [(false, .handle false)] ++
          (takesNew true 1).take 4 ++ [(false, .addBack)]) =
      some st ∧ ¬ st.Safe sevenOpen := by
  have htwo : ((@Service.init Bool sevenOpen).run sevenOpen
      (takesNew false 0 ++ takesRequest false ++ [(false, .handle false)] ++
        takesNew true 1 ++ takesRequest true ++ [(false, .addBack)] ++ takesRequest false)).map
      (fun st => (st.pc false, st.pc true)) = some (.serving 7 1, .serving 7 1) := by decide +kernel
  have hnone : ((@Service.init Bool sevenOpen).run sevenOpen
      (takesNew false 0 ++ takesRequest false ++ [(false, .handle false)] ++
        (takesNew true 1).take 4 ++ [(false, .addBack)])).map
      (fun st => (st.server.input 7, st.server.m_fd_set 7)) = some (true, none) := by decide +kernel
  obtain ⟨st, hrun, hst⟩ := Option.map_eq_some_iff.mp htwo
  obtain ⟨st', hrun', hst'⟩ := Option.map_eq_some_iff.mp hnone
  refine ⟨⟨st, hrun, fun hsafe => ?_⟩, st', hrun', fun hsafe => ?_⟩
  · cases hsafe.exclusive false true 7 7 1 (congrArg Prod.fst hst) (congrArg Prod.snd hst)
  · obtain ⟨p, h, hentry, -⟩ := hsafe.live 7 (congrArg Prod.fst hst') rfl
    cases hentry.symm.trans (congrArg Prod.snd hst')

end CommonTools.Http
