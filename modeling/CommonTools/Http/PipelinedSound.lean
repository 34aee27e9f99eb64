import CommonTools.Http.Pipelined

/-! # Which requests are left behind

No byte gets lost on the way through the socket, the buffer and the worker, as
long as no zero byte comes with a header. So a connection at rest has handled
every complete request except those that lie in its buffer, and these wait
until the socket has something new. A `recv_request` that goes on to the next
request is a run of these steps. -/
namespace CommonTools.Http
open CommonTools.Lib

namespace Connection

/-! ## No byte is lost -/

/-- What has been read and not been handled. -/
def inFlight (c : Connection) : Bytes :=
  match c.stage with
  | .content header _ got => header ++ crlf2 ++ got ++ c._read_buf
  | .handling header _ content => header ++ crlf2 ++ content ++ c._read_buf
  | _ => c._read_buf

/-- What a worker holds is the beginning of a request, or a whole one. -/
def Stage.Fits : Stage → Prop
  | .content header info got => find crlf2 (header ++ crlf2) = some header.length ∧
    getInfo header = .ok info ∧ (got.length : Int) < info.content_len
  | .handling header info content => find crlf2 (header ++ crlf2) = some header.length ∧
    getInfo header = .ok info ∧ info.content_len = content.length
  | _ => True

/-- The bytes received are those of the requests handled, those in flight and
those in the socket. -/
structure Conserved (c : Connection) : Prop where
  fits : Stage.Fits c.stage
  empty : ∀ {header info got}, c.stage = .content header info got → c._read_buf = []
  bytes : c.stage ≠ .stopped → ∃ hs : List Request, c.handled = hs.map Request.pair ∧
    c.received = stream hs ++ (c.inFlight ++ c.unread)

/-- A header is read without a zero byte. -/
def NoZero (c : Connection) (a : NetAction) : Prop :=
  ∀ n, a = .read n → c.stage = .header → NulFree (c.unread.take n)

theorem conserved_init : Conserved init :=
  ⟨trivial, (fun h => nomatch h), fun _ => ⟨[], rfl, rfl⟩⟩

/-- A closed connection has nothing to keep. -/
theorem conserved_stopped {c : Connection} (h : c.stage = .stopped) : Conserved c := by
  refine ⟨?_, fun hs => ?_, fun hne => absurd h hne⟩
  · rw [h]
    trivial
  · rw [h] at hs
    cases hs

/-- A worker that holds nothing leaves all that was read in the buffer. -/
def Stage.Idle (s : Stage) : Prop := s ∈ [.registered, .reported, .header, .served]

theorem inFlight_idle {c : Connection} (h : Stage.Idle c.stage) : c.inFlight = c._read_buf := by
  simp only [Stage.Idle, List.mem_cons, List.not_mem_nil, or_false] at h
  rcases h with h | h | h | h <;> rw [inFlight, h]

theorem conserved_idle {c : Connection} (h : Stage.Idle c.stage)
    (hbytes : ∃ hs : List Request, c.handled = hs.map Request.pair ∧
      c.received = stream hs ++ (c._read_buf ++ c.unread)) : Conserved c := by
  refine ⟨?_, fun hs => ?_, fun _ => ?_⟩
  · simp only [Stage.Idle, List.mem_cons, List.not_mem_nil, or_false] at h
    rcases h with h | h | h | h <;> rw [h] <;> trivial
  · rw [hs] at h
    simp [Stage.Idle] at h
  · rw [inFlight_idle h]
    exact hbytes

theorem Conserved.idle {c : Connection} (hc : Conserved c) (h : Stage.Idle c.stage) :
    ∃ hs : List Request, c.handled = hs.map Request.pair ∧
      c.received = stream hs ++ (c._read_buf ++ c.unread) := by
  have hbytes := hc.bytes fun hstop => by
    rw [hstop] at h
    simp [Stage.Idle] at h
  rwa [inFlight_idle h] at hbytes

/-- From one idle stage to another with the same bytes. -/
theorem Conserved.move {c : Connection} (hc : Conserved c) (h : Stage.Idle c.stage) {s : Stage}
    (hs : Stage.Idle s) : Conserved { c with stage := s } :=
  conserved_idle hs (hc.idle h)

/-! ## The end of a header -/

/-- What stands in the buffer when the end of a header is found there: that of
the next request. -/
theorem buffer_header {rs : List Request} (htext : ∀ r ∈ rs, r.Text) {buffer rest : Bytes}
    (h : buffer ++ rest <+: stream rs) (hpos : 0 ≤ findInt crlf2 buffer) :
    ∃ r ∈ rs, ∃ behind, findInt crlf2 buffer = r.header.length ∧
      buffer = r.header ++ crlf2 ++ behind := by
  rw [findInt] at hpos ⊢
  cases hfind : find crlf2 buffer with
  | none =>
    rw [hfind] at hpos
    exact absurd hpos (by decide)
  | some i =>
    have hle : i + 4 ≤ buffer.length := find_le hfind
    obtain ⟨t, ht⟩ := h
    cases rs with
    | nil =>
      have hlen := congrArg List.length ht
      simp only [List.length_append, stream, List.flatMap_nil, List.length_nil] at hlen
      omega
    | cons r rs =>
      obtain ⟨-, hint, -⟩ := htext r List.mem_cons_self
      rw [stream_cons] at ht
      -- the first empty line of the stream is that of its first request
      have hi : i = r.header.length := by
        have hall := find_append (find_append hfind rest) t
        rw [ht] at hall
        exact Option.some.inj (hall.symm.trans (find_append r.ends _))
      have hpre : r.header ++ crlf2 <+: buffer := by
        have hstream : r.header ++ crlf2 <+: buffer ++ rest ++ t := by
          rw [ht]
          exact List.prefix_append _ _
        rw [List.append_assoc] at hstream
        refine List.prefix_of_prefix_length_le hstream (List.prefix_append _ _) ?_
        rw [List.length_append, ← hi]
        exact hle
      obtain ⟨behind, hb⟩ := hpre
      refine ⟨r, List.mem_cons_self, behind, ?_, hb.symm⟩
      rw [hi]
      exact toInt32_natCast (by omega)

/-- What the worker does with a header that is complete. -/
theorem parse_cases (c : Connection) {r : Request} {behind : Bytes}
    (hbuf : c._read_buf = r.header ++ crlf2 ++ behind) :
    (c.parse r.header.length).stage = .stopped ∨
      (r.content.length ≤ behind.length ∧ c.parse r.header.length =
        { c with
          _read_buf := behind.drop r.content.length
          stage := .handling r.header r.info (behind.take r.content.length) }) ∨
      (behind.length < r.content.length ∧ c.parse r.header.length =
        { c with _read_buf := [], stage := .content r.header r.info behind }) := by
  have hlen : (r.header ++ crlf2).length = r.header.length + 4 := List.length_append
  have hhead : c._read_buf.take r.header.length = r.header := by
    rw [hbuf, List.append_assoc, List.take_left]
  have hbehind : c._read_buf.drop (r.header.length + 4) = behind := by
    rw [hbuf, ← hlen, List.drop_left]
  simp only [parse, hhead, hbehind, r.accepted, r.sized, Int.toNat_natCast]
  split
  · exact .inl rfl
  · split
    · split
      · rename_i hle
        exact .inr (.inl ⟨by omega, rfl⟩)
      · exact .inl rfl
    · rename_i hleft
      split
      · rename_i hle
        refine .inr (.inr ⟨?_, rfl⟩)
        by_contra hge
        have heq : behind.length = r.content.length := by omega
        rw [heq, Int.sub_self] at hleft
        exact hleft (by decide)
      · exact .inl rfl

/-- A worker in the middle of a request receives nothing and registers nothing. -/
def Busy (c c' : Connection) : Prop := c'.received = c.received ∧ c'.stage ≠ .registered

theorem parse_busy (c : Connection) (pos : Nat) : Busy c (c.parse pos) := by
  simp only [parse]
  split
  · exact ⟨rfl, Stage.noConfusion⟩
  · split
    · exact ⟨rfl, Stage.noConfusion⟩
    · split <;> split <;> exact ⟨rfl, Stage.noConfusion⟩

/-! ## Every step -/

section
variable {rs : List Request} {c c' : Connection}

theorem look_conserved (htext : ∀ r ∈ rs, r.Text) (hc : Conserved c)
    (hrs : c.received <+: stream rs) (hstage : c.stage = .header) (h : c.look = some c') :
    Conserved c' := by
  obtain ⟨hs, hhandled, hbytes⟩ := hc.idle (by rw [hstage]; simp [Stage.Idle])
  rw [hbytes] at hrs
  obtain ⟨rs', rfl, hrest⟩ := stream_split hrs
  rw [look] at h
  by_cases hpos : findInt crlf2 c._read_buf < 0
  · rw [if_pos hpos] at h
    cases h
  rw [if_neg hpos] at h
  obtain ⟨r, hr, behind, hfind, hbuf⟩ := buffer_header
    (fun r hr => htext r (List.mem_append_right hs hr)) hrest (by omega)
  by_cases hover : INT_MAX < findInt crlf2 c._read_buf + 4
  · rw [if_pos hover] at h
    obtain rfl := Option.some.inj h
    exact conserved_stopped rfl
  rw [if_neg hover, hfind, Int.toNat_natCast] at h
  obtain rfl := Option.some.inj h
  obtain hstop | ⟨hle, heq⟩ | ⟨hlt, heq⟩ := parse_cases c hbuf
  · exact conserved_stopped hstop
  · rw [heq]
    refine ⟨⟨r.ends, r.accepted, ?_⟩, (fun hno => nomatch hno), fun _ => ⟨hs, hhandled, ?_⟩⟩
    · rw [r.sized, List.length_take, Nat.min_eq_left hle]
    · rw [hbytes, hbuf]
      have hsplit := List.take_append_drop r.content.length behind
      simp only [inFlight, List.append_assoc]
      rw [← List.append_assoc (behind.take _), hsplit]
  · rw [heq]
    refine ⟨⟨r.ends, r.accepted, ?_⟩, fun _ => rfl, fun _ => ⟨hs, hhandled, ?_⟩⟩
    · rw [r.sized]
      omega
    · rw [hbytes, hbuf]
      simp only [inFlight, List.append_assoc, List.nil_append]

theorem read_conserved (hc : Conserved c) {n : Nat} (hz : NoZero c (.read n))
    (h : c.read n = some c') : Conserved c' := by
  rw [read] at h
  split at h
  · rename_i hstage
    obtain ⟨hs, hhandled, hbytes⟩ := hc.idle (by rw [hstage]; simp [Stage.Idle])
    split at h
    · obtain rfl := Option.some.inj h
      refine conserved_idle (by simp [Stage.Idle, hstage]) ⟨hs, hhandled, ?_⟩
      -- without a zero byte the whole block is appended
      rw [hbytes, cstr_eq_self (hz n rfl hstage), List.append_assoc, List.take_append_drop]
    · cases h
  · rename_i header info got hstage
    obtain ⟨hs, hhandled, hbytes⟩ := hc.bytes (by rw [hstage]; exact fun hno => nomatch hno)
    have hempty := hc.empty hstage
    obtain ⟨hends, hinfo, hshort⟩ : find crlf2 (header ++ crlf2) = some header.length ∧
        getInfo header = .ok info ∧ (got.length : Int) < info.content_len := by
      have hfits := hc.fits
      rwa [hstage] at hfits
    have hflight : c.inFlight = header ++ crlf2 ++ got := by
      rw [inFlight, hstage]
      dsimp only
      rw [hempty, List.append_nil]
    rw [hflight] at hbytes
    dsimp only at h
    split at h
    · rename_i hn
      obtain rfl := Option.some.inj h
      have hlen : (got ++ c.unread.take n).length = got.length + n := by
        rw [List.length_append, List.length_take]
        omega
      have hmoved : c.received = stream hs ++
          (header ++ crlf2 ++ (got ++ c.unread.take n) ++ c.unread.drop n) := by
        rw [hbytes]
        simp only [List.append_assoc, List.take_append_drop]
      by_cases hall : ((got ++ c.unread.take n).length : Int) = info.content_len
      · simp only [hall, if_true]
        refine ⟨⟨hends, hinfo, hall.symm⟩, (fun hno => nomatch hno), fun _ => ⟨hs, hhandled, ?_⟩⟩
        simp only [inFlight, hempty, List.append_nil]
        exact hmoved
      · simp only [hall, if_false]
        refine ⟨⟨hends, hinfo, by omega⟩, fun _ => hempty, fun _ => ⟨hs, hhandled, ?_⟩⟩
        simp only [inFlight, hempty, List.append_nil]
        exact hmoved
    · cases h
  · cases h

theorem handle_conserved (hc : Conserved c) (h : c.handle = some c') : Conserved c' := by
  rw [handle] at h
  split at h
  · rename_i header info content hstage
    obtain ⟨hs, hhandled, hbytes⟩ := hc.bytes (by rw [hstage]; exact fun hno => nomatch hno)
    obtain ⟨hends, hinfo, hsize⟩ : find crlf2 (header ++ crlf2) = some header.length ∧
        getInfo header = .ok info ∧ info.content_len = content.length := by
      have hfits := hc.fits
      rwa [hstage] at hfits
    split at h
    · obtain rfl := Option.some.inj h
      exact conserved_stopped rfl
    · obtain rfl := Option.some.inj h
      cases hkeep : info.keep_alive with
      | false => exact conserved_stopped rfl
      | true =>
        refine conserved_idle (by simp [Stage.Idle])
          ⟨hs ++ [⟨header, content, info, hends, hinfo, hsize⟩], ?_, ?_⟩
        · dsimp only
          rw [hhandled, List.map_append]
          rfl
        · rw [stream_append]
          simp only [hbytes, inFlight, hstage, stream, List.flatMap_cons, List.flatMap_nil,
            Request.wire, List.append_assoc, List.append_nil]
  · cases h

theorem timeout_stopped (h : c.timeout = some c') : c'.stage = .stopped ∧
    c'.received = c.received := by
  rw [timeout] at h
  split at h
  · split at h
    · obtain rfl := Option.some.inj h
      exact ⟨rfl, rfl⟩
    · cases h
  · split at h
    · obtain rfl := Option.some.inj h
      exact ⟨rfl, rfl⟩
    · cases h
  · cases h

/-- **No step loses a byte.** -/
theorem step_conserved (htext : ∀ r ∈ rs, r.Text) {a : NetAction} (hc : Conserved c)
    (hrs : c.received <+: stream rs) (hz : NoZero c a) (h : c.step a = some c') :
    Conserved c' := by
  cases a with
  | arrive segment =>
    obtain rfl := Option.some.inj h
    refine ⟨hc.fits, hc.empty, fun hne => ?_⟩
    obtain ⟨hs, hhandled, hbytes⟩ := hc.bytes hne
    refine ⟨hs, hhandled, ?_⟩
    have hsame : inFlight { c with
        unread := c.unread ++ segment, received := c.received ++ segment } = c.inFlight := rfl
    rw [hsame, hbytes]
    simp only [List.append_assoc]
  | report =>
    simp only [step] at h
    split at h
    · rename_i hreg
      obtain rfl := Option.some.inj h
      exact hc.move (by rw [hreg.1]; simp [Stage.Idle]) (by simp [Stage.Idle])
    · cases h
  | delInput =>
    simp only [step] at h
    split at h
    · rename_i hrep
      obtain rfl := Option.some.inj h
      exact hc.move (by rw [hrep]; simp [Stage.Idle]) (by simp [Stage.Idle])
    · cases h
  | look =>
    simp only [step] at h
    split at h
    · rename_i hstage
      exact look_conserved htext hc hrs hstage h
    · cases h
  | read n => exact read_conserved hc hz h
  | timeout => exact conserved_stopped (timeout_stopped h).1
  | handle => exact handle_conserved hc h
  | addInput =>
    simp only [step] at h
    split at h
    · rename_i hserved
      obtain rfl := Option.some.inj h
      exact hc.move (by rw [hserved]; simp [Stage.Idle]) (by simp [Stage.Idle])
    · cases h

theorem look_busy (h : c.look = some c') : Busy c c' := by
  rw [look] at h
  by_cases hpos : findInt crlf2 c._read_buf < 0
  · rw [if_pos hpos] at h
    cases h
  rw [if_neg hpos] at h
  split at h
  · obtain rfl := Option.some.inj h
    exact ⟨rfl, fun hno => nomatch hno⟩
  · obtain rfl := Option.some.inj h
    exact parse_busy c _

theorem read_busy {n : Nat} (h : c.read n = some c') : Busy c c' := by
  rw [read] at h
  split at h
  · rename_i hstage
    split at h
    · obtain rfl := Option.some.inj h
      exact ⟨rfl, fun hno => nomatch hstage.symm.trans hno⟩
    · cases h
  · dsimp only at h
    split at h
    · obtain rfl := Option.some.inj h
      refine ⟨rfl, ?_⟩
      dsimp only
      split <;> exact fun hno => nomatch hno
    · cases h
  · cases h

theorem handle_busy (h : c.handle = some c') : Busy c c' := by
  rw [handle] at h
  split at h
  · split at h
    · obtain rfl := Option.some.inj h
      exact ⟨rfl, fun hno => nomatch hno⟩
    · obtain rfl := Option.some.inj h
      refine ⟨rfl, ?_⟩
      dsimp only
      split <;> exact fun hno => nomatch hno
  · cases h

theorem timeout_busy (h : c.timeout = some c') : Busy c c' := by
  obtain ⟨hstage, hreceived⟩ := timeout_stopped h
  exact ⟨hreceived, fun hno => nomatch hstage.symm.trans hno⟩

/-- The steps of a worker between taking the descriptor out and putting it
back. -/
theorem step_busy {a : NetAction} (ha : a ∈ [.look, .timeout, .handle] ∨ ∃ n, a = .read n)
    (h : c.step a = some c') : Busy c c' := by
  simp only [List.mem_cons, List.not_mem_nil, or_false] at ha
  obtain (rfl | rfl | rfl) | ⟨n, rfl⟩ := ha
  · simp only [step] at h
    split at h
    · exact look_busy h
    · cases h
  · exact timeout_busy h
  · exact handle_busy h
  · exact read_busy h

theorem step_received {a : NetAction} (h : c.step a = some c') : c.received <+: c'.received := by
  cases a with
  | arrive segment =>
    obtain rfl := Option.some.inj h
    exact List.prefix_append _ _
  | report | delInput | addInput =>
    simp only [step] at h
    split at h
    · obtain rfl := Option.some.inj h
      exact List.prefix_rfl
    · cases h
  | look | timeout | handle => rw [(step_busy (.inl (by simp)) h).1]
  | read n => rw [(step_busy (.inr ⟨n, rfl⟩) h).1]

/-! ## `recv_request` in steps -/

/-- A block of a socket as a number of bytes. -/
theorem block_length (s : Socket) (len : Nat) :
    (s.read len).1 = s.unread.take (s.read len).1.length ∧
      (s.read len).2.unread = s.unread.drop (s.read len).1.length ∧
      (s.read len).1.length ≤ s.unread.length := by
  have happ := @Socket.read_append s len
  refine ⟨?_, ?_, ?_⟩
  · rw [← happ, List.take_left]
  · rw [← happ, List.drop_left]
  · rw [← happ, List.length_append]
    omega

theorem header_steps {received : Bytes} {handled : List (Bytes × Bytes)} :
    ∀ {rounds : Nat} {buffer header rest : Bytes} {s s₁ : Socket},
      readHeaderLoop rounds buffer s = .ok (header, rest, s₁) →
      ∃ (ns : List Nat) (whole : Bytes), (ns.map NetAction.read).foldlM step
          ⟨s.unread, buffer, received, handled, .header⟩ =
            some ⟨s₁.unread, whole, received, handled, .header⟩ ∧
        0 ≤ findInt crlf2 whole ∧ findInt crlf2 whole + 4 ≤ INT_MAX ∧
        header = whole.take (findInt crlf2 whole).toNat ∧
        rest = whole.drop (findInt crlf2 whole + 4).toNat := by
  intro rounds
  induction rounds with
  | zero =>
    intro _ _ _ _ _ h
    exact nomatch h
  | succ rounds ih =>
    intro buffer header rest s s₁ h
    rw [readHeaderLoop] at h
    by_cases hpos : 0 ≤ findInt crlf2 buffer
    · rw [if_pos hpos] at h
      by_cases hover : INT_MAX < findInt crlf2 buffer + 4
      · rw [if_pos hover] at h
        cases h
      · rw [if_neg hover] at h
        obtain ⟨hhead, htail⟩ := Prod.mk.inj (Except.ok.inj h)
        obtain ⟨hrest, hsock⟩ := Prod.mk.inj htail
        rw [← hsock]
        exact ⟨[], buffer, rfl, hpos, by omega, hhead.symm, hrest.symm⟩
    · rw [if_neg hpos] at h
      dsimp only at h
      by_cases hnil : (s.read READ_BUF_SIZE).1 = []
      · rw [if_pos hnil] at h
        cases h
      · rw [if_neg hnil] at h
        obtain ⟨ns, whole, hrun, hrest⟩ := ih h
        obtain ⟨htake, hdrop, hle⟩ := block_length s READ_BUF_SIZE
        have hsize := @Socket.read_length_le s READ_BUF_SIZE (by decide)
        have hlen := List.length_pos_iff.mpr hnil
        refine ⟨(s.read READ_BUF_SIZE).1.length :: ns, whole, ?_, hrest⟩
        refine foldlM_cons_some.mpr ⟨_, ?_, hrun⟩
        simp only [step, read]
        rw [if_pos ⟨by omega, hlen, by omega⟩, ← htake, ← hdrop]

/-- The steps that read a content from the socket. -/
theorem content_steps {header received : Bytes} {handled : List (Bytes × Bytes)}
    {info : RequestInfo} : ∀ {fuel left : Nat} {got : Bytes} {s : Socket}, left ≤ fuel → 0 < left →
      (got.length + left : Int) = info.content_len →
      (Socket.readLoop READ_BUF_SIZE fuel left s).1.length = left →
      ∃ ns : List Nat, (ns.map NetAction.read).foldlM step
          ⟨s.unread, [], received, handled, .content header info got⟩ =
        some ⟨(Socket.readLoop READ_BUF_SIZE fuel left s).2.unread, [], received, handled,
          .handling header info (got ++ (Socket.readLoop READ_BUF_SIZE fuel left s).1)⟩
  | 0, left, _, _, hle, hpos, _, _ => absurd hle (by omega)
  | fuel + 1, left, got, s, hle, hpos, hsize, hall => by
    rw [Socket.readLoop, if_neg (by omega)] at hall ⊢
    dsimp only at hall ⊢
    have hroom := @Socket.read_length_le s (min left READ_BUF_SIZE)
      (by have : 0 < READ_BUF_SIZE := by decide
          omega)
    obtain ⟨htake, hdrop, hblock⟩ := block_length s (min left READ_BUF_SIZE)
    generalize s.read (min left READ_BUF_SIZE) = block at hall htake hdrop hblock hroom ⊢
    by_cases hnil : block.1 = []
    · rw [if_pos hnil] at hall
      exact absurd hpos (by rw [← hall]; exact Nat.lt_irrefl 0)
    · rw [if_neg hnil] at hall ⊢
      have hlen := List.length_pos_iff.mpr hnil
      have hstep : step ⟨s.unread, [], received, handled, .content header info got⟩
          (.read block.1.length) =
            some ⟨block.2.unread, [], received, handled,
              if ((got ++ block.1).length : Int) = info.content_len then
                .handling header info (got ++ block.1)
              else .content header info (got ++ block.1)⟩ := by
        simp only [step, read]
        rw [if_pos ⟨hlen, by omega⟩, ← htake, ← hdrop]
      rw [List.length_append] at hall hstep
      by_cases hdone : block.1.length = left
      · -- this block is the last
        have hloop : ∀ t : Socket, Socket.readLoop READ_BUF_SIZE fuel 0 t = ([], t) := fun t => by
          cases fuel <;> rfl
        rw [if_pos (by omega)] at hstep
        refine ⟨[block.1.length], ?_⟩
        rw [hdone, Nat.sub_self, hloop, List.append_nil, ← hdone]
        exact foldlM_cons_some.mpr ⟨_, hstep, rfl⟩
      · rw [if_neg (by omega)] at hstep
        obtain ⟨ns, hrun⟩ := @content_steps header received handled info fuel
          (left - block.1.length) (got ++ block.1) block.2 (by omega) (by omega)
          (by rw [List.length_append]; omega) (by omega)
        refine ⟨block.1.length :: ns, foldlM_cons_some.mpr ⟨_, hstep, ?_⟩⟩
        rw [hrun, List.append_assoc]

/-- The steps behind a complete header: `GetInfo`, the content and the handler. -/
theorem parse_steps {whole received content buffer : Bytes}
    {handled : List (Bytes × Bytes)} {pos : Nat} {info : RequestInfo} {s sock : Socket}
    (hinfo : getInfo (whole.take pos) = .ok info)
    (hsize : ¬ (info.content_len < 0 ∨ INT_MAX < info.content_len + 10))
    (h : readnTimeout (whole.drop (pos + 4)) s info.content_len =
      .ok (info.content_len, content, buffer, sock)) :
    ∃ ns : List Nat, (ns.map NetAction.read).foldlM step
        (parse ⟨s.unread, whole, received, handled, .header⟩ pos) =
      some ⟨sock.unread, buffer, received, handled, .handling (whole.take pos) info content⟩ := by
  rw [parse, hinfo]
  dsimp only
  rw [if_neg hsize]
  rw [readnTimeout] at h
  dsimp only at h
  by_cases hleft : toInt32 (info.content_len - (whole.drop (pos + 4)).length) ≤ 0
  · rw [if_pos hleft] at h ⊢
    split at h
    · rename_i hfits
      simp only [Except.ok.injEq, Prod.mk.injEq, true_and] at h
      obtain ⟨rfl, rfl, rfl⟩ := h
      rw [if_pos hfits.2]
      exact ⟨[], rfl⟩
    · cases h
  · rw [if_neg hleft] at h ⊢
    split at h
    · rename_i hfits
      simp only [Except.ok.injEq, Prod.mk.injEq] at h
      obtain ⟨hgot, rfl, rfl, rfl⟩ := h
      have hexact : toInt32 (info.content_len - (whole.drop (pos + 4)).length) =
          info.content_len - (whole.drop (pos + 4)).length := by
        rw [← Int.toNat_of_nonneg (Int.sub_nonneg.mpr hfits)]
        exact toInt32_natCast (by omega)
      rw [if_pos hfits]
      rw [hexact] at hgot hleft ⊢
      exact content_steps (Nat.le_refl _) (by omega) (by omega) (by rw [Socket.readn] at hgot; omega)
    · cases h

/-- **A `recv_request` that ends in front of the next request is a run of these
steps.** -/
theorem recvRequest_steps {c : Connection} (hstage : c.stage = .header) {cuts : List Nat}
    {header content buffer : Bytes} {sock : Socket}
    (h : recvRequest c._read_buf ⟨c.unread, cuts⟩ = .next header content buffer sock) :
    ∃ events : List NetAction, events.foldlM step c = some
      ⟨sock.unread, buffer, c.received, c.handled ++ [(header, content)], .served⟩ := by
  obtain ⟨unread, buf, received, handled, stage⟩ := c
  cases hstage
  rw [recvRequest] at h
  split at h
  · cases h
  · rename_i head rest s₁ hread
    obtain ⟨ns, whole, hrun, hpos, hover, rfl, rfl⟩ :=
      @header_steps received handled _ _ _ _ _ _ hread
    have htoNat : (findInt crlf2 whole + 4).toNat = (findInt crlf2 whole).toNat + 4 := by omega
    rw [htoNat] at h
    split at h
    · cases h
    · rename_i info hinfo
      split at h
      · cases h
      · rename_i hsize
        split at h
        · cases h
        · rename_i ret got buffer' s₂ hcontent
          split at h
          · rename_i hret
            split at h
            · cases h
            · rename_i hkeep
              cases h
              rw [hret] at hcontent
              obtain ⟨ms, hbody⟩ := @parse_steps whole received content buffer handled
                _ info s₁ sock hinfo hsize hcontent
              refine ⟨ns.map .read ++ (.look :: (ms.map .read ++ [.handle])), ?_⟩
              refine foldlM_append_some.mpr ⟨_, hrun, foldlM_cons_some.mpr ⟨_, ?_,
                foldlM_append_some.mpr ⟨_, hbody, foldlM_cons_some.mpr ⟨_, ?_, rfl⟩⟩⟩⟩
              · simp only [step, if_true, look]
                rw [if_neg (by omega), if_neg (by omega)]
              · rw [not_or] at hkeep
                simp only [step, handle]
                rw [if_neg hkeep.1, if_pos (by simpa using hkeep.2)]
          · cases h

/-! ## Connections at rest -/

/-- A worker that registers the connection again with nothing in the socket
leaves no complete request in the buffer. -/
def NothingBehind (c : Connection) (a : NetAction) : Prop :=
  a = .addInput → c.unread = [] → ∀ r : Request, ¬ r.wire <+: c._read_buf

/-- At rest all complete requests have been handled but for what the buffer
holds. -/
theorem Conserved.quiescent_iff (hc : Conserved c) (hrs : c.received <+: stream rs)
    (hq : c.Quiescent) : c.handled.length = complete rs c.received ↔
      ∀ r : Request, ¬ r.wire <+: c._read_buf := by
  obtain ⟨hs, hhandled, hbytes⟩ := hc.idle (by rw [hq.1]; simp [Stage.Idle])
  rw [hq.2, List.append_nil] at hbytes
  rw [hbytes] at hrs ⊢
  obtain ⟨rs', rfl, hbuf⟩ := stream_split hrs
  rw [complete_append, hhandled, List.length_map, ← complete_eq_zero_iff hbuf]
  omega

/-- The connection has only come to rest with nothing left behind. -/
theorem step_rest {a : NetAction}
    (hrest : c.Quiescent → ∀ r : Request, ¬ r.wire <+: c._read_buf) (hb : NothingBehind c a)
    (h : c.step a = some c') : c'.Quiescent → ∀ r : Request, ¬ r.wire <+: c'._read_buf := by
  rintro ⟨hreg, hempty⟩
  cases a with
  | arrive segment =>
    obtain rfl := Option.some.inj h
    obtain ⟨hunread, -⟩ := List.append_eq_nil_iff.mp hempty
    exact hrest ⟨hreg, hunread⟩
  | report | delInput =>
    simp only [step] at h
    split at h
    · obtain rfl := Option.some.inj h
      cases hreg
    · cases h
  | look | timeout | handle => exact absurd hreg (step_busy (.inl (by simp)) h).2
  | read n => exact absurd hreg (step_busy (.inr ⟨n, rfl⟩) h).2
  | addInput =>
    simp only [step] at h
    split at h
    · obtain rfl := Option.some.inj h
      exact hb rfl hempty
    · cases h

end

section
variable {rs : List Request} {events : List NetAction} {c : Connection}

/-- What is known of every state that a run reaches. -/
theorem reached (htext : ∀ r ∈ rs, r.Text) (hrun : events.foldlM step init = some c)
    (hreceived : c.received <+: stream rs) (hplain : Throughout step NoZero init events)
    {before after : List NetAction} {q : Connection} (heq : events = before ++ after)
    (hq : before.foldlM step init = some q) : Conserved q ∧ q.received <+: stream rs := by
  subst heq
  obtain ⟨q', hq', hafter⟩ := foldlM_append_some.mp hrun
  obtain rfl : q' = q := Option.some.inj (hq'.symm.trans hq)
  have hgrows : q'.received <+: c.received :=
    @run_keeps _ _ step (fun s => q'.received <+: s.received) (fun _ _ => True)
      (fun hle _ h => hle.trans (step_received h)) after q' c List.prefix_rfl
      (fun _ _ _ _ _ _ => trivial) hafter
  have hrs := hgrows.trans hreceived
  have hconserved := @run_keeps _ _ step (fun s => s.received <+: stream rs → Conserved s) NoZero
    (fun hI hz h hle => step_conserved htext (hI ((step_received h).trans hle))
      ((step_received h).trans hle) hz h)
    before init q' (fun _ => conserved_init) hplain.before hq
  exact ⟨hconserved hrs, hrs⟩

/-- **When no request is left behind.** In a run that reads no zero byte with a
header, every state at rest has handled all complete requests exactly when no
worker leaves a complete request in the buffer of a connection that it registers
with an empty socket. -/
theorem handled_complete_iff (htext : ∀ r ∈ rs, r.Text)
    (hrun : events.foldlM step init = some c) (hreceived : c.received <+: stream rs)
    (hplain : Throughout step NoZero init events) :
    (∀ before after q, events = before ++ after → before.foldlM step init = some q →
      q.Quiescent → q.handled.length = complete rs q.received) ↔
      Throughout step NothingBehind init events := by
  constructor
  · intro hall before a after heq mid hmid ha hempty
    subst ha
    -- the state behind `add_input_fd` is at rest
    rw [heq] at hrun
    obtain ⟨mid', hmid', hrest⟩ := foldlM_append_some.mp hrun
    obtain rfl : mid' = mid := Option.some.inj (hmid'.symm.trans hmid)
    obtain ⟨q, hadd, -⟩ := foldlM_cons_some.mp hrest
    have hq : (before ++ [NetAction.addInput]).foldlM step init = some q :=
      foldlM_append_some.mpr ⟨mid', hmid, foldlM_cons_some.mpr ⟨q, hadd, rfl⟩⟩
    have hsplit : events = (before ++ [.addInput]) ++ after := by
      rw [heq, List.append_assoc]
      rfl
    rw [← heq] at hrun
    obtain ⟨hconserved, hrs⟩ := reached htext hrun hreceived hplain hsplit hq
    simp only [step] at hadd
    split at hadd
    · obtain rfl := Option.some.inj hadd
      have hquiet : Quiescent { mid' with stage := .registered } := ⟨rfl, hempty⟩
      exact (hconserved.quiescent_iff hrs hquiet).mp (hall _ _ _ hsplit hq hquiet)
    · cases hadd
  · intro hb before after q heq hq hquiet
    obtain ⟨hconserved, hrs⟩ := reached htext hrun hreceived hplain heq hq
    subst heq
    have hrest := @run_keeps _ _ step
      (fun s => s.Quiescent → ∀ r : Request, ¬ r.wire <+: s._read_buf) NothingBehind
      step_rest before init q (fun _ r hr => r.wire_ne_nil (List.prefix_nil.mp hr)) hb.before hq
    exact (hconserved.quiescent_iff hrs hquiet).mpr (hrest hquiet)

end

/-! ### Two requests in one segment -/

/-- Both are read with the first header; the second one waits in the buffer. -/
theorem handled_behind :
    (∀ r ∈ [postText, postText], r.Text) ∧
      ∃ c, [.arrive (stream [postText, postText]), .report, .delInput, .read 132, .look, .handle,
          .addInput].foldlM step init = some c ∧
        c.received <+: stream [postText, postText] ∧ c.Quiescent ∧
        ¬ c.handled.length = complete [postText, postText] c.received := by
  refine ⟨by decide +kernel, ?_⟩
  have hrun : ([.arrive (stream [postText, postText]), .report, .delInput, .read 132, .look,
      .handle, .addInput].foldlM step init).map (fun c => (c.stage, c.unread, c.handled.length,
        c.received)) = some (.registered, [], 1, stream [postText, postText]) := by
    decide +kernel
  obtain ⟨c, hc, hend⟩ := Option.map_eq_some_iff.mp hrun
  simp only [Prod.mk.injEq] at hend
  obtain ⟨hstage, hunread, hhandled, hreceived⟩ := hend
  refine ⟨c, hc, by rw [hreceived], ⟨hstage, hunread⟩, ?_⟩
  rw [hhandled, hreceived]
  decide +kernel

def twoSegments : List NetAction :=
  [.arrive postText.wire, .report, .delInput, .read 66, .look, .handle, .addInput,
    .arrive postText.wire, .report, .delInput, .read 66, .look, .handle, .addInput]

theorem handled_complete_iff_two :
    Throughout step NothingBehind init twoSegments ∧
      ∀ before after q, twoSegments = before ++ after → before.foldlM step init = some q →
        q.Quiescent → q.handled.length = complete [postText, postText] q.received := by
  have hrun : (twoSegments.foldlM step init).map Connection.received =
      some (stream [postText, postText]) := by decide +kernel
  obtain ⟨c, hc, hreceived⟩ := Option.map_eq_some_iff.mp hrun
  have hplain : Throughout step NoZero init twoSegments := by
    refine @throughout_of_check _ _ step (fun s _ => decide (NulFree s.unread)) _
      (fun s a h => ?_) _ _ (by decide +kernel)
    intro n _ _
    exact (of_decide_eq_true h).take n
  have hbehind : Throughout step NothingBehind init twoSegments := by
    refine @throughout_of_check _ _ step (fun s a => a ≠ .addInput || s._read_buf.isEmpty) _
      (fun s a h => ?_) _ _ (by decide +kernel)
    intro ha _ r hr
    simp only [ha, ne_eq, not_true_eq_false, decide_false, Bool.false_or, List.isEmpty_iff] at h
    rw [h] at hr
    exact r.wire_ne_nil (List.prefix_nil.mp hr)
  exact ⟨hbehind,
    (handled_complete_iff (by decide +kernel) hc (by rw [hreceived]) hplain).mpr hbehind⟩

end Connection

end CommonTools.Http
