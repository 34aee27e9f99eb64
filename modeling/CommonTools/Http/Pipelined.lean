import CommonTools.Lib.Runs
import CommonTools.Http.RecvRequestSound

/-! # One connection between the network and its worker

Bytes arrive in segments at any time. While the descriptor is registered,
`epoll_wait` reports it when the socket has data; a worker then takes the
descriptor out, receives one request, handles it and registers the descriptor
again. What was read along with that request stays in the buffer of the handle,
where the socket does not know of it. -/
namespace CommonTools.Http
open CommonTools.Lib

/-! ## The steps -/

/-- Where a connection is: in `epoll`, in the ready events, or with a worker in
the loops of `read_http_header_timeout` and `readn_timeout`, in the handler, or
in front of `add_input_fd`. A closed connection has stopped, as has one whose
worker has no meaning. -/
inductive Stage where
  | registered
  | reported
  | header
  | content (header : Bytes) (info : RequestInfo) (got : Bytes)
  | handling (header : Bytes) (info : RequestInfo) (content : Bytes)
  | served
  | stopped
deriving DecidableEq

/-- `received` is all that has come from the network, `unread` the part of it
that is still in the socket. -/
structure Connection where
  unread : Bytes
  _read_buf : Bytes
  received : Bytes
  handled : List (Bytes × Bytes)
  stage : Stage
deriving DecidableEq

inductive NetAction where
  | arrive (segment : Bytes)
  | report
  | delInput
  | look
  | read (n : Nat)
  | timeout
  | handle
  | addInput
deriving DecidableEq

namespace Connection

/-- A new connection has been registered. -/
def init : Connection := ⟨[], [], [], [], .registered⟩

/-- The header is complete: `GetInfo`, and what `readn_timeout` finds in the
buffer. -/
def parse (c : Connection) (pos : Nat) : Connection :=
  let header := c._read_buf.take pos
  let _read_buf := c._read_buf.drop (pos + 4)
  match getInfo header with
  | .error _ => { c with stage := .stopped }
  | .ok info =>
    if info.content_len < 0 ∨ INT_MAX < info.content_len + 10 then { c with stage := .stopped }
    else
      let left := toInt32 (info.content_len - _read_buf.length)
      if left ≤ 0 then
        if info.content_len ≤ _read_buf.length then
          { c with
            _read_buf := _read_buf.drop info.content_len.toNat
            stage := .handling header info (_read_buf.take info.content_len.toNat) }
        else { c with stage := .stopped }
      else if (_read_buf.length : Int) ≤ info.content_len then
        { c with _read_buf := [], stage := .content header info _read_buf }
      else { c with stage := .stopped }

/-- A round of the loop of `read_http_header_timeout` that finds the end of the
header. -/
def look (c : Connection) : Option Connection :=
  let pos := findInt crlf2 c._read_buf
  if pos < 0 then none
  else if INT_MAX < pos + 4 then some { c with stage := .stopped }
  else some (c.parse pos.toNat)

/-- A `read` that gets `n` bytes. In the header they are appended as a C string. -/
def read (c : Connection) (n : Nat) : Option Connection :=
  match c.stage with
  | .header =>
    if findInt crlf2 c._read_buf < 0 ∧ 0 < n ∧ n ≤ min READ_BUF_SIZE c.unread.length then
      some { c with _read_buf := c._read_buf ++ cstr (c.unread.take n), unread := c.unread.drop n }
    else none
  | .content header info got =>
    let left := info.content_len.toNat - got.length
    if 0 < n ∧ n ≤ min (min left READ_BUF_SIZE) c.unread.length then
      let got := got ++ c.unread.take n
      some
        { c with
          unread := c.unread.drop n
          stage := if got.length = info.content_len then .handling header info got
            else .content header info got }
    else none
  | _ => none

/-- A `read` to which nothing comes in time; the worker closes the connection. -/
def timeout (c : Connection) : Option Connection :=
  match c.stage with
  | .header =>
    if findInt crlf2 c._read_buf < 0 ∧ c.unread = [] then some { c with stage := .stopped }
    else none
  | .content _ _ _ => if c.unread = [] then some { c with stage := .stopped } else none
  | _ => none

/-- The handler answers. Without a content the worker writes through a null
pointer first; it closes a connection that is not to be kept. -/
def handle (c : Connection) : Option Connection :=
  match c.stage with
  | .handling header info content =>
    if info.content_len = 0 then some { c with stage := .stopped }
    else
      some
        { c with
          handled := c.handled ++ [(header, content)]
          stage := if info.keep_alive then .served else .stopped }
  | _ => none

/-- One step; `none` when it cannot be taken. -/
def step (c : Connection) : NetAction → Option Connection
  | .arrive segment =>
    some { c with unread := c.unread ++ segment, received := c.received ++ segment }
  | .report =>
    -- edge-triggered: data that is still in the socket
    if c.stage = .registered ∧ c.unread ≠ [] then some { c with stage := .reported } else none
  | .delInput => if c.stage = .reported then some { c with stage := .header } else none
  | .look => if c.stage = .header then c.look else none
  | .read n => c.read n
  | .timeout => c.timeout
  | .handle => c.handle
  | .addInput => if c.stage = .served then some { c with stage := .registered } else none

/-- Registered again, with no worker and nothing left in the socket. -/
def Quiescent (c : Connection) : Prop := c.stage = .registered ∧ c.unread = []

end Connection

/-- How many of the requests are complete in what was received. -/
def complete : List Request → Bytes → Nat
  | [], _ => 0
  | r :: rs, received =>
    if r.wire.length ≤ received.length then complete rs (received.drop r.wire.length) + 1 else 0

/-! ## Requests one after the other -/

/-- Where one request begins no other does. -/
theorem Request.wire_unique {a b : Request} {s : Bytes} (ha : a.wire <+: s) (hb : b.wire <+: s) :
    a.header = b.header ∧ a.info = b.info ∧ a.content = b.content := by
  have hends : ∀ {r : Request}, r.wire <+: s → find crlf2 s = some r.header.length ∧
      s.take r.header.length = r.header ∧
      (s.drop (r.header.length + 4)).take r.content.length = r.content := by
    rintro r ⟨t, rfl⟩
    have hlen : (r.header ++ crlf2).length = r.header.length + 4 := List.length_append
    rw [Request.wire]
    refine ⟨?_, ?_, ?_⟩
    · rw [List.append_assoc]
      exact find_append r.ends _
    · rw [List.append_assoc, List.append_assoc, List.take_left]
    · rw [List.append_assoc, ← hlen, List.drop_left, List.take_left]
  obtain ⟨hfinda, hheada, hcona⟩ := hends ha
  obtain ⟨hfindb, hheadb, hconb⟩ := hends hb
  have hlen : a.header.length = b.header.length := Option.some.inj (hfinda.symm.trans hfindb)
  have hheader : a.header = b.header := by rw [← hheada, hlen, hheadb]
  have hinfo : a.info = b.info := by
    have hacc := a.accepted
    rw [hheader, b.accepted] at hacc
    exact (Except.ok.inj hacc).symm
  have hsize : a.content.length = b.content.length := by
    have hsa := a.sized
    have hsb := b.sized
    rw [hinfo] at hsa
    omega
  exact ⟨hheader, hinfo, by rw [← hcona, hlen, hsize, hconb]⟩

theorem Request.eq_of_wire {a b : Request} {s : Bytes} (ha : a.wire <+: s) (hb : b.wire <+: s) :
    a = b := by
  obtain ⟨hheader, hinfo, hcontent⟩ := Request.wire_unique ha hb
  cases a
  cases b
  cases hheader
  cases hinfo
  cases hcontent
  rfl

theorem Request.wire_ne_nil (r : Request) : r.wire ≠ [] := by
  simp [Request.wire, crlf2]

theorem stream_wire (r : Request) (rs : List Request) : stream (r :: rs) = r.wire ++ stream rs := by
  rw [stream, List.flatMap_cons]
  rfl

/-- The requests that stand in front of a stream are its first ones. -/
theorem stream_split : ∀ {hs rs : List Request} {t : Bytes}, stream hs ++ t <+: stream rs →
    ∃ rs', rs = hs ++ rs' ∧ t <+: stream rs'
  | [], rs, t, h => ⟨rs, rfl, h⟩
  | a :: hs, [], t, h => by
    rw [stream_wire, List.append_assoc] at h
    exact absurd (List.append_eq_nil_iff.mp (List.prefix_nil.mp h)).1 a.wire_ne_nil
  | a :: hs, r :: rs, t, h => by
    rw [stream_wire, List.append_assoc] at h
    have ha : a.wire <+: stream (r :: rs) := (List.prefix_append _ _).trans h
    have hr : r.wire <+: stream (r :: rs) := by
      rw [stream_wire]
      exact List.prefix_append _ _
    obtain rfl := Request.eq_of_wire ha hr
    rw [stream_wire, List.prefix_append_right_inj] at h
    obtain ⟨rs', rfl, ht⟩ := stream_split h
    exact ⟨rs', rfl, ht⟩

/-- Behind the requests that were taken off, what is left counts. -/
theorem complete_append (rs : List Request) (t : Bytes) :
    ∀ hs : List Request, complete (hs ++ rs) (stream hs ++ t) = hs.length + complete rs t
  | [] => (Nat.zero_add _).symm
  | a :: hs => by
    rw [List.cons_append, stream_wire, List.append_assoc, complete, if_pos, List.drop_left,
      complete_append rs t hs, List.length_cons]
    · omega
    · rw [List.length_append]
      exact Nat.le_add_right _ _

/-- No request is complete in a text that holds none from its start. -/
theorem complete_eq_zero_iff {rs : List Request} {t : Bytes} (h : t <+: stream rs) :
    complete rs t = 0 ↔ ∀ r : Request, ¬ r.wire <+: t := by
  cases rs with
  | nil =>
    rw [List.prefix_nil.mp h]
    exact ⟨fun _ r hr => r.wire_ne_nil (List.prefix_nil.mp hr), fun _ => rfl⟩
  | cons next rs =>
    have hnext : next.wire <+: stream (next :: rs) := by
      rw [stream_wire]
      exact List.prefix_append _ _
    rw [complete]
    constructor
    · intro hzero r hr
      obtain rfl := Request.eq_of_wire (hr.trans h) hnext
      rw [if_pos hr.length_le] at hzero
      cases hzero
    · intro hno
      rw [if_neg fun hle => hno next (List.prefix_of_prefix_length_le hnext h hle)]

end CommonTools.Http
