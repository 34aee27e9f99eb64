import CommonTools.Http.RecvRequest

/-! # Requests and the network

A stream of requests is cut by the network as it likes. Bytes that come with a
header are appended to the buffer as a C string, so what stands behind a zero
byte in the block is lost. As long as no content has a zero byte where the block
of its header can reach, every way to cut the stream delivers the same
requests, and otherwise two ways differ. -/
namespace CommonTools.Http
open CommonTools.Lib

/-! ## The stream of the requests -/

/-- A request as a client writes it: the empty line comes first behind the
header, which the server accepts, and the content is as long as it says. -/
structure Request where
  header : Bytes
  content : Bytes
  info : RequestInfo
  ends : find crlf2 (header ++ crlf2) = some header.length
  accepted : getInfo header = .ok info
  sized : info.content_len = content.length

namespace Request

def wire (r : Request) : Bytes := r.header ++ crlf2 ++ r.content

def pair (r : Request) : Bytes × Bytes := (r.header, r.content)

/-- The connection is read on behind the request. -/
def GoesOn (r : Request) : Prop := r.info.content_len ≠ 0 ∧ r.info.keep_alive = true

instance (r : Request) : Decidable r.GoesOn := inferInstanceAs (Decidable (_ ∧ _))

/-- The header is text, and the sizes are within `int`. -/
def Text (r : Request) : Prop :=
  NulFree r.header ∧ (r.header.length : Int) + 4 ≤ INT_MAX ∧ (r.content.length : Int) + 10 ≤ INT_MAX

/-- No zero byte in what one block can bring along with the end of the header. -/
def Plain (r : Request) : Prop := NulFree (r.content.take (READ_BUF_SIZE - 1))

instance (r : Request) : Decidable r.Text := inferInstanceAs (Decidable (_ ∧ _ ∧ _))

instance (r : Request) : Decidable r.Plain := inferInstanceAs (Decidable (NulFree _))

end Request

def stream (rs : List Request) : Bytes := rs.flatMap Request.wire

/-- The requests up to the one that ends the connection. -/
def served : List Request → List Request
  | [] => []
  | r :: rs => if r.GoesOn then r :: served rs else [r]

theorem stream_cons (r : Request) (rs : List Request) :
    stream (r :: rs) = r.header ++ crlf2 ++ (r.content ++ stream rs) := by
  rw [stream, List.flatMap_cons, Request.wire, List.append_assoc]
  rfl

theorem served_cons (r : Request) (rs : List Request) :
    served (r :: rs) = r :: if r.GoesOn then served rs else [] := by
  rw [served]
  split <;> rfl

theorem header_ne_nil (r : Request) : r.header ≠ [] := by
  intro h
  have hacc := r.accepted
  have hnil : getInfo [] = .error (.returns (-1)) := by decide
  rw [h, hnil] at hacc
  cases hacc

theorem nulFree_content_take {r : Request} {rest : Bytes} {n : Nat} (hr : r.Plain)
    (hn : n < READ_BUF_SIZE) (hrest : ∀ k < READ_BUF_SIZE, NulFree (rest.take k)) :
    NulFree ((r.content ++ rest).take n) := by
  rw [List.take_append]
  refine nulFree_append.mpr ⟨?_, hrest _ (Nat.lt_of_le_of_lt (Nat.sub_le ..) hn)⟩
  have hle : n ≤ READ_BUF_SIZE - 1 := by omega
  rw [← Nat.min_eq_left hle, ← List.take_take]
  exact NulFree.take hr n

/-- What follows a header can lose nothing to the block that brings its end. -/
theorem nulFree_stream_take : ∀ {rs : List Request}, (∀ r ∈ rs, r.Text ∧ r.Plain) →
    ∀ n < READ_BUF_SIZE, NulFree ((stream rs).take n) := by
  intro rs
  induction rs with
  | nil =>
    intro _ n _
    rw [stream, List.flatMap_nil, List.take_nil]
    exact NulFree.nil
  | cons r rs ih =>
    intro h n hn
    obtain ⟨⟨hheader, -⟩, hplain⟩ := h r List.mem_cons_self
    have htail := ih fun r hr => h r (List.mem_cons_of_mem _ hr)
    have htext : NulFree (r.header ++ crlf2) := nulFree_append.mpr ⟨hheader, nulFree_crlf2⟩
    rw [stream_cons, List.take_append]
    refine nulFree_append.mpr ⟨htext.take n, ?_⟩
    exact nulFree_content_take hplain (Nat.lt_of_le_of_lt (Nat.sub_le ..) hn) htail

/-! ## One header -/

/-- A block behind the buffer is appended as a C string. Where the bytes that
are still wanted have no zero, they are all kept. -/
theorem keep_wanted {buffer block unread wanted junk : Bytes}
    (h : buffer ++ (block ++ unread) = wanted ++ junk) (hle : buffer.length ≤ wanted.length)
    (hnul : NulFree (block.take (wanted.length - buffer.length))) :
    ∃ junk', buffer ++ (cstr block ++ unread) = wanted ++ junk' ∧ junk'.length ≤ junk.length := by
  have hblock := List.take_append_drop (wanted.length - buffer.length) block
  have hkept : cstr block = block.take (wanted.length - buffer.length) ++
      cstr (block.drop (wanted.length - buffer.length)) := by
    rw [← cstr_append_of_nulFree hnul, hblock]
  by_cases hall : block.length ≤ wanted.length - buffer.length
  · refine ⟨junk, ?_, Nat.le_refl _⟩
    rw [List.take_of_length_le hall] at hnul
    rw [cstr_eq_self hnul, h]
  · have hwanted : buffer ++ block.take (wanted.length - buffer.length) = wanted := by
      have htake := congrArg (List.take wanted.length) h
      rw [List.take_append_of_le_length (Nat.le_refl wanted.length), List.take_length,
        List.take_append, List.take_of_length_le hle,
        List.take_append_of_le_length (by omega)] at htake
      exact htake
    refine ⟨cstr (block.drop (wanted.length - buffer.length)) ++ unread, ?_, ?_⟩
    · rw [hkept, ← List.append_assoc, ← List.append_assoc, hwanted, List.append_assoc]
    · have hlen := congrArg List.length h
      have hc := (List.takeWhile_prefix (l := block.drop (wanted.length - buffer.length))
        (· != 0)).length_le
      change (cstr _).length ≤ _ at hc
      rw [List.length_drop] at hc
      simp only [List.length_append] at hlen ⊢
      omega

section
variable {header content rest wanted junk buffer : Bytes} {s : Socket}

/-- The end of the header is in the buffer. -/
theorem readHeaderLoop_found (hends : find crlf2 (header ++ crlf2) = some header.length)
    (hint : (header.length : Int) + 4 ≤ INT_MAX) (rounds : Nat) :
    readHeaderLoop (rounds + 1) (header ++ crlf2 ++ rest) s = .ok (header, rest, s) := by
  have hpos : toInt32 header.length = header.length := toInt32_natCast (by omega)
  have hdrop : (((header.length : Int) + 4).toNat) = (header ++ crlf2).length := by
    rw [List.length_append]
    exact Int.toNat_natCast (header.length + 4)
  rw [readHeaderLoop, findInt, find_append hends rest]
  simp only [hpos, Int.natCast_nonneg, if_true, if_neg (Int.not_lt.mpr hint), Int.toNat_natCast,
    hdrop, List.drop_left]
  rw [List.append_assoc, List.take_left]

/-- The end of the header is still to come. -/
theorem readHeaderLoop_more (hnone : find crlf2 buffer = none)
    (hread : (s.read READ_BUF_SIZE).1 ≠ []) (rounds : Nat) :
    readHeaderLoop (rounds + 1) buffer s =
      readHeaderLoop rounds (buffer ++ cstr (s.read READ_BUF_SIZE).1) (s.read READ_BUF_SIZE).2 := by
  rw [readHeaderLoop, findInt, hnone]
  simp only [Int.reduceNeg, Int.reduceLE, if_false, hread]

/-- One header, with `wanted` behind it kept whatever the blocks are. -/
theorem readHeaderLoop_spec (hends : find crlf2 (header ++ crlf2) = some header.length)
    (hint : (header.length : Int) + 4 ≤ INT_MAX) (hheader : NulFree header)
    (hwanted : NulFree (wanted.take (READ_BUF_SIZE - 1))) :
    ∀ (rounds : Nat) (buffer junk : Bytes) (s : Socket), s.unread.length < rounds →
      buffer.length < header.length + 4 + READ_BUF_SIZE →
      buffer ++ s.unread = header ++ crlf2 ++ wanted ++ junk →
      ∃ buffer' junk' s', readHeaderLoop rounds buffer s = .ok (header, buffer', s') ∧
        buffer' ++ s'.unread = wanted ++ junk' ∧ buffer'.length < READ_BUF_SIZE ∧
        junk'.length ≤ junk.length := by
  intro rounds
  induction rounds with
  | zero =>
    intro _ _ _ hrounds _ _
    exact absurd hrounds (Nat.not_lt_zero _)
  | succ rounds ih =>
    intro buffer junk s hrounds hlen h
    have hall : find crlf2 (buffer ++ s.unread) = some header.length := by
      rw [h, List.append_assoc]
      exact find_append hends _
    have hhead : (header ++ crlf2).length = header.length + 4 := List.length_append
    cases hfind : find crlf2 buffer with
    | some i =>
      have hi : i = header.length := Option.some.inj ((find_append hfind s.unread).symm.trans hall)
      have hle : i + 4 ≤ buffer.length := find_le hfind
      obtain ⟨buffer', hb⟩ : header ++ crlf2 <+: buffer := by
        refine List.prefix_of_prefix_length_le ?_ (List.prefix_append buffer s.unread) (by omega)
        rw [h, List.append_assoc]
        exact List.prefix_append _ _
      simp only [← hb, List.append_assoc, List.append_cancel_left_eq] at h
      have hb' := congrArg List.length hb
      rw [List.length_append] at hb'
      refine ⟨buffer', junk, s, ?_, h, by omega, Nat.le_refl _⟩
      rw [← hb]
      exact readHeaderLoop_found hends hint rounds
    | none =>
      have hlt : buffer.length < header.length + 4 := lt_of_find_none hall hfind
      have hunread : s.unread ≠ [] := by
        intro hnil
        have hl := congrArg List.length h
        simp only [hnil, List.append_nil, List.length_append] at hl hhead
        omega
      have hread := @Socket.read_ne_nil s READ_BUF_SIZE (by decide) hunread
      have hsize := @Socket.read_length_le s READ_BUF_SIZE (by decide)
      have hsplit := @Socket.read_append s READ_BUF_SIZE
      rw [readHeaderLoop_more hfind hread]
      generalize s.read READ_BUF_SIZE = block at hread hsize hsplit
      have hpos : 0 < block.1.length := List.length_pos_iff.mpr hread
      -- the block starts in front of the end of the header
      have hnul : NulFree (block.1.take ((header ++ crlf2 ++ wanted).length - buffer.length)) := by
        have hdrop : block.1 ++ block.2.unread =
            (header ++ crlf2).drop buffer.length ++ wanted ++ junk := by
          have hd := congrArg (List.drop buffer.length) h
          rw [List.drop_left, ← hsplit, List.drop_append_of_le_length (by
            rw [List.length_append]; omega), List.drop_append_of_le_length (by omega)] at hd
          exact hd
        have hpre : block.1.take ((header ++ crlf2 ++ wanted).length - buffer.length) <+:
            (header ++ crlf2).drop buffer.length ++ wanted.take (READ_BUF_SIZE - 1) := by
          refine List.prefix_of_prefix_length_le ((List.take_prefix _ _).trans
            ⟨block.2.unread, hdrop⟩) ?_ ?_
          · rw [List.append_assoc, List.prefix_append_right_inj]
            exact (List.take_prefix _ _).trans (List.prefix_append _ _)
          · simp only [List.length_take, List.length_append, List.length_drop] at hhead ⊢
            omega
        have htext : NulFree ((header ++ crlf2).drop buffer.length ++
            wanted.take (READ_BUF_SIZE - 1)) :=
          nulFree_append.mpr
            ⟨(nulFree_append.mpr ⟨hheader, nulFree_crlf2⟩).drop _, hwanted⟩
        exact fun b hb => htext b (hpre.subset hb)
      rw [← hsplit] at h
      obtain ⟨junk₁, h₁, hjunk₁⟩ := keep_wanted h (by rw [List.length_append]; omega) hnul
      have hcstr : (cstr block.1).length ≤ block.1.length :=
        (List.takeWhile_prefix (· != 0)).length_le
      have hl := congrArg List.length hsplit
      rw [List.length_append] at hl
      obtain ⟨buffer', junk', s', hok, hb, hbl, hj⟩ :=
        ih (buffer ++ cstr block.1) junk₁ block.2 (by omega)
        (by rw [List.length_append]; omega) (by rw [List.append_assoc, h₁])
      exact ⟨buffer', junk', s', hok, hb, hbl, Nat.le_trans hj hjunk₁⟩

/-! ## One request -/

/-- Within `int`, the content is cut from the buffer, or completed from the stream. -/
theorem readnTimeout_eq {n : Nat} (hint : (n : Int) + 10 ≤ INT_MAX)
    (hlen : buffer.length < READ_BUF_SIZE) :
    readnTimeout buffer s n =
      if n ≤ buffer.length then .ok (n, buffer.take n, buffer.drop n, s)
      else
        let (got, s) := s.readn READ_BUF_SIZE (n - buffer.length)
        .ok (buffer.length + got.length, buffer ++ got, [], s) := by
  have hleft : toInt32 ((n : Int) - buffer.length) = n - buffer.length := by
    unfold INT_MAX at hint
    unfold READ_BUF_SIZE at hlen
    rw [toInt32, Int.bmod_eq_of_le] <;> omega
  unfold readnTimeout
  simp only [hleft]
  by_cases hle : n ≤ buffer.length
  · rw [if_pos (by omega), if_pos ⟨by omega, by omega⟩, if_pos hle, Int.toNat_natCast]
  · have hn : ((n : Int) - buffer.length).toNat = n - buffer.length := by omega
    rw [if_neg (by omega), if_pos (by omega), if_neg hle, hn]
    simp only [Except.ok.injEq, Prod.mk.injEq, and_true]
    omega

theorem readnTimeout_spec (hint : (content.length : Int) + 10 ≤ INT_MAX)
    (hlen : buffer.length < READ_BUF_SIZE) (h : buffer ++ s.unread = content ++ rest) :
    ∃ buffer' s',
      readnTimeout buffer s content.length = .ok (content.length, content, buffer', s') ∧
      buffer' ++ s'.unread = rest ∧ buffer'.length < READ_BUF_SIZE := by
  rw [readnTimeout_eq hint hlen]
  by_cases hle : content.length ≤ buffer.length
  · obtain ⟨buffer', hb⟩ := List.prefix_of_prefix_length_le ⟨rest, h.symm⟩
      (List.prefix_append buffer s.unread) hle
    rw [if_pos hle, ← hb, List.take_left, List.drop_left]
    rw [← hb, List.append_assoc, List.append_cancel_left_eq] at h
    refine ⟨buffer', s, rfl, h, ?_⟩
    rw [← hb, List.length_append] at hlen
    omega
  · obtain ⟨got, hgot⟩ := List.prefix_of_prefix_length_le (List.prefix_append buffer s.unread)
      ⟨rest, h.symm⟩ (by omega)
    obtain ⟨hread, hrest⟩ := Socket.readn_spec (by decide : 0 < READ_BUF_SIZE) got.length s
    rw [← hgot, List.append_assoc, List.append_cancel_left_eq] at h
    rw [h, List.take_left] at hread
    rw [h, List.drop_left] at hrest
    rw [if_neg hle, ← hgot, List.length_append, Nat.add_sub_cancel_left]
    refine ⟨[], (s.readn READ_BUF_SIZE got.length).2, ?_, hrest, by decide⟩
    simp only [hread, Int.natCast_add]

end

section
variable {r : Request} {buffer buffer₁ buffer' rest junk : Bytes} {s s₁ s' : Socket}

theorem recvRequest_of (hr : r.Text)
    (hheader : readHttpHeaderTimeout buffer s = .ok (r.header, buffer₁, s₁))
    (hcontent : readnTimeout buffer₁ s₁ r.content.length =
      .ok (r.content.length, r.content, buffer', s')) :
    recvRequest buffer s =
      if r.GoesOn then .next r.header r.content buffer' s' else .last r.header r.content := by
  obtain ⟨-, -, hint⟩ := hr
  rw [recvRequest, hheader]
  simp only [r.accepted, r.sized, hcontent]
  rw [if_neg (by omega)]
  simp only [if_true, Request.GoesOn, r.sized]
  by_cases hz : (r.content.length : Int) = 0
  · rw [if_pos (Or.inl hz), if_neg fun h => h.1 hz]
  · cases r.info.keep_alive with
    | false => simp
    | true =>
      rw [if_neg fun h => h.elim hz Bool.true_eq_false.mp, if_pos ⟨hz, rfl⟩]

/-- A request is received as it was sent, however the network cuts it. -/
theorem recvRequest_spec (hr : r.Text)
    (hplain : NulFree ((r.content ++ rest).take (READ_BUF_SIZE - 1)))
    (hlen : buffer.length < READ_BUF_SIZE) (h : buffer ++ s.unread = r.wire ++ rest ++ junk) :
    ∃ buffer' junk' s', recvRequest buffer s =
        (if r.GoesOn then .next r.header r.content buffer' s' else .last r.header r.content) ∧
      buffer' ++ s'.unread = rest ++ junk' ∧ buffer'.length < READ_BUF_SIZE ∧
      junk'.length ≤ junk.length := by
  rw [Request.wire, @List.append_assoc _ _ r.content] at h
  obtain ⟨buffer₁, junk₁, s₁, hheader, h₁, hlen₁, hjunk⟩ := readHeaderLoop_spec r.ends hr.2.1 hr.1
    hplain (s.unread.length + 1) buffer junk s (Nat.lt_succ_self _) (by omega) h
  rw [List.append_assoc] at h₁
  obtain ⟨buffer', s', hcontent, h', hlen'⟩ := readnTimeout_spec hr.2.2 hlen₁ h₁
  exact ⟨buffer', junk₁, s', recvRequest_of hr hheader hcontent, h', hlen', hjunk⟩

end

/-! ## The requests of a connection -/

theorem deliver_nil : ∀ (rounds : Nat) (cuts : List Nat), deliver rounds [] ⟨[], cuts⟩ = []
  | 0, _ => rfl
  | rounds + 1, cuts => by
    have hread : (Socket.read ⟨[], cuts⟩ READ_BUF_SIZE).1 = [] := Socket.read_nil rfl
    have hnone : find crlf2 [] = none := by decide
    rw [deliver, recvRequest, readHttpHeaderTimeout, readHeaderLoop, findInt, hnone]
    simp only [hread, if_true, Int.reduceNeg, Int.reduceLE, if_false]

/-- The served requests are delivered. What follows them on the stream is not
read, and nothing follows when every request goes on. -/
theorem deliver_served : ∀ {rs : List Request} {rounds : Nat} {buffer junk : Bytes} {s : Socket},
    (∀ r ∈ served rs, r.Text ∧ r.Plain) → (stream (served rs)).length < rounds →
    buffer.length < READ_BUF_SIZE → buffer ++ s.unread = stream (served rs) ++ junk →
    ((∀ r ∈ rs, r.GoesOn) → junk = []) →
    deliver rounds buffer s = (served rs).map Request.pair
  | [], rounds, buffer, junk, s, _, _, _, h, hjunk => by
    rw [hjunk (fun r hr => nomatch hr)] at h
    obtain ⟨hbuffer, hunread⟩ := List.append_eq_nil_iff.mp h
    obtain ⟨unread, cuts⟩ := s
    rw [hbuffer, show unread = [] from hunread]
    exact deliver_nil rounds cuts
  | r :: rs, rounds, buffer, junk, s, hall, hrounds, hlen, h, hjunk => by
    cases rounds with
    | zero => omega
    | succ rounds =>
    rw [served_cons] at hall hrounds h ⊢
    obtain ⟨htext, hplain⟩ := hall r List.mem_cons_self
    have htail := fun r hr => hall r (List.mem_cons_of_mem _ hr)
    have hwin := nulFree_content_take hplain (by decide : READ_BUF_SIZE - 1 < READ_BUF_SIZE)
      (nulFree_stream_take htail)
    rw [stream, List.flatMap_cons] at h hrounds
    obtain ⟨buffer', junk', s', hrecv, h', hlen', hjunk'⟩ := recvRequest_spec htext hwin hlen h
    rw [deliver, hrecv]
    by_cases hgo : r.GoesOn
    · simp only [if_pos hgo] at htail h' hrounds ⊢
      have hwire : 0 < r.wire.length := by
        rw [Request.wire, List.length_append, List.length_append]
        exact Nat.add_pos_left (Nat.add_pos_right _ (by decide)) _
      rw [List.length_append] at hrounds
      have hrest := @deliver_served rs rounds buffer' junk' s' htail
        (by rw [stream]; omega) hlen' h' (by
        intro hgos
        have hnil := hjunk fun r' hr' => by
          rcases List.mem_cons.mp hr' with rfl | hr'
          · exact hgo
          · exact hgos r' hr'
        rw [hnil] at hjunk'
        exact List.eq_nil_of_length_eq_zero (Nat.le_zero.mp hjunk'))
      rw [List.map_cons, ← hrest]
      rfl
    · simp only [if_neg hgo]
      rfl

/-! ## Byte by byte -/

theorem readHeaderLoop_ones {header : Bytes}
    (hends : find crlf2 (header ++ crlf2) = some header.length) (hheader : NulFree header)
    (rounds : Nat) (rest : Bytes) (cuts : List Nat) :
    ∀ todo done : Bytes, done ++ todo <+: header ++ crlf2 →
      readHeaderLoop (rounds + todo.length) done
          ⟨todo ++ rest, List.replicate todo.length 1 ++ cuts⟩ =
        readHeaderLoop rounds (done ++ todo) ⟨rest, cuts⟩
  | [], done, _ => by rw [List.append_nil]; rfl
  | c :: todo, done, hpart => by
    have hlen := hpart.length_le
    simp only [List.length_append, List.length_cons, crlf2, List.length_nil] at hlen
    have hnone := find_part hends ((List.prefix_append _ _).trans hpart) (by omega)
    have hc : NulFree [c] := by
      have htext := nulFree_append.mpr ⟨hheader, nulFree_crlf2⟩
      intro b hb
      rw [List.mem_singleton] at hb
      rw [hb]
      exact htext c (hpart.subset (List.mem_append_right _ List.mem_cons_self))
    have hread := Socket.read_one (by decide : 0 < READ_BUF_SIZE) (c :: todo ++ rest)
      (List.replicate todo.length 1 ++ cuts)
    rw [← List.cons_append, ← List.replicate_succ] at hread
    rw [List.length_cons, ← Nat.add_assoc, readHeaderLoop_more hnone (by rw [hread]; simp), hread]
    have happ : done ++ cstr ((c :: todo ++ rest).take 1) = done ++ [c] := by
      rw [List.cons_append, List.take_succ_cons, List.take_zero, cstr_eq_self hc]
    have hdrop : (c :: todo ++ rest).drop 1 = todo ++ rest := rfl
    rw [List.append_cons] at hpart ⊢
    rw [happ, hdrop]
    exact readHeaderLoop_ones hends hheader rounds rest cuts todo (done ++ [c]) hpart

section
variable {r : Request} {rest : Bytes}

/-- A request that comes byte by byte leaves nothing in the buffer. -/
theorem recvRequest_ones (hr : r.Text) (cuts : List Nat) :
    recvRequest [] ⟨r.wire ++ rest, List.replicate r.wire.length 1 ++ cuts⟩ =
      if r.GoesOn then .next r.header r.content [] ⟨rest, cuts⟩ else .last r.header r.content := by
  have hsplit : (⟨r.wire ++ rest, List.replicate r.wire.length 1 ++ cuts⟩ : Socket) =
      ⟨(r.header ++ crlf2) ++ (r.content ++ rest), List.replicate (r.header ++ crlf2).length 1 ++
        (List.replicate r.content.length 1 ++ cuts)⟩ := by
    rw [Request.wire, List.append_assoc, @List.length_append _ _ r.content, List.replicate_add,
      @List.append_assoc _ _ _ cuts]
  have hheader : readHttpHeaderTimeout []
      ⟨r.wire ++ rest, List.replicate r.wire.length 1 ++ cuts⟩ =
        .ok (r.header, [], ⟨r.content ++ rest, List.replicate r.content.length 1 ++ cuts⟩) := by
    have hrounds : ((r.header ++ crlf2) ++ (r.content ++ rest)).length + 1 =
        (r.content ++ rest).length + 1 + (r.header ++ crlf2).length := by
      rw [List.length_append]
      omega
    have hfound := @readHeaderLoop_found r.header []
      ⟨r.content ++ rest, List.replicate r.content.length 1 ++ cuts⟩ r.ends hr.2.1
      (r.content ++ rest).length
    rw [List.append_nil] at hfound
    rw [hsplit, readHttpHeaderTimeout, hrounds,
      readHeaderLoop_ones r.ends hr.1 _ _ _ (r.header ++ crlf2) [] (List.prefix_refl _)]
    exact hfound
  have hcontent : readnTimeout [] ⟨r.content ++ rest, List.replicate r.content.length 1 ++ cuts⟩
      r.content.length = .ok (r.content.length, r.content, [], ⟨rest, cuts⟩) := by
    have hread := Socket.readLoop_ones (by decide : 0 < READ_BUF_SIZE) cuts r.content.length
      r.content.length (r.content ++ rest) (Nat.le_refl _) (by rw [List.length_append]; omega)
    rw [List.take_left, List.drop_left] at hread
    rw [readnTimeout_eq hr.2.2 (by decide), Socket.readn, List.length_nil, Nat.sub_zero]
    by_cases hz : r.content = []
    · rw [hz]
      rfl
    · have hpos : 0 < r.content.length := List.length_pos_iff.mpr hz
      rw [if_neg (Nat.not_le.mpr hpos)]
      simp only [hread, List.nil_append, Int.natCast_zero, Int.zero_add]
  exact recvRequest_of hr hheader hcontent

end

/-- Requests that go on and come byte by byte are delivered, and the connection
stands where the next one starts. -/
theorem deliver_ones (rounds : Nat) (rest : Bytes) (cuts : List Nat) : ∀ {rs : List Request},
    (∀ r ∈ rs, r.Text ∧ r.GoesOn) →
      deliver (rounds + rs.length) []
          ⟨stream rs ++ rest, List.replicate (stream rs).length 1 ++ cuts⟩ =
        rs.map Request.pair ++ deliver rounds [] ⟨rest, cuts⟩ := by
  intro rs
  induction rs with
  | nil =>
    intro _
    rfl
  | cons r rs ih =>
    intro h
    obtain ⟨htext, hgo⟩ := h r List.mem_cons_self
    have hrec := ih fun r hr => h r (List.mem_cons_of_mem _ hr)
    have hsplit : (⟨stream (r :: rs) ++ rest,
        List.replicate (stream (r :: rs)).length 1 ++ cuts⟩ : Socket) =
          ⟨r.wire ++ (stream rs ++ rest), List.replicate r.wire.length 1 ++
            (List.replicate (stream rs).length 1 ++ cuts)⟩ := by
      rw [stream, List.flatMap_cons, List.append_assoc, List.length_append, List.replicate_add,
        @List.append_assoc _ _ _ cuts]
      rfl
    rw [List.length_cons, ← Nat.add_assoc, deliver, hsplit, recvRequest_ones htext, if_pos hgo,
      List.map_cons, List.cons_append, ← hrec]
    rfl

/-! ## What is delivered -/

section
variable {header content buffer buffer' : Bytes} {s s' : Socket}

theorem readHeaderLoop_inv : ∀ {rounds : Nat} {buffer : Bytes} {s : Socket},
    readHeaderLoop rounds buffer s = .ok (header, buffer', s') → NulFree buffer →
      NulFree header ∧ NulFree buffer' ∧ (header.length : Int) + 4 ≤ INT_MAX := by
  intro rounds
  induction rounds with
  | zero =>
    intro _ _ h _
    exact nomatch h
  | succ rounds ih =>
    intro buffer s h hbuffer
    rw [readHeaderLoop] at h
    generalize findInt crlf2 buffer = pos at h
    dsimp only at h
    split at h
    · rename_i hpos
      split at h
      · cases h
      · rename_i hint
        cases h
        refine ⟨hbuffer.take _, hbuffer.drop _, ?_⟩
        have hlen := List.length_take_le pos.toNat buffer
        omega
    · split at h
      · cases h
      · exact ih h (nulFree_append.mpr ⟨hbuffer, nulFree_cstr _⟩)

theorem readnTimeout_inv {n : Int} (hint : n ≤ INT_MAX)
    (h : readnTimeout buffer s n = .ok (n, content, buffer', s')) :
    (content.length : Int) = n ∧ content <+: buffer ++ s.unread ∧
      (NulFree buffer → NulFree buffer') := by
  unfold readnTimeout at h
  dsimp only at h
  split at h
  · split at h
    · rename_i hn
      cases h
      refine ⟨?_, (List.take_prefix _ _).trans (List.prefix_append _ _), fun hb => hb.drop _⟩
      rw [List.length_take]
      omega
    · cases h
  · rename_i hleft
    split at h
    · rename_i hn
      have hlen : toInt32 (n - buffer.length) = n - buffer.length := by
        unfold INT_MAX at hint
        rw [toInt32, Int.bmod_eq_of_le] <;> omega
      rw [hlen] at h hleft
      have hgot := (Socket.readn_spec (by decide : 0 < READ_BUF_SIZE) (n - buffer.length).toNat s).1
      injection h with h
      obtain ⟨hret, h⟩ := Prod.mk.inj h
      obtain ⟨hcontent, h⟩ := Prod.mk.inj h
      obtain ⟨hbuffer, -⟩ := Prod.mk.inj h
      refine ⟨?_, ?_, fun _ => hbuffer ▸ NulFree.nil⟩
      · rw [← hcontent, List.length_append]
        omega
      · rw [← hcontent, hgot, List.prefix_append_right_inj]
        exact List.take_prefix _ _
    · cases h

/-- The two calls of `recv_request` returned this header and this content. -/
def Reads (buffer : Bytes) (s : Socket) (header content buffer₂ : Bytes) : Prop :=
  ∃ buffer₁ s₁ info s₂, readHttpHeaderTimeout buffer s = .ok (header, buffer₁, s₁) ∧
    getInfo header = .ok info ∧ info.content_len + 10 ≤ INT_MAX ∧
    readnTimeout buffer₁ s₁ info.content_len = .ok (info.content_len, content, buffer₂, s₂)

/-- Everything one `recv_request` can come to. -/
theorem recvRequest_cases (buffer : Bytes) (s : Socket) :
    (∃ why, recvRequest buffer s = .nothing why) ∨
      ∃ header content buffer₂, Reads buffer s header content buffer₂ ∧
        (recvRequest buffer s = .last header content ∨
          ∃ s₂, recvRequest buffer s = .next header content buffer₂ s₂) := by
  unfold recvRequest
  cases hheader : readHttpHeaderTimeout buffer s with
  | error why => exact .inl ⟨why, rfl⟩
  | ok got =>
    obtain ⟨header, buffer₁, s₁⟩ := got
    dsimp only
    cases hinfo : getInfo header with
    | error why => exact .inl ⟨why, rfl⟩
    | ok info =>
      dsimp only
      split
      · exact .inl ⟨_, rfl⟩
      · rename_i hsize
        cases hcontent : readnTimeout buffer₁ s₁ info.content_len with
        | error why => exact .inl ⟨why, rfl⟩
        | ok got =>
          obtain ⟨ret, content, buffer₂, s₂⟩ := got
          dsimp only
          split
          · rename_i hret
            subst hret
            refine .inr ⟨header, content, buffer₂,
              ⟨buffer₁, s₁, info, s₂, hheader, hinfo, by omega, hcontent⟩, ?_⟩
            split
            · exact .inl rfl
            · exact .inr ⟨s₂, rfl⟩
          · exact .inl ⟨_, rfl⟩

/-- Nothing is delivered, or what was read, alone or with what is delivered behind it. -/
theorem deliver_cases (rounds : Nat) (buffer : Bytes) (s : Socket) :
    deliver (rounds + 1) buffer s = [] ∨ ∃ header content buffer₂ pairs,
      Reads buffer s header content buffer₂ ∧
        deliver (rounds + 1) buffer s = (header, content) :: pairs ∧
        (pairs = [] ∨ ∃ s₂, pairs = deliver rounds buffer₂ s₂) := by
  rw [deliver]
  obtain ⟨why, hrecv⟩ | ⟨header, content, buffer₂, hreads, hrecv | ⟨s₂, hrecv⟩⟩ :=
    recvRequest_cases buffer s
  · exact .inl (by rw [hrecv])
  · exact .inr ⟨header, content, buffer₂, [], hreads, by rw [hrecv], .inl rfl⟩
  · exact .inr ⟨header, content, buffer₂, _, hreads, by rw [hrecv], .inr ⟨s₂, rfl⟩⟩

theorem deliver_cons {rounds : Nat} {pairs : List (Bytes × Bytes)}
    (h : deliver rounds buffer s = (header, content) :: pairs) :
    ∃ buffer₂, Reads buffer s header content buffer₂ := by
  cases rounds with
  | zero => cases h
  | succ rounds =>
    rcases deliver_cases rounds buffer s with
      hnone | ⟨header₁, content₁, buffer₂, pairs₁, hreads, hpairs, -⟩
    · rw [hnone] at h
      cases h
    · rw [hpairs] at h
      cases h
      exact ⟨buffer₂, hreads⟩

/-- A header that was read is text within `int`, and its content fits. -/
theorem Reads.text {buffer₂ : Bytes} (h : Reads buffer s header content buffer₂)
    (hbuffer : NulFree buffer) :
    NulFree header ∧ (header.length : Int) + 4 ≤ INT_MAX ∧
      (∃ info, getInfo header = .ok info ∧ info.content_len + 10 ≤ INT_MAX) ∧
      NulFree buffer₂ := by
  obtain ⟨buffer₁, s₁, info, s₂, hheader, hinfo, hint, hcontent⟩ := h
  obtain ⟨hnul, hnul₁, hlen⟩ := readHeaderLoop_inv hheader hbuffer
  have hnul₂ := (readnTimeout_inv (by omega) hcontent).2.2 hnul₁
  exact ⟨hnul, hlen, ⟨info, hinfo, hint⟩, hnul₂⟩

theorem deliver_text : ∀ {rounds : Nat} {buffer : Bytes} {s : Socket}, NulFree buffer →
    (header, content) ∈ deliver rounds buffer s →
      NulFree header ∧ (header.length : Int) + 4 ≤ INT_MAX ∧
        ∃ info, getInfo header = .ok info ∧ info.content_len + 10 ≤ INT_MAX := by
  intro rounds
  induction rounds with
  | zero =>
    intro _ _ _ h
    exact nomatch h
  | succ rounds ih =>
    intro buffer s hbuffer h
    rcases deliver_cases rounds buffer s with
      hnone | ⟨header₁, content₁, buffer₂, pairs, hreads, hpairs, hrest⟩
    · rw [hnone] at h
      cases h
    · rw [hpairs] at h
      obtain ⟨hnul, hlen, hinfo, hnul₂⟩ := hreads.text hbuffer
      rcases List.mem_cons.mp h with he | h
      · cases he
        exact ⟨hnul, hlen, hinfo⟩
      · rcases hrest with rfl | ⟨s₂, rfl⟩
        · cases h
        · exact ih hnul₂ h

end

/-! ## The lost byte -/

/-- Bytes that stand one place further on are the same only if they are all alike. -/
theorem prefix_shift {a : UInt8} : ∀ {t u : Bytes}, a :: t <+: t ++ u → u.head? = some a := by
  intro t
  induction t with
  | nil =>
    intro u h
    obtain ⟨v, hv⟩ := h
    rw [List.nil_append] at hv
    rw [← hv]
    rfl
  | cons b t ih =>
    intro u h
    rw [List.cons_append, List.cons_prefix_cons] at h
    obtain ⟨rfl, h⟩ := h
    exact ih h

section
variable {r : Request} {rest : Bytes}

/-- One block brings the end of the header and the content up to its first zero
byte; that byte does not get into the buffer. -/
theorem readHttpHeaderTimeout_lost {header part tail : Bytes}
    (hends : find crlf2 (header ++ crlf2) = some header.length) (hheader : NulFree header)
    (hint : (header.length : Int) + 4 ≤ INT_MAX) (hpart : NulFree part)
    (hlen : part.length + 2 ≤ READ_BUF_SIZE) :
    readHttpHeaderTimeout [] ⟨header ++ crlf2 ++ (part ++ 0 :: tail),
        List.replicate (header.length + 3) 1 ++ [part.length + 2]⟩ =
      .ok (header, part, ⟨tail, []⟩) := by
  have hsplit : header ++ crlf2 ++ (part ++ 0 :: tail) =
      (header ++ [13, 10, 13]) ++ ((10 :: part ++ [0]) ++ tail) := by
    simp [crlf2]
  have hhead : header ++ [13, 10, 13] <+: header ++ crlf2 :=
    (List.prefix_append_right_inj header).mpr (by decide)
  have hnone : find crlf2 (header ++ [13, 10, 13]) = none :=
    find_part hends hhead (by rw [List.length_append, List.length_cons]; simp)
  have hones := fun rounds => readHeaderLoop_ones hends hheader rounds ((10 :: part ++ [0]) ++ tail)
    [part.length + 2] (header ++ [13, 10, 13]) [] hhead
  have hread : Socket.read ⟨(10 :: part ++ [0]) ++ tail, [part.length + 2]⟩ READ_BUF_SIZE =
      (10 :: part ++ [0], ⟨tail, []⟩) := by
    have hroom : Socket.room ⟨(10 :: part ++ [0]) ++ tail, [part.length + 2]⟩ READ_BUF_SIZE =
        (10 :: part ++ [0]).length := by
      show min READ_BUF_SIZE (max (part.length + 2) 1) = _
      rw [List.length_append, List.length_cons, List.length_singleton]
      omega
    rw [Socket.read, hroom, List.take_left, List.drop_left]
    rfl
  have hcstr : cstr (10 :: part ++ [0]) = 10 :: part := by
    refine cstr_append_nul (s := 10 :: part) ?_ []
    exact fun b hb => (List.mem_cons.mp hb).elim (fun he => by rw [he]; decide) (hpart b)
  have hbuffer : header ++ [13, 10, 13] ++ 10 :: part = header ++ crlf2 ++ part := by
    simp [crlf2]
  have hrounds : ((header ++ [13, 10, 13]) ++ ((10 :: part ++ [0]) ++ tail)).length + 1 =
      ((part ++ [0]) ++ tail).length + 1 + 1 + (header ++ [13, 10, 13]).length := by
    simp only [List.length_append, List.length_cons]
    omega
  have hcuts : header.length + 3 = (header ++ [13, 10, 13]).length :=
    (@List.length_append _ header [13, 10, 13]).symm
  rw [readHttpHeaderTimeout, hsplit, hrounds, hcuts, hones, List.nil_append,
    readHeaderLoop_more hnone (by rw [hread]; simp), hread, hcstr, hbuffer]
  exact readHeaderLoop_found hends hint _

/-- What is delivered then is not the content. -/
theorem deliver_lost (hr : r.Text) (hplain : ¬ r.Plain) (hrest : rest.head? ≠ some 0) :
    ∃ cuts, ∀ rounds pairs, deliver rounds [] ⟨r.wire ++ rest, cuts⟩ ≠ r.pair :: pairs := by
  obtain ⟨part, tail, hcontent, hnul⟩ := exists_nul hplain
  have hlen := congrArg List.length hcontent
  rw [List.length_take, List.length_append, List.length_cons] at hlen
  have hfull : r.content = part ++ 0 :: (tail ++ r.content.drop (READ_BUF_SIZE - 1)) := by
    rw [← List.cons_append, ← List.append_assoc, ← hcontent, List.take_append_drop]
  generalize tail ++ r.content.drop (READ_BUF_SIZE - 1) = tail' at hfull
  have hheader := @readHttpHeaderTimeout_lost r.header part (tail' ++ rest) r.ends hr.1 hr.2.1 hnul
    (by unfold READ_BUF_SIZE at *; omega)
  refine ⟨List.replicate (r.header.length + 3) 1 ++ [part.length + 2], fun rounds pairs h => ?_⟩
  have hwire : r.wire ++ rest = r.header ++ crlf2 ++ (part ++ 0 :: (tail' ++ rest)) := by
    rw [Request.wire, hfull]
    simp
  rw [hwire] at h
  obtain ⟨_, _, _, info, _, hheader', hinfo, hint, hread⟩ := deliver_cons h
  rw [hheader] at hheader'
  cases hheader'
  rw [r.accepted] at hinfo
  cases hinfo
  obtain ⟨-, hpre, -⟩ := readnTimeout_inv (by omega) hread
  rw [hfull, List.prefix_append_right_inj] at hpre
  exact hrest (prefix_shift hpre)

end

/-! ## When the network does not matter -/

theorem served_initial : ∀ rs : List Request, served rs <+: rs
  | [] => List.prefix_refl _
  | r :: rs => by
    rw [served_cons, List.cons_prefix_cons]
    refine ⟨rfl, ?_⟩
    split
    · exact served_initial rs
    · exact List.nil_prefix

theorem served_eq_self : ∀ {rs : List Request}, (∀ r ∈ rs, r.GoesOn) → served rs = rs := by
  intro rs
  induction rs with
  | nil =>
    intro _
    rfl
  | cons r rs ih =>
    intro h
    rw [served_cons, if_pos (h r List.mem_cons_self),
      ih fun r hr => h r (List.mem_cons_of_mem _ hr)]

/-- A served request comes behind requests that go on. -/
theorem mem_served : ∀ {rs : List Request} {r : Request}, r ∈ served rs →
    ∃ pre post, rs = pre ++ r :: post ∧ ∀ p ∈ pre, p.GoesOn := by
  intro rs
  induction rs with
  | nil =>
    intro r h
    exact nomatch h
  | cons r₁ rs ih =>
    intro r h
    rw [served_cons] at h
    rcases List.mem_cons.mp h with rfl | h
    · exact ⟨[], rs, rfl, fun p hp => nomatch hp⟩
    · split at h
      · rename_i hgo
        obtain ⟨pre, post, he, hpre⟩ := ih h
        exact ⟨r₁ :: pre, post, by rw [he]; rfl,
          fun p hp => (List.mem_cons.mp hp).elim (· ▸ hgo) (hpre p)⟩
      · cases h

theorem length_le_stream : ∀ rs : List Request, rs.length ≤ (stream rs).length
  | [] => Nat.le_refl _
  | r :: rs => by
    have hrec := length_le_stream rs
    rw [stream_cons]
    simp only [List.length_append, List.length_cons, crlf2, List.length_nil]
    omega

theorem stream_append (rs rs' : List Request) : stream (rs ++ rs') = stream rs ++ stream rs' :=
  List.flatMap_append

theorem head?_stream {rs : List Request} (h : ∀ r ∈ rs, r.Text) : (stream rs).head? ≠ some 0 := by
  cases rs with
  | nil => simp [stream]
  | cons r rs =>
    obtain ⟨b, t, hb⟩ := List.exists_cons_of_ne_nil (header_ne_nil r)
    have hnul := (h r List.mem_cons_self).1 b (by rw [hb]; exact List.mem_cons_self)
    rw [stream_cons, hb]
    simpa using hnul

/-- Plain requests are delivered whatever the cuts are. -/
theorem delivered_served {rs : List Request} (h : ∀ r ∈ served rs, r.Text ∧ r.Plain)
    (cuts : List Nat) : delivered (stream rs) cuts = (served rs).map Request.pair := by
  obtain ⟨rest, hrest⟩ := served_initial rs
  have hstream : stream rs = stream (served rs) ++ stream rest := by
    rw [← stream_append, hrest]
  refine @deliver_served rs _ [] (stream rest) _ h ?_ (by decide) hstream fun hgo => ?_
  · rw [hstream, List.length_append]
    omega
  · have hnil : rest = [] := by
      rw [served_eq_self hgo] at hrest
      exact List.append_cancel_left (hrest.trans (List.append_nil rs).symm)
    rw [hnil]
    rfl

/-- When all cuts deliver the same, nothing that is served can lose a byte. -/
theorem plain_of_same {rs : List Request} (htext : ∀ r ∈ rs, r.Text)
    (h : ∀ cuts cuts', delivered (stream rs) cuts = delivered (stream rs) cuts') :
    ∀ r ∈ served rs, r.Plain := by
  intro r hr
  by_contra hplain
  obtain ⟨pre, post, rfl, hpre⟩ := mem_served hr
  have hr := htext r (List.mem_append_right _ List.mem_cons_self)
  have hpost : ∀ r ∈ post, r.Text := fun r hr =>
    htext r (List.mem_append_right _ (List.mem_cons_of_mem _ hr))
  obtain ⟨cuts, hlost⟩ := deliver_lost hr hplain (head?_stream hpost)
  have hstream : stream (pre ++ r :: post) = stream pre ++ (r.wire ++ stream post) := by
    rw [stream_append]
    rfl
  obtain ⟨rounds, hrounds⟩ : ∃ rounds, (stream (pre ++ r :: post)).length + 1 =
      rounds + 1 + pre.length := by
    refine ⟨(stream (pre ++ r :: post)).length - pre.length, ?_⟩
    have hle := length_le_stream pre
    rw [hstream, List.length_append]
    omega
  have hrun := fun cuts => deliver_ones (rounds + 1) (r.wire ++ stream post) cuts fun p hp =>
    ⟨htext p (List.mem_append_left _ hp), hpre p hp⟩
  have hsame := h (List.replicate (stream pre).length 1 ++ (List.replicate r.wire.length 1 ++ []))
    (List.replicate (stream pre).length 1 ++ cuts)
  rw [delivered, delivered, hrounds, hstream, hrun, hrun, List.append_cancel_left_eq, deliver,
    recvRequest_ones hr] at hsame
  by_cases hgo : r.GoesOn
  · rw [if_pos hgo] at hsame
    exact hlost _ _ hsame.symm
  · rw [if_neg hgo] at hsame
    exact hlost _ _ hsame.symm

/-- **Framing.** The requests are delivered as they were sent, whatever the
network does, exactly when each is text and plain and none but the last ends the
connection. What is delivered does not depend on the network exactly when the
served requests are plain. -/
theorem delivered_framing_iff (rs : List Request) :
    ((∀ cuts, delivered (stream rs) cuts = rs.map Request.pair) ↔
      (∀ r ∈ rs, r.Text ∧ r.Plain) ∧ served rs = rs) ∧
    ((∀ r ∈ rs, r.Text) →
      ((∀ cuts cuts', delivered (stream rs) cuts = delivered (stream rs) cuts') ↔
        ∀ r ∈ served rs, r.Plain)) := by
  constructor
  · constructor
    · intro h
      have htext : ∀ r ∈ rs, r.Text := by
        intro r hr
        have hmem : r.pair ∈ delivered (stream rs) [] := by
          rw [h]
          exact List.mem_map_of_mem hr
        obtain ⟨hnul, hlen, info, hinfo, hint⟩ := deliver_text NulFree.nil hmem
        rw [r.accepted] at hinfo
        cases hinfo
        rw [r.sized] at hint
        exact ⟨hnul, hlen, hint⟩
      have hplain := plain_of_same htext fun cuts cuts' => by rw [h, h]
      have hserved := delivered_served
        (fun r hr => ⟨htext r ((served_initial rs).subset hr), hplain r hr⟩) []
      rw [h] at hserved
      have hlen := congrArg List.length hserved
      rw [List.length_map, List.length_map] at hlen
      have he := (served_initial rs).eq_of_length hlen.symm
      exact ⟨fun r hr => ⟨htext r hr, hplain r (by rw [he]; exact hr)⟩, he⟩
    · rintro ⟨hall, he⟩ cuts
      rw [delivered_served (by rw [he]; exact hall), he]
  · intro htext
    constructor
    · exact plain_of_same htext
    · intro hplain cuts cuts'
      have hall : ∀ r ∈ served rs, r.Text ∧ r.Plain := fun r hr =>
        ⟨htext r ((served_initial rs).subset hr), hplain r hr⟩
      rw [delivered_served hall, delivered_served hall]

/-- `POST /a HTTP/1.1`, `Content-Length: 3` and `Connection: keep-alive`. -/
def postHeader : Bytes :=
  [80, 79, 83, 84, 32, 47, 97, 32, 72, 84, 84, 80, 47, 49, 46, 49, 13, 10] ++
    contentLength ++ [32, 51, 13, 10] ++ connectionKeepAlive

def postText : Request where
  header := postHeader
  content := [65, 66, 67]
  info := ⟨[97], 3, true⟩
  ends := by decide +kernel
  accepted := by decide +kernel
  sized := rfl

def postZero : Request where
  header := postHeader
  content := [65, 0, 66]
  info := ⟨[97], 3, true⟩
  ends := by decide +kernel
  accepted := by decide +kernel
  sized := rfl

theorem delivered_framing_iff_text :
    (∀ cuts, delivered (stream [postText, postText]) cuts = [postText.pair, postText.pair]) ∧
      ∀ cuts cuts', delivered (stream [postText, postText]) cuts =
        delivered (stream [postText, postText]) cuts' := by
  obtain ⟨hsent, hsame⟩ := delivered_framing_iff [postText, postText]
  have htext : ∀ r ∈ [postText, postText], r.Text ∧ r.Plain := by decide +kernel
  refine ⟨hsent.mpr ⟨htext, served_eq_self (by decide +kernel)⟩,
    (hsame fun r hr => (htext r hr).1).mpr ?_⟩
  exact fun r hr => (htext r ((served_initial _).subset hr)).2

/-- Byte by byte the content arrives; in one block its zero byte is lost. -/
theorem delivered_split :
    ¬ ∀ rs cuts cuts', delivered (stream rs) cuts = delivered (stream rs) cuts' := by
  intro h
  have hsame := h [postZero] [] (List.replicate 100 1)
  exact absurd hsame (by decide +kernel)

end CommonTools.Http
