import CommonTools.Http.HttpClientSound
import CommonTools.Lib.Buffer

/-! # Chunked responses

The branch of `HttpClient::recv` for a chunked body reads the encoded text into the buffer of
the caller and moves the chunks to its front. It sets `body_buf` to 0 before it does so, and
`body_len`, the place that the next chunk is moved to, is still the largest `unsigned int`. -/
namespace CommonTools.HttpClient
open CommonTools.Lib CommonTools.Http

/-! ## The branch -/

def ERROR_CHUNK_DATA : Int := -4

def crlf : Bytes := [13, 10]

def isxdigit (c : UInt8) : Bool :=
  Scanf.isdigit c || (65 ≤ c && c ≤ 70) || (97 ≤ c && c ≤ 102)

def xdigit (c : UInt8) : Nat :=
  if c ≤ 57 then c.toNat - 48 else if c ≤ 70 then c.toNat - 55 else c.toNat - 87

/-- The number that hexadecimal digits stand for. -/
def hexadecimal (digits : Bytes) : Nat := digits.foldl (fun v d => 16 * v + xdigit d) 0

/-- What `%x` stores in an `int`; the digits may follow a sign and `0x`. -/
def scanHex (s : Bytes) : Option Int :=
  let (sgn, s) := Scanf.sign (s.dropWhile Scanf.isspace)
  let s :=
    match s with
    | 48 :: x :: t => if (x = 120 || x = 88) && t.head?.any isxdigit then t else s
    | _ => s
  let digits := s.takeWhile isxdigit
  if digits = [] then none else some (toInt32 (Scanf.toUint (sgn * hexadecimal digits)))

/-- `data` is written to `body_buf + off`; through the null pointer, or outside of the buffer,
that has no meaning. -/
def store (body_buf : Option Bytes) (off : Nat) (data : Bytes) : Except Stop Bytes :=
  match body_buf with
  | none => .error .undefined
  | some buf =>
    if off + data.length ≤ buf.length then .ok (writeAt buf off data) else .error .undefined

/-- Blocks of 1024 bytes are read to `body_buf + cur_len`, the last one shorter. -/
def fillLoop (max_buf_len : Nat) :
    Nat → Option Bytes → Nat → Socket → Except Stop (Option Bytes × Socket)
  | 0, _, _, _ => .error .undefined
  | rounds + 1, body_buf, cur_len, sock =>
    let (read_ret, got, sock) := readnTimeout 1024 sock
    match if got = [] then .ok body_buf else (store body_buf cur_len got).map some with
    | .error why => .error why
    | .ok body_buf =>
      if read_ret = 1024 then
        if max_buf_len < cur_len + 1024 then .error (.returns NOT_ENOUGH_BUFF)
        else if INT_MAX < cur_len + 1024 then .error .undefined
        else fillLoop max_buf_len rounds body_buf (cur_len + 1024) sock
      else .ok (body_buf, sock)

/-- The chunk at `cursor` is moved to `body_buf + body_len`, and so on up to the chunk of
length 0. Every round moves the cursor, which bounds the rounds. -/
def decodeLoop : Nat → Option Bytes → Nat → Nat → Except Stop (Bytes × Nat)
  | 0, _, _, _ => .error .undefined
  | _ + 1, none, _, _ => .error .undefined
  | rounds + 1, some buf, cursor, body_len =>
    if 0 ∉ buf.drop cursor then .error .undefined
    else
      match scanHex (cstr (buf.drop cursor)) with
      | none => .error (.returns ERROR_CHUNK_DATA)
      | some chunk_len =>
        if chunk_len = 0 then (store (some buf) body_len [0]).map fun buf => (buf, body_len)
        else
          match find crlf (cstr (buf.drop cursor)) with
          | none => .error .undefined
          | some eol =>
            let cursor := cursor + eol + 2
            if chunk_len < 0 ∨ buf.length < cursor + chunk_len then .error .undefined
            else
              match store (some buf) body_len ((buf.drop cursor).take chunk_len.toNat) with
              | .error why => .error why
              | .ok buf =>
                let cursor := cursor + chunk_len.toNat + 2
                let body_len := (body_len + chunk_len.toNat) % 2 ^ 32
                match store (some buf) body_len [0] with
                | .error why => .error why
                | .ok buf => decodeLoop rounds (some buf) cursor body_len

/-- The chunked branch behind `body_buf = 0`, for any pointer. -/
def recvChunks (body_buf : Option Bytes) (part_body_len max_buf_len : Nat) (sock : Socket) :
    Except Stop (Bytes × Nat × Socket) :=
  match fillLoop max_buf_len (sock.unread.length + 1) body_buf part_body_len sock with
  | .error why => .error why
  | .ok (body_buf, sock) =>
    match decodeLoop ((body_buf.getD []).length + 1) body_buf 0 UINT_MAX with
    | .error why => .error why
    | .ok (buf, body_len) => .ok (buf.take body_len, body_len, sock)

/-- `recv` with the chunked branch, which sets `body_buf = 0` first. -/
def Chunked.recv : Bytes → Nat → Socket → Except Stop (Bytes × Bytes × Nat × Socket) :=
  recvWith (recvChunks none)

section
variable {max_buf_len part_body_len : Nat} {body_buf : Option Bytes} {sock : Socket}

/-- Nothing can be written through the null pointer, and nothing read. -/
theorem recvChunks_null : recvChunks none part_body_len max_buf_len sock = .error .undefined := by
  unfold recvChunks
  rw [fillLoop]
  by_cases hgot : (readnTimeout 1024 sock).2.1 = []
  · have hret : (readnTimeout 1024 sock).1 ≠ 1024 := by
      unfold readnTimeout at hgot ⊢
      dsimp only at hgot ⊢
      rw [if_neg (by decide)] at hgot ⊢
      dsimp only at hgot ⊢
      rw [hgot]
      decide
    simp only [hgot, if_true, if_neg hret]
    rfl
  · simp only [hgot, if_false]
    rfl

/-- The chunked branch is one more access without a meaning. -/
theorem Chunked.recv_eq : Chunked.recv = HttpClient.recv := by
  have hnull : recvChunks none = fun _ _ _ => .error .undefined := by
    funext part_body_len max_buf_len sock
    exact recvChunks_null
  rw [Chunked.recv, hnull, HttpClient.recv]

/-! ## The counter -/

theorem store_length {off : Nat} {data buf buf' : Bytes}
    (h : store (some buf) off data = .ok buf') : buf'.length = buf.length := by
  unfold store at h
  dsimp only at h
  split at h
  · rename_i hfits
    cases h
    exact writeAt_length hfits
  · cases h

theorem store_outside {off : Nat} {data buf : Bytes} (h : buf.length < off + data.length) :
    store (some buf) off data = .error .undefined :=
  if_neg (Nat.not_le.mpr h)

theorem fillLoop_length : ∀ {rounds cur_len : Nat} {body_buf body_buf' : Option Bytes}
    {sock sock' : Socket}, (∀ buf ∈ body_buf, buf.length ≤ UINT_MAX) →
    fillLoop max_buf_len rounds body_buf cur_len sock = .ok (body_buf', sock') →
      ∀ buf ∈ body_buf', buf.length ≤ UINT_MAX
  | 0, _, _, _, _, _, _, h => by
    rw [fillLoop] at h
    cases h
  | rounds + 1, cur_len, body_buf, body_buf', sock, sock', hlen, h => by
    rw [fillLoop] at h
    dsimp only at h
    split at h
    · cases h
    · rename_i body_buf₁ hstore
      have hlen₁ : ∀ buf ∈ body_buf₁, buf.length ≤ UINT_MAX := by
        split at hstore
        · cases hstore
          exact hlen
        · cases body_buf with
          | none => cases hstore
          | some buf =>
            cases hput : store (some buf) cur_len (readnTimeout 1024 sock).2.1 with
            | error why =>
              rw [hput] at hstore
              cases hstore
            | ok buf' =>
              rw [hput] at hstore
              cases hstore
              intro b hb
              cases hb
              rw [store_length hput]
              exact hlen buf rfl
      split at h
      · split at h
        · cases h
        · split at h
          · cases h
          · exact fillLoop_length hlen₁ h
      · cases h
        exact hlen₁

/-- What is moved to the place that `body_len` says at first is outside of every buffer. -/
theorem decodeLoop_counter {rounds cursor : Nat} (hlen : ∀ buf ∈ body_buf, buf.length ≤ UINT_MAX)
    (r : Bytes × Nat) : decodeLoop rounds body_buf cursor UINT_MAX ≠ .ok r := by
  intro h
  cases rounds with
  | zero =>
    rw [decodeLoop] at h
    cases h
  | succ rounds =>
    cases body_buf with
    | none =>
      rw [decodeLoop] at h
      cases h
    | some buf =>
      have hbuf : buf.length ≤ UINT_MAX := hlen buf rfl
      rw [decodeLoop] at h
      split at h
      · cases h
      · split at h
        · cases h
        · rename_i chunk_len hscan
          split at h
          · rw [store_outside (by rw [List.length_singleton]; omega)] at h
            cases h
          · rename_i hne
            split at h
            · cases h
            · rename_i eol heol
              dsimp only at h
              split at h
              · cases h
              · rw [store_outside (by rw [List.length_take, List.length_drop]; omega)] at h
                cases h

/-- With the pointer of the caller the branch would not return 0 either. -/
theorem recvChunks_counter (hlen : ∀ buf ∈ body_buf, buf.length ≤ UINT_MAX)
    (r : Bytes × Nat × Socket) : recvChunks body_buf part_body_len max_buf_len sock ≠ .ok r := by
  unfold recvChunks
  intro h
  split at h
  · cases h
  · rename_i hfill
    split at h
    · cases h
    · rename_i hdecode
      exact decodeLoop_counter (fillLoop_length hlen hfill) _ hdecode

end

/-! ## What is taken for the header -/

/-- The header that a search in whole blocks finds in a stream, what its block brings behind
it, and the rest. Every block takes a byte off the stream, which bounds the rounds. -/
def takenHeader : Nat → Bytes → Bytes → Option (Bytes × Bytes × Bytes)
  | 0, _, _ => none
  | rounds + 1, header, stream =>
    if stream = [] then none
    else
      let block := stream.take READ_BUF_SIZE
      match find crlf2 (cstr block) with
      | some pos =>
        some (header ++ cstr (block.take (pos + 4)), block.drop (pos + 4),
          stream.drop READ_BUF_SIZE)
      | none => takenHeader rounds (header ++ cstr block) (stream.drop READ_BUF_SIZE)

section
variable {header' part rest : Bytes}

/-- The network does not matter: what is read is what the blocks of the stream say. -/
theorem readHeaderLoop_taken : ∀ {rounds : Nat} {header : Bytes} {s : Socket},
    (∃ len s', readHeaderLoop rounds header s = .ok (header', len, part, s') ∧ s'.unread = rest) ↔
      takenHeader rounds header s.unread = some (header', part, rest)
  | 0, _, _ => iff_of_false (fun ⟨_, _, h, _⟩ => nomatch h) nofun
  | rounds + 1, header, s => by
    rw [takenHeader]
    by_cases hnil : s.unread = []
    · rw [if_pos hnil, readHeaderLoop_nil rounds hnil]
      exact iff_of_false (fun ⟨_, _, h, _⟩ => nomatch h) nofun
    · obtain ⟨s₁, hs₁, hstep⟩ := @readHeaderLoop_step header s rounds hnil
      rw [if_neg hnil, hstep]
      dsimp only
      cases find crlf2 (cstr (s.unread.take READ_BUF_SIZE)) with
      | none =>
        rw [← hs₁]
        exact readHeaderLoop_taken
      | some pos =>
        constructor
        · rintro ⟨len, s', h, hrest⟩
          simp only [Except.ok.injEq, Prod.mk.injEq] at h
          obtain ⟨hheader, -, hpart, hs'⟩ := h
          rw [← hrest, ← hs', hs₁, ← hheader, ← hpart]
        · intro h
          simp only [Option.some.injEq, Prod.mk.injEq] at h
          obtain ⟨hheader, hpart, hrest⟩ := h
          rw [← hheader, ← hpart, ← hrest]
          exact ⟨_, s₁, rfl, hs₁⟩

/-- What comes out of a `recv` that returns 0 is not decoded: it is what stands behind the header,
as much as the field `Content-Length:` says. -/
theorem recv_undecoded_iff {content : Bytes} {max_buf_len : Nat} {s : Socket}
    (hmax : content.length ≤ max_buf_len) :
    (∃ header s', recv [] max_buf_len s = .ok (header, content, content.length, s')) ↔
      ∃ header part rest,
        takenHeader (s.unread.length + 1) [] s.unread = some (header, part, rest) ∧
        0 ≤ findInt contentLength header ∧
        scanBodyLen header (findInt contentLength header).toNat = content.length ∧
        part.length < content.length ∧ (content.length : Int) - part.length ≤ INT_MAX ∧
        content <+: part ++ rest := by
  constructor
  · rintro ⟨header, s', h⟩
    obtain ⟨len, part, s₁, got, hheader, hidx, hscan, hcontent, hgot, hneed, hlen⟩ := recv_inv h
    have htotal := congrArg List.length hcontent
    rw [List.length_append] at htotal
    have hmaxint := toInt32_le ((content.length : Int) - part.length)
    refine ⟨header, part, s₁.unread, readHeaderLoop_taken.mp ⟨len, s₁, hheader, rfl⟩, hidx,
      hscan.symm, by omega, by omega, ?_⟩
    rw [hcontent]
    exact (List.prefix_append_right_inj part).mpr hgot
  · rintro ⟨header, part, rest, htaken, hidx, hscan, hpart, hint, hprefix⟩
    obtain ⟨len, s₁, hheader, hs₁⟩ := readHeaderLoop_taken.mpr htaken
    have hneed : toInt32 ((content.length : Int) - part.length) = content.length - part.length := by
      have hn := @toInt32_natCast (content.length - part.length) (by omega)
      rwa [Int.natCast_sub (Nat.le_of_lt hpart)] at hn
    have hall := hprefix.length_le
    rw [List.length_append] at hall
    obtain ⟨s', hread⟩ := @readnTimeout_enough s₁ ((content.length : Int) - part.length) (by omega)
      (by rw [hs₁]; omega)
    have hcontent : content = part ++ rest.take (content.length - part.length) := by
      have htake := List.prefix_iff_eq_take.mp hprefix
      rwa [List.take_append, List.take_of_length_le (Nat.le_of_lt hpart)] at htake
    have hn : ((content.length : Int) - part.length).toNat = content.length - part.length := by
      omega
    refine ⟨header, s', ?_⟩
    unfold recv recvWith readHttpHeaderTimeout
    rw [hheader]
    dsimp only
    rw [if_pos (by omega), if_neg (by omega), hscan, if_neg (by omega), if_neg (by omega),
      hneed, if_neg (by omega), hread]
    dsimp only
    rw [if_neg (not_not_intro rfl), hs₁, hn, ← hcontent]

end

/-! ## Chunked responses -/

/-- A chunk with the digits of its length. -/
structure Chunk where
  size : Bytes
  data : Bytes
  digit : size.all isxdigit = true
  digits_ne_nil : size ≠ []
  sized : hexadecimal size = data.length
  data_ne_nil : data ≠ []

def Chunk.wire (c : Chunk) : Bytes := c.size ++ crlf ++ c.data ++ crlf

/-- A response with a chunked body; the header ends at the first empty line. -/
structure ChunkedResponse where
  header : Bytes
  chunks : List Chunk
  ends : find crlf2 (header ++ crlf2) = some header.length
  text : NulFree header
  announces : (find transferEncodingChunked header).isSome = true

namespace ChunkedResponse

/-- The encoded body: the chunks, and one of length 0. -/
def encoded (r : ChunkedResponse) : Bytes :=
  r.chunks.flatMap Chunk.wire ++ ([48] ++ crlf ++ crlf)

def content (r : ChunkedResponse) : Bytes := r.chunks.flatMap Chunk.data

def wire (r : ChunkedResponse) : Bytes := r.header ++ crlf2 ++ r.encoded

/-- `recv` returns 0 with the content. -/
def Decoded (r : ChunkedResponse) (max_buf_len : Nat) (cuts : List Nat) : Prop :=
  ∃ header s', Chunked.recv [] max_buf_len ⟨r.wire, cuts⟩ =
    .ok (header, r.content, r.content.length, s')

/-- What is taken for the header has a field `Content-Length:` with the length of the content,
less than that comes with it, an `int` can say how much is left, and what stands behind it
begins with the content as it is. -/
def ByAccident (r : ChunkedResponse) : Prop :=
  ∃ header part rest, takenHeader (r.wire.length + 1) [] r.wire = some (header, part, rest) ∧
    0 ≤ findInt contentLength header ∧
    scanBodyLen header (findInt contentLength header).toNat = r.content.length ∧
    part.length < r.content.length ∧ (r.content.length : Int) - part.length ≤ INT_MAX ∧
    r.content <+: part ++ rest

/-- Without a `Content-Length:` nothing is decoded. -/
theorem not_decoded (r : ChunkedResponse)
    (hfit : r.header.length % READ_BUF_SIZE + 4 ≤ READ_BUF_SIZE)
    (hnone : find contentLength (r.header ++ crlf2) = none) (max_buf_len : Nat) (cuts : List Nat) :
    Chunked.recv [] max_buf_len ⟨r.wire, cuts⟩ = .error .undefined := by
  obtain ⟨s', hok, -⟩ := @readHeaderLoop_found r.encoded (r.wire.length + 1) [] r.header
    ⟨r.wire, cuts⟩ r.ends r.text hfit (Nat.lt_succ_self _) rfl
  have hidx : findInt contentLength (r.header ++ crlf2) = -1 := findInt_none hnone
  have hchunked : (find transferEncodingChunked (r.header ++ crlf2)).isSome = true := by
    obtain ⟨i, hi⟩ := Option.isSome_iff_exists.mp r.announces
    rw [find_append hi]
    rfl
  unfold Chunked.recv recvWith readHttpHeaderTimeout
  rw [hok, List.nil_append]
  dsimp only
  rw [if_neg (not_not_intro hidx), if_pos hchunked, recvChunks_null]
  rfl

end ChunkedResponse

/-- **When a chunked response is decoded.** -/
theorem recv_dechunk_iff (r : ChunkedResponse) (max_buf_len : Nat)
    (hmax : r.content.length ≤ max_buf_len) (cuts : List Nat) :
    r.Decoded max_buf_len cuts ↔ r.ByAccident := by
  unfold ChunkedResponse.Decoded
  rw [Chunked.recv_eq]
  exact recv_undecoded_iff hmax

def oneChunk : Chunk where
  size := [49]
  data := [49]
  digit := by decide
  digits_ne_nil := by decide
  sized := by decide
  data_ne_nil := by decide

/-- `HTTP/1.1 200 `, `Transfer-Encoding: chunked` and `Content-Length: 1`. -/
def bothFields : ChunkedResponse where
  header := [72, 84, 84, 80, 47, 49, 46, 49, 32, 50, 48, 48, 32, 13, 10] ++
    transferEncodingChunked ++ [13, 10] ++ contentLength ++ [32, 49]
  chunks := [oneChunk]
  ends := by decide +kernel
  text := by decide
  announces := by decide +kernel

/-- The digit of the length is taken for the content, and happens to be it. -/
theorem recv_dechunk_iff_digit : bothFields.Decoded 10 [] :=
  (recv_dechunk_iff bothFields 10 (by decide) []).mpr
    ⟨bothFields.header ++ crlf2, [], bothFields.encoded, by decide +kernel⟩

/-- `HTTP/1.1 200 OK` and `Transfer-Encoding: chunked`. -/
def chunkedOk : ChunkedResponse where
  header := [72, 84, 84, 80, 47, 49, 46, 49, 32, 50, 48, 48, 32, 79, 75, 13, 10] ++
    transferEncodingChunked
  chunks := [oneChunk]
  ends := by decide +kernel
  text := by decide
  announces := by decide +kernel

/-- An ordinary response with one chunk is not decoded. -/
theorem recv_dechunk_null : ¬ chunkedOk.Decoded 100 [] := by
  rintro ⟨header, s', h⟩
  have herr : Chunked.recv [] 100 ⟨chunkedOk.wire, []⟩ = .error .undefined := by decide +kernel
  rw [herr] at h
  cases h

end CommonTools.HttpClient
