import CommonTools.Http.Dump

/-! # Sending responses

`retrieve_worker` prints the response of a handler into a buffer on its stack
and sends as many bytes of it as `dump_to_buff` says, whatever that returned. -/
namespace CommonTools.Http
open CommonTools.Lib

/-! ## `HttpResponse` -/

inductive HttpResVersion where
  | HTTP10
  | HTTP11
deriving DecidableEq

def httpResVersionStr : HttpResVersion → Bytes
  | .HTTP10 => ascii "HTTP/1.0"
  | .HTTP11 => ascii "HTTP/1.1"

inductive StatusCode where
  | SC100 | SC101 | SC200 | SC201 | SC202 | SC203 | SC204 | SC205 | SC206 | SC300 | SC301 | SC302
  | SC303 | SC304 | SC305 | SC307 | SC400 | SC401 | SC402 | SC403 | SC404 | SC405 | SC406 | SC407
  | SC408 | SC409 | SC410 | SC411 | SC412 | SC413 | SC414 | SC415 | SC416 | SC417 | SC500 | SC501
  | SC502 | SC503 | SC504 | SC505
deriving DecidableEq

def statusCodeStr : StatusCode → Bytes
  | .SC100 => ascii "100 Continue"
  | .SC101 => ascii "101 Switching Protocols"
  | .SC200 => ascii "200 OK"
  | .SC201 => ascii "201 Created"
  | .SC202 => ascii "202 Accepted"
  | .SC203 => ascii "203 Non-Authoritative Information"
  | .SC204 => ascii "204 No Content"
  | .SC205 => ascii "205 Reset Content"
  | .SC206 => ascii "206 Partial Content"
  | .SC300 => ascii "300 Multiple Choices"
  | .SC301 => ascii "301 Moved Permanently"
  | .SC302 => ascii "302 Found"
  | .SC303 => ascii "303 See Other"
  | .SC304 => ascii "304 Not Modified"
  | .SC305 => ascii "305 Use Proxy"
  | .SC307 => ascii "307 Temporary Redirect"
  | .SC400 => ascii "400 Bad Request"
  | .SC401 => ascii "401 Unauthorized"
  | .SC402 => ascii "402 Payment Required"
  | .SC403 => ascii "403 Forbidden"
  | .SC404 => ascii "404 Not Found"
  | .SC405 => ascii "405 Method Not Allowed"
  | .SC406 => ascii "406 Not Acceptable"
  | .SC407 => ascii "407 Proxy Authentication Required"
  | .SC408 => ascii "408 Request Time-out"
  | .SC409 => ascii "409 Conflict"
  | .SC410 => ascii "410 Gone"
  | .SC411 => ascii "411 Length Required"
  | .SC412 => ascii "412 Precondition Failed"
  | .SC413 => ascii "413 Request Entity Too Large"
  | .SC414 => ascii "414 Request-URI Too Large"
  | .SC415 => ascii "415 Unsupported Media Type"
  | .SC416 => ascii "416 Requested range not satisfiable"
  | .SC417 => ascii "417 Expectation Failed"
  | .SC500 => ascii "500 Internal Server Error"
  | .SC501 => ascii "501 Not Implemented"
  | .SC502 => ascii "502 Bad Gateway"
  | .SC503 => ascii "503 Service Unavailable"
  | .SC504 => ascii "504 Gateway Time-out"
  | .SC505 => ascii "505 HTTP Version not supported"

inductive HttpResponseField where
  | Accept_Ranges | Age | Allow | Cache_Control | Connection | Content_Encoding
  | Content_Language | Content_Length | Content_Location | Content_MD5 | Content_Disposition
  | Content_Range | Content_Type | Date | ETag | Expires | Last_Modified | Link | Location | P3P
  | Pragma | Proxy_Authenticate | Refresh | Retry_After | Server | Set_Cookie
  | Strict_Transport_Security | Trailer | ransfer_Encoding | Vary | Via | Warning
  | WWW_Authenticate
deriving DecidableEq

/-- `http_response_field_names`, in the order of the fields. -/
def httpResponseFieldNames : List (HttpResponseField × Bytes) := [
  (.Accept_Ranges, ascii "Accept-Ranges: "),
  (.Age, ascii "Age: "),
  (.Allow, ascii "Allow: "),
  (.Cache_Control, ascii "Cache-Control: "),
  (.Connection, ascii "Connection: "),
  (.Content_Encoding, ascii "Content-Encoding: "),
  (.Content_Language, ascii "Content-Language: "),
  (.Content_Length, ascii "Content-Length: "),
  (.Content_Location, ascii "Content-Location: "),
  (.Content_MD5, ascii "Content-MD5: "),
  (.Content_Disposition, ascii "Content-Disposition: "),
  (.Content_Range, ascii "Content-Range: "),
  (.Content_Type, ascii "Content-Type: "),
  (.Date, ascii "Date: "),
  (.ETag, ascii "ETag: "),
  (.Expires, ascii "Expires: "),
  (.Last_Modified, ascii "Last-Modified: "),
  (.Link, ascii "Link: "),
  (.Location, ascii "Location: "),
  (.P3P, ascii "P3P: "),
  (.Pragma, ascii "Pragma: "),
  (.Proxy_Authenticate, ascii "Proxy-Authenticate: "),
  (.Refresh, ascii "Refresh: "),
  (.Retry_After, ascii "Retry-After: "),
  (.Server, ascii "Server: "),
  (.Set_Cookie, ascii "Set-Cookie: "),
  (.Strict_Transport_Security, ascii "Strict-Transport-Security: "),
  (.Trailer, ascii "Trailer: "),
  (.ransfer_Encoding, ascii "Transfer-Encoding: "),
  (.Vary, ascii "Vary: "),
  (.Via, ascii "Via: "),
  (.Warning, ascii "Warning: "),
  (.WWW_Authenticate, ascii "WWW-Authenticate: ")]

/-- A response with what its handler has set. -/
structure HttpResponse where
  version : HttpResVersion
  code : StatusCode
  parts : Parts HttpResponseField .Content_Length

def HttpResponse.statusLine (r : HttpResponse) : Bytes :=
  httpResVersionStr r.version ++ [32] ++ statusCodeStr r.code ++ lineSep

def HttpResponse.dumpToBuff (r : HttpResponse) (dest : Bytes) (max_dest_len : Nat) :
    Except Stop Dumped :=
  Http.dumpToBuff httpResponseFieldNames r.statusLine r.parts dest max_dest_len

/-- The status line, every set field, the empty line and the content. -/
def HttpResponse.serialise (r : HttpResponse) : Bytes :=
  r.parts.serialise httpResponseFieldNames r.statusLine

/-! ## Sending -/

/-- How many of `left` bytes a `write` takes: at least one, at most what `takes`
says. -/
def writeCount (left : Nat) : List Nat → Nat
  | [] => left
  | t :: _ => min left (max t 1)

/-- The loop of `writen_timeout` on a connection that accepts all bytes. -/
def writenLoop : Nat → Bytes → List Nat → Bytes
  | 0, _, _ => []
  | rounds + 1, buf, takes =>
    if buf = [] then []
    else
      let n := writeCount buf.length takes
      buf.take n ++ writenLoop rounds (buf.drop n) takes.tail

/-- `send_result`: the bytes that reach the connection. -/
def sendResult (buf : Bytes) (buf_len : Int) (takes : List Nat) : Except Stop Bytes :=
  if (buf.length : Int) < buf_len then .error .undefined
  else .ok (writenLoop buf_len.toNat (buf.take buf_len.toNat) takes)

def RESPONSE_BUF_SIZE : Nat := 40960

/-- `response_buf` of `retrieve_worker`, before anything is written to it. -/
abbrev ResponseBuf := { b : Bytes // b.length = RESPONSE_BUF_SIZE }

/-- `retrieve_worker`: the bytes that it sends. It does not look at what
`dump_to_buff` returns, and `len` has no value before. -/
def retrieveWorker (response : HttpResponse) (response_buf : ResponseBuf) (takes : List Nat) :
    Except Stop Bytes :=
  match response.dumpToBuff response_buf.val RESPONSE_BUF_SIZE with
  | .error _ => .error .undefined
  | .ok d => sendResult d.dest d.len takes

/-- Everything is written, however the connection takes it. -/
theorem writenLoop_eq : ∀ {rounds : Nat} {buf : Bytes} (takes : List Nat), buf.length ≤ rounds →
    writenLoop rounds buf takes = buf := by
  intro rounds
  induction rounds with
  | zero =>
    intro buf takes h
    rw [List.length_eq_zero_iff.mp (Nat.le_zero.mp h)]
    rfl
  | succ rounds ih =>
    intro buf takes h
    rw [writenLoop]
    split
    · rename_i hnil
      exact hnil.symm
    · rename_i hne
      have hlen := List.length_pos_iff.mpr hne
      have hn : 0 < writeCount buf.length takes := by
        unfold writeCount
        split <;> omega
      dsimp only
      rw [ih takes.tail (by rw [List.length_drop]; omega), List.take_append_drop]

theorem sendResult_eq {buf : Bytes} {buf_len : Int} (takes : List Nat)
    (h : buf_len ≤ buf.length) : sendResult buf buf_len takes = .ok (buf.take buf_len.toNat) := by
  rw [sendResult, if_neg (by omega), writenLoop_eq takes (List.length_take_le _ _)]

theorem HttpResponse.statusLine_ne_nil (r : HttpResponse) : r.statusLine ≠ [] := by
  simp [HttpResponse.statusLine]

theorem httpResponseFieldNames_short : ∀ e ∈ httpResponseFieldNames, e.2.length < 2 ^ 16 := by
  decide

/-! ## Whole or not at all -/

section
variable (r : HttpResponse) (response_buf : ResponseBuf) (takes : List Nat)

/-- A response that leaves a byte of the buffer free is sent whole. -/
theorem retrieveWorker_whole (hfits : r.serialise.length < RESPONSE_BUF_SIZE) :
    retrieveWorker r response_buf takes = .ok r.serialise := by
  obtain ⟨dest, hok, hlen, htake⟩ := dumpToBuff_whole r.statusLine_ne_nil response_buf.property
    (by decide) hfits
  rw [retrieveWorker, HttpResponse.dumpToBuff, hok]
  dsimp only
  rw [sendResult_eq takes (by rw [hlen]; unfold HttpResponse.serialise at hfits; omega),
    Int.toNat_natCast, htake]
  rfl

/-- What is sent of any other response is something else. -/
theorem retrieveWorker_long (hlong : RESPONSE_BUF_SIZE ≤ r.serialise.length) {sent : Bytes}
    (hsent : retrieveWorker r response_buf takes = .ok sent) : sent ≠ r.serialise ∧ sent ≠ [] := by
  rw [retrieveWorker] at hsent
  cases hok : r.dumpToBuff response_buf.val RESPONSE_BUF_SIZE with
  | error why =>
    rw [hok] at hsent
    cases hsent
  | ok d =>
    rw [hok] at hsent
    replace hsent : sendResult d.dest d.len takes = .ok sent := hsent
    obtain ⟨hsize, hpos, hother⟩ := dumpToBuff_long r.statusLine_ne_nil
      httpResponseFieldNames_short response_buf.property hlong hok
    by_cases hle : d.len ≤ d.dest.length
    · rw [sendResult_eq takes hle] at hsent
      obtain rfl := Except.ok.inj hsent
      refine ⟨hother (by rw [← hsize]; exact hle), fun hnil => ?_⟩
      have hlen := congrArg List.length hnil
      rw [List.length_take, List.length_nil] at hlen
      omega
    · rw [sendResult, if_pos (by omega)] at hsent
      cases hsent

/-- The header goes out alone when only the content does not fit. -/
theorem retrieveWorker_header {content : Bytes}
    (hfits : (r.parts.head httpResponseFieldNames r.statusLine).length < RESPONSE_BUF_SIZE)
    (hc : r.parts.content_buff = some content)
    (hover : RESPONSE_BUF_SIZE < r.serialise.length) (hint : (r.serialise.length : Int) ≤ INT_MAX) :
    retrieveWorker r response_buf takes =
      .ok (r.parts.head httpResponseFieldNames r.statusLine) := by
  rw [HttpResponse.serialise, Parts.serialise, List.length_append, hc, Option.getD_some]
    at hover hint
  obtain ⟨dest, hok, hlen, htake⟩ := dumpToBuff_header r.statusLine_ne_nil response_buf.property
    (by decide) hfits hc hover hint
  rw [retrieveWorker, HttpResponse.dumpToBuff, hok]
  dsimp only
  rw [sendResult_eq takes (by rw [hlen]; omega), Int.toNat_natCast, htake]

/-- **Which responses are sent whole or not at all.** The bytes on the
connection are the complete response or nothing exactly when the response
leaves a byte of the buffer free. -/
theorem retrieveWorker_whole_iff :
    (∃ sent, retrieveWorker r response_buf takes = .ok sent ∧ (sent = r.serialise ∨ sent = [])) ↔
      r.serialise.length < RESPONSE_BUF_SIZE := by
  constructor
  · rintro ⟨sent, hsent, hwhole⟩
    by_contra hlong
    obtain ⟨hother, hsome⟩ := retrieveWorker_long r response_buf takes (by omega) hsent
    exact hwhole.elim hother hsome
  · intro hfits
    exact ⟨_, retrieveWorker_whole r response_buf takes hfits, .inl rfl⟩

end

/-! ### A response that loses its content -/

/-- `200 OK` with as many bytes of content as the buffer has. -/
def fullResponse : HttpResponse where
  version := .HTTP10
  code := .SC200
  parts := Parts.empty.filled (List.replicate 40960 97) (by rw [List.length_replicate]; decide)

/-- With nothing but a content there is one line. -/
theorem lines_filled (content : Bytes) (h : content.length + 10 < 2 ^ 32) :
    (@Parts.empty HttpResponseField .Content_Length |>.filled content h).lines
        httpResponseFieldNames =
      [ascii "Content-Length: " ++ decimalText content.length ++ lineSep] := rfl

/-- The header announces the content and is sent without it. -/
theorem retrieveWorker_header_alone :
    ∃ (response_buf : ResponseBuf) (sent : Bytes),
      retrieveWorker fullResponse response_buf [] = .ok sent ∧
        ¬ (sent = fullResponse.serialise ∨ sent = []) := by
  have hlen : (fullResponse.parts.head httpResponseFieldNames fullResponse.statusLine).length =
      42 := by
    rw [Parts.head, fullResponse, lines_filled, List.length_replicate]
    decide
  have htotal : fullResponse.serialise.length = 42 + 40960 := by
    rw [HttpResponse.serialise, Parts.serialise, List.length_append, hlen]
    exact congrArg (42 + ·) List.length_replicate
  have hsent := retrieveWorker_header fullResponse
    ⟨List.replicate RESPONSE_BUF_SIZE 0, List.length_replicate⟩ [] (by rw [hlen]; decide) rfl
    (by rw [htotal]; decide) (by rw [htotal]; decide)
  refine ⟨_, _, hsent, ?_⟩
  rintro (hwhole | hnil)
  · have hlen' := congrArg List.length hwhole
    rw [hlen, htotal] at hlen'
    omega
  · rw [hnil] at hlen
    cases hlen

end CommonTools.Http
