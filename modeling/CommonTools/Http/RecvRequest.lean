import CommonTools.Http.Message
import CommonTools.Lib.Scanf
import CommonTools.Lib.Socket

/-! # Receiving requests

What `recv_request` reads from a connection: a header up to the empty line, and
as many bytes of content as the header says. Bytes that came with the header
wait in `_read_buf` of the handle. -/
namespace CommonTools.Http
open CommonTools.Lib

def READ_BUF_SIZE : Nat := 512

/-! ## `GetInfo` -/

structure RequestInfo where
  request_url : Bytes
  content_len : Int
  keep_alive : Bool
deriving DecidableEq

/-- `POST`, `GET`, `PUT` and `DELETE`. -/
def requestMethods : List Bytes :=
  [[80, 79, 83, 84], [71, 69, 84], [80, 85, 84], [68, 69, 76, 69, 84, 69]]

/-- The format `… /%s HTTP/%u.%u` for one method. -/
def requestFormat (method : Bytes) : List Scanf.Directive :=
  method.map .byte ++ [.space, .byte 47, .str, .space, .byte 72, .byte 84, .byte 84, .byte 80,
    .byte 47, .uint, .byte 46, .uint]

/-- `Connection: close`. -/
def connectionClose : Bytes :=
  [67, 111, 110, 110, 101, 99, 116, 105, 111, 110, 58, 32, 99, 108, 111, 115, 101]

/-- `Connection: keep-alive`. -/
def connectionKeepAlive : Bytes :=
  [67, 111, 110, 110, 101, 99, 116, 105, 111, 110, 58, 32, 107, 101, 101, 112, 45, 97, 108, 105,
    118, 101]

/-- The first of the methods that stands somewhere in the header decides. -/
def requestLine (header : Bytes) : Option (List Scanf.Value) :=
  requestMethods.findSome? fun method =>
    (find method header).map fun pos => Scanf.scan (requestFormat method) (cstr (header.drop pos))

/-- `GetInfo`. Without a `Content-Length:` it reads in front of the header. -/
def getInfo (header : Bytes) : Except Stop RequestInfo :=
  match requestLine header with
  | some [.str uri, _, _] =>
    match find contentLength header with
    | none => .error .undefined
    | some pos => .ok
      { request_url := uri
        content_len :=
          match Scanf.scan (contentLength.map .byte ++ [.space, .int]) (cstr (header.drop pos)) with
          | [.int content_len] => content_len
          | _ => 0
        keep_alive :=
          (find connectionClose header).isNone && (find connectionKeepAlive header).isSome }
  | _ => .error (.returns (-1))

/-! ## Reading -/

/-- The loop of `read_http_header_timeout`; what was read is appended as a C
string. Every read takes a byte off the stream, which bounds the rounds. -/
def readHeaderLoop : Nat → Bytes → Socket → Except Stop (Bytes × Bytes × Socket)
  | 0, _, _ => .error .undefined
  | rounds + 1, _buffer, sock =>
    let pos := findInt crlf2 _buffer
    if 0 ≤ pos then
      if INT_MAX < pos + 4 then .error .undefined
      else .ok (_buffer.take pos.toNat, _buffer.drop (pos + 4).toNat, sock)
    else
      let (buf, sock) := sock.read READ_BUF_SIZE
      if buf = [] then .error (.returns (-1))
      else readHeaderLoop rounds (_buffer ++ cstr buf) sock

/-- `read_http_header_timeout`: the header, the buffer and the stream after it. -/
def readHttpHeaderTimeout (_buffer : Bytes) (sock : Socket) :
    Except Stop (Bytes × Bytes × Socket) :=
  readHeaderLoop (sock.unread.length + 1) _buffer sock

/-- `readn_timeout`: the return value, the content, the buffer and the stream. -/
def readnTimeout (_buffer : Bytes) (sock : Socket) (buf_len : Int) :
    Except Stop (Int × Bytes × Bytes × Socket) :=
  let left := toInt32 (buf_len - _buffer.length)
  if left ≤ 0 then
    if 0 ≤ buf_len ∧ buf_len ≤ _buffer.length then
      .ok (buf_len, _buffer.take buf_len.toNat, _buffer.drop buf_len.toNat, sock)
    else .error .undefined
  else if (_buffer.length : Int) ≤ buf_len then
    let (got, sock) := sock.readn READ_BUF_SIZE left.toNat
    .ok (buf_len - (left - got.length), _buffer ++ got, [], sock)
  else .error .undefined

/-- What one `recv_request` comes to: no request, or a header with its content,
behind which the connection ends or is read on. -/
inductive Received where
  | nothing (why : Stop)
  | last (header content : Bytes)
  | next (header content _buffer : Bytes) (sock : Socket)

/-- `recv_request`. Behind an empty content it writes through the null pointer
`content_buf`; the worker closes a connection that is not to be kept. -/
def recvRequest (_buffer : Bytes) (sock : Socket) : Received :=
  match readHttpHeaderTimeout _buffer sock with
  | .error why => .nothing why
  | .ok (header, _buffer, sock) =>
    match getInfo header with
    | .error why => .nothing why
    | .ok info =>
      -- `malloc(content_len + 10)` and `memset`
      if info.content_len < 0 ∨ INT_MAX < info.content_len + 10 then .nothing .undefined
      else
        match readnTimeout _buffer sock info.content_len with
        | .error why => .nothing why
        | .ok (ret, content, _buffer, sock) =>
          if ret = info.content_len then
            if info.content_len = 0 ∨ info.keep_alive = false then .last header content
            else .next header content _buffer sock
          else .nothing (.returns (-1))

/-- The requests that one connection brings; every request takes bytes off it,
which bounds their number. -/
def deliver : Nat → Bytes → Socket → List (Bytes × Bytes)
  | 0, _, _ => []
  | rounds + 1, _buffer, sock =>
    match recvRequest _buffer sock with
    | .nothing _ => []
    | .last header content => [(header, content)]
    | .next header content _buffer sock => (header, content) :: deliver rounds _buffer sock

/-- The (header, content) pairs of a stream that `read` cuts at `cuts`. -/
def delivered (stream : Bytes) (cuts : List Nat) : List (Bytes × Bytes) :=
  deliver (stream.length + 1) [] ⟨stream, cuts⟩

end CommonTools.Http
