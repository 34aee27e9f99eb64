import CommonTools.Http.Message
import CommonTools.Lib.Scanf
import CommonTools.Lib.Socket

/-! # Receiving responses

What `HttpClient::recv` reads from the server. The header is read in whole
blocks of `READ_BUF_SIZE` bytes; its end is looked for in each block. -/
namespace CommonTools.HttpClient
open CommonTools.Lib CommonTools.Http

def READ_BUF_SIZE : Nat := 64

/-- The loop of `read_http_header_timeout`: the header, its length, what came
behind its end, and the stream. Every block takes a byte off the stream, which
bounds the rounds. -/
def readHeaderLoop : Nat → Bytes → Socket → Except Stop (Bytes × Int × Bytes × Socket)
  | 0, _, _ => .error .undefined
  | rounds + 1, header, sock =>
    let (read_buf, sock) := sock.readn READ_BUF_SIZE READ_BUF_SIZE
    if read_buf = [] then .error (.returns (-1))
    else
      match find crlf2 (cstr read_buf) with
      | some pos =>
        let left_header_len := pos + 4
        let header := header ++ cstr (read_buf.take left_header_len)
        .ok (header, toInt32 header.length, read_buf.drop left_header_len, sock)
      | none => readHeaderLoop rounds (header ++ cstr read_buf) sock

/-- `read_http_header_timeout`; the header is appended to what `header` holds. -/
def readHttpHeaderTimeout (header : Bytes) (sock : Socket) :
    Except Stop (Bytes × Int × Bytes × Socket) :=
  readHeaderLoop (sock.unread.length + 1) header sock

/-- `readn_timeout`: the return value, what was read, and the stream. -/
def readnTimeout (need_to_read : Int) (sock : Socket) : Int × Bytes × Socket :=
  if need_to_read ≤ 0 then (-1, [], sock)
  else
    let (got, sock) := sock.readn READ_BUF_SIZE need_to_read.toNat
    (got.length, got, sock)

def UINT_MAX : Nat := 2 ^ 32 - 1

/-- What `sscanf` leaves in `body_len`, which holds -1 before. -/
def scanBodyLen (header : Bytes) (idx : Nat) : Nat :=
  match Scanf.scan (contentLength.map .byte ++ [.int]) (cstr (header.drop idx)) with
  | [.int v] => (v.emod (2 ^ 32)).toNat
  | _ => UINT_MAX

def NOT_ENOUGH_BUFF : Int := -3

def INVALID_HEADER : Int := -2

def READ_TIMEOUT : Int := -1

/-- `Transfer-Encoding: chunked`. -/
def transferEncodingChunked : Bytes :=
  [84, 114, 97, 110, 115, 102, 101, 114, 45, 69, 110, 99, 111, 100, 105, 110, 103, 58, 32,
    99, 104, 117, 110, 107, 101, 100]

/-- `recv` when it returns 0: the header, what it wrote to `body_buf`, `body_len`
and the stream. A chunked body is read by `recvChunked`, from the length of the part
that came with the header, the length of `body_buf` and the stream. -/
def recvWith (recvChunked : Nat → Nat → Socket → Except Stop (Bytes × Nat × Socket))
    (header : Bytes) (max_buf_len : Nat) (sock : Socket) :
    Except Stop (Bytes × Bytes × Nat × Socket) :=
  match readHttpHeaderTimeout header sock with
  | .error (.returns _) => .error (.returns INVALID_HEADER)
  | .error .undefined => .error .undefined
  | .ok (header, _, part_body, sock) =>
    let idx := findInt contentLength header
    if idx ≠ -1 then
      if idx < 0 then .error .undefined
      else
        let body_len := scanBodyLen header idx.toNat
        if max_buf_len < body_len then .error (.returns NOT_ENOUGH_BUFF)
        else if max_buf_len < part_body.length then .error .undefined
        else
          let need_to_read := toInt32 ((body_len : Int) - part_body.length)
          if need_to_read ≤ 0 then .error (.returns (-1))
          else
            let (read_ret, got, sock) := readnTimeout need_to_read sock
            if read_ret ≠ need_to_read then .error (.returns READ_TIMEOUT)
            else .ok (header, part_body ++ got, body_len, sock)
    else if (find transferEncodingChunked header).isSome then
      (recvChunked part_body.length max_buf_len sock).map fun (body, body_len, sock) =>
        (header, body, body_len, sock)
    else .error (.returns INVALID_HEADER)

/-- `recv` for all but chunked bodies, which it reads through a null pointer. -/
def recv : Bytes → Nat → Socket → Except Stop (Bytes × Bytes × Nat × Socket) :=
  recvWith fun _ _ _ => .error .undefined

end CommonTools.HttpClient
