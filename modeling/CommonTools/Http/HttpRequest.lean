import CommonTools.Http.Dump
import CommonTools.Http.RecvRequestSound
import CommonTools.Lib.ScanMatch

/-! # Requests of the client

`HttpRequest` prints a request line, its fields and its content. The server
looks for the method, the length and the connection wherever they stand in the
header, so a url or a field may be taken for any of them. -/
namespace CommonTools.HttpClient
open CommonTools.Lib CommonTools.Http

/-! ## `HttpRequest` -/

inductive HttpVersion where
  | HTTP10
  | HTTP11
deriving DecidableEq

def httpVersionStr : HttpVersion → Bytes
  | .HTTP10 => ascii "HTTP/1.0"
  | .HTTP11 => ascii "HTTP/1.1"

inductive HttpMethod where
  | GET
  | POST
  | PUT
  | DELETE
deriving DecidableEq

def httpMethodName : HttpMethod → Bytes
  | .GET => ascii "GET"
  | .POST => ascii "POST"
  | .PUT => ascii "PUT"
  | .DELETE => ascii "DELETE"

inductive HttpHeaderField where
  | Accept | Accept_Charset | Accept_Encoding | Accept_Language | Accept_Datetime | Authorization
  | Cache_Control | Connection | Cookie | Content_Length | Content_MD5 | Content_Type | Date
  | Expect | From | Host | If_Match | If_Modified_Since | If_None_Match | If_Range
  | If_Unmodified_Since | Max_Forwards | Pragma | Proxy_Authorization | Range | Referer | TE
  | Upgrade | User_Agent | Via | Warning
deriving DecidableEq

/-- `http_header_field_names`, in the order of the fields. -/
def httpHeaderFieldNames : List (HttpHeaderField × Bytes) := [
  (.Accept, ascii "Accept: "),
  (.Accept_Charset, ascii "Accept-Charset: "),
  (.Accept_Encoding, ascii "Accept-Encoding: "),
  (.Accept_Language, ascii "Accept-Language: "),
  (.Accept_Datetime, ascii "Accept-Datetime: "),
  (.Authorization, ascii "Authorization: "),
  (.Cache_Control, ascii "Cache-Control: "),
  (.Connection, ascii "Connection: "),
  (.Cookie, ascii "Cookie: "),
  (.Content_Length, ascii "Content-Length: "),
  (.Content_MD5, ascii "Content-MD5: "),
  (.Content_Type, ascii "Content-Type: "),
  (.Date, ascii "Date: "),
  (.Expect, ascii "Expect: "),
  (.From, ascii "From: "),
  (.Host, ascii "Host: "),
  (.If_Match, ascii "If-Match: "),
  (.If_Modified_Since, ascii "If-Modified-Since: "),
  (.If_None_Match, ascii "If-None-Match: "),
  (.If_Range, ascii "If-Range: "),
  (.If_Unmodified_Since, ascii "If-Unmodified-Since: "),
  (.Max_Forwards, ascii "Max-Forwards: "),
  (.Pragma, ascii "Pragma: "),
  (.Proxy_Authorization, ascii "Proxy-Authorization: "),
  (.Range, ascii "Range: "),
  (.Referer, ascii "Referer: "),
  (.TE, ascii "TE: "),
  (.Upgrade, ascii "Upgrade: "),
  (.User_Agent, ascii "User-Agent: "),
  (.Via, ascii "Via: "),
  (.Warning, ascii "Warning: ")]

/-- A request; the url was a C string. -/
structure HttpRequest where
  version : HttpVersion
  method : HttpMethod
  url : Bytes
  parts : Parts HttpHeaderField .Content_Length
  url_text : NulFree url

namespace HttpRequest

/-- What stands on the first line. -/
def requestText (q : HttpRequest) : Bytes :=
  httpMethodName q.method ++ [32] ++ q.url ++ [32] ++ httpVersionStr q.version

def dumpToBuff (q : HttpRequest) (dest : Bytes) (max_dest_len : Nat) : Except Stop Dumped :=
  Http.dumpToBuff httpHeaderFieldNames (q.requestText ++ lineSep) q.parts dest max_dest_len

/-- The request line, every set field, the empty line and the content. -/
def serialise (q : HttpRequest) : Bytes :=
  q.parts.serialise httpHeaderFieldNames (q.requestText ++ lineSep)

def content (q : HttpRequest) : Bytes := q.parts.content_buff.getD []

/-- What is printed in front of the empty line. -/
def header (q : HttpRequest) : Bytes :=
  let head := q.parts.head httpHeaderFieldNames (q.requestText ++ lineSep)
  head.take (head.length - crlf2.length)

end HttpRequest

end CommonTools.HttpClient
