/-
HTTP messages (include/http/http.h, src/http/http.cpp): methods and statuses with their texts, the header map,
`HttpRequest` and `HttpResponse`.

The maps of parameters and cookies of a request, which no function here reads or writes, are left out. A status is the
`int` it is cast from.
-/
import CoServer.Core.CString
import CoServer.Core.OrderedSet

namespace CoServer.Http

open CoServer.Core CString

/-! ## Methods -/

inductive HttpMethod where
  | delete | get | head | post | put | connect | options | trace | copy | lock | mkcol | move | propfind
  | proppatch | search
  | unlock | bind | rebind | unbind | acl | report | mkactivity | checkout | merge | msearch | notify | subscribe
  | unsubscribe
  | patch | purge | mkcalendAr | link | unlink | source
  | invalidMethod
deriving DecidableEq

/-- `HTTP_METHOD_MAP`, with the strings the preprocessor makes of its third column -/
def methodMap : List (String × HttpMethod) :=
  [("DELETE", .delete), ("GET", .get), ("HEAD", .head), ("POST", .post), ("PUT", .put), ("CONNECT", .connect),
    ("OPTIONS", .options), ("TRACE", .trace), ("COPY", .copy), ("LOCK", .lock), ("MKCOL", .mkcol), ("MOVE", .move),
    ("PROPFIND", .propfind), ("PROPPATCH", .proppatch), ("SEARCH", .search), ("UNLOCK", .unlock), ("BIND", .bind),
    ("REBIND", .rebind), ("UNBIND", .unbind), ("ACL", .acl), ("REPORT", .report), ("MKACTIVITY", .mkactivity),
    ("CHECKOUT", .checkout), ("MERGE", .merge), ("M - SEARCH", .msearch), ("NOTIFY", .notify),
    ("SUBSCRIBE", .subscribe),
    ("UNSUBSCRIBE", .unsubscribe), ("PATCH", .patch), ("PURGE", .purge), ("MKCALENDAR", .mkcalendAr), ("LINK", .link),
    ("UNLINK", .unlink), ("SOURCE", .source)]

/-- `charsToHttpMethod`: the first entry that is a prefix of the string -/
def charsToHttpMethod (m : List UInt8) : HttpMethod :=
  match methodMap.find? fun e => (lit e.1).isPrefixOf (cstr m) with
  | some e => e.2
  | none => .invalidMethod

/-- `httpMethodToString`: the enumerators number the entries of the table -/
def httpMethodToString (m : HttpMethod) : List UInt8 :=
  match methodMap.find? fun e => e.2 == m with
  | some e => lit e.1
  | none => lit "<unknown>"

/-! ## Statuses -/

/-- `HTTP_STATUS_MAP`, with the strings the preprocessor makes of its third column -/
def statusMap : List (ℤ × String) :=
  [(100, "Continue"), (101, "Switching Protocols"), (102, "Processing"), (200, "OK"), (201, "Created"),
    (202, "Accepted"),
    (203, "Non - Authoritative Information"), (204, "No Content"), (205, "Reset Content"), (206, "Partial Content"),
    (207, "Multi - Status"), (208, "Already Reported"), (226, "IM Used"), (300, "Multiple Choices"),
    (301, "Moved Permanently"),
    (302, "Found"), (303, "See Other"), (304, "Not Modified"), (305, "Use Proxy"), (307, "Temporary Redirect"),
    (308, "Permanent Redirect"), (400, "Bad Request"), (401, "Unauthorized"), (402, "Payment Required"),
    (403, "Forbidden"),
    (404, "Not Found"), (405, "Method Not Allowed"), (406, "Not Acceptable"), (407, "Proxy Authentication Required"),
    (408, "Request Timeout"), (409, "Conflict"), (410, "Gone"), (411, "Length Required"), (412, "Precondition Failed"),
    (413, "Payload Too Large"), (414, "URI Too Long"), (415, "Unsupported Media Type"), (416, "Range Not Satisfiable"),
    (417, "Expectation Failed"), (421, "Misdirected Request"), (422, "Unprocessable Entity"), (423, "Locked"),
    (424, "Failed Dependency"), (426, "Upgrade Required"), (428, "Precondition Required"), (429, "Too Many Requests"),
    (431, "Request Header Fields Too Large"), (451, "Unavailable For Legal Reasons"), (500, "Internal Server Error"),
    (501, "Not Implemented"), (502, "Bad Gateway"), (503, "Service Unavailable"), (504, "Gateway Timeout"),
    (505, "HTTP Version Not Supported"), (506, "Variant Also Negotiates"), (507, "Insufficient Storage"),
    (508, "Loop Detected"), (510, "Not Extended"), (511, "Network Authentication Required")]

/-- `httpStatusToString` -/
def httpStatusToString (status : ℤ) : List UInt8 :=
  match statusMap.find? fun e => e.1 == status with
  | some e => lit e.2
  | none => lit "<unknown>"

/-! ## Headers -/

/-- `MapType`: a `std::map`, in the order of `CaseInsensitiveLess` -/
abbrev HeaderMap := List (List UInt8 × List UInt8)

/-- `CaseInsensitiveLess` on the keys -/
def lessHeader (a b : List UInt8 × List UInt8) : Bool := decide (fold a.1 < fold b.1)

/-- `_headers.find(key)` -/
def HeaderMap.find (m : HeaderMap) (key : List UInt8) : Option (List UInt8 × List UInt8) :=
  List.find? (fun e => fold e.1 == fold key) m

/-- `_headers[key] = val`: an equivalent key stays as it is spelled -/
def HeaderMap.assign (m : HeaderMap) (key val : List UInt8) : HeaderMap :=
  if (m.find key).isSome then m.map fun e => if fold e.1 = fold key then (e.1, val) else e
  else OrderedSet.insert lessHeader (key, val) m

/-- `getHeader(key, "")` -/
def HeaderMap.getHeader (m : HeaderMap) (key : List UInt8) : List UInt8 :=
  match m.find key with
  | some e => e.2
  | none => []

/-! ## Requests and responses -/

structure HttpRequest where
  method : HttpMethod := .get
  version : UInt8 := 0x11
  close : Bool := true
  websocket : Bool := false
  path : List UInt8 := lit "/"
  query : List UInt8 := []
  fragment : List UInt8 := []
  body : List UInt8 := []
  headers : HeaderMap := []
deriving DecidableEq

/-- `HttpRequest::init` -/
def HttpRequest.init (r : HttpRequest) : HttpRequest :=
  let conn := r.headers.getHeader (lit "connection")
  if conn = [] then r else { r with close := decide (fold conn ≠ fold (lit "keep-alive")) }

structure HttpResponse where
  status : ℤ := 200
  version : UInt8 := 0x11
  close : Bool := true
  websocket : Bool := false
  body : List UInt8 := []
  reason : List UInt8 := []
  headers : HeaderMap := []
  /-- as `setCookie` writes them -/
  cookies : List (List UInt8) := []
deriving DecidableEq

end CoServer.Http
