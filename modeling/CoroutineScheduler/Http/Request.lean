import CoroutineScheduler.Lib.Scan
import CoroutineScheduler.Lib.Splice

/-!
# Requests and the request parser

`HttpRequest` with the callbacks that `HttpRequestParser` hangs into the generated machine of
`http11_parser.rl`. The machine itself is a parameter (`RequestMachine`): a scanner whose
transitions carry the actions of the grammar. What is embedded here is everything the actions do:
the offsets they keep in the buffer of the current call, and the text that the callbacks cut out of
that buffer.
-/

namespace CoroutineScheduler.Http

open Scan Splice

/-- The bytes of an ASCII text. -/
def ascii (s : String) : List UInt8 := s.toList.map fun c => c.toNat.toUInt8

/-- `tolower` in the C locale. -/
def tolower (b : UInt8) : UInt8 := if 65 ≤ b ∧ b ≤ 90 then b + 32 else b

/-- What `strcasecmp` looks at: the text up to its first NUL, in lower case. -/
def folded (s : List UInt8) : List UInt8 := (s.takeWhile (· ≠ 0)).map tolower

/-- `strncmp(a, b, n) == 0`, for two texts that end with a NUL. -/
def strncmpEq : List UInt8 → List UInt8 → ℕ → Bool
  | _, _, 0 => true
  | a, b, n + 1 =>
    a.headD 0 = b.headD 0 && (a.headD 0 = 0 || strncmpEq a.tail b.tail n)

/-- `std::map<std::string, std::string, CaseInsensitiveLess>`, in the order of its keys. -/
abbrev MapType := List (List UInt8 × List UInt8)

/-- `m[key] = val`: an equal key keeps its old spelling. -/
def MapType.set (key val : List UInt8) : MapType → MapType
  | [] => [(key, val)]
  | (k, v) :: m =>
    if folded key < folded k then (key, val) :: (k, v) :: m
    else if folded k < folded key then (k, v) :: MapType.set key val m
    else (k, val) :: m

/-- A header field as the parsers add it: one without a name is only logged. -/
def MapType.add (field value : List UInt8) (m : MapType) : MapType :=
  if field = [] then m else m.set field value

/-- `m.find(key)`. -/
def MapType.find (key : List UInt8) (m : MapType) : Option (List UInt8) :=
  (List.find? (fun e => folded e.1 = folded key) m).map Prod.snd

/-- The version that the parsers accept in a text, `none` for an invalid one. The comparison is over
the length of the text, so that every front of a version is taken for it. -/
def versionOf (text : List UInt8) : Option UInt8 :=
  if strncmpEq text (ascii "HTTP/1.1") text.length then some 0x11
  else if strncmpEq text (ascii "HTTP/1.0") text.length then some 0x10
  else none

inductive HttpMethod
  | DELETE | GET | HEAD | POST | PUT | CONNECT | OPTIONS | TRACE
  | COPY | LOCK | MKCOL | MOVE | PROPFIND | PROPPATCH | SEARCH | UNLOCK | BIND | REBIND | UNBIND
  | ACL | REPORT | MKACTIVITY | CHECKOUT | MERGE | MSEARCH | NOTIFY | SUBSCRIBE | UNSUBSCRIBE
  | PATCH | PURGE | MKCALENDAR | LINK | UNLINK | SOURCE | INVALID_METHOD
  deriving DecidableEq, Repr

/-- `HTTP_METHOD_MAP`: the methods with their names, in the order of the macro. -/
def httpMethodMap : List (HttpMethod × String) :=
  [(.DELETE, "DELETE"), (.GET, "GET"), (.HEAD, "HEAD"), (.POST, "POST"), (.PUT, "PUT"),
    (.CONNECT, "CONNECT"), (.OPTIONS, "OPTIONS"), (.TRACE, "TRACE"),
    (.COPY, "COPY"), (.LOCK, "LOCK"), (.MKCOL, "MKCOL"), (.MOVE, "MOVE"),
    (.PROPFIND, "PROPFIND"), (.PROPPATCH, "PROPPATCH"), (.SEARCH, "SEARCH"),
    (.UNLOCK, "UNLOCK"), (.BIND, "BIND"), (.REBIND, "REBIND"), (.UNBIND, "UNBIND"),
    (.ACL, "ACL"), (.REPORT, "REPORT"), (.MKACTIVITY, "MKACTIVITY"),
    (.CHECKOUT, "CHECKOUT"), (.MERGE, "MERGE"), (.MSEARCH, "M-SEARCH"),
    (.NOTIFY, "NOTIFY"), (.SUBSCRIBE, "SUBSCRIBE"), (.UNSUBSCRIBE, "UNSUBSCRIBE"),
    (.PATCH, "PATCH"), (.PURGE, "PURGE"), (.MKCALENDAR, "MKCALENDAR"),
    (.LINK, "LINK"), (.UNLINK, "UNLINK"), (.SOURCE, "SOURCE")]

/-- `CharsToHttpMethod`: the first name that the text starts with. -/
def charsToHttpMethod (text : List UInt8) : Option HttpMethod :=
  (httpMethodMap.find? fun e => (ascii e.2).isPrefixOf text).map Prod.fst

structure HttpRequest where
  method : HttpMethod := .GET
  version : UInt8 := 0x11
  close : Bool := true
  websocket : Bool := false
  path : List UInt8 := ascii "/"
  query : List UInt8 := []
  fragment : List UInt8 := []
  headers : MapType := []
  body : List UInt8 := []
  deriving DecidableEq, Repr

/-- `HttpRequest::getHeader`, with the empty text as default. -/
def HttpRequest.getHeader (r : HttpRequest) (key : String) : List UInt8 :=
  (r.headers.find (ascii key)).getD []

/-- `HttpRequest::init`. -/
def HttpRequest.init (r : HttpRequest) : HttpRequest :=
  let conn := r.getHeader "connection"
  if conn = [] then r else { r with close := folded conn ≠ folded (ascii "keep-alive") }

/-- The actions of `http11_parser.rl`; `start_value` is `mark` under another name. -/
inductive Action
  | mark | startField | writeField | startValue | writeValue | requestMethod | requestUri
  | fragment | startQuery | queryString | httpVersion | requestPath | done | xml | json
  deriving DecidableEq, Repr

/-- `http_parser` and `HttpRequestParser`: the offsets into the buffer of the running call, the
error and the request under construction. `threw` records the exception of a `std::string` that is
built with a negative length. -/
structure RequestParser where
  mark : ℕ := 0
  fieldStart : ℕ := 0
  fieldLen : ℕ := 0
  queryStart : ℕ := 0
  error : ℕ := 0
  threw : Bool := false
  data : HttpRequest := {}
  deriving DecidableEq, Repr

namespace RequestParser

/-- The assignments at the start of `http_parser_execute`; `query_start` is not among them. -/
def reset (e : RequestParser) : RequestParser := { e with mark := 0, fieldStart := 0, fieldLen := 0 }

/-- `on_request_method`. -/
def onRequestMethod (text : List UInt8) (e : RequestParser) : RequestParser :=
  match charsToHttpMethod text with
  | none => { e with error := 1000 }
  | some m => { e with data := { e.data with method := m } }

/-- `on_request_version`. -/
def onRequestVersion (text : List UInt8) (e : RequestParser) : RequestParser :=
  match versionOf text with
  | some v => { e with data := { e.data with version := v } }
  | none => { e with error := 1001 }

/-- `on_request_http_field`. -/
def onRequestHttpField (field value : List UInt8) (e : RequestParser) : RequestParser :=
  { e with data := { e.data with headers := e.data.headers.add field value } }

/-- The text from the mark up to the current byte. -/
def marked (buffer : List UInt8) (p : ℕ) (e : RequestParser) : List UInt8 :=
  slice buffer e.mark (p - e.mark)

/-- An action at position `p` of the buffer. -/
def act (buffer : List UInt8) (p : ℕ) : Action → RequestParser → RequestParser
  | .mark, e | .startValue, e => { e with mark := p }
  | .startField, e => { e with fieldStart := p }
  | .writeField, e => { e with fieldLen := p - e.fieldStart }
  | .writeValue, e =>
    e.onRequestHttpField (slice buffer e.fieldStart e.fieldLen) (e.marked buffer p)
  -- the callback is given the length of the token and does not look at it
  | .requestMethod, e => e.onRequestMethod (buffer.drop e.mark)
  | .fragment, e => { e with data := { e.data with fragment := e.marked buffer p } }
  | .startQuery, e => { e with queryStart := p }
  | .queryString, e =>
    -- an offset of an earlier call can lie behind the current byte: the length wraps
    if p < e.queryStart then { e with threw := true }
    else { e with data := { e.data with query := slice buffer e.queryStart (p - e.queryStart) } }
  | .httpVersion, e => e.onRequestVersion (e.marked buffer p)
  | .requestPath, e => { e with data := { e.data with path := e.marked buffer p } }
  | .requestUri, e | .done, e | .xml, e | .json, e => e

end RequestParser

/-- The registers that were set in the running call, and whether a callback used another one. -/
structure Fresh where
  mark : Bool := false
  fieldStart : Bool := false
  fieldLen : Bool := false
  queryStart : Bool := false
  torn : Bool := false

/-- What an action does to the registers; `request_uri` has an empty callback. -/
def Fresh.note (f : Fresh) : Action → Fresh
  | .mark | .startValue => { f with mark := true }
  | .startField => { f with fieldStart := true, fieldLen := false }
  | .writeField => { f with fieldLen := f.fieldStart }
  | .writeValue => { f with torn := f.torn || !(f.mark && f.fieldLen) }
  | .requestMethod | .fragment | .httpVersion | .requestPath =>
    { f with torn := f.torn || !f.mark }
  | .startQuery => { f with queryStart := true }
  | .queryString => { f with torn := f.torn || !f.queryStart }
  | .requestUri | .done | .xml | .json => f

/-- A call on `buffer` in the state `cs` uses a register of an earlier call. -/
def tears (m : Scanner Action) (buffer : List UInt8) (cs : m.State) : Bool :=
  (exec m (fun _ a (f : Fresh) => f.note a) (fun a => a = .done) 0 buffer cs {}).env.torn

/-- The machine of `http11_parser.rl`: its final states are entered with the action `done` and only
so, a method ends at a space, and from the start on a register is set before it is used. -/
structure RequestMachine extends Scanner Action where
  start_not_final : final start = false
  final_iff : ∀ {s b s' as}, next s b = some (s', as) → (final s' = true ↔ Action.done ∈ as)
  method_space : ∀ {s b s' as}, next s b = some (s', as) → Action.requestMethod ∈ as → b = 32
  start_untorn : ∀ buffer, tears toScanner buffer start = false

end CoroutineScheduler.Http
