import CoroutineScheduler.Http.Request

/-!
# Responses and the response parser

`HttpResponse` with the callbacks that `HttpResponseParser` hangs into the generated machine of
`httpclient_parser.rl`. The machine accepts a response header section or the size line of a chunk;
it is a parameter (`ResponseMachine`), of which only the transitions over a size line are fixed.
-/

namespace CoroutineScheduler.Http

open Scan Splice

/-- The value of a digit, 36 for a byte that is none. -/
def digitValue (b : UInt8) : ℕ :=
  if 48 ≤ b ∧ b ≤ 57 then b.toNat - 48
  else if 65 ≤ b ∧ b ≤ 90 then b.toNat - 55
  else if 97 ≤ b ∧ b ≤ 122 then b.toNat - 87
  else 36

/-- `xdigit`. -/
def xdigit (b : UInt8) : Bool := digitValue b < 16

theorem xdigit_ne {b c : UInt8} (h : xdigit b = true) (hc : xdigit c = false) : b ≠ c := by
  rintro rfl
  rw [h] at hc
  cases hc

/-- `isspace` in the C locale. -/
def isspace (b : UInt8) : Bool := b == 32 || (9 ≤ b && b ≤ 13)

/-- The number that a text starts with. -/
def digitsValue (base : ℕ) (text : List UInt8) : ℕ :=
  (text.takeWhile fun b => digitValue b < base).foldl (fun v b => base * v + digitValue b) 0

/-- A text without the `0x` that `strtol` allows in front of hexadecimal digits. -/
def stripHex (base : ℕ) (t : List UInt8) : List UInt8 :=
  if base = 16 ∧ t[0]? = some 48 ∧ (t[1]? = some 120 ∨ t[1]? = some 88) ∧ t[2]?.any xdigit then
    t.drop 2
  else t

/-- `strtol(text, NULL, base)`, saturating at the bounds of `long`. -/
def strtol (base : ℕ) (text : List UInt8) : ℤ :=
  let t := text.dropWhile isspace
  if t.head? = some 45 then max (-2 ^ 63) (-(digitsValue base (stripHex base t.tail)))
  else if t.head? = some 43 then min (2 ^ 63 - 1) (digitsValue base (stripHex base t.tail))
  else min (2 ^ 63 - 1) (digitsValue base (stripHex base t))

/-- The conversion of a `long` to `int`. -/
def longToInt (v : ℤ) : ℤ := Int.bmod v (2 ^ 32)

structure HttpResponse where
  status : ℤ := 200
  version : UInt8 := 0x11
  close : Bool := true
  websocket : Bool := false
  reason : List UInt8 := []
  headers : MapType := []
  cookies : List (List UInt8) := []
  body : List UInt8 := []
  deriving DecidableEq, Repr

/-- The actions of `httpclient_parser.rl`. -/
inductive ResponseAction
  | mark | startField | writeField | startValue | writeContentLen | writeConnectionClose
  | writeValue | reasonPhrase | statusCode | httpVersion | chunkSize | transChunked | done
  deriving DecidableEq, Repr

/-- `httpclient_parser` and `HttpResponseParser`. -/
structure ResponseParser where
  mark : ℕ := 0
  fieldStart : ℕ := 0
  fieldLen : ℕ := 0
  contentLen : ℤ := -1
  status : ℤ := 0
  chunked : Bool := false
  chunksDone : Bool := false
  close : Bool := false
  error : ℕ := 0
  data : HttpResponse := {}
  deriving DecidableEq, Repr

namespace ResponseParser

/-- `httpclient_parser_init`: the status stays. -/
def init (e : ResponseParser) : ResponseParser :=
  { status := e.status, error := e.error, data := e.data }

/-- The assignments at the start of `httpclient_parser_execute`. -/
def reset (e : ResponseParser) : ResponseParser :=
  { e with mark := 0, fieldStart := 0, fieldLen := 0 }

/-- The text from the mark up to the current byte. -/
def marked (buffer : List UInt8) (p : ℕ) (e : ResponseParser) : List UInt8 :=
  slice buffer e.mark (p - e.mark)

/-- `on_response_version`. -/
def onResponseVersion (text : List UInt8) (e : ResponseParser) : ResponseParser :=
  match versionOf text with
  | some v => { e with data := { e.data with version := v } }
  | none => { e with error := 1001 }

/-- `on_response_http_field`. -/
def onResponseHttpField (field value : List UInt8) (e : ResponseParser) : ResponseParser :=
  { e with data := { e.data with headers := e.data.headers.add field value } }

/-- An action at position `p` of the buffer, which ends with a NUL. -/
def act (buffer : List UInt8) (p : ℕ) : ResponseAction → ResponseParser → ResponseParser
  | .mark, e | .startValue, e => { e with mark := p }
  | .startField, e => { e with fieldStart := p }
  | .writeField, e => { e with fieldLen := p - e.fieldStart }
  | .writeContentLen, e => { e with contentLen := longToInt (strtol 10 (buffer.drop e.mark)) }
  | .writeConnectionClose, e => { e with close := true }
  | .writeValue, e =>
    e.onResponseHttpField (slice buffer e.fieldStart e.fieldLen) (e.marked buffer p)
  | .reasonPhrase, e => { e with data := { e.data with reason := e.marked buffer p } }
  | .statusCode, e =>
    let status := longToInt (strtol 10 (buffer.drop e.mark))
    { e with status := status, data := { e.data with status := status } }
  | .httpVersion, e => e.onResponseVersion (e.marked buffer p)
  | .chunkSize, e =>
    let contentLen := longToInt (strtol 16 (buffer.drop e.mark))
    { e with chunked := true, contentLen := contentLen, chunksDone := contentLen ≤ 0 }
  | .transChunked, e => { e with chunked := true }
  | .done, e => e

end ResponseParser

/-- The machine of `httpclient_parser.rl`: the state that counts as finished is entered with the
action `done`, and a size line leads from the start through the states `size` and `sizeCr`. -/
structure ResponseMachine extends Scanner ResponseAction where
  start_not_final : final start = false
  final_done : ∀ {s b s' as}, next s b = some (s', as) → final s' = true → ResponseAction.done ∈ as
  size : State
  sizeCr : State
  sized : State
  sized_final : final sized = true
  start_digit : ∀ b, xdigit b = true → next start b = some (size, [.mark])
  size_digit : ∀ b, xdigit b = true → next size b = some (size, [])
  size_cr : next size 13 = some (sizeCr, [.chunkSize])
  size_lf : next sizeCr 10 = some (sized, [.done])

end CoroutineScheduler.Http
