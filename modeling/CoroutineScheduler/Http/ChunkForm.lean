import CoroutineScheduler.Http.Response

/-!
# The response machine on chunked responses

The part of the machine of `httpclient_parser.rl` that a response with
`Transfer-Encoding: chunked` and the size lines of its chunks go through: field names that do not
start with a `c` (`Content-Length` and `Connection` have transitions of their own), values that are
not empty, size lines without extensions. The text of a name or value is kept in the state where the
generated code has one state for each of its bytes.
-/

namespace CoroutineScheduler.Http

open Scan

namespace ChunkForm

inductive State
  | start
  | version (n : ℕ)
  | status0
  | status
  | reason0
  | reason
  | cr
  | fields
  | field (name : List UInt8)
  | value0 (name : List UInt8)
  | value (name text : List UInt8)
  | chunkedCr
  | lastCr
  | size
  | sizeCr
  | done
  deriving DecidableEq, Repr

/-- `digit`. -/
def digit (b : UInt8) : Bool := 48 ≤ b && b ≤ 57

/-- Letters, digits and the hyphen. -/
def token (b : UInt8) : Bool := digitValue b < 36 || b == 45

/-- The bytes of a version behind the first one; the two digits are any digits. -/
def versionByte (n : ℕ) (b : UInt8) : Bool :=
  if n = 4 ∨ n = 6 then digit b else (ascii "TTP/0.0")[n]? == some b

/-- The header field that makes a response chunked. -/
def transferEncoding (name text : List UInt8) : Bool :=
  folded name == ascii "transfer-encoding" && folded text == ascii "chunked"

open ResponseAction in
/-- The transitions, with the actions in the order of the generated code. -/
def next : State → UInt8 → Option (State × List ResponseAction)
  | .start, b =>
    if b = 72 then some (.version 0, [mark])
    else if xdigit b then some (.size, [mark])
    else none
  | .version n, b =>
    if n < 7 then if versionByte n b then some (.version (n + 1), []) else none
    else if b = 32 then some (.status0, [httpVersion])
    else none
  | .status0, b => if digit b then some (.status, [mark]) else none
  | .status, b =>
    if b = 32 then some (.reason0, [statusCode])
    else if digit b then some (.status, [])
    else none
  | .reason0, b => if b = 10 ∨ b = 13 then none else some (.reason, [mark])
  | .reason, b =>
    if b = 10 then some (.fields, [reasonPhrase])
    else if b = 13 then some (.cr, [reasonPhrase])
    else some (.reason, [])
  | .cr, b => if b = 10 then some (.fields, []) else none
  | .fields, b =>
    if b = 10 then some (.done, [ResponseAction.done])
    else if b = 13 then some (.lastCr, [])
    else if token b ∧ b ≠ 67 ∧ b ≠ 99 then some (.field [b], [startField])
    else none
  | .field name, b =>
    if b = 58 then some (.value0 name, [writeField])
    else if token b then some (.field (name ++ [b]), [])
    else none
  | .value0 name, b =>
    if b = 10 ∨ b = 13 then none
    else if isspace b then some (.value0 name, [startValue])
    else some (.value name [b], [startValue])
  | .value name text, b =>
    if b = 10 then
      some (.fields, if transferEncoding name text then [writeValue, transChunked] else [writeValue])
    else if b = 13 then
      some (if transferEncoding name text then .chunkedCr else .cr, [writeValue])
    else some (.value name (text ++ [b]), [])
  | .chunkedCr, b => if b = 10 then some (.fields, [transChunked]) else none
  | .lastCr, b => if b = 10 then some (.done, [ResponseAction.done]) else none
  | .size, b =>
    if b = 10 then some (.done, [chunkSize, ResponseAction.done])
    else if b = 13 then some (.sizeCr, [chunkSize])
    else if xdigit b then some (.size, [])
    else none
  | .sizeCr, b => if b = 10 then some (.done, [ResponseAction.done]) else none
  | .done, _ => none

/-- The states, with the finished one. -/
def scanner : Scanner ResponseAction where
  State := State
  start := .start
  next := next
  final s := decide (s = .done)

theorem next_done {s s' : State} {b : UInt8} {as : List ResponseAction}
    (h : next s b = some (s', as)) (hs' : s' = .done) : ResponseAction.done ∈ as := by
  subst hs'
  cases s <;> simp only [next] at h <;> (try split_ifs at h) <;> cases h
  all_goals simp

theorem scanner_final {s : State} : scanner.final s = true ↔ s = .done := decide_eq_true_iff

theorem next_start_digit {b : UInt8} (hb : xdigit b = true) :
    next .start b = some (.size, [.mark]) := by
  rw [next, if_neg (xdigit_ne hb (by decide)), if_pos hb]

theorem next_size_digit {b : UInt8} (hb : xdigit b = true) :
    next .size b = some (.size, []) := by
  rw [next, if_neg (xdigit_ne hb (by decide)), if_neg (xdigit_ne hb (by decide)), if_pos hb]

end ChunkForm

/-- The machine on chunked responses. -/
def chunkForm : ResponseMachine where
  toScanner := ChunkForm.scanner
  start_not_final := rfl
  final_done h hfinal := ChunkForm.next_done h (ChunkForm.scanner_final.1 hfinal)
  size := .size
  sizeCr := .sizeCr
  sized := .done
  sized_final := rfl
  start_digit _ hb := ChunkForm.next_start_digit hb
  size_digit _ hb := ChunkForm.next_size_digit hb
  size_cr := rfl
  size_lf := rfl

end CoroutineScheduler.Http
