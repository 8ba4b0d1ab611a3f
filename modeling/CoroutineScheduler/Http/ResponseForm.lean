import CoroutineScheduler.Http.Response

/-!
# The response machine on responses with a length

The part of the machine of `httpclient_parser.rl` that the header section of a response goes through
whose body is announced by `Content-Length`: any status line, any field names but
`Transfer-Encoding`, and values that are not empty for the two names that have transitions of their
own, `Connection` and `Content-Length`. A `Connection: close` leads to states in which the next line
sets the flag. The text of a name, and that of a value of `Connection` while it may become `close`, is
kept in the state where the generated code has one state for each of its bytes.
-/

namespace CoroutineScheduler.Http

open Scan

namespace ResponseForm

inductive State
  | start
  | protocol (n : ℕ)
  | major0
  | major
  | minor0
  | minor
  | status0
  | status
  | reason0
  | reason
  | cr
  | fields
  | closeFields
  | field (name : List UInt8)
  | value0 (name : List UInt8)
  | value
  | connection (text : List UInt8)
  | closeCr
  | length
  | lastCr
  | size
  | done
  deriving DecidableEq, Repr

/-- `digit`. -/
def digit (b : UInt8) : Bool := 48 ≤ b && b ≤ 57

/-- `token`. -/
def token (b : UInt8) : Bool :=
  digit b || (65 ≤ b && b ≤ 90) || (94 ≤ b && b ≤ 122) || (ascii "!#$%&'*+-.|~").contains b

/-- The bytes of the protocol behind the first one. -/
def protocolTail : List UInt8 := ascii "TTP/"

/-- A name or a value without regard to case. -/
def lower (text : List UInt8) : List UInt8 := text.map tolower

/-- `space` without the carriage return and the newline, which come first. -/
def space (b : UInt8) : Bool := b = 32 || (9 ≤ b && b ≤ 12)

open ResponseAction in
/-- The first byte behind the colon of a field. -/
def firstByte (name : List UInt8) (b : UInt8) : Option (State × List ResponseAction) :=
  if space b then some (.value0 name, [startValue])
  else if lower name = ascii "connection" ∧ tolower b = 99 then some (.connection [b], [startValue])
  else if lower name = ascii "content-length" ∧ digit b then some (.length, [startValue])
  else some (.value, [startValue])

open ResponseAction in
/-- The transitions, with the actions in the order of the generated code. -/
def next : State → UInt8 → Option (State × List ResponseAction)
  | .start, b =>
    if b = 72 then some (.protocol 0, [mark])
    else if xdigit b then some (.size, [mark])
    else none
  | .protocol n, b =>
    if protocolTail[n]? = some b then some (if n = 3 then .major0 else .protocol (n + 1), []) else none
  | .major0, b => if digit b then some (.major, []) else none
  | .major, b => if b = 46 then some (.minor0, []) else if digit b then some (.major, []) else none
  | .minor0, b => if digit b then some (.minor, []) else none
  | .minor, b =>
    if b = 32 then some (.status0, [httpVersion]) else if digit b then some (.minor, []) else none
  | .status0, b => if digit b then some (.status, [mark]) else none
  | .status, b =>
    if b = 32 then some (.reason0, [statusCode]) else if digit b then some (.status, []) else none
  | .reason0, b => if b = 10 then none else some (.reason, [mark])
  | .reason, b =>
    if b = 10 then some (.fields, [reasonPhrase])
    else if b = 13 then some (.cr, [reasonPhrase])
    else some (.reason, [])
  | .cr, b => if b = 10 then some (.fields, []) else none
  | .fields, b =>
    if b = 10 then some (.done, [ResponseAction.done])
    else if b = 13 then some (.lastCr, [])
    else if token b then some (.field [b], [startField])
    else none
  | .closeFields, b =>
    if b = 10 then some (.done, [writeConnectionClose, ResponseAction.done])
    else if b = 13 then some (.lastCr, [writeConnectionClose])
    else if token b then some (.field [b], [writeConnectionClose, startField])
    else none
  | .field name, b =>
    if b = 58 then
      if lower name = ascii "transfer-encoding" then none else some (.value0 name, [writeField])
    else if token b then some (.field (name ++ [b]), [])
    else none
  | .value0 name, b =>
    if b = 10 ∨ b = 13 then
      if lower name = ascii "connection" ∨ lower name = ascii "content-length" then none
      else some (if b = 10 then .fields else .cr, [startValue, writeValue])
    else firstByte name b
  | .value, b =>
    if b = 10 then some (.fields, [writeValue])
    else if b = 13 then some (.cr, [writeValue])
    else some (.value, [])
  | .connection text, b =>
    if b = 10 then some (if lower text = ascii "close" then .closeFields else .fields, [writeValue])
    else if b = 13 then some (if lower text = ascii "close" then .closeCr else .cr, [writeValue])
    else some (if lower (text ++ [b]) <+: ascii "close" then .connection (text ++ [b]) else .value, [])
  | .closeCr, b => if b = 10 then some (.closeFields, []) else none
  | .length, b =>
    if b = 10 then some (.fields, [writeContentLen, writeValue])
    else if b = 13 then some (.cr, [writeContentLen, writeValue])
    else some (if digit b then .length else .value, [])
  | .lastCr, b => if b = 10 then some (.done, [ResponseAction.done]) else none
  | .size, b =>
    if b = 10 then some (.done, [chunkSize, ResponseAction.done])
    else if b = 13 then some (.lastCr, [chunkSize])
    else if xdigit b then some (.size, [])
    else none
  | .done, _ => none

/-- The states, with the finished one. -/
def scanner : Scanner ResponseAction where
  State := State
  start := .start
  next := next
  final s := decide (s = .done)

theorem scanner_final {s : State} : scanner.final s = true ↔ s = .done := decide_eq_true_iff

theorem firstByte_ne {name : List UInt8} {b : UInt8} {as : List ResponseAction} :
    firstByte name b ≠ some (.done, as) := by
  unfold firstByte
  split_ifs <;> simp

theorem next_done {s s' : State} {b : UInt8} {as : List ResponseAction}
    (h : next s b = some (s', as)) (hs' : s' = .done) : ResponseAction.done ∈ as := by
  subst hs'
  cases s with
  | value0 name =>
    rw [next] at h
    split_ifs at h
    · cases h
    · cases h
    · exact absurd h firstByte_ne
  | done => cases h
  | _ =>
    simp only [next] at h
    split_ifs at h <;> cases h
    all_goals simp

theorem next_start_digit {b : UInt8} (hb : xdigit b = true) :
    next .start b = some (.size, [.mark]) := by
  rw [next, if_neg (xdigit_ne hb (by decide)), if_pos hb]

theorem next_size_digit {b : UInt8} (hb : xdigit b = true) :
    next .size b = some (.size, []) := by
  rw [next, if_neg (xdigit_ne hb (by decide)), if_neg (xdigit_ne hb (by decide)), if_pos hb]

end ResponseForm

/-- The machine on responses with a length. -/
def responseForm : ResponseMachine where
  toScanner := ResponseForm.scanner
  start_not_final := rfl
  final_done h hfinal := ResponseForm.next_done h (ResponseForm.scanner_final.1 hfinal)
  size := .size
  sizeCr := .lastCr
  sized := .done
  sized_final := rfl
  start_digit _ hb := ResponseForm.next_start_digit hb
  size_digit _ hb := ResponseForm.next_size_digit hb
  size_cr := rfl
  size_lf := rfl

end CoroutineScheduler.Http
