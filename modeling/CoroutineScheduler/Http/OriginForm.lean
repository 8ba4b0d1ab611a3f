import CoroutineScheduler.Http.Request

/-!
# The request machine on origin-form targets

The part of the machine of `http11_parser.rl` that a request with a target like `/a/b?c=d#e` goes
through, without escapes in the target and with letters, digits and hyphens in the field names. The
states are those of the generated code; a byte that leads out of this part has no transition.
-/

namespace CoroutineScheduler.Http

open Scan

namespace OriginForm

inductive State
  | start
  | method (n : ℕ)
  | target
  | path
  | query0
  | query
  | fragment0
  | fragment
  | version0
  | version (n : ℕ)
  | cr
  | fields
  | field
  | value0
  | value
  | lastCr
  | done
  deriving DecidableEq, Repr

/-- `upper | digit`. -/
def upper (b : UInt8) : Bool := (65 ≤ b && b ≤ 90) || (48 ≤ b && b ≤ 57)

/-- Letters, digits and the hyphen, of the tokens that a field name is made of. -/
def token (b : UInt8) : Bool := upper b || (97 ≤ b && b ≤ 122) || b == 45

/-- The bytes of a path segment: all of `pchar` but the escapes. -/
def pchar (b : UInt8) : Bool :=
  token b || 128 ≤ b || (ascii "._~!$&'()*+,;=:@").contains b

/-- The bytes of a query and of a fragment. -/
def qchar (b : UInt8) : Bool := pchar b || b == 47 || b == 63

/-- The bytes of a version behind the first one. -/
def versionTail : List UInt8 := ascii "TTP/1."

open Action in
/-- The transitions, with the actions in the order of the generated code. -/
def next : State → UInt8 → Option (State × List Action)
  | .start, b => if upper b then some (.method 1, [mark]) else none
  | .method n, b =>
    if b = 32 then some (.target, [requestMethod])
    else if upper b ∧ n < 20 then some (.method (n + 1), [])
    else none
  | .target, b => if b = 47 then some (.path, [mark]) else none
  | .path, b =>
    if b = 32 then some (.version0, [requestPath, requestUri])
    else if b = 63 then some (.query0, [requestPath])
    else if b = 35 then some (.fragment0, [requestPath, requestUri])
    else if pchar b ∨ b = 47 then some (.path, [])
    else none
  | .query0, b =>
    if b = 32 then some (.version0, [startQuery, queryString, requestUri])
    else if b = 35 then some (.fragment0, [startQuery, queryString, requestUri])
    else if qchar b then some (.query, [startQuery])
    else none
  | .query, b =>
    if b = 32 then some (.version0, [queryString, requestUri])
    else if b = 35 then some (.fragment0, [queryString, requestUri])
    else if qchar b then some (.query, [])
    else none
  | .fragment0, b =>
    if b = 32 then some (.version0, [mark, fragment])
    else if qchar b then some (.fragment, [mark])
    else none
  | .fragment, b =>
    if b = 32 then some (.version0, [fragment])
    else if qchar b then some (.fragment, [])
    else none
  | .version0, b => if b = 72 then some (.version 0, [mark]) else none
  | .version n, b =>
    if n < 6 then if versionTail[n]? = some b then some (.version (n + 1), []) else none
    else if n = 6 then if b = 48 ∨ b = 49 then some (.version 7, []) else none
    else if b = 10 then some (.fields, [httpVersion])
    else if b = 13 then some (.cr, [httpVersion])
    else none
  | .cr, b => if b = 10 then some (.fields, []) else none
  | .fields, b =>
    if b = 10 then some (.done, [startField, done])
    else if b = 13 then some (.lastCr, [startField])
    else if token b then some (.field, [startField])
    else none
  | .field, b =>
    if b = 58 then some (.value0, [writeField])
    else if token b then some (.field, [])
    else none
  | .value0, b =>
    if b = 9 ∨ b = 32 then some (.value0, [startValue])
    else if b = 10 then some (.fields, [startValue, writeValue])
    else if b = 13 then some (.cr, [startValue, writeValue])
    else if b = 0 ∨ b = 127 then none
    else some (.value, [startValue])
  | .value, b =>
    if b = 10 then some (.fields, [writeValue])
    else if b = 13 then some (.cr, [writeValue])
    else if b = 0 ∨ b = 127 then none
    else some (.value, [])
  | .lastCr, b => if b = 10 then some (.done, [Action.done]) else none
  | .done, _ => none

/-- What holds of every transition. -/
structure Sound (b : UInt8) (s' : State) (as : List Action) : Prop where
  final_iff : s' = .done ↔ Action.done ∈ as
  method_space : Action.requestMethod ∈ as → b = 32

theorem next_sound {s s' : State} {b : UInt8} {as : List Action} (h : next s b = some (s', as)) :
    Sound b s' as := by
  cases s <;> simp only [next] at h <;> (try split_ifs at h) <;> cases h
  all_goals
    constructor
    · simp
    · intro hmem
      first
        | assumption
        | exact absurd hmem (by decide)

/-- The registers that are set in a state, on a run from the start. -/
def Set : State → Fresh → Prop
  | .method _, f | .path, f | .fragment, f | .version _, f => f.mark
  | .query, f => f.queryStart
  | .field, f => f.fieldStart
  | .value0, f => f.fieldLen
  | .value, f => f.mark ∧ f.fieldLen
  | _, _ => True

theorem next_set {s s' : State} {b : UInt8} {as : List Action} {f : Fresh}
    (h : next s b = some (s', as)) (hf : f.torn = false ∧ Set s f) :
    (as.foldl Fresh.note f).torn = false ∧ Set s' (as.foldl Fresh.note f) := by
  cases s <;> simp only [next] at h <;> (try split_ifs at h) <;> cases h
  all_goals simp_all [Set, Fresh.note]

/-- The states, with the final one. -/
def scanner : Scanner Action where
  State := State
  start := .start
  next := next
  final s := decide (s = .done)

theorem scanner_final {s : State} : scanner.final s = true ↔ s = .done := decide_eq_true_iff

theorem start_untorn (buffer : List UInt8) : tears scanner buffer scanner.start = false := by
  have hstart : Fresh.torn {} = false ∧ Set .start {} := ⟨rfl, trivial⟩
  exact (exec_invariant (m := scanner) (I := fun s (f : Fresh) => f.torn = false ∧ Set s f)
    next_set hstart).1

end OriginForm

/-- The machine on origin-form targets. -/
def originForm : RequestMachine where
  toScanner := OriginForm.scanner
  start_not_final := rfl
  final_iff h := OriginForm.scanner_final.trans (OriginForm.next_sound h).final_iff
  method_space h := (OriginForm.next_sound h).method_space
  start_untorn := OriginForm.start_untorn

end CoroutineScheduler.Http
