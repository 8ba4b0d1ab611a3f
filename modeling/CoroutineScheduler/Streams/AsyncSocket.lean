import CoroutineScheduler.Lib.Trans
import Mathlib.Tactic

/-!
# Waiting for an answer

`AsyncSocketStream` with the callers that wait for an answer in a `Ctx`. A caller is resumed by
`doRsp`, which a response, the timer of the `Ctx` and the end of the connection may all call. Their
sections under `m_mutex` are one step each, and so is the compare-and-swap; the read in front of it,
and what `doRsp` does behind it, are steps of their own. Any number of threads run any number of
these operations on any `Ctx`s.
-/

namespace CoroutineScheduler.Streams

/-- The address of a `Ctx`. -/
abbrev CtxPtr := ℕ

/-- `AsyncSocketStream::Ctx`; `none` is a null pointer. -/
structure Ctx where
  sn : UInt32 := 0
  result : UInt32 := 0
  timed : Bool := false
  scheduler : Option ℕ := none
  fiber : Option ℕ := none
  timer : Option ℕ := none

/-- `TIMEOUT`, as it is stored in `result`. -/
def TIMEOUT : UInt32 := 0xffffffff

/-- `IO_ERROR`. -/
def IO_ERROR : UInt32 := 0xfffffffe

/-- A response with a number (`getAndDelCtx`, then `doRsp`), `onTimeOut`, and `innerClose`. -/
inductive AsyncOp
  | response (sn : UInt32)
  | timeout (c : CtxPtr)
  | close
  deriving DecidableEq, Repr

/-- Who calls `doRsp`; `innerClose` has some more `Ctx`s to go through. -/
inductive Caller
  | response (sn : UInt32)
  | timeout
  | close (rest : List CtxPtr)
  deriving DecidableEq, Repr

/-- The place in `doRsp`: in front of the read of `scheduler`, the swap, the test, the cancelling of
the timer, the setting of `result`, and `schedule`. -/
inductive RspPc
  | read
  | swap (scd : Option ℕ)
  | check (scd : Option ℕ)
  | cancel (scd : ℕ)
  | result (scd : ℕ)
  | schedule (scd : ℕ)
  deriving DecidableEq, Repr

/-- The place of a thread: outside, in front of the section under the lock, in front of the store into
the `Ctx`, at the head of the loop of `innerClose`, or in the `doRsp` with the number `call`. -/
inductive AsyncPc
  | idle
  | lock (op : AsyncOp)
  | mark (who : Caller) (c : CtxPtr)
  | loop (rest : List CtxPtr)
  | rsp (who : Caller) (call : ℕ) (c : CtxPtr) (pc : RspPc)
  deriving DecidableEq, Repr

/-- A fiber that was handed to a scheduler by a call of `doRsp`. -/
structure Resumption where
  call : ℕ
  ctx : CtxPtr
  scheduler : ℕ
  fiber : ℕ
  deriving DecidableEq, Repr

structure AsyncSocket (T : Type) where
  heap : CtxPtr → Ctx
  /-- `m_ctxs`. -/
  ctxs : List (UInt32 × CtxPtr)
  pc : T → AsyncPc
  /-- How many calls of `doRsp` there were. -/
  calls : ℕ
  /-- The timers that were cancelled. -/
  cancelled : List ℕ
  /-- The calls whose swap succeeded with the `Ctx`, the first one in front. -/
  swaps : List (ℕ × CtxPtr)
  /-- What was scheduled, the first one in front. -/
  log : List Resumption
  /-- The operations that have run. -/
  done : List AsyncOp

/-- `addCtx`: `insert` leaves a number that is there. -/
def addCtx (heap : CtxPtr → Ctx) (ctxs : List (UInt32 × CtxPtr)) (c : CtxPtr) :
    List (UInt32 × CtxPtr) :=
  if (heap c).sn ∈ ctxs.map Prod.fst then ctxs else ctxs ++ [((heap c).sn, c)]

namespace AsyncSocket

variable {T : Type} [DecidableEq T]

/-- Some `Ctx`s were added, and nothing else has happened. -/
def start (heap : CtxPtr → Ctx) (added : List CtxPtr) : AsyncSocket T :=
  ⟨heap, added.foldl (addCtx heap) [], fun _ => .idle, 0, [], [], [], []⟩

def goto (s : AsyncSocket T) (t : T) (pc : AsyncPc) : AsyncSocket T :=
  { s with pc := Function.update s.pc t pc }

def setCtx (s : AsyncSocket T) (c : CtxPtr) (x : Ctx) : AsyncSocket T :=
  { s with heap := Function.update s.heap c x }

/-- The call of `doRsp`. -/
def callRsp (s : AsyncSocket T) (t : T) (who : Caller) (c : CtxPtr) : AsyncSocket T :=
  { s.goto t (.rsp who s.calls c .read) with calls := s.calls + 1 }

/-- The return from `doRsp`, and with the last one from the operation. -/
def back (s : AsyncSocket T) (t : T) (who : Caller) (c : CtxPtr) : AsyncSocket T :=
  match who with
  | .response sn => { s.goto t .idle with done := .response sn :: s.done }
  | .timeout => { s.goto t .idle with done := .timeout c :: s.done }
  | .close rest => s.goto t (.loop rest)

/-- The section under `m_mutex`. -/
def locked (s : AsyncSocket T) (t : T) : AsyncOp → AsyncSocket T
  | .response sn =>
    match s.ctxs.lookup sn with
    | some c => { s with ctxs := s.ctxs.filter (·.1 ≠ sn) }.callRsp t (.response sn) c
    | none => { s.goto t .idle with done := .response sn :: s.done }
  | .timeout c =>
    { s.goto t (.mark .timeout c) with ctxs := s.ctxs.filter (·.1 ≠ (s.heap c).sn) }
  | .close => { s.goto t (.loop (s.ctxs.map Prod.snd)) with ctxs := [] }

/-- The store in front of `doRsp`. -/
def stored (s : AsyncSocket T) (t : T) (who : Caller) (c : CtxPtr) : AsyncSocket T :=
  match who with
  | .response _ => s.callRsp t who c
  | .timeout => (s.setCtx c { s.heap c with timed := true }).callRsp t who c
  | .close _ => (s.setCtx c { s.heap c with result := IO_ERROR }).callRsp t who c

/-- A step of `doRsp`. -/
def rspStep (s : AsyncSocket T) (t : T) (who : Caller) (call : ℕ) (c : CtxPtr) :
    RspPc → AsyncSocket T
  | .read => s.goto t (.rsp who call c (.swap (s.heap c).scheduler))
  | .swap scd =>
    if (s.heap c).scheduler = scd then
      { (s.setCtx c { s.heap c with scheduler := none }).goto t (.rsp who call c (.check scd)) with
        swaps := s.swaps ++ [(call, c)] }
    else s.back t who c
  | .check none => s.back t who c
  | .check (some scd) =>
    if (s.heap c).fiber = none then s.back t who c else s.goto t (.rsp who call c (.cancel scd))
  | .cancel scd =>
    { (s.setCtx c { s.heap c with timer := none }).goto t (.rsp who call c (.result scd)) with
      cancelled := s.cancelled ++ (s.heap c).timer.toList }
  | .result scd =>
    (if (s.heap c).timed then s.setCtx c { s.heap c with result := TIMEOUT } else s).goto t
      (.rsp who call c (.schedule scd))
  | .schedule scd =>
    { (s.setCtx c { s.heap c with fiber := none }).back t who c with
      log := s.log ++ (s.heap c).fiber.toList.map fun f => ⟨call, c, scd, f⟩ }

/-- A thread begins an operation, takes its next step, or takes the next `Ctx` in the loop of
`innerClose`, which goes through a hash map in some order. -/
inductive AsyncLabel (T : Type)
  | call (t : T) (op : AsyncOp)
  | next (t : T)
  | pick (t : T) (c : CtxPtr)

def step (s : AsyncSocket T) : AsyncLabel T → Option (AsyncSocket T)
  | .call t op => if s.pc t = .idle then some (s.goto t (.lock op)) else none
  | .next t =>
    match s.pc t with
    | .idle | .loop (_ :: _) => none
    | .lock op => some (s.locked t op)
    | .mark who c => some (s.stored t who c)
    | .loop [] => some { s.goto t .idle with done := .close :: s.done }
    | .rsp who call c pc => some (s.rspStep t who call c pc)
  | .pick t c =>
    match s.pc t with
    | .loop rest => if c ∈ rest then some (s.goto t (.mark (.close (rest.erase c)) c)) else none
    | _ => none

/-- The calls that swapped the scheduler of a `Ctx`. -/
def swapsOf (s : AsyncSocket T) (c : CtxPtr) : List ℕ :=
  (s.swaps.filter (·.2 = c)).map Prod.fst

/-- What was scheduled for a `Ctx`. -/
def logOf (s : AsyncSocket T) (c : CtxPtr) : List Resumption := s.log.filter (·.ctx = c)

end AsyncSocket

end CoroutineScheduler.Streams
