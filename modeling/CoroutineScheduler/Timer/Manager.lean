import CoroutineScheduler.Lib.OrderedSet
import CoroutineScheduler.Scheduler.Queue
import Mathlib.Logic.Function.Basic

/-!
# Timers

`Timer` and `TimerManager`. The set `m_timers` is ordered by a comparator that reads a mutable field
of the timers, so the state keeps the timer objects apart from the set of pointers to them: `obj` is
the memory, `live` says which addresses hold a timer now, `timers` is the set in its order. Clock
readings and the addresses of new objects are arguments.

Each operation is one section under the write lock of `m_mutex`. `inPlace` is no field of the source:
it records whether `m_next` was ever stored in a timer that was in the set.
-/

namespace CoroutineScheduler

/-- The address of a timer object. -/
abbrev Addr := ℕ

/-- The fields of `Timer`, less the pointer to the manager. -/
structure Timer where
  recurring : Bool := false
  ms : UInt64 := 0
  next : UInt64 := 0
  cb : Option Callback := none
  deriving DecidableEq, Repr

/-- `Timer(ms, cb, recurring, manager)`, with the clock at `now`. -/
def Timer.new (now ms : UInt64) (cb : Option Callback) (recurring : Bool) : Timer :=
  { recurring := recurring, ms := ms, next := now + ms, cb := cb }

/-- `Timer(next)`. -/
def Timer.ofNext (next : UInt64) : Timer := { next := next }

/-- `Timer::Comparator`, on pointers that may be null. -/
def Timer.comparator (obj : Addr → Timer) : Option Addr → Option Addr → Bool
  | none, none => false
  | none, some _ => true
  | some _, none => false
  | some a, some b =>
    if (obj a).next = (obj b).next then decide (a < b) else decide ((obj a).next < (obj b).next)

/-- The fields of `TimerManager`, with the timers. -/
structure TimerManager where
  obj : Addr → Timer
  live : Addr → Bool
  timers : List Addr
  tickled : Bool
  previousTime : UInt64
  inPlace : Bool

/-- How `cancel`, `refresh` and `reset` end: `m_cb` was empty; `reset` had nothing to change; `find`
gave `end()`, which `refresh` and `reset` test for and `cancel` erases; or the set was changed. -/
inductive Outcome
  | noCb | same | notFound | eraseEnd | done
  deriving DecidableEq, Repr

/-- The value returned. The behaviour of erasing `end()` is undefined. -/
def Outcome.result : Outcome → Option Bool
  | noCb => some false
  | same => some true
  | notFound => some false
  | eraseEnd => none
  | done => some true

namespace TimerManager

/-- `TimerManager()`, with the clock at `now`. -/
def start (now : UInt64) : TimerManager where
  obj := fun _ => {}
  live := fun _ => false
  timers := []
  tickled := false
  previousTime := now
  inPlace := false

/-- The comparator on the timers of the set. -/
def lt (obj : Addr → Timer) (a b : Addr) : Bool := Timer.comparator obj (some a) (some b)

def set (s : TimerManager) (a : Addr) (t : Timer) : TimerManager :=
  { s with obj := Function.update s.obj a t }

/-- A store to `m_cb`. -/
def setCb (s : TimerManager) (a : Addr) (cb : Option Callback) : TimerManager :=
  s.set a { s.obj a with cb := cb }

/-- A store to `m_ms`. -/
def setMs (s : TimerManager) (a : Addr) (ms : UInt64) : TimerManager :=
  s.set a { s.obj a with ms := ms }

/-- A store to `m_next`. -/
def setNext (s : TimerManager) (a : Addr) (next : UInt64) : TimerManager :=
  { s.set a { s.obj a with next := next } with inPlace := s.inPlace || decide (a ∈ s.timers) }

/-- `m_timers.find`. -/
def find (s : TimerManager) (a : Addr) : Option ℕ := OrderedSet.find (lt s.obj) a s.timers

/-- `m_timers.erase`. -/
def erase (s : TimerManager) (i : ℕ) : TimerManager := { s with timers := s.timers.eraseIdx i }

/-- `m_timers.insert`. -/
def insert (s : TimerManager) (a : Addr) : TimerManager :=
  { s with timers := OrderedSet.insert (lt s.obj) a s.timers }

/-- `addTimer(val, lock)`. The second component says whether `onTimerInsertedAtFront` is called. -/
def addTimerLocked (s : TimerManager) (a : Addr) : TimerManager × Bool :=
  let t := s.insert a
  let atFront := t.timers.head? == some a && !t.tickled
  ({ t with tickled := t.tickled || atFront }, atFront)

/-- `addTimer(ms, cb, recurring)`, with the new timer at address `a`. -/
def addTimer (s : TimerManager) (now : UInt64) (a : Addr) (ms : UInt64) (cb : Option Callback)
    (recurring : Bool) : TimerManager × Bool :=
  addTimerLocked
    { s.set a (.new now ms cb recurring) with live := Function.update s.live a true } a

/-- `Timer::cancel`. -/
def cancel (s : TimerManager) (a : Addr) : TimerManager × Outcome :=
  if (s.obj a).cb.isSome then
    let s := s.setCb a none
    match s.find a with
    | some i => (s.erase i, .done)
    | none => (s, .eraseEnd)
  else (s, .noCb)

/-- `Timer::refresh`. -/
def refresh (s : TimerManager) (now : UInt64) (a : Addr) : TimerManager × Outcome :=
  if (s.obj a).cb.isSome then
    match s.find a with
    | some i =>
      let s := s.erase i
      let s := s.setNext a (now + (s.obj a).ms)
      (s.insert a, .done)
    | none => (s, .notFound)
  else (s, .noCb)

/-- `Timer::reset`. -/
def reset (s : TimerManager) (now : UInt64) (a : Addr) (ms : UInt64) (fromNow : Bool) :
    TimerManager × Outcome :=
  if ms = (s.obj a).ms ∧ fromNow = false then (s, .same)
  else if (s.obj a).cb.isSome then
    match s.find a with
    | some i =>
      let s := s.erase i
      let start := if fromNow then now else (s.obj a).next - (s.obj a).ms
      let s := s.setMs a ms
      let s := s.setNext a (start + (s.obj a).ms)
      ((s.addTimerLocked a).1, .done)
    | none => (s, .notFound)
  else (s, .noCb)

/-- `getNextTimer`, which also clears `m_tickled`. -/
def getNextTimer (s : TimerManager) (now : UInt64) : TimerManager × UInt64 :=
  let t := { s with tickled := false }
  match s.timers with
  | [] => (t, ~~~0)
  | a :: _ => (t, if now ≥ (s.obj a).next then 0 else (s.obj a).next - now)

/-- `hasTimer`. -/
def hasTimer (s : TimerManager) : Bool := !s.timers.isEmpty

/-- `detectClockRollover`. -/
def detectClockRollover (s : TimerManager) (now : UInt64) : TimerManager × Bool :=
  ({ s with previousTime := now },
    decide (now < s.previousTime) && decide (now < s.previousTime - 60 * 60 * 1000))

/-- The position that `listExpiredCb` takes the timers up to: `lower_bound` of a temporary timer at
address `tmp`, and on past the timers that are due at `now`. -/
def expiredEnd (s : TimerManager) (now : UInt64) (tmp : Addr) : ℕ :=
  let i := OrderedSet.lowerBound (lt (Function.update s.obj tmp (.ofNext now))) tmp s.timers
  i + ((s.timers.drop i).takeWhile fun a => (s.obj a).next = now).length

/-- The body of the loop of `listExpiredCb` over the expired timers. -/
def fire (now : UInt64) (s : TimerManager) (a : Addr) : TimerManager :=
  if (s.obj a).recurring then (s.setNext a (now + (s.obj a).ms)).insert a
  else s.setCb a none

/-- The loop, with the callbacks collected. -/
def fireAll (now : UInt64) : TimerManager → List Addr → TimerManager × List (Option Callback)
  | s, [] => (s, [])
  | s, a :: as =>
    let r := fireAll now (fire now s a) as
    (r.1, (s.obj a).cb :: r.2)

/-- `listExpiredCb`, with the clock at `now` and the temporary timer at address `tmp`. -/
def listExpiredCb (s : TimerManager) (now : UInt64) (tmp : Addr) :
    TimerManager × List (Option Callback) :=
  match s.timers with
  | [] => (s, [])
  | a :: _ =>
    let r := s.detectClockRollover now
    if !r.2 && decide ((s.obj a).next > now) then (r.1, [])
    else
      let i := if r.2 then s.timers.length else r.1.expiredEnd now tmp
      fireAll now { r.1 with timers := s.timers.drop i } (s.timers.take i)

end TimerManager

end CoroutineScheduler
