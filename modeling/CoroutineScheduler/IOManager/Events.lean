import CoroutineScheduler.IOManager.FdContext

/-!
# Event registration

`addEvent`, `delEvent`, `cancelEvent`, `cancelAll` and the part of `idle` that handles one reported
event, over the table `m_fdContexts`, the `FdContext` objects it points to, the counter
`m_pendingEventCount` and the kernel's interest list.

The functions are cut where the source takes and releases its locks: `lookup` is the section under
the read lock, `grow` the one under the write lock, the functions named `...Locked` and `idleEvent`
are those under the mutex of a context. `ok` is the kernel's choice to let an `epoll_ctl` fail. The
result `none` stands for a failed assertion (or a null pointer that is used).

`log` is no field of the source: it records what happens to each registration.
-/

namespace CoroutineScheduler

/-- The address of an `FdContext`. -/
abbrev Ptr := ℕ

/-! ## The kernel -/

inductive EpollCtlOp
  | add | mod | del
  deriving DecidableEq, Repr

/-- The interest list of an epoll instance: the mask and `data.ptr` of each registered descriptor. -/
abbrev Interest := ℕ → Option (Mask × Ptr)

/-- `epoll_ctl`: `none` for an error. A descriptor that is registered cannot be added, one that is
not cannot be modified or deleted; otherwise the call may succeed or fail (`ok`). -/
def epollCtl (i : Interest) (ok : Bool) (op : EpollCtlOp) (fd : ℕ) (mask : Mask) (p : Ptr) :
    Option Interest :=
  match ok, op, i fd with
  | true, .add, none => some (Function.update i fd (some (mask, p)))
  | true, .mod, some _ => some (Function.update i fd (some (mask, p)))
  | true, .del, some _ => some (Function.update i fd none)
  | _, _, _ => none

/-! ## The state -/

/-- What happens to a registration: it is made, its task is scheduled, it is dropped. -/
inductive Use
  | registered (r : Reg)
  | fired (c : Option Call)
  | dropped
  deriving DecidableEq, Repr

structure Effect where
  fd : ℕ
  event : Event
  use : Use
  deriving DecidableEq, Repr

/-- The fields of `IOManager` that belong to events, with the contexts and the interest list. -/
structure IOManager where
  pending : ℤ
  table : List Ptr
  heap : Ptr → FdContext
  fresh : ℕ
  interest : Interest
  log : List Effect

/-- The thread that calls `addEvent`: `Scheduler::GetThis()`, `Fiber::GetThis()` and the state of
that fiber. -/
structure Caller where
  scheduler : Option SchedulerId
  fiber : FiberId
  state : FiberState
  deriving DecidableEq, Repr

/-- What `addEvent` is to schedule: the callback, or the calling fiber. -/
def Caller.task (caller : Caller) : Option Callback → Task
  | some c => .cb c
  | none => .fiber caller.fiber

/-- The context that `addEvent` stores. -/
def Caller.context (caller : Caller) (cb : Option Callback) : EventContext :=
  match cb with
  | some c => { scheduler := caller.scheduler, cb := some c }
  | none => { scheduler := caller.scheduler, fiber := some caller.fiber }

namespace IOManager

/-- `contextResize`. -/
def contextResize (s : IOManager) (size : ℕ) : IOManager :=
  let n := size - s.table.length
  { s with
    table := s.table.take size ++ List.range' s.fresh n
    heap := fun p =>
      if s.fresh ≤ p ∧ p < s.fresh + n then { fd := s.table.length + (p - s.fresh) } else s.heap p
    fresh := s.fresh + n }

/-- After the constructor. -/
def start : IOManager :=
  contextResize ⟨0, [], fun _ => { fd := 0 }, 0, fun _ => none, []⟩ 32

/-- `(int)m_fdContexts.size()`. -/
def intSize (s : IOManager) : ℤ := (s.table.length : ℤ).bmod (2 ^ 32)

/-- The section under the read lock of `m_mutex`. -/
def lookup (s : IOManager) (fd : ℕ) : Option Ptr := if s.intSize > fd then s.table[fd]? else none

/-- The section under the write lock in `addEvent`: `contextResize(fd * 1.5)`. -/
def grow (s : IOManager) (fd : ℕ) : IOManager × Option Ptr :=
  let t := s.contextResize (fd * 3 / 2)
  (t, t.table[fd]?)

def setContext (s : IOManager) (p : Ptr) (c : FdContext) : IOManager :=
  { s with heap := Function.update s.heap p c }

def setInterest (s : IOManager) (i : Interest) : IOManager := { s with interest := i }

def addPending (s : IOManager) (d : ℤ) : IOManager := { s with pending := s.pending + d }

def record (s : IOManager) (fd : ℕ) (e : Event) (u : Use) : IOManager :=
  { s with log := s.log ++ [⟨fd, e, u⟩] }

/-- `fd_ctx->triggerEvent(event)`. -/
def trigger (s : IOManager) (p : Ptr) (e : Event) : Option IOManager :=
  ((s.heap p).triggerEvent e).map fun r => (s.setContext p r.1).record r.1.fd e (.fired r.2)

/-- `addEvent` under the mutex of the context. -/
def addEventLocked (s : IOManager) (p : Ptr) (fd : ℕ) (e : Event) (cb : Option Callback)
    (caller : Caller) (ok : Bool) : Option (IOManager × ℤ) :=
  let c := s.heap p
  if c.events &&& e.bit ≠ 0 then none
  else
    let op := if c.events ≠ 0 then EpollCtlOp.mod else .add
    match epollCtl s.interest ok op fd (Mask.epollEt ||| c.events ||| e.bit) p with
    | none => some (s, -1)
    | some i =>
      if c.getContext e ≠ {} then none
      else if cb = none ∧ caller.state ≠ .exec then none
      else
        let c := { c with events := c.events ||| e.bit }.setContext e (caller.context cb)
        let t := ((s.setInterest i).addPending 1).setContext p c
        match caller.scheduler with
        | some sched => some (t.record c.fd e (.registered ⟨sched, caller.task cb⟩), 0)
        | none => some (t, 0)

/-- The `epoll_ctl` that leaves `left` registered. -/
def ctlLeft (s : IOManager) (p : Ptr) (fd : ℕ) (left : Mask) (ok : Bool) : Option Interest :=
  let op := if left ≠ 0 then EpollCtlOp.mod else .del
  epollCtl s.interest ok op fd (Mask.epollEt ||| left) p

/-- `delEvent` under the mutex of the context. -/
def delEventLocked (s : IOManager) (p : Ptr) (fd : ℕ) (e : Event) (ok : Bool) : IOManager × Bool :=
  let c := s.heap p
  if c.events &&& e.bit = 0 then (s, false)
  else
    let newEvents := c.events &&& ~~~e.bit
    match s.ctlLeft p fd newEvents ok with
    | none => (s, false)
    | some i =>
      let c := { c with events := newEvents }.resetContext e
      ((((s.setInterest i).addPending (-1)).setContext p c).record c.fd e .dropped, true)

/-- `cancelEvent` under the mutex of the context. -/
def cancelEventLocked (s : IOManager) (p : Ptr) (fd : ℕ) (e : Event) (ok : Bool) :
    Option (IOManager × Bool) :=
  let c := s.heap p
  if c.events &&& e.bit = 0 then some (s, false)
  else
    match s.ctlLeft p fd (c.events &&& ~~~e.bit) ok with
    | none => some (s, false)
    | some i => (((s.setInterest i).addPending (-1)).trigger p e).map fun t => (t, true)

/-- `if (events & event) { triggerEvent(event); --m_pendingEventCount; }`. -/
def fireIf (s : IOManager) (events : Mask) (p : Ptr) (e : Event) : Option IOManager :=
  if events &&& e.bit ≠ 0 then (s.trigger p e).map fun t => t.addPending (-1) else some s

/-- `cancelAll` under the mutex of the context. -/
def cancelAllLocked (s : IOManager) (p : Ptr) (fd : ℕ) (ok : Bool) : Option (IOManager × Bool) :=
  if (s.heap p).events = 0 then some (s, false)
  else
    match epollCtl s.interest ok .del fd 0 p with
    | none => some (s, false)
    | some i => do
      let t ← (s.setInterest i).fireIf (s.heap p).events p .read
      let u ← t.fireIf (t.heap p).events p .write
      if (u.heap p).events = 0 then some (u, true) else none

/-- `real_events` for the reported mask. -/
def realEvents (reported events : Mask) : Mask :=
  let m := if reported &&& (Mask.epollErr ||| Mask.epollHup) ≠ 0 then
      reported ||| ((Mask.epollIn ||| Mask.epollOut) &&& events)
    else reported
  (if m &&& Mask.epollIn ≠ 0 then Event.read.bit else 0) |||
    if m &&& Mask.epollOut ≠ 0 then Event.write.bit else 0

/-- What `idle` does with one reported event, under the mutex of the context. -/
def idleEvent (s : IOManager) (p : Ptr) (reported : Mask) (ok : Bool) : Option IOManager :=
  let c := s.heap p
  let real := realEvents reported c.events
  if c.events &&& real = 0 then some s
  else
    match s.ctlLeft p c.fd (c.events &&& ~~~real) ok with
    | none => some s
    | some i => do
      let t ← (s.setInterest i).fireIf real p .read
      t.fireIf real p .write

/-! ## The calls -/

/-- `addEvent`, not interrupted: `0` or `-1`. -/
def addEvent (s : IOManager) (fd : ℕ) (e : Event) (cb : Option Callback) (caller : Caller)
    (ok : Bool) : Option (IOManager × ℤ) :=
  let grown := s.grow fd
  (s.lookup fd).elim (grown.2.bind fun p => grown.1.addEventLocked p fd e cb caller ok)
    fun p => s.addEventLocked p fd e cb caller ok

/-- `delEvent`, not interrupted. -/
def delEvent (s : IOManager) (fd : ℕ) (e : Event) (ok : Bool) : IOManager × Bool :=
  (s.lookup fd).elim (s, false) fun p => s.delEventLocked p fd e ok

/-- `cancelEvent`, not interrupted. -/
def cancelEvent (s : IOManager) (fd : ℕ) (e : Event) (ok : Bool) : Option (IOManager × Bool) :=
  (s.lookup fd).elim (some (s, false)) fun p => s.cancelEventLocked p fd e ok

/-- `cancelAll`, not interrupted. -/
def cancelAll (s : IOManager) (fd : ℕ) (ok : Bool) : Option (IOManager × Bool) :=
  (s.lookup fd).elim (some (s, false)) fun p => s.cancelAllLocked p fd ok

end IOManager

end CoroutineScheduler
