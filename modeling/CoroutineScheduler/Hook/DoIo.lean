import CoroutineScheduler.Hook.FdManager
import CoroutineScheduler.IOManager.Concurrent
import CoroutineScheduler.Timer.Ordered

/-!
# Hooked calls

`do_io` and `connect_with_timeout`, with the callbacks of their timers, `close` and `socket`, in any
number and in any order of their steps. The state is that of the event machine (`Conc`), of the timers
and of the descriptor objects, with the position of each call, each callback and each thread. A step is
what the source does under one lock, one system call, or one access to `timer_info`.

A call is named by the fiber that makes it; what this fiber does before and after the call is not
looked at. A callback that has been taken out of the timer set is `queued` until a worker runs it. A
suspended fiber may be resumed at any time: who schedules it is not looked at either.

`round`, `armed`, `epoch`, `takenAt`, `closes`, `sys` and `started` are not in the source. They record
which round of `do_io` a timer belongs to, when it expired, how often a descriptor has been closed and
which system calls were made.
-/

namespace CoroutineScheduler

/-! ## Arguments and results -/

/-- The values of `errno` that matter; `epollCtl` is one that a failed `epoll_ctl` has left. -/
inductive Errno
  | eintr | eagain | einprogress | etimedout | ebadf | epollCtl
  | other (n : ℕ)
  deriving DecidableEq, Repr

/-- The result of a system call, or of a hooked one: a value, or `-1` with `errno`. -/
inductive SysResult
  | ok (n : ℕ)
  | err (e : Errno)
  deriving DecidableEq, Repr

/-- `do_io(fd, fun, name, event, timeout_so, ...)`, `connect_with_timeout(fd, addr, len, timeout_ms)`. -/
inductive IoKind
  | io (event : Event) (timeoutSo : TimeoutSo)
  | connect (timeout : UInt64)
  deriving DecidableEq, Repr

structure IoArgs where
  kind : IoKind
  fd : ℕ
  deriving DecidableEq, Repr

namespace IoArgs

/-- The calls that receive: `read`, `readv`, `recv`, `recvfrom`, `recvmsg`, `accept`. -/
def receive (fd : ℕ) : IoArgs := ⟨.io .read .recv, fd⟩

/-- The calls that send: `write`, `writev`, `send`, `sendto`, `sendmsg`. -/
def transmit (fd : ℕ) : IoArgs := ⟨.io .write .send, fd⟩

/-- The event that is waited for. -/
def event (a : IoArgs) : Event :=
  match a.kind with
  | .io e _ => e
  | .connect _ => .write

/-- The timeout, given the object of the descriptor. -/
def timeout (a : IoArgs) (ctx : FdCtx) : UInt64 :=
  match a.kind with
  | .io _ so => ctx.getTimeout so
  | .connect ms => ms

/-- The call is `do_io`. -/
def isIo (a : IoArgs) : Bool :=
  match a.kind with
  | .io _ _ => true
  | .connect _ => false

end IoArgs

/-! ## Positions -/

/-- Where a call is. -/
inductive IoPc
  /-- not made yet -/
  | ready
  /-- about to return what the system call returns -/
  | direct
  /-- `retry`: before the system call -/
  | call
  /-- the system call would have blocked; before `addConditionTimer` -/
  | arm
  /-- before `addEvent` -/
  | add
  /-- in `addEvent` -/
  | adding
  /-- `addEvent` has returned `-1`; before `timer->cancel()` -/
  | addFailed
  /-- `addEvent` has returned `0`; before `YieldToHold` -/
  | yield
  | suspended
  /-- after `YieldToHold`, before `timer->cancel()` -/
  | resumed
  /-- before `if (tinfo->cancelled)` -/
  | check
  /-- before `getsockopt`, in `connect_with_timeout` -/
  | sockopt
  | done (r : SysResult)
  deriving DecidableEq, Repr

namespace IoPc

/-- The call has begun and has not returned: it holds `tinfo`. -/
def live : IoPc → Bool
  | ready | done _ => false
  | _ => true

/-- Between the start of a round and the registration of its event. -/
def unregistered : IoPc → Bool
  | call | arm | add | adding => true
  | _ => false

end IoPc

/-- A call. `toMs`, `timer` and `cancelled` are the source's `to`, `timer` and `tinfo->cancelled`;
`holders` counts the callbacks that have locked `winfo`. -/
structure IoCall where
  pc : IoPc := .ready
  args : IoArgs := .receive 0
  toMs : UInt64 := ~~~0
  timer : Option Addr := none
  cancelled : Bool := false
  holders : ℕ := 0
  round : ℕ := 0
  armed : List Callback := []
  epoch : ℕ := 0
  deriving DecidableEq, Repr

/-- Where the callback of a timer is. -/
inductive CbStage
  /-- in the timer set, or cancelled -/
  | armed
  /-- taken out of the timer set by `listExpiredCb` -/
  | queued
  /-- `winfo` is locked; before `if (t->cancelled)` -/
  | entered
  /-- before `t->cancelled = ETIMEDOUT` -/
  | passed
  /-- before `cancelEvent` -/
  | toCancel
  /-- in `cancelEvent` -/
  | cancelling
  | done
  deriving DecidableEq, Repr

/-- Taken out of the timer set, and not at its end. -/
def CbStage.unfinished : CbStage → Bool
  | armed | done => false
  | _ => true

/-- Past the test of the flag, and before the end of `cancelEvent`. -/
def CbStage.cancels : CbStage → Bool
  | passed | toCancel | cancelling => true
  | _ => false

/-- The closure that a call gives to its timer. `next` is the deadline, `takenAt` the clock reading at
which it was taken out of the set. -/
structure TimeoutCb where
  call : FiberId
  round : ℕ
  next : UInt64
  takenAt : Option UInt64 := none
  stage : CbStage := .armed
  deriving DecidableEq, Repr

/-- What a callback is: the closure of a hooked call, or something else. -/
inductive CbOwner
  | unused
  | foreign
  | timeout (t : TimeoutCb)
  deriving DecidableEq, Repr

/-- Who calls into the event machine. -/
inductive Agent (T : Type)
  | fiber (f : FiberId)
  | timeout (k : Callback)
  | other (t : T)
  deriving DecidableEq, Repr

/-- What another thread does outside of the event machine: in `close`, before `cancelAll`, in it, before
`del` and before `close_f`; in `socket` (or `accept`), after `socket_f` and between the two locks of
`get(fd, true)`. -/
inductive Job
  | out
  | cancelAll (fd : ℕ)
  | cancelling (fd : ℕ)
  | del (fd : ℕ)
  | closeF (fd : ℕ)
  | get (fd : ℕ)
  | create (fd : ℕ)
  deriving DecidableEq, Repr

/-- A system call on a descriptor: the call that makes it, the file that the descriptor stands for, and
how often the descriptor has been closed before. -/
structure SysCall where
  call : FiberId
  file : Option ℕ
  epoch : ℕ
  deriving DecidableEq, Repr

/-- The state. -/
structure Hook (T : Type) where
  conc : Conc (Agent T)
  timers : TimerManager
  fdMgr : FdManager
  files : ℕ → Option ℕ
  freshFile : ℕ
  call : FiberId → IoCall
  cb : Callback → CbOwner
  job : T → Job
  closes : ℕ → ℕ
  sys : List SysCall
  started : List FiberId

namespace Hook

variable {T : Type} [DecidableEq T] (s : Hook T)

def start (now : UInt64) : Hook T where
  conc := .start
  timers := .start now
  fdMgr := .start
  files := fun _ => none
  freshFile := 0
  call := fun _ => {}
  cb := fun _ => .unused
  job := fun _ => .out
  closes := fun _ => 0
  sys := []
  started := []

/-! ## Stores -/

def setCall (f : FiberId) (c : IoCall) : Hook T := { s with call := Function.update s.call f c }

def goto (f : FiberId) (pc : IoPc) : Hook T := s.setCall f { s.call f with pc := pc }

def setCb (k : Callback) (t : TimeoutCb) : Hook T :=
  { s with cb := Function.update s.cb k (.timeout t) }

def setStage (k : Callback) (t : TimeoutCb) (stage : CbStage) : Hook T :=
  s.setCb k { t with stage := stage }

def setConc (c : Conc (Agent T)) : Hook T := { s with conc := c }

def setTimers (m : TimerManager) : Hook T := { s with timers := m }

def setFdMgr (m : FdManager) : Hook T := { s with fdMgr := m }

def setJob (t : T) (j : Job) : Hook T := { s with job := Function.update s.job t j }

/-- The scheduler pointer that `addEvent` stores. -/
def iom : SchedulerId := 0

/-- The fiber of a call, as the caller of `addEvent`. -/
def caller (f : FiberId) : Caller := ⟨some iom, f, .exec⟩

/-! ## Calls -/

/-- The position at which a call starts, `hook` being `t_hook_enable`: what comes before `retry`. -/
def entry (args : IoArgs) (hook : Bool) : IoPc :=
  if !hook then .direct
  else
    match s.fdMgr.get args.fd with
    | none => if args.isIo then .direct else .done (.err .ebadf)
    | some p =>
      let ctx := s.fdMgr.heap p
      if ctx.isClosed then .done (.err .ebadf)
      else if !ctx.isSocket || ctx.userNonblock then .direct
      else .call

def begin (f : FiberId) (args : IoArgs) (hook : Bool) : Hook T :=
  let ctx := (s.fdMgr.get args.fd).elim ({} : FdCtx) s.fdMgr.heap
  { s.setCall f { pc := s.entry args hook, args := args, toMs := args.timeout ctx,
                  epoch := s.closes args.fd } with started := f :: s.started }

/-- The position after the system call at `retry` has returned `r`. -/
def afterCall (args : IoArgs) (r : SysResult) : IoPc :=
  match args.kind, r with
  | .io _ _, .err .eintr => .call
  | .io _ _, .err .eagain => .arm
  | .connect _, .err .einprogress => .arm
  | _, _ => .done r

def recordSys (f : FiberId) : Hook T :=
  let fd := (s.call f).args.fd
  { s with sys := ⟨f, s.files fd, s.closes fd⟩ :: s.sys }

def sysCall (f : FiberId) (r : SysResult) : Option (Hook T) :=
  match (s.call f).pc with
  | .direct => some ((s.recordSys f).goto f (.done r))
  | .call => some ((s.recordSys f).goto f (afterCall (s.call f).args r))
  | .sockopt => some ((s.recordSys f).goto f (.done r))
  | _ => none

/-- `addConditionTimer`, unless there is no timeout. -/
def arm (f : FiberId) (now : UInt64) (a : Addr) (k : Callback) : Option (Hook T) :=
  let c := s.call f
  if c.pc ≠ .arm then none
  else if c.toMs = ~~~0 then some (s.setCall f { c with pc := .add, timer := none })
  else if s.cb k ≠ .unused then none
  else
    (s.timers.step (.addTimer now a c.toMs (some k) false)).map fun m =>
      ((s.setTimers m).setCb k { call := f, round := c.round, next := now + c.toMs }).setCall f
        { c with pc := .add, timer := some a, armed := k :: c.armed }

/-- `addEvent` up to the mutex of the context, or to the write lock. -/
def add (f : FiberId) : Option (Hook T) :=
  let c := s.call f
  if c.pc ≠ .add then none
  else
    (s.conc.step (.call (.fiber f) (.addEvent c.args.fd c.args.event none (caller f)))).map
      fun m => (s.setConc m).goto f .adding

def addGrow (f : FiberId) : Option (Hook T) :=
  (s.conc.step (.grow (.fiber f))).map s.setConc

/-- `addEvent` under the mutex, and the test of its result. -/
def addLock (f : FiberId) (ok : Bool) : Option (Hook T) :=
  match (s.call f).pc, s.conc.pc (.fiber f) with
  | .adding, .found p (.addEvent fd e cb who) =>
    (s.conc.step (.lock (.fiber f) ok)).map fun m =>
      match s.conc.mgr.addEventLocked p fd e cb who ok with
      | none => s.setConc m
      | some (_, rt) => (s.setConc m).goto f (if rt = 0 then .yield else .addFailed)
  | _, _ => none

def yield (f : FiberId) : Option (Hook T) :=
  if (s.call f).pc = .yield then some (s.goto f .suspended) else none

def resume (f : FiberId) : Option (Hook T) :=
  if (s.call f).pc = .suspended then some (s.goto f .resumed) else none

/-- `if (timer) timer->cancel();`, and on. -/
def cancelTimer (f : FiberId) : Option (Hook T) :=
  let c := s.call f
  let m := c.timer.elim s.timers fun a => (s.timers.cancel a).1
  match c.pc with
  | .resumed => some ((s.setTimers m).goto f .check)
  | .addFailed =>
    if c.args.isIo then
      some ((s.setTimers m).setCall f { c with pc := .done (.err .epollCtl), timer := none })
    else some ((s.setTimers m).setCall f { c with pc := .sockopt, timer := none })
  | _ => none

/-- `if (tinfo->cancelled)`, and on: `goto retry` in `do_io`. -/
def check (f : FiberId) : Option (Hook T) :=
  let c := s.call f
  if c.pc ≠ .check then none
  else if c.cancelled then
    some (s.setCall f { c with pc := .done (.err .etimedout), timer := none })
  else if c.args.isIo then
    some (s.setCall f { c with pc := .call, timer := none, round := c.round + 1 })
  else some (s.setCall f { c with pc := .sockopt, timer := none })

/-! ## Callbacks -/

/-- The callbacks once those in `cbs` have been taken out of the timer set. -/
def takeOut (now : UInt64) (cbs : List (Option Callback)) (k : Callback) : CbOwner :=
  match s.cb k with
  | .timeout t =>
    if some k ∈ cbs then .timeout { t with stage := .queued, takenAt := some now } else .timeout t
  | o => o

/-- `listExpiredCb`; the callbacks are scheduled. -/
def expire (now : UInt64) (tmp : Addr) : Option (Hook T) :=
  if s.timers.live tmp then none
  else
    let r := s.timers.listExpiredCb now tmp
    some { s with timers := r.1, cb := s.takeOut now r.2 }

/-- `tinfo` exists. -/
def alive (f : FiberId) : Bool := (s.call f).pc.live || decide (0 < (s.call f).holders)

def hold (f : FiberId) (n : ℕ) : Hook T := s.setCall f { s.call f with holders := n }

/-- The callback ends, and lets go of `tinfo`. -/
def finish (k : Callback) (t : TimeoutCb) : Hook T :=
  (s.setStage k t .done).hold t.call ((s.call t.call).holders - 1)

/-- `OnTimer` and the lock of `winfo`. -/
def cbStart (k : Callback) : Option (Hook T) :=
  match s.cb k with
  | .timeout t =>
    if t.stage ≠ .queued then none
    else if s.alive t.call then
      some ((s.setStage k t .entered).hold t.call ((s.call t.call).holders + 1))
    else some (s.setStage k t .done)
  | _ => none

/-- `if (t->cancelled) return;`. -/
def cbCheck (k : Callback) : Option (Hook T) :=
  match s.cb k with
  | .timeout t =>
    if t.stage ≠ .entered then none
    else if (s.call t.call).cancelled then some (s.finish k t)
    else some (s.setStage k t .passed)
  | _ => none

/-- `t->cancelled = ETIMEDOUT;`. -/
def cbSet (k : Callback) : Option (Hook T) :=
  match s.cb k with
  | .timeout t =>
    if t.stage ≠ .passed then none
    else some ((s.setStage k t .toCancel).setCall t.call { s.call t.call with cancelled := true })
  | _ => none

/-- `cancelEvent` up to the mutex of the context. -/
def cbCancel (k : Callback) : Option (Hook T) :=
  match s.cb k with
  | .timeout t =>
    let args := (s.call t.call).args
    if t.stage ≠ .toCancel then none
    else
      (s.conc.step (.call (.timeout k) (.cancelEvent args.fd args.event))).map fun m =>
        if m.pc (.timeout k) = .out then (s.setConc m).finish k t
        else (s.setConc m).setStage k t .cancelling
  | _ => none

/-- `cancelEvent` under the mutex. -/
def cbLock (k : Callback) (ok : Bool) : Option (Hook T) :=
  match s.cb k with
  | .timeout t =>
    if t.stage ≠ .cancelling then none
    else
      (s.conc.step (.lock (.timeout k) ok)).map fun m =>
        if m.fault.isSome then s.setConc m else (s.setConc m).finish k t
  | _ => none

/-! ## Other threads -/

/-- The callback is the closure of a hooked call. -/
def isTimeout (k : Callback) : Bool :=
  match s.cb k with
  | .timeout _ => true
  | _ => false

/-- The timer is not one of a hooked call, or it has no callback any more. -/
def isForeign (a : Addr) : Bool := (s.timers.obj a).cb.all fun k => !s.isTimeout k

/-- What other threads may do to the timers: they have no pointer to those of hooked calls. -/
def allows : TimerOp → Bool
  | .addTimer _ _ _ cb _ => cb.all fun k => !s.isTimeout k
  | .cancel a | .refresh _ a | .reset _ a _ _ => s.isForeign a
  | .listExpiredCb _ _ => false
  | .getNextTimer _ => true
  | .release a => s.started.all fun f => (s.call f).timer ≠ some a

/-- The callbacks after the operation: a new one may have been given to a timer. -/
def cbAfter : TimerOp → Callback → CbOwner
  | .addTimer _ _ _ (some k) _ => Function.update s.cb k .foreign
  | _ => s.cb

def timerOp (o : TimerOp) : Option (Hook T) :=
  if !s.allows o then none
  else (s.timers.step o).map fun m => { s.setTimers m with cb := s.cbAfter o }

/-- A step of a thread in `addEvent`, `delEvent`, `cancelEvent`, `cancelAll` or `idle`. -/
def other (l : ConcLabel T) : Option (Hook T) :=
  if s.job l.thread ≠ .out then none else (s.conc.step (l.map .other)).map s.setConc

/-- `close` up to `cancelAll`, `del` or `close_f`; `iom` says whether the thread has an `IOManager`. -/
def close (t : T) (fd : ℕ) (hook iom : Bool) : Option (Hook T) :=
  if s.job t ≠ .out ∨ s.conc.pc (.other t) ≠ .out then none
  else if !hook || (s.fdMgr.get fd).isNone then some (s.setJob t (.closeF fd))
  else some (s.setJob t (if iom then .cancelAll fd else .del fd))

/-- `cancelAll` up to the mutex of the context. -/
def closeCancel (t : T) : Option (Hook T) :=
  match s.job t with
  | .cancelAll fd =>
    (s.conc.step (.call (.other t) (.cancelAll fd))).map fun m =>
      (s.setConc m).setJob t (if m.pc (.other t) = .out then .del fd else .cancelling fd)
  | _ => none

/-- `cancelAll` under the mutex. -/
def closeLock (t : T) (ok : Bool) : Option (Hook T) :=
  match s.job t with
  | .cancelling fd =>
    (s.conc.step (.lock (.other t) ok)).map fun m =>
      if m.fault.isSome then s.setConc m else (s.setConc m).setJob t (.del fd)
  | _ => none

def closeDel (t : T) : Option (Hook T) :=
  match s.job t with
  | .del fd => some ((s.setFdMgr (s.fdMgr.del fd)).setJob t (.closeF fd))
  | _ => none

/-- `close_f`. The kernel takes a closed descriptor out of the interest list. -/
def closeF (t : T) : Option (Hook T) :=
  match s.job t with
  | .closeF fd =>
    let mgr := s.conc.mgr.setInterest (Function.update s.conc.mgr.interest fd none)
    some { (s.setConc { s.conc with mgr := mgr }).setJob t .out with
      files := Function.update s.files fd none
      closes := Function.update s.closes fd (s.closes fd + 1) }
  | _ => none

/-- `socket_f` or `accept_f` has returned `fd`. -/
def socket (t : T) (fd : ℕ) : Option (Hook T) :=
  if s.job t ≠ .out ∨ s.conc.pc (.other t) ≠ .out ∨ s.files fd ≠ none then none
  else
    some { s.setJob t (.get fd) with
      files := Function.update s.files fd (some s.freshFile), freshFile := s.freshFile + 1 }

/-- `get(fd, true)` under the read lock. -/
def socketGet (t : T) : Option (Hook T) :=
  match s.job t with
  | .get fd => some (s.setJob t (if (s.fdMgr.find fd true).isSome then .out else .create fd))
  | _ => none

/-- `get(fd, true)` under the write lock. -/
def socketCreate (t : T) (stat : Option Bool) : Option (Hook T) :=
  match s.job t with
  | .create fd => some ((s.setFdMgr (s.fdMgr.create fd stat)).setJob t .out)
  | _ => none

end Hook

/-! ## The machine -/

/-- The steps. `setTimeout` is what `setsockopt` does to the object of a descriptor, `setNonblock` what
`fcntl` and `ioctl` do. -/
inductive HookLabel (T : Type)
  | begin (f : FiberId) (args : IoArgs) (hook : Bool)
  | sys (f : FiberId) (r : SysResult)
  | arm (f : FiberId) (now : UInt64) (a : Addr) (k : Callback)
  | add (f : FiberId)
  | addGrow (f : FiberId)
  | addLock (f : FiberId) (ok : Bool)
  | yield (f : FiberId)
  | resume (f : FiberId)
  | cancelTimer (f : FiberId)
  | check (f : FiberId)
  | expire (now : UInt64) (tmp : Addr)
  | cbStart (k : Callback)
  | cbCheck (k : Callback)
  | cbSet (k : Callback)
  | cbCancel (k : Callback)
  | cbLock (k : Callback) (ok : Bool)
  | timer (o : TimerOp)
  | other (l : ConcLabel T)
  | close (t : T) (fd : ℕ) (hook iom : Bool)
  | closeCancel (t : T)
  | closeLock (t : T) (ok : Bool)
  | closeDel (t : T)
  | closeF (t : T)
  | socket (t : T) (fd : ℕ)
  | socketGet (t : T)
  | socketCreate (t : T) (stat : Option Bool)
  | setTimeout (fd : ℕ) (so : TimeoutSo) (ms : UInt64)
  | setNonblock (fd : ℕ) (v : Bool)
  deriving DecidableEq, Repr

namespace Hook

variable {T : Type} [DecidableEq T]

def step (s : Hook T) (a : HookLabel T) : Option (Hook T) :=
  if s.conc.fault.isSome then none else
  match a with
  | .begin f args hook => if (s.call f).pc = .ready then some (s.begin f args hook) else none
  | .sys f r => s.sysCall f r
  | .arm f now a k => s.arm f now a k
  | .add f => s.add f
  | .addGrow f => s.addGrow f
  | .addLock f ok => s.addLock f ok
  | .yield f => s.yield f
  | .resume f => s.resume f
  | .cancelTimer f => s.cancelTimer f
  | .check f => s.check f
  | .expire now tmp => s.expire now tmp
  | .cbStart k => s.cbStart k
  | .cbCheck k => s.cbCheck k
  | .cbSet k => s.cbSet k
  | .cbCancel k => s.cbCancel k
  | .cbLock k ok => s.cbLock k ok
  | .timer o => s.timerOp o
  | .other l => s.other l
  | .close t fd hook iom => s.close t fd hook iom
  | .closeCancel t => s.closeCancel t
  | .closeLock t ok => s.closeLock t ok
  | .closeDel t => s.closeDel t
  | .closeF t => s.closeF t
  | .socket t fd => s.socket t fd
  | .socketGet t => s.socketGet t
  | .socketCreate t stat => s.socketCreate t stat
  | .setTimeout fd so ms => some (s.setFdMgr (s.fdMgr.modify fd fun c => c.setTimeout so ms))
  | .setNonblock fd v =>
    some (s.setFdMgr (s.fdMgr.modify fd fun c =>
      if c.isClosed || !c.isSocket then c else { c with userNonblock := v }))

/-- The fibers that make hooked calls (`mine`) are not those that other threads register. -/
def Env (mine : FiberId → Bool) (_ : Hook T) : HookLabel T → Prop
  | .begin f _ _ => mine f = true
  | .other (.call _ (.addEvent _ _ _ who)) => mine who.fiber = false
  | _ => True

instance (mine : FiberId → Bool) (s : Hook T) (a : HookLabel T) : Decidable (s.Env mine a) := by
  unfold Env; split <;> infer_instance

end Hook

end CoroutineScheduler
