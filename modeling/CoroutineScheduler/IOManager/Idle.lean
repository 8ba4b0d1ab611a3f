import CoroutineScheduler.IOManager.Stale
import CoroutineScheduler.Scheduler.Run
import CoroutineScheduler.Timer.Ordered

/-!
# The whole `IOManager`

The machine of `Scheduler::run` put together with the timers and the events: the idle fiber of each
worker runs `IOManager::idle`, the code of the tasks calls `schedule`, `addEvent`, `addTimer` and the
rest, and so do threads that are not workers. `stop` sets the two flags and, for a scheduler that uses
the thread of its caller, enters `run()` on that thread.

`IOManager::stopping` is three reads: the timer set under its lock, then `m_pendingEventCount`, then
the flags, `m_fibers` and `m_activeThreadCount` under the mutex of the scheduler. Each is a step. The
sections under the mutex of a context are those of `Conc`; what they do outside of the context, the
calls of `schedule` and the decrements of `m_pendingEventCount`, follows in steps of its own, in the
order of the source (`Use.todo`). A failed assertion anywhere ends the process.
-/

namespace CoroutineScheduler

/-! ## The state -/

/-- Who asks `stopping()`: the loop of `idle`, or `stop`, which asks once when the caller's thread is
the only one and then once in every case. -/
inductive Ask
  | idle | first | second
  deriving DecidableEq, Repr

/-- Where a worker is outside of the loop of `run()`. -/
inductive Place
  /-- inside the loop -/
  | loop
  /-- the thread of the caller, before `stop` -/
  | outside
  /-- before `timeout = getNextTimer()` -/
  | timers (k : Ask)
  /-- before `m_pendingEventCount == 0` -/
  | pending (k : Ask)
  /-- before `Scheduler::stopping()` -/
  | base (k : Ask)
  /-- before `epoll_wait` -/
  | wait
  /-- before `listExpiredCb` -/
  | expire
  /-- before `schedule(cbs.begin(), cbs.end())` -/
  | post (cbs : List (Option Callback))
  /-- in the loop over the reported events -/
  | events
  deriving DecidableEq, Repr

/-- What follows once `stopping()` has returned false. -/
def Ask.goOn : Ask → Place
  | idle => .wait
  | first => .timers .second
  | second => .loop

/-- What is left to do of an operation on a context. -/
inductive Todo
  | schedule (c : Call)
  | decrement
  deriving DecidableEq, Repr

/-- `cancelEvent` decrements the counter and then triggers, `cancelAll` and `idle` trigger first. -/
def Use.todo (decrementFirst : Bool) : Use → List Todo
  | registered _ => []
  | fired none => [.decrement]
  | fired (some c) => if decrementFirst then [.decrement, .schedule c] else [.schedule c, .decrement]
  | dropped => [.decrement]

def CallPc.decrementFirst : CallPc → Bool
  | found _ (.cancelEvent _ _) => true
  | _ => false

/-- The fiber whose code runs. -/
def Pc.running : Pc → Option FiberId
  | body _ f => some f
  | _ => none

/-- The call, as made by `caller`. -/
def EventCall.by (c : EventCall) (caller : Caller) : EventCall :=
  match c with
  | addEvent fd e cb _ => addEvent fd e cb caller
  | c => c

/-- The thread ids of the workers, the scheduler itself, and the worker that is the caller's thread
(`use_caller`). -/
structure PoolConfig (W : Type) where
  tid : W → ℤ
  me : SchedulerId
  root : Option W

/-- The workers `W`, other threads `E`, and all they share. -/
structure Pool (W E : Type) where
  sys : Sys W
  conc : Conc (W ⊕ E)
  timers : TimerManager
  pending : ℤ
  todo : W ⊕ E → List Todo
  place : W → Place
  autoStop : Bool
  stopping : Bool

/-- What can happen next. -/
inductive PoolLabel (W E : Type)
  | run (w : W)
  | yieldToReady (w : W)
  | yieldToHold (w : W)
  | finish (w : W)
  | throw (w : W)
  | schedule (a : W ⊕ E) (ft : FiberAndThread)
  | scheduleRange (a : W ⊕ E) (fts : List FiberAndThread)
  | newFiber (a : W ⊕ E) (c : Callback)
  | timer (a : W ⊕ E) (o : TimerOp)
  | call (a : W ⊕ E) (c : EventCall)
  | grow (a : W ⊕ E)
  | lock (a : W ⊕ E) (ok : Bool)
  | effect (a : W ⊕ E)
  | stop
  | nextTimer (w : W) (now : UInt64)
  | pendingCount (w : W)
  | baseStopping (w : W)
  | wait (w : W) (reports : List (ℕ × Mask))
  | expire (w : W) (now : UInt64) (tmp : Addr)
  | post (w : W)
  | handle (w : W) (ok : Bool)
  deriving DecidableEq, Repr

namespace Pool

variable {W E : Type} [DecidableEq W] [DecidableEq E]

def start (c : PoolConfig W) (now : UInt64) : Pool W E where
  sys := Sys.start
  conc := Conc.start
  timers := TimerManager.start now
  pending := 0
  todo := fun _ => []
  place := fun w => if c.root = some w then .outside else .loop
  autoStop := false
  stopping := false

def setPlace (s : Pool W E) (w : W) (p : Place) : Pool W E :=
  { s with place := Function.update s.place w p }

def setTodo (s : Pool W E) (a : W ⊕ E) (xs : List Todo) : Pool W E :=
  { s with todo := Function.update s.todo a xs }

def setSys (s : Pool W E) (t : Sys W) : Pool W E := { s with sys := t }

def abort (s : Pool W E) : Pool W E := s.setSys s.sys.abort

/-- The thread is in no call, and a worker is in the code of a task. -/
def Free (s : Pool W E) (a : W ⊕ E) : Prop :=
  s.conc.pc a = .out ∧ s.todo a = [] ∧
    match a with
    | .inl w => (s.sys.pc w).running ≠ none
    | .inr _ => True

instance (s : Pool W E) (a : W ⊕ E) : Decidable (s.Free a) := by
  unfold Free; cases a <;> infer_instance

/-! ## The steps -/

/-- A step of thread `a` in `Conc`: what it logs is left to do. The counter is incremented in the
section itself. -/
def concStep (s : Pool W E) (a : W ⊕ E) (l : ConcLabel (W ⊕ E)) : Option (Pool W E) :=
  (s.conc.step l).map fun u =>
    if u.fault.isSome then s.abort
    else
      let us := u.mgr.log.drop s.conc.mgr.log.length
      setTodo { s with
          conc := u
          pending := s.pending + us.countP fun x => x.use.isRegistered }
        a (us.flatMap fun x => x.use.todo (s.conc.pc a).decrementFirst)

/-- The call, with the caller that `Scheduler::GetThis()` and `Fiber::GetThis()` give on a worker. -/
def callStep (c : PoolConfig W) (s : Pool W E) (a : W ⊕ E) (d : EventCall) : Option (Pool W E) :=
  match a with
  | .inl w =>
    (s.sys.pc w).running.bind fun f =>
      s.concStep a (.call a (d.by ⟨some c.me, f, s.sys.state f⟩))
  | .inr _ => s.concStep a (.call a d)

def effectStep (c : PoolConfig W) (s : Pool W E) (a : W ⊕ E) : Option (Pool W E) :=
  match s.todo a with
  | [] => none
  | .decrement :: rest => some { s.setTodo a rest with pending := s.pending - 1 }
  | .schedule d :: rest =>
    if d.scheduler = c.me then some ((s.setSys (s.sys.schedule d.ft)).setTodo a rest)
    else some (s.setTodo a rest)

/-- `listExpiredCb` is for `idle` only. -/
def timerStep (s : Pool W E) (o : TimerOp) : Option (Pool W E) :=
  match o with
  | .listExpiredCb _ _ => none
  | o => (s.timers.step o).map fun t => { s with timers := t }

/-- A statement of `run()`; when it resumes the idle fiber, that is at the head of its loop. -/
def runStep (c : PoolConfig W) (s : Pool W E) (w : W) : Option (Pool W E) :=
  if s.place w = .loop then
    (s.sys.runStep (c.tid w) w).map fun t =>
      (s.setSys t).setPlace w (if t.pc w = .idling then .timers .idle else .loop)
  else none

/-- The code of the task on worker `w` ends or yields. -/
def leaveStep (s : Pool W E) (w : W) (t : Option (Sys W)) : Option (Pool W E) :=
  if s.Free (.inl w) then t.map s.setSys else none

/-- `m_autoStop = true` and `m_stopping = true`. -/
def stopStep [Fintype W] (c : PoolConfig W) (s : Pool W E) : Option (Pool W E) :=
  if s.stopping then none
  else
    let t := { s with autoStop := true, stopping := true }
    match c.root with
    | none => some t
    | some r => some (t.setPlace r (.timers (if ∀ w, w = r then .first else .second)))

/-- `timeout == ~0ull`. -/
def nextTimerStep (s : Pool W E) (w : W) (now : UInt64) : Option (Pool W E) :=
  match s.place w with
  | .timers k =>
    let r := s.timers.getNextTimer now
    some (setPlace { s with timers := r.1 } w (if r.2 = ~~~0 then .pending k else k.goOn))
  | _ => none

/-- `m_pendingEventCount == 0`. -/
def pendingCountStep (s : Pool W E) (w : W) : Option (Pool W E) :=
  match s.place w with
  | .pending k => some (s.setPlace w (if s.pending = 0 then .base k else k.goOn))
  | _ => none

/-- `m_autoStop && m_stopping && m_fibers.empty() && m_activeThreadCount == 0`. -/
def Stopped (s : Pool W E) : Prop :=
  s.autoStop = true ∧ s.stopping = true ∧ s.sys.fibers = [] ∧ s.sys.active = 0

instance (s : Pool W E) : Decidable s.Stopped := by unfold Stopped; infer_instance

/-- `Scheduler::stopping()`. When it holds, `idle` returns, and `stop` does not enter `run()`. -/
def baseStoppingStep (s : Pool W E) (w : W) : Option (Pool W E) :=
  match s.place w with
  | .base k =>
    if s.Stopped then
      match k with
      | .idle => (s.sys.idleOutStep w .term).map fun t => (s.setSys t).setPlace w .loop
      | _ => some ((s.setSys (s.sys.goto w .left)).setPlace w .loop)
    else some (s.setPlace w k.goOn)
  | _ => none

def waitStep (s : Pool W E) (w : W) (reports : List (ℕ × Mask)) : Option (Pool W E) :=
  if s.place w = .wait then
    (s.concStep (.inl w) (.wait (.inl w) reports)).map fun t => t.setPlace w .expire
  else none

def expireStep (s : Pool W E) (w : W) (now : UInt64) (tmp : Addr) : Option (Pool W E) :=
  if s.place w = .expire ∧ s.timers.live tmp = false then
    let r := s.timers.listExpiredCb now tmp
    some (setPlace { s with timers := r.1 } w (.post r.2))
  else none

def postStep (s : Pool W E) (w : W) : Option (Pool W E) :=
  match s.place w with
  | .post cbs =>
    let fts := cbs.map fun cb => (FiberAndThread.ofCbPtr cb (-1)).1
    some ((s.setSys { s.sys with fibers := (scheduleRange s.sys.fibers false fts).1 }).setPlace w
      .events)
  | _ => none

/-- One reported event, or `swapOut` when there are no more. -/
def handleStep (s : Pool W E) (w : W) (ok : Bool) : Option (Pool W E) :=
  if s.place w = .events ∧ s.todo (.inl w) = [] then
    (s.concStep (.inl w) (.handle (.inl w) ok)).bind fun t =>
      if s.conc.pc (.inl w) = .batch [] then
        (t.sys.idleOutStep w .yield).map fun u => (t.setSys u).setPlace w .loop
      else some t
  else none

def step [Fintype W] (c : PoolConfig W) (s : Pool W E) (a : PoolLabel W E) : Option (Pool W E) :=
  if s.sys.aborted then none else
  match a with
  | .run w => s.runStep c w
  | .yieldToReady w => s.leaveStep w (s.sys.yieldStep w .ready)
  | .yieldToHold w => s.leaveStep w (s.sys.yieldStep w .exec)
  | .finish w => s.leaveStep w (s.sys.finishStep w)
  | .throw w => s.leaveStep w (s.sys.leaveStep w .except)
  | .schedule a ft => if s.Free a then some (s.setSys (s.sys.schedule ft)) else none
  | .scheduleRange a fts =>
    if s.Free a then some (s.setSys { s.sys with fibers := (scheduleRange s.sys.fibers false fts).1 })
    else none
  | .newFiber a d => if s.Free a then some (s.setSys (s.sys.newFiber d)) else none
  | .timer a o => if s.Free a then s.timerStep o else none
  | .call a d => if s.Free a then s.callStep c a d else none
  | .grow a => if s.todo a = [] then s.concStep a (.grow a) else none
  | .lock a ok => if s.todo a = [] then s.concStep a (.lock a ok) else none
  | .effect a => s.effectStep c a
  | .stop => s.stopStep c
  | .nextTimer w now => s.nextTimerStep w now
  | .pendingCount w => s.pendingCountStep w
  | .baseStopping w => s.baseStoppingStep w
  | .wait w reports => s.waitStep w reports
  | .expire w now tmp => s.expireStep w now tmp
  | .post w => s.postStep w
  | .handle w ok => s.handleStep w ok

end Pool

end CoroutineScheduler
