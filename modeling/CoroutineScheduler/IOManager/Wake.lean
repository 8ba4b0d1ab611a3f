import CoroutineScheduler.IOManager.Idle
import CoroutineScheduler.Lib.Count
import CoroutineScheduler.Scheduler.Drain
import CoroutineScheduler.Timer.Results

/-!
# Wake-ups

The machine of `Scheduler::run` with the timers, the pipe `m_tickleFds` and `epoll_wait`. Whoever finds
that `m_fibers` was empty before its task, that the scan leaves tasks behind, or that a timer has become
the first one, owes a `tickle()`; `IOManager::tickle` looks at `m_idleThreadCount` and writes a byte
into the pipe. These are two steps, and everything else may happen in front of each.

The pipe is registered with `EPOLLET`: `ready` says that the pipe is in the ready list of the epoll
instance, where every write puts it. One of the threads in `epoll_wait` finds it there and takes it
out; that thread returns when there is a byte to read, and sleeps on when there is none. A thread may
also return for an event of another descriptor or at its timeout.

The machine is that of a scheduler which has not been stopped.
-/

namespace CoroutineScheduler

/-- How far a thread is with a `tickle()` that it has to make: `look` is before `hasIdleThreads()`,
`send` before the write. -/
inductive Owed
  | nothing | look | send
  deriving DecidableEq, Repr

/-- Where an idle fiber is in the loop of `IOManager::idle`. `deadline` is the `m_next` of the first
timer that `getNextTimer` saw, if there was one; `pipe` says that `epoll_wait` reported the pipe and it
has not been read yet. -/
inductive Nap
  /-- before `getNextTimer` -/
  | ask
  /-- before `epoll_wait` -/
  | wait (deadline : Option UInt64)
  /-- inside `epoll_wait` -/
  | asleep (deadline : Option UInt64)
  /-- before `listExpiredCb` -/
  | expire (pipe : Bool)
  /-- before `schedule(cbs.begin(), cbs.end())` -/
  | post (pipe : Bool) (cbs : List (Option Callback))
  /-- in the loop over the reported events, or before `swapOut` -/
  | events (pipe : Bool)
  deriving DecidableEq, Repr

namespace Nap

/-- What the thread goes to sleep with. -/
def deadline : Nap → Option (Option UInt64)
  | wait d | asleep d => some d
  | _ => none

/-- `epoll_wait` has returned, and the next thing is a scan of the queue. -/
def woken : Nap → Bool
  | expire _ | post _ _ | events _ => true
  | _ => false

end Nap

/-- The workers `W`, other threads `E`, and what the wake-ups depend on. -/
structure Wake (W E : Type) where
  sys : Sys W
  timers : TimerManager
  owed : W ⊕ E → Owed
  nap : W → Nap
  bytes : ℕ
  ready : Bool

/-- What can happen next. `wakeUp` is a return of `epoll_wait` without the pipe. -/
inductive WakeLabel (W E : Type)
  | run (w : W)
  | yieldToReady (w : W)
  | yieldToHold (w : W)
  | finish (w : W)
  | throw (w : W)
  | schedule (a : W ⊕ E) (ft : FiberAndThread)
  | scheduleRange (a : W ⊕ E) (fts : List FiberAndThread)
  | newFiber (a : W ⊕ E) (c : Callback)
  | timer (a : W ⊕ E) (o : TimerOp)
  | look (a : W ⊕ E)
  | send (a : W ⊕ E)
  | nextTimer (w : W) (now : UInt64)
  | sleep (w : W)
  | wakeUp (w : W)
  | report (w : W)
  | expire (w : W) (now : UInt64) (tmp : Addr)
  | post (w : W)
  | drain (w : W)
  | swapOut (w : W)
  deriving DecidableEq, Repr

/-- Whether the next statement of `run()` leads to a `tickle()`: `tickle_me` of the scan, or the
`need_tickle` of `schedule`. -/
def Sys.tickles {W : Type} (s : Sys W) (tid : ℤ) (w : W) : Bool :=
  match s.pc w with
  | .scan => (scan s.state tid s.fibers).tickleMe
  | .requeue _ _ => s.fibers.isEmpty
  | _ => false

namespace Sys

variable {W : Type} [DecidableEq W] {s t : Sys W} {w : W} {st : FiberState}

theorem leaveStep_idle (hs : s.leaveStep w st = some t) : t.idle = s.idle := by
  obtain ⟨b, f, -, rfl⟩ := leaveStep_cases hs
  rfl

theorem yieldStep_idle (hs : s.yieldStep w st = some t) : t.idle = s.idle := by
  obtain ⟨b, f, -, ⟨-, rfl⟩ | ⟨-, rfl⟩⟩ := yieldStep_cases hs <;> rfl

theorem finishStep_idle (hs : s.finishStep w = some t) : t.idle = s.idle := by
  unfold finishStep at hs
  split at hs
  · rw [leaveStep_idle hs]
  · cases hs

end Sys

namespace Wake

variable {W E : Type} [DecidableEq W] [DecidableEq E]

def start (now : UInt64) : Wake W E where
  sys := Sys.start
  timers := TimerManager.start now
  owed := fun _ => .nothing
  nap := fun _ => .ask
  bytes := 0
  ready := false

def setNap (s : Wake W E) (w : W) (n : Nap) : Wake W E :=
  { s with nap := Function.update s.nap w n }

/-- Thread `a` owes a `tickle()` when `b` holds. -/
def owe (s : Wake W E) (a : W ⊕ E) (b : Bool) : Wake W E :=
  { s with owed := Function.update s.owed a (if b then .look else .nothing) }

/-- The thread owes nothing, and a worker is in the code of a task. -/
def Free (s : Wake W E) (a : W ⊕ E) : Prop :=
  s.owed a = .nothing ∧
    match a with
    | .inl w => (s.sys.pc w).running ≠ none
    | .inr _ => True

/-- The worker is in the loop over the reported events, where `triggerEvent` calls `schedule`. -/
def Handles (s : Wake W E) (a : W ⊕ E) : Prop :=
  s.owed a = .nothing ∧
    match a with
    | .inl w => s.sys.pc w = .idling ∧ (s.nap w = .events true ∨ s.nap w = .events false)
    | .inr _ => False

instance (s : Wake W E) (a : W ⊕ E) : Decidable (s.Free a) :=
  match a with
  | .inl w => inferInstanceAs (Decidable (_ ∧ (s.sys.pc w).running ≠ none))
  | .inr _ => inferInstanceAs (Decidable (_ ∧ True))

instance (s : Wake W E) (a : W ⊕ E) : Decidable (s.Handles a) :=
  match a with
  | .inl w =>
    inferInstanceAs (Decidable (_ ∧ s.sys.pc w = .idling ∧
      (s.nap w = .events true ∨ s.nap w = .events false)))
  | .inr _ => inferInstanceAs (Decidable (_ ∧ False))

/-! ## The steps -/

/-- A statement of `run()`. An idle fiber that is resumed goes on at the head of its loop. -/
def runStep (tid : W → ℤ) (s : Wake W E) (w : W) : Option (Wake W E) :=
  if s.owed (.inl w) = .nothing then
    (s.sys.runStep (tid w) w).map fun t =>
      ({ s with sys := t }.setNap w .ask).owe (.inl w) (s.sys.tickles (tid w) w)
  else none

/-- The code of the task on worker `w` ends or yields. -/
def leaveStep (s : Wake W E) (w : W) (t : Option (Sys W)) : Option (Wake W E) :=
  if s.owed (.inl w) = .nothing then t.map fun u => { s with sys := u } else none

/-- A section of `schedule` under the mutex, with the queue afterwards and `need_tickle`. -/
def push (s : Wake W E) (a : W ⊕ E) (r : List FiberAndThread × Bool) : Wake W E :=
  { s with sys := { s.sys with fibers := r.1 } }.owe a r.2

/-- An operation on a timer; `onTimerInsertedAtFront` follows when it has set `m_tickled`. -/
def timerStep (s : Wake W E) (a : W ⊕ E) (o : TimerOp) : Option (Wake W E) :=
  match o with
  | .listExpiredCb _ _ | .getNextTimer _ => none
  | o => (s.timers.step o).map fun t =>
    { s with timers := t }.owe a (t.tickled && !s.timers.tickled)

/-- `hasIdleThreads()`. -/
def lookStep (s : Wake W E) (a : W ⊕ E) : Option (Wake W E) :=
  if s.owed a = .look then
    some { s with owed := Function.update s.owed a (if s.sys.idle > 0 then .send else .nothing) }
  else none

/-- `write(m_tickleFds[1], "T", 1)`. -/
def sendStep (s : Wake W E) (a : W ⊕ E) : Option (Wake W E) :=
  if s.owed a = .send then
    some { s with
      owed := Function.update s.owed a .nothing, bytes := s.bytes + 1, ready := true }
  else none

/-- A step of the idle fiber of `w`, from the place where it is. -/
def idleStep (s : Wake W E) (w : W) (f : Nap → Option (Wake W E)) : Option (Wake W E) :=
  if s.sys.pc w = .idling ∧ s.owed (.inl w) = .nothing then f (s.nap w) else none

def nextTimerStep (s : Wake W E) (w : W) (now : UInt64) : Nap → Option (Wake W E)
  | .ask => some (setNap { s with timers := (s.timers.getNextTimer now).1 } w
      (.wait (s.timers.timers.head?.map fun a => (s.timers.obj a).next)))
  | _ => none

def sleepStep (s : Wake W E) (w : W) : Nap → Option (Wake W E)
  | .wait d => some (s.setNap w (.asleep d))
  | _ => none

def wakeUpStep (s : Wake W E) (w : W) : Nap → Option (Wake W E)
  | .asleep _ => some (s.setNap w (.expire false))
  | _ => none

/-- `w` finds the pipe in the ready list. -/
def reportStep (s : Wake W E) (w : W) : Nap → Option (Wake W E)
  | .asleep _ =>
    if s.ready then
      some (if s.bytes > 0 then setNap { s with ready := false } w (.expire true)
        else { s with ready := false })
    else none
  | _ => none

def expireStep (s : Wake W E) (w : W) (now : UInt64) (tmp : Addr) : Nap → Option (Wake W E)
  | .expire pipe =>
    if s.timers.live tmp then none
    else
      let r := s.timers.listExpiredCb now tmp
      some (setNap { s with timers := r.1 } w (if r.2 = [] then .events pipe else .post pipe r.2))
  | _ => none

def postStep (s : Wake W E) (w : W) : Nap → Option (Wake W E)
  | .post pipe cbs =>
    some ((s.push (.inl w) (scheduleRange s.sys.fibers false
      (cbs.map fun cb => (FiberAndThread.ofCbPtr cb (-1)).1))).setNap w (.events pipe))
  | _ => none

/-- The pipe is read until it is empty. -/
def drainStep (s : Wake W E) (w : W) : Nap → Option (Wake W E)
  | .events true => some (setNap { s with bytes := 0 } w (.events false))
  | _ => none

def swapOutStep (s : Wake W E) (w : W) : Nap → Option (Wake W E)
  | .events false => (s.sys.idleOutStep w .yield).map fun t => { s with sys := t }
  | _ => none

def step (tid : W → ℤ) (s : Wake W E) (l : WakeLabel W E) : Option (Wake W E) :=
  if s.sys.aborted then none else
  match l with
  | .run w => s.runStep tid w
  | .yieldToReady w => s.leaveStep w (s.sys.yieldStep w .ready)
  | .yieldToHold w => s.leaveStep w (s.sys.yieldStep w .exec)
  | .finish w => s.leaveStep w (s.sys.finishStep w)
  | .throw w => s.leaveStep w (s.sys.leaveStep w .except)
  | .schedule a ft =>
    if s.Free a ∨ s.Handles a then some (s.push a (scheduleNoLock s.sys.fibers ft)) else none
  | .scheduleRange a fts =>
    if s.Free a then some (s.push a (CoroutineScheduler.scheduleRange s.sys.fibers false fts)) else none
  | .newFiber a c => if s.Free a then some { s with sys := s.sys.newFiber c } else none
  | .timer a o => if s.Free a then s.timerStep a o else none
  | .look a => s.lookStep a
  | .send a => s.sendStep a
  | .nextTimer w now => s.idleStep w (s.nextTimerStep w now)
  | .sleep w => s.idleStep w (s.sleepStep w)
  | .wakeUp w => s.idleStep w (s.wakeUpStep w)
  | .report w => s.idleStep w (s.reportStep w)
  | .expire w now tmp => s.idleStep w (s.expireStep w now tmp)
  | .post w => s.idleStep w (s.postStep w)
  | .drain w => s.idleStep w (s.drainStep w)
  | .swapOut w => s.idleStep w (s.swapOutStep w)

/-! ## What a step can do -/

/-- The steps, by what they do. -/
inductive Step (tid : W → ℤ) (s : Wake W E) : WakeLabel W E → Wake W E → Prop
  | run (w : W) (t : Sys W) (ha : s.owed (.inl w) = .nothing)
      (h : Sys.RunStep s.sys (tid w) w t) : Step tid s (.run w)
      (({ s with sys := t }.setNap w .ask).owe (.inl w) (s.sys.tickles (tid w) w))
  | leave (l : WakeLabel W E) (w : W) (t : Sys W) (h : Sys.Leaves s.sys w t)
      (hidle : t.idle = s.sys.idle) : Step tid s l { s with sys := t }
  | push (l : WakeLabel W E) (a : W ⊕ E) (fts : List FiberAndThread) (hfree : s.Free a ∨ s.Handles a) :
      Step tid s l (s.push a (scheduleRange s.sys.fibers false fts))
  | newFiber (a : W ⊕ E) (c : Callback) :
      Step tid s (.newFiber a c) { s with sys := s.sys.newFiber c }
  | timer (a : W ⊕ E) (o : TimerOp) (t : TimerManager) (hfree : s.Free a)
      (ho : ∀ now, o ≠ .getNextTimer now ∧ ∀ tmp, o ≠ .listExpiredCb now tmp)
      (ht : s.timers.step o = some t) :
      Step tid s (.timer a o) ({ s with timers := t }.owe a (t.tickled && !s.timers.tickled))
  | look (a : W ⊕ E) (ha : s.owed a = .look) : Step tid s (.look a)
      { s with owed := Function.update s.owed a (if s.sys.idle > 0 then .send else .nothing) }
  | send (a : W ⊕ E) (ha : s.owed a = .send) : Step tid s (.send a)
      { s with owed := Function.update s.owed a .nothing, bytes := s.bytes + 1, ready := true }
  | nextTimer (w : W) (now : UInt64) (hpc : s.sys.pc w = .idling) (hn : s.nap w = .ask) :
      Step tid s (.nextTimer w now) (setNap { s with timers := (s.timers.getNextTimer now).1 } w
        (.wait (s.timers.timers.head?.map fun a => (s.timers.obj a).next)))
  | sleep (w : W) (d : Option UInt64) (hpc : s.sys.pc w = .idling) (hn : s.nap w = .wait d) :
      Step tid s (.sleep w) (s.setNap w (.asleep d))
  | stale (w : W) (hb : s.bytes = 0) : Step tid s (.report w) { s with ready := false }
  | woken (l : WakeLabel W E) (w : W) (t : Wake W E) (hpc : s.sys.pc w = .idling)
      (hsys : t.sys = { s.sys with fibers := t.sys.fibers })
      (hnap : ∃ n : Nap, n.woken = true ∧ t.nap = Function.update s.nap w n)
      (htimers : t.timers = s.timers ∨
        ∃ now tmp, s.timers.step (.listExpiredCb now tmp) = some t.timers) : Step tid s l t
  | swapOut (w : W) (t : Sys W) (h : s.sys.idleOutStep w .yield = some t) :
      Step tid s (.swapOut w) { s with sys := t }

theorem scheduleNoLock_eq (fibers : List FiberAndThread) (ft : FiberAndThread) :
    scheduleNoLock fibers ft = scheduleRange fibers false [ft] := by
  unfold scheduleRange scheduleRange
  simp only [Bool.or_false]

omit [DecidableEq W] [DecidableEq E] in
theorem leaveStep_cases {s t : Wake W E} {w : W} {u : Option (Sys W)}
    (hs : s.leaveStep w u = some t) : ∃ v, u = some v ∧ t = { s with sys := v } := by
  unfold leaveStep at hs
  split_ifs at hs
  obtain ⟨v, hv, rfl⟩ := Option.map_eq_some_iff.1 hs
  exact ⟨v, hv, rfl⟩

omit [DecidableEq W] [DecidableEq E] in
theorem idleStep_cases {s t : Wake W E} {w : W} {f : Nap → Option (Wake W E)}
    (hs : s.idleStep w f = some t) : s.sys.pc w = .idling ∧ f (s.nap w) = some t := by
  unfold idleStep at hs
  split_ifs at hs with h
  exact ⟨h.1, hs⟩

/-- Every step is one of `Step`. -/
theorem step_cases {tid : W → ℤ} {s t : Wake W E} {l : WakeLabel W E}
    (hs : step tid s l = some t) : Step tid s l t := by
  unfold step at hs
  split_ifs at hs
  cases l with
  | run w =>
    simp only [runStep] at hs
    split_ifs at hs with ha
    obtain ⟨u, hu, rfl⟩ := Option.map_eq_some_iff.1 hs
    exact Step.run w u ha (Sys.runStep_cases hu)
  | yieldToReady w =>
    obtain ⟨v, hv, rfl⟩ := leaveStep_cases hs
    exact Step.leave _ w v (Sys.yieldStep_leaves hv) (Sys.yieldStep_idle hv)
  | yieldToHold w =>
    obtain ⟨v, hv, rfl⟩ := leaveStep_cases hs
    exact Step.leave _ w v (Sys.yieldStep_leaves hv) (Sys.yieldStep_idle hv)
  | finish w =>
    obtain ⟨v, hv, rfl⟩ := leaveStep_cases hs
    exact Step.leave _ w v (Sys.finishStep_leaves hv) (Sys.finishStep_idle hv)
  | throw w =>
    obtain ⟨v, hv, rfl⟩ := leaveStep_cases hs
    exact Step.leave _ w v (Sys.leaveStep_leaves hv) (Sys.leaveStep_idle hv)
  | schedule a ft =>
    simp only at hs
    split_ifs at hs with h
    cases hs
    rw [scheduleNoLock_eq]
    exact Step.push _ a [ft] h
  | scheduleRange a fts =>
    simp only at hs
    split_ifs at hs with h
    cases hs
    exact Step.push _ a fts (.inl h)
  | newFiber a c =>
    simp only at hs
    split_ifs at hs
    cases hs
    exact Step.newFiber a c
  | timer a o =>
    simp only at hs
    split_ifs at hs with h
    unfold timerStep at hs
    split at hs
    · cases hs
    · cases hs
    · next hne hne' =>
      obtain ⟨u, hu, rfl⟩ := Option.map_eq_some_iff.1 hs
      exact Step.timer a o u h (fun now => ⟨hne' now, hne now⟩) hu
  | look a =>
    simp only [lookStep] at hs
    by_cases h : s.owed a = .look
    · rw [if_pos h] at hs
      cases hs
      exact Step.look a h
    · rw [if_neg h] at hs
      cases hs
  | send a =>
    simp only [sendStep] at hs
    split_ifs at hs with h
    cases hs
    exact Step.send a h
  | nextTimer w now =>
    obtain ⟨hpc, hs⟩ := idleStep_cases hs
    unfold nextTimerStep at hs
    split at hs
    · next hn =>
      cases hs
      exact Step.nextTimer w now hpc hn
    · cases hs
  | sleep w =>
    obtain ⟨hpc, hs⟩ := idleStep_cases hs
    unfold sleepStep at hs
    split at hs
    · next d hn =>
      cases hs
      exact Step.sleep w d hpc hn
    · cases hs
  | wakeUp w =>
    obtain ⟨hpc, hs⟩ := idleStep_cases hs
    unfold wakeUpStep at hs
    split at hs
    · cases hs
      exact Step.woken _ w _ hpc rfl ⟨_, rfl, rfl⟩ (.inl rfl)
    · cases hs
  | report w =>
    obtain ⟨hpc, hs⟩ := idleStep_cases hs
    unfold reportStep at hs
    split at hs
    · split_ifs at hs with hr hb
      · cases hs
        exact Step.woken _ w _ hpc rfl ⟨_, rfl, rfl⟩ (.inl rfl)
      · cases hs
        exact Step.stale w (by omega)
    · cases hs
  | expire w now tmp =>
    obtain ⟨hpc, hs⟩ := idleStep_cases hs
    unfold expireStep at hs
    split at hs
    · split_ifs at hs with htmp
      cases hs
      refine Step.woken _ w _ hpc rfl ⟨_, ?_, rfl⟩ (.inr ⟨now, tmp, if_neg htmp⟩)
      split_ifs <;> rfl
    · cases hs
  | post w =>
    obtain ⟨hpc, hs⟩ := idleStep_cases hs
    unfold postStep at hs
    split at hs
    · cases hs
      exact Step.woken _ w _ hpc rfl ⟨_, rfl, rfl⟩ (.inl rfl)
    · cases hs
  | drain w =>
    obtain ⟨hpc, hs⟩ := idleStep_cases hs
    unfold drainStep at hs
    split at hs
    · cases hs
      exact Step.woken _ w _ hpc rfl ⟨_, rfl, rfl⟩ (.inl rfl)
    · cases hs
  | swapOut w =>
    obtain ⟨hpc, hs⟩ := idleStep_cases hs
    unfold swapOutStep at hs
    split at hs
    · obtain ⟨v, hv, rfl⟩ := Option.map_eq_some_iff.1 hs
      exact Step.swapOut w v hv
    · cases hs

end Wake

end CoroutineScheduler
