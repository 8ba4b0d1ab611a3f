import CoroutineScheduler.Scheduler.Queue

/-!
# The machine of `Scheduler::run`

Any number of workers, each inside the loop of `run()`, over one queue `m_fibers`, one counter
`m_activeThreadCount` and the states of all fibers. A step is one access to shared data: a
section under `m_mutex`, one read or write of a `m_state`, one update of a counter. Between the
steps of one worker everything else may happen: other workers, producers that call `schedule`,
the code of the fibers that run.

`m_activeThreadCount` and `m_idleThreadCount` are integers here, so that a decrement below zero
would be visible as a negative number.
-/

namespace CoroutineScheduler

/-- The two branches of `run()` that execute a task: `ft.fiber` and `ft.cb`. -/
inductive Branch
  | fiber | cb
  deriving DecidableEq, Repr

/-- Where a worker is in the loop of `run()`. -/
inductive Pc
  /-- before the locked section -/
  | scan
  /-- `ft.fiber->getState() != TERM` -/
  | testTerm (ft : FiberAndThread) (f : FiberId)
  /-- `ft.fiber->getState() != EXCEPT` -/
  | testExcept (ft : FiberAndThread) (f : FiberId)
  /-- `cb_fiber->reset(ft.cb)` or `cb_fiber.reset(new Fiber(ft.cb))` -/
  | prepare (c : Callback)
  /-- `BIN_ASSERT(m_state != EXEC)` in `swapIn` -/
  | swapIn (b : Branch) (f : FiberId)
  /-- `m_state = EXEC` and the context switch -/
  | enter (b : Branch) (f : FiberId)
  /-- the code of the fiber -/
  | body (b : Branch) (f : FiberId)
  /-- the fiber in `swapOut`, before the context switch -/
  | leave (b : Branch) (f : FiberId)
  /-- `--m_activeThreadCount` after `swapIn` has returned -/
  | back (b : Branch) (f : FiberId)
  /-- the first test of the state, `== READY` -/
  | first (b : Branch) (f : FiberId)
  /-- the second test: `!= TERM` for a fiber, `== EXCEPT` for a callback -/
  | second (b : Branch) (f : FiberId)
  /-- the third test: `!= EXCEPT` for a fiber, `== TERM` for a callback -/
  | third (b : Branch) (f : FiberId)
  /-- `schedule(ft.fiber)` or `schedule(cb_fiber)` -/
  | requeue (b : Branch) (f : FiberId)
  /-- `cb_fiber->reset(nullptr)` -/
  | recycle (f : FiberId)
  /-- `m_state = HOLD` -/
  | hold (b : Branch) (f : FiberId)
  /-- `--m_activeThreadCount; continue` -/
  | drop
  /-- `idle_fiber->getState() == TERM` -/
  | idleTest
  /-- inside `idle_fiber->swapIn()` -/
  | idling
  /-- `run()` has returned -/
  | left
  deriving DecidableEq, Repr

/-- Between a successful dequeue and the matching `--m_activeThreadCount`. -/
def Pc.active : Pc → Bool
  | testTerm _ _ | testExcept _ _ | prepare _ | swapIn _ _ | enter _ _ | body _ _ | leave _ _
  | back _ _ | drop => true
  | _ => false

/-- On the way to or inside the idle fiber, or out of the loop. -/
def Pc.idle : Pc → Bool
  | idleTest | idling | left => true
  | _ => false

/-- How the idle fiber came back to `run()`. -/
inductive IdleOut
  | yield | term | except
  deriving DecidableEq, Repr

/-- The state of the idle fiber once `run()` has stored `HOLD` in one that only yielded. -/
def IdleOut.state : IdleOut → FiberState
  | yield => .hold
  | term => .term
  | except => .except

/-- `m_state == TERM || m_state == EXCEPT || m_state == INIT`: the states in which `Fiber::reset` may
be called and a fiber may be destroyed. -/
def Resettable (st : FiberState) : Prop := st = .term ∨ st = .except ∨ st = .init

instance : DecidablePred Resettable := fun st => by unfold Resettable; infer_instance

/-- The state of the machine. `state` and `fn` are `m_state` and `m_cb` of the fibers, `lastId` is
`s_fiber_id`; `cbFiber` and `idleFiber` are the locals `cb_fiber` and (the state of)
`idle_fiber`. After a failed assertion the process is gone: `aborted`. -/
structure Sys (W : Type) where
  fibers : List FiberAndThread
  active : ℤ
  idle : ℤ
  state : FiberId → FiberState
  fn : FiberId → Option Callback
  lastId : FiberId
  pc : W → Pc
  cbFiber : W → Option FiberId
  idleFiber : W → FiberState
  aborted : Bool

/-- What can happen next. `write` is a change of a fiber's state from outside of this machine. -/
inductive Label (W : Type)
  | schedule (ft : FiberAndThread)
  | scheduleRange (fts : List FiberAndThread)
  | newFiber (c : Callback)
  | run (w : W)
  | yieldToReady (w : W)
  | yieldToHold (w : W)
  | finish (w : W)
  | throw (w : W)
  | idleOut (w : W) (o : IdleOut)
  | write (f : FiberId) (st : FiberState)
  deriving DecidableEq, Repr

namespace Sys

variable {W : Type} [DecidableEq W]

/-- Every worker at the head of its loop, nothing scheduled. -/
def start : Sys W where
  fibers := []
  active := 0
  idle := 0
  state := fun _ => .init
  fn := fun _ => none
  lastId := 0
  pc := fun _ => .scan
  cbFiber := fun _ => none
  idleFiber := fun _ => .init
  aborted := false

def goto (s : Sys W) (w : W) (pc : Pc) : Sys W := { s with pc := Function.update s.pc w pc }

def write (s : Sys W) (f : FiberId) (st : FiberState) : Sys W :=
  { s with state := Function.update s.state f st }

def setCbFiber (s : Sys W) (w : W) (f : Option FiberId) : Sys W :=
  { s with cbFiber := Function.update s.cbFiber w f }

def abort (s : Sys W) : Sys W := { s with aborted := true }

/-- `schedule(ft)`. -/
def schedule (s : Sys W) (ft : FiberAndThread) : Sys W :=
  { s with fibers := (scheduleNoLock s.fibers ft).1 }

/-- `new Fiber(cb)`. -/
def newFiber (s : Sys W) (c : Callback) : Sys W :=
  { s with
    lastId := s.lastId + 1
    state := Function.update s.state (s.lastId + 1) .init
    fn := Function.update s.fn (s.lastId + 1) (some c) }

/-- `Fiber::reset(cb)`, with its assertion on the state. -/
def resetFiber (s : Sys W) (f : FiberId) (c : Option Callback) : Option (Sys W) :=
  if Resettable (s.state f) then
    some { s with fn := Function.update s.fn f c, state := Function.update s.state f .init }
  else none

/-- The branch chosen once `ft.fiber` is out of question: `else if (ft.cb)`, `else if is_active`. -/
def afterFiber (ft : FiberAndThread) : Pc :=
  match ft.cb with
  | some c => .prepare c
  | none => .drop

/-- The branch chosen for a taken entry. -/
def dispatch (ft : FiberAndThread) : Pc :=
  match ft.fiber with
  | some f => .testTerm ft f
  | none => afterFiber ft

/-- The locked section of worker `w`; `tid` is its thread id. -/
def scanStep (s : Sys W) (tid : ℤ) (w : W) : Sys W :=
  let r := scan s.state tid s.fibers
  if r.ok then
    match r.taken with
    | some ft => { s.goto w (dispatch ft) with fibers := r.fibers, active := s.active + 1 }
    | none => { s.goto w .idleTest with fibers := r.fibers }
  else s.abort

/-- `cb_fiber` for the callback `c`: the old object when there is one, else a new one. -/
def prepareStep (s : Sys W) (w : W) (c : Callback) : Sys W :=
  match s.cbFiber w with
  | some f =>
    match s.resetFiber f (some c) with
    | some t => t.goto w (.swapIn .cb f)
    | none => s.abort
  | none =>
    ((s.newFiber c).setCbFiber w (some (s.lastId + 1))).goto w (.swapIn .cb (s.lastId + 1))

/-- The end of a branch: `cb_fiber.reset()` for a callback, `ft.reset()` for a fiber. -/
def release (s : Sys W) (w : W) : Branch → Sys W
  | .fiber => s.goto w .scan
  | .cb => (s.setCbFiber w none).goto w .scan

section

variable {s : Sys W} {w v : W} {q : Pc}

theorem goto_pc_self : (s.goto w q).pc w = q := Function.update_self ..

theorem goto_pc_of_ne (h : v ≠ w) : (s.goto w q).pc v = s.pc v := Function.update_of_ne h _ _

theorem release_pc (s : Sys W) (b : Branch) :
    (s.release w b).pc = Function.update s.pc w .scan := by
  cases b <;> rfl

theorem release_state (s : Sys W) (b : Branch) : (s.release w b).state = s.state := by
  cases b <;> rfl

theorem release_fibers (s : Sys W) (b : Branch) : (s.release w b).fibers = s.fibers := by
  cases b <;> rfl

theorem release_idleFiber (s : Sys W) (b : Branch) : (s.release w b).idleFiber = s.idleFiber := by
  cases b <;> rfl

end

/-- The next statement of worker `w`, where it is one of `run()`, `swapIn` or `swapOut`. -/
def runStep (s : Sys W) (tid : ℤ) (w : W) : Option (Sys W) :=
  match s.pc w with
  | .scan => some (s.scanStep tid w)
  | .testTerm ft f =>
    some (s.goto w (if s.state f = .term then afterFiber ft else .testExcept ft f))
  | .testExcept ft f =>
    some (s.goto w (if s.state f = .except then afterFiber ft else .swapIn .fiber f))
  | .prepare c => some (s.prepareStep w c)
  | .swapIn b f => some (if s.state f = .exec then s.abort else s.goto w (.enter b f))
  | .enter b f => some ((s.write f .exec).goto w (.body b f))
  | .body _ _ => none
  | .leave b f => some (s.goto w (.back b f))
  | .back b f => some { s.goto w (.first b f) with active := s.active - 1 }
  | .first b f => some (s.goto w (if s.state f = .ready then .requeue b f else .second b f))
  | .second .fiber f => some (s.goto w (if s.state f = .term then .scan else .third .fiber f))
  | .third .fiber f => some (s.goto w (if s.state f = .except then .scan else .hold .fiber f))
  | .second .cb f => some (s.goto w (if s.state f = .except then .recycle f else .third .cb f))
  | .third .cb f => some (s.goto w (if s.state f = .term then .recycle f else .hold .cb f))
  | .requeue b f => some ((s.schedule (.ofFiber (some f) (-1))).release w b)
  | .recycle f =>
    match s.resetFiber f none with
    | some t => some (t.goto w .scan)
    | none => some s.abort
  | .hold b f => some ((s.write f .hold).release w b)
  | .drop => some { s.goto w .scan with active := s.active - 1 }
  | .idleTest =>
    match s.idleFiber w with
    | .term => some (s.goto w .left)
    | .exec | .except => some s.abort
    | _ => some { s.goto w .idling with
        idle := s.idle + 1, idleFiber := Function.update s.idleFiber w .exec }
  | .idling => none
  | .left => none

/-- The fiber on worker `w` gives up the processor, having set its state to `st`. -/
def leaveStep (s : Sys W) (w : W) (st : FiberState) : Option (Sys W) :=
  match s.pc w with
  | .body b f => some ((s.write f st).goto w (.leave b f))
  | _ => none

/-- `YieldToReady` and `YieldToHold` first assert that the state is `EXEC`. -/
def yieldStep (s : Sys W) (w : W) (st : FiberState) : Option (Sys W) :=
  match s.pc w with
  | .body _ f => if s.state f = .exec then s.leaveStep w st else some s.abort
  | _ => none

/-- `MainFunc` after `m_cb()` has returned: `m_cb = nullptr; m_state = TERM`. -/
def finishStep (s : Sys W) (w : W) : Option (Sys W) :=
  match s.pc w with
  | .body _ f => leaveStep { s with fn := Function.update s.fn f none } w .term
  | _ => none

/-- The idle fiber of `w` is back in `run()`. -/
def idleOutStep (s : Sys W) (w : W) (o : IdleOut) : Option (Sys W) :=
  match s.pc w with
  | .idling =>
    some { s.goto w .scan with
      idle := s.idle - 1, idleFiber := Function.update s.idleFiber w o.state }
  | _ => none

/-- One step. `YieldToHold` leaves the state as it is: its store of `HOLD` is commented out in
the source and done by `run()`. -/
def step (tid : W → ℤ) (s : Sys W) (a : Label W) : Option (Sys W) :=
  if s.aborted then none else
  match a with
  | .schedule ft => some (s.schedule ft)
  | .scheduleRange fts => some { s with fibers := (scheduleRange s.fibers false fts).1 }
  | .newFiber c => some (s.newFiber c)
  | .run w => s.runStep (tid w) w
  | .yieldToReady w => s.yieldStep w .ready
  | .yieldToHold w => s.yieldStep w .exec
  | .finish w => s.finishStep w
  | .throw w => s.leaveStep w .except
  | .idleOut w o => s.idleOutStep w o
  | .write f st => some (s.write f st)

/-! ## What a statement of `run()` can do -/

/-- The statements that only read fiber states and go on to another place. -/
inductive Jump (st : FiberId → FiberState) : Pc → Pc → Prop
  | isTerm {ft f} (h : st f = .term) : Jump st (.testTerm ft f) (afterFiber ft)
  | notTerm {ft f} (h : st f ≠ .term) : Jump st (.testTerm ft f) (.testExcept ft f)
  | isExcept {ft f} (h : st f = .except) : Jump st (.testExcept ft f) (afterFiber ft)
  | notExcept {ft f} (h : st f ≠ .except) : Jump st (.testExcept ft f) (.swapIn .fiber f)
  | swapIn {b f} (h : st f ≠ .exec) : Jump st (.swapIn b f) (.enter b f)
  | swapOut {b f} : Jump st (.leave b f) (.back b f)
  | ready {b f} (h : st f = .ready) : Jump st (.first b f) (.requeue b f)
  | notReady {b f} (h : st f ≠ .ready) : Jump st (.first b f) (.second b f)
  | fiberTerm {f} (h : st f = .term) : Jump st (.second .fiber f) .scan
  | fiberNotTerm {f} (h : st f ≠ .term) : Jump st (.second .fiber f) (.third .fiber f)
  | fiberExcept {f} (h : st f = .except) : Jump st (.third .fiber f) .scan
  | fiberHold {f} (h : st f ≠ .except) : Jump st (.third .fiber f) (.hold .fiber f)
  | cbExcept {f} (h : st f = .except) : Jump st (.second .cb f) (.recycle f)
  | cbNotExcept {f} (h : st f ≠ .except) : Jump st (.second .cb f) (.third .cb f)
  | cbTerm {f} (h : st f = .term) : Jump st (.third .cb f) (.recycle f)
  | cbHold {f} (h : st f ≠ .term) : Jump st (.third .cb f) (.hold .cb f)

/-- The assertions that a statement of `run()` can fail. -/
inductive Fails (s : Sys W) (tid : ℤ) : Pc → Option FiberId → FiberState → Prop
  | scan {c i} (h : (scan s.state tid s.fibers).ok = false) : Fails s tid .scan c i
  | prepare {c f i} (h : ¬ Resettable (s.state f)) : Fails s tid (.prepare c) (some f) i
  | swapIn {b f c i} (h : s.state f = .exec) : Fails s tid (.swapIn b f) c i
  | recycle {f c i} (h : ¬ Resettable (s.state f)) : Fails s tid (.recycle f) c i
  | idle {c i} (h : i = .exec ∨ i = .except) : Fails s tid .idleTest c i

/-- The statements of `run()`, by what they do. -/
inductive RunStep (s : Sys W) (tid : ℤ) (w : W) : Sys W → Prop
  | take (ft : FiberAndThread) (hpc : s.pc w = .scan)
      (ht : (scan s.state tid s.fibers).taken = some ft) :
      RunStep s tid w { s.goto w (dispatch ft) with
        fibers := (scan s.state tid s.fibers).fibers, active := s.active + 1 }
  | nothing (hpc : s.pc w = .scan) (ht : (scan s.state tid s.fibers).taken = none) :
      RunStep s tid w { s.goto w .idleTest with fibers := (scan s.state tid s.fibers).fibers }
  | jump (p : Pc) (hj : Jump s.state (s.pc w) p) : RunStep s tid w (s.goto w p)
  | reuse (c : Callback) (f : FiberId) (hpc : s.pc w = .prepare c) (hcb : s.cbFiber w = some f)
      (hst : Resettable (s.state f)) :
      RunStep s tid w (goto { s with fn := Function.update s.fn f (some c),
                                     state := Function.update s.state f .init }
        w (.swapIn .cb f))
  | fresh (c : Callback) (hpc : s.pc w = .prepare c) (hcb : s.cbFiber w = none) :
      RunStep s tid w (((s.newFiber c).setCbFiber w (some (s.lastId + 1))).goto w
        (.swapIn .cb (s.lastId + 1)))
  | enter (b : Branch) (f : FiberId) (hpc : s.pc w = .enter b f) :
      RunStep s tid w ((s.write f .exec).goto w (.body b f))
  | back (b : Branch) (f : FiberId) (hpc : s.pc w = .back b f) :
      RunStep s tid w { s.goto w (.first b f) with active := s.active - 1 }
  | requeue (b : Branch) (f : FiberId) (hpc : s.pc w = .requeue b f) :
      RunStep s tid w ((s.schedule (.ofFiber (some f) (-1))).release w b)
  | recycle (f : FiberId) (hpc : s.pc w = .recycle f) (hst : Resettable (s.state f)) :
      RunStep s tid w (goto { s with fn := Function.update s.fn f none,
                                     state := Function.update s.state f .init } w .scan)
  | hold (b : Branch) (f : FiberId) (hpc : s.pc w = .hold b f) :
      RunStep s tid w ((s.write f .hold).release w b)
  | drop (hpc : s.pc w = .drop) : RunStep s tid w { s.goto w .scan with active := s.active - 1 }
  | quit (hpc : s.pc w = .idleTest) (hi : s.idleFiber w = .term) : RunStep s tid w (s.goto w .left)
  | idle (hpc : s.pc w = .idleTest) (hi : s.idleFiber w ≠ .term) :
      RunStep s tid w { s.goto w .idling with
        idle := s.idle + 1, idleFiber := Function.update s.idleFiber w .exec }
  | fail (h : Fails s tid (s.pc w) (s.cbFiber w) (s.idleFiber w)) : RunStep s tid w s.abort

theorem runStep_jump {s : Sys W} {tid : ℤ} {w : W} {p q : Pc} (hpc : s.pc w = p)
    (hj : Jump s.state p q) : RunStep s tid w (s.goto w q) :=
  RunStep.jump q (hpc ▸ hj)

theorem runStep_fail {s : Sys W} {tid : ℤ} {w : W} {p : Pc} (hpc : s.pc w = p)
    (hf : Fails s tid p (s.cbFiber w) (s.idleFiber w)) : RunStep s tid w s.abort :=
  RunStep.fail (hpc ▸ hf)

/-- Every statement of `run()` is one of `RunStep`. -/
theorem runStep_cases {s t : Sys W} {tid : ℤ} {w : W} (hs : s.runStep tid w = some t) :
    RunStep s tid w t := by
  unfold runStep at hs
  split at hs <;> rename_i hpc
  · unfold scanStep at hs
    dsimp only at hs
    split_ifs at hs with hok
    · split at hs <;> cases hs
      · next ft ht => exact RunStep.take ft hpc ht
      · next ht => exact RunStep.nothing hpc ht
    · cases hs
      exact runStep_fail hpc (Fails.scan (by simpa using hok))
  · split_ifs at hs with h <;> cases hs
    · exact runStep_jump hpc (Jump.isTerm h)
    · exact runStep_jump hpc (Jump.notTerm h)
  · split_ifs at hs with h <;> cases hs
    · exact runStep_jump hpc (Jump.isExcept h)
    · exact runStep_jump hpc (Jump.notExcept h)
  · next c =>
    unfold prepareStep at hs
    split at hs
    · next f hcb =>
      unfold resetFiber at hs
      by_cases hr : Resettable (s.state f)
      · rw [if_pos hr] at hs
        cases hs
        exact RunStep.reuse c f hpc hcb hr
      · rw [if_neg hr] at hs
        cases hs
        exact runStep_fail hpc (hcb ▸ Fails.prepare hr)
    · next hcb =>
      cases hs
      exact RunStep.fresh c hpc hcb
  · split_ifs at hs with h <;> cases hs
    · exact runStep_fail hpc (Fails.swapIn h)
    · exact runStep_jump hpc (Jump.swapIn h)
  · cases hs
    exact RunStep.enter _ _ hpc
  · cases hs
  · cases hs
    exact runStep_jump hpc Jump.swapOut
  · cases hs
    exact RunStep.back _ _ hpc
  · split_ifs at hs with h <;> cases hs
    · exact runStep_jump hpc (Jump.ready h)
    · exact runStep_jump hpc (Jump.notReady h)
  · split_ifs at hs with h <;> cases hs
    · exact runStep_jump hpc (Jump.fiberTerm h)
    · exact runStep_jump hpc (Jump.fiberNotTerm h)
  · split_ifs at hs with h <;> cases hs
    · exact runStep_jump hpc (Jump.fiberExcept h)
    · exact runStep_jump hpc (Jump.fiberHold h)
  · split_ifs at hs with h <;> cases hs
    · exact runStep_jump hpc (Jump.cbExcept h)
    · exact runStep_jump hpc (Jump.cbNotExcept h)
  · split_ifs at hs with h <;> cases hs
    · exact runStep_jump hpc (Jump.cbTerm h)
    · exact runStep_jump hpc (Jump.cbHold h)
  · cases hs
    exact RunStep.requeue _ _ hpc
  · next f =>
    unfold resetFiber at hs
    by_cases hr : Resettable (s.state f)
    · rw [if_pos hr] at hs
      cases hs
      exact RunStep.recycle f hpc hr
    · rw [if_neg hr] at hs
      cases hs
      exact runStep_fail hpc (Fails.recycle hr)
  · cases hs
    exact RunStep.hold _ _ hpc
  · cases hs
    exact RunStep.drop hpc
  · split at hs <;> cases hs
    · next hi => exact RunStep.quit hpc hi
    · next hi => exact runStep_fail hpc (hi ▸ Fails.idle (Or.inl rfl))
    · next hi => exact runStep_fail hpc (hi ▸ Fails.idle (Or.inr rfl))
    · next h1 _ _ => exact RunStep.idle hpc h1
  · cases hs
  · cases hs

/-- The steps of the machine, by what they do. -/
inductive Step (tid : W → ℤ) (s : Sys W) : Label W → Sys W → Prop
  | schedule (ft : FiberAndThread) : Step tid s (.schedule ft) (s.schedule ft)
  | scheduleRange (fts : List FiberAndThread) :
      Step tid s (.scheduleRange fts) { s with fibers := (scheduleRange s.fibers false fts).1 }
  | newFiber (c : Callback) : Step tid s (.newFiber c) (s.newFiber c)
  | run (w : W) (t : Sys W) (h : RunStep s (tid w) w t) : Step tid s (.run w) t
  | yieldToReady (w : W) (b : Branch) (f : FiberId) (hpc : s.pc w = .body b f)
      (hst : s.state f = .exec) :
      Step tid s (.yieldToReady w) ((s.write f .ready).goto w (.leave b f))
  | yieldToHold (w : W) (b : Branch) (f : FiberId) (hpc : s.pc w = .body b f)
      (hst : s.state f = .exec) :
      Step tid s (.yieldToHold w) ((s.write f .exec).goto w (.leave b f))
  | finish (w : W) (b : Branch) (f : FiberId) (hpc : s.pc w = .body b f) :
      Step tid s (.finish w) ((write { s with fn := Function.update s.fn f none } f .term).goto w
        (.leave b f))
  | throw (w : W) (b : Branch) (f : FiberId) (hpc : s.pc w = .body b f) :
      Step tid s (.throw w) ((s.write f .except).goto w (.leave b f))
  | idleOut (w : W) (o : IdleOut) (hpc : s.pc w = .idling) :
      Step tid s (.idleOut w o) { s.goto w .scan with
        idle := s.idle - 1, idleFiber := Function.update s.idleFiber w o.state }
  | write (f : FiberId) (st : FiberState) : Step tid s (.write f st) (s.write f st)
  | yieldFail {a : Label W} (w : W) (b : Branch) (f : FiberId) (hpc : s.pc w = .body b f)
      (hst : s.state f ≠ .exec) (ha : a = .yieldToReady w ∨ a = .yieldToHold w) :
      Step tid s a s.abort

theorem leaveStep_cases {s t : Sys W} {w : W} {st : FiberState} (hs : s.leaveStep w st = some t) :
    ∃ b f, s.pc w = .body b f ∧ t = (s.write f st).goto w (.leave b f) := by
  unfold leaveStep at hs
  split at hs
  · next b f hpc => exact ⟨b, f, hpc, (Option.some.inj hs).symm⟩
  · cases hs

theorem yieldStep_cases {s t : Sys W} {w : W} {st : FiberState} (hs : s.yieldStep w st = some t) :
    ∃ b f, s.pc w = .body b f ∧
      ((s.state f = .exec ∧ t = (s.write f st).goto w (.leave b f)) ∨
        (s.state f ≠ .exec ∧ t = s.abort)) := by
  unfold yieldStep at hs
  split at hs
  · next b f hpc =>
    refine ⟨b, f, hpc, ?_⟩
    split_ifs at hs with hst
    · obtain ⟨b', f', hpc', ht⟩ := leaveStep_cases hs
      cases hpc.symm.trans hpc'
      exact Or.inl ⟨hst, ht⟩
    · exact Or.inr ⟨hst, (Option.some.inj hs).symm⟩
  · cases hs

/-- Every step is one of `Step`. -/
theorem step_cases {tid : W → ℤ} {s t : Sys W} {a : Label W} (hs : step tid s a = some t) :
    s.aborted = false ∧ Step tid s a t := by
  unfold step at hs
  split_ifs at hs with hab
  refine ⟨by simpa using hab, ?_⟩
  cases a with
  | schedule ft => cases hs; exact Step.schedule ft
  | scheduleRange fts => cases hs; exact Step.scheduleRange fts
  | newFiber c => cases hs; exact Step.newFiber c
  | run w => exact Step.run w t (runStep_cases hs)
  | yieldToReady w =>
    obtain ⟨b, f, hpc, ⟨hst, rfl⟩ | ⟨hst, rfl⟩⟩ := yieldStep_cases hs
    · exact Step.yieldToReady w b f hpc hst
    · exact Step.yieldFail w b f hpc hst (Or.inl rfl)
  | yieldToHold w =>
    obtain ⟨b, f, hpc, ⟨hst, rfl⟩ | ⟨hst, rfl⟩⟩ := yieldStep_cases hs
    · exact Step.yieldToHold w b f hpc hst
    · exact Step.yieldFail w b f hpc hst (Or.inr rfl)
  | finish w =>
    simp only [finishStep] at hs
    split at hs
    · next b f hpc =>
      obtain ⟨b', f', hpc', rfl⟩ := leaveStep_cases hs
      cases hpc.symm.trans hpc'
      exact Step.finish w b f hpc
    · cases hs
  | throw w =>
    obtain ⟨b, f, hpc, rfl⟩ := leaveStep_cases hs
    exact Step.throw w b f hpc
  | idleOut w o =>
    simp only [idleOutStep] at hs
    split at hs
    · next hpc => cases hs; exact Step.idleOut w o hpc
    · cases hs
  | write f st => cases hs; exact Step.write f st

end Sys

end CoroutineScheduler
