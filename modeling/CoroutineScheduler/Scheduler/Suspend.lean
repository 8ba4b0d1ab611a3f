import CoroutineScheduler.Lib.Count
import CoroutineScheduler.Lib.Trans
import CoroutineScheduler.Scheduler.Run

/-!
# The suspension protocol

A fiber that suspends itself first hands itself to a waker and then calls `YieldToHold`:
`addEvent` stores it in the event context, `FiberSemaphore::wait` in `m_waiters`, the sleep hooks in
a timer's callback, `switchTo` passes it to `schedule` at once. From then on the waker
(`triggerEvent`, `notify`, the timer, `switchTo` itself) may call `schedule(fiber)`, also while the
fiber is still running.

`Sus` is the machine of `Scheduler::run` with, for each fiber, what its waker has done (`waker`) and
which worker resumed it last (`resumer`). `Disciplined` is the use the protocol asks for: one waker
for each suspension, and no waker for a fiber that yields by `YieldToReady` or ends. A fiber that has
just been created counts as handed to its creator, who may schedule it once.
-/

namespace CoroutineScheduler

/-- What has become of the wake-up of a fiber: it was not handed to a waker, the waker has it, the
waker has called `schedule`. -/
inductive Waker
  | none | asked | fired
  deriving DecidableEq, Repr

/-- The machine with the wakers. -/
structure Sus (W : Type) where
  sys : Sys W
  waker : FiberId → Waker
  resumer : FiberId → Option W

/-- What can happen next. `post` and `postRange` schedule callbacks, `wake` is the waker's
`schedule(fiber, thr)`. -/
inductive Act (W : Type)
  | create (c : Callback)
  | post (ft : FiberAndThread)
  | postRange (fts : List FiberAndThread)
  | publish (w : W)
  | wake (f : FiberId) (thr : ℤ)
  | run (w : W)
  | yieldToReady (w : W)
  | yieldToHold (w : W)
  | finish (w : W)
  | throw (w : W)
  | idleOut (w : W) (o : IdleOut)
  deriving DecidableEq, Repr

/-- `P` holds of the fiber whose code runs at `p`, if there is one. -/
def Pc.OnBody (p : Pc) (P : FiberId → Prop) : Prop :=
  match p with
  | .body _ f => P f
  | _ => True

instance (p : Pc) (P : FiberId → Prop) [DecidablePred P] : Decidable (p.OnBody P) := by
  unfold Pc.OnBody; split <;> infer_instance

theorem Pc.OnBody.of_eq {p : Pc} {P : FiberId → Prop} {b : Branch} {f : FiberId} (h : p.OnBody P)
    (hp : p = .body b f) : P f := by
  subst hp
  exact h

namespace Sus

variable {W : Type} [DecidableEq W]

def start : Sus W := ⟨Sys.start, fun _ => .none, fun _ => none⟩

/-- A step of the machine that leaves the wakers alone. -/
def lift (tid : W → ℤ) (s : Sus W) (a : Label W) : Option (Sus W) :=
  (s.sys.step tid a).map fun t => { s with sys := t }

/-- A fiber that is resumed has used up its wake-up. -/
def resumed (s : Sus W) (w : W) : Sus W :=
  match s.sys.pc w with
  | .enter _ f =>
    { s with
      waker := Function.update s.waker f .none
      resumer := Function.update s.resumer f (some w) }
  | _ => s

/-- The fiber on worker `w` hands itself to a waker. -/
def publish (s : Sus W) (w : W) : Option (Sus W) :=
  match s.sys.pc w with
  | .body _ f => some { s with waker := Function.update s.waker f .asked }
  | _ => none

def step (tid : W → ℤ) (s : Sus W) : Act W → Option (Sus W)
  | .create c =>
    (s.lift tid (.newFiber c)).map fun t =>
      { t with waker := Function.update s.waker t.sys.lastId .asked }
  | .post ft => s.lift tid (.schedule ft)
  | .postRange fts => s.lift tid (.scheduleRange fts)
  | .publish w => s.publish w
  | .wake f thr =>
    (s.lift tid (.schedule (.ofFiber (some f) thr))).map fun t =>
      { t with waker := Function.update s.waker f .fired }
  | .run w => (s.resumed w).lift tid (.run w)
  | .yieldToReady w => s.lift tid (.yieldToReady w)
  | .yieldToHold w => s.lift tid (.yieldToHold w)
  | .finish w => s.lift tid (.finish w)
  | .throw w => s.lift tid (.throw w)
  | .idleOut w o => s.lift tid (.idleOut w o)

/-- The use the protocol asks for. -/
def Disciplined (s : Sus W) : Act W → Prop
  | .post ft => ft.fiber = none
  | .postRange fts => ∀ ft ∈ fts, ft.fiber = none
  | .publish w => (s.sys.pc w).OnBody fun f => s.waker f = .none
  | .wake f _ => s.waker f = .asked
  | .yieldToHold w => (s.sys.pc w).OnBody fun f => s.waker f ≠ .none
  | .yieldToReady w | .finish w | .throw w => (s.sys.pc w).OnBody fun f => s.waker f = .none
  | _ => True

instance (s : Sus W) (a : Act W) : Decidable (s.Disciplined a) := by
  cases a <;> unfold Disciplined <;> infer_instance

end Sus

/-! ## Who has a fiber -/

/-- The worker has dequeued an entry of fiber `f` and not yet resumed it. -/
def Pc.holds (f : FiberId) : Pc → Bool
  | testTerm _ g | testExcept _ g | swapIn .fiber g | enter .fiber g => g = f
  | _ => false

/-- The worker runs fiber `f`, or is about to start it as a callback's fiber, or has got it back and
is not yet done with its state. -/
def Pc.owns (f : FiberId) : Pc → Bool
  | swapIn .cb g | enter .cb g | body _ g | leave _ g | back _ g | first _ g | second _ g
  | third _ g | requeue _ g | recycle g | hold _ g => g = f
  | _ => false

/-- The code of fiber `f` is on the processor of the worker. -/
def Pc.executes (f : FiberId) : Pc → Bool
  | body _ g | leave _ g => g = f
  | _ => false

/-- The worker has resumed fiber `f` and is not yet done with its state. -/
def Pc.resumed (f : FiberId) : Pc → Bool
  | body _ g | leave _ g | back _ g | first _ g | second _ g | third _ g | requeue _ g | recycle g
  | hold _ g => g = f
  | _ => false

/-- The worker owns `f` through its local `cb_fiber`. -/
def Pc.ownsCb (f : FiberId) : Pc → Bool
  | swapIn .cb g | enter .cb g | body .cb g | leave .cb g | back .cb g | first .cb g
  | second .cb g | third .cb g | requeue .cb g | recycle g | hold .cb g => g = f
  | _ => false

namespace Sys

variable {W : Type} [Fintype W]

/-- The number of entries of fiber `f` in the queue. -/
def queued (s : Sys W) (f : FiberId) : ℤ := (s.fibers.countP fun e => e.fiber = some f : ℕ)

/-- The number of workers that have dequeued an entry of `f` and not yet resumed it. -/
def held (s : Sys W) (f : FiberId) : ℤ := Count.tally (Pc.holds f) s.pc

/-- The number of workers that own `f`. -/
def owned (s : Sys W) (f : FiberId) : ℤ := Count.tally (Pc.owns f) s.pc

end Sys

/-- **Exclusive execution**, of a state of the protocol. -/
structure Sus.Exclusive {W : Type} [Fintype W] (s : Sus W) : Prop where
  /-- at most one worker executes a given fiber -/
  one : ∀ f v w, (s.sys.pc v).executes f = true → (s.sys.pc w).executes f = true → v = w
  /-- `BIN_ASSERT(m_state != EXEC)` in `swapIn` holds, for tasks and for the idle fiber -/
  swapIn : ∀ w b f, s.sys.pc w = .swapIn b f → s.sys.state f ≠ .exec
  idle : ∀ w, s.sys.pc w = .idleTest → s.sys.idleFiber w ≠ .exec
  /-- a worker about to store `HOLD` overwrites the `EXEC` of its own `swapIn`: no other worker has
  resumed the fiber since, or has taken its entry -/
  hold : ∀ w b f, s.sys.pc w = .hold b f → s.sys.state f = .exec ∧ s.resumer f = some w ∧
    ∀ v, (s.sys.pc v).holds f = false
  /-- a wake-up is kept until the fiber is resumed: its entry is in the queue, or one worker has
  dequeued it -/
  kept : ∀ f, s.waker f = .fired → s.sys.queued f + s.sys.held f = 1
  /-- a wake-up given before the swap-out waits in the queue -/
  early : ∀ f w, s.waker f = .fired → (s.sys.pc w).owns f = true → s.sys.queued f = 1

end CoroutineScheduler
