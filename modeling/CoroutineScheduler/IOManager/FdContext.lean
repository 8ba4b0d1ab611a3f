import CoroutineScheduler.Scheduler.Queue
import Mathlib.Data.Fintype.Defs
import Mathlib.Logic.Function.Basic

/-!
# Event contexts of a descriptor

`IOManager::FdContext` with its bit mask and its two event contexts, and what they stand for: in
each of the two events there is a registration or there is none (`FdContext.of`). On contexts of
that form `triggerEvent` takes the registration out and schedules its task (`triggerEvent_of`).
-/

namespace CoroutineScheduler

/-- Event masks, as in `epoll_event::events`. -/
abbrev Mask := BitVec 32

namespace Mask

def epollIn : Mask := 0x001
def epollOut : Mask := 0x004
def epollErr : Mask := 0x008
def epollHup : Mask := 0x010
def epollEt : Mask := 0x80000000

/-- The number of set bits. -/
def setBits (m : Mask) : ℕ := (List.range 32).countP fun i => m.getLsbD i

end Mask

/-- The events of `IOManager::Event` other than `NONE`. -/
inductive Event
  | read | write
  deriving DecidableEq, Repr

instance : Fintype Event := ⟨{.read, .write}, fun e => by cases e <;> simp⟩

/-- `READ = 0x1`, `WRITE = 0x4`. -/
def Event.bit : Event → Mask
  | read => 0x1
  | write => 0x4

/-- A `Scheduler` object. -/
abbrev SchedulerId := ℕ

/-- `FdContext::EventContext`; `none` is the null pointer and the empty function. -/
structure EventContext where
  scheduler : Option SchedulerId := none
  fiber : Option FiberId := none
  cb : Option Callback := none
  deriving DecidableEq, Repr

/-- `IOManager::FdContext`, less its mutex. -/
structure FdContext where
  fd : ℕ
  events : Mask := 0
  read : EventContext := {}
  write : EventContext := {}
  deriving DecidableEq, Repr

/-- A call `scheduler->schedule(ft)`. -/
structure Call where
  scheduler : SchedulerId
  ft : FiberAndThread
  deriving DecidableEq, Repr

namespace FdContext

/-- `getContext`. -/
def getContext (c : FdContext) : Event → EventContext
  | .read => c.read
  | .write => c.write

/-- A store through the reference that `getContext` returns. -/
def setContext (c : FdContext) (e : Event) (ctx : EventContext) : FdContext :=
  match e with
  | .read => { c with read := ctx }
  | .write => { c with write := ctx }

/-- `resetContext(getContext(event))`. -/
def resetContext (c : FdContext) (e : Event) : FdContext := c.setContext e {}

/-- `triggerEvent`: the context afterwards and the call of `schedule`, if one is made. `none` when
`BIN_ASSERT(events & event)` fails or a null `ctx.scheduler` is dereferenced. The callback or fiber is
swapped out of the context by the constructor of `FiberAndThread`. -/
def triggerEvent (c : FdContext) (e : Event) : Option (FdContext × Option Call) :=
  if c.events &&& e.bit = 0 then none
  else
    let c := { c with events := c.events &&& ~~~e.bit }
    let ctx := c.getContext e
    if ctx.cb.isSome then
      ctx.scheduler.map fun sched =>
        let r := FiberAndThread.ofCbPtr ctx.cb (-1)
        (c.setContext e { ctx with cb := r.2, scheduler := none }, some ⟨sched, r.1⟩)
    else if ctx.fiber.isSome then
      ctx.scheduler.map fun sched =>
        let r := FiberAndThread.ofFiberPtr ctx.fiber (-1)
        (c.setContext e { ctx with fiber := r.2, scheduler := none }, some ⟨sched, r.1⟩)
    else some (c.setContext e { ctx with scheduler := none }, none)

end FdContext

/-! ## What a context stands for -/

/-- What is scheduled when an event occurs. -/
inductive Task
  | fiber (f : FiberId)
  | cb (c : Callback)
  deriving DecidableEq, Repr

/-- The registration of an event. -/
structure Reg where
  scheduler : SchedulerId
  task : Task
  deriving DecidableEq, Repr

/-- The call of `schedule` that a registration is good for. -/
def Reg.call (r : Reg) : Call :=
  match r.task with
  | .fiber f => ⟨r.scheduler, .ofFiber (some f) (-1)⟩
  | .cb c => ⟨r.scheduler, .ofCb (some c) (-1)⟩

/-- The context of a registered event, and the empty one. -/
def EventContext.of : Option Reg → EventContext
  | none => {}
  | some ⟨sched, .fiber f⟩ => { scheduler := some sched, fiber := some f }
  | some ⟨sched, .cb c⟩ => { scheduler := some sched, cb := some c }

theorem EventContext.of_scheduler (r : Option Reg) :
    (EventContext.of r).scheduler = r.map Reg.scheduler := by
  rcases r with _ | ⟨sched, f | c⟩ <;> rfl

/-- Exactly one of callback and fiber in the context of a registered event. -/
theorem EventContext.of_xor (r : Reg) :
    ((EventContext.of (some r)).cb.isSome ^^ (EventContext.of (some r)).fiber.isSome) = true := by
  rcases r with ⟨sched, f | c⟩ <;> rfl

/-- The mask of the events that have a registration. -/
def Event.mask (slot : Event → Option Reg) : Mask :=
  (if (slot .read).isSome then Event.read.bit else 0) |||
    if (slot .write).isSome then Event.write.bit else 0

theorem Event.mask_and_bit (slot : Event → Option Reg) (e : Event) :
    Event.mask slot &&& e.bit = 0 ↔ slot e = none := by
  unfold Event.mask
  cases hr : slot .read <;> cases hw : slot .write <;> cases e <;> simp [hr, hw] <;> decide

theorem Event.mask_eq_zero (slot : Event → Option Reg) :
    Event.mask slot = 0 ↔ ∀ e, slot e = none := by
  constructor
  · intro h e
    rw [← Event.mask_and_bit, h]
    exact BitVec.zero_and
  · intro h
    simp [Event.mask, h]

theorem Event.mask_update_none (slot : Event → Option Reg) (e : Event) :
    Event.mask (Function.update slot e none) = Event.mask slot &&& ~~~e.bit := by
  unfold Event.mask
  cases hr : slot .read <;> cases hw : slot .write <;> cases e <;>
    simp [hr, hw, Function.update] <;> decide

theorem Event.mask_update_some (slot : Event → Option Reg) (e : Event) (r : Reg) :
    Event.mask (Function.update slot e (some r)) = Event.mask slot ||| e.bit := by
  unfold Event.mask
  cases hr : slot .read <;> cases hw : slot .write <;> cases e <;>
    simp [hr, hw, Function.update] <;> decide

theorem Event.setBits_mask (slot : Event → Option Reg) :
    (Event.mask slot).setBits = (slot .read).isSome.toNat + (slot .write).isSome.toNat := by
  unfold Event.mask
  cases hr : slot .read <;> cases hw : slot .write <;> simp <;> decide

namespace FdContext

/-- The context with the registrations `slot`. -/
def of (fd : ℕ) (slot : Event → Option Reg) : FdContext where
  fd := fd
  events := Event.mask slot
  read := .of (slot .read)
  write := .of (slot .write)

variable {fd : ℕ} {slot : Event → Option Reg} {e : Event}

@[simp] theorem of_events : (of fd slot).events = Event.mask slot := rfl

theorem getContext_of : (of fd slot).getContext e = .of (slot e) := by
  cases e <;> rfl

theorem setContext_of (r : Option Reg) :
    { (of fd slot).setContext e (.of r) with events := Event.mask (Function.update slot e r) } =
      of fd (Function.update slot e r) := by
  cases e <;> simp [of, setContext, Function.update]

/-- The assertion of `triggerEvent` holds of registered events only. -/
theorem triggerEvent_of_none (h : slot e = none) : (of fd slot).triggerEvent e = none := by
  rw [triggerEvent, of_events, if_pos ((Event.mask_and_bit slot e).2 h)]

/-- A registered event is scheduled, and its registration is gone. -/
theorem triggerEvent_of {r : Reg} (h : slot e = some r) :
    (of fd slot).triggerEvent e = some (of fd (Function.update slot e none), some r.call) := by
  have hne : ¬ (of fd slot).events &&& e.bit = 0 := by
    rw [of_events, Event.mask_and_bit, h]
    exact Option.some_ne_none r
  rw [triggerEvent, if_neg hne]
  have hof : of fd (Function.update slot e none) =
      setContext { of fd slot with events := Event.mask slot &&& ~~~e.bit } e {} := by
    rw [← Event.mask_update_none]
    cases e <;> simp [of, setContext, Function.update, EventContext.of]
  have hctx : getContext { of fd slot with events := Event.mask slot &&& ~~~e.bit } e =
      .of (some r) := by
    rw [← h]
    cases e <;> rfl
  rw [hof]
  rcases r with ⟨sched, f | c⟩ <;>
    simp [hctx, EventContext.of, Reg.call, FiberAndThread.ofFiberPtr, FiberAndThread.ofCbPtr,
      FiberAndThread.ofFiber, FiberAndThread.ofCb]

end FdContext

end CoroutineScheduler
