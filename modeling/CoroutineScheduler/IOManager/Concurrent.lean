import CoroutineScheduler.IOManager.Slots
import CoroutineScheduler.Lib.Trans

/-!
# Concurrent calls

Any number of threads inside `addEvent`, `delEvent`, `cancelEvent`, `cancelAll` and `idle`, over one
`IOManager`. A step is one section under a lock: the look-up under the read lock, `contextResize`
under the write lock, the section under the mutex of a context. `epoll_wait` is a step of its own; the
events it returns are handled one by one afterwards, whatever has happened in between.
-/

namespace CoroutineScheduler

/-- A call, with its arguments. -/
inductive EventCall
  | addEvent (fd : ℕ) (e : Event) (cb : Option Callback) (caller : Caller)
  | delEvent (fd : ℕ) (e : Event)
  | cancelEvent (fd : ℕ) (e : Event)
  | cancelAll (fd : ℕ)
  deriving DecidableEq, Repr

def EventCall.fd : EventCall → ℕ
  | addEvent fd _ _ _ | delEvent fd _ | cancelEvent fd _ | cancelAll fd => fd

/-- Where a thread is. -/
inductive CallPc
  /-- in no call -/
  | out
  /-- in `addEvent`, between the read lock and the write lock -/
  | grow (fd : ℕ) (e : Event) (cb : Option Callback) (caller : Caller)
  /-- has the context of the descriptor, before its mutex is taken -/
  | found (p : Ptr) (c : EventCall)
  /-- in `idle`, with the reported events that are still to be handled -/
  | batch (reports : List (Ptr × Mask))
  deriving DecidableEq, Repr

/-- The ways to go wrong: `addEvent` fails one of its assertions, `triggerEvent` fails its own, the
table is accessed out of bounds. -/
inductive Fault
  | add | trigger | index
  deriving DecidableEq, Repr

/-- The state: the manager, the threads, and whether the process has come to an end. -/
structure Conc (T : Type) where
  mgr : IOManager
  pc : T → CallPc
  fault : Option Fault

inductive ConcLabel (T : Type)
  | call (t : T) (c : EventCall)
  | grow (t : T)
  | lock (t : T) (ok : Bool)
  | wait (t : T) (reports : List (ℕ × Mask))
  | handle (t : T) (ok : Bool)
  deriving DecidableEq, Repr

/-- The same step, of another thread. -/
def ConcLabel.map {T U : Type} (g : T → U) : ConcLabel T → ConcLabel U
  | .call t c => .call (g t) c
  | .grow t => .grow (g t)
  | .lock t ok => .lock (g t) ok
  | .wait t reports => .wait (g t) reports
  | .handle t ok => .handle (g t) ok

def ConcLabel.thread {T : Type} : ConcLabel T → T
  | .call t _ | .grow t | .lock t _ | .wait t _ | .handle t _ => t

namespace Conc

variable {T : Type} [DecidableEq T]

def start : Conc T := ⟨IOManager.start, fun _ => .out, none⟩

def goto (s : Conc T) (t : T) (pc : CallPc) : Conc T := { s with pc := Function.update s.pc t pc }

def fail (s : Conc T) (f : Fault) : Conc T := { s with fault := some f }

/-- The look-up. Calls other than `addEvent` return when there is no context. -/
def callStep (s : Conc T) (t : T) (c : EventCall) : Conc T :=
  (s.mgr.lookup c.fd).elim
    (match c with
      | .addEvent fd e cb caller => s.goto t (.grow fd e cb caller)
      | _ => s)
    fun p => s.goto t (.found p c)

/-- `contextResize` and the second look-up of `addEvent`. -/
def growStep (s : Conc T) (t : T) (fd : ℕ) (c : EventCall) : Conc T :=
  let grown := s.mgr.grow fd
  grown.2.elim (s.fail .index) fun p => { s.goto t (.found p c) with mgr := grown.1 }

/-- The section under the mutex of the context. -/
def lockStep (s : Conc T) (t : T) (p : Ptr) (ok : Bool) : EventCall → Conc T
  | .addEvent fd e cb caller =>
    (s.mgr.addEventLocked p fd e cb caller ok).elim (s.fail .add)
      fun r => { s.goto t .out with mgr := r.1 }
  | .delEvent fd e => { s.goto t .out with mgr := (s.mgr.delEventLocked p fd e ok).1 }
  | .cancelEvent fd e =>
    (s.mgr.cancelEventLocked p fd e ok).elim (s.fail .trigger)
      fun r => { s.goto t .out with mgr := r.1 }
  | .cancelAll fd =>
    (s.mgr.cancelAllLocked p fd ok).elim (s.fail .trigger)
      fun r => { s.goto t .out with mgr := r.1 }

/-- What `epoll_wait` may return for the report `r`: registered events of a registered descriptor,
and errors and hang-ups. -/
def reportOf (s : IOManager) (r : ℕ × Mask) : Option (Ptr × Mask) :=
  (s.interest r.1).bind fun i => if IOManager.Current r.2 i.1 then some (i.2, r.2) else none

/-- The section of `idle` under the mutex of the context of one reported event. -/
def handleStep (s : Conc T) (t : T) (p : Ptr) (reported : Mask) (rest : List (Ptr × Mask))
    (ok : Bool) : Conc T :=
  (s.mgr.idleEvent p reported ok).elim (s.fail .trigger)
    fun m => { s.goto t (.batch rest) with mgr := m }

def step (s : Conc T) (a : ConcLabel T) : Option (Conc T) :=
  if s.fault.isSome then none else
  match a with
  | .call t c => if s.pc t = .out then some (s.callStep t c) else none
  | .grow t =>
    match s.pc t with
    | .grow fd e cb caller => some (s.growStep t fd (.addEvent fd e cb caller))
    | _ => none
  | .lock t ok =>
    match s.pc t with
    | .found p c => some (s.lockStep t p ok c)
    | _ => none
  | .wait t reports =>
    if s.pc t = .out ∧ ∀ r ∈ reports, (reportOf s.mgr r).isSome then
      some (s.goto t (.batch (reports.filterMap (reportOf s.mgr))))
    else none
  | .handle t ok =>
    match s.pc t with
    | .batch ((p, m) :: rest) => some (s.handleStep t p m rest ok)
    | .batch [] => some (s.goto t .out)
    | _ => none

/-- The callers of `addEvent` run in a scheduler. -/
def Env (_ : Conc T) : ConcLabel T → Prop
  | .call _ (.addEvent _ _ _ caller) => caller.scheduler ≠ none ∧ caller.state = .exec
  | _ => True

instance (s : Conc T) (a : ConcLabel T) : Decidable (s.Env a) := by
  unfold Env; split <;> infer_instance

end Conc

end CoroutineScheduler
