import Mathlib.Tactic

/-!
# The task queue

`m_fibers` and the sections of code that run under `Scheduler::m_mutex`: `scheduleNoLock` for one
task, the loop over a range of tasks, and the scan at the head of `Scheduler::run`.

`scan_spec` says what the scan does: it takes the earliest entry that is eligible for the calling
thread, or, when it takes nothing, no entry is eligible.
-/

namespace CoroutineScheduler

/-- `Fiber::State`. -/
inductive FiberState
  | init | hold | exec | term | ready | except
  deriving DecidableEq, Repr

/-- A `Fiber` object, named by its `m_id`: `++s_fiber_id` never gives the same id twice. -/
abbrev FiberId := ℕ

/-- A non-empty `std::function<void()>`. -/
abbrev Callback := ℕ

/-- `Scheduler::FiberAndThread`; `none` is the null pointer and the empty function. -/
structure FiberAndThread where
  fiber : Option FiberId
  cb : Option Callback
  thread : ℤ
  deriving DecidableEq, Repr

namespace FiberAndThread

/-- `FiberAndThread(Fiber::ptr f, int thr)`. -/
def ofFiber (f : Option FiberId) (thr : ℤ) : FiberAndThread := ⟨f, none, thr⟩

/-- `FiberAndThread(std::function<void()> f, int thr)`. -/
def ofCb (c : Option Callback) (thr : ℤ) : FiberAndThread := ⟨none, c, thr⟩

/-- `FiberAndThread(Fiber::ptr *f, int thr)`: the entry, and `*f` after `fiber.swap(*f)`. -/
def ofFiberPtr (f : Option FiberId) (thr : ℤ) : FiberAndThread × Option FiberId :=
  (⟨f, none, thr⟩, none)

/-- `FiberAndThread(std::function<void()> *f, int thr)`: the entry, and `*f` after
`cb.swap(*f)`. -/
def ofCbPtr (c : Option Callback) (thr : ℤ) : FiberAndThread × Option Callback :=
  (⟨none, c, thr⟩, none)

/-- `ft.fiber || ft.cb`. -/
def nonEmpty (ft : FiberAndThread) : Bool := ft.fiber.isSome || ft.cb.isSome

end FiberAndThread

open FiberAndThread

/-- `Scheduler::scheduleNoLock`: the queue afterwards and `need_tickle`. -/
def scheduleNoLock (fibers : List FiberAndThread) (ft : FiberAndThread) :
    List FiberAndThread × Bool :=
  (if ft.nonEmpty then fibers ++ [ft] else fibers, fibers.isEmpty)

/-- The loop of `schedule(begin, end)`: the queue afterwards and `need_tickle`. -/
def scheduleRange (fibers : List FiberAndThread) (tickle : Bool) :
    List FiberAndThread → List FiberAndThread × Bool
  | [] => (fibers, tickle)
  | ft :: fts =>
    let r := scheduleNoLock fibers ft
    scheduleRange r.1 (r.2 || tickle) fts

theorem scheduleNoLock_fibers (fibers : List FiberAndThread) (ft : FiberAndThread) :
    (scheduleNoLock fibers ft).1 = fibers ++ [ft].filter nonEmpty := by
  unfold scheduleNoLock
  cases h : ft.nonEmpty <;> simp [h]

/-- A range is appended in order, its empty tasks left out. -/
theorem scheduleRange_fibers (fibers fts : List FiberAndThread) (tickle : Bool) :
    (scheduleRange fibers tickle fts).1 = fibers ++ fts.filter nonEmpty := by
  induction fts generalizing fibers tickle with
  | nil => simp [scheduleRange]
  | cons ft fts ih =>
    rw [scheduleRange, ih, scheduleNoLock_fibers, List.append_assoc, ← List.filter_append,
      List.singleton_append]

/-! ## The scan -/

/-- What the locked section at the head of the loop of `run()` leaves behind; `ok` says that
`BIN_ASSERT(it->fiber || it->cb)` held at every entry it was evaluated at. -/
structure Scan where
  taken : Option FiberAndThread
  fibers : List FiberAndThread
  tickleMe : Bool
  ok : Bool
  deriving DecidableEq, Repr

/-- `it->thread != -1 && it->thread != bin::GetThreadId()`. -/
def otherThread (tid : ℤ) (e : FiberAndThread) : Bool := e.thread ≠ -1 && e.thread ≠ tid

/-- `it->fiber && it->fiber->getState() == Fiber::EXEC`. -/
def executing (st : FiberId → FiberState) (e : FiberAndThread) : Bool :=
  match e.fiber with
  | some f => st f = .exec
  | none => false

/-- The scan of thread `tid`, with `st` the fiber states it reads. -/
def scan (st : FiberId → FiberState) (tid : ℤ) : List FiberAndThread → Scan
  | [] => ⟨none, [], false, true⟩
  | e :: es =>
    if otherThread tid e then
      let r := scan st tid es
      ⟨r.taken, e :: r.fibers, true, r.ok⟩
    else if executing st e then
      let r := scan st tid es
      ⟨r.taken, e :: r.fibers, r.tickleMe, e.nonEmpty && r.ok⟩
    else ⟨some e, es, !es.isEmpty, e.nonEmpty⟩

/-- The scan of thread `tid` may take `e`. -/
def Eligible (st : FiberId → FiberState) (tid : ℤ) (e : FiberAndThread) : Prop :=
  (e.thread = -1 ∨ e.thread = tid) ∧ ∀ f, e.fiber = some f → st f ≠ .exec

theorem eligible_iff (st : FiberId → FiberState) (tid : ℤ) (e : FiberAndThread) :
    Eligible st tid e ↔ otherThread tid e = false ∧ executing st e = false := by
  unfold Eligible otherThread executing
  refine and_congr ?_ ?_
  · simp only [Bool.and_eq_false_imp, decide_eq_true_eq, decide_eq_false_iff_not, not_not]
    tauto
  · cases e.fiber <;> simp

instance (st : FiberId → FiberState) (tid : ℤ) (e : FiberAndThread) :
    Decidable (Eligible st tid e) := decidable_of_iff' _ (eligible_iff st tid e)

/-- The scan of the queue `fibers`: either the earliest eligible entry is taken, from between
`pre` and `post`, or the queue is left alone and has no eligible entry. -/
inductive ScanSpec (st : FiberId → FiberState) (tid : ℤ) (fibers : List FiberAndThread) :
    Option FiberAndThread → List FiberAndThread → Prop
  | take (pre post : List FiberAndThread) (e : FiberAndThread) (hsplit : fibers = pre ++ e :: post)
      (he : Eligible st tid e) (hpre : ∀ x ∈ pre, ¬ Eligible st tid x) :
      ScanSpec st tid fibers (some e) (pre ++ post)
  | nothing (h : ∀ x ∈ fibers, ¬ Eligible st tid x) : ScanSpec st tid fibers none fibers

theorem ScanSpec.cons {st : FiberId → FiberState} {tid : ℤ} {es rest : List FiberAndThread}
    {t : Option FiberAndThread} {e : FiberAndThread} (he : ¬ Eligible st tid e)
    (h : ScanSpec st tid es t rest) : ScanSpec st tid (e :: es) t (e :: rest) := by
  cases h with
  | take pre post x hsplit hx hpre =>
    refine ScanSpec.take (e :: pre) post x (by rw [hsplit]; rfl) hx ?_
    intro y hy
    rcases List.mem_cons.1 hy with rfl | hy
    · exact he
    · exact hpre y hy
  | nothing h =>
    refine ScanSpec.nothing fun y hy => ?_
    rcases List.mem_cons.1 hy with rfl | hy
    · exact he
    · exact h y hy

theorem scan_spec (st : FiberId → FiberState) (tid : ℤ) (fibers : List FiberAndThread) :
    ScanSpec st tid fibers (scan st tid fibers).taken (scan st tid fibers).fibers := by
  induction fibers with
  | nil => exact ScanSpec.nothing (by simp)
  | cons e es ih =>
    unfold scan
    split_ifs with ho hx
    · exact ScanSpec.cons (by rw [eligible_iff]; simp [ho]) ih
    · exact ScanSpec.cons (by rw [eligible_iff]; simp [hx]) ih
    · refine ScanSpec.take [] es e rfl ?_ (by simp)
      rw [eligible_iff]
      simp [ho, hx]

/-- The assertion in the scan holds when every entry is a task. -/
theorem scan_ok (st : FiberId → FiberState) (tid : ℤ) {fibers : List FiberAndThread}
    (h : ∀ e ∈ fibers, e.nonEmpty = true) : (scan st tid fibers).ok = true := by
  induction fibers with
  | nil => rfl
  | cons e es ih =>
    have he := h e (List.mem_cons_self ..)
    have hes := ih fun x hx => h x (List.mem_cons_of_mem _ hx)
    unfold scan
    split_ifs <;> simp [he, hes]

end CoroutineScheduler
