import CoroutineScheduler.Scheduler.Exclusive

/-!
# The fiber for callbacks

`Fiber` objects in `Scheduler::run`: what their contexts would do when they are entered, who has a
pointer to them, and which callbacks they have started. A worker keeps one `Fiber` for its callbacks,
resets it when a callback has ended, and drops its pointer when a callback has yielded.

`CbRun` is the machine of the suspension protocol with the contexts, the pointers that it does not know
of, and two counters for each callback. `late` is the local pointer that a worker still has in front of
its `reset()`, `copies` are pointers of others.

The invariant says that the state of a fiber tells what its context would do (`Inv.context`), and that
a fiber kept for the next callback has none (`Inv.spare`). `Safe` follows: the assertions of
`Fiber::reset` and of the destructor hold, and no callback is lost or started twice.
-/

namespace CoroutineScheduler

open Trans

/-! ## The machine -/

/-- What a fiber does when it is entered: `MainFunc` begins and calls `m_cb`, or the callback goes on
where it has yielded, or `MainFunc` goes on behind its last `swapOut`. -/
inductive Context
  | main | live | dead
  deriving DecidableEq, Repr

/-- The pointer `ft.fiber` of a worker. -/
def Pc.ftFiber : Pc → Option FiberId
  | testTerm _ f | testExcept _ f | swapIn .fiber f | enter .fiber f | body .fiber f | leave .fiber f
  | back .fiber f | first .fiber f | second .fiber f | third .fiber f | requeue .fiber f
  | hold .fiber f => some f
  | _ => none

/-- The entry whose fiber a worker tests. -/
def Pc.tested : Pc → Option FiberAndThread
  | testTerm ft _ | testExcept ft _ => some ft
  | _ => none

/-- The next statement gives a fiber another context. -/
def Pc.setsContext : Pc → Bool
  | prepare _ | recycle _ | enter _ _ => true
  | _ => false

/-- The callback that a worker has taken and not yet put into a fiber. -/
def Pc.callback : Pc → Option Callback
  | testTerm ft _ | testExcept ft _ => ft.cb
  | prepare c => some c
  | _ => none

structure CbRun (W : Type) where
  sus : Sus W
  context : FiberId → Context
  late : W → Option FiberId
  copies : FiberId → ℕ
  /-- How often a callback was scheduled, or a fiber made for it. -/
  posted : Callback → ℕ
  /-- How often `MainFunc` has called it. -/
  started : Callback → ℕ

/-- What can happen next: a step of the protocol, a worker resets a local pointer, another pointer is
copied or dropped. -/
inductive CbAct (W : Type)
  | act (a : Act W)
  | reset (w : W)
  | copy (f : FiberId)
  | discard (f : FiberId)

namespace CbRun

variable {W : Type} [DecidableEq W]

def start : CbRun W := ⟨Sus.start, fun _ => .main, fun _ => none, fun _ => 0, fun _ => 0, fun _ => 0⟩

/-- How often a step hands in the callback. -/
def posts (c : Callback) : Act W → ℕ
  | .create c' => if c' = c then 1 else 0
  | .post ft => if ft.cb = some c then 1 else 0
  | .postRange fts => fts.countP fun ft => ft.cb = some c
  | _ => 0

/-- The fiber that a step enters. -/
def entered (s : CbRun W) : Act W → Option FiberId
  | .run w =>
    match s.sus.sys.pc w with
    | .enter _ f => some f
    | _ => none
  | _ => none

/-- How often a step calls the callback: once when it enters a fiber at the beginning of `MainFunc`. -/
def starts (s : CbRun W) (c : Callback) (a : Act W) : ℕ :=
  match s.entered a with
  | some f => if s.context f = .main ∧ s.sus.sys.fn f = some c then 1 else 0
  | none => 0

/-- The contexts behind a step: `makecontext` in the constructor and in `Fiber::reset`, and the end of
a callback. -/
def contexts (s : CbRun W) : Act W → FiberId → Context
  | .create _ => Function.update s.context (s.sus.sys.lastId + 1) .main
  | .run w =>
    match s.sus.sys.pc w with
    | .prepare _ =>
      Function.update s.context ((s.sus.sys.cbFiber w).getD (s.sus.sys.lastId + 1)) .main
    | .recycle f => Function.update s.context f .main
    | .enter _ f => Function.update s.context f .live
    | _ => s.context
  | .finish w | .throw w =>
    match s.sus.sys.pc w with
    | .body _ f => Function.update s.context f .dead
    | _ => s.context
  | _ => s.context

/-- The local pointer of a worker that is gone behind a step, and is reset next. -/
def lates (s : CbRun W) (t : Sus W) : Act W → W → Option FiberId
  | .run w =>
    Function.update s.late w
      (if (s.sus.sys.pc w).ftFiber ≠ (t.sys.pc w).ftFiber then (s.sus.sys.pc w).ftFiber
      else if t.sys.cbFiber w = none then s.sus.sys.cbFiber w
      else none)
  | _ => s.late

/-- A worker goes on when it has reset its pointer. -/
def ready (s : CbRun W) : Act W → Prop
  | .run w => s.late w = none
  | _ => True

instance (s : CbRun W) (a : Act W) : Decidable (s.ready a) := by
  rcases a with _ | _ <;> unfold ready <;> infer_instance

/-- The machine behind a step of the protocol. -/
def next (s : CbRun W) (t : Sus W) (a : Act W) : CbRun W :=
  ⟨t, s.contexts a, s.lates t a, s.copies, fun c => s.posted c + posts c a,
    fun c => s.started c + s.starts c a⟩

def step (tid : W → ℤ) (s : CbRun W) : CbAct W → Option (CbRun W)
  | .act a => if s.ready a then (s.sus.step tid a).map fun t => s.next t a else none
  | .reset w => some { s with late := Function.update s.late w none }
  | .copy f => some { s with copies := Function.update s.copies f (s.copies f + 1) }
  | .discard f =>
    if 0 < s.copies f then some { s with copies := Function.update s.copies f (s.copies f - 1) }
    else none

end CbRun

/-! ## What should hold -/

namespace CbRun

variable {W : Type}

/-- There is a pointer to the fiber: in the queue, of a worker, of its waker, on its own stack, where
`MainFunc` keeps one until the callback ends, or another one. -/
def Pointed (s : CbRun W) (f : FiberId) : Prop :=
  (∃ e ∈ s.sus.sys.fibers, e.fiber = some f) ∨ (∃ w, s.sus.sys.cbFiber w = some f) ∨
    (∃ w, (s.sus.sys.pc w).ftFiber = some f) ∨ s.sus.waker f = .asked ∨ s.context f = .live ∨
    (∃ w, s.late w = some f) ∨ 0 < s.copies f

instance [Fintype W] (s : CbRun W) (f : FiberId) : Decidable (s.Pointed f) := by
  unfold Pointed
  infer_instance

/-- The use that the protocol asks for; who copies a pointer has one. -/
def Disciplined (s : CbRun W) : CbAct W → Prop
  | .act a => s.sus.Disciplined a
  | .copy f => s.Pointed f
  | _ => True

instance [DecidableEq W] [Fintype W] (s : CbRun W) (a : CbAct W) : Decidable (s.Disciplined a) := by
  cases a <;> unfold Disciplined <;> infer_instance

/-- The worker is about to call `Fiber::reset`. -/
def Resets (s : CbRun W) (w : W) (f : FiberId) : Prop :=
  (∃ c, s.sus.sys.pc w = .prepare c ∧ s.sus.sys.cbFiber w = some f) ∨ s.sus.sys.pc w = .recycle f

/-- The worker is about to enter its fiber for callbacks. -/
def Enters (s : CbRun W) (w : W) (f : FiberId) : Prop :=
  s.sus.sys.pc w = .swapIn .cb f ∨ s.sus.sys.pc w = .enter .cb f

variable [Fintype W]

/-- No task has the fiber: none is suspended in it, none has it in the queue, with a waker or with
another worker. -/
structure Free (s : CbRun W) (w : W) (f : FiberId) : Prop where
  context : s.context f ≠ .live
  queued : s.sus.sys.queued f = 0
  held : s.sus.sys.held f = 0
  waker : s.sus.waker f = .none
  others : ∀ v, v ≠ w → (s.sus.sys.pc v).owns f = false

/-- The callback of a fiber that has not begun. -/
def pending (s : CbRun W) (f : FiberId) : Option Callback :=
  if s.context f = .main then s.sus.sys.fn f else none

/-- The entries for a callback. -/
def inQueue (fibers : List FiberAndThread) (c : Callback) : ℤ :=
  (fibers.countP fun e => e.cb = some c : ℕ)

/-- The fibers up to `last` that have not begun the callback. -/
def unstarted (pending : FiberId → Option Callback) (last : FiberId) (c : Callback) : ℤ :=
  ∑ f ∈ Finset.range (last + 1), if pending f = some c then 1 else 0

/-- How often a callback is yet to be started: it is in the queue, with a worker, or in a fiber. -/
def waiting (s : CbRun W) (c : Callback) : ℤ :=
  inQueue s.sus.sys.fibers c + Count.tally (fun p : Pc => p.callback = some c) s.sus.sys.pc +
    unstarted s.pending s.sus.sys.lastId c

structure Safe (s : CbRun W) : Prop where
  /-- the assertion of `Fiber::reset` holds, and no task has the fiber -/
  reset : ∀ w f, s.Resets w f → Resettable (s.sus.sys.state f) ∧ s.Free w f
  /-- a fiber for callbacks is entered at the beginning of `MainFunc` -/
  enter : ∀ w f, s.Enters w f → s.context f = .main ∧ s.Free w f
  /-- the assertion of the destructor holds -/
  destructor : ∀ f, ¬s.Pointed f → Resettable (s.sus.sys.state f)
  /-- a callback is started as often as it was handed in, less what is yet to come -/
  once : ∀ c, (s.posted c : ℤ) = s.started c + s.waiting c
  /-- a fiber that has not begun its callback is with a worker, its creator or the queue -/
  kept : ∀ f c, s.pending f = some c →
    (∃ w, s.Enters w f) ∨ s.sus.waker f = .asked ∨ s.sus.sys.queued f + s.sus.sys.held f = 1

/-! ## The invariant -/

/-- What the context of a fiber would do, by its state. -/
def contextOf : FiberState → Context
  | .init => .main
  | .term | .except => .dead
  | .exec | .hold | .ready => .live

structure Inv (s : CbRun W) : Prop where
  sus : s.sus.Inv
  context : ∀ f, s.context f = contextOf (s.sus.sys.state f)
  entries : ∀ e ∈ s.sus.sys.fibers, e.fiber = none ∨ e.cb = none
  testing : ∀ w ft, (s.sus.sys.pc w).tested = some ft → ft.cb = none
  spare : ∀ f, Spare s.sus f → s.sus.sys.fn f = none
  once : ∀ c, (s.posted c : ℤ) = s.started c + s.waiting c

theorem resettable_of_context {st : FiberState} (h : contextOf st ≠ .live) : Resettable st := by
  cases st with
  | init => exact Or.inr (Or.inr rfl)
  | term => exact Or.inl rfl
  | except => exact Or.inr (Or.inl rfl)
  | exec | hold | ready => exact absurd rfl h

theorem contextOf_eq_main {st : FiberState} : contextOf st = .main ↔ st = .init := by
  cases st <;> simp [contextOf]

variable {s t : CbRun W} {f : FiberId} {v w : W} {c : Callback}

omit [Fintype W] in
theorem pending_eq_some : s.pending f = some c ↔ s.context f = .main ∧ s.sus.sys.fn f = some c := by
  rw [pending]
  split_ifs with h <;> simp [h]

/-- A fiber that nobody runs and nobody will. -/
theorem Inv.free_of_spare (h : Inv s) (hs : Spare s.sus f) :
    s.context f = .main ∧ Resettable (s.sus.sys.state f) ∧ s.Free w f := by
  obtain ⟨hq, hh⟩ := h.sus.no_token hs
  have hmain : s.context f = .main := by
    rw [h.context, hs.2.1]
    rfl
  refine ⟨hmain, Or.inr (Or.inr hs.2.1), ?_, hq, hh, hs.2.2, fun v _ => FiberInv.unowned hs.1 v⟩
  rw [hmain]
  exact Context.noConfusion

/-- The fiber that a worker has kept for its next callback. -/
theorem Inv.spare_of_prepare (h : Inv s) (hpc : s.sus.sys.pc w = .prepare c)
    (hcb : s.sus.sys.cbFiber w = some f) : Spare s.sus f :=
  (h.sus.spare w f hcb).resolve_left (by rw [hpc]; exact Bool.false_ne_true)

/-- An owner whose fiber has not begun is about to enter it. -/
theorem Inv.enters_of_owns (h : Inv s) (ho : (s.sus.sys.pc w).owns f = true)
    (hst : s.sus.sys.state f = .init) : s.Enters w f := by
  have ha := (h.sus.fiber f).owner w ho
  rw [hst] at ha
  revert ho ha
  rw [Enters]
  cases s.sus.sys.pc w with
  | swapIn b g | enter b g | third b g => cases b <;> simp +contextual [Pc.owns, Allowed]
  | _ => simp [Pc.owns, Allowed]

/-- A fiber that the worker has in a place where its waker has nothing. -/
theorem Inv.free_of_owns (h : Inv s) (ho : (s.sus.sys.pc w).owns f = true)
    (hst : contextOf (s.sus.sys.state f) ≠ .live) (hwk : s.sus.waker f = .none) : s.Free w f := by
  obtain ⟨hh, hq⟩ := (h.sus.fiber f).of_owns ho
  rw [hwk] at hq
  exact ⟨by rwa [h.context], hq, hh, hwk, (h.sus.fiber f).solo ho⟩

/-- The invariant says that fibers are reused safely. -/
theorem Inv.safe (h : Inv s) : s.Safe where
  reset w f hr := by
    rcases hr with ⟨c, hpc, hcb⟩ | hpc
    · exact (h.free_of_spare (h.spare_of_prepare hpc hcb)).2
    · have ho : (s.sus.sys.pc w).owns f = true := by rw [hpc]; simp [Pc.owns]
      have ha := (h.sus.fiber f).owner w ho
      rw [hpc] at ha
      obtain ⟨hst, hwk⟩ : (s.sus.sys.state f = .term ∨ s.sus.sys.state f = .except) ∧
        s.sus.waker f = .none := ha
      have hctx : contextOf (s.sus.sys.state f) ≠ .live := by
        rcases hst with hst | hst <;> rw [hst] <;> exact Context.noConfusion
      exact ⟨resettable_of_context hctx, h.free_of_owns ho hctx hwk⟩
  enter w f he := by
    have ho : (s.sus.sys.pc w).owns f = true := by
      rcases he with hpc | hpc <;> rw [hpc] <;> simp [Pc.owns]
    have ha : s.sus.sys.state f = .init ∧ s.sus.waker f = .none := by
      have ha := (h.sus.fiber f).owner w ho
      rcases he with hpc | hpc <;> rw [hpc] at ha <;> exact ha
    have hmain : s.context f = .main := by rw [h.context, ha.1]; rfl
    refine ⟨hmain, h.free_of_owns ho ?_ ha.2⟩
    rw [← h.context, hmain]
    exact Context.noConfusion
  destructor f hf := by
    refine resettable_of_context fun hlive => hf ?_
    rw [← h.context] at hlive
    exact Or.inr (Or.inr (Or.inr (Or.inr (Or.inl hlive))))
  once := h.once
  kept f c hp := by
    obtain ⟨hmain, hfn⟩ := pending_eq_some.1 hp
    have hst : s.sus.sys.state f = .init := contextOf_eq_main.1 ((h.context f).symm.trans hmain)
    have hns : ¬Spare s.sus f := fun hs => by
      rw [h.spare f hs] at hfn
      cases hfn
    by_cases h0 : s.sus.sys.owned f = 0
    · cases hwk : s.sus.waker f with
      | none => exact absurd ⟨h0, hst, hwk⟩ hns
      | asked => exact Or.inr (Or.inl rfl)
      | fired =>
        have ht := (h.sus.fiber f).tokens
        rw [hst, hwk, h0] at ht
        exact Or.inr (Or.inr ht)
    · left
      by_contra hn
      refine h0 ((Count.tally_eq_zero_iff _ _).2 fun w => ?_)
      by_contra hw
      exact hn ⟨w, h.enters_of_owns (by simpa using hw) hst⟩

end CbRun

end CoroutineScheduler
