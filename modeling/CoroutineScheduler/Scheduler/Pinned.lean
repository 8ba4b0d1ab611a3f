import CoroutineScheduler.Scheduler.Conserve

/-!
# Tasks that are pinned to a thread

The machine of `Scheduler::run` with a record of the pins: for every entry of the queue the thread
that its task was scheduled for, and for every worker that of the task it executes. A task that yields
with `YieldToReady` goes on with its pin, in a new entry; it ends, or loses its pin, when its fiber
ends or yields with `YieldToHold`.

The entry that `run()` makes for a fiber that is `READY` is for any thread, whatever the pin
(`pinned_moves`). `pinned_stays`: every slice of a task runs on the thread it was scheduled for, in a
run in which no task with a pin yields with `YieldToReady` while there is a worker on another thread.
-/

namespace CoroutineScheduler

open Trans FiberAndThread

/-- The pins: of the entries in the queue, and of the tasks that the workers execute; `-1` is none. -/
structure Pins (W : Type) where
  queued : List ℤ
  current : W → ℤ

/-- Between the end of a slice and the test whether its fiber is `READY`. -/
def Pc.leaving : Pc → Bool
  | leave _ _ | back _ _ | first _ _ | requeue _ _ => true
  | _ => false

variable {W : Type} [DecidableEq W]

namespace Pins

/-- Nothing is scheduled yet. -/
def start : Pins W := ⟨[], fun _ => -1⟩

/-- Worker `w` takes the first eligible entry, and its task. -/
def look (p : Pins W) (tid : ℤ) (w : W) (seen : Snapshot) : Pins W :=
  match Hist.firstEligible seen tid with
  | none => p
  | some i => ⟨p.queued.eraseIdx i, Function.update p.current w (p.queued.getD i (-1))⟩

/-- The pins of the tasks that label `a` hands to `schedule()`: a task that is put back keeps its
own. -/
def handed (p : Pins W) (s : Sys W) : Label W → List ℤ
  | .run w => (s.pc w).requeued.map fun _ => p.current w
  | a => ((s.handedBy a).filter nonEmpty).map FiberAndThread.thread

/-- The end of a task, and the end of its pin with it. -/
def closed (p : Pins W) : Label W → W → ℤ
  | .yieldToHold w | .finish w | .throw w => Function.update p.current w (-1)
  | _ => p.current

/-- The pins after label `a` in state `s`. -/
def after (tid : W → ℤ) (s : Sys W) (a : Label W) (p : Pins W) : Pins W :=
  match s.scannedBy a with
  | some w => p.look (tid w) w ⟨s.fibers, s.state⟩
  | none => ⟨p.queued ++ p.handed s a, p.closed a⟩

end Pins

namespace Sys

/-- A step of the machine with its pins. -/
def stepP (tid : W → ℤ) (p : Sys W × Pins W) (a : Label W) : Option (Sys W × Pins W) :=
  (step tid p.1 a).map fun t => (t, p.2.after tid p.1 a)

/-- No task with a pin yields with `YieldToReady` while there is a worker on another thread. -/
def KeepsPin (tid : W → ℤ) (p : Sys W × Pins W) (a : Label W) : Prop :=
  ∀ w, a = .yieldToReady w → p.2.current w ≠ -1 → ∀ v, tid v = p.2.current w

instance [Fintype W] (tid : W → ℤ) (p : Sys W × Pins W) (a : Label W) :
    Decidable (KeepsPin tid p a) := by
  unfold KeepsPin
  infer_instance

variable {tid : W → ℤ} {s t : Sys W} {a : Label W} {w : W}

/-! ## Where a worker comes from -/

theorem leaving_afterFiber (ft : FiberAndThread) : (afterFiber ft).leaving = false := by
  unfold afterFiber
  split <;> rfl

theorem leaving_dispatch (ft : FiberAndThread) : (dispatch ft).leaving = false := by
  unfold dispatch
  split
  · rfl
  · exact leaving_afterFiber ft

theorem Jump.leaving {st : FiberId → FiberState} {p q : Pc} (h : Jump st p q)
    (hq : q.leaving = true) : p.leaving = true := by
  cases h with
  | isTerm h | isExcept h =>
    rw [leaving_afterFiber] at hq
    cases hq
  | swapOut | ready h => rfl
  | _ => cases hq

/-- A statement of `run()` does not end a slice. -/
theorem RunStep.leaving {k : ℤ} (h : RunStep s k w t) {v : W} (hv : (t.pc v).leaving = true) :
    (s.pc v).leaving = true := by
  have hself : ∀ {q : Pc}, (Function.update s.pc w q v).leaving = true →
      (q.leaving = true → (s.pc w).leaving = true) → (s.pc v).leaving = true := by
    intro q hq hw
    by_cases hvw : v = w
    · subst hvw
      rw [Function.update_self] at hq
      exact hw hq
    · rwa [Function.update_of_ne hvw] at hq
  cases h with
  | take ft hpc ht => exact hself hv fun hq => by rw [leaving_dispatch] at hq; cases hq
  | jump q hj => exact hself hv fun hq => hj.leaving hq
  | back b f hpc => exact hself hv fun _ => by rw [hpc]; rfl
  | requeue b f hpc =>
    rw [release_pc] at hv
    exact hself hv nofun
  | hold b f hpc =>
    rw [release_pc] at hv
    exact hself hv nofun
  | fail h => exact hv
  | _ => exact hself hv nofun

/-- The labels by which the task of worker `w` ends its slice. -/
def EndsSlice (w : W) (a : Label W) : Prop :=
  a = .yieldToReady w ∨ a = .yieldToHold w ∨ a = .finish w ∨ a = .throw w

theorem Step.leaving (h : Step tid s a t) {v : W} (hv : (t.pc v).leaving = true) :
    (s.pc v).leaving = true ∨ EndsSlice v a := by
  have hself : ∀ {w : W} {q : Pc}, (Function.update s.pc w q v).leaving = true →
      (s.pc v).leaving = true ∨ v = w := by
    intro w q hq
    by_cases hvw : v = w
    · exact .inr hvw
    · exact .inl (by rwa [Function.update_of_ne hvw] at hq)
  cases h with
  | run w t h => exact .inl (h.leaving hv)
  | yieldToReady w b f hpc hst => exact (hself hv).imp_right fun h => .inl (by rw [h])
  | yieldToHold w b f hpc hst => exact (hself hv).imp_right fun h => .inr (.inl (by rw [h]))
  | finish w b f hpc => exact (hself hv).imp_right fun h => .inr (.inr (.inl (by rw [h])))
  | throw w b f hpc => exact (hself hv).imp_right fun h => .inr (.inr (.inr (by rw [h])))
  | idleOut w o hpc =>
    have hupd : (Function.update s.pc w .scan v).leaving = true := hv
    by_cases hvw : v = w
    · rw [hvw, Function.update_self] at hupd
      cases hupd
    · exact .inl (by rwa [Function.update_of_ne hvw] at hupd)
  | _ => exact .inl hv

end Sys

/-! ## The invariant -/

/-- An entry says which thread its task is pinned to, unless all threads are that one. -/
def PinKept (tid : W → ℤ) (e : FiberAndThread) (q : ℤ) : Prop :=
  e.nonEmpty = true ∧ (q = -1 ∨ e.thread = q ∨ ∀ v, tid v = q)

/-- The entries keep the pins, every worker has a task of its own thread, and one whose task may be
put back has a task that may go anywhere. -/
structure PinInv (tid : W → ℤ) (s : Sys W) (p : Pins W) : Prop where
  queue : List.Forall₂ (PinKept tid) s.fibers p.queued
  current : ∀ w, p.current w = -1 ∨ tid w = p.current w
  leaving : ∀ w, (s.pc w).leaving = true → p.current w = -1 ∨ ∀ v, tid v = p.current w

namespace PinInv

variable {tid : W → ℤ} {s t : Sys W} {p : Pins W} {a : Label W} {w : W}

omit [DecidableEq W] in
theorem start : PinInv tid (Sys.start : Sys W) Pins.start where
  queue := .nil
  current := fun _ => .inl rfl
  leaving := fun _ h => by cases h

omit [DecidableEq W] in
/-- The tasks that are handed to `schedule()`, with their pins. -/
theorem handed (h : PinInv tid s p) (a : Label W) :
    List.Forall₂ (PinKept tid) ((s.handedBy a).filter nonEmpty) (p.handed s a) := by
  have hown : ∀ fts : List FiberAndThread,
      List.Forall₂ (PinKept tid) (fts.filter nonEmpty)
        ((fts.filter nonEmpty).map FiberAndThread.thread) := by
    intro fts
    rw [List.forall₂_map_right_iff, List.forall₂_same]
    exact fun e he => ⟨(List.mem_filter.1 he).2, .inr (.inl rfl)⟩
  cases a with
  | run w =>
    have hback : ∀ q, s.pc w = q → List.Forall₂ (PinKept tid) (q.requeued.filter nonEmpty)
        (q.requeued.map fun _ => p.current w) := by
      intro q hq
      cases q with
      | requeue b f =>
        have hl := h.leaving w (by rw [hq]; rfl)
        exact .cons ⟨rfl, hl.imp_right .inr⟩ .nil
      | _ => exact .nil
    exact hback _ rfl
  | _ => exact hown _

theorem closed (h : PinInv tid s p) (a : Label W) (w : W) :
    p.closed a w = -1 ∨ tid w = p.closed a w := by
  have hupd : ∀ v, Function.update p.current v (-1) w = -1 ∨
      tid w = Function.update p.current v (-1) w := by
    intro v
    by_cases hw : w = v
    · rw [hw, Function.update_self]
      exact .inl rfl
    · rw [Function.update_of_ne hw]
      exact h.current w
  cases a with
  | yieldToHold v => exact hupd v
  | finish v => exact hupd v
  | throw v => exact hupd v
  | _ => exact h.current w

/-- The pin of a worker that has not just ended its task stays. -/
theorem closed_of_leaving (h : PinInv tid s p) (hok : Sys.KeepsPin tid (s, p) a) {v : W}
    (hv : (s.pc v).leaving = true ∨ Sys.EndsSlice v a) :
    p.closed a v = -1 ∨ ∀ u, tid u = p.closed a v := by
  have hupd : ∀ {w : W}, (v ≠ w → (s.pc v).leaving = true) →
      Function.update p.current w (-1) v = -1 ∨
        ∀ u, tid u = Function.update p.current w (-1) v := by
    intro w hl
    by_cases hvw : v = w
    · rw [hvw, Function.update_self]
      exact .inl rfl
    · rw [Function.update_of_ne hvw]
      exact h.leaving v (hl hvw)
  have hends : ∀ {w : W}, a = .yieldToHold w ∨ a = .finish w ∨ a = .throw w → v ≠ w →
      (s.pc v).leaving = true := by
    intro w ha hne
    refine hv.resolve_right ?_
    rintro (h | h | h | h) <;> obtain rfl | rfl | rfl := ha <;> cases h <;> exact hne rfl
  cases a with
  | yieldToHold w => exact hupd (hends (.inl rfl))
  | finish w => exact hupd (hends (.inr (.inl rfl)))
  | throw w => exact hupd (hends (.inr (.inr rfl)))
  | yieldToReady w =>
    obtain hv | hv | hv | hv | hv := hv
    · exact h.leaving v hv
    · cases hv
      by_cases hp : p.current v = -1
      · exact .inl hp
      · exact .inr (hok v rfl hp)
    · cases hv
    · cases hv
    · cases hv
  | _ =>
    refine h.leaving v (hv.resolve_right ?_)
    rintro (h | h | h | h) <;> cases h

/-- A step that is no scan. -/
theorem hand_step (h : PinInv tid s p) (hok : Sys.KeepsPin tid (s, p) a) (hs : Sys.Step tid s a t)
    (ha : s.scannedBy a = none) : PinInv tid t ⟨p.queued ++ p.handed s a, p.closed a⟩ where
  queue := by
    rw [Sys.step_fibers hs ha]
    exact List.rel_append h.queue (h.handed a)
  current := h.closed a
  leaving := fun _ hv => h.closed_of_leaving hok (hs.leaving hv)

omit [DecidableEq W] in
theorem nonEmpty (h : PinInv tid s p) : ∀ e ∈ s.fibers, e.nonEmpty = true := by
  intro e he
  obtain ⟨i, hi, rfl⟩ := List.getElem_of_mem he
  exact (h.queue.get hi (h.queue.length_eq ▸ hi)).1

/-- A step that is a scan: the worker gets a task of its own thread. -/
theorem look_step (h : PinInv tid s p) (hpc : s.pc w = .scan) (hs : Sys.Step tid s (.run w) t) :
    PinInv tid t (p.look (tid w) w ⟨s.fibers, s.state⟩) := by
  obtain ⟨hfib, -, hothers⟩ := Sys.scan_step h.nonEmpty hpc hs
  have hleaving : ∀ v, (t.pc v).leaving = true → v ≠ w ∧ (s.pc v).leaving = true := by
    intro v hv
    obtain hl | hl := hs.leaving hv
    · refine ⟨?_, hl⟩
      rintro rfl
      rw [hpc] at hl
      cases hl
    · obtain hl | hl | hl | hl := hl <;> cases hl
  have hspec := scan_spec s.state (tid w) s.fibers
  rw [← hfib] at hspec
  generalize (scan s.state (tid w) s.fibers).taken = taken at hspec
  generalize hq : t.fibers = rest at hspec
  cases hspec with
  | nothing hno =>
    rw [Pins.look, Hist.firstEligible_none ⟨s.fibers, s.state⟩ hno]
    exact ⟨hq ▸ h.queue, h.current, fun v hv => h.leaving v (hleaving v hv).2⟩
  | take pre post e hsplit he hpre =>
    -- the pins are split where the queue is
    have hpre' := List.forall₂_take pre.length h.queue
    have hpost := List.forall₂_drop pre.length h.queue
    rw [hsplit, List.take_left] at hpre'
    rw [hsplit, List.drop_left] at hpost
    obtain ⟨q, ppost, hkept, hpost, hdrop⟩ := List.forall₂_cons_left_iff.1 hpost
    obtain ⟨ppre, hppre⟩ : ∃ ppre, p.queued.take pre.length = ppre := ⟨_, rfl⟩
    rw [hppre] at hpre'
    have hpins : p.queued = ppre ++ q :: ppost := by
      rw [← hppre, ← hdrop, List.take_append_drop]
    have hlen : pre.length = ppre.length := hpre'.length_eq
    have hlook : p.look (tid w) w ⟨s.fibers, s.state⟩ =
        ⟨ppre ++ ppost, Function.update p.current w q⟩ := by
      rw [Pins.look, Hist.firstEligible_take ⟨s.fibers, s.state⟩ hsplit he hpre, hpins, hlen]
      simp [List.eraseIdx_append_of_length_le]
    rw [hlook]
    refine ⟨?_, fun v => ?_, fun v hv => ?_⟩
    · rw [hq]
      exact List.rel_append hpre' hpost
    · show Function.update p.current w q v = -1 ∨ tid v = Function.update p.current w q v
      by_cases hvw : v = w
      · rw [hvw, Function.update_self]
        obtain hq | hq | hq := hkept.2
        · exact .inl hq
        · exact he.1.imp (hq.symm.trans ·) fun ht => ht.symm.trans hq
        · exact .inr (hq w)
      · rw [Function.update_of_ne hvw]
        exact h.current v
    · obtain ⟨hvw, hl⟩ := hleaving v hv
      show Function.update p.current w q v = -1 ∨
        ∀ u, tid u = Function.update p.current w q v
      rw [Function.update_of_ne hvw]
      exact h.leaving v hl

theorem step (h : PinInv tid s p) (hok : Sys.KeepsPin tid (s, p) a)
    (hs : Sys.step tid s a = some t) : PinInv tid t (p.after tid s a) := by
  obtain ⟨-, hst⟩ := Sys.step_cases hs
  unfold Pins.after
  cases ha : s.scannedBy a with
  | none => exact h.hand_step hok hst ha
  | some w =>
    cases a with
    | run v =>
      rw [Sys.scannedBy] at ha
      split_ifs at ha with hpc
      obtain rfl := Option.some.inj ha
      exact h.look_step hpc hst
    | _ => cases ha

end PinInv

/-- **Pinned tasks stay on their thread**, through every slice, in every run in which no task with a
pin yields with `YieldToReady` while there is a worker on another thread. -/
theorem pinned_stays (tid : W → ℤ) {s : Sys W} {p : Pins W}
    (hr : Reach (Sys.stepP tid) (Sys.KeepsPin tid) (Sys.start, Pins.start) (s, p)) :
    ∀ w b f, s.pc w = .body b f → p.current w ≠ -1 → tid w = p.current w := by
  have hinv : PinInv tid s p := by
    refine hr.invariant (I := fun x => PinInv tid x.1 x.2) PinInv.start ?_
    rintro ⟨s, p⟩ a ⟨t, p'⟩ h hok hst
    obtain ⟨u, hu, he⟩ := Option.map_eq_some_iff.1 hst
    cases he
    exact h.step hok hu
  exact fun w _ _ _ hp => (hinv.current w).resolve_left hp

/-- Two workers with thread ids 10 and 11. A task for the second one, and one for any thread that
yields with `YieldToReady`. -/
theorem pinned_stays_second : ∃ x : Sys (Fin 2) × Pins (Fin 2),
    x.1.pc 1 = .body .cb 2 ∧ x.1.pc 0 = .requeue .fiber 1 ∧ x.2.current 1 = 11 ∧
      ((1 : Fin 2).val : ℤ) + 10 = x.2.current 1 := by
  let tid : Fin 2 → ℤ := fun w => (w.val : ℤ) + 10
  have hr := reach_exec (Sys.stepP tid) (Sys.KeepsPin tid) (Sys.start, Pins.start)
    [.newFiber 7, .schedule (.ofCb (some 5) 11), .schedule (.ofFiber (some 1) (-1)),
      .run 0, .run 0, .run 0, .run 0, .run 0, .yieldToReady 0, .run 0, .run 0, .run 0,
      .run 1, .run 1, .run 1, .run 1] (by decide)
  have hstays : ∀ x, Reach (Sys.stepP tid) (Sys.KeepsPin tid) (Sys.start, Pins.start) x →
      x.1.pc 1 = .body .cb 2 → x.2.current 1 ≠ -1 → tid 1 = x.2.current 1 :=
    fun x hx => pinned_stays tid (s := x.1) (p := x.2) hx 1 .cb 2
  refine ⟨_, ?_, ?_, ?_, hstays _ hr ?_ ?_⟩ <;> decide

/-- A task for the first worker yields with `YieldToReady`, and its second slice is executed by the
other one. -/
theorem pinned_moves : ¬∀ (tid : Fin 2 → ℤ) (s : Sys (Fin 2)) (p : Pins (Fin 2)),
    Reach (Sys.stepP tid) free (Sys.start, Pins.start) (s, p) →
      ∀ w b f, s.pc w = .body b f → p.current w ≠ -1 → tid w = p.current w := by
  intro hall
  have hr := reach_exec (Sys.stepP fun w : Fin 2 => (w.val : ℤ) + 10) free (Sys.start, Pins.start)
    [.newFiber 7, .schedule (.ofFiber (some 1) 10),
      .run 0, .run 0, .run 0, .run 0, .run 0, .yieldToReady 0, .run 0, .run 0, .run 0, .run 0,
      .run 1, .run 1, .run 1, .run 1, .run 1] (by decide)
  exact absurd (hall _ _ _ hr 1 .fiber 1 (by decide) (by decide)) (by decide)

end CoroutineScheduler
