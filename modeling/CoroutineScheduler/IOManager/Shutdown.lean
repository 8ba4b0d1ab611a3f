import CoroutineScheduler.IOManager.Idle
import CoroutineScheduler.IOManager.Waits
import CoroutineScheduler.Lib.Count
import CoroutineScheduler.Scheduler.Drain
import CoroutineScheduler.Timer.Effects

/-!
# Shutdown

When the last worker leaves `run()`, is there work left? The queue is always empty by then
(`Sys.Drains`). A timer or an event can be left behind: the workers read the timer set and
`m_pendingEventCount` one after the other, and an idle fiber that has ended never reads them again. A
task that runs after all other idle fibers have passed those reads adds a timer that nobody waits for
(`timer_stranded`).

`shutdown_drains`: in every run in which timers and events are added only while a worker is yet to
read the timer set, or the counter, nothing is left behind.
-/

namespace CoroutineScheduler

open Trans

/-! ## Places -/

/-- How many of the three reads of `stopping()` are behind the worker. -/
def Place.reads : Place → ℕ
  | pending _ => 1
  | base _ => 2
  | _ => 0

/-- Where the worker is in `run()` while `stopping()` is asked. -/
def Ask.pc : Ask → Pc
  | idle => .idling
  | _ => .scan

/-- Where the worker is in `run()`. -/
def Place.Fits (pc : Pc) : Place → Prop
  | loop => pc ≠ .idling
  | outside => pc = .scan
  | timers k | pending k | base k => pc = k.pc
  | _ => pc = .idling

/-- The worker is inside a call only in the code of a task or while it handles events. -/
def Place.Calm (pc : Pc) (call : CallPc) (todo : List Todo) : Place → Prop
  | loop => pc.running = none → call = .out ∧ todo = []
  | expire | post _ | events => True
  | _ => call = .out ∧ todo = []

/-- The worker is in the code of a task, or between `epoll_wait` and `swapOut`. -/
def Place.Engaged (pc : Pc) : Place → Prop
  | loop => pc.running ≠ none
  | expire | post _ | events => True
  | _ => False

theorem Place.Engaged.calm {p : Place} {pc : Pc} (h : p.Engaged pc) (call : CallPc)
    (todo : List Todo) : p.Calm pc call todo := by
  cases p with
  | loop => exact fun hn => absurd hn h
  | expire | post _ | events => trivial
  | outside | timers _ | pending _ | base _ | wait => exact h.elim

theorem Place.Calm.engaged {p : Place} {pc : Pc} {call : CallPc} {todo : List Todo}
    (h : p.Calm pc call todo) (hne : call ≠ .out ∨ todo ≠ []) : p.Engaged pc := by
  have hcontra : ¬ (call = .out ∧ todo = []) := fun hc => hne.elim (fun h => h hc.1) fun h => h hc.2
  cases p with
  | loop => exact fun hn => hcontra (h hn)
  | expire | post _ | events => trivial
  | outside | timers _ | pending _ | base _ | wait => exact hcontra h

theorem Place.Engaged.pc {p : Place} {pc : Pc} (h : p.Engaged pc) (hf : p.Fits pc) :
    pc ≠ .left ∧ pc ≠ .idleTest := by
  cases p with
  | loop =>
    refine ⟨?_, ?_⟩ <;> rintro rfl <;> exact h rfl
  | expire | post _ | events =>
    cases hf
    exact ⟨nofun, nofun⟩
  | outside | timers _ | pending _ | base _ | wait => exact h.elim

/-- The code of a task runs in the loop of `run()`. -/
theorem Place.Fits.loop {p : Place} {pc : Pc} (h : p.Fits pc) (hr : pc.running ≠ none) : p = .loop := by
  cases p with
  | loop => rfl
  | timers k | pending k | base k => cases k <;> cases h <;> exact absurd rfl hr
  | outside | wait | expire | post _ | events =>
    cases h
    exact absurd rfl hr

theorem Ask.goOn_reads (k : Ask) : k.goOn.reads = 0 := by cases k <;> rfl

theorem Ask.goOn_fits (k : Ask) : k.goOn.Fits k.pc := by cases k <;> first | rfl | exact nofun

theorem Ask.goOn_calm (k : Ask) : k.goOn.Calm k.pc .out [] := by
  cases k with
  | idle => exact ⟨rfl, rfl⟩
  | first => exact ⟨rfl, rfl⟩
  | second => exact fun _ => ⟨rfl, rfl⟩

/-! ## What is left to do -/

/-- The decrements in a list of things to do. -/
def owed (xs : List Todo) : ℤ := xs.count .decrement

theorem owed_nonneg (xs : List Todo) : 0 ≤ owed xs := Int.natCast_nonneg _

theorem owed_append (xs ys : List Todo) : owed (xs ++ ys) = owed xs + owed ys := by
  unfold owed
  rw [List.count_append]
  exact Nat.cast_add _ _

/-- What a use adds to the counter is added at once or left to do. -/
theorem Use.weight_eq (u : Use) (first : Bool) :
    u.weight = (if u.isRegistered then 1 else 0) - owed (u.todo first) := by
  cases u with
  | registered r => rfl
  | fired c =>
    cases c with
    | none => rfl
    | some c => cases first <;> rfl
  | dropped => rfl

theorem weight_sum (us : List Effect) (first : Bool) :
    (us.map fun x => x.use.weight).sum =
      (us.countP fun x => x.use.isRegistered : ℕ) - owed (us.flatMap fun x => x.use.todo first) := by
  induction us with
  | nil => rfl
  | cons x us ih =>
    rw [List.map_cons, List.sum_cons, ih, x.use.weight_eq first, List.flatMap_cons, owed_append,
      List.countP_cons]
    push_cast
    split_ifs <;> ring

theorem Use.Loose.todo {u : Use} (h : u.Loose) {first : Bool} {c : Call}
    (hc : .schedule c ∈ u.todo first) : c.ft.thread = -1 := by
  cases u with
  | registered r => cases hc
  | fired d =>
    cases d with
    | none => simp [Use.todo] at hc
    | some d => cases first <;> simp [Use.todo] at hc <;> rw [hc] <;> exact h
  | dropped => simp [Use.todo] at hc

/-! ## The claim and its hypotheses -/

/-- What is passed to `schedule`. -/
def PoolLabel.scheduled {W E : Type} : PoolLabel W E → List FiberAndThread
  | schedule _ ft => [ft]
  | scheduleRange _ fts => fts
  | _ => []

/-- Threads other than the workers call `addEvent` from inside a scheduler. -/
def PoolLabel.Inside {W E : Type} : PoolLabel W E → Prop
  | call (.inr _) c => c.Inside
  | _ => True

instance (c : EventCall) : Decidable c.Inside := by
  unfold EventCall.Inside; split <;> infer_instance

instance {W E : Type} (a : PoolLabel W E) : Decidable a.Inside := by
  unfold PoolLabel.Inside; split <;> infer_instance

namespace Pool

variable {W E : Type}

/-- A thread that is not a worker is in `schedule`, `addEvent` or `addTimer`, or in a call that
schedules. -/
def submits (s : Pool W E) : PoolLabel W E → Bool
  | .schedule (.inr _) _ | .scheduleRange (.inr _) _ | .timer (.inr _) (.addTimer _ _ _ _ _)
  | .grow (.inr _) => true
  | .call (.inr _) c =>
    match c with
    | .delEvent _ _ => false
    | _ => true
  | .lock (.inr e) _ =>
    match s.conc.pc (.inr e) with
    | .found _ (.delEvent _ _) => false
    | _ => true
  | .effect (.inr e) =>
    match s.todo (.inr e) with
    | .schedule _ :: _ => true
    | _ => false
  | _ => false

/-- After `stop` only the tasks on the workers call `schedule`, `addEvent` and `addTimer`, and they
schedule for any thread. -/
def Env (s : Pool W E) (a : PoolLabel W E) : Prop :=
  a.Inside ∧ (s.stopping = true → s.submits a = false ∧ ∀ ft ∈ a.scheduled, ft.thread = -1)

instance (s : Pool W E) (a : PoolLabel W E) : Decidable (s.Env a) := by unfold Env; infer_instance

/-- The idle fiber of the worker has not ended, and fewer than `n` reads of `stopping()` are behind
it. -/
def Unread (s : Pool W E) (n : ℕ) (w : W) : Prop :=
  (s.sys.idleFiber w ≠ .term ∧ s.sys.pc w ≠ .left) ∧ (s.place w).reads < n

instance (s : Pool W E) (n : ℕ) (w : W) : Decidable (s.Unread n w) := by unfold Unread; infer_instance

/-- The steps that leave nothing behind: a timer is added while a worker is yet to read the timer set,
an event while one is yet to read the counter; and `getNextTimer` does not return `~0ull` for a set
that is not empty. -/
def Kept (s : Pool W E) : PoolLabel W E → Prop
  | .timer _ (.addTimer _ _ _ _ _) => ∃ w, s.Unread 1 w
  | .lock a _ => (s.conc.pc a).registers = true → ∃ w, s.Unread 2 w
  | .nextTimer _ now => s.timers.timers = [] ∨ (s.timers.getNextTimer now).2 ≠ ~~~0
  | _ => True

instance [Fintype W] (s : Pool W E) (a : PoolLabel W E) : Decidable (s.Kept a) := by
  unfold Kept; split <;> infer_instance

/-- No task, no registered event, no timer. -/
structure Drained (s : Pool W E) : Prop where
  fibers : s.sys.fibers = []
  pending : s.pending = 0
  timers : s.timers.timers = []

/-! ## The invariant -/

/-- The place of a worker agrees with its position in `run()` and with the call it is in. -/
structure Sane (s : Pool W E) (w : W) : Prop where
  fits : (s.place w).Fits (s.sys.pc w)
  calm : (s.place w).Calm (s.sys.pc w) (s.conc.pc (.inl w)) (s.todo (.inl w))

/-- The counter is what the sections under the mutexes have made it, and the decrements they have left
to do. -/
structure Counts [Fintype W] [Fintype E] (s : Pool W E) : Prop where
  conc : s.conc.Inv
  fault : s.conc.fault = none
  pending : s.pending = s.conc.mgr.pending + Count.total owed s.todo
  loose : ∀ a c, .schedule c ∈ s.todo a → c.ft.thread = -1

structure Inv [Fintype W] [Fintype E] (c : PoolConfig W) (s : Pool W E) : Prop where
  sane : ∀ w, s.Sane w
  counts : s.Counts
  drains : s.sys.Drains s.stopping
  timers : s.timers.timers ≠ [] → ∃ w, s.Unread 1 w
  pending : s.pending ≠ 0 → ∃ w, s.Unread 2 w
  root : ∀ r, c.root = some r → s.stopping = true ∨ s.place r = .outside

/-! ## One step -/

theorem unread_of_ended {s t : Pool W E} {n : ℕ} {v : W} (h : s.Unread n v)
    (he : t.sys.Ended v → s.sys.Ended v) (hr : (t.place v).reads < n) : t.Unread n v :=
  ⟨⟨fun hc => (he (.inl hc)).elim h.1.1 h.1.2, fun hc => (he (.inr hc)).elim h.1.1 h.1.2⟩, hr⟩

/-- A step changes the position of at most one worker. -/
theorem sane_of {s t : Pool W E} {w : W} (h : ∀ v, s.Sane v)
    (hplace : ∀ v, v ≠ w → t.place v = s.place v) (hpc : ∀ v, v ≠ w → t.sys.pc v = s.sys.pc v)
    (hcall : ∀ v, v ≠ w → t.conc.pc (.inl v) = s.conc.pc (.inl v))
    (htodo : ∀ v, v ≠ w → t.todo (.inl v) = s.todo (.inl v)) (hw : t.Sane w) : ∀ v, t.Sane v := by
  intro v
  by_cases hv : v = w
  · rw [hv]
    exact hw
  · refine ⟨?_, ?_⟩
    · rw [hplace v hv, hpc v hv]
      exact (h v).fits
    · rw [hplace v hv, hpc v hv, hcall v hv, htodo v hv]
      exact (h v).calm

section Steps

-- the lemmas are about one machine, with the instances that its steps need
set_option linter.unusedSectionVars false

variable [DecidableEq W] [DecidableEq E] [Fintype W] [Fintype E] {c : PoolConfig W} {s t : Pool W E}
  {w : W} {a : W ⊕ E}

/-- A step after which the workers have as much to read as before. -/
theorem Inv.next (h : s.Inv c) (hsane : ∀ v, t.Sane v) (hcounts : t.Counts)
    (hdrains : t.sys.Drains t.stopping)
    (hunread : ∀ n ≤ 2, ∀ v, s.Unread n v → t.Unread n v)
    (htimers : t.timers.timers ≠ [] → s.timers.timers ≠ [])
    (hpending : t.pending ≠ 0 → s.pending ≠ 0)
    (hroot : ∀ r, s.stopping = true ∨ s.place r = .outside → t.stopping = true ∨ t.place r = .outside) :
    t.Inv c where
  sane := hsane
  counts := hcounts
  drains := hdrains
  timers := fun ht => (h.timers (htimers ht)).imp fun v hv => hunread 1 (by decide) v hv
  pending := fun hp => (h.pending (hpending hp)).imp fun v hv => hunread 2 le_rfl v hv
  root := fun r hr => hroot r (h.root r hr)

theorem Inv.abort (h : s.Inv c) : s.abort.Inv c :=
  ⟨fun v => ⟨(h.sane v).fits, (h.sane v).calm⟩, ⟨h.counts.conc, h.counts.fault, h.counts.pending,
    h.counts.loose⟩, ⟨h.drains.before, h.drains.queued, h.drains.anyThread, h.drains.charged⟩,
    h.timers, h.pending, h.root⟩

/-- The scheduler takes a step that ends no idle fiber. -/
theorem Inv.setSys (h : s.Inv c) {u : Sys W} (hsane : ∀ v, (s.setSys u).Sane v)
    (hdrains : u.Drains s.stopping) (hended : ∀ v, u.Ended v → s.sys.Ended v) : (s.setSys u).Inv c :=
  h.next hsane ⟨h.counts.conc, h.counts.fault, h.counts.pending, h.counts.loose⟩ hdrains
    (fun _ _ v hv => unread_of_ended hv (hended v) hv.2) id id fun _ => id

/-- Something is scheduled while a worker is awake. -/
theorem Inv.setFibers (h : s.Inv c) {fibers : List FiberAndThread} (hw : s.sys.Awake w)
    (hfibers : ∀ e ∈ fibers, e ∈ s.sys.fibers ∨ e.thread = -1 ∨ s.stopping = false) :
    (s.setSys { s.sys with fibers := fibers }).Inv c :=
  h.setSys (fun v => ⟨(h.sane v).fits, (h.sane v).calm⟩) (h.drains.setFibers hw hfibers) fun _ => id

theorem Sane.awake (h : s.Sane w) (he : (s.place w).Engaged (s.sys.pc w)) : s.sys.Awake w :=
  ⟨(he.pc h.fits).1, fun hc => (he.pc h.fits).2 hc.1⟩

/-- Before `stop` every worker is awake. -/
theorem Inv.awake_before [Nonempty W] (h : s.Inv c) (hs : s.stopping = false) :
    ∃ w, s.sys.Awake w := by
  obtain ⟨w⟩ := ‹Nonempty W›
  have hw := h.drains.before hs w
  exact ⟨w, fun hc => hw (.inr hc), fun hc => hw (.inl hc.2)⟩

theorem running_awake {f : FiberId} (h : (s.sys.pc w).running = some f) : s.sys.Awake w := by
  refine ⟨fun hc => ?_, fun hc => ?_⟩
  · rw [hc] at h
    cases h
  · rw [hc.1] at h
    cases h

/-- A thread in no call schedules tasks. -/
theorem Inv.submit [Nonempty W] (h : s.Inv c) (hf : s.Free a) (fts : List FiberAndThread)
    {fibers : List FiberAndThread} (hout : ∀ e, a = .inr e → s.stopping = false)
    (hthread : s.stopping = true → ∀ ft ∈ fts, ft.thread = -1)
    (hfibers : fibers = s.sys.fibers ++ fts.filter FiberAndThread.nonEmpty) :
    (s.setSys { s.sys with fibers := fibers }).Inv c := by
  have hawake : ∃ w, s.sys.Awake w := by
    cases a with
    | inl w =>
      obtain ⟨f, hrun⟩ := Option.ne_none_iff_exists'.1 hf.2.2
      exact ⟨w, running_awake hrun⟩
    | inr e => exact h.awake_before (hout e rfl)
  obtain ⟨w, hw⟩ := hawake
  refine h.setFibers hw fun e he => ?_
  rw [hfibers] at he
  rcases List.mem_append.1 he with he | he
  · exact .inl he
  · refine .inr ?_
    cases hstop : s.stopping with
    | true => exact .inl (hthread hstop e (List.mem_filter.1 he).1)
    | false => exact .inr rfl

theorem Inv.schedule [Nonempty W] (h : s.Inv c) {ft : FiberAndThread} (hf : s.Free a)
    (he : s.Env (.schedule a ft)) : (s.setSys (s.sys.schedule ft)).Inv c := by
  refine h.submit hf [ft] ?_ (fun hs => (he.2 hs).2) (scheduleNoLock_fibers _ _)
  rintro e rfl
  by_contra hs
  exact absurd (he.2 (by simpa using hs)).1 nofun

theorem Inv.submitRange [Nonempty W] (h : s.Inv c) {fts : List FiberAndThread} (hf : s.Free a)
    (he : s.Env (.scheduleRange a fts)) :
    (s.setSys { s.sys with fibers := (scheduleRange s.sys.fibers false fts).1 }).Inv c := by
  refine h.submit hf fts ?_ (fun hs => (he.2 hs).2) (scheduleRange_fibers _ _ _)
  rintro e rfl
  by_contra hs
  exact absurd (he.2 (by simpa using hs)).1 nofun

/-- `run()` is not in the code of a task. -/
theorem runStep_running {u : Sys W} {tid : ℤ} (hs : s.sys.runStep tid w = some u) :
    (s.sys.pc w).running = none := by
  unfold Sys.runStep at hs
  cases hpc : s.sys.pc w with
  | body b f =>
    rw [hpc] at hs
    cases hs
  | _ => rfl

/-- Worker `w` goes to another place, from which it will ask `stopping()` from the start. -/
theorem Inv.move (h : s.Inv c) {p : Place} (hplace : t.place = Function.update s.place w p)
    (hpc : ∀ v, v ≠ w → t.sys.pc v = s.sys.pc v)
    (hcall : ∀ v, v ≠ w → t.conc.pc (.inl v) = s.conc.pc (.inl v))
    (htodo : ∀ v, v ≠ w → t.todo (.inl v) = s.todo (.inl v))
    (hfits : p.Fits (t.sys.pc w)) (hcalm : p.Calm (t.sys.pc w) (t.conc.pc (.inl w)) (t.todo (.inl w)))
    (hcounts : t.Counts) (hdrains : t.sys.Drains t.stopping)
    (hended : ∀ v, t.sys.Ended v → s.sys.Ended v) (hout : s.place w ≠ .outside) (hreads : p.reads = 0)
    (htimers : t.timers.timers ≠ [] → s.timers.timers ≠ [])
    (hpending : t.pending ≠ 0 → s.pending ≠ 0) (hstop : t.stopping = s.stopping) : t.Inv c := by
  have hself : t.place w = p := by rw [hplace, Function.update_self]
  have hother : ∀ v, v ≠ w → t.place v = s.place v := fun v hv => by
    rw [hplace, Function.update_of_ne hv]
  refine h.next (sane_of h.sane hother hpc hcall htodo ⟨by rw [hself]; exact hfits,
    by rw [hself]; exact hcalm⟩) hcounts hdrains (fun n _ v hv => unread_of_ended hv (hended v) ?_)
    htimers hpending fun r hr => ?_
  · by_cases hvw : v = w
    · rw [hvw, hself, hreads]
      exact Nat.zero_lt_of_lt hv.2
    · rw [hother v hvw]
      exact hv.2
  · rw [hstop]
    refine hr.imp_right fun hr => ?_
    have hrw : r ≠ w := by
      rintro rfl
      exact hout hr
    rw [hother r hrw]
    exact hr

theorem Inv.run (h : s.Inv c) (hs : s.runStep c w = some t) : t.Inv c := by
  unfold runStep at hs
  split_ifs at hs with hp
  obtain ⟨u, hu, rfl⟩ := Option.map_eq_some_iff.1 hs
  have hrun := Sys.runStep_cases hu
  have hcalm := (h.sane w).calm
  rw [hp] at hcalm
  have hquiet := hcalm (runStep_running hu)
  refine h.move rfl (fun v hv => hrun.pc_of_ne hv) (fun _ _ => rfl) (fun _ _ => rfl) ?_ ?_
    ⟨h.counts.conc, h.counts.fault, h.counts.pending, h.counts.loose⟩ (h.drains.run hrun)
    (fun v => hrun.ended) (by rw [hp]; exact nofun) (by split_ifs <;> rfl) id id rfl
  · split_ifs with hi
    · exact hi
    · exact hi
  · split_ifs
    · exact hquiet
    · exact fun _ => hquiet

/-- The code of a task yields or ends. -/
theorem Inv.leave (h : s.Inv c) {o : Option (Sys W)} (ho : ∀ u, o = some u → Sys.Leaves s.sys w u)
    (hs : s.leaveStep w o = some t) : t.Inv c := by
  unfold leaveStep at hs
  split_ifs at hs with hf
  obtain ⟨u, hu, rfl⟩ := Option.map_eq_some_iff.1 hs
  have hl := ho u hu
  rcases hl with rfl | ⟨b, f, st, hpc, hto, hst, hfibers, hidle⟩
  · exact h.abort
  · have hplace : s.place w = .loop := (h.sane w).fits.loop (by rw [hpc]; exact nofun)
    have hw : u.pc w = .leave b f := by rw [hto, Function.update_self]
    have hother : ∀ v, v ≠ w → u.pc v = s.sys.pc v := fun v hv => by rw [hto, Function.update_of_ne hv]
    refine h.setSys (sane_of h.sane (fun _ _ => rfl) hother (fun _ _ => rfl) (fun _ _ => rfl) ?_)
      (h.drains.leave (.inr ⟨b, f, st, hpc, hto, hst, hfibers, hidle⟩))
      (fun v hv => hv.of_update hto (fun x hx => by rwa [hidle] at hx) nofun)
    refine ⟨?_, ?_⟩
    · show (s.place w).Fits (u.pc w)
      rw [hplace, hw]
      exact nofun
    · show (s.place w).Calm (u.pc w) _ _
      rw [hplace]
      exact fun _ => ⟨hf.1, hf.2.1⟩

theorem Inv.newFiber (h : s.Inv c) (d : Callback) : (s.setSys (s.sys.newFiber d)).Inv c :=
  h.setSys (fun v => ⟨(h.sane v).fits, (h.sane v).calm⟩) (h.drains.newFiber d) fun _ => id

theorem Inv.timer (h : s.Inv c) {o : TimerOp} (hk : s.Kept (.timer a o))
    (hs : s.timerStep o = some t) : t.Inv c := by
  have hstep : ∃ u, s.timers.step o = some u ∧ { s with timers := u } = t := by
    unfold timerStep at hs
    split at hs
    · cases hs
    · exact Option.map_eq_some_iff.1 hs
  obtain ⟨u, hu, rfl⟩ := hstep
  refine ⟨fun v => ⟨(h.sane v).fits, (h.sane v).calm⟩,
    ⟨h.counts.conc, h.counts.fault, h.counts.pending, h.counts.loose⟩, h.drains, fun ht => ?_, h.pending,
    h.root⟩
  by_cases ho : ∃ now x ms cb recurring, o = .addTimer now x ms cb recurring
  · obtain ⟨now, x, ms, cb, recurring, rfl⟩ := ho
    exact hk
  · refine h.timers fun hn => ht ?_
    exact TimerManager.step_nil hu hn fun now x ms cb recurring he => ho ⟨now, x, ms, cb, recurring, he⟩

/-- What a section under the mutex of a context changes. -/
structure Section (s : Pool W E) (a : W ⊕ E) (t : Pool W E) : Prop where
  sys : t.sys = s.sys
  timers : t.timers = s.timers
  place : t.place = s.place
  stopping : t.stopping = s.stopping
  call : ∀ b, b ≠ a → t.conc.pc b = s.conc.pc b
  todo : ∀ b, b ≠ a → t.todo b = s.todo b
  pending : t.pending = s.pending ∨ (s.conc.pc a).registers = true

theorem countP_registered {us : List Effect} {add : Bool}
    (h : ∀ x ∈ us, x.use.Loose ∧ (x.use.isRegistered = true → add = true)) (hadd : add ≠ true) :
    us.countP (fun x => x.use.isRegistered) = 0 :=
  List.countP_eq_zero.2 fun x hx hr => hadd ((h x hx).2 hr)

/-- A step of a thread in `Conc` fails an assertion, or keeps the count. -/
theorem Counts.concStep (h : s.Counts) {l : ConcLabel (W ⊕ E)} (hl : l.thread = a)
    (hin : ∀ b d, l = .call b d → d.Inside) (htodo : s.todo a = [])
    (hs : s.concStep a l = some t) : t = s.abort ∨ (t.Counts ∧ s.Section a t) := by
  obtain ⟨u, hu, rfl⟩ := Option.map_eq_some_iff.1 hs
  cases hfault : u.fault with
  | some f => exact .inl (if_pos rfl)
  | none =>
    refine .inr ?_
    have hfit := h.conc.fitting hu hfault
    have hlog := h.conc.logged hfit hu
    rw [hl] at hlog
    obtain ⟨us, hus, hpending, hloose⟩ := hlog
    rw [if_neg (by simp), hus, List.drop_left]
    have hmoves := (Conc.waits_step hu).1.1
    rw [hl] at hmoves
    set first := (s.conc.pc a).decrementFirst with hfirst
    refine ⟨⟨h.conc.step hin hfit hu, hfault, ?_, fun b d hd => ?_⟩,
      ⟨rfl, rfl, rfl, rfl, hmoves, fun b hb => Function.update_of_ne hb _ _, ?_⟩⟩
    · show s.pending + _ = u.mgr.pending + Count.total owed (Function.update s.todo a _)
      rw [Count.total_update, hpending, h.pending, weight_sum us first, htodo]
      simp only [owed, List.count_nil]
      push_cast
      ring
    · by_cases hb : b = a
      · rw [hb] at hd
        have hd : .schedule d ∈ Function.update s.todo a _ a := hd
        rw [Function.update_self] at hd
        obtain ⟨x, hx, hd⟩ := List.mem_flatMap.1 hd
        exact (hloose x hx).1.todo hd
      · have hd : .schedule d ∈ Function.update s.todo a _ b := hd
        rw [Function.update_of_ne hb] at hd
        exact h.loose b d hd
    · by_cases hreg : (s.conc.pc a).registers = true
      · exact .inr hreg
      · refine .inl ?_
        show s.pending + _ = s.pending
        rw [countP_registered hloose hreg]
        exact add_zero _

/-- A section of a thread, and a worker with it if the thread is one. -/
theorem Inv.sect (h : s.Inv c) (hc : t.Counts) (hm : s.Section a t)
    (hengaged : ∀ v, a = .inl v → (s.place v).Engaged (s.sys.pc v))
    (hkept : (s.conc.pc a).registers = true → ∃ v, s.Unread 2 v) : t.Inv c := by
  have hunread : ∀ n v, s.Unread n v → t.Unread n v := by
    intro n v hv
    unfold Unread at hv ⊢
    rw [hm.sys, hm.place]
    exact hv
  refine ⟨fun v => ⟨?_, ?_⟩, hc, ?_, ?_, fun hp => ?_, ?_⟩
  · rw [hm.sys, hm.place]
    exact (h.sane v).fits
  · rw [hm.sys, hm.place]
    by_cases hv : a = .inl v
    · exact (hengaged v hv).calm _ _
    · rw [hm.call _ (Ne.symm hv), hm.todo _ (Ne.symm hv)]
      exact (h.sane v).calm
  · rw [hm.sys, hm.stopping]
    exact h.drains
  · rw [hm.timers]
    exact fun ht => (h.timers ht).imp (hunread 1)
  · rcases hm.pending with hp' | hreg
    · rw [hp'] at hp
      exact (h.pending hp).imp (hunread 2)
    · exact (hkept hreg).imp (hunread 2)
  · rw [hm.stopping, hm.place]
    exact h.root

theorem Inv.call (h : s.Inv c) {d : EventCall} (hf : s.Free a) (he : s.Env (.call a d))
    (hs : s.callStep c a d = some t) : t.Inv c := by
  have hkept : (s.conc.pc a).registers = true → ∃ v, s.Unread 2 v := by
    rw [hf.1]
    exact nofun
  have key : ∀ d' : EventCall, d'.Inside → s.concStep a (.call a d') = some t → t.Inv c := by
    intro d' hin hs
    rcases h.counts.concStep (l := .call a d') rfl
      (fun b d hd => by cases hd; exact hin) hf.2.1 hs with rfl | ⟨hc, hm⟩
    · exact h.abort
    · refine h.sect hc hm ?_ hkept
      rintro v rfl
      rw [(h.sane v).fits.loop hf.2.2]
      exact hf.2.2
  cases a with
  | inl w =>
    obtain ⟨f, hrun, hs⟩ := Option.bind_eq_some_iff.1 hs
    refine key _ ?_ hs
    cases d with
    | addEvent fd e cb caller => exact Option.some_ne_none c.me
    | _ => trivial
  | inr e => exact key d he.1 hs

/-- The rest of a call, after its look-up. -/
theorem Inv.inCall (h : s.Inv c) {l : ConcLabel (W ⊕ E)} (hl : l.thread = a)
    (hno : ∀ b d, l ≠ .call b d) (hcall : s.conc.pc a ≠ .out) (htodo : s.todo a = [])
    (hkept : (s.conc.pc a).registers = true → ∃ v, s.Unread 2 v) (hs : s.concStep a l = some t) :
    t.Inv c := by
  rcases h.counts.concStep hl (fun b d hd => absurd hd (hno b d)) htodo hs with rfl | ⟨hc, hm⟩
  · exact h.abort
  · refine h.sect hc hm ?_ hkept
    rintro v rfl
    exact (h.sane v).calm.engaged (.inl hcall)

theorem Inv.grow (h : s.Inv c) (htodo : s.todo a = []) (hs : s.concStep a (.grow a) = some t) :
    t.Inv c := by
  obtain ⟨u, hu, -⟩ := Option.map_eq_some_iff.1 hs
  obtain ⟨fd, e, cb, who, hpc⟩ : ∃ fd e cb who, s.conc.pc a = .grow fd e cb who := by
    unfold Conc.step at hu
    split_ifs at hu
    simp only at hu
    split at hu
    · next hpc => exact ⟨_, _, _, _, hpc⟩
    · cases hu
  have hcall : s.conc.pc a ≠ .out := by
    rw [hpc]
    exact CallPc.noConfusion
  have hreg : (s.conc.pc a).registers = false := by
    rw [hpc]
    rfl
  exact h.inCall (l := .grow a) rfl (fun _ _ hc => by cases hc) hcall htodo
    (fun hr => absurd (hreg.symm.trans hr) Bool.false_ne_true) hs

theorem Inv.lock (h : s.Inv c) {ok : Bool} (htodo : s.todo a = []) (hk : s.Kept (.lock a ok))
    (hs : s.concStep a (.lock a ok) = some t) : t.Inv c := by
  obtain ⟨u, hu, -⟩ := Option.map_eq_some_iff.1 hs
  obtain ⟨p, d, hpc⟩ : ∃ p d, s.conc.pc a = .found p d := by
    unfold Conc.step at hu
    split_ifs at hu
    simp only at hu
    split at hu
    · next hpc => exact ⟨_, _, hpc⟩
    · cases hu
  have hcall : s.conc.pc a ≠ .out := by
    rw [hpc]
    exact nofun
  exact h.inCall (l := .lock a ok) rfl (fun _ _ hc => by cases hc) hcall htodo hk hs

/-- A step that takes the first thing to do from the list of a thread. -/
theorem sane_setTodo (h : ∀ v, s.Sane v) (hne : s.todo a ≠ []) (xs : List Todo) (v : W) :
    (s.setTodo a xs).Sane v := by
  refine ⟨(h v).fits, ?_⟩
  by_cases hv : a = .inl v
  · subst hv
    exact ((h v).calm.engaged (.inr hne)).calm _ _
  · show (s.place v).Calm _ _ (Function.update s.todo a xs (.inl v))
    rw [Function.update_of_ne (Ne.symm hv)]
    exact (h v).calm

/-- A list of things to do, without its first. -/
theorem Counts.loose_tail (h : s.Counts) {x : Todo} {rest : List Todo} (htodo : s.todo a = x :: rest)
    {d : Call} (hd : .schedule d ∈ rest) : d.ft.thread = -1 :=
  h.loose a d (by rw [htodo]; exact List.mem_cons_of_mem x hd)

theorem Counts.loose_setTodo (h : s.Counts) {x : Todo} {rest : List Todo}
    (htodo : s.todo a = x :: rest) (b : W ⊕ E) (d : Call)
    (hd : .schedule d ∈ Function.update s.todo a rest b) : d.ft.thread = -1 := by
  by_cases hb : b = a
  · rw [hb, Function.update_self] at hd
    exact h.loose_tail htodo hd
  · rw [Function.update_of_ne hb] at hd
    exact h.loose b d hd

theorem Inv.decrement (h : s.Inv c) {rest : List Todo} (htodo : s.todo a = .decrement :: rest) :
    Inv c { s.setTodo a rest with pending := s.pending - 1 } := by
  have howed : owed (s.todo a) = owed rest + 1 := by
    rw [htodo]
    unfold owed
    rw [List.count_cons_self]
    exact Nat.cast_succ _
  have htotal : Count.total owed (Function.update s.todo a rest) = Count.total owed s.todo - 1 := by
    rw [Count.total_update, howed]
    ring
  -- the counter is positive, so a worker is yet to read it
  have hpos : 0 < s.pending := by
    have hle := Count.le_total owed_nonneg s.todo a
    have hrest := owed_nonneg rest
    have hmgr := h.counts.conc.triggerSafe.pending
    rw [h.counts.pending]
    omega
  have hsane := sane_setTodo h.sane (a := a) (by rw [htodo]; exact List.cons_ne_nil _ _) rest
  refine h.next (fun v => ⟨(hsane v).fits, (hsane v).calm⟩) ⟨h.counts.conc, h.counts.fault, ?_,
    h.counts.loose_setTodo htodo⟩ h.drains (fun _ _ _ => id) id (fun _ => hpos.ne') fun _ => id
  show s.pending - 1 = _ + Count.total owed (Function.update s.todo a rest)
  rw [htotal, h.counts.pending]
  exact add_sub_assoc _ _ _

/-- A call of `schedule` that does not change the queue of this scheduler. -/
theorem Inv.popSchedule (h : s.Inv c) {d : Call} {rest : List Todo}
    (htodo : s.todo a = .schedule d :: rest) : (s.setTodo a rest).Inv c := by
  have htotal : Count.total owed (Function.update s.todo a rest) = Count.total owed s.todo := by
    have howed : owed (s.todo a) = owed rest := by
      rw [htodo]
      unfold owed
      rw [List.count_cons_of_ne fun hc => by cases hc]
    rw [Count.total_update, howed]
    ring
  have hsane := sane_setTodo h.sane (a := a) (by rw [htodo]; exact List.cons_ne_nil _ _) rest
  refine h.next hsane ⟨h.counts.conc, h.counts.fault, ?_, h.counts.loose_setTodo htodo⟩ h.drains
    (fun _ _ _ => id) id id fun _ => id
  show s.pending = _ + Count.total owed (Function.update s.todo a rest)
  rw [htotal]
  exact h.counts.pending

theorem Inv.effect [Nonempty W] (h : s.Inv c) (he : s.Env (.effect a))
    (hs : s.effectStep c a = some t) : t.Inv c := by
  unfold effectStep at hs
  split at hs
  · cases hs
  · next rest htodo =>
    cases hs
    exact h.decrement htodo
  · next d rest htodo =>
    split_ifs at hs <;> cases hs
    · have hawake : ∃ w, s.sys.Awake w := by
        cases a with
        | inl w =>
          have hne : s.todo (.inl w) ≠ [] := by rw [htodo]; exact List.cons_ne_nil _ _
          exact ⟨w, (h.sane w).awake ((h.sane w).calm.engaged (.inr hne))⟩
        | inr e =>
          refine h.awake_before ?_
          by_contra hstop
          have hsub := (he.2 (by simpa using hstop)).1
          simp only [submits, htodo] at hsub
          cases hsub
      obtain ⟨w, hw⟩ := hawake
      have hpost : (s.setSys (s.sys.schedule d.ft)).Inv c := by
        refine h.setFibers hw fun e hmem => ?_
        rw [scheduleNoLock_fibers] at hmem
        rcases List.mem_append.1 hmem with hmem | hmem
        · exact .inl hmem
        · rw [List.mem_singleton.1 (List.mem_filter.1 hmem).1]
          exact .inr (.inl (h.counts.loose a d (by rw [htodo]; exact List.mem_cons_self ..)))
      exact hpost.popSchedule htodo
    · exact h.popSchedule htodo

theorem Inv.stop (h : s.Inv c) (hs : s.stopStep c = some t) : t.Inv c := by
  unfold stopStep at hs
  split_ifs at hs with hstop
  have hnext : Inv c { s with autoStop := true, stopping := true } :=
    ⟨fun v => ⟨(h.sane v).fits, (h.sane v).calm⟩,
      ⟨h.counts.conc, h.counts.fault, h.counts.pending, h.counts.loose⟩, h.drains.stop, h.timers,
      h.pending, fun _ _ => .inl rfl⟩
  dsimp only at hs
  split at hs
  · cases hs
    exact hnext
  · next r hroot =>
    cases hs
    have hout : s.place r = .outside := (h.root r hroot).resolve_left hstop
    have hfits : s.sys.pc r = .scan := by
      have hf := (h.sane r).fits
      rw [hout] at hf
      exact hf
    have hcalm : s.conc.pc (.inl r) = .out ∧ s.todo (.inl r) = [] := by
      have hc := (h.sane r).calm
      rw [hout] at hc
      exact hc
    have hself : ∀ p : Place, Function.update s.place r p r = p := fun p => Function.update_self ..
    have hother : ∀ (p : Place) v, v ≠ r → Function.update s.place r p v = s.place v := fun p v hv =>
      Function.update_of_ne hv _ _
    refine hnext.next (sane_of hnext.sane (hother _) (fun _ _ => rfl) (fun _ _ => rfl)
      (fun _ _ => rfl) ⟨?_, ?_⟩) ⟨h.counts.conc, h.counts.fault, h.counts.pending, h.counts.loose⟩
      h.drains.stop (fun n _ v hv => unread_of_ended hv id ?_) id id fun _ _ => .inl rfl
    · show (Function.update s.place r _ r).Fits _
      rw [hself]
      split_ifs <;> exact hfits
    · show (Function.update s.place r _ r).Calm _ _ _
      rw [hself]
      exact hcalm
    · show (Function.update s.place r _ v).reads < n
      by_cases hvr : v = r
      · rw [hvr, hself]
        exact Nat.zero_lt_of_lt hv.2
      · rw [hother _ v hvr]
        exact hv.2

/-- A worker asks `stopping()`. -/
structure Asking (s : Pool W E) (w : W) (k : Ask) : Prop where
  pc : s.sys.pc w = k.pc
  call : s.conc.pc (.inl w) = .out
  todo : s.todo (.inl w) = []

theorem Sane.asking {k : Ask} (h : s.Sane w)
    (hp : s.place w = .timers k ∨ s.place w = .pending k ∨ s.place w = .base k) : s.Asking w k := by
  have hfits := h.fits
  have hcalm := h.calm
  rcases hp with hp | hp | hp <;> rw [hp] at hfits hcalm <;> exact ⟨hfits, hcalm.1, hcalm.2⟩

/-- `stopping()` has returned false. -/
theorem Inv.goOn (h : s.Inv c) {k : Ask} (ha : s.Asking w k) (hout : s.place w ≠ .outside) :
    (s.setPlace w k.goOn).Inv c := by
  refine h.move rfl (fun _ _ => rfl) (fun _ _ => rfl) (fun _ _ => rfl) ?_ ?_
    ⟨h.counts.conc, h.counts.fault, h.counts.pending, h.counts.loose⟩ h.drains (fun _ => id) hout
    k.goOn_reads id id rfl
  · show k.goOn.Fits (s.sys.pc w)
    rw [ha.pc]
    exact k.goOn_fits
  · show k.goOn.Calm (s.sys.pc w) (s.conc.pc (.inl w)) (s.todo (.inl w))
    rw [ha.pc, ha.call, ha.todo]
    exact k.goOn_calm

/-- A read of `stopping()` that goes on to the next: the worker at `n` reads has seen that there is
nothing to read. -/
theorem Inv.read (h : s.Inv c) {k : Ask} {p : Place} (ha : s.Asking w k) (hfits : p.Fits k.pc)
    (hcalm : p.Calm k.pc .out []) (hout : s.place w ≠ .outside)
    (htimers : s.timers.timers = [] ∨ ¬ s.Unread 1 w)
    (hpending : s.pending = 0 ∨ p.reads < 2) : (s.setPlace w p).Inv c := by
  have hself : (s.setPlace w p).place w = p := Function.update_self ..
  have hother : ∀ v, v ≠ w → (s.setPlace w p).place v = s.place v := fun v hv =>
    Function.update_of_ne hv _ _
  have hunread : ∀ n v, v ≠ w → s.Unread n v → (s.setPlace w p).Unread n v := fun n v hv hu =>
    unread_of_ended hu id (by rw [hother v hv]; exact hu.2)
  refine ⟨sane_of h.sane hother (fun _ _ => rfl) (fun _ _ => rfl) (fun _ _ => rfl) ⟨?_, ?_⟩,
    ⟨h.counts.conc, h.counts.fault, h.counts.pending, h.counts.loose⟩, h.drains, fun ht => ?_,
    fun hp => ?_, fun r hr => (h.root r hr).imp_right fun hr => ?_⟩
  · show ((s.setPlace w p).place w).Fits (s.sys.pc w)
    rw [hself, ha.pc]
    exact hfits
  · show ((s.setPlace w p).place w).Calm (s.sys.pc w) (s.conc.pc (.inl w)) (s.todo (.inl w))
    rw [hself, ha.pc, ha.call, ha.todo]
    exact hcalm
  · obtain ⟨v, hv⟩ := h.timers ht
    have hvw : v ≠ w := by
      rintro rfl
      exact htimers.elim ht fun hn => hn hv
    exact ⟨v, hunread 1 v hvw hv⟩
  · obtain ⟨v, hv⟩ := h.pending hp
    by_cases hvw : v = w
    · subst hvw
      refine ⟨v, unread_of_ended hv id ?_⟩
      rw [hself]
      exact hpending.resolve_left hp
    · exact ⟨v, hunread 2 v hvw hv⟩
  · have hrw : r ≠ w := by
      rintro rfl
      exact hout hr
    rw [hother r hrw]
    exact hr

theorem getNextTimer_timers (s : TimerManager) (now : UInt64) :
    (s.getNextTimer now).1.timers = s.timers := by
  unfold TimerManager.getNextTimer
  dsimp only
  split <;> rfl

theorem Inv.nextTimer (h : s.Inv c) {now : UInt64} (hk : s.Kept (.nextTimer w now))
    (hs : s.nextTimerStep w now = some t) : t.Inv c := by
  unfold nextTimerStep at hs
  split at hs
  · next k hp =>
    cases hs
    have ha := (h.sane w).asking (.inl hp)
    have hout : s.place w ≠ .outside := by
      rw [hp]
      exact nofun
    -- `getNextTimer` leaves the set alone
    have hread : Inv c { s with timers := (s.timers.getNextTimer now).1 } :=
      h.next (fun v => ⟨(h.sane v).fits, (h.sane v).calm⟩)
        ⟨h.counts.conc, h.counts.fault, h.counts.pending, h.counts.loose⟩ h.drains (fun _ _ _ => id)
        (fun ht => by rwa [getNextTimer_timers] at ht) id fun _ => id
    have ha' : Asking { s with timers := (s.timers.getNextTimer now).1 } w k := ⟨ha.pc, ha.call, ha.todo⟩
    split_ifs with hmax
    · refine hread.read ha' rfl ⟨rfl, rfl⟩ hout (.inl ?_) (.inr Nat.one_lt_two)
      show (s.timers.getNextTimer now).1.timers = []
      rw [getNextTimer_timers]
      exact hk.resolve_right fun hne => hne hmax
    · exact hread.goOn ha' hout
  · cases hs

theorem Inv.pendingCount (h : s.Inv c) (hs : s.pendingCountStep w = some t) : t.Inv c := by
  unfold pendingCountStep at hs
  split at hs
  · next k hp =>
    cases hs
    have ha := (h.sane w).asking (.inr (.inl hp))
    have hout : s.place w ≠ .outside := by
      rw [hp]
      exact nofun
    split_ifs with hzero
    · refine h.read ha rfl ⟨rfl, rfl⟩ hout (.inr fun hu => ?_) (.inl hzero)
      have hreads := hu.2
      rw [hp] at hreads
      exact absurd hreads (lt_irrefl 1)
    · exact h.goOn ha hout
  · cases hs

/-- A worker with all three reads behind it stops asking: others have to read what there is. -/
theorem Inv.stopAsking (h : s.Inv c) {k : Ask} (ha : s.Asking w k) (hp : s.place w = .base k)
    {u : Sys W} (hidle : u.pc w ≠ .idling)
    (hsame : ∀ v, v ≠ w → u.pc v = s.sys.pc v ∧ u.idleFiber v = s.sys.idleFiber v)
    (hdrains : u.Drains s.stopping) : ((s.setSys u).setPlace w .loop).Inv c := by
  have hpast : ∀ n ≤ 2, ∀ v, s.Unread n v → v ≠ w := by
    rintro n hn v hv rfl
    have hreads := hv.2
    rw [hp] at hreads
    exact absurd (lt_of_lt_of_le hreads hn) (lt_irrefl 2)
  have hother : ∀ v, v ≠ w → Function.update s.place w .loop v = s.place v := fun v hv =>
    Function.update_of_ne hv _ _
  refine h.next (sane_of h.sane hother (fun v hv => (hsame v hv).1) (fun _ _ => rfl)
    (fun _ _ => rfl) ⟨?_, ?_⟩) ⟨h.counts.conc, h.counts.fault, h.counts.pending, h.counts.loose⟩
    hdrains (fun n hn v hv => ?_) id id fun r hr => hr.imp_right fun hr => ?_
  · show (Function.update s.place w .loop w).Fits (u.pc w)
    rw [Function.update_self]
    exact hidle
  · show (Function.update s.place w .loop w).Calm (u.pc w) (s.conc.pc (.inl w)) (s.todo (.inl w))
    rw [Function.update_self, ha.call, ha.todo]
    exact fun _ => ⟨rfl, rfl⟩
  · have hvw := hpast n hn v hv
    refine unread_of_ended hv (fun hend => ?_) ?_
    · unfold Sys.Ended at hend ⊢
      rwa [← (hsame v hvw).1, ← (hsame v hvw).2]
    · show (Function.update s.place w .loop v).reads < n
      rw [hother v hvw]
      exact hv.2
  · have hrw : r ≠ w := by
      rintro rfl
      rw [hp] at hr
      cases hr
    exact (hother r hrw).trans hr

theorem Inv.baseStopping (h : s.Inv c) (hs : s.baseStoppingStep w = some t) : t.Inv c := by
  unfold baseStoppingStep at hs
  split at hs
  · next k hp =>
    have ha := (h.sane w).asking (.inr (.inr hp))
    split_ifs at hs with hst
    · have hstop : s.stopping = true := hst.2.1
      cases k with
      | idle =>
        obtain ⟨u, hu, rfl⟩ := Option.map_eq_some_iff.1 hs
        have hdrains := h.drains.idleTerm hstop hst.2.2.1 hu
        obtain ⟨hpc, rfl⟩ := Sys.idleOutStep_cases hu
        refine h.stopAsking ha hp ?_
          (fun v hv => ⟨Sys.goto_pc_of_ne hv, Function.update_of_ne hv _ _⟩) hdrains
        show (s.sys.goto w .scan).pc w ≠ .idling
        rw [Sys.goto_pc_self]
        exact nofun
      | first | second =>
        cases hs
        refine h.stopAsking ha hp ?_ (fun v hv => ⟨Sys.goto_pc_of_ne hv, rfl⟩) ?_
        · rw [Sys.goto_pc_self]
          exact nofun
        · rw [hstop]
          refine .of_empty hst.2.2.1 (h.drains.charged.goto rfl rfl fun f _ hf => ?_)
          rw [ha.pc] at hf
          cases hf
    · cases hs
      refine h.goOn ha ?_
      rw [hp]
      exact nofun
  · cases hs

theorem Inv.wait (h : s.Inv c) {reports : List (ℕ × Mask)} (hs : s.waitStep w reports = some t) :
    t.Inv c := by
  unfold waitStep at hs
  split_ifs at hs with hp
  obtain ⟨u, hu, rfl⟩ := Option.map_eq_some_iff.1 hs
  have hfits := (h.sane w).fits
  have hcalm := (h.sane w).calm
  rw [hp] at hfits hcalm
  rcases h.counts.concStep (a := .inl w) (l := .wait (.inl w) reports) rfl (fun _ _ hc => by cases hc)
    hcalm.2 hu with rfl | ⟨hc, hm⟩
  · refine h.abort.move rfl (fun _ _ => rfl) (fun _ _ => rfl) (fun _ _ => rfl) hfits trivial
      ⟨h.counts.conc, h.counts.fault, h.counts.pending, h.counts.loose⟩ h.abort.drains (fun _ => id) ?_
      rfl id id rfl
    show s.place w ≠ .outside
    rw [hp]
    exact nofun
  · have hpending : u.pending = s.pending := by
      refine hm.pending.resolve_right ?_
      rw [hcalm.1]
      exact nofun
    refine h.move (p := .expire) (by rw [← hm.place]; rfl) (fun v _ => congrFun (congrArg Sys.pc hm.sys) v)
      (fun v hv => hm.call _ (by simpa using hv)) (fun v hv => hm.todo _ (by simpa using hv)) ?_ trivial
      ⟨hc.conc, hc.fault, hc.pending, hc.loose⟩ ?_ (fun v hv => ?_) (by rw [hp]; exact nofun) rfl
      (fun ht => ?_) (fun hp => ?_) hm.stopping
    · show u.sys.pc w = .idling
      rw [hm.sys]
      exact hfits
    · show u.sys.Drains u.stopping
      rw [hm.sys, hm.stopping]
      exact h.drains
    · rw [← hm.sys]
      exact hv
    · rw [← hm.timers]
      exact ht
    · rw [← hpending]
      exact hp

theorem Inv.expire (h : s.Inv c) {now : UInt64} {tmp : Addr} (hs : s.expireStep w now tmp = some t) :
    t.Inv c := by
  unfold expireStep at hs
  split_ifs at hs with hp
  cases hs
  have hfits := (h.sane w).fits
  rw [hp.1] at hfits
  refine h.move rfl (fun _ _ => rfl) (fun _ _ => rfl) (fun _ _ => rfl) hfits trivial
    ⟨h.counts.conc, h.counts.fault, h.counts.pending, h.counts.loose⟩ h.drains (fun _ => id)
    (by rw [hp.1]; exact nofun) rfl (fun ht hn => ht ?_) id rfl
  show (s.timers.listExpiredCb now tmp).1.timers = []
  unfold TimerManager.listExpiredCb
  rw [hn]
  exact hn

theorem Inv.post (h : s.Inv c) (hs : s.postStep w = some t) : t.Inv c := by
  unfold postStep at hs
  split at hs
  · next cbs hp =>
    cases hs
    have hfits := (h.sane w).fits
    rw [hp] at hfits
    have hawake : s.sys.Awake w := (h.sane w).awake (by rw [hp]; trivial)
    set fts := cbs.map fun cb => (FiberAndThread.ofCbPtr cb (-1)).1 with hfts
    have hpost : (s.setSys { s.sys with fibers := (scheduleRange s.sys.fibers false fts).1 }).Inv c := by
      refine h.setFibers hawake fun e he => ?_
      rw [scheduleRange_fibers] at he
      rcases List.mem_append.1 he with he | he
      · exact .inl he
      · rw [hfts] at he
        obtain ⟨cb, -, rfl⟩ := List.mem_map.1 (List.mem_filter.1 he).1
        exact .inr (.inl rfl)
    refine hpost.move rfl (fun _ _ => rfl) (fun _ _ => rfl) (fun _ _ => rfl) hfits trivial
      ⟨h.counts.conc, h.counts.fault, h.counts.pending, h.counts.loose⟩ hpost.drains (fun _ => id) ?_
      rfl id id rfl
    show s.place w ≠ .outside
    rw [hp]
    exact nofun
  · cases hs

/-- All the reported events have been handled. -/
theorem concStep_returned {ok : Bool} (hfault : s.conc.fault = none) (hpc : s.conc.pc a = .batch [])
    (hs : s.concStep a (.handle a ok) = some t) : t.conc.pc a = .out ∧ t.todo a = [] := by
  have hstep : s.conc.step (.handle a ok) = some (s.conc.goto a .out) := by
    unfold Conc.step
    simp only [hfault, Option.isSome_none, Bool.false_eq_true, if_false, hpc]
  have hgoto : (s.conc.goto a .out).fault.isSome = false := by
    show s.conc.fault.isSome = false
    rw [hfault]
    rfl
  unfold concStep at hs
  rw [hstep, Option.map_some, hgoto, if_neg Bool.false_ne_true] at hs
  cases hs
  refine ⟨Function.update_self .., ?_⟩
  show Function.update s.todo a _ a = []
  rw [Function.update_self]
  show (s.conc.mgr.log.drop s.conc.mgr.log.length).flatMap _ = []
  rw [List.drop_length]
  rfl

theorem Inv.handle (h : s.Inv c) {ok : Bool} (hs : s.handleStep w ok = some t) : t.Inv c := by
  unfold handleStep at hs
  by_cases hp : s.place w = .events ∧ s.todo (.inl w) = []
  swap
  · rw [if_neg hp] at hs
    cases hs
  rw [if_pos hp] at hs
  obtain ⟨u, hu, hs⟩ := Option.bind_eq_some_iff.1 hs
  obtain ⟨n, hn, -⟩ := Option.map_eq_some_iff.1 hu
  obtain ⟨reports, hpc⟩ : ∃ reports, s.conc.pc (.inl w) = .batch reports := by
    unfold Conc.step at hn
    split_ifs at hn
    simp only at hn
    split at hn
    · next hpc => exact ⟨_, hpc⟩
    · next hpc => exact ⟨_, hpc⟩
    · cases hn
  have hcall : s.conc.pc (.inl w) ≠ .out := by
    rw [hpc]
    exact nofun
  have hreg : (s.conc.pc (.inl w)).registers = false := by
    rw [hpc]
    rfl
  have hnext : u.Inv c := h.inCall (l := .handle (.inl w) ok) rfl (fun _ _ hc => by cases hc) hcall hp.2
    (fun hr => absurd (hreg.symm.trans hr) nofun) hu
  split_ifs at hs with hlast
  · obtain ⟨v, hv, rfl⟩ := Option.map_eq_some_iff.1 hs
    have hret := concStep_returned h.counts.fault hlast hu
    have hdrains := hnext.drains.idleYield hv
    have hended : ∀ x, v.Ended x → u.sys.Ended x := by
      intro x hx
      obtain ⟨-, rfl⟩ := Sys.idleOutStep_cases hv
      exact hx.of_update rfl (fun y hy => (Sys.term_of_update hy nofun).2) nofun
    obtain ⟨hidle, rfl⟩ := Sys.idleOutStep_cases hv
    have hw : (u.sys.goto w .scan).pc w = .scan := Sys.goto_pc_self
    refine hnext.move rfl (fun x hx => Sys.goto_pc_of_ne hx) (fun _ _ => rfl) (fun _ _ => rfl) ?_
      (fun _ => hret) ⟨hnext.counts.conc, hnext.counts.fault, hnext.counts.pending, hnext.counts.loose⟩
      hdrains hended ?_ rfl id id rfl
    · show (u.sys.goto w .scan).pc w ≠ .idling
      rw [hw]
      exact nofun
    · intro hout
      have hfits := (hnext.sane w).fits
      rw [hout] at hfits
      exact absurd (hidle.symm.trans hfits) nofun
  · cases hs
    exact hnext

theorem Inv.step [Nonempty W] {l : PoolLabel W E} (h : s.Inv c) (he : s.Env l) (hk : s.Kept l)
    (hs : s.step c l = some t) : t.Inv c := by
  unfold Pool.step at hs
  split_ifs at hs
  cases l with
  | run w => exact h.run hs
  | yieldToReady w => exact h.leave (fun u hu => Sys.yieldStep_leaves hu) hs
  | yieldToHold w => exact h.leave (fun u hu => Sys.yieldStep_leaves hu) hs
  | finish w => exact h.leave (fun u hu => Sys.finishStep_leaves hu) hs
  | throw w => exact h.leave (fun u hu => Sys.leaveStep_leaves hu) hs
  | schedule a ft =>
    simp only at hs
    split_ifs at hs with hf
    cases hs
    exact h.schedule hf he
  | scheduleRange a fts =>
    simp only at hs
    split_ifs at hs with hf
    cases hs
    exact h.submitRange hf he
  | newFiber a d =>
    simp only at hs
    split_ifs at hs with hf
    cases hs
    exact h.newFiber d
  | timer a o =>
    simp only at hs
    split_ifs at hs with hf
    exact h.timer hk hs
  | call a d =>
    simp only at hs
    split_ifs at hs with hf
    exact h.call hf he hs
  | grow a =>
    simp only at hs
    split_ifs at hs with htodo
    exact h.grow htodo hs
  | lock a ok =>
    simp only at hs
    split_ifs at hs with htodo
    exact h.lock htodo hk hs
  | effect a => exact h.effect he hs
  | stop => exact h.stop hs
  | nextTimer w now => exact h.nextTimer hk hs
  | pendingCount w => exact h.pendingCount hs
  | baseStopping w => exact h.baseStopping hs
  | wait w reports => exact h.wait hs
  | expire w now tmp => exact h.expire hs
  | post w => exact h.post hs
  | handle w ok => exact h.handle hs

theorem Inv.start (c : PoolConfig W) (now : UInt64) : (Pool.start c now : Pool W E).Inv c where
  sane := fun w => by
    have hplace : (Pool.start c now : Pool W E).place w =
      if c.root = some w then .outside else .loop := rfl
    refine ⟨?_, ?_⟩
    · rw [hplace]
      split_ifs
      · rfl
      · exact nofun
    · rw [hplace]
      split_ifs
      · exact ⟨rfl, rfl⟩
      · exact fun _ => ⟨rfl, rfl⟩
  counts := by
    refine ⟨.start, rfl, ?_, fun a d hd => by cases hd⟩
    show (0 : ℤ) = 0 + Count.total owed fun _ => []
    simp [Count.total, owed]
  drains := .start
  timers := fun ht => absurd rfl ht
  pending := fun hp => absurd rfl hp
  root := fun r hr => .inr (if_pos hr)

/-- Nothing is left when the last worker leaves. -/
theorem Inv.drained (h : s.Inv c) (hall : ∀ w, s.sys.pc w = .left) : s.Drained := by
  refine ⟨?_, ?_, ?_⟩
  · by_contra hne
    obtain ⟨w, hw⟩ := h.drains.queued hne
    exact hw.1 (hall w)
  · by_contra hne
    obtain ⟨w, hw⟩ := h.pending hne
    exact hw.1.2 (hall w)
  · by_contra hne
    obtain ⟨w, hw⟩ := h.timers hne
    exact hw.1.2 (hall w)

end Steps

end Pool

/-- **Shutdown.** When the last worker has left `run()`, no task, no event and no timer is left, in
every run in which timers and events are added while a worker is yet to read the timer set or the
counter. -/
theorem shutdown_drains {W E : Type} [DecidableEq W] [DecidableEq E] [Fintype W] [Fintype E]
    [Nonempty W] (c : PoolConfig W) (now : UInt64) {s : Pool W E}
    (hr : Reach (Pool.step c) (fun s l => s.Env l ∧ s.Kept l) (Pool.start c now) s)
    (hall : ∀ w, s.sys.pc w = .left) : s.Drained :=
  (hr.invariant (I := Pool.Inv c) (.start c now) fun _ _ _ hi hok hs =>
    hi.step hok.1 hok.2 hs).drained hall

/-- A timer that is added before `stop` is run, and the worker leaves after its callback. -/
theorem shutdown_drains_timer : ∃ s : Pool (Fin 1) Unit, (∀ w, s.sys.pc w = .left) ∧
    s.stopping = true ∧ s.sys.lastId = 1 ∧ s.Drained := by
  have ht := fun s : Pool (Fin 1) Unit =>
    reach_exec (Pool.step ⟨fun _ => 10, 1, none⟩) (fun s l => s.Env l ∧ s.Kept l) s
      [.timer (.inr ()) (.addTimer 100 5 10 (some 8) false), .stop, .run 0, .run 0, .nextTimer 0 101,
        .wait 0 [], .expire 0 110 6, .post 0, .handle 0 true, .run 0, .run 0, .run 0, .run 0, .finish 0,
        .run 0, .run 0, .run 0, .run 0, .run 0, .run 0, .run 0, .run 0, .nextTimer 0 111,
        .pendingCount 0, .baseStopping 0, .run 0, .run 0]
  refine ⟨_, ?_, ?_, ?_, shutdown_drains ⟨fun _ => 10, 1, none⟩ 100 (ht _ (by decide)) ?_⟩ <;> decide

/-- **A stranded timer.** A task yields; between `--m_activeThreadCount` and the `schedule` that
follows, another worker finds the queue empty and its idle fiber ends. That worker takes the task,
which yields again, and in the same gap the first worker leaves. Then the task adds a timer. -/
theorem timer_stranded : ∃ s : Pool (Fin 2) Unit,
    Reach (Pool.step ⟨fun w => w.val + 10, 1, none⟩) Pool.Env
      (Pool.start ⟨fun w => w.val + 10, 1, none⟩ 100) s ∧
    (∀ w, s.sys.pc w = .left) ∧ s.timers.timers = [5] ∧ ¬ s.Drained := by
  have ht := fun s : Pool (Fin 2) Unit =>
    reach_exec (Pool.step ⟨fun w => w.val + 10, 1, none⟩) Pool.Env s
      [.schedule (.inr ()) (.ofCb (some 7) (-1)), .stop,
        .run 0, .run 0, .run 0, .run 0, .yieldToReady 0, .run 0, .run 0,
        .run 1, .run 1, .nextTimer 1 100, .pendingCount 1, .baseStopping 1, .run 0, .run 0,
        .run 1, .run 1, .run 1, .run 1, .run 1, .yieldToReady 1, .run 1, .run 1,
        .run 0, .run 0, .nextTimer 0 100, .pendingCount 0, .baseStopping 0, .run 0, .run 0,
        .run 1, .run 1, .run 1, .run 1, .run 1, .run 1, .run 1,
        .timer (.inl 1) (.addTimer 100 5 10 (some 8) false), .finish 1,
        .run 1, .run 1, .run 1, .run 1, .run 1, .run 1]
  exact ⟨_, ht _ (by decide), by decide, by decide, fun h => absurd h.timers (by decide)⟩

end CoroutineScheduler
