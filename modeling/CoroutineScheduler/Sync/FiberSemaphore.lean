import Mathlib.Tactic
import CoroutineScheduler.Lib.Trans
import CoroutineScheduler.Scheduler.Queue

/-!
# The fiber semaphore

`FiberSemaphore` and the fibers that use it. Each section under `m_mutex` is one step, and so are
the `YieldToHold` of a fiber that queued itself, a task scheduled by other code, and the scan by
which a thread of a scheduler takes a task. A permit either stays in `m_concurrency` or goes from
`notify` straight to a waiter, also to one that has queued itself and not yet suspended.

The log records what the calls did. `Conserved` is read off it: permits are neither lost nor
made, waiters are served in the order of their arrival, and nobody waits while a permit is free.
-/

namespace CoroutineScheduler.FiberSemaphore

open Trans

/-- A `Scheduler *`. -/
abbrev SchedulerId := ℕ

/-- Where a fiber is: running on the scheduler that `Scheduler::GetThis()` names there, between
the section of `wait` that queued it and its `YieldToHold`, or suspended. -/
inductive Place
  | running (c : SchedulerId)
  | queued (c : SchedulerId)
  | held
  deriving DecidableEq, Repr

/-- What a call did under the lock. -/
inductive Event
  | granted (f : FiberId)
  | refused (f : FiberId)
  | queued (c : SchedulerId) (f : FiberId)
  | counted
  | handed (c : SchedulerId) (f : FiberId)
  deriving DecidableEq, Repr

structure State where
  concurrency : UInt64
  waiters : List (SchedulerId × FiberId)
  fibers : SchedulerId → List FiberAndThread
  place : FiberId → Place
  log : List Event

/-- The semaphore with `initial_concurrency`, in any surroundings. -/
def start (initialConcurrency : UInt64) (fibers : SchedulerId → List FiberAndThread)
    (place : FiberId → Place) : State :=
  ⟨initialConcurrency, [], fibers, place, []⟩

/-- `Fiber::getState()`, as far as the scan reads it. -/
def State.fiberState (s : State) (f : FiberId) : FiberState :=
  if s.place f = .held then .hold else .exec

/-- `c->schedule(ft)`. -/
def State.schedule (s : State) (c : SchedulerId) (ft : FiberAndThread) : State :=
  { s with fibers := Function.update s.fibers c (scheduleNoLock (s.fibers c) ft).1 }

/-- `FiberSemaphore::tryWait`, called by fiber `f`. -/
def tryWait (s : State) (f : FiberId) : State :=
  if s.concurrency > 0 then
    { s with concurrency := s.concurrency - 1, log := s.log ++ [.granted f] }
  else { s with log := s.log ++ [.refused f] }

/-- The locked section of `FiberSemaphore::wait`, called by fiber `f` on scheduler `c`. -/
def wait (s : State) (c : SchedulerId) (f : FiberId) : State :=
  if s.concurrency > 0 then
    { s with concurrency := s.concurrency - 1, log := s.log ++ [.granted f] }
  else
    { s with
      waiters := s.waiters ++ [(c, f)]
      place := Function.update s.place f (.queued c)
      log := s.log ++ [.queued c f] }

/-- `FiberSemaphore::notify`. -/
def notify (s : State) : State :=
  match s.waiters with
  | (c, f) :: ws =>
    { s.schedule c (.ofFiber (some f) (-1)) with waiters := ws, log := s.log ++ [.handed c f] }
  | [] => { s with concurrency := s.concurrency + 1, log := s.log ++ [.counted] }

inductive Label
  | tryWait (f : FiberId)
  | wait (f : FiberId)
  | yieldToHold (f : FiberId)
  | notify
  | schedule (c : SchedulerId) (ft : FiberAndThread)
  | take (c : SchedulerId) (tid : ℤ)
  deriving DecidableEq, Repr

/-- A thread `tid` of scheduler `c` takes a task and, if it is a fiber, swaps it in. -/
def take (s : State) (c : SchedulerId) (tid : ℤ) : State :=
  let r := scan s.fiberState tid (s.fibers c)
  { s with
    fibers := Function.update s.fibers c r.fibers
    place := match r.taken.bind (·.fiber) with
      | some f => Function.update s.place f (.running c)
      | none => s.place }

/-- One step. `notify` has no assertion on its caller, so any thread may make it; the other calls
assert `Scheduler::GetThis()`, and a fiber makes them only while it runs. -/
def step (s : State) : Label → Option State
  | .tryWait f =>
    match s.place f with
    | .running _ => some (tryWait s f)
    | _ => none
  | .wait f =>
    match s.place f with
    | .running c => some (wait s c f)
    | _ => none
  | .yieldToHold f =>
    if s.place f = .held then none
    else some { s with place := Function.update s.place f .held }
  | .notify => some (notify s)
  | .schedule c ft => some (s.schedule c ft)
  | .take c tid => some (take s c tid)

/-- `++m_concurrency` does not pass `SIZE_MAX`. -/
def Room (s : State) (a : Label) : Prop :=
  a = .notify → s.waiters = [] → s.concurrency.toNat + 1 < 2 ^ 64

instance (s : State) (a : Label) : Decidable (Room s a) := by
  unfold Room
  infer_instance

/-! ## What the log says -/

def Event.isNotify : Event → Bool
  | .counted | .handed .. => true
  | _ => false

def Event.isGrant : Event → Bool
  | .granted _ | .handed .. => true
  | _ => false

def Event.arrival? : Event → Option (SchedulerId × FiberId)
  | .queued c f => some (c, f)
  | _ => none

def Event.handover? : Event → Option (SchedulerId × FiberId)
  | .handed c f => some (c, f)
  | _ => none

/-- The number of `notify` calls. -/
def notifies (log : List Event) : ℕ := log.countP (·.isNotify)

/-- The number of calls that got a permit: at once, or as a waiter that `notify` scheduled. -/
def grants (log : List Event) : ℕ := log.countP (·.isGrant)

/-- The waiters in the order they queued themselves. -/
def arrivals (log : List Event) : List (SchedulerId × FiberId) := log.filterMap (·.arrival?)

/-- The waiters in the order `notify` scheduled them. -/
def handovers (log : List Event) : List (SchedulerId × FiberId) := log.filterMap (·.handover?)

section
variable (log : List Event) (e : Event)

@[simp] theorem notifies_append :
    notifies (log ++ [e]) = notifies log + if e.isNotify then 1 else 0 := by
  simp [notifies, List.countP_cons]

@[simp] theorem grants_append :
    grants (log ++ [e]) = grants log + if e.isGrant then 1 else 0 := by
  simp [grants, List.countP_cons]

@[simp] theorem arrivals_append : arrivals (log ++ [e]) = arrivals log ++ e.arrival?.toList := by
  simp only [arrivals, List.filterMap_append]
  cases h : e.arrival? <;> simp [h]

@[simp] theorem handovers_append :
    handovers (log ++ [e]) = handovers log ++ e.handover?.toList := by
  simp only [handovers, List.filterMap_append]
  cases h : e.handover? <;> simp [h]

end

/-- The permits, the waiters and the log agree. -/
structure Conserved (n : UInt64) (s : State) : Prop where
  permits : n.toNat + notifies s.log = grants s.log + s.concurrency.toNat
  nobody_waits : 0 < s.concurrency → s.waiters = []
  fifo : arrivals s.log = handovers s.log ++ s.waiters

/-- The entry that `notify` makes for a waiter. -/
def entry (w : SchedulerId × FiberId) : FiberAndThread := .ofFiber (some w.2) (-1)

/-- The step from `s` to `t` adds to the queues of the schedulers exactly the waiters it hands a
permit, each on the scheduler it waited on. -/
def Delivers (s t : State) : Prop :=
  ∃ ws, handovers t.log = handovers s.log ++ ws ∧
    ∀ c, t.fibers c = s.fibers c ++ (ws.filter (·.1 = c)).map entry

/-- The labels that are calls on the semaphore. -/
def Label.isCall : Label → Bool
  | .schedule .. | .take .. => false
  | _ => true

/-- The count moves by at most one: neither `--` nor `++` wraps around. -/
def Unwrapped (s t : State) : Prop :=
  t.concurrency.toNat ≤ s.concurrency.toNat + 1 ∧ s.concurrency.toNat ≤ t.concurrency.toNat + 1

/-! ## One step -/

theorem toNat_sub_one {x : UInt64} (h : x > 0) : (x - 1).toNat + 1 = x.toNat := by
  have hx : 0 < x.toNat := by simpa [UInt64.lt_iff_toNat_lt] using h
  rw [UInt64.toNat_sub_of_le _ _ (by simp only [UInt64.le_iff_toNat_le]; exact hx)]
  exact Nat.sub_add_cancel hx

theorem toNat_add_one {x : UInt64} (h : x.toNat + 1 < 2 ^ 64) : (x + 1).toNat = x.toNat + 1 := by
  rw [UInt64.toNat_add]
  exact Nat.mod_eq_of_lt h

/-- What a step can do: a call takes a permit, is refused, queues its fiber, hands the permit to
the first waiter or counts it; every other step leaves the semaphore and its log alone. -/
inductive Stepped (s : State) (a : Label) (t : State) : Prop
  | grant (f : FiberId) (hc : s.concurrency > 0) (hconc : t.concurrency = s.concurrency - 1)
      (hw : t.waiters = s.waiters) (hq : t.fibers = s.fibers)
      (hlog : t.log = s.log ++ [.granted f])
  | refuse (f : FiberId) (hconc : t.concurrency = s.concurrency) (hw : t.waiters = s.waiters)
      (hq : t.fibers = s.fibers) (hlog : t.log = s.log ++ [.refused f])
  | queue (c : SchedulerId) (f : FiberId) (hc : ¬ s.concurrency > 0)
      (hconc : t.concurrency = s.concurrency) (hw : t.waiters = s.waiters ++ [(c, f)])
      (hq : t.fibers = s.fibers) (hlog : t.log = s.log ++ [.queued c f])
  | hand (c : SchedulerId) (f : FiberId) (hw : s.waiters = (c, f) :: t.waiters)
      (hconc : t.concurrency = s.concurrency)
      (hq : t.fibers = Function.update s.fibers c (s.fibers c ++ [entry (c, f)]))
      (hlog : t.log = s.log ++ [.handed c f])
  | count (ha : a = .notify) (hs : s.waiters = []) (hconc : t.concurrency = s.concurrency + 1)
      (hw : t.waiters = []) (hq : t.fibers = s.fibers) (hlog : t.log = s.log ++ [.counted])
  | other (hconc : t.concurrency = s.concurrency) (hw : t.waiters = s.waiters)
      (hq : a.isCall = true → t.fibers = s.fibers) (hlog : t.log = s.log)

theorem stepped {s t : State} {a : Label} (h : step s a = some t) : Stepped s a t := by
  cases a with
  | tryWait f =>
    simp only [step] at h
    split at h
    · obtain rfl := Option.some.inj h
      by_cases hc : s.concurrency > 0
      · exact .grant f hc (by simp [tryWait, hc]) (by simp [tryWait, hc]) (by simp [tryWait, hc])
          (by simp [tryWait, hc])
      · exact .refuse f (by simp [tryWait, hc]) (by simp [tryWait, hc]) (by simp [tryWait, hc])
          (by simp [tryWait, hc])
    · nomatch h
  | wait f =>
    simp only [step] at h
    split at h
    · next c _ =>
      obtain rfl := Option.some.inj h
      by_cases hc : s.concurrency > 0
      · exact .grant f hc (by simp [wait, hc]) (by simp [wait, hc]) (by simp [wait, hc])
          (by simp [wait, hc])
      · exact .queue c f hc (by simp [wait, hc]) (by simp [wait, hc]) (by simp [wait, hc])
          (by simp [wait, hc])
    · nomatch h
  | yieldToHold f =>
    simp only [step] at h
    split_ifs at h
    obtain rfl := Option.some.inj h
    exact .other rfl rfl (fun _ => rfl) rfl
  | notify =>
    obtain rfl := Option.some.inj h
    unfold notify
    split
    · next c f ws hw =>
      exact .hand c f hw rfl (by simp [State.schedule, scheduleNoLock_fibers, entry]; rfl) rfl
    · next hw => exact .count rfl hw rfl hw rfl rfl
  | schedule c ft =>
    obtain rfl := Option.some.inj h
    exact .other rfl rfl (by simp [Label.isCall]) rfl
  | take c tid =>
    obtain rfl := Option.some.inj h
    exact .other rfl rfl (by simp [Label.isCall]) rfl

theorem Conserved.step {n : UInt64} {s t : State} {a : Label} (hs : Conserved n s)
    (hroom : Room s a) (h : step s a = some t) : Conserved n t := by
  obtain ⟨hp, hn, hf⟩ := hs
  cases stepped h with
  | grant f hc hconc hw _ hlog =>
    have hdec := toNat_sub_one hc
    refine ⟨?_, fun _ => hw.trans (hn hc), ?_⟩
    · simp only [hlog, hconc, notifies_append, grants_append, Event.isNotify, Event.isGrant]
      simp only [Bool.false_eq_true, if_false, if_true]
      omega
    · simpa [hlog, hw, Event.arrival?, Event.handover?] using hf
  | refuse f hconc hw _ hlog =>
    refine ⟨?_, by rwa [hconc, hw], ?_⟩
    · simpa [hlog, hconc, Event.isNotify, Event.isGrant] using hp
    · simpa [hlog, hw, Event.arrival?, Event.handover?] using hf
  | queue c f hc hconc hw _ hlog =>
    refine ⟨?_, fun h0 => absurd (hconc ▸ h0) hc, ?_⟩
    · simpa [hlog, hconc, Event.isNotify, Event.isGrant] using hp
    · simp [hlog, hw, Event.arrival?, Event.handover?, hf]
  | hand c f hw hconc _ hlog =>
    refine ⟨?_, fun h0 => ?_, ?_⟩
    · simp only [hlog, hconc, notifies_append, grants_append, Event.isNotify, Event.isGrant]
      simp only [if_true]
      omega
    · -- a waiter stands in the list, so the count is zero
      rw [hconc] at h0
      simp [hn h0] at hw
    · simp [hlog, hf, hw, Event.arrival?, Event.handover?]
  | count ha hs hconc hw _ hlog =>
    have hinc := toNat_add_one (hroom ha hs)
    refine ⟨?_, fun _ => hw, ?_⟩
    · simp only [hlog, hconc, notifies_append, grants_append, Event.isNotify, Event.isGrant]
      simp only [Bool.false_eq_true, if_false, if_true]
      omega
    · simpa [hlog, hw, hs, Event.arrival?, Event.handover?] using hf
  | other hconc hw _ hlog => exact ⟨by rwa [hlog, hconc], by rwa [hconc, hw], by rwa [hlog, hw]⟩

theorem Conserved.start (n : UInt64) (fibers : SchedulerId → List FiberAndThread)
    (place : FiberId → Place) : Conserved n (start n fibers place) :=
  ⟨by simp [FiberSemaphore.start, notifies, grants], fun _ => rfl, rfl⟩

theorem delivers {s t : State} {a : Label} (ha : a.isCall = true) (h : step s a = some t) :
    Delivers s t := by
  have frame : handovers t.log = handovers s.log → t.fibers = s.fibers → Delivers s t :=
    fun hl hq => ⟨[], by simp [hl], fun c => by simp [hq]⟩
  cases stepped h with
  | grant f _ _ _ hq hlog => exact frame (by simp [hlog, Event.handover?]) hq
  | refuse f _ _ hq hlog => exact frame (by simp [hlog, Event.handover?]) hq
  | queue c f _ _ _ hq hlog => exact frame (by simp [hlog, Event.handover?]) hq
  | hand c f _ _ hq hlog =>
    refine ⟨[(c, f)], by simp [hlog, Event.handover?], fun d => ?_⟩
    by_cases hd : c = d
    · subst hd
      simp [hq]
    · simp [hq, hd, Function.update_of_ne (Ne.symm hd)]
  | count _ _ _ _ hq hlog => exact frame (by simp [hlog, Event.handover?]) hq
  | other _ _ hq hlog => exact frame (by rw [hlog]) (hq ha)

theorem unwrapped {s t : State} {a : Label} (hroom : Room s a) (h : step s a = some t) :
    Unwrapped s t := by
  unfold Unwrapped
  cases stepped h with
  | grant f hc hconc =>
    have hdec := toNat_sub_one hc
    rw [hconc]
    omega
  | count ha hs hconc =>
    have hinc := toNat_add_one (hroom ha hs)
    rw [hconc]
    omega
  | refuse f hconc | queue c f _ hconc | hand c f _ hconc | other hconc =>
    rw [hconc]
    omega

/-! ## Every run -/

/-- In every run in which no `notify` counts past `SIZE_MAX`, permits are conserved, waiters are
served first come first served on their own schedulers, and the count never wraps. -/
theorem permits_conserved {n : UInt64} {fibers : SchedulerId → List FiberAndThread}
    {place : FiberId → Place} {s : State} (h : Reach step Room (start n fibers place) s) :
    Conserved n s ∧ ∀ a t, Room s a → step s a = some t →
      (a.isCall = true → Delivers s t) ∧ Unwrapped s t := by
  refine ⟨?_, fun a t hroom ht => ⟨fun ha => delivers ha ht, unwrapped hroom ht⟩⟩
  exact h.invariant (Conserved.start n fibers place) fun t a u ht hroom hu => ht.step hroom hu

/-- Fiber 1 queues itself on scheduler 7 and is handed the permit before it suspends; fiber 2 is
refused, gives a permit back and takes it. -/
theorem permits_conserved_handover : ∃ s,
    Reach step Room (start 0 (fun _ => []) fun _ => .running 7) s ∧
      handovers s.log = [(7, 1)] ∧ grants s.log = 2 ∧ s.place 1 = .running 7 ∧ Conserved 0 s := by
  have ht := fun as => reach_exec step Room (start 0 (fun _ => []) fun _ => .running 7) as
  refine ⟨_, ht [.wait 1, .notify, .tryWait 2, .yieldToHold 1, .notify, .take 7 0, .tryWait 2]
    (by decide), by decide, by decide, by decide, (permits_conserved (ht _ (by decide))).1⟩

/-- A `notify` on a full count makes it zero: all `SIZE_MAX` permits and the new one are lost. -/
theorem notify_wraps : ∃ s, Reach step free (start (-1) (fun _ => []) fun _ => .held) s ∧
    s.concurrency = 0 ∧ ¬ Conserved (-1) s := by
  refine ⟨_, reach_exec step free _ [.notify] (by decide), by decide, fun h => ?_⟩
  exact absurd h.permits (by decide)

/-- No `notify` passes `SIZE_MAX` while the permits ever brought in fit a `size_t`. -/
theorem reach_room {n : UInt64} {fibers : SchedulerId → List FiberAndThread}
    {place : FiberId → Place} {s : State} (h : Reach step free (start n fibers place) s)
    (hlt : n.toNat + notifies s.log < 2 ^ 64) : Reach step Room (start n fibers place) s := by
  induction h with
  | refl => exact Reach.refl
  | @tail t u a _ _ hst ih =>
    have hle : notifies t.log ≤ notifies u.log := by
      cases stepped hst with
      | grant f _ _ _ _ hlog | refuse f _ _ _ hlog | queue c f _ _ _ _ hlog
      | hand c f _ _ _ hlog | count _ _ _ _ _ hlog => simp [hlog]
      | other _ _ _ hlog => exact hlog ▸ le_rfl
    have hreach := ih (by omega)
    refine hreach.tail (fun ha hw => ?_) hst
    have hp := (permits_conserved hreach).1.permits
    subst ha
    obtain rfl := Option.some.inj hst
    have hu : notifies (notify t).log = notifies t.log + 1 := by simp [notify, hw, Event.isNotify]
    omega

end CoroutineScheduler.FiberSemaphore
