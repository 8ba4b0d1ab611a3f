import CoroutineScheduler.IOManager.Wake
import CoroutineScheduler.Timer.Front

/-!
# No wake-up is lost

What a thread owes, what is in the pipe and who is awake, over whole runs of the machine of wake-ups.

1. `no_timer_overslept`: the worker that is going to sleep counts as idle before it asks for the first
   timer, so a timer that comes to the front later on finds it.
2. `no_task_unnoticed`: a worker scans the queue before it counts as idle. A task that is scheduled in
   between, when every worker is there, is found at the end of a timeout only (`task_unnoticed`).
-/

namespace CoroutineScheduler

open Trans Count

/-! ## Workers -/

/-- The worker scans the queue before it sleeps. -/
def Pc.scans (n : Nap) : Pc → Bool
  | idleTest | left => false
  | idling => n.woken
  | _ => true

/-- The worker asks for the first timer before it sleeps. -/
def Pc.asks (n : Nap) : Pc → Bool
  | left => false
  | idling => n.deadline.isNone
  | _ => true

theorem Pc.asks_of_ne {p : Pc} (h : p ≠ .left) (n : Nap) (hn : p = .idling → n.deadline = none) :
    p.asks n = true := by
  cases p with
  | left => exact absurd rfl h
  | idling =>
    show n.deadline.isNone = true
    rw [hn rfl]
    rfl
  | _ => rfl

theorem Pc.scans_of_ne {p : Pc} (hleft : p ≠ .left) (htest : p ≠ .idleTest) (hidle : p ≠ .idling)
    (n : Nap) : p.scans n = true := by
  cases p <;> first | rfl | contradiction

def Pc.isIdling (p : Pc) : Bool := p = .idling

namespace Sys

variable {W : Type} [DecidableEq W] [Fintype W] {s t : Sys W} {w : W} {tid : ℤ}

/-- `m_idleThreadCount` is the number of workers inside of their idle fibers. -/
def Counted (s : Sys W) : Prop := s.idle = tally Pc.isIdling s.pc

theorem Counted.goto (h : s.Counted) {q : Pc} (hpc : t.pc = Function.update s.pc w q)
    (hidle : t.idle = s.idle - ((s.pc w).isIdling.toNat : ℤ) + (q.isIdling.toNat : ℤ)) :
    t.Counted := by
  unfold Counted at h ⊢
  rw [hidle, hpc, tally_update, h]

/-- A worker that stays outside of its idle fiber. -/
theorem Counted.outside (h : s.Counted) {q : Pc} (hpc : t.pc = Function.update s.pc w q)
    (hidle : t.idle = s.idle) (hp : (s.pc w).isIdling = false) (hq : q.isIdling = false) :
    t.Counted := by
  apply h.goto hpc
  rw [hidle, hp, hq]
  simp

theorem Jump.isIdling {st : FiberId → FiberState} {p q : Pc} (hj : Jump st p q) :
    p.isIdling = false ∧ q.isIdling = false := by
  have hafter : ∀ ft, (afterFiber ft).isIdling = false := by
    intro ft
    unfold afterFiber
    cases ft.cb <;> rfl
  cases hj <;> first | exact ⟨rfl, hafter _⟩ | exact ⟨rfl, rfl⟩

theorem dispatch_isIdling (ft : FiberAndThread) : (dispatch ft).isIdling = false := by
  unfold dispatch afterFiber
  cases ft.fiber <;> cases ft.cb <;> rfl

theorem Counted.run (h : s.Counted) (hs : RunStep s tid w t) : t.Counted := by
  cases hs with
  | take ft hpc ht => exact h.outside rfl rfl (by rw [hpc]; rfl) (dispatch_isIdling ft)
  | jump p hj => exact h.outside rfl rfl hj.isIdling.1 hj.isIdling.2
  | requeue b f hpc =>
    refine h.outside (release_pc _ b) ?_ (by rw [hpc]; rfl) rfl
    cases b <;> rfl
  | hold b f hpc =>
    refine h.outside (release_pc _ b) ?_ (by rw [hpc]; rfl) rfl
    cases b <;> rfl
  | idle hpc hi =>
    apply h.goto rfl
    rw [hpc]
    simp [Pc.isIdling]
  | fail hf => exact h
  | nothing hpc _ | reuse _ _ hpc | fresh _ hpc | enter _ _ hpc | back _ _ hpc | recycle _ hpc
  | drop hpc | quit hpc => exact h.outside rfl rfl (by rw [hpc]; rfl) rfl

theorem Counted.leave (h : s.Counted) (hs : s.Leaves w t) (hidle : t.idle = s.idle) :
    t.Counted := by
  rcases hs with rfl | ⟨b, f, st, hpc, hto, -⟩
  · exact h
  · exact h.outside hto hidle (by rw [hpc]; rfl) rfl

theorem Counted.idleOut (h : s.Counted) {o : IdleOut} (hs : s.idleOutStep w o = some t) :
    t.Counted := by
  obtain ⟨hpc, rfl⟩ := idleOutStep_cases hs
  apply h.goto rfl
  rw [hpc]
  simp [Pc.isIdling]

omit [DecidableEq W] in
/-- When the counter is not positive, no worker is inside of its idle fiber. -/
theorem Counted.not_idling (h : s.Counted) (hz : ¬ s.idle > 0) (w : W) : s.pc w ≠ .idling := by
  intro hw
  have hone : 1 ≤ tally Pc.isIdling s.pc := one_le_tally (i := w) (by rw [hw]; rfl)
  rw [← h] at hone
  omega

/-- A scan that takes nothing and sees no task for another thread has seen tasks that run. -/
theorem exists_executing {st : FiberId → FiberState} {fibers : List FiberAndThread}
    (hne : fibers ≠ []) (hn : (scan st tid fibers).taken = none)
    (ht : (scan st tid fibers).tickleMe = false) : ∃ f, st f = .exec := by
  cases fibers with
  | nil => exact absurd rfl hne
  | cons e es =>
    rw [scan] at hn ht
    split_ifs at hn ht with ho hx
    unfold executing at hx
    split at hx
    · next f _ => exact ⟨f, by simpa using hx⟩
    · cases hx

end Sys

/-! ## What is under way -/

namespace Wake

variable {W E : Type}

/-- A thread that waits for the pipe will return. -/
def Coming (s : Wake W E) : Prop := s.ready = true ∧ 0 < s.bytes

/-- A thread has a `tickle()` to make. -/
def Owes (s : Wake W E) : Prop := ∃ a, s.owed a ≠ .nothing

def Scans (s : Wake W E) : Prop := ∃ w, (s.sys.pc w).scans (s.nap w) = true

def Asks (s : Wake W E) : Prop := ∃ w, (s.sys.pc w).asks (s.nap w) = true

/-- A worker sleeps, or is about to, with a deadline of at most `x`. -/
def Due (s : Wake W E) (x : UInt64) : Prop :=
  ∃ w d, s.sys.pc w = .idling ∧ (s.nap w).deadline = some (some d) ∧ d ≤ x

/-- A worker will be woken, or asks for the first timer before it sleeps. -/
def Stirs (s : Wake W E) : Prop := s.Coming ∨ s.Owes ∨ s.Asks

variable {s t : Wake W E} {w : W} {a : W ⊕ E}

theorem asks_of (hleft : s.sys.pc w ≠ .left)
    (hn : s.sys.pc w = .idling → (s.nap w).deadline = none) : s.Asks :=
  ⟨w, Pc.asks_of_ne hleft _ hn⟩

theorem woken_deadline {n : Nap} (h : n.woken = true) : n.deadline = none := by
  cases n <;> first | rfl | cases h

theorem Free.owed (h : s.Free a ∨ s.Handles a) : s.owed a = .nothing := h.elim And.left And.left

/-- No worker has left, the fibers that run are in the charge of workers, and the idle ones are
counted. -/
structure Workers [Fintype W] (s : Wake W E) : Prop where
  charged : s.sys.Charged
  staying : ∀ w, ¬ s.sys.Ended w
  counted : s.sys.Counted

/-- While `m_tickled` is set something is under way, and the first timer has something under way or a
worker that sleeps no longer than until its deadline. -/
structure Timed (s : Wake W E) : Prop where
  filed : s.timers.Filed
  tickled : s.timers.tickled = true → s.Stirs
  front : ∀ a, s.timers.timers.head? = some a → s.Stirs ∨ s.Due (s.timers.obj a).next

theorem Timed.start (now : UInt64) : (start now : Wake W E).Timed where
  filed := .start
  tickled h := by cases h
  front _ h := by cases h

/-- A worker is awake, whatever has become of the timers. -/
theorem Timed.of_asks (hf : t.timers.Filed) (h : t.Asks) : t.Timed :=
  ⟨hf, fun _ => .inr (.inr h), fun _ _ => .inl (.inr (.inr h))⟩

/-- The timers are as they were, and so are the workers. -/
theorem Timed.mono (h : s.Timed) (ht : t.timers = s.timers) (hstirs : s.Stirs → t.Stirs)
    (hdue : ∀ x, s.Due x → t.Stirs ∨ t.Due x) : t.Timed := by
  refine ⟨?_, ?_, ?_⟩ <;> rw [ht]
  · exact h.filed
  · exact fun hb => hstirs (h.tickled hb)
  · intro a ha
    rcases h.front a ha with hs | hd
    · exact .inl (hstirs hs)
    · exact hdue _ hd

theorem Workers.start [Fintype W] (now : UInt64) : (start now : Wake W E).Workers where
  charged := fun _ h => by cases h
  staying := fun _ h => by rcases h with h | h <;> cases h
  counted := by
    unfold Sys.Counted
    exact ((tally_eq_zero_iff _ _).2 fun _ => rfl).symm

/-- A worker is awake whenever none counts as idle. -/
theorem Workers.asks_of_idle [Fintype W] [Nonempty W] (h : s.Workers) (hz : ¬ s.sys.idle > 0) : s.Asks := by
  obtain ⟨w⟩ := ‹Nonempty W›
  apply asks_of (w := w)
  · exact fun hc => h.staying w (.inr hc)
  · exact fun hc => absurd hc (h.counted.not_idling hz w)

variable [DecidableEq W] [DecidableEq E] {tid : W → ℤ} {l : WakeLabel W E}

/-- The threads that owe a `tickle()` still do when another one is done with its step. -/
theorem Owes.owe (h : s.Owes) (ha : s.owed a = .nothing) (b : Bool) : (s.owe a b).Owes := by
  obtain ⟨c, hc⟩ := h
  have hca : c ≠ a := fun he => hc (he ▸ ha)
  refine ⟨c, ?_⟩
  rwa [show (s.owe a b).owed c = s.owed c from Function.update_of_ne hca _ _]

theorem owes_of_owe (s : Wake W E) (a : W ⊕ E) : (s.owe a true).Owes :=
  ⟨a, by rw [show (s.owe a true).owed a = .look from Function.update_self ..]; rintro ⟨⟩⟩

theorem owes_of_update (s : Wake W E) (a : W ⊕ E) {o : Owed} (ho : o ≠ .nothing) :
    Owes { s with owed := Function.update s.owed a o } :=
  ⟨a, by dsimp only; rwa [Function.update_self]⟩

theorem Timed.timer {o : TimerOp} {u : TimerManager} (h : s.Timed) (ha : s.owed a = .nothing)
    (ho : ∀ now, o ≠ .getNextTimer now ∧ ∀ tmp, o ≠ .listExpiredCb now tmp)
    (hoff : s.timers.PutsOff o) (hu : s.timers.step o = some u) :
    (owe { s with timers := u } a (u.tickled && !s.timers.tickled)).Timed := by
  have hmono : s.Stirs → (owe { s with timers := u } a (u.tickled && !s.timers.tickled)).Stirs :=
    Or.imp id (Or.imp (fun h => Owes.owe (s := { s with timers := u }) h ha _) id)
  have htickled : u.tickled = true →
      (owe { s with timers := u } a (u.tickled && !s.timers.tickled)).Stirs := by
    intro hb
    cases hst : s.timers.tickled with
    | true =>
      rw [← hst]
      exact hmono (h.tickled hst)
    | false =>
      rw [hb]
      exact .inr (.inl (owes_of_owe _ a))
  refine ⟨h.filed.step hu, htickled, fun b hb => ?_⟩
  rcases h.filed.front_step ho hoff hu with ht | hle
  · exact .inl (htickled ht)
  · obtain ⟨c, hc, hcb⟩ := hle b hb
    rcases h.front c hc with hs | ⟨w, d, hpc, hd, hdc⟩
    · exact .inl (hmono hs)
    · exact .inr ⟨w, d, hpc, hd, UInt64.le_trans hdc hcb⟩

/-- A clock that does not go back, as far as `refresh` reads it. -/
def Onward (s : Wake W E) : WakeLabel W E → Prop
  | .timer _ o => s.timers.PutsOff o
  | _ => True

instance (s : Wake W E) (l : WakeLabel W E) : Decidable (s.Onward l) := by
  cases l <;> unfold Onward <;> infer_instance

/-! ## The steps -/

variable [Fintype W]

theorem Workers.step (h : s.Workers) (hs : Step tid s l t) : t.Workers := by
  cases hs with
  | run w u ha hu =>
    exact ⟨h.charged.run hu, fun v hv => h.staying v (hu.ended hv), h.counted.run hu⟩
  | leave l w u hu hidle =>
    refine ⟨?_, ?_, h.counted.leave hu hidle⟩
    · rcases hu with rfl | ⟨b, f, st, hpc, hto, hst, -, -⟩
      · exact h.charged
      · refine h.charged.act hto fun g hg => ?_
        by_cases hgf : g = f
        · exact .inl (by simp [Pc.inCharge, hgf])
        · rw [hst, Function.update_of_ne hgf] at hg
          rw [hpc]
          exact .inr ⟨hg, by simp [Pc.inCharge, Ne.symm hgf]⟩
    · rcases hu with rfl | ⟨b, f, st, hpc, hto, -, -, hif⟩
      · exact h.staying
      · intro v hv
        exact h.staying v (hv.of_update hto (fun x hx => by rwa [hif] at hx) (by rintro ⟨⟩))
  | push l a fts hfree => exact ⟨h.charged, h.staying, h.counted⟩
  | newFiber a c =>
    exact ⟨fun f hf => h.charged f (Sys.exec_of_update hf (by rintro ⟨⟩)).2, h.staying, h.counted⟩
  | timer a o u hfree ho hu => exact ⟨h.charged, h.staying, h.counted⟩
  | look a ha => exact ⟨h.charged, h.staying, h.counted⟩
  | send a ha => exact ⟨h.charged, h.staying, h.counted⟩
  | nextTimer w now hpc hn => exact ⟨h.charged, h.staying, h.counted⟩
  | sleep w d hpc hn => exact ⟨h.charged, h.staying, h.counted⟩
  | stale w hb => exact ⟨h.charged, h.staying, h.counted⟩
  | woken l w t hpc hsys hnap htimers =>
    constructor <;> rw [hsys]
    exacts [h.charged, h.staying, h.counted]
  | swapOut w u hu =>
    obtain ⟨hpc, he⟩ := Sys.idleOutStep_cases hu
    refine ⟨?_, ?_, h.counted.idleOut hu⟩ <;> subst he
    · exact h.charged.goto rfl rfl fun f _ hf => by rw [hpc] at hf; cases hf
    · intro v hv
      exact h.staying v (hv.of_update rfl (fun x hx => (Sys.term_of_update hx (by rintro ⟨⟩)).2)
        (by rintro ⟨⟩))

theorem Timed.step [Nonempty W] (h : s.Timed) (hw : s.Workers) (hok : s.Onward l)
    (hs : Step tid s l t) : t.Timed := by
  have hw' := hw.step hs
  cases hs with
  | run w u ha hu =>
    refine Timed.of_asks h.filed (asks_of (w := w) (fun hc => hw'.staying w (.inr hc)) fun _ => ?_)
    show (Function.update s.nap w .ask w).deadline = none
    rw [Function.update_self]
    rfl
  | leave l w u hu hidle =>
    rcases hu with rfl | ⟨b, f, st, hpc, hto, -⟩
    · exact ⟨h.filed, h.tickled, h.front⟩
    · have hpc' : u.pc w = .leave b f := by rw [hto, Function.update_self]
      refine Timed.of_asks h.filed (asks_of (w := w) ?_ ?_) <;> intro hc <;> cases hpc'.symm.trans hc
  | push l a fts hfree =>
    have ha := Free.owed hfree
    exact h.mono rfl
      (Or.imp id (Or.imp (fun ho => Owes.owe (s := { s with sys := { s.sys with fibers := _ } }) ho ha _) id))
      fun _ hd => .inr hd
  | newFiber a c => exact ⟨h.filed, h.tickled, h.front⟩
  | timer a o u hfree ho hu => exact h.timer hfree.1 ho hok hu
  | look a ha =>
    by_cases hz : s.sys.idle > 0
    · have howes := owes_of_update s a (o := if s.sys.idle > 0 then .send else .nothing)
        (by rw [if_pos hz]; rintro ⟨⟩)
      exact h.mono rfl (fun _ => .inr (.inl howes)) fun _ hd => .inr hd
    · exact Timed.of_asks h.filed (hw.asks_of_idle hz)
  | send a ha =>
    exact h.mono rfl (fun _ => .inl ⟨rfl, Nat.succ_pos _⟩) fun _ hd => .inr hd
  | nextTimer w now hpc hn =>
    have hfst := s.timers.getNextTimer_fst now
    refine ⟨h.filed.step (o := .getNextTimer now) rfl, fun hb => ?_, fun a ha => .inr ?_⟩
    · change (s.timers.getNextTimer now).1.tickled = true at hb
      rw [hfst] at hb
      cases hb
    · change (s.timers.getNextTimer now).1.timers.head? = some a at ha
      rw [hfst] at ha
      refine ⟨w, (s.timers.obj a).next, hpc, ?_, ?_⟩
      · show (Function.update s.nap w _ w).deadline = _
        rw [Function.update_self, show s.timers.timers.head? = some a from ha]
        rfl
      · show (s.timers.obj a).next ≤ ((s.timers.getNextTimer now).1.obj a).next
        rw [hfst]
        exact UInt64.le_refl _
  | sleep w d hpc hn =>
    have hdl : ∀ v, (Function.update s.nap w (.asleep d) v).deadline = (s.nap v).deadline := by
      intro v
      by_cases hvw : v = w
      · rw [hvw, Function.update_self, hn]
        rfl
      · rw [Function.update_of_ne hvw]
    refine h.mono rfl (Or.imp id (Or.imp id ?_)) ?_
    · rintro ⟨v, hv⟩
      refine ⟨v, ?_⟩
      show Pc.asks (Function.update s.nap w (.asleep d) v) (s.sys.pc v) = true
      revert hv
      cases s.sys.pc v <;> first | exact id | (unfold Pc.asks; dsimp only; rw [hdl]; exact id)
    · rintro x ⟨v, y, hv, hy, hle⟩
      exact .inr ⟨v, y, hv, (hdl v).trans hy, hle⟩
  | stale w hb =>
    refine h.mono rfl (Or.imp (fun hc => ?_) id) fun _ hd => .inr hd
    exact absurd hc.2 (by omega)
  | woken l w t hpc hsys hnap htimers =>
    have hf : t.timers.Filed := by
      rcases htimers with he | ⟨now, tmp, he⟩
      · rw [he]
        exact h.filed
      · exact h.filed.step he
    obtain ⟨n, hn, hto⟩ := hnap
    refine Timed.of_asks hf (asks_of (w := w) (fun hc => hw'.staying w (.inr hc)) fun _ => ?_)
    rw [hto, Function.update_self]
    exact woken_deadline hn
  | swapOut w u hu =>
    obtain ⟨-, rfl⟩ := Sys.idleOutStep_cases hu
    refine Timed.of_asks h.filed (asks_of (w := w) (fun hc => hw'.staying w (.inr hc)) fun hc => ?_)
    change Function.update s.sys.pc w .scan w = .idling at hc
    rw [Function.update_self] at hc
    cases hc

/-- **No timer is overslept**: in every run, while a timer is in the set, a wake-up is in the pipe or
owed, or a worker asks for the first timer before it sleeps, or one sleeps no longer than until the
deadline of the first timer. -/
theorem no_timer_overslept [Nonempty W] (tid : W → ℤ) {now : UInt64} {s : Wake W E}
    (hr : Reach (step tid) Onward (start now) s) {a : Addr}
    (ha : s.timers.timers.head? = some a) :
    s.Coming ∨ s.Owes ∨ s.Asks ∨ s.Due (s.timers.obj a).next := by
  have hinv : s.Workers ∧ s.Timed := by
    apply hr.invariant (I := fun s => s.Workers ∧ s.Timed) ⟨Workers.start now, Timed.start now⟩
    intro t l u h hok hs
    exact ⟨h.1.step (step_cases hs), h.2.step h.1 hok (step_cases hs)⟩
  rcases hinv.2.front a ha with (h | h | h) | h
  · exact .inl h
  · exact .inr (.inl h)
  · exact .inr (.inr (.inl h))
  · exact .inr (.inr (.inr h))

/-- One worker sleeps without a deadline while a timer is added. -/
theorem no_timer_overslept_one : ∃ s : Wake (Fin 1) Unit, s.timers.timers.head? = some 3 ∧
    s.nap 0 = .asleep none ∧ s.owed (.inr ()) = .look ∧
      (s.Coming ∨ s.Owes ∨ s.Asks ∨ s.Due (s.timers.obj 3).next) := by
  have hr := reach_exec (step fun w : Fin 1 => (w.val : ℤ)) (Onward (E := Unit)) (start 0)
    [.run 0, .run 0, .nextTimer 0 5, .sleep 0, .timer (.inr ()) (.addTimer 9 3 40 (some 7) false)]
    (by decide)
  exact ⟨_, by decide, by decide, by decide, no_timer_overslept _ hr (by decide)⟩

/-! ## Tasks -/

/-- While a task is queued, a wake-up is in the pipe or owed, or a worker scans the queue before it
sleeps. -/
def Noticed (s : Wake W E) : Prop := s.sys.fibers ≠ [] → s.Coming ∨ s.Owes ∨ s.Scans

/-- A tickle looks at `m_idleThreadCount` while some worker is not between a scan that took nothing
and `++m_idleThreadCount`. -/
def OutsideWindow (s : Wake W E) : WakeLabel W E → Prop
  | .look _ => ∃ w, s.sys.pc w ≠ .idleTest
  | _ => True

instance (s : Wake W E) (l : WakeLabel W E) : Decidable (s.OutsideWindow l) := by
  cases l <;> unfold OutsideWindow <;> infer_instance

omit [DecidableEq W] [DecidableEq E] [Fintype W] in
theorem scans_of (hleft : s.sys.pc w ≠ .left) (htest : s.sys.pc w ≠ .idleTest)
    (hidle : s.sys.pc w ≠ .idling) : s.Scans :=
  ⟨w, Pc.scans_of_ne hleft htest hidle _⟩

omit [DecidableEq W] [DecidableEq E] [Fintype W] in
/-- A worker that is in charge of a fiber scans the queue once it is done with it. -/
theorem scans_of_inCharge {f : FiberId} (h : (s.sys.pc w).inCharge f = true) : s.Scans := by
  refine ⟨w, ?_⟩
  revert h
  cases s.sys.pc w <;> first | exact fun _ => rfl | rintro ⟨⟩

omit [DecidableEq W] [DecidableEq E] [Fintype W] in
/-- The workers other than `w` are where they were, and `w` was not on the way to a scan. -/
theorem Scans.mono (h : s.Scans) (hw : (s.sys.pc w).scans (s.nap w) = false)
    (hpc : ∀ v, v ≠ w → t.sys.pc v = s.sys.pc v) (hnap : ∀ v, v ≠ w → t.nap v = s.nap v) :
    t.Scans := by
  obtain ⟨v, hv⟩ := h
  have hvw : v ≠ w := by
    rintro rfl
    rw [hw] at hv
    cases hv
  refine ⟨v, ?_⟩
  rwa [hpc v hvw, hnap v hvw]

/-- The range was appended to a queue that was not empty, or there is a `tickle()` to make. -/
theorem scheduleRange_tickle (fibers : List FiberAndThread) (b : Bool) (fts : List FiberAndThread)
    (h : (scheduleRange fibers b fts).2 = false) (hne : (scheduleRange fibers b fts).1 ≠ []) :
    fibers ≠ [] := by
  have htrue : ∀ (fibers fts : List FiberAndThread), (scheduleRange fibers true fts).2 = true := by
    intro fibers fts
    induction fts generalizing fibers with
    | nil => rfl
    | cons ft fts ih =>
      rw [scheduleRange, Bool.or_true]
      exact ih _
  cases fts with
  | nil => exact hne
  | cons ft fts =>
    rintro rfl
    exact Bool.false_ne_true (h.symm.trans (htrue _ fts))

section

variable {u : Sys W}

/-- The state after a statement of `run()` that has led to `u`. -/
abbrev ran (tid : W → ℤ) (s : Wake W E) (w : W) (u : Sys W) : Wake W E :=
  (setNap { s with sys := u } w .ask).owe (.inl w) (s.sys.tickles (tid w) w)

/-- A scan that takes nothing from a queue with tasks sees one for another thread, or one that a
worker executes. -/
theorem ran_nothing (hw : s.Workers) (ha : s.owed (.inl w) = .nothing) (hpc : s.sys.pc w = .scan)
    (ht : (scan s.sys.state (tid w) s.sys.fibers).taken = none) (hne : s.sys.fibers ≠ [])
    (hu : ∀ v, v ≠ w → u.pc v = s.sys.pc v) : (ran tid s w u).Owes ∨ (ran tid s w u).Scans := by
  cases hb : (scan s.sys.state (tid w) s.sys.fibers).tickleMe with
  | true =>
    left
    have htickles : s.sys.tickles (tid w) w = true := by rw [Sys.tickles, hpc, hb]
    unfold ran
    rw [htickles]
    exact owes_of_owe _ _
  | false =>
    right
    obtain ⟨f, hf⟩ := Sys.exists_executing hne ht hb
    obtain ⟨v, hv⟩ := hw.charged f hf
    have hvw : v ≠ w := by
      rintro rfl
      rw [hpc] at hv
      cases hv
    apply scans_of_inCharge (w := v) (f := f)
    exact (congrArg (Pc.inCharge f) (hu v hvw)).trans hv

omit [Fintype W] in
theorem ran_keeps (h : s.Coming ∨ s.Owes ∨ s.Scans) (ha : s.owed (.inl w) = .nothing)
    (hscans : s.Scans → (ran tid s w u).Scans) :
    (ran tid s w u).Coming ∨ (ran tid s w u).Owes ∨ (ran tid s w u).Scans :=
  h.imp id (Or.imp (fun ho => Owes.owe (s := setNap { s with sys := u } w .ask) ho ha _) hscans)

/-- A statement of `run()`. -/
theorem Noticed.run (h : s.Noticed) (hw : s.Workers) (hstay : ∀ v, ¬ u.Ended v)
    (hu : Sys.RunStep s.sys (tid w) w u) (ha : s.owed (.inl w) = .nothing) :
    (ran tid s w u).Noticed := by
  intro hne
  have hself : ∀ {q : Pc}, u.pc = Function.update s.sys.pc w q → q ≠ .idleTest → q ≠ .idling →
      (ran tid s w u).Coming ∨ (ran tid s w u).Owes ∨ (ran tid s w u).Scans := by
    intro q hpc htest hidle
    have hq : u.pc w = q := by rw [hpc, Function.update_self]
    exact .inr (.inr (scans_of (w := w) (fun hc => hstay w (.inr hc)) (hq ▸ htest) (hq ▸ hidle)))
  have hidling : ∀ {q : Pc}, q.isIdling = false → q ≠ .idling := by
    rintro q hq rfl
    cases hq
  cases hu with
  | take ft hpc ht =>
    exact hself rfl (Sys.dispatch_target ft).2 (hidling (Sys.dispatch_isIdling ft))
  | nothing hpc ht =>
    have hspec := scan_spec s.sys.state (tid w) s.sys.fibers
    change (scan s.sys.state (tid w) s.sys.fibers).fibers ≠ [] at hne
    have hrest : (scan s.sys.state (tid w) s.sys.fibers).fibers = s.sys.fibers := by
      rw [ht] at hspec
      generalize (scan s.sys.state (tid w) s.sys.fibers).fibers = rest at hspec
      cases hspec with
      | nothing hn => rfl
    rw [hrest] at hne
    exact .inr (ran_nothing hw ha hpc ht hne fun v hv => Function.update_of_ne hv _ _)
  | jump p hj => exact hself rfl hj.target.2 (hidling hj.isIdling.2)
  | reuse c f hpc hcb hst => exact hself rfl (by rintro ⟨⟩) (by rintro ⟨⟩)
  | fresh c hpc hcb => exact hself rfl (by rintro ⟨⟩) (by rintro ⟨⟩)
  | enter b f hpc => exact hself rfl (by rintro ⟨⟩) (by rintro ⟨⟩)
  | back b f hpc => exact hself rfl (by rintro ⟨⟩) (by rintro ⟨⟩)
  | requeue b f hpc => exact hself (Sys.release_pc _ b) (by rintro ⟨⟩) (by rintro ⟨⟩)
  | recycle f hpc hst => exact hself rfl (by rintro ⟨⟩) (by rintro ⟨⟩)
  | hold b f hpc => exact hself (Sys.release_pc _ b) (by rintro ⟨⟩) (by rintro ⟨⟩)
  | drop hpc => exact hself rfl (by rintro ⟨⟩) (by rintro ⟨⟩)
  | quit hpc hi => exact absurd (.inl hi) (hw.staying w)
  | idle hpc hi =>
    refine ran_keeps (h hne) ha fun hs => hs.mono (w := w) (by rw [hpc]; rfl) ?_ ?_
    · exact fun v hv => Function.update_of_ne hv _ _
    · exact fun v hv => Function.update_of_ne hv _ _
  | fail hf =>
    refine ran_keeps (h hne) ha fun ⟨v, hv⟩ => ⟨v, ?_⟩
    by_cases hvw : v = w
    · subst hvw
      show (s.sys.pc v).scans _ = true
      generalize s.sys.pc v = p, s.sys.cbFiber v = c at hf hv ⊢
      cases hf <;> first | rfl | exact hv
    · show (s.sys.pc v).scans (Function.update s.nap w .ask v) = true
      rwa [Function.update_of_ne hvw]

end

theorem Noticed.step [Nonempty W] (h : s.Noticed) (hw : s.Workers) (hok : s.OutsideWindow l)
    (hs : Step tid s l t) : t.Noticed := by
  have hw' := hw.step hs
  cases hs with
  | run w u ha hu => exact h.run hw hw'.staying hu ha
  | leave l w u hu hidle =>
    intro hne
    rcases hu with rfl | ⟨b, f, st, hpc, hto, -⟩
    · exact h hne
    · refine .inr (.inr (scans_of (w := w) ?_ ?_ ?_)) <;> dsimp only <;>
        rw [hto, Function.update_self] <;> rintro ⟨⟩
  | push l a fts hfree =>
    intro hne
    cases hb : (scheduleRange s.sys.fibers false fts).2 with
    | true =>
      right
      left
      unfold push
      rw [hb]
      exact owes_of_owe _ a
    | false =>
      have ho : s.Owes → (s.push a (scheduleRange s.sys.fibers false fts)).Owes := fun ho =>
        Owes.owe (s := { s with sys := { s.sys with fibers := _ } }) ho (Free.owed hfree) _
      exact (h (scheduleRange_tickle _ _ _ hb hne)).imp id (Or.imp ho id)
  | newFiber a c => exact h
  | timer a o u hfree ho hu =>
    intro hne
    exact (h hne).imp id
      (Or.imp (fun ho => Owes.owe (s := { s with timers := u }) ho hfree.1 _) id)
  | look a ha =>
    intro hne
    right
    by_cases hz : s.sys.idle > 0
    · exact .inl (owes_of_update s a (by rw [if_pos hz]; rintro ⟨⟩))
    · obtain ⟨v, hv⟩ := hok
      exact .inr (scans_of (w := v) (fun hc => hw.staying v (.inr hc)) hv
        (hw.counted.not_idling hz v))
  | send a ha => exact fun _ => .inl ⟨rfl, Nat.succ_pos _⟩
  | nextTimer w now hpc hn =>
    intro hne
    refine (h hne).imp id (Or.imp id fun hs => hs.mono (w := w) (by rw [hpc, hn]; rfl) ?_ ?_)
    · exact fun v _ => rfl
    · exact fun v hv => Function.update_of_ne hv _ _
  | sleep w d hpc hn =>
    intro hne
    refine (h hne).imp id (Or.imp id fun hs => hs.mono (w := w) (by rw [hpc, hn]; rfl) ?_ ?_)
    · exact fun v _ => rfl
    · exact fun v hv => Function.update_of_ne hv _ _
  | stale w hb =>
    intro hne
    refine (h hne).imp (fun hc => ?_) id
    exact absurd hc.2 (by omega)
  | woken l w t hpc hsys hnap htimers =>
    intro _
    obtain ⟨n, hn, hto⟩ := hnap
    refine .inr (.inr ⟨w, ?_⟩)
    rw [hto, Function.update_self, hsys]
    show (s.sys.pc w).scans n = true
    rw [hpc]
    exact hn
  | swapOut w u hu =>
    intro _
    obtain ⟨-, rfl⟩ := Sys.idleOutStep_cases hu
    refine .inr (.inr (scans_of (w := w) ?_ ?_ ?_)) <;>
      (change Function.update s.sys.pc w .scan w ≠ _; rw [Function.update_self]; rintro ⟨⟩)

/-- **No task is left unnoticed**: in every run in which no tickle looks at `m_idleThreadCount` while
all workers are between a scan that took nothing and `++m_idleThreadCount`, a wake-up is in the pipe
or owed, or a worker scans the queue before it sleeps, as long as a task is queued. -/
theorem no_task_unnoticed [Nonempty W] (tid : W → ℤ) {now : UInt64} {s : Wake W E}
    (hr : Reach (step tid) OutsideWindow (start now) s) (hne : s.sys.fibers ≠ []) :
    s.Coming ∨ s.Owes ∨ s.Scans := by
  have hinv : s.Workers ∧ s.Noticed := by
    apply hr.invariant (I := fun s => s.Workers ∧ s.Noticed) ⟨Workers.start now, absurd rfl⟩
    intro t l u h hok hs
    exact ⟨h.1.step (step_cases hs), h.2.step h.1 hok (step_cases hs)⟩
  exact hinv.2 hne

/-- Two workers; one is asleep, and a callback is scheduled while the other is on its way there. -/
theorem no_task_unnoticed_two : ∃ s : Wake (Fin 2) Unit, s.sys.fibers = [.ofCb (some 7) (-1)] ∧
    s.owed (.inr ()) = .send ∧ (s.Coming ∨ s.Owes ∨ s.Scans) := by
  have hr := reach_exec (step fun w : Fin 2 => (w.val : ℤ)) (OutsideWindow (E := Unit)) (start 0)
    [.run 0, .run 0, .nextTimer 0 5, .sleep 0, .run 1, .schedule (.inr ()) (.ofCb (some 7) (-1)),
      .look (.inr ())] (by decide)
  exact ⟨_, by decide, by decide, no_task_unnoticed _ hr (by decide)⟩

/-- One worker. The task is scheduled, and `m_idleThreadCount` read, between the scan of the worker
and its `++m_idleThreadCount`; the worker goes to sleep for three seconds. -/
theorem task_unnoticed : ¬∀ (tid : Fin 1 → ℤ) (now : UInt64) (s : Wake (Fin 1) Unit),
    Reach (step tid) free (start now) s → s.sys.fibers ≠ [] → s.Coming ∨ s.Owes ∨ s.Scans := by
  intro hall
  have hr := reach_exec (step fun w : Fin 1 => (w.val : ℤ)) (free (σ := Wake (Fin 1) Unit)) (start 0)
    [.run 0, .schedule (.inr ()) (.ofCb (some 7) (-1)), .look (.inr ()), .run 0, .nextTimer 0 5,
      .sleep 0] (by decide)
  have h := hall _ _ _ hr (by decide)
  unfold Coming Owes Scans at h
  exact absurd h (by decide)

end Wake

end CoroutineScheduler
