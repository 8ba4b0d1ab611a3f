import CoroutineScheduler.Hook.DoIo

/-!
# What a step does

For each step of the machine of hooked calls: what it does to the calls, callbacks and timers
(`StepCases`), what it asks of the event machine (`ConcCases`), and which system calls it makes
(`SysCases`). The invariants of the following modules are proved from `step_spec`, and not from the
definition of the step.
-/

namespace CoroutineScheduler

namespace Conc

variable {T : Type} [DecidableEq T] {c c' : Conc T} {v : T} {e : EventCall}

theorem step_call (h : c.step (.call v e) = some c') : c.pc v = .out ∧ c' = c.callStep v e := by
  unfold Conc.step at h
  split_ifs at h
  simp only at h
  split_ifs at h with hpc
  exact ⟨hpc, (Option.some.inj h).symm⟩

theorem callStep_of_some {p : Ptr} (hl : c.mgr.lookup e.fd = some p) :
    c.callStep v e = c.goto v (.found p e) := by
  unfold callStep
  rw [hl, Option.elim_some]

/-- A call that ends at the look-up has found no context. -/
theorem lookup_of_out (hout : (c.callStep v e).pc v = .out) : c.mgr.lookup e.fd = none := by
  by_contra hne
  obtain ⟨p, hp⟩ := Option.ne_none_iff_exists'.1 hne
  rw [callStep_of_some hp] at hout
  simp only [goto, Function.update_self, reduceCtorEq] at hout

theorem callStep_of_none (hl : c.mgr.lookup e.fd = none)
    (he : ∀ fd ev cb who, e ≠ .addEvent fd ev cb who) : c.callStep v e = c := by
  unfold callStep
  rw [hl, Option.elim_none]
  split
  · next fd ev cb who => exact absurd rfl (he fd ev cb who)
  · rfl

/-- A call other than `addEvent` that does not end at the look-up has found a context. -/
theorem lookup_of_not_out (hpc : c.pc v = .out) (hout : (c.callStep v e).pc v ≠ .out)
    (he : ∀ fd ev cb who, e ≠ .addEvent fd ev cb who) : ∃ p, c.mgr.lookup e.fd = some p := by
  by_contra hne
  have hl : c.mgr.lookup e.fd = none := by
    rw [← Option.not_isSome_iff_eq_none, Option.isSome_iff_exists]
    exact hne
  rw [callStep_of_none hl he] at hout
  exact hout hpc

end Conc

namespace Hook

variable {T : Type}

/-! ## Calls and callbacks -/

/-- The steps that a call makes by itself; the last argument is the call afterwards. -/
inductive OwnStep (s : Hook T) : HookLabel T → FiberId → IoCall → Prop
  | begin {f : FiberId} {args : IoArgs} {hook : Bool} {ms : UInt64} (h : (s.call f).pc = .ready) :
      OwnStep s (.begin f args hook) f
        { pc := s.entry args hook, args := args, toMs := ms, epoch := s.closes args.fd }
  | direct {f : FiberId} {r : SysResult} (h : (s.call f).pc = .direct) :
      OwnStep s (.sys f r) f { s.call f with pc := .done r }
  | call {f : FiberId} {r : SysResult} (h : (s.call f).pc = .call) :
      OwnStep s (.sys f r) f { s.call f with pc := afterCall (s.call f).args r }
  | sockopt {f : FiberId} {r : SysResult} (h : (s.call f).pc = .sockopt) :
      OwnStep s (.sys f r) f { s.call f with pc := .done r }
  | noTimer {f : FiberId} {now : UInt64} {a : Addr} {k : Callback} (h : (s.call f).pc = .arm)
      (hto : (s.call f).toMs = ~~~0) :
      OwnStep s (.arm f now a k) f { s.call f with pc := .add, timer := none }
  | add {f : FiberId} (h : (s.call f).pc = .add) :
      OwnStep s (.add f) f { s.call f with pc := .adding }
  | added {f : FiberId} {ok : Bool} {p : Ptr} {fd : ℕ} {e : Event} {cb : Option Callback}
      {who : Caller} {m : IOManager} {rt : ℤ} (h : (s.call f).pc = .adding)
      (hc : s.conc.pc (.fiber f) = .found p (.addEvent fd e cb who))
      (hr : s.conc.mgr.addEventLocked p fd e cb who ok = some (m, rt)) :
      OwnStep s (.addLock f ok) f
        { s.call f with pc := if rt = 0 then .yield else .addFailed }
  | yield {f : FiberId} (h : (s.call f).pc = .yield) :
      OwnStep s (.yield f) f { s.call f with pc := .suspended }
  | resume {f : FiberId} (h : (s.call f).pc = .suspended) :
      OwnStep s (.resume f) f { s.call f with pc := .resumed }
  | cancelTimer {f : FiberId} (h : (s.call f).pc = .resumed) :
      OwnStep s (.cancelTimer f) f { s.call f with pc := .check }
  | addFailed {f : FiberId} {pc : IoPc} (h : (s.call f).pc = .addFailed)
      (hpc : pc = if (s.call f).args.isIo then .done (.err .epollCtl) else .sockopt) :
      OwnStep s (.cancelTimer f) f { s.call f with pc := pc, timer := none }
  | timedOut {f : FiberId} (h : (s.call f).pc = .check) (hc : (s.call f).cancelled = true) :
      OwnStep s (.check f) f { s.call f with pc := .done (.err .etimedout), timer := none }
  | retry {f : FiberId} (h : (s.call f).pc = .check) (hc : (s.call f).cancelled = false)
      (hio : (s.call f).args.isIo = true) :
      OwnStep s (.check f) f
        { s.call f with pc := .call, timer := none, round := (s.call f).round + 1 }
  | connected {f : FiberId} (h : (s.call f).pc = .check) (hc : (s.call f).cancelled = false)
      (hio : (s.call f).args.isIo = false) :
      OwnStep s (.check f) f { s.call f with pc := .sockopt, timer := none }

/-- The steps of a callback `t`, with its call and its stage afterwards. -/
inductive CbMove (s : Hook T) (t : TimeoutCb) : HookLabel T → Callback → IoCall → CbStage → Prop
  | enter {k : Callback} {n : ℕ} (h : t.stage = .queued) :
      CbMove s t (.cbStart k) k { s.call t.call with holders := n } .entered
  | dead {k : Callback} (h : t.stage = .queued) (hl : (s.call t.call).pc.live = false) :
      CbMove s t (.cbStart k) k (s.call t.call) .done
  | skip {k : Callback} {n : ℕ} (h : t.stage = .entered) (hc : (s.call t.call).cancelled = true) :
      CbMove s t (.cbCheck k) k { s.call t.call with holders := n } .done
  | pass {k : Callback} (h : t.stage = .entered) (hc : (s.call t.call).cancelled = false) :
      CbMove s t (.cbCheck k) k (s.call t.call) .passed
  | set {k : Callback} (h : t.stage = .passed) :
      CbMove s t (.cbSet k) k { s.call t.call with cancelled := true } .toCancel
  | found {k : Callback} {p : Ptr} (h : t.stage = .toCancel)
      (hl : s.conc.mgr.lookup (s.call t.call).args.fd = some p) :
      CbMove s t (.cbCancel k) k (s.call t.call) .cancelling
  | missed {k : Callback} {n : ℕ} (h : t.stage = .toCancel) (hpc : s.conc.pc (.timeout k) = .out)
      (hl : s.conc.mgr.lookup (s.call t.call).args.fd = none) :
      CbMove s t (.cbCancel k) k { s.call t.call with holders := n } .done
  | finish {k : Callback} {ok : Bool} {n : ℕ} (h : t.stage = .cancelling) :
      CbMove s t (.cbLock k ok) k { s.call t.call with holders := n } .done

/-- The timers after a step that a call makes by itself. -/
def timersAfter (s : Hook T) : HookLabel T → TimerManager
  | .cancelTimer f => (s.call f).timer.elim s.timers fun p => (s.timers.cancel p).1
  | _ => s.timers

/-- What a step does to the calls, the callbacks and the timers. -/
inductive StepCases (s : Hook T) (a : HookLabel T) (u : Hook T) : Prop
  | frame (hcall : u.call = s.call) (hcb : u.cb = s.cb) (htimers : u.timers = s.timers)
  | own {f : FiberId} {c : IoCall} (h : OwnStep s a f c) (hcall : u.call = Function.update s.call f c)
      (hcb : u.cb = s.cb) (htimers : u.timers = s.timersAfter a)
  | armed {f : FiberId} {now : UInt64} {p : Addr} {k : Callback} (ha : a = .arm f now p k)
      (hpc : (s.call f).pc = .arm) (hk : s.cb k = .unused) (hlive : s.timers.live p = false)
      (hcall : u.call = Function.update s.call f
        { s.call f with pc := .add, timer := some p, armed := k :: (s.call f).armed })
      (hcb : u.cb = Function.update s.cb k
        (.timeout { call := f, round := (s.call f).round, next := now + (s.call f).toMs }))
      (htimers : u.timers = (s.timers.addTimer now p (s.call f).toMs (some k) false).1)
  | expired {now : UInt64} {tmp : Addr} (ha : a = .expire now tmp) (hcall : u.call = s.call)
      (hlive : s.timers.live tmp = false)
      (hcb : u.cb = s.takeOut now (s.timers.listExpiredCb now tmp).2)
      (htimers : u.timers = (s.timers.listExpiredCb now tmp).1)
  | callback {k : Callback} {t : TimeoutCb} {c : IoCall} {stage : CbStage} (hk : s.cb k = .timeout t)
      (hm : CbMove s t a k c stage) (hcall : u.call = Function.update s.call t.call c)
      (hcb : u.cb = Function.update s.cb k (.timeout { t with stage := stage }))
      (htimers : u.timers = s.timers)
  | foreign {o : TimerOp} (hal : s.allows o = true) (hcall : u.call = s.call)
      (hcb : u.cb = s.cbAfter o) (htimers : s.timers.step o = some u.timers)

theorem takeOut_timeout {s : Hook T} {now : UInt64} {cbs : List (Option Callback)} {k : Callback}
    {t : TimeoutCb} (h : s.takeOut now cbs k = .timeout t) :
    (s.cb k = .timeout t ∧ some k ∉ cbs) ∨
      ∃ t', s.cb k = .timeout t' ∧ some k ∈ cbs ∧
        t = { t' with stage := .queued, takenAt := some now } := by
  unfold takeOut at h
  split at h
  · next t' ht' =>
    split_ifs at h with hmem <;> cases h
    · exact Or.inr ⟨t', ht', hmem, rfl⟩
    · exact Or.inl ⟨ht', hmem⟩
  · next hne => exact absurd h (hne t)

theorem cbAfter_timeout {s : Hook T} {o : TimerOp} (hal : s.allows o = true) {k : Callback}
    {t : TimeoutCb} : s.cbAfter o k = .timeout t ↔ s.cb k = .timeout t := by
  unfold cbAfter
  split
  · next j _ =>
    have hj : s.isTimeout j = false := by simpa [allows] using hal
    by_cases hk : k = j
    · subst hk
      rw [Function.update_self]
      refine ⟨fun h => (by cases h), fun h => ?_⟩
      simp only [isTimeout, h, reduceCtorEq] at hj
    · rw [Function.update_of_ne hk]
  · exact Iff.rfl

/-- What becomes of one call. -/
inductive CallCases (s : Hook T) (a : HookLabel T) (u : Hook T) (f : FiberId) : Prop
  | same (h : u.call f = s.call f)
  | own {c : IoCall} (ho : OwnStep s a f c) (h : u.call f = c)
  | armed {now : UInt64} {p : Addr} {k : Callback} (ha : a = .arm f now p k)
      (hpc : (s.call f).pc = .arm)
      (h : u.call f = { s.call f with pc := .add, timer := some p, armed := k :: (s.call f).armed })
  | callback {k : Callback} {t : TimeoutCb} {c : IoCall} {stage : CbStage} (hk : s.cb k = .timeout t)
      (ht : t.call = f) (hm : CbMove s t a k c stage) (h : u.call f = c)
      (hu : u.cb k = .timeout { t with stage := stage })

/-- What becomes of the callback `k` of a call. -/
inductive CbCases (s : Hook T) (a : HookLabel T) (u : Hook T) (k : Callback) (t : TimeoutCb) : Prop
  | same (hu : u.cb k = .timeout t)
  | taken {now : UInt64} {tmp : Addr} (ha : a = .expire now tmp) (hlive : s.timers.live tmp = false)
      (hmem : some k ∈ (s.timers.listExpiredCb now tmp).2)
      (hu : u.cb k = .timeout { t with stage := .queued, takenAt := some now })
  | moved {c : IoCall} {stage : CbStage} (hm : CbMove s t a k c stage) (h : u.call t.call = c)
      (hu : u.cb k = .timeout { t with stage := stage })

variable {s u : Hook T} {a : HookLabel T}

theorem StepCases.call (h : StepCases s a u) (f : FiberId) : CallCases s a u f := by
  cases h with
  | frame hcall => exact .same (by rw [hcall])
  | expired _ hcall => exact .same (by rw [hcall])
  | foreign _ hcall => exact .same (by rw [hcall])
  | @own g c ho hcall =>
    by_cases hg : f = g
    · subst hg
      exact .own ho (by rw [hcall, Function.update_self])
    · exact .same (by rw [hcall, Function.update_of_ne hg])
  | @armed g now p k ha hpc _ _ hcall =>
    by_cases hg : f = g
    · subst hg
      exact .armed ha hpc (by rw [hcall, Function.update_self])
    · exact .same (by rw [hcall, Function.update_of_ne hg])
  | @callback k t c stage hk hm hcall hcb =>
    by_cases hg : f = t.call
    · exact .callback hk hg.symm hm (by rw [hcall, hg, Function.update_self])
        (by rw [hcb, Function.update_self])
    · exact .same (by rw [hcall, Function.update_of_ne hg])

theorem StepCases.cb (h : StepCases s a u) {k : Callback} {t : TimeoutCb}
    (hk : s.cb k = .timeout t) : CbCases s a u k t := by
  cases h with
  | frame _ hcb => exact .same (by rw [hcb, hk])
  | own _ _ hcb => exact .same (by rw [hcb, hk])
  | @armed f now p j ha hpc hj _ _ hcb =>
    have hkj : k ≠ j := by
      rintro rfl
      rw [hk] at hj
      cases hj
    exact .same (by rw [hcb, Function.update_of_ne hkj, hk])
  | @expired now tmp ha _ hlive hcb =>
    by_cases hmem : some k ∈ (s.timers.listExpiredCb now tmp).2
    · exact .taken ha hlive hmem (by simp only [hcb, takeOut, hk, if_pos hmem])
    · exact .same (by simp only [hcb, takeOut, hk, if_neg hmem])
  | @callback j t' c stage hj hm hcall hcb =>
    by_cases hkj : k = j
    · subst hkj
      rw [hk] at hj
      cases hj
      exact .moved hm (by rw [hcall, Function.update_self]) (by rw [hcb, Function.update_self])
    · exact .same (by rw [hcb, Function.update_of_ne hkj, hk])
  | foreign hal _ hcb => exact .same (by rw [hcb, cbAfter_timeout hal, hk])

/-- A callback that is there after a step was there before, or is armed by it. -/
theorem StepCases.cb_back (h : StepCases s a u) {k : Callback} {t : TimeoutCb}
    (hk : u.cb k = .timeout t) : (∃ t', s.cb k = .timeout t') ∨
      ∃ f now p, a = .arm f now p k ∧ k ∈ (u.call f).armed ∧
        t = { call := f, round := (s.call f).round, next := now + (s.call f).toMs } := by
  cases h with
  | frame _ hcb => exact .inl ⟨t, by rw [← hcb, hk]⟩
  | own _ _ hcb => exact .inl ⟨t, by rw [← hcb, hk]⟩
  | @armed f now p j ha hpc hj _ hcall hcb =>
    rw [hcb] at hk
    by_cases hkj : k = j
    · subst hkj
      rw [Function.update_self] at hk
      cases hk
      refine .inr ⟨f, now, p, ha, ?_, rfl⟩
      rw [hcall, Function.update_self]
      exact List.mem_cons_self ..
    · rw [Function.update_of_ne hkj] at hk
      exact .inl ⟨t, hk⟩
  | expired ha _ hlive hcb =>
    rw [hcb] at hk
    rcases takeOut_timeout hk with ⟨hk', -⟩ | ⟨t', hk', -⟩
    · exact .inl ⟨t, hk'⟩
    · exact .inl ⟨t', hk'⟩
  | @callback j t' c stage hj hm _ hcb =>
    by_cases hkj : k = j
    · exact .inl ⟨t', hkj ▸ hj⟩
    · rw [hcb, Function.update_of_ne hkj] at hk
      exact .inl ⟨t, hk⟩
  | foreign hal _ hcb =>
    rw [hcb, cbAfter_timeout hal] at hk
    exact .inl ⟨t, hk⟩

/-! ## The event machine -/

/-- What a step asks of the event machine. -/
inductive Issues (s : Hook T) : HookLabel T → ConcLabel (Agent T) → Prop
  | add {f : FiberId} (h : (s.call f).pc = .add) :
      Issues s (.add f)
        (.call (.fiber f) (.addEvent (s.call f).args.fd (s.call f).args.event none (caller f)))
  | addGrow {f : FiberId} : Issues s (.addGrow f) (.grow (.fiber f))
  | addLock {f : FiberId} {ok : Bool} (h : (s.call f).pc = .adding) :
      Issues s (.addLock f ok) (.lock (.fiber f) ok)
  | cbCancel {k : Callback} {t : TimeoutCb} (ht : s.cb k = .timeout t) (hst : t.stage = .toCancel) :
      Issues s (.cbCancel k)
        (.call (.timeout k) (.cancelEvent (s.call t.call).args.fd (s.call t.call).args.event))
  | cbLock {k : Callback} {ok : Bool} : Issues s (.cbLock k ok) (.lock (.timeout k) ok)
  | other {l : ConcLabel T} : Issues s (.other l) (l.map .other)
  | closeCancel {t : T} {fd : ℕ} : Issues s (.closeCancel t) (.call (.other t) (.cancelAll fd))
  | closeLock {t : T} {ok : Bool} : Issues s (.closeLock t ok) (.lock (.other t) ok)

/-- What a step does to the event machine: nothing, a step of it, or the kernel forgets a closed
descriptor. -/
inductive ConcCases [DecidableEq T] (s : Hook T) (a : HookLabel T) (u : Hook T) : Prop
  | same (h : u.conc = s.conc)
  | step {l : ConcLabel (Agent T)} (hi : Issues s a l) (h : s.conc.step l = some u.conc)
  | closed {i : Interest} (h : u.conc = { s.conc with mgr := s.conc.mgr.setInterest i })

/-! ## System calls -/

/-- What a step does to the records. -/
inductive SysCases (s : Hook T) (a : HookLabel T) (u : Hook T) : Prop
  | same (hsys : u.sys = s.sys) (hclose : u.closes = s.closes) (hstart : u.started = s.started)
  | begin {f : FiberId} {args : IoArgs} {hook : Bool} (ha : a = .begin f args hook)
      (hsys : u.sys = s.sys) (hclose : u.closes = s.closes) (hstart : u.started = f :: s.started)
  | called {f : FiberId} {r : SysResult} (ha : a = .sys f r)
      (hpc : (s.call f).pc = .direct ∨ (s.call f).pc = .call ∨ (s.call f).pc = .sockopt)
      (hsys : u.sys = ⟨f, s.files (s.call f).args.fd, s.closes (s.call f).args.fd⟩ :: s.sys)
      (hclose : u.closes = s.closes) (hstart : u.started = s.started)
  | closed {t : T} {fd : ℕ} (ha : a = .closeF t) (hj : s.job t = .closeF fd) (hsys : u.sys = s.sys)
      (hclose : u.closes = Function.update s.closes fd (s.closes fd + 1))
      (hstart : u.started = s.started)

/-! ## The steps -/

/-- All that a step does. -/
structure StepSpec [DecidableEq T] (s : Hook T) (a : HookLabel T) (u : Hook T) : Prop where
  calls : StepCases s a u
  conc : ConcCases s a u
  records : SysCases s a u

variable [DecidableEq T]

theorem StepSpec.own {f : FiberId} {c : IoCall} (h : OwnStep s a f c)
    (ha : s.timersAfter a = s.timers) : StepSpec s a (s.setCall f c) :=
  ⟨.own h rfl rfl ha.symm, .same rfl, .same rfl rfl rfl⟩

theorem StepSpec.callback {k : Callback} {t : TimeoutCb} {c : IoCall} {stage : CbStage}
    (hk : s.cb k = .timeout t) (hm : CbMove s t a k c stage) :
    StepSpec s a ((s.setStage k t stage).setCall t.call c) :=
  ⟨.callback hk hm rfl rfl rfl, .same rfl, .same rfl rfl rfl⟩

theorem StepSpec.setFdMgr (m : FdManager) : StepSpec s a (s.setFdMgr m) :=
  ⟨.frame rfl rfl rfl, .same rfl, .same rfl rfl rfl⟩

theorem StepSpec.setFdMgr_setJob (m : FdManager) {t : T} (j : Job) :
    StepSpec s a ((s.setFdMgr m).setJob t j) :=
  ⟨.frame rfl rfl rfl, .same rfl, .same rfl rfl rfl⟩

/-- A step that only asks something of the event machine. -/
theorem StepSpec.of_map {l : ConcLabel (Agent T)} {g : Conc (Agent T) → Hook T}
    (hi : Issues s a l) (h : (s.conc.step l).map g = some u)
    (hg : ∀ m, g m = s.setConc m ∨ ∃ t j, g m = (s.setConc m).setJob t j) : StepSpec s a u := by
  obtain ⟨m, hm, rfl⟩ := Option.map_eq_some_iff.1 h
  rcases hg m with hg | ⟨t, j, hg⟩
  · rw [hg]
    exact ⟨.frame rfl rfl rfl, .step hi hm, .same rfl rfl rfl⟩
  · rw [hg]
    exact ⟨.frame rfl rfl rfl, .step hi hm, .same rfl rfl rfl⟩

omit [DecidableEq T] in
theorem setCall_self (s : Hook T) (f : FiberId) : s.setCall f (s.call f) = s := by
  unfold setCall
  rw [Function.update_eq_self]

theorem sysCall_spec {f : FiberId} {r : SysResult} (h : s.sysCall f r = some u) :
    StepSpec s (.sys f r) u := by
  unfold sysCall at h
  split at h <;> cases h
  · next hpc =>
    exact ⟨.own (.direct hpc) rfl rfl rfl, .same rfl, .called rfl (.inl hpc) rfl rfl rfl⟩
  · next hpc =>
    exact ⟨.own (.call hpc) rfl rfl rfl, .same rfl, .called rfl (.inr (.inl hpc)) rfl rfl rfl⟩
  · next hpc =>
    exact ⟨.own (.sockopt hpc) rfl rfl rfl, .same rfl, .called rfl (.inr (.inr hpc)) rfl rfl rfl⟩

theorem arm_spec {f : FiberId} {now : UInt64} {p : Addr} {k : Callback}
    (h : s.arm f now p k = some u) : StepSpec s (.arm f now p k) u := by
  unfold arm at h
  dsimp only at h
  split_ifs at h with hpc hto hk
  · cases h
    exact .own (.noTimer (not_not.1 hpc) hto) rfl
  · obtain ⟨m, hm, rfl⟩ := Option.map_eq_some_iff.1 h
    simp only [TimerManager.step] at hm
    split_ifs at hm with hlive
    cases hm
    exact ⟨.armed rfl (not_not.1 hpc) (not_not.1 hk) (by simpa using hlive) rfl rfl rfl, .same rfl,
      .same rfl rfl rfl⟩

theorem addLock_spec {f : FiberId} {ok : Bool} (h : s.addLock f ok = some u) :
    StepSpec s (.addLock f ok) u := by
  unfold addLock at h
  split at h
  · next p fd e cb who hpc hc =>
    obtain ⟨m, hm, rfl⟩ := Option.map_eq_some_iff.1 h
    split
    · exact ⟨.frame rfl rfl rfl, .step (.addLock hpc) hm, .same rfl rfl rfl⟩
    · next m' rt hr =>
      exact ⟨.own (.added hpc hc hr) rfl rfl rfl, .step (.addLock hpc) hm, .same rfl rfl rfl⟩
  · cases h

theorem cancelTimer_spec {f : FiberId} (h : s.cancelTimer f = some u) :
    StepSpec s (.cancelTimer f) u := by
  unfold cancelTimer at h
  dsimp only at h
  split at h
  · next hpc =>
    cases h
    exact ⟨.own (.cancelTimer hpc) rfl rfl rfl, .same rfl, .same rfl rfl rfl⟩
  · next hpc =>
    split_ifs at h with hio <;> cases h
    · exact ⟨.own (.addFailed hpc (if_pos hio).symm) rfl rfl rfl, .same rfl, .same rfl rfl rfl⟩
    · exact ⟨.own (.addFailed hpc (if_neg hio).symm) rfl rfl rfl, .same rfl, .same rfl rfl rfl⟩
  · cases h

theorem check_spec {f : FiberId} (h : s.check f = some u) : StepSpec s (.check f) u := by
  unfold check at h
  dsimp only at h
  split_ifs at h with hpc hc hio <;> cases h
  · exact .own (.timedOut (not_not.1 hpc) hc) rfl
  · exact .own (.retry (not_not.1 hpc) (by simpa using hc) hio) rfl
  · exact .own (.connected (not_not.1 hpc) (by simpa using hc) (by simpa using hio)) rfl

theorem expire_spec {now : UInt64} {tmp : Addr} (h : s.expire now tmp = some u) :
    StepSpec s (.expire now tmp) u := by
  unfold expire at h
  split_ifs at h with hlive
  cases h
  exact ⟨.expired rfl rfl (by simpa using hlive) rfl rfl, .same rfl, .same rfl rfl rfl⟩

theorem cbStart_spec {k : Callback} (h : s.cbStart k = some u) : StepSpec s (.cbStart k) u := by
  unfold cbStart at h
  split at h
  · next t ht =>
    split_ifs at h with hst hal <;> cases h
    · exact .callback ht (.enter (not_not.1 hst))
    · have hl : (s.call t.call).pc.live = false := by
        simp only [alive, Bool.or_eq_true, not_or, Bool.not_eq_true] at hal
        exact hal.1
      rw [← setCall_self (s.setStage k t .done) t.call]
      exact .callback ht (.dead (not_not.1 hst) hl)
  · cases h

theorem cbCheck_spec {k : Callback} (h : s.cbCheck k = some u) : StepSpec s (.cbCheck k) u := by
  unfold cbCheck at h
  split at h
  · next t ht =>
    split_ifs at h with hst hc <;> cases h
    · exact .callback ht (.skip (not_not.1 hst) hc)
    · rw [← setCall_self (s.setStage k t .passed) t.call]
      exact .callback ht (.pass (not_not.1 hst) (by simpa using hc))
  · cases h

theorem cbSet_spec {k : Callback} (h : s.cbSet k = some u) : StepSpec s (.cbSet k) u := by
  unfold cbSet at h
  split at h
  · next t ht =>
    split_ifs at h with hst
    cases h
    exact .callback ht (.set (not_not.1 hst))
  · cases h

theorem cbCancel_spec {k : Callback} (h : s.cbCancel k = some u) : StepSpec s (.cbCancel k) u := by
  unfold cbCancel at h
  split at h
  · next t ht =>
    dsimp only at h
    split_ifs at h with hst
    obtain ⟨m, hm, rfl⟩ := Option.map_eq_some_iff.1 h
    have hi := Issues.cbCancel ht (not_not.1 hst)
    obtain ⟨hpc, hcall⟩ := Conc.step_call hm
    split_ifs with hout
    · rw [hcall] at hout
      have hl := Conc.lookup_of_out hout
      rw [EventCall.fd] at hl
      exact ⟨.callback ht (.missed (not_not.1 hst) hpc hl) rfl rfl rfl, .step hi hm,
        .same rfl rfl rfl⟩
    · rw [hcall] at hout
      obtain ⟨p, hl⟩ := Conc.lookup_of_not_out hpc hout (fun _ _ _ _ h => by cases h)
      rw [EventCall.fd] at hl
      rw [← setCall_self ((s.setConc m).setStage k t .cancelling) t.call]
      exact ⟨.callback ht (.found (not_not.1 hst) hl) rfl rfl rfl, .step hi hm, .same rfl rfl rfl⟩
  · cases h

theorem cbLock_spec {k : Callback} {ok : Bool} (h : s.cbLock k ok = some u) :
    StepSpec s (.cbLock k ok) u := by
  unfold cbLock at h
  split at h
  · next t ht =>
    split_ifs at h with hst
    obtain ⟨m, hm, rfl⟩ := Option.map_eq_some_iff.1 h
    split_ifs
    · exact ⟨.frame rfl rfl rfl, .step .cbLock hm, .same rfl rfl rfl⟩
    · exact ⟨.callback ht (.finish (not_not.1 hst)) rfl rfl rfl, .step .cbLock hm, .same rfl rfl rfl⟩
  · cases h

theorem timerOp_spec {o : TimerOp} (h : s.timerOp o = some u) : StepSpec s (.timer o) u := by
  unfold timerOp at h
  split_ifs at h with hal
  obtain ⟨m, hm, rfl⟩ := Option.map_eq_some_iff.1 h
  exact ⟨.foreign (by simpa using hal) rfl rfl hm, .same rfl, .same rfl rfl rfl⟩

/-- What each step does. -/
theorem step_spec (h : s.step a = some u) : StepSpec s a u := by
  unfold step at h
  split_ifs at h
  cases a with
  | begin f args hook =>
    simp only at h
    split_ifs at h with hpc
    cases h
    exact ⟨.own (.begin hpc) rfl rfl rfl, .same rfl, .begin rfl rfl rfl rfl⟩
  | sys f r => exact sysCall_spec h
  | arm f now p k => exact arm_spec h
  | add f =>
    simp only [add] at h
    split_ifs at h with hpc
    obtain ⟨m, hm, rfl⟩ := Option.map_eq_some_iff.1 h
    have hpc := not_not.1 hpc
    exact ⟨.own (.add hpc) rfl rfl rfl, .step (.add hpc) hm, .same rfl rfl rfl⟩
  | addGrow f =>
    simp only [addGrow] at h
    exact .of_map .addGrow h fun _ => .inl rfl
  | addLock f ok => exact addLock_spec h
  | yield f =>
    simp only [yield] at h
    split_ifs at h with hpc
    cases h
    exact .own (.yield hpc) rfl
  | resume f =>
    simp only [resume] at h
    split_ifs at h with hpc
    cases h
    exact .own (.resume hpc) rfl
  | cancelTimer f => exact cancelTimer_spec h
  | check f => exact check_spec h
  | expire now tmp => exact expire_spec h
  | cbStart k => exact cbStart_spec h
  | cbCheck k => exact cbCheck_spec h
  | cbSet k => exact cbSet_spec h
  | cbCancel k => exact cbCancel_spec h
  | cbLock k ok => exact cbLock_spec h
  | timer o => exact timerOp_spec h
  | other l =>
    simp only [other] at h
    split_ifs at h
    exact .of_map .other h fun _ => .inl rfl
  | close t fd hook iom =>
    simp only [close] at h
    split_ifs at h <;> cases h <;> exact ⟨.frame rfl rfl rfl, .same rfl, .same rfl rfl rfl⟩
  | closeCancel t =>
    simp only [closeCancel] at h
    split at h
    · exact .of_map .closeCancel h fun _ => .inr ⟨t, _, rfl⟩
    · cases h
  | closeLock t ok =>
    simp only [closeLock] at h
    split at h
    · refine .of_map .closeLock h fun m => ?_
      split_ifs
      · exact .inl rfl
      · exact .inr ⟨t, _, rfl⟩
    · cases h
  | closeDel t =>
    simp only [closeDel] at h
    split at h
    · rw [← Option.some.inj h]
      exact .setFdMgr_setJob _ _
    · cases h
  | closeF t =>
    simp only [closeF] at h
    split at h <;> cases h
    next fd hj => exact ⟨.frame rfl rfl rfl, .closed rfl, .closed rfl hj rfl rfl rfl⟩
  | socket t fd =>
    simp only [socket] at h
    split_ifs at h
    cases h
    exact ⟨.frame rfl rfl rfl, .same rfl, .same rfl rfl rfl⟩
  | socketGet t =>
    simp only [socketGet] at h
    split at h <;> cases h
    exact ⟨.frame rfl rfl rfl, .same rfl, .same rfl rfl rfl⟩
  | socketCreate t stat =>
    simp only [socketCreate] at h
    split at h
    · rw [← Option.some.inj h]
      exact .setFdMgr_setJob _ _
    · cases h
  | setTimeout fd so ms =>
    rw [← Option.some.inj h]
    exact .setFdMgr _
  | setNonblock fd v =>
    rw [← Option.some.inj h]
    exact .setFdMgr _

end Hook

end CoroutineScheduler
