import CoroutineScheduler.Hook.Steps
import CoroutineScheduler.Timer.Effects

/-!
# The timers of hooked calls

A timer that still has the callback of a hooked call is the timer of the current round of that call:
`timer->cancel()` empties the callback before the round ends, and a callback is taken out of the set
at most once. This holds in every run (`Armed.step`).
-/

namespace CoroutineScheduler

open Trans

namespace IoPc

/-- Between `addConditionTimer` and `timer->cancel()`. -/
def waiting : IoPc → Bool
  | add | adding | addFailed | yield | suspended | resumed => true
  | _ => false

end IoPc

namespace Hook

variable {T : Type}

/-- The timer at `a` has the callback `t`. -/
structure ArmedAt (s : Hook T) (a : Addr) (t : TimeoutCb) : Prop where
  stage : t.stage = .armed
  recurring : (s.timers.obj a).recurring = false
  next : (s.timers.obj a).next = t.next
  live : s.timers.live a = true
  timer : (s.call t.call).timer = some a
  round : t.round = (s.call t.call).round
  waiting : (s.call t.call).pc.waiting = true

structure Armed (s : Hook T) : Prop where
  started : ∀ f, (s.call f).pc ≠ .ready → f ∈ s.started
  begun : ∀ k t, s.cb k = .timeout t → (s.call t.call).pc ≠ .ready
  known : ∀ a k, (s.timers.obj a).cb = some k → s.cb k ≠ .unused
  timeouts : ∀ a k t, (s.timers.obj a).cb = some k → s.cb k = .timeout t → ArmedAt s a t

theorem Armed.start (now : UInt64) : Armed (Hook.start now : Hook T) where
  started := fun _ h => absurd rfl h
  begun := fun _ _ h => by cases h
  known := fun _ _ h => by cases h
  timeouts := fun _ _ _ h => by cases h

variable {s u : Hook T} {a : HookLabel T}

/-- The timers, and what the calls know of them, are the same. -/
theorem ArmedAt.congr {p : Addr} {t : TimeoutCb} (h : ArmedAt s p t)
    (hobj : u.timers.obj p = s.timers.obj p) (hlive : u.timers.live p = s.timers.live p)
    (htimer : (u.call t.call).timer = (s.call t.call).timer)
    (hround : (u.call t.call).round = (s.call t.call).round)
    (hpc : (s.call t.call).pc.waiting = true → (u.call t.call).pc.waiting = true) :
    ArmedAt u p t := by
  refine ⟨h.stage, ?_, ?_, ?_, ?_, ?_, hpc h.waiting⟩
  · rw [hobj, h.recurring]
  · rw [hobj, h.next]
  · rw [hlive, h.live]
  · rw [htimer, h.timer]
  · rw [hround, h.round]

/-- A call that is not waiting has no timer. -/
theorem Armed.not_waiting (h : Armed s) {f : FiberId} (hf : (s.call f).pc.waiting = false) {p : Addr}
    {k : Callback} {t : TimeoutCb} (hp : (s.timers.obj p).cb = some k) (hk : s.cb k = .timeout t) :
    t.call ≠ f := by
  rintro rfl
  have hw := (h.timeouts p k t hp hk).waiting
  rw [hf] at hw
  cases hw

/-- The steps that a call makes while it waits. -/
theorem OwnStep.waiting {f : FiberId} {c : IoCall} (h : OwnStep s a f c)
    (hw : (s.call f).pc.waiting = true) (ha : ∀ g, a ≠ .cancelTimer g) :
    c.timer = (s.call f).timer ∧ c.round = (s.call f).round ∧ c.pc.waiting = true := by
  cases h with
  | added hpc hc hr => exact ⟨rfl, rfl, by dsimp only; split_ifs <;> rfl⟩
  | cancelTimer hpc => exact absurd rfl (ha f)
  | addFailed hpc he => exact absurd rfl (ha f)
  | add hpc => exact ⟨rfl, rfl, rfl⟩
  | yield hpc => exact ⟨rfl, rfl, rfl⟩
  | resume hpc => exact ⟨rfl, rfl, rfl⟩
  | begin hpc => rw [hpc] at hw; cases hw
  | direct hpc => rw [hpc] at hw; cases hw
  | call hpc => rw [hpc] at hw; cases hw
  | sockopt hpc => rw [hpc] at hw; cases hw
  | noTimer hpc hto => rw [hpc] at hw; cases hw
  | timedOut hpc hc => rw [hpc] at hw; cases hw
  | retry hpc hc hio => rw [hpc] at hw; cases hw
  | connected hpc hc hio => rw [hpc] at hw; cases hw

theorem timersAfter_of_ne (s : Hook T) (ha : ∀ g, a ≠ .cancelTimer g) :
    s.timersAfter a = s.timers := by
  cases a with
  | cancelTimer f => exact absurd rfl (ha f)
  | _ => rfl

theorem entry_cases (s : Hook T) (args : IoArgs) (hook : Bool) :
    s.entry args hook = .direct ∨ s.entry args hook = .call ∨
      s.entry args hook = .done (.err .ebadf) := by
  unfold entry
  cases hook with
  | false => exact .inl rfl
  | true =>
    cases s.fdMgr.get args.fd with
    | none => cases args.isIo <;> simp
    | some p =>
      dsimp only [Bool.not_true, Bool.false_eq_true]
      split_ifs <;> simp

/-- A step of a call by itself leads out of `ready` and not into it. -/
theorem OwnStep.not_ready {f : FiberId} {c : IoCall} (h : OwnStep s a f c) : c.pc ≠ .ready := by
  cases h with
  | @begin _ args hook _ hpc =>
    rcases entry_cases s args hook with h | h | h <;> dsimp only <;> rw [h] <;>
      exact fun h => by cases h
  | call hpc =>
    unfold afterCall
    split <;> exact fun h => by cases h
  | added hpc hc hr => dsimp only; split_ifs <;> exact fun h => by cases h
  | addFailed hpc he =>
    dsimp only
    rw [he]
    split_ifs <;> exact fun h => by cases h
  | _ => exact fun h => by cases h

/-- The first step of a call. -/
theorem OwnStep.begin_of_ready {f : FiberId} {c : IoCall} (h : OwnStep s a f c)
    (hr : (s.call f).pc = .ready) : ∃ args hook, a = .begin f args hook := by
  cases h with
  | begin hpc => exact ⟨_, _, rfl⟩
  | direct hpc | call hpc | sockopt hpc | noTimer hpc _ | add hpc | added hpc _ _ | yield hpc
  | resume hpc | cancelTimer hpc | addFailed hpc _ | timedOut hpc _ | retry hpc _ _
  | connected hpc _ _ =>
    rw [hr] at hpc
    cases hpc

/-- Only its flag and the number of its holders change in a call when a callback steps. -/
theorem CbMove.call_eq {t : TimeoutCb} {k : Callback} {c : IoCall} {stage : CbStage}
    (h : CbMove s t a k c stage) :
    c = { s.call t.call with cancelled := c.cancelled, holders := c.holders } := by
  cases h <;> rfl

theorem CbMove.not_armed {t : TimeoutCb} {k : Callback} {c : IoCall} {stage : CbStage}
    (h : CbMove s t a k c stage) : t.stage ≠ .armed ∧ stage ≠ .armed := by
  cases h <;> simp [*]

/-! ## The step -/

/-- The calls keep what the timers need; the callbacks and timers stay. -/
theorem Armed.of_calls (h : Armed s) (hcb : u.cb = s.cb) (htimers : u.timers = s.timers)
    (hstart : ∀ f, (u.call f).pc ≠ .ready → f ∈ u.started)
    (hready : ∀ f, (s.call f).pc ≠ .ready → (u.call f).pc ≠ .ready)
    (hcall : ∀ f, (s.call f).pc.waiting = true → (u.call f).timer = (s.call f).timer ∧
      (u.call f).round = (s.call f).round ∧ (u.call f).pc.waiting = true) : Armed u := by
  refine ⟨hstart, fun k t hk => ?_, fun p k hp => ?_, fun p k t hp hk => ?_⟩
  · rw [hcb] at hk
    exact hready _ (h.begun k t hk)
  · rw [htimers] at hp
    rw [hcb]
    exact h.known p k hp
  · rw [htimers] at hp
    rw [hcb] at hk
    have hat := h.timeouts p k t hp hk
    obtain ⟨h1, h2, h3⟩ := hcall t.call hat.waiting
    exact hat.congr (by rw [htimers]) (by rw [htimers]) h1 h2 fun _ => h3

/-- What a change of the timers needs: every timer that has the callback of a hooked call had it
before and is the same, and the call has not moved. -/
theorem Armed.of_timers (h : Armed s) (hstart : ∀ f, (u.call f).pc ≠ .ready → f ∈ u.started)
    (hbegun : ∀ k t, u.cb k = .timeout t → (u.call t.call).pc ≠ .ready)
    (hknown : ∀ p k, (u.timers.obj p).cb = some k → u.cb k ≠ .unused)
    (hsame : ∀ p k t, (u.timers.obj p).cb = some k → u.cb k = .timeout t →
      (s.timers.obj p).cb = some k ∧ s.cb k = .timeout t ∧ u.timers.obj p = s.timers.obj p ∧
        u.timers.live p = s.timers.live p ∧ u.call t.call = s.call t.call) : Armed u := by
  refine ⟨hstart, hbegun, hknown, fun p k t hp hk => ?_⟩
  obtain ⟨h1, h2, h3, h4, h5⟩ := hsame p k t hp hk
  exact (h.timeouts p k t h1 h2).congr h3 h4 (by rw [h5]) (by rw [h5]) fun hw => by rw [h5, hw]

theorem Armed.cancelTimer (h : Armed s) {f : FiberId} {c : IoCall}
    (ho : OwnStep s (.cancelTimer f) f c) (hcall : u.call = Function.update s.call f c)
    (hcb : u.cb = s.cb) (htimers : u.timers = s.timersAfter (.cancelTimer f))
    (hstart : ∀ f, (u.call f).pc ≠ .ready → f ∈ u.started) : Armed u := by
  -- the timer of the call has no callback any more, the others are as before
  have hother : ∀ p k, (u.timers.obj p).cb = some k → (s.call f).timer ≠ some p ∧
      u.timers.obj p = s.timers.obj p ∧ u.timers.live p = s.timers.live p := by
    intro p k hp
    rw [htimers, timersAfter] at hp ⊢
    cases ht : (s.call f).timer with
    | none => exact ⟨fun h => (by cases h), rfl, rfl⟩
    | some q =>
      rw [ht, Option.elim_some] at hp
      rw [Option.elim_some]
      have hpq : p ≠ q := by
        rintro rfl
        rw [TimerManager.cancel_obj_self] at hp
        cases hp
      exact ⟨fun h => hpq (Option.some.inj h).symm, TimerManager.cancel_obj_of_ne _ hpq,
        by rw [TimerManager.cancel_live]⟩
  refine h.of_timers hstart (fun k t hk => ?_) (fun p k hp => ?_) fun p k t hp hk => ?_
  · rw [hcb] at hk
    rw [hcall]
    by_cases hf : t.call = f
    · rw [hf, Function.update_self]
      exact ho.not_ready
    · rw [Function.update_of_ne hf]
      exact h.begun k t hk
  · have hobj := (hother p k hp).2.1
    rw [hobj] at hp
    rw [hcb]
    exact h.known p k hp
  · obtain ⟨htimer, hobj, hlive⟩ := hother p k hp
    rw [hobj] at hp
    rw [hcb] at hk
    have hne : t.call ≠ f := by
      rintro rfl
      exact htimer (h.timeouts p k t hp hk).timer
    refine ⟨hp, hk, hobj, hlive, ?_⟩
    rw [hcall, Function.update_of_ne hne]

theorem Armed.arm (h : Armed s) {f : FiberId} {now : UInt64} {q : Addr} {j : Callback}
    (hpc : (s.call f).pc = .arm) (hj : s.cb j = .unused) (hlive : s.timers.live q = false)
    (hcall : u.call = Function.update s.call f
      { s.call f with pc := .add, timer := some q, armed := j :: (s.call f).armed })
    (hcb : u.cb = Function.update s.cb j
      (.timeout { call := f, round := (s.call f).round, next := now + (s.call f).toMs }))
    (htimers : u.timers = (s.timers.addTimer now q (s.call f).toMs (some j) false).1)
    (hstart : ∀ f, (u.call f).pc ≠ .ready → f ∈ u.started) : Armed u := by
  have hobj : u.timers.obj = Function.update s.timers.obj q (.new now (s.call f).toMs (some j) false) := by
    rw [htimers, TimerManager.addTimer_obj]
  have hlv : u.timers.live = Function.update s.timers.live q true := by
    rw [htimers, TimerManager.addTimer_live]
  refine ⟨hstart, fun k t hk => ?_, fun p k hp => ?_, fun p k t hp hk => ?_⟩
  · rw [hcall]
    by_cases hf : t.call = f
    · rw [hf, Function.update_self]
      exact fun h => by cases h
    · rw [Function.update_of_ne hf]
      rw [hcb] at hk
      by_cases hkj : k = j
      · rw [hkj, Function.update_self] at hk
        cases hk
        exact absurd rfl hf
      · rw [Function.update_of_ne hkj] at hk
        exact h.begun k t hk
  · rw [hcb]
    by_cases hkj : k = j
    · rw [hkj, Function.update_self]
      exact fun h => by cases h
    · rw [Function.update_of_ne hkj]
      rw [hobj] at hp
      by_cases hpq : p = q
      · rw [hpq, Function.update_self] at hp
        exact absurd (Option.some.inj hp).symm hkj
      · rw [Function.update_of_ne hpq] at hp
        exact h.known p k hp
  · by_cases hpq : p = q
    · -- the new timer
      subst hpq
      rw [hobj, Function.update_self] at hp
      have hkj : k = j := (Option.some.inj hp).symm
      rw [hcb, hkj, Function.update_self] at hk
      cases hk
      refine ⟨rfl, ?_, ?_, ?_, ?_, ?_, ?_⟩
      · rw [hobj, Function.update_self]
        rfl
      · rw [hobj, Function.update_self]
        rfl
      · rw [hlv, Function.update_self]
      · rw [hcall, Function.update_self]
      · rw [hcall, Function.update_self]
      · rw [hcall, Function.update_self]
        rfl
    · -- an old one: its call is another, since this one was not waiting
      have hobj' : u.timers.obj p = s.timers.obj p := by rw [hobj, Function.update_of_ne hpq]
      rw [hobj'] at hp
      have hkj : k ≠ j := by
        rintro rfl
        exact h.known p k hp hj
      rw [hcb, Function.update_of_ne hkj] at hk
      have hne := h.not_waiting (f := f) (by rw [hpc]; rfl) hp hk
      have hcall' : u.call t.call = s.call t.call := by rw [hcall, Function.update_of_ne hne]
      exact (h.timeouts p k t hp hk).congr hobj' (by rw [hlv, Function.update_of_ne hpq])
        (by rw [hcall']) (by rw [hcall']) fun hw => by rw [hcall', hw]

theorem takeOut_used {now : UInt64} {cbs : List (Option Callback)} {k : Callback}
    (h : s.cb k ≠ .unused) : s.takeOut now cbs k ≠ .unused := by
  unfold takeOut
  split
  · split_ifs <;> exact fun h => by cases h
  · exact h

theorem Armed.expire (h : Armed s) {now : UInt64} {tmp : Addr} (hcall : u.call = s.call)
    (hcb : u.cb = s.takeOut now (s.timers.listExpiredCb now tmp).2)
    (htimers : u.timers = (s.timers.listExpiredCb now tmp).1)
    (hstart : ∀ f, (u.call f).pc ≠ .ready → f ∈ u.started) : Armed u := by
  obtain ⟨as, -, hspec, -⟩ := s.timers.listExpiredCb_spec now tmp
  rw [← htimers] at hspec
  have hback : ∀ p k, (u.timers.obj p).cb = some k → (s.timers.obj p).cb = some k := by
    intro p k hp
    rcases hspec.cb p with h | h
    · rw [← h, hp]
    · rw [h] at hp
      cases hp
  -- a timer that still has the callback of a hooked call has not expired
  have hkept : ∀ p k t, (u.timers.obj p).cb = some k → s.cb k = .timeout t → p ∉ as := by
    intro p k t hp hk hmem
    have hat := h.timeouts p k t (hback p k hp) hk
    rw [hspec.fired p hmem hat.recurring] at hp
    cases hp
  refine h.of_timers hstart (fun k t hk => ?_) (fun p k hp => ?_) fun p k t hp hk => ?_
  · rw [hcall]
    rw [hcb] at hk
    rcases takeOut_timeout hk with ⟨hk', -⟩ | ⟨t', hk', -, rfl⟩
    · exact h.begun k t hk'
    · exact h.begun k t' hk'
  · rw [hcb]
    exact takeOut_used (h.known p k (hback p k hp))
  · rw [hcb] at hk
    rcases takeOut_timeout hk with ⟨hk', -⟩ | ⟨t', hk', hmem, rfl⟩
    · exact ⟨hback p k hp, hk', hspec.other p (hkept p k t hp hk'), by rw [hspec.live], by rw [hcall]⟩
    · -- taken out: then the timer that had it has expired, and it was this one
      obtain ⟨q, hq, hqk⟩ := hspec.cbs k hmem
      have hp' := (h.timeouts p k t' (hback p k hp) hk').timer
      have hq' := (h.timeouts q k t' hqk hk').timer
      have hpq : q = p := Option.some.inj (hq'.symm.trans hp')
      rw [hpq] at hq
      exact absurd hq (hkept p k t' hp hk')

theorem Armed.callback (h : Armed s) {j : Callback} {t₀ : TimeoutCb} {c : IoCall} {stage : CbStage}
    (hj : s.cb j = .timeout t₀) (hm : CbMove s t₀ a j c stage)
    (hcall : u.call = Function.update s.call t₀.call c)
    (hcb : u.cb = Function.update s.cb j (.timeout { t₀ with stage := stage }))
    (htimers : u.timers = s.timers) (hstart : ∀ f, (u.call f).pc ≠ .ready → f ∈ u.started) :
    Armed u := by
  -- the calls keep their positions, rounds and timers
  have hfields : ∀ f, (u.call f).pc = (s.call f).pc ∧ (u.call f).timer = (s.call f).timer ∧
      (u.call f).round = (s.call f).round := by
    intro f
    rw [hcall]
    by_cases hf : f = t₀.call
    · rw [hf, Function.update_self, hm.call_eq]
      exact ⟨rfl, rfl, rfl⟩
    · rw [Function.update_of_ne hf]
      exact ⟨rfl, rfl, rfl⟩
  refine ⟨hstart, fun k t hk => ?_, fun p k hp => ?_, fun p k t hp hk => ?_⟩
  · rw [(hfields _).1]
    rw [hcb] at hk
    by_cases hkj : k = j
    · rw [hkj, Function.update_self] at hk
      cases hk
      exact h.begun j t₀ hj
    · rw [Function.update_of_ne hkj] at hk
      exact h.begun k t hk
  · rw [htimers] at hp
    rw [hcb]
    by_cases hkj : k = j
    · rw [hkj, Function.update_self]
      exact fun h => by cases h
    · rw [Function.update_of_ne hkj]
      exact h.known p k hp
  · rw [htimers] at hp
    have hkj : k ≠ j := by
      rintro rfl
      exact hm.not_armed.1 (h.timeouts p k t₀ hp hj).stage
    rw [hcb, Function.update_of_ne hkj] at hk
    obtain ⟨h1, h2, h3⟩ := hfields t.call
    exact (h.timeouts p k t hp hk).congr (by rw [htimers]) (by rw [htimers]) h2 h3
      fun hw => by rw [h1, hw]

theorem isTimeout_of_cb {k : Callback} {t : TimeoutCb} (hk : s.cb k = .timeout t) :
    s.isTimeout k = true := by
  unfold isTimeout
  rw [hk]

/-- A timer that other threads may change has no callback of a hooked call. -/
theorem not_timeout_of_isForeign {p : Addr} {k : Callback} {t : TimeoutCb} (h : s.isForeign p = true)
    (hp : (s.timers.obj p).cb = some k) : s.cb k ≠ .timeout t := by
  intro hk
  unfold isForeign at h
  rw [hp, Option.all_some, isTimeout_of_cb hk] at h
  cases h

theorem cbAfter_used {o : TimerOp} {k : Callback} (h : s.cb k ≠ .unused) :
    s.cbAfter o k ≠ .unused := by
  unfold cbAfter
  split
  · next j _ =>
    by_cases hk : k = j
    · rw [hk, Function.update_self]
      exact fun h => by cases h
    · rw [Function.update_of_ne hk]
      exact h
  · exact h

/-- What becomes of a timer that has callback `k` after an operation of another thread: the callback
is none of a hooked call, or the timer is as it was. -/
def Untouched (s : Hook T) (o : TimerOp) (m : TimerManager) (p : Addr) (k : Callback) : Prop :=
  (s.cbAfter o k ≠ .unused ∧ ∀ t, s.cb k ≠ .timeout t) ∨
    ((s.timers.obj p).cb = some k ∧ m.obj p = s.timers.obj p ∧
      (o ≠ .release p → m.live p = true ∨ s.timers.live p = false))

theorem Untouched.of_retimes (h : Armed s) {o : TimerOp} {m : TimerManager} {q : Addr}
    (hq : s.isForeign q = true) (hr : TimerManager.Retimes s.timers m q) {p : Addr} {k : Callback}
    (hp : (m.obj p).cb = some k) : Untouched s o m p k := by
  by_cases hpq : p = q
  · subst hpq
    rw [hr.cb] at hp
    exact .inl ⟨cbAfter_used (h.known p k hp), fun t => not_timeout_of_isForeign hq hp⟩
  · rw [hr.other p hpq] at hp
    refine .inr ⟨hp, hr.other p hpq, fun _ => ?_⟩
    rw [hr.live]
    cases s.timers.live p
    · exact .inr rfl
    · exact .inl rfl

theorem Armed.untouched (h : Armed s) {o : TimerOp} {m : TimerManager} (hal : s.allows o = true)
    (hs : s.timers.step o = some m) {p : Addr} {k : Callback} (hp : (m.obj p).cb = some k) :
    Untouched s o m p k := by
  have hsame : ∀ b : Bool, b = true ∨ b = false := fun b => by cases b <;> simp
  cases o with
  | addTimer now q ms cb recurring =>
    simp only [TimerManager.step] at hs
    split_ifs at hs with hlive
    cases hs
    rw [TimerManager.addTimer_obj] at hp
    by_cases hpq : p = q
    · rw [hpq, Function.update_self] at hp
      have hcb : cb = some k := hp
      subst hcb
      simp only [allows, Option.all_some, Bool.not_eq_true'] at hal
      refine .inl ⟨?_, fun t ht => ?_⟩
      · simp only [cbAfter, Function.update_self]
        exact fun h => by cases h
      · rw [isTimeout_of_cb ht] at hal
        cases hal
    · rw [Function.update_of_ne hpq] at hp
      refine .inr ⟨hp, ?_, fun _ => ?_⟩
      · rw [TimerManager.addTimer_obj, Function.update_of_ne hpq]
      · rw [TimerManager.addTimer_live, Function.update_of_ne hpq]
        exact hsame _
  | cancel q =>
    simp only [TimerManager.step] at hs
    split_ifs at hs
    cases hs
    have hpq : p ≠ q := by
      rintro rfl
      rw [TimerManager.cancel_obj_self] at hp
      cases hp
    rw [TimerManager.cancel_obj_of_ne _ hpq] at hp
    refine .inr ⟨hp, TimerManager.cancel_obj_of_ne _ hpq, fun _ => ?_⟩
    rw [TimerManager.cancel_live]
    exact hsame _
  | refresh now q =>
    simp only [TimerManager.step] at hs
    split_ifs at hs
    cases hs
    exact .of_retimes h hal (TimerManager.refresh_retimes _ now q) hp
  | reset now q ms fromNow =>
    simp only [TimerManager.step] at hs
    split_ifs at hs
    cases hs
    exact .of_retimes h hal (TimerManager.reset_retimes _ now q ms fromNow) hp
  | listExpiredCb now tmp => cases hal
  | getNextTimer now =>
    have hm : m.obj = s.timers.obj ∧ m.live = s.timers.live := by
      cases hs
      unfold TimerManager.getNextTimer
      split <;> exact ⟨rfl, rfl⟩
    rw [hm.1] at hp
    refine .inr ⟨hp, by rw [hm.1], fun _ => ?_⟩
    rw [hm.2]
    exact hsame _
  | release q =>
    simp only [TimerManager.step] at hs
    split_ifs at hs
    cases hs
    refine .inr ⟨hp, rfl, fun hne => ?_⟩
    have hpq : p ≠ q := fun he => hne (by rw [he])
    show Function.update s.timers.live q false p = true ∨ _
    rw [Function.update_of_ne hpq]
    exact hsame _

theorem Armed.foreign (h : Armed s) {o : TimerOp} (hal : s.allows o = true)
    (hcall : u.call = s.call) (hcb : u.cb = s.cbAfter o) (hs : s.timers.step o = some u.timers)
    (hstart : ∀ f, (u.call f).pc ≠ .ready → f ∈ u.started) : Armed u := by
  refine h.of_timers hstart (fun k t hk => ?_) (fun p k hp => ?_) fun p k t hp hk => ?_
  · rw [hcb, cbAfter_timeout hal] at hk
    rw [hcall]
    exact h.begun k t hk
  · rw [hcb]
    rcases h.untouched hal hs hp with ⟨hne, -⟩ | ⟨hp, -⟩
    · exact hne
    · exact cbAfter_used (h.known p k hp)
  · rw [hcb, cbAfter_timeout hal] at hk
    rcases h.untouched hal hs hp with ⟨-, hne⟩ | ⟨hp', hobj, hlive⟩
    · exact absurd hk (hne t)
    · refine ⟨hp', hk, hobj, ?_, by rw [hcall]⟩
      have hat := h.timeouts p k t hp' hk
      -- the object is not released, since its call has a pointer to it
      have hrel : o ≠ .release p := by
        rintro rfl
        simp only [allows, List.all_eq_true, decide_eq_true_eq] at hal
        exact hal t.call (h.started t.call (h.begun k t hk)) hat.timer
      rcases hlive hrel with hl | hl
      · rw [hl, hat.live]
      · rw [hat.live] at hl
        cases hl

variable [DecidableEq T]

theorem started_begin {f : FiberId} {args : IoArgs} {hook : Bool}
    (h : s.step (.begin f args hook) = some u) : f ∈ u.started := by
  unfold Hook.step at h
  split_ifs at h
  simp only at h
  split_ifs at h
  cases h
  exact List.mem_cons_self ..

omit [DecidableEq T] in
theorem SysCases.started_sub (h : SysCases s a u) : ∀ f ∈ s.started, f ∈ u.started := by
  intro f hf
  cases h with
  | begin _ _ _ hstart =>
    rw [hstart]
    exact List.mem_cons_of_mem _ hf
  | same _ _ hstart => rwa [hstart]
  | called _ _ _ _ hstart => rwa [hstart]
  | closed _ _ _ _ hstart => rwa [hstart]

/-- A call that is not `ready` was not before, or begins with this step. -/
theorem Armed.begun_step (h : Armed s) (hs : s.step a = some u) {f : FiberId}
    (hf : (u.call f).pc ≠ .ready) :
    (s.call f).pc ≠ .ready ∨ ∃ args hook, a = .begin f args hook := by
  cases (step_spec hs).calls.call f with
  | same hc => rw [hc] at hf; exact .inl hf
  | own ho _ =>
    by_cases hr : (s.call f).pc = .ready
    · exact .inr (ho.begin_of_ready hr)
    · exact .inl hr
  | armed _ hpc => exact .inl (by rw [hpc]; exact fun h => by cases h)
  | callback hk ht => exact .inl (ht ▸ h.begun _ _ hk)

theorem Armed.started_step (h : Armed s) (hs : s.step a = some u) (f : FiberId)
    (hf : (u.call f).pc ≠ .ready) : f ∈ u.started := by
  rcases h.begun_step hs hf with hr | ⟨args, hook, rfl⟩
  · exact (step_spec hs).records.started_sub f (h.started f hr)
  · exact started_begin hs

theorem Armed.step (h : Armed s) (hs : s.step a = some u) : Armed u := by
  have hstart := h.started_step hs
  cases (step_spec hs).calls with
  | frame hcall hcb htimers =>
    exact h.of_calls hcb htimers hstart (fun f hf => by rwa [hcall])
      fun f hw => by rw [hcall]; exact ⟨rfl, rfl, hw⟩
  | @own f c ho hcall hcb htimers =>
    by_cases ha : ∃ g, a = .cancelTimer g
    · obtain ⟨g, rfl⟩ := ha
      have hgf : g = f := by cases ho <;> rfl
      subst hgf
      exact h.cancelTimer ho hcall hcb htimers hstart
    · have ha : ∀ g, a ≠ .cancelTimer g := fun g hg => ha ⟨g, hg⟩
      rw [timersAfter_of_ne s ha] at htimers
      refine h.of_calls hcb htimers hstart (fun g hg => ?_) fun g hw => ?_
      · rw [hcall]
        by_cases hgf : g = f
        · rw [hgf, Function.update_self]
          exact ho.not_ready
        · rwa [Function.update_of_ne hgf]
      · rw [hcall]
        by_cases hgf : g = f
        · subst hgf
          rw [Function.update_self]
          exact ho.waiting hw ha
        · rw [Function.update_of_ne hgf]
          exact ⟨rfl, rfl, hw⟩
  | armed _ hpc hk hlive hcall hcb htimers => exact h.arm hpc hk hlive hcall hcb htimers hstart
  | expired _ hcall _ hcb htimers => exact h.expire hcall hcb htimers hstart
  | callback hk hm hcall hcb htimers => exact h.callback hk hm hcall hcb htimers hstart
  | foreign hal hcall hcb htimers => exact h.foreign hal hcall hcb htimers hstart

/-! ## The callbacks of a call -/

/-- Every callback of a call is in its list. -/
def Listed (s : Hook T) : Prop := ∀ k t, s.cb k = .timeout t → k ∈ (s.call t.call).armed

theorem armed_step {f : FiberId} (hs : s.step a = some u) (hf : (s.call f).pc ≠ .ready) :
    ∀ k ∈ (s.call f).armed, k ∈ (u.call f).armed := by
  intro k hk
  cases (step_spec hs).calls.call f with
  | same hc => rwa [hc]
  | own ho hc =>
    rw [hc]
    cases ho with
    | begin hpc => exact absurd hpc hf
    | _ => exact hk
  | armed _ _ hc =>
    rw [hc]
    exact List.mem_cons_of_mem _ hk
  | callback _ ht hm hc =>
    rw [hc, hm.call_eq, ht]
    exact hk

theorem Listed.step (h : Listed s) (harm : Armed s) (hs : s.step a = some u) : Listed u := by
  intro k t hk
  have hcalls := (step_spec hs).calls
  rcases hcalls.cb_back hk with ⟨t', hk'⟩ | ⟨f, now, p, -, hmem, rfl⟩
  · have hcall : t.call = t'.call := by
      cases hcalls.cb hk' with
      | same hu | taken _ _ _ hu | moved _ _ hu =>
        rw [hk] at hu
        cases hu
        rfl
    rw [hcall]
    exact armed_step hs (harm.begun k t' hk') k (h k t' hk')
  · exact hmem

theorem listed {ok : Hook T → HookLabel T → Prop} {now : UInt64}
    (hr : Reach Hook.step ok (.start now) s) : Listed s :=
  (hr.invariant (I := fun s => Armed s ∧ Listed s) ⟨.start now, fun _ _ h => by cases h⟩
    fun _ _ _ hi _ hs => ⟨hi.1.step hs, hi.2.step hi.1 hs⟩).2

end Hook

end CoroutineScheduler
