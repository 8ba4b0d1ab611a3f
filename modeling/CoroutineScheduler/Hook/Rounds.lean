import CoroutineScheduler.Hook.Timeout

/-!
# The rounds of `do_io`

All rounds of a call of `do_io` share one `timer_info`. A callback that has been taken out of the timer
set is not stopped by `timer->cancel()`; when the call goes on to another round before this callback
has run, it sets the flag for the later round and cancels the event of the later round
(`stale_timeout`).

`timeout_current`: in a run in which a call goes on to another round only when no callback of it is
left unfinished, `ETIMEDOUT` is reported only when the deadline of the current round has passed, and
only the callback of the current round sets the flag and cancels the event.
-/

namespace CoroutineScheduler

open Trans

namespace Hook

variable {T : Type}

/-- The timer that `f` has armed in its current round has expired: it was taken out of the set at a
clock reading not before its deadline. -/
def Expired (s : Hook T) (f : FiberId) : Prop :=
  ∃ k t now, s.cb k = .timeout t ∧ t.call = f ∧ t.round = (s.call f).round ∧ t.stage ≠ .armed ∧
    t.takenAt = some now ∧ t.next ≤ now

/-- Timeouts belong to the current round. -/
structure Current (s : Hook T) : Prop where
  /-- `ETIMEDOUT` is returned after the deadline of the current round -/
  timedOut : ∀ f, (s.call f).pc = .done (.err .etimedout) → s.Expired f
  /-- a callback that is about to set the flag or to cancel the event is that of the current round -/
  callback : ∀ k t, s.cb k = .timeout t → (s.call t.call).pc.live = true → t.stage.cancels = true →
    t.round = (s.call t.call).round

/-- The callback has been taken out of the timer set and is not at its end. -/
def isUnfinished (s : Hook T) (k : Callback) : Bool :=
  match s.cb k with
  | .timeout t => t.stage.unfinished
  | _ => false

/-- The steps that keep the rounds apart: a call goes on to another round when no callback of it is
unfinished; no system call fails with `ETIMEDOUT` by itself; and when the clock has gone back and
the whole timer set is flushed, all of it is due. -/
def Settled (s : Hook T) : HookLabel T → Prop
  | .check f => (s.call f).cancelled = true ∨ ∀ k ∈ (s.call f).armed, s.isUnfinished k = false
  | .sys _ r => r ≠ .err .etimedout
  | .expire now _ =>
    (s.timers.detectClockRollover now).2 = true →
      ∀ p ∈ s.timers.timers, (s.timers.obj p).next ≤ now
  | _ => True

instance (s : Hook T) (a : HookLabel T) : Decidable (s.Settled a) := by
  rcases a with _ | _ <;> unfold Settled <;> infer_instance

structure RoundsInv (s : Hook T) : Prop where
  armed : Armed s
  listed : Listed s
  current : ∀ k t, s.cb k = .timeout t → (s.call t.call).pc.live = true →
    t.stage.unfinished = true → t.round = (s.call t.call).round
  due : ∀ k t, s.cb k = .timeout t → t.stage ≠ .armed → ∃ now, t.takenAt = some now ∧ t.next ≤ now
  flag : ∀ f, (s.call f).pc.live = true → (s.call f).cancelled = true → s.Expired f
  timedOut : ∀ f, (s.call f).pc = .done (.err .etimedout) → s.Expired f

theorem RoundsInv.start (now : UInt64) : RoundsInv (Hook.start now : Hook T) where
  armed := .start now
  listed := fun _ _ h => by cases h
  current := fun _ _ h => by cases h
  due := fun _ _ h => by cases h
  flag := fun _ h => by cases h
  timedOut := fun _ h => by cases h

theorem RoundsInv.toCurrent {s : Hook T} (h : RoundsInv s) : s.Current where
  timedOut := h.timedOut
  callback := fun k t hk hlive hst => h.current k t hk hlive (by
    revert hst
    cases t.stage <;> exact fun h => by first | rfl | cases h)

variable [DecidableEq T] {s u : Hook T} {a : HookLabel T}

/-- A round ends only when the call goes on to the next one. -/
theorem round_step {f : FiberId} (hs : s.step a = some u) (hr : (s.call f).pc ≠ .ready) :
    (u.call f).round = (s.call f).round ∨
      (a = .check f ∧ (s.call f).cancelled = false ∧ (u.call f).cancelled = false) := by
  cases (step_spec hs).calls.call f with
  | same hc => rw [hc]; exact .inl rfl
  | own ho hc =>
    rw [hc]
    cases ho with
    | begin hpc => exact absurd hpc hr
    | retry _ hf => exact .inr ⟨rfl, hf, hf⟩
    | _ => exact .inl rfl
  | armed _ _ hc => rw [hc]; exact .inl rfl
  | callback _ ht hm hc => rw [hc, hm.call_eq, ht]; exact .inl rfl

/-- An expired timer stays expired while the round lasts. -/
theorem Expired.step {f : FiberId} (h : s.Expired f) (harm : Armed s) (hs : s.step a = some u)
    (hround : (u.call f).round = (s.call f).round) : u.Expired f := by
  obtain ⟨k, t, now, hk, hf, hr, hst, htaken, hnext⟩ := h
  cases (step_spec hs).calls.cb hk with
  | same hu => exact ⟨k, t, now, hu, hf, by rw [hround, hr], hst, htaken, hnext⟩
  | @taken now' tmp _ _ hmem =>
    obtain ⟨as, -, hspec, -⟩ := s.timers.listExpiredCb_spec now' tmp
    obtain ⟨p, -, hp⟩ := hspec.cbs k hmem
    exact absurd (harm.timeouts p k t hp hk).stage hst
  | moved hm _ hu =>
    exact ⟨k, _, now, hu, hf, by rw [hround, ← hr], hm.not_armed.2, htaken, hnext⟩

omit [DecidableEq T] in
/-- A callback that is taken out of the set is that of the current round, and it is due. -/
theorem Armed.taken (h : Armed s) {now : UInt64} {tmp : Addr} (hset : s.Settled (.expire now tmp))
    (hlive : s.timers.live tmp = false) {k : Callback} {t : TimeoutCb} (hk : s.cb k = .timeout t)
    (hmem : some k ∈ (s.timers.listExpiredCb now tmp).2) :
    t.round = (s.call t.call).round ∧ t.next ≤ now := by
  obtain ⟨as, hsub, hspec, hdue⟩ := s.timers.listExpiredCb_spec now tmp
  obtain ⟨p, hp, hpk⟩ := hspec.cbs k hmem
  have hat := h.timeouts p k t hpk hk
  refine ⟨hat.round, ?_⟩
  rw [← hat.next]
  cases hroll : (s.timers.detectClockRollover now).2 with
  | true => exact hset hroll p (hsub p hp)
  | false =>
    refine hdue hroll p hp ?_
    rintro rfl
    rw [hat.live] at hlive
    cases hlive

omit [DecidableEq T] in
theorem CbMove.unfinished {t : TimeoutCb} {k : Callback} {c : IoCall} {stage : CbStage}
    (h : CbMove s t a k c stage) : t.stage.unfinished = true := by
  cases h <;> simp [*, CbStage.unfinished]

theorem RoundsInv.current_step (h : RoundsInv s) (hset : s.Settled a) (hs : s.step a = some u)
    {k : Callback} {t : TimeoutCb} (hk : u.cb k = .timeout t)
    (hlive : (u.call t.call).pc.live = true) (hun : t.stage.unfinished = true) :
    t.round = (u.call t.call).round := by
  have hcalls := (step_spec hs).calls
  rcases hcalls.cb_back hk with ⟨t', hk'⟩ | ⟨f, now, p, -, -, rfl⟩
  · have hr := h.armed.begun k t' hk'
    cases hcalls.cb hk' with
    | same hu =>
      rw [hk] at hu
      cases hu
      have hold := h.current k t hk' (flag_step hs hr hlive).1 hun
      rcases round_step hs hr with hround | ⟨rfl, hf, -⟩
      · rw [hround, hold]
      · -- the next round starts with no callback left
        rcases hset with hset | hset
        · rw [hf] at hset
          cases hset
        · have hnot := hset k (h.listed k t hk')
          simp only [isUnfinished, hk', hun] at hnot
          cases hnot
    | taken ha hlv hmem hu =>
      rw [hk] at hu
      cases hu
      subst ha
      rcases round_step hs hr with hround | ⟨ha, -⟩
      · have := (h.armed.taken hset hlv hk' hmem).1
        show t'.round = (u.call t'.call).round
        rw [hround, this]
      · cases ha
    | moved hm hc hu =>
      rw [hk] at hu
      cases hu
      have hold := h.current k t' hk' (flag_step hs hr hlive).1 hm.unfinished
      show t'.round = (u.call t'.call).round
      rw [hc, hm.call_eq, hold]
  · cases hun

theorem RoundsInv.due_step (h : RoundsInv s) (hset : s.Settled a) (hs : s.step a = some u)
    {k : Callback} {t : TimeoutCb} (hk : u.cb k = .timeout t) (hst : t.stage ≠ .armed) :
    ∃ now, t.takenAt = some now ∧ t.next ≤ now := by
  have hcalls := (step_spec hs).calls
  rcases hcalls.cb_back hk with ⟨t', hk'⟩ | ⟨f, now, p, -, -, rfl⟩
  · cases hcalls.cb hk' with
    | same hu =>
      rw [hk] at hu
      cases hu
      exact h.due k t hk' hst
    | @taken now tmp ha hlv hmem hu =>
      rw [hk] at hu
      cases hu
      subst ha
      exact ⟨now, rfl, (h.armed.taken hset hlv hk' hmem).2⟩
    | moved hm _ hu =>
      rw [hk] at hu
      cases hu
      exact h.due k t' hk' hm.not_armed.1
  · exact absurd rfl hst

theorem RoundsInv.flag_step (h : RoundsInv s) (hs : s.step a = some u) (f : FiberId)
    (hlive : (u.call f).pc.live = true) (hc : (u.call f).cancelled = true) : u.Expired f := by
  have hold : (s.call f).pc ≠ .ready → (s.call f).pc.live = true → (s.call f).cancelled = true →
      u.Expired f := by
    intro hr hl hcan
    rcases round_step hs hr with hround | ⟨-, -, hf⟩
    · exact (h.flag f hl hcan).step h.armed hs hround
    · rw [hc] at hf
      cases hf
  cases (step_spec hs).calls.call f with
  | same he =>
    rw [he] at hlive hc
    exact hold (fun hr => by rw [hr] at hlive; cases hlive) hlive hc
  | own ho he =>
    rw [he] at hc
    by_cases hr : (s.call f).pc = .ready
    · obtain ⟨args, hook, rfl⟩ := ho.begin_of_ready hr
      cases ho
      cases hc
    · obtain ⟨h1, h2⟩ := ho.keeps hr
      exact hold hr h1 (h2 ▸ hc)
  | armed _ hpc he =>
    rw [he] at hc
    exact hold (by rw [hpc]; exact fun h => by cases h) (by rw [hpc]; rfl) hc
  | @callback k t c stage hk hf hm he hu =>
    subst hf
    have hpc : c.pc = (s.call t.call).pc := by rw [hm.call_eq]
    rw [he, hpc] at hlive
    have hr := h.armed.begun k t hk
    have hsame : c.cancelled = (s.call t.call).cancelled → _ := fun hcan =>
      hold hr hlive (by rw [← hcan, ← he, hc])
    cases hm with
    | set hst =>
      -- the callback that sets the flag is that of the current round
      obtain ⟨now, htaken, hnext⟩ := h.due k t hk (by rw [hst]; exact fun h => by cases h)
      have hround := h.current k t hk hlive (by rw [hst]; rfl)
      refine ⟨k, _, now, hu, rfl, by rw [he, hround], fun h => ?_, htaken, hnext⟩
      cases h
    | _ => exact hsame rfl

omit [DecidableEq T] in
/-- `ETIMEDOUT` comes from the test of the flag. -/
theorem OwnStep.timedOut_cases {f : FiberId} {c : IoCall} (h : OwnStep s a f c)
    (hset : s.Settled a) (hc : c.pc = .done (.err .etimedout)) :
    (s.call f).pc = .check ∧ (s.call f).cancelled = true := by
  cases h with
  | timedOut hpc hf => exact ⟨hpc, hf⟩
  | @begin _ args hook =>
    dsimp only at hc
    rcases entry_cases s args hook with h | h | h <;> rw [h] at hc <;> cases hc
  | direct hpc =>
    cases hc
    exact absurd rfl hset
  | sockopt hpc =>
    cases hc
    exact absurd rfl hset
  | @call _ r hpc =>
    have hr : r = .err .etimedout := by
      dsimp only [afterCall] at hc
      split at hc <;> cases hc
      rfl
    exact absurd hr hset
  | added hpc _ _ =>
    dsimp only at hc
    split_ifs at hc
  | addFailed hpc he =>
    dsimp only at hc
    rw [he] at hc
    split_ifs at hc
    cases hc
  | noTimer | add | yield | resume | cancelTimer | retry | connected => cases hc

theorem RoundsInv.timedOut_step (h : RoundsInv s) (hset : s.Settled a) (hs : s.step a = some u)
    (f : FiberId) (hpc : (u.call f).pc = .done (.err .etimedout)) : u.Expired f := by
  cases (step_spec hs).calls.call f with
  | same hc =>
    rw [hc] at hpc
    exact (h.timedOut f hpc).step h.armed hs (by rw [hc])
  | own ho hc =>
    obtain ⟨hcheck, hf⟩ := ho.timedOut_cases hset (hc ▸ hpc)
    have hexp := h.flag f (by rw [hcheck]; rfl) hf
    rcases round_step hs (f := f) (by rw [hcheck]; exact fun h => by cases h) with hr | ⟨-, hf', -⟩
    · exact hexp.step h.armed hs hr
    · rw [hf] at hf'
      cases hf'
  | armed _ _ hc =>
    rw [hc] at hpc
    cases hpc
  | callback _ ht hm hc =>
    rw [hc, hm.call_eq, ht] at hpc
    exact (h.timedOut f hpc).step h.armed hs (by rw [hc, hm.call_eq, ht])

theorem RoundsInv.step (h : RoundsInv s) (hset : s.Settled a) (hs : s.step a = some u) :
    RoundsInv u where
  armed := h.armed.step hs
  listed := h.listed.step h.armed hs
  current := fun _ _ hk hlive hun => h.current_step hset hs hk hlive hun
  due := fun _ _ hk hst => h.due_step hset hs hk hst
  flag := h.flag_step hs
  timedOut := h.timedOut_step hset hs

end Hook

/-- **Timeouts belong to the current round**, in every run in which a call goes on to another round
only when no callback of it is unfinished. -/
theorem timeout_current {T : Type} [DecidableEq T] {now : UInt64} {s : Hook T}
    (hr : Reach Hook.step Hook.Settled (.start now) s) : s.Current :=
  (hr.invariant (I := Hook.RoundsInv) (.start now)
    fun _ _ _ hi hok hs => hi.step hok hs).toCurrent

/-- The first round ends with an event, the second with a timeout. -/
theorem timeout_current_second : ∃ s : Hook Unit, (s.call 2).pc = .done (.err .etimedout) ∧
    (s.call 2).round = 1 ∧ s.Current := by
  have hr := reach_exec Hook.step (Hook.Settled (T := Unit)) (.start 0)
    [.socket () 5, .socketGet (), .socketCreate () (some true), .setTimeout 5 .recv 10,
      .begin 2 (.receive 5) true, .sys 2 (.err .eagain), .arm 2 100 50 9, .add 2, .addLock 2 true,
      .yield 2, .other (.wait () [(5, 1)]), .other (.handle () true), .resume 2, .cancelTimer 2,
      .check 2, .sys 2 (.err .eagain), .arm 2 105 52 10, .add 2, .addLock 2 true, .yield 2,
      .expire 115 51, .cbStart 10, .cbCheck 10, .cbSet 10, .cbCancel 10, .cbLock 10 true, .resume 2,
      .cancelTimer 2, .check 2] (by decide)
  refine ⟨_, ?_, ?_, timeout_current hr⟩ <;> decide

/-- A call with two callbacks, of which the one of the current round has not expired. -/
theorem Hook.not_expired {T : Type} {s : Hook T} {f : FiberId} {k m : Callback} {t u : TimeoutCb}
    (hl : s.Listed) (hlist : (s.call f).armed = [m, k]) (hk : s.cb k = .timeout t)
    (ht : t.round ≠ (s.call f).round) (hm : s.cb m = .timeout u) (hu : u.stage = .armed) :
    ¬ s.Expired f := by
  rintro ⟨j, r, now, hj, hf, hround, hst, -⟩
  have hmem := hl j r hj
  rw [hf, hlist, List.mem_cons, List.mem_singleton] at hmem
  rcases hmem with rfl | rfl
  · rw [hm] at hj
    cases hj
    exact hst hu
  · rw [hk] at hj
    cases hj
    exact ht hround

/-- **A stale timeout.** In the first round the timer expires just when the event occurs. The call goes
on to the second round and waits again; then the callback of the first round runs. -/
theorem stale_timeout : ∃ s : Hook Unit, Reach Hook.step Trans.free (.start 0) s ∧
    (s.call 2).pc = .done (.err .etimedout) ∧ ¬ s.Current := by
  have hr := reach_exec Hook.step (Trans.free (σ := Hook Unit)) (.start 0)
    [.socket () 5, .socketGet (), .socketCreate () (some true), .setTimeout 5 .recv 10,
      .begin 2 (.receive 5) true, .sys 2 (.err .eagain), .arm 2 100 50 9, .add 2, .addLock 2 true,
      .yield 2, .other (.wait () [(5, 1)]), .expire 110 51, .other (.handle () true), .resume 2,
      .cancelTimer 2, .check 2, .sys 2 (.err .eagain), .arm 2 111 52 10, .add 2, .addLock 2 true,
      .yield 2, .cbStart 9, .cbCheck 9, .cbSet 9, .cbCancel 9, .cbLock 9 true, .resume 2,
      .cancelTimer 2, .check 2] (by decide)
  have hnot := fun h1 h2 h3 h4 h5 => Hook.not_expired (f := 2) (k := 9) (m := 10)
    (t := ⟨2, 0, 110, some 110, .done⟩) (u := ⟨2, 1, 121, none, .armed⟩) (Hook.listed hr) h1 h2 h3 h4 h5
  refine ⟨_, hr, ?_, fun h => hnot ?_ ?_ ?_ ?_ ?_ (h.timedOut 2 ?_)⟩ <;> decide

end CoroutineScheduler
