import CoroutineScheduler.Hook.Armed
import CoroutineScheduler.IOManager.Waits

/-!
# The timeout of a wait

`do_io` and `connect_with_timeout` arm their timer before they register their event. When the timer
expires in between, its callback cancels nothing, the event is registered afterwards, and no one is
left to cancel it (`timeout_lost`).

`timeout_kept`: no timeout is lost in a run in which no callback of a call is in `cancelEvent` between
the start of a round of this call and the registration of its event. The invariant is that a call
whose flag is set has a callback that will still cancel its event, as long as this event is registered
or about to be.
-/

namespace CoroutineScheduler

open Trans

/-! ## Who registers whom -/

/-- The fiber that a call registers. -/
def EventCall.adds : EventCall → Option FiberId
  | .addEvent _ _ _ who => some who.fiber
  | _ => none

/-- The fiber that a thread is about to register. -/
def CallPc.adds : CallPc → Option FiberId
  | .grow _ _ _ who => some who.fiber
  | .found _ c => c.adds
  | _ => none

theorem PcStep.adds {T : Type} {l : ConcLabel T} {pc pc' : CallPc} (h : PcStep l pc pc')
    {g : FiberId} (hg : pc'.adds = some g) :
    pc.adds = some g ∨ ∃ t c, l = .call t c ∧ c.adds = some g := by
  cases h with
  | stay => exact .inl hg
  | found => exact .inr ⟨_, _, rfl, hg⟩
  | missed => exact .inr ⟨_, _, rfl, hg⟩
  | grown => exact .inl hg
  | locked => cases hg
  | waited => cases hg
  | handled => cases hg
  | returned => cases hg

namespace Conc

variable {T : Type} [DecidableEq T] {c c' : Conc T} {v : T} {ok : Bool} {p : Ptr}

/-- An `addEvent` that fails no assertion returns. -/
theorem lock_add_out {fd : ℕ} {e : Event} {cb : Option Callback} {who : Caller} {r : IOManager × ℤ}
    (h : c.step (.lock v ok) = some c') (hpc : c.pc v = .found p (.addEvent fd e cb who))
    (hr : c.mgr.addEventLocked p fd e cb who ok = some r) : c'.pc v = .out := by
  unfold Conc.step at h
  split_ifs at h
  simp only [hpc, Option.some.injEq] at h
  rw [← h, lockStep, hr]
  exact Function.update_self ..

/-- A locked section that ends the process leaves the positions and the contexts alone. -/
theorem lock_fault {e : EventCall} (h : c.step (.lock v ok) = some c') (hpc : c.pc v = .found p e)
    (hf : c'.fault.isSome = true) : c'.pc = c.pc := by
  unfold Conc.step at h
  split_ifs at h with hfault
  simp only [hpc, Option.some.injEq] at h
  rw [← h] at hf ⊢
  cases e with
  | addEvent fd e cb who =>
    rw [lockStep] at hf ⊢
    cases hr : c.mgr.addEventLocked p fd e cb who ok with
    | none => rfl
    | some r => rw [hr] at hf; exact absurd hf hfault
  | delEvent fd e => exact absurd hf hfault
  | cancelEvent fd e =>
    rw [lockStep] at hf ⊢
    cases hr : c.mgr.cancelEventLocked p fd e ok with
    | none => rfl
    | some r => rw [hr] at hf; exact absurd hf hfault
  | cancelAll fd =>
    rw [lockStep] at hf ⊢
    cases hr : c.mgr.cancelAllLocked p fd ok with
    | none => rfl
    | some r => rw [hr] at hf; exact absurd hf hfault

end Conc

namespace Hook

variable {T : Type}

/-- Who may register fiber `g`: its own call, in `addEvent`; other threads, if it makes no hooked
calls. -/
def Adder (mine : FiberId → Bool) (s : Hook T) : Agent T → FiberId → Prop
  | .fiber f, g => g = f ∧ (s.call f).pc = .adding
  | .timeout _, _ => False
  | .other _, g => mine g = false

structure Agents (mine : FiberId → Bool) (s : Hook T) : Prop where
  begun : ∀ f, (s.call f).pc ≠ .ready → mine f = true
  adds : ∀ v g, (s.conc.pc v).adds = some g → Adder mine s v g
  cancelling : ∀ k t, s.cb k = .timeout t → t.stage = .cancelling →
    ∃ p, s.conc.pc (.timeout k) =
      .found p (.cancelEvent (s.call t.call).args.fd (s.call t.call).args.event)

theorem Agents.start (mine : FiberId → Bool) (now : UInt64) : Agents mine (Hook.start now : Hook T) where
  begun := fun _ h => absurd rfl h
  adds := fun _ _ h => by cases h
  cancelling := fun _ _ h => by cases h

variable [DecidableEq T] {mine : FiberId → Bool} {s u : Hook T} {a : HookLabel T}

theorem add_adding {f : FiberId} (h : s.step (.add f) = some u) : (u.call f).pc = .adding := by
  unfold Hook.step at h
  split_ifs at h
  simp only [add] at h
  split_ifs at h
  obtain ⟨m, -, rfl⟩ := Option.map_eq_some_iff.1 h
  show (Function.update s.call f _ f).pc = _
  rw [Function.update_self]

theorem addLock_out {f : FiberId} {ok : Bool} (h : s.step (.addLock f ok) = some u) :
    (u.call f).pc = .adding ∨ u.conc.pc (.fiber f) = .out := by
  unfold Hook.step at h
  split_ifs at h
  simp only [addLock] at h
  split at h
  · next p fd e cb who hf hpc =>
    obtain ⟨m, hm, rfl⟩ := Option.map_eq_some_iff.1 h
    split
    · exact .inl hf
    · next m' rt hr => exact .inr (Conc.lock_add_out hm hpc hr)
  · cases h

/-- A call stays in `addEvent` until this returns. -/
theorem adding_step {f : FiberId} (hf : (s.call f).pc = .adding) (hs : s.step a = some u) :
    (u.call f).pc = .adding ∨ u.conc.pc (.fiber f) = .out := by
  cases (step_spec hs).calls.call f with
  | same hc => rw [hc]; exact .inl hf
  | own ho _ =>
    cases ho with
    | added hpc _ hr => exact addLock_out hs
    | begin hpc | direct hpc | call hpc | sockopt hpc | noTimer hpc _ | add hpc | yield hpc
    | resume hpc | cancelTimer hpc | addFailed hpc _ | timedOut hpc _ | retry hpc _ _
    | connected hpc _ _ =>
      rw [hf] at hpc
      cases hpc
  | armed _ hpc =>
    rw [hf] at hpc
    cases hpc
  | callback hk ht hm hc =>
    left
    rw [hc, hm.call_eq]
    exact ht ▸ hf

/-- The position of a callback in the event machine changes in its own steps only. -/
theorem timeout_pc {k : Callback} (hs : s.step a = some u) (h1 : a ≠ .cbCancel k)
    (h2 : ∀ ok, a ≠ .cbLock k ok) : u.conc.pc (.timeout k) = s.conc.pc (.timeout k) := by
  cases (step_spec hs).conc with
  | same h => rw [h]
  | closed h => rw [h]
  | @step l hi h =>
    refine (Conc.waits_step h).1.1 (.timeout k) fun hl => ?_
    cases hi with
    | @cbCancel j t ht hst =>
      cases hl
      exact h1 rfl
    | @cbLock j ok =>
      cases hl
      exact h2 ok rfl
    | @other l => cases l <;> cases hl
    | add => cases hl
    | addGrow => cases hl
    | addLock => cases hl
    | closeCancel => cases hl
    | closeLock => cases hl

theorem cbCancel_conc {k : Callback} (hs : s.step (.cbCancel k) = some u) :
    ∃ t, s.cb k = .timeout t ∧ t.stage = .toCancel ∧ u.conc = s.conc.callStep (.timeout k)
      (.cancelEvent (s.call t.call).args.fd (s.call t.call).args.event) := by
  unfold Hook.step at hs
  split_ifs at hs
  simp only [cbCancel] at hs
  split at hs
  · next t ht =>
    split_ifs at hs with hst
    obtain ⟨m, hm, rfl⟩ := Option.map_eq_some_iff.1 hs
    refine ⟨t, ht, not_not.1 hst, ?_⟩
    rw [← (Conc.step_call hm).2]
    split_ifs <;> rfl
  · cases hs

/-- A callback that has not ended with its locked section has met the end of the process there. -/
theorem cbLock_pc {k : Callback} {ok : Bool} {t : TimeoutCb} (hs : s.step (.cbLock k ok) = some u)
    (hk : u.cb k = .timeout t) (hst : t.stage = .cancelling) :
    u.conc.pc (.timeout k) = s.conc.pc (.timeout k) := by
  unfold Hook.step at hs
  split_ifs at hs
  simp only [cbLock] at hs
  split at hs
  · next t' ht' =>
    split_ifs at hs
    obtain ⟨m, hm, rfl⟩ := Option.map_eq_some_iff.1 hs
    split_ifs at hk ⊢ with hf
    · show m.pc _ = _
      have hpc : ∃ p e, s.conc.pc (.timeout k) = .found p e := by
        unfold Conc.step at hm
        split_ifs at hm
        simp only at hm
        split at hm
        · next p e hpc => exact ⟨p, e, hpc⟩
        · cases hm
      obtain ⟨p, e, hpc⟩ := hpc
      rw [Conc.lock_fault hm hpc hf]
    · have hdone : Function.update s.cb k (.timeout { t' with stage := .done }) k = .timeout t := hk
      rw [Function.update_self] at hdone
      cases hdone
      cases hst
  · cases hs

/-- What the locked section of a callback that ends does to the contexts. -/
theorem cbLock_mgr {k : Callback} {ok : Bool} {t : TimeoutCb} {p : Ptr} {fd : ℕ} {e : Event}
    (hs : s.step (.cbLock k ok) = some u) (hpc : s.conc.pc (.timeout k) = .found p (.cancelEvent fd e))
    (hk : u.cb k = .timeout t) (hst : t.stage = .done) :
    ∃ r, s.conc.mgr.cancelEventLocked p fd e ok = some r ∧ u.conc.mgr = r.1 := by
  unfold Hook.step at hs
  split_ifs at hs with hfault
  simp only [cbLock] at hs
  split at hs
  · next t' ht' =>
    split_ifs at hs with hst'
    obtain ⟨m, hm, rfl⟩ := Option.map_eq_some_iff.1 hs
    unfold Conc.step at hm
    rw [if_neg hfault] at hm
    simp only [hpc, Option.some.injEq] at hm
    rw [Conc.lockStep] at hm
    cases hr : s.conc.mgr.cancelEventLocked p fd e ok with
    | none =>
      rw [hr] at hm
      have hf : m.fault.isSome = true := by rw [← hm]; rfl
      rw [if_pos hf] at hk
      have hk : s.cb k = .timeout t := hk
      rw [ht'] at hk
      cases hk
      rw [hst] at hst'
      exact absurd CbStage.noConfusion hst'
    | some r =>
      rw [hr] at hm
      refine ⟨r, rfl, ?_⟩
      split_ifs <;> (show m.mgr = r.1; rw [← hm]; rfl)
  · cases hs

/-- A call that has begun keeps its arguments, and what it has noted of its descriptor. -/
theorem begun_step {f : FiberId} (hs : s.step a = some u) (hf : (s.call f).pc ≠ .ready) :
    (u.call f).args = (s.call f).args ∧ (u.call f).epoch = (s.call f).epoch := by
  cases (step_spec hs).calls.call f with
  | same hc =>
    rw [hc]
    exact ⟨rfl, rfl⟩
  | own ho hc =>
    rw [hc]
    cases ho with
    | begin hpc => exact absurd hpc hf
    | _ => exact ⟨rfl, rfl⟩
  | armed _ _ hc =>
    rw [hc]
    exact ⟨rfl, rfl⟩
  | callback hk ht hm hc =>
    rw [hc, hm.call_eq, ht]
    exact ⟨rfl, rfl⟩

/-- The adder of a fiber stays its adder until its `addEvent` returns. -/
theorem Adder.step {v : Agent T} {g : FiberId} (h : Adder mine s v g) (hs : s.step a = some u)
    (hg : (u.conc.pc v).adds = some g) : Adder mine u v g := by
  cases v with
  | fiber f =>
    refine ⟨h.1, (adding_step h.2 hs).resolve_right fun hout => ?_⟩
    rw [hout] at hg
    cases hg
  | timeout k => exact h
  | other t => exact h

theorem Agents.adds_step (h : Agents mine s) (he : s.Env mine a) (hs : s.step a = some u)
    (v : Agent T) (g : FiberId) (hg : (u.conc.pc v).adds = some g) : Adder mine u v g := by
  cases (step_spec hs).conc with
  | same hc =>
    have hg' := hg
    rw [hc] at hg'
    exact (h.adds v g hg').step hs hg
  | closed hc =>
    have hg' := hg
    rw [hc] at hg'
    exact (h.adds v g hg').step hs hg
  | @step l hi hl =>
    obtain ⟨hother, hpc⟩ := (Conc.waits_step hl).1
    by_cases hv : v = l.thread
    · rw [← hv] at hpc
      rcases hpc.adds hg with hg' | ⟨t, c, hcall, hc⟩
      · exact (h.adds v g hg').step hs hg
      · -- a new call into the event machine
        cases hi with
        | @add f hf =>
          cases hcall
          rw [hv]
          exact ⟨(Option.some.inj hc).symm, add_adding hs⟩
        | cbCancel ht hst => cases hcall; cases hc
        | closeCancel => cases hcall; cases hc
        | @other l =>
          cases l with
          | call w c' =>
            cases hcall
            rw [hv]
            cases c with
            | addEvent fd e cb who =>
              rw [← Option.some.inj hc]
              exact he
            | _ => cases hc
          | _ => cases hcall
        | addGrow => cases hcall
        | addLock => cases hcall
        | cbLock => cases hcall
        | closeLock => cases hcall
    · have hg' := hg
      rw [hother v hv] at hg'
      exact (h.adds v g hg').step hs hg

theorem Agents.step (h : Agents mine s) (harm : Armed s) (he : s.Env mine a)
    (hs : s.step a = some u) : Agents mine u := by
  refine ⟨fun f hf => ?_, h.adds_step he hs, fun k t hk hst => ?_⟩
  · rcases harm.begun_step hs hf with hr | ⟨args, hook, rfl⟩
    · exact h.begun f hr
    · exact he
  · have hcalls := (step_spec hs).calls
    rcases hcalls.cb_back hk with ⟨t', hk'⟩ | ⟨f, now, p, -, -, rfl⟩
    · have hargs := (begun_step hs (harm.begun k t' hk')).1
      cases hcalls.cb hk' with
      | same hu =>
        rw [hk] at hu
        cases hu
        obtain ⟨p, hp⟩ := h.cancelling k t hk' hst
        refine ⟨p, ?_⟩
        rw [hargs]
        by_cases h2 : ∃ ok, a = .cbLock k ok
        · obtain ⟨ok, rfl⟩ := h2
          rw [cbLock_pc hs hk hst, hp]
        · have h1 : a ≠ .cbCancel k := by
            rintro rfl
            obtain ⟨t', ht', hst', -⟩ := cbCancel_conc hs
            rw [hk'] at ht'
            cases ht'
            rw [hst] at hst'
            cases hst'
          rw [timeout_pc hs h1 fun ok hok => h2 ⟨ok, hok⟩, hp]
      | taken _ _ _ hu =>
        rw [hk] at hu
        cases hu
        cases hst
      | moved hm _ hu =>
        rw [hk] at hu
        cases hu
        cases hst
        cases hm with
        | @found _ p hst' hl =>
          obtain ⟨t₁, ht₁, -, hconc⟩ := cbCancel_conc hs
          rw [hk'] at ht₁
          cases ht₁
          refine ⟨p, ?_⟩
          rw [hargs, hconc]
          have hl : s.conc.mgr.lookup (EventCall.cancelEvent (s.call t'.call).args.fd
            (s.call t'.call).args.event).fd = some p := by rw [EventCall.fd, hl]
          rw [Conc.callStep_of_some hl]
          exact Function.update_self ..
    · cases hst

/-! ## Lost timeouts -/

/-- The event of the call is registered, by this call. -/
def Registered (s : Hook T) (f : FiberId) : Prop :=
  ∃ p, (s.conc.mgr.heap p).fd = (s.call f).args.fd ∧
    (s.conc.mgr.heap p).Waits (s.call f).args.event f

/-- The callback will still call `cancelEvent`. -/
def WillCancel (s : Hook T) (t : TimeoutCb) : Prop :=
  t.stage.cancels = true ∨
    ((t.stage = .queued ∨ t.stage = .entered) ∧ (s.call t.call).cancelled = false)

/-- The timeout of the current wait of `f` is lost: the fiber is suspended and its event is registered,
the callback of the timer has run, and no callback will still cancel the event. -/
structure Lost (s : Hook T) (f : FiberId) : Prop where
  suspended : (s.call f).pc = .suspended
  registered : s.Registered f
  ran : ∃ k t, s.cb k = .timeout t ∧ t.call = f ∧ t.round = (s.call f).round ∧ t.stage = .done
  nobody : ∀ k t, s.cb k = .timeout t → t.call = f → ¬ s.WillCancel t

/-- The steps that keep the timeouts. A callback is in `cancelEvent` only when its call is not on the
way to register its event, and if the event is registered then its `epoll_ctl` succeeds; and
`addEvent` does not cut the table off. -/
def InTime (s : Hook T) : HookLabel T → Prop
  | .cbCancel k =>
    match s.cb k with
    | .timeout t => (s.call t.call).pc.unregistered = false
    | _ => True
  | .cbLock k ok =>
    match s.cb k, s.conc.pc (.timeout k) with
    | .timeout t, .found p (.cancelEvent fd e) =>
      (s.call t.call).pc.unregistered = false ∧
        ((s.conc.mgr.heap p).events &&& e.bit ≠ 0 → ok = true ∧ s.conc.mgr.interest fd ≠ none)
    | _, _ => True
  | .addGrow f => s.conc.Growing (.grow (.fiber f))
  | .other l => s.conc.Growing (l.map .other)
  | _ => True

instance (s : Hook T) (a : HookLabel T) : Decidable (s.InTime a) := by
  rcases a with _ | _ <;> unfold InTime <;> dsimp only
  case cbCancel k =>
    generalize s.cb k = o
    rcases o with _ | _ <;> dsimp only <;> infer_instance
  case cbLock k ok =>
    generalize s.cb k = o
    generalize s.conc.pc (.timeout k) = p
    rcases o with _ | _ <;> rcases p with _ | _ | ⟨p, c⟩ | _ <;> try rcases c with _ | _
    all_goals dsimp only; infer_instance
  all_goals infer_instance

structure TimeoutInv (mine : FiberId → Bool) (s : Hook T) : Prop where
  armed : Armed s
  agents : Agents mine s
  table : s.conc.TableInv
  fresh : ∀ p e f, (s.conc.mgr.heap p).Waits e f → p < s.conc.mgr.fresh
  /-- a callback that has set the flag, or has found it set -/
  set : ∀ k t, s.cb k = .timeout t → t.stage = .toCancel ∨ t.stage = .cancelling ∨ t.stage = .done →
    (s.call t.call).pc.live = true → (s.call t.call).cancelled = true
  /-- the flag is set, and the event is registered or about to be -/
  flag : ∀ f, (s.call f).pc.live = true → (s.call f).cancelled = true →
    s.Registered f ∨ (s.call f).pc.unregistered = true →
    ∃ k t, s.cb k = .timeout t ∧ t.call = f ∧ (t.stage = .toCancel ∨ t.stage = .cancelling)

omit [DecidableEq T] in
theorem TimeoutInv.not_lost (h : TimeoutInv mine s) (f : FiberId) : ¬ s.Lost f := by
  rintro ⟨hsus, hreg, ⟨k, t, hk, rfl, -, hst⟩, hover⟩
  have hlive : (s.call t.call).pc.live = true := by rw [hsus]; rfl
  have hflag := h.set k t hk (.inr (.inr hst)) hlive
  obtain ⟨k', t', hk', ht', hst'⟩ := h.flag t.call hlive hflag (.inl hreg)
  refine hover k' t' hk' ht' (.inl ?_)
  rcases hst' with h | h <;> rw [h] <;> rfl

/-! ### One step -/

omit [DecidableEq T] in
theorem growing_of_inTime {l : ConcLabel (Agent T)} (hi : Issues s a l) (ht : s.InTime a) :
    s.conc.Growing l := by
  cases hi with
  | addGrow => exact ht
  | other => exact ht
  | _ => trivial

theorem table_step (h : s.conc.TableInv) (ht : s.InTime a) (hs : s.step a = some u) :
    u.conc.TableInv ∧ s.conc.mgr.fresh ≤ u.conc.mgr.fresh := by
  cases (step_spec hs).conc with
  | same hc => rw [hc]; exact ⟨h, le_refl _⟩
  | step hi hl => exact h.step (growing_of_inTime hi ht) hl
  | closed hc => rw [hc]; exact ⟨h.frame ⟨rfl, rfl, fun _ => rfl⟩, le_refl _⟩

/-- Who waits afterwards has waited before, or is the fiber of a call in `addEvent`. -/
theorem Agents.waits_step (h : Agents mine s) (hs : s.step a = some u) {p : Ptr} {e : Event}
    {f : FiberId} (hf : mine f = true) (hw : (u.conc.mgr.heap p).Waits e f) :
    (s.conc.mgr.heap p).Waits e f ∨ (s.call f).pc = .adding := by
  cases (step_spec hs).conc with
  | same hc => rw [hc] at hw; exact .inl hw
  | closed hc => rw [hc] at hw; exact .inl hw
  | @step l hi hl =>
    rcases (Conc.waits_step hl).2 p e f hw with hw | ⟨v, ok, fd, e', cb, who, rfl, hpc, rfl⟩
    · exact .inl hw
    · right
      have hadd := h.adds v who.fiber (by rw [hpc]; rfl)
      cases v with
      | fiber g => exact hadd.1 ▸ hadd.2
      | timeout k => exact hadd.elim
      | other t =>
        have hadd : mine who.fiber = false := hadd
        rw [hf] at hadd
        cases hadd

theorem TimeoutInv.fresh_step (h : TimeoutInv mine s) (ht : s.InTime a) (hs : s.step a = some u)
    (p : Ptr) (e : Event) (f : FiberId) (hw : (u.conc.mgr.heap p).Waits e f) :
    p < u.conc.mgr.fresh := by
  have hle := (table_step h.table ht hs).2
  cases (step_spec hs).conc with
  | same hc => rw [hc] at hw; exact lt_of_lt_of_le (h.fresh p e f hw) hle
  | closed hc => rw [hc] at hw; exact lt_of_lt_of_le (h.fresh p e f hw) hle
  | @step l hi hl =>
    rcases (Conc.waits_step hl).2 p e f hw with hw | ⟨v, ok, fd, e', cb, who, rfl, hpc, rfl⟩
    · exact lt_of_lt_of_le (h.fresh p e f hw) hle
    · have hv := h.table.pc v
      rw [hpc] at hv
      exact lt_of_lt_of_le (hv.1 ▸ hv.2) hle

/-- A registered event was registered before, or its call is in `addEvent`. -/
theorem TimeoutInv.registered_step (h : TimeoutInv mine s) (ht : s.InTime a)
    (hs : s.step a = some u) {f : FiberId} (hf : (s.call f).pc ≠ .ready) (hr : u.Registered f) :
    s.Registered f ∨ (s.call f).pc = .adding := by
  obtain ⟨p, hfd, hw⟩ := hr
  rw [(begun_step hs hf).1] at hfd hw
  have hu := (table_step h.table ht hs).1.order.fd p (h.fresh_step ht hs p _ f hw)
  rcases h.agents.waits_step hs (h.agents.begun f hf) hw with hw | hadd
  · have hs := h.table.order.fd p (h.fresh p _ f hw)
    exact .inl ⟨p, by rw [hs, ← hfd, hu], hw⟩
  · exact .inr hadd

omit [DecidableEq T] in
/-- A call that has begun keeps its flag in its own steps, and was live before them. -/
theorem OwnStep.keeps {f : FiberId} {c : IoCall} (h : OwnStep s a f c)
    (hr : (s.call f).pc ≠ .ready) :
    (s.call f).pc.live = true ∧ c.cancelled = (s.call f).cancelled := by
  cases h with
  | begin hpc => exact absurd hpc hr
  | direct hpc | call hpc | sockopt hpc | noTimer hpc _ | add hpc | added hpc _ _ | yield hpc
  | resume hpc | cancelTimer hpc | addFailed hpc _ | timedOut hpc _ | retry hpc _ _
  | connected hpc _ _ =>
    rw [hpc]
    exact ⟨rfl, rfl⟩

omit [DecidableEq T] in
/-- A call with its flag set starts no round. -/
theorem OwnStep.unregistered {f : FiberId} {c : IoCall} (h : OwnStep s a f c)
    (hc : c.cancelled = true) (hu : c.pc.unregistered = true) :
    (s.call f).pc.unregistered = true := by
  cases h with
  | begin hpc => cases hc
  | retry hpc hf _ => rw [show (s.call f).cancelled = true from hc] at hf; cases hf
  | call hpc | noTimer hpc _ | add hpc | added hpc _ _ => rw [hpc]; rfl
  | addFailed hpc he =>
    dsimp only at hu
    rw [he] at hu
    split_ifs at hu <;> cases hu
  | direct hpc | sockopt hpc | yield hpc | resume hpc | cancelTimer hpc | timedOut hpc _
  | connected hpc _ _ => cases hu

/-- A flag that is set stays set while the call is live. -/
theorem flag_step {f : FiberId} (hs : s.step a = some u) (hr : (s.call f).pc ≠ .ready)
    (hlive : (u.call f).pc.live = true) :
    (s.call f).pc.live = true ∧ ((s.call f).cancelled = true → (u.call f).cancelled = true) := by
  cases (step_spec hs).calls.call f with
  | same hc => rw [hc] at hlive ⊢; exact ⟨hlive, id⟩
  | own ho hc =>
    obtain ⟨h1, h2⟩ := ho.keeps hr
    rw [hc, h2]
    exact ⟨h1, id⟩
  | armed _ hpc hc =>
    rw [hc, hpc]
    exact ⟨rfl, id⟩
  | callback hk ht hm hc =>
    subst ht
    rw [hc] at hlive ⊢
    cases hm with
    | set => exact ⟨hlive, fun _ => rfl⟩
    | _ => exact ⟨hlive, id⟩

theorem TimeoutInv.set_step (h : TimeoutInv mine s) (hs : s.step a = some u) {k : Callback}
    {t : TimeoutCb} (hk : u.cb k = .timeout t)
    (hst : t.stage = .toCancel ∨ t.stage = .cancelling ∨ t.stage = .done)
    (hlive : (u.call t.call).pc.live = true) : (u.call t.call).cancelled = true := by
  have hcalls := (step_spec hs).calls
  rcases hcalls.cb_back hk with ⟨t', hk'⟩ | ⟨f, now, p, -, -, rfl⟩
  · have hold : t.call = t'.call → t'.stage = .toCancel ∨ t'.stage = .cancelling ∨ t'.stage = .done →
        (u.call t.call).cancelled = true := by
      intro ht hst'
      rw [ht] at hlive ⊢
      obtain ⟨h1, h2⟩ := flag_step hs (h.armed.begun k t' hk') hlive
      exact h2 (h.set k t' hk' hst' h1)
    cases hcalls.cb hk' with
    | same hu =>
      rw [hk] at hu
      cases hu
      exact hold rfl hst
    | taken _ _ _ hu =>
      rw [hk] at hu
      cases hu
      rcases hst with h | h | h <;> cases h
    | moved hm hc hu =>
      rw [hk] at hu
      cases hu
      cases hm with
      | enter => rcases hst with h | h | h <;> cases h
      | pass => rcases hst with h | h | h <;> cases h
      | dead _ hl =>
        have hlive : (u.call t'.call).pc.live = true := hlive
        rw [hc, hl] at hlive
        cases hlive
      | skip _ hf => rw [hc]; exact hf
      | set => rw [hc]
      | found hst' => exact hold rfl (.inl hst')
      | missed hst' => exact hold rfl (.inl hst')
      | finish hst' => exact hold rfl (.inr (.inl hst'))
  · rcases hst with h | h | h <;> cases h

/-- The end of `cancelEvent` in a callback: the event of its call is not registered. -/
theorem TimeoutInv.not_registered (h : TimeoutInv mine s) (ht : s.InTime a)
    (hs : s.step a = some u) {k : Callback} {t : TimeoutCb} {c : IoCall} {stage : CbStage}
    (hk : s.cb k = .timeout t) (hm : CbMove s t a k c stage) (hst : stage = .done)
    (hst' : t.stage = .toCancel ∨ t.stage = .cancelling)
    (hu : u.cb k = .timeout { t with stage := stage }) :
    (s.call t.call).pc.unregistered = false ∧ ¬ u.Registered t.call := by
  have hr := h.armed.begun k t hk
  cases hm with
  | enter hq => rw [hq] at hst'; rcases hst' with h | h <;> cases h
  | dead hq => rw [hq] at hst'; rcases hst' with h | h <;> cases h
  | skip hq => rw [hq] at hst'; rcases hst' with h | h <;> cases h
  | pass => cases hst
  | set => cases hst
  | found => cases hst
  | missed _ _ hl =>
    have hun : (s.call t.call).pc.unregistered = false := by simpa only [InTime, hk] using ht
    refine ⟨hun, fun hreg => ?_⟩
    rcases h.registered_step ht hs hr hreg with ⟨p, hfd, hw⟩ | hadd
    · have hp := h.fresh p _ _ hw
      rw [h.table.order.fd p hp] at hfd
      rw [h.table.order.lookup_eq, ← hfd, if_pos hp] at hl
      cases hl
    · rw [hadd] at hun
      cases hun
  | @finish _ ok n hq =>
    obtain ⟨p, hpc⟩ := h.agents.cancelling k t hk hq
    have hguard : (s.call t.call).pc.unregistered = false ∧
        ((s.conc.mgr.heap p).events &&& (s.call t.call).args.event.bit ≠ 0 →
          ok = true ∧ s.conc.mgr.interest (s.call t.call).args.fd ≠ none) := by
      simpa only [InTime, hk, hpc] using ht
    refine ⟨hguard.1, ?_⟩
    rintro ⟨q, hfd, hw⟩
    obtain ⟨r, hr', hmgr⟩ := cbLock_mgr hs hpc hu rfl
    rw [(begun_step hs hr).1] at hfd hw
    -- the context that the callback has locked is the one of the descriptor
    have hq := (table_step h.table ht hs).1.order.fd q (h.fresh_step ht hs q _ _ hw)
    have hp := h.table.pc (.timeout k)
    rw [hpc] at hp
    have hpq : q = p := by rw [hp.1, ← hq, hfd]; rfl
    rw [hpq, hmgr] at hw
    exact IOManager.cancelEventLocked_clears hr' hguard.2 t.call hw

/-- A callback that is about to cancel stays so, or ends when there is nothing left to cancel. -/
theorem TimeoutInv.witness_step (h : TimeoutInv mine s) (ht : s.InTime a) (hs : s.step a = some u)
    {k : Callback} {t : TimeoutCb} (hk : s.cb k = .timeout t)
    (hst : t.stage = .toCancel ∨ t.stage = .cancelling) :
    (∃ t', u.cb k = .timeout t' ∧ t'.call = t.call ∧
      (t'.stage = .toCancel ∨ t'.stage = .cancelling)) ∨
      ((u.call t.call).pc.unregistered = false ∧ ¬ u.Registered t.call) := by
  cases (step_spec hs).calls.cb hk with
  | same hu => exact .inl ⟨t, hu, rfl, hst⟩
  | @taken now tmp _ _ hmem =>
    -- it has left the timer set before
    obtain ⟨as, -, hspec, -⟩ := s.timers.listExpiredCb_spec now tmp
    obtain ⟨p, -, hp⟩ := hspec.cbs k hmem
    rw [(h.armed.timeouts p k t hp hk).stage] at hst
    rcases hst with h | h <;> cases h
  | @moved c stage hm hc hu =>
    by_cases hd : stage = .done
    · right
      obtain ⟨h1, h2⟩ := h.not_registered ht hs hk hm hd hst hu
      refine ⟨?_, h2⟩
      rw [hc, hm.call_eq]
      exact h1
    · left
      refine ⟨_, hu, rfl, ?_⟩
      cases hm with
      | found => exact .inr rfl
      | enter hq | dead hq | skip hq | pass hq | set hq =>
        rw [hq] at hst
        rcases hst with h | h <;> cases h
      | missed => exact absurd rfl hd
      | finish => exact absurd rfl hd

theorem TimeoutInv.flag_step (h : TimeoutInv mine s) (ht : s.InTime a) (hs : s.step a = some u)
    (f : FiberId) (hlive : (u.call f).pc.live = true) (hc : (u.call f).cancelled = true)
    (hreg : u.Registered f ∨ (u.call f).pc.unregistered = true) :
    ∃ k t, u.cb k = .timeout t ∧ t.call = f ∧ (t.stage = .toCancel ∨ t.stage = .cancelling) := by
  -- if the flag was set and the event registered or about to be, there was such a callback before
  have hold : (s.call f).pc ≠ .ready → (s.call f).pc.live = true → (s.call f).cancelled = true →
      ((u.call f).pc.unregistered = true → (s.call f).pc.unregistered = true) →
      ∃ k t, u.cb k = .timeout t ∧ t.call = f ∧ (t.stage = .toCancel ∨ t.stage = .cancelling) := by
    intro hr hl hcan hun
    have hreg' : s.Registered f ∨ (s.call f).pc.unregistered = true := by
      rcases hreg with hreg | hreg
      · rcases h.registered_step ht hs hr hreg with hreg | hadd
        · exact .inl hreg
        · exact .inr (by rw [hadd]; rfl)
      · exact .inr (hun hreg)
    obtain ⟨k, t, hk, rfl, hst⟩ := h.flag f hl hcan hreg'
    rcases h.witness_step ht hs hk hst with ⟨t', hu, hcall, hst'⟩ | ⟨h1, h2⟩
    · exact ⟨k, t', hu, hcall, hst'⟩
    · rcases hreg with hreg | hreg
      · exact absurd hreg h2
      · rw [h1] at hreg
        cases hreg
  cases (step_spec hs).calls.call f with
  | same he =>
    rw [he] at hlive hc
    exact hold (fun hr => by rw [hr] at hlive; cases hlive) hlive hc fun hun => by rwa [he] at hun
  | own ho he =>
    rw [he] at hlive hc
    by_cases hr : (s.call f).pc = .ready
    · obtain ⟨args, hook, rfl⟩ := ho.begin_of_ready hr
      cases ho
      cases hc
    · obtain ⟨h1, h2⟩ := ho.keeps hr
      exact hold hr h1 (h2 ▸ hc) fun hun => ho.unregistered hc (he ▸ hun)
  | armed _ hpc he =>
    rw [he] at hc
    exact hold (by rw [hpc]; exact fun h => by cases h) (by rw [hpc]; rfl) hc
      fun _ => by rw [hpc]; rfl
  | @callback k t c stage hk hf hm he hu =>
    subst hf
    have hpc : c.pc = (s.call t.call).pc := by rw [hm.call_eq]
    rw [he, hpc] at hlive
    have hsame : c.cancelled = (s.call t.call).cancelled → _ := fun hcan =>
      hold (h.armed.begun k t hk) hlive (by rw [← hcan, ← he, hc]) fun hun => by rwa [he, hpc] at hun
    cases hm with
    | set => exact ⟨k, _, hu, rfl, .inl rfl⟩
    | _ => exact hsame rfl

theorem TimeoutInv.step (h : TimeoutInv mine s) (he : s.Env mine a) (ht : s.InTime a)
    (hs : s.step a = some u) : TimeoutInv mine u where
  armed := h.armed.step hs
  agents := h.agents.step h.armed he hs
  table := (table_step h.table ht hs).1
  fresh := h.fresh_step ht hs
  set := fun _ _ hk hst hlive => h.set_step hs hk hst hlive
  flag := h.flag_step ht hs

omit [DecidableEq T] in
theorem TimeoutInv.start (mine : FiberId → Bool) (now : UInt64) :
    TimeoutInv mine (Hook.start now : Hook T) where
  armed := .start now
  agents := .start mine now
  table := .start
  fresh := fun p e f hw => absurd BitVec.zero_and (IOManager.Loses.contextResize _ 32 p e f hw).1
  set := fun _ _ h => by cases h
  flag := fun _ h => by cases h

end Hook

/-- **No timeout is lost**, in every run in which the callbacks of a call keep out of the time between
the start of a round and the registration of its event. -/
theorem timeout_kept {T : Type} [DecidableEq T] {mine : FiberId → Bool} {now : UInt64} {s : Hook T}
    (hr : Reach Hook.step (fun s a => s.Env mine a ∧ s.InTime a) (.start now) s) (f : FiberId) :
    ¬ s.Lost f :=
  (hr.invariant (I := Hook.TimeoutInv mine) (.start mine now)
    fun _ _ _ hi hok hs => hi.step hok.1 hok.2 hs).not_lost f

/-- The timer expires after the registration, and the callback ends the wait. -/
theorem timeout_kept_late : ∃ s : Hook Unit, (s.call 2).pc = .done (.err .etimedout) ∧
    s.conc.mgr.pending = 0 ∧ ¬ s.Lost 2 := by
  have hr := reach_exec Hook.step (fun (s : Hook Unit) a => s.Env (fun _ => true) a ∧ s.InTime a)
    (.start 0)
    [.socket () 5, .socketGet (), .socketCreate () (some true), .setTimeout 5 .recv 0,
      .begin 2 (.receive 5) true, .sys 2 (.err .eagain), .arm 2 100 50 9, .expire 100 51, .cbStart 9,
      .cbCheck 9, .cbSet 9, .add 2, .addLock 2 true, .yield 2, .cbCancel 9, .cbLock 9 true,
      .resume 2, .cancelTimer 2, .check 2] (by decide)
  refine ⟨_, ?_, ?_, timeout_kept hr 2⟩ <;> decide

/-- A call whose only callback has run has no other that will cancel its event. -/
theorem Hook.Lost.of_single {T : Type} {s : Hook T} {f : FiberId} {k : Callback} {t : TimeoutCb}
    (hl : s.Listed) (hlist : (s.call f).armed = [k]) (hk : s.cb k = .timeout t)
    (ht : t.call = f ∧ t.round = (s.call f).round ∧ t.stage = .done)
    (hsus : (s.call f).pc = .suspended) (hreg : s.Registered f) : s.Lost f := by
  refine ⟨hsus, hreg, ⟨k, t, hk, ht⟩, fun k' t' hk' ht' hw => ?_⟩
  have hmem := hl k' t' hk'
  rw [ht', hlist, List.mem_singleton] at hmem
  rw [hmem, hk] at hk'
  cases hk'
  rcases hw with hw | ⟨hw | hw, -⟩ <;> rw [ht.2.2] at hw <;> cases hw

/-- **A lost timeout.** The timeout is zero; the timer expires and its callback cancels nothing before
the event is registered. -/
theorem timeout_lost : ∃ s : Hook Unit,
    Reach Hook.step (Hook.Env fun _ => true) (.start 0) s ∧ s.Lost 2 := by
  have hr := reach_exec Hook.step (Hook.Env (T := Unit) fun _ => true) (.start 0)
    [.socket () 5, .socketGet (), .socketCreate () (some true), .setTimeout 5 .recv 0,
      .begin 2 (.receive 5) true, .sys 2 (.err .eagain), .arm 2 100 50 9, .expire 100 51, .cbStart 9,
      .cbCheck 9, .cbSet 9, .cbCancel 9, .cbLock 9 true, .add 2, .addLock 2 true, .yield 2] (by decide)
  refine ⟨_, hr, Hook.Lost.of_single (k := 9) (t := ⟨2, 0, 100, some 100, .done⟩) (Hook.listed hr)
    ?_ ?_ ?_ ?_ ⟨5, ?_⟩⟩ <;> decide

end CoroutineScheduler
