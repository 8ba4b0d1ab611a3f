import CoroutineScheduler.Hook.Timeout

/-!
# Descriptors that are closed and used again

`close` wakes the fibers that wait in `do_io`, deletes the object of the descriptor and closes it. A
woken fiber goes back to `retry` and makes its system call again, on whatever the number stands for by
then (`reused_descriptor`): `m_isClosed` is never set, and the object is not looked up again.

`no_reuse`: the only calls that are spared are those that have timed out before they test their flag.
In every run in which all calls whose descriptor is closed meanwhile are so, and none stands before its
system call when the descriptor is closed, no call makes a system call on a closed descriptor.
-/

namespace CoroutineScheduler

open Trans

namespace Hook

variable {T : Type}

/-- The descriptor of the call has been closed since the call began. -/
def Closed (s : Hook T) (f : FiberId) : Prop := s.closes (s.call f).args.fd ≠ (s.call f).epoch

instance (s : Hook T) (f : FiberId) : Decidable (s.Closed f) := by unfold Closed; infer_instance

/-- `do_io` makes no system call on a descriptor that has been closed since it began; a value other
than `-1` is one that a system call has returned. -/
structure NoReuse (s : Hook T) : Prop where
  sys : ∀ e ∈ s.sys, (s.call e.call).args.isIo = true → e.epoch = (s.call e.call).epoch
  returned : ∀ f n, (s.call f).args.isIo = true → (s.call f).pc = .done (.ok n) →
    ∃ e ∈ s.sys, e.call = f

/-- The steps that keep to this: when `close_f` is called, no `do_io` on the descriptor is about to make
its system call; and when a `do_io` tests its flag, either it has timed out or its descriptor has not
been closed. -/
def Spared (s : Hook T) : HookLabel T → Prop
  | .closeF t =>
    match s.job t with
    | .closeF fd => ∀ f ∈ s.started, (s.call f).args.isIo = true → (s.call f).args.fd = fd →
      (s.call f).pc ≠ .call ∧ (s.call f).pc ≠ .direct
    | _ => True
  | .check f => (s.call f).args.isIo = true → s.Closed f → (s.call f).cancelled = true
  | _ => True

instance (s : Hook T) (a : HookLabel T) : Decidable (s.Spared a) := by
  rcases a with _ | _ <;> unfold Spared <;> dsimp only
  case closeF t =>
    generalize s.job t = j
    rcases j with _ | _ <;> dsimp only <;> infer_instance
  all_goals infer_instance

structure ReuseInv (s : Hook T) : Prop where
  armed : Armed s
  /-- a call whose descriptor has been closed does not stand before its system call -/
  closed : ∀ f, (s.call f).args.isIo = true → s.Closed f →
    (s.call f).pc ≠ .call ∧ (s.call f).pc ≠ .direct
  sockopt : ∀ f, (s.call f).args.isIo = true → (s.call f).pc ≠ .sockopt
  begun : ∀ e ∈ s.sys, (s.call e.call).pc ≠ .ready
  sys : ∀ e ∈ s.sys, (s.call e.call).args.isIo = true → e.epoch = (s.call e.call).epoch
  returned : ∀ f n, (s.call f).args.isIo = true → (s.call f).pc = .done (.ok n) →
    ∃ e ∈ s.sys, e.call = f

theorem ReuseInv.start (now : UInt64) : ReuseInv (Hook.start now : Hook T) where
  armed := .start now
  closed := fun _ _ h => absurd rfl h
  sockopt := fun _ _ h => by cases h
  begun := fun _ h => absurd h List.not_mem_nil
  sys := fun _ h => absurd h List.not_mem_nil
  returned := fun _ _ _ h => by cases h

variable {s u : Hook T} {a : HookLabel T}

/-! ## One step -/

/-- `do_io` has no `getsockopt`. -/
theorem OwnStep.not_sockopt {f : FiberId} {c : IoCall} (h : OwnStep s a f c)
    (hio : c.args.isIo = true) : c.pc ≠ .sockopt := by
  cases h with
  | @begin _ args hook =>
    rcases entry_cases s args hook with h | h | h <;> dsimp only <;> rw [h] <;>
      exact fun h => by cases h
  | call hpc =>
    dsimp only [afterCall]
    split <;> exact fun h => by cases h
  | addFailed hpc he =>
    rw [if_pos (show (s.call f).args.isIo = true from hio)] at he
    subst he
    exact fun h => by cases h
  | connected hpc _ hio' =>
    rw [show (s.call f).args.isIo = true from hio] at hio'
    cases hio'
  | added hpc _ _ =>
    dsimp only
    split_ifs <;> exact fun h => by cases h
  | direct | sockopt | retry | noTimer | add | yield | resume | cancelTimer | timedOut =>
    exact fun h => by cases h

/-- How a call comes to stand before its system call: it begins, it is interrupted, or it goes back to
`retry`. -/
theorem OwnStep.calls {f : FiberId} {c : IoCall} (h : OwnStep s a f c)
    (hpc : c.pc = .call ∨ c.pc = .direct) :
    c.epoch = s.closes c.args.fd ∨
      (c.args = (s.call f).args ∧ c.epoch = (s.call f).epoch ∧
        ((s.call f).pc = .call ∨ (s.call f).cancelled = false ∧ a = .check f)) := by
  cases h with
  | begin => exact .inl rfl
  | call hcall => exact .inr ⟨rfl, rfl, .inl hcall⟩
  | retry _ hf _ => exact .inr ⟨rfl, rfl, .inr ⟨hf, rfl⟩⟩
  | addFailed _ he =>
    dsimp only at hpc
    rw [he] at hpc
    split_ifs at hpc <;> rcases hpc with h | h <;> cases h
  | added _ _ _ =>
    dsimp only at hpc
    split_ifs at hpc <;> rcases hpc with h | h <;> cases h
  | direct | sockopt | connected | noTimer | add | yield | resume | cancelTimer | timedOut =>
    rcases hpc with h | h <;> cases h

/-- A value is returned by a system call. -/
theorem OwnStep.returns {f : FiberId} {c : IoCall} (h : OwnStep s a f c) {n : ℕ}
    (hpc : c.pc = .done (.ok n)) : ∃ r, a = .sys f r := by
  cases h with
  | @begin _ args hook =>
    dsimp only at hpc
    rcases entry_cases s args hook with h | h | h <;> rw [h] at hpc <;> cases hpc
  | direct | call | sockopt => exact ⟨_, rfl⟩
  | addFailed _ he =>
    dsimp only at hpc
    rw [he] at hpc
    split_ifs at hpc
    cases hpc
  | added _ _ _ =>
    dsimp only at hpc
    split_ifs at hpc
  | retry | connected | noTimer | add | yield | resume | cancelTimer | timedOut => cases hpc

theorem OwnStep.not_closeF {f : FiberId} {c : IoCall} (h : OwnStep s a f c) (t : T) :
    a ≠ .closeF t := by
  cases h <;> exact fun h => by cases h

theorem CbMove.not_closeF {t : TimeoutCb} {k : Callback} {c : IoCall} {stage : CbStage}
    (h : CbMove s t a k c stage) (v : T) : a ≠ .closeF v := by
  cases h <;> exact fun h => by cases h

theorem SysCases.closes (h : SysCases s a u) (ha : ∀ t, a ≠ .closeF t) : u.closes = s.closes := by
  cases h with
  | same _ hc => exact hc
  | begin _ _ hc => exact hc
  | called _ _ _ hc => exact hc
  | closed ht => exact absurd ht (ha _)

theorem SysCases.sys_sub (h : SysCases s a u) : ∀ e ∈ s.sys, e ∈ u.sys := by
  intro e he
  cases h with
  | same hs => rwa [hs]
  | begin _ hs => rwa [hs]
  | closed _ _ hs => rwa [hs]
  | called _ _ hs =>
    rw [hs]
    exact List.mem_cons_of_mem _ he

variable [DecidableEq T]

theorem sys_recorded {f : FiberId} {r : SysResult} (hs : s.step (.sys f r) = some u) :
    ∃ e ∈ u.sys, e.call = f := by
  unfold Hook.step at hs
  split_ifs at hs
  simp only [sysCall] at hs
  split at hs <;> cases hs <;> exact ⟨_, List.mem_cons_self .., rfl⟩

theorem ReuseInv.closed_step (h : ReuseInv s) (hsp : s.Spared a) (hs : s.step a = some u)
    (f : FiberId) (hio : (u.call f).args.isIo = true) (hcl : u.Closed f) :
    (u.call f).pc ≠ .call ∧ (u.call f).pc ≠ .direct := by
  have hspec := step_spec hs
  cases hspec.calls.call f with
  | same hc =>
    rw [hc] at hio ⊢
    rw [Closed, hc] at hcl
    by_cases ha : ∃ t, a = .closeF t
    · -- the descriptor may be closed with this step
      obtain ⟨t, rfl⟩ := ha
      cases hspec.records with
      | same _ hclose => rw [hclose] at hcl; exact h.closed f hio hcl
      | begin hb => cases hb
      | called hb => cases hb
      | @closed t' fd hb hj _ hclose =>
        cases hb
        by_cases hfd : (s.call f).args.fd = fd
        · by_cases hr : (s.call f).pc = .ready
          · rw [hr]
            exact ⟨fun h => (by cases h), fun h => by cases h⟩
          · simp only [Spared, hj] at hsp
            exact hsp f (h.armed.started f hr) hio hfd
        · rw [hclose, Function.update_of_ne hfd] at hcl
          exact h.closed f hio hcl
    · rw [hspec.records.closes fun t ht => ha ⟨t, ht⟩] at hcl
      exact h.closed f hio hcl
  | own ho hc =>
    rw [Closed, hc, hspec.records.closes ho.not_closeF] at hcl
    rw [hc] at hio ⊢
    rw [← not_or]
    intro hpc
    rcases ho.calls hpc with he | ⟨hargs, hep, hcase⟩
    · exact hcl he.symm
    · rw [hargs] at hio hcl
      rw [hep] at hcl
      rcases hcase with hcall | ⟨hf, rfl⟩
      · exact (h.closed f hio hcl).1 hcall
      · rw [hsp hio hcl] at hf
        cases hf
  | armed ha hpc hc =>
    rw [hc]
    exact ⟨fun h => (by cases h), fun h => by cases h⟩
  | callback hk ht hm hc =>
    have he : (u.call f).pc = (s.call f).pc ∧ (u.call f).args = (s.call f).args ∧
        (u.call f).epoch = (s.call f).epoch := by
      rw [hc, hm.call_eq, ht]
      exact ⟨rfl, rfl, rfl⟩
    rw [Closed, he.2.1, he.2.2, hspec.records.closes hm.not_closeF] at hcl
    rw [he.2.1] at hio
    rw [he.1]
    exact h.closed f hio hcl

theorem ReuseInv.sockopt_step (h : ReuseInv s) (hs : s.step a = some u) (f : FiberId)
    (hio : (u.call f).args.isIo = true) : (u.call f).pc ≠ .sockopt := by
  cases (step_spec hs).calls.call f with
  | same hc => rw [hc] at hio ⊢; exact h.sockopt f hio
  | own ho hc => rw [hc] at hio ⊢; exact ho.not_sockopt hio
  | armed _ _ hc => rw [hc]; exact fun h => by cases h
  | callback hk ht hm hc =>
    rw [hc, hm.call_eq, ht] at hio ⊢
    exact h.sockopt f hio

theorem ready_step {f : FiberId} (hs : s.step a = some u) (hf : (s.call f).pc ≠ .ready) :
    (u.call f).pc ≠ .ready := by
  cases (step_spec hs).calls.call f with
  | same hc => rwa [hc]
  | own ho hc => rw [hc]; exact ho.not_ready
  | armed _ _ hc => rw [hc]; exact fun h => by cases h
  | callback hk ht hm hc => rwa [hc, hm.call_eq, ht]

/-- A system call is recorded for a call that has begun, with the number of closings at its start. -/
theorem ReuseInv.sys_step (h : ReuseInv s) (hs : s.step a = some u) {e : SysCall} (he : e ∈ u.sys) :
    (u.call e.call).pc ≠ .ready ∧
      ((u.call e.call).args.isIo = true → e.epoch = (u.call e.call).epoch) := by
  have hold : e ∈ s.sys → (u.call e.call).pc ≠ .ready ∧
      ((u.call e.call).args.isIo = true → e.epoch = (u.call e.call).epoch) := by
    intro he
    have hr := h.begun e he
    rw [(begun_step hs hr).1, (begun_step hs hr).2]
    exact ⟨ready_step hs hr, h.sys e he⟩
  cases (step_spec hs).records with
  | same hsys => exact hold (hsys ▸ he)
  | begin _ hsys => exact hold (hsys ▸ he)
  | closed _ _ hsys => exact hold (hsys ▸ he)
  | @called f r _ hpc hsys =>
    rw [hsys] at he
    rcases List.mem_cons.1 he with rfl | he
    · have hr : (s.call f).pc ≠ .ready := by
        intro hr
        rw [hr] at hpc
        rcases hpc with h | h | h <;> cases h
      refine ⟨ready_step hs hr, fun hio => ?_⟩
      rw [(begun_step hs hr).1] at hio
      rw [(begun_step hs hr).2]
      by_contra hne
      obtain ⟨h1, h2⟩ := h.closed f hio hne
      rcases hpc with h | h' | h'
      · exact h2 h
      · exact h1 h'
      · exact h.sockopt f hio h'
    · exact hold he

theorem ReuseInv.returned_step (h : ReuseInv s) (hs : s.step a = some u) (f : FiberId) (n : ℕ)
    (hio : (u.call f).args.isIo = true) (hpc : (u.call f).pc = .done (.ok n)) :
    ∃ e ∈ u.sys, e.call = f := by
  have hspec := step_spec hs
  have hold : (s.call f).args.isIo = true → (s.call f).pc = .done (.ok n) →
      ∃ e ∈ u.sys, e.call = f := by
    intro hio hpc
    obtain ⟨e, he, hf⟩ := h.returned f n hio hpc
    exact ⟨e, hspec.records.sys_sub e he, hf⟩
  cases hspec.calls.call f with
  | same hc =>
    rw [hc] at hio hpc
    exact hold hio hpc
  | own ho hc =>
    obtain ⟨r, rfl⟩ := ho.returns (hc ▸ hpc)
    exact sys_recorded hs
  | armed _ _ hc =>
    rw [hc] at hpc
    cases hpc
  | callback hk ht hm hc =>
    rw [hc, hm.call_eq, ht] at hio hpc
    exact hold hio hpc

theorem ReuseInv.step (h : ReuseInv s) (hsp : s.Spared a) (hs : s.step a = some u) : ReuseInv u where
  armed := h.armed.step hs
  closed := h.closed_step hsp hs
  sockopt := h.sockopt_step hs
  begun := fun _ he => (h.sys_step hs he).1
  sys := fun _ he => (h.sys_step hs he).2
  returned := h.returned_step hs

end Hook

end CoroutineScheduler
