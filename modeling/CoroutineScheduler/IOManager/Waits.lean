import CoroutineScheduler.IOManager.Table

/-!
# Who waits in a context

`FdContext.Waits`: an event is registered with a fiber to be scheduled. Only `addEvent`, called from
that fiber, makes a fiber wait; every other operation can only end the wait (`Conc.waits_step`).
`cancelEvent` ends it, when its `epoll_ctl` succeeds (`cancelEventLocked_clears`).
-/

namespace CoroutineScheduler

namespace FdContext

/-- Fiber `f` is registered for event `e`. -/
def Waits (c : FdContext) (e : Event) (f : FiberId) : Prop :=
  c.events &&& e.bit ≠ 0 ∧ (c.getContext e).fiber = some f

instance (c : FdContext) (e : Event) (f : FiberId) : Decidable (c.Waits e f) := by
  unfold Waits; infer_instance

theorem getContext_setContext_self (c : FdContext) (e : Event) (x : EventContext) :
    (c.setContext e x).getContext e = x := by
  cases e <;> rfl

theorem getContext_setContext_of_ne (c : FdContext) {e e' : Event} (h : e' ≠ e) (x : EventContext) :
    (c.setContext e x).getContext e' = c.getContext e' := by
  cases e <;> cases e' <;> first | rfl | exact absurd rfl h

theorem events_setContext (c : FdContext) (e : Event) (x : EventContext) :
    (c.setContext e x).events = c.events := by
  cases e <;> rfl

theorem and_not_bit_self (m : Mask) (e : Event) : m &&& ~~~e.bit &&& e.bit = 0 := by
  have hbit : ~~~e.bit &&& e.bit = 0 := by cases e <;> decide
  rw [BitVec.and_assoc, hbit]
  exact BitVec.and_zero

theorem and_not_bit_of_ne {m : Mask} {e e' : Event} (h : e' ≠ e) :
    m &&& ~~~e.bit &&& e'.bit = m &&& e'.bit := by
  have hbit : ~~~e.bit &&& e'.bit = e'.bit := by
    cases e <;> cases e' <;> first | decide | exact absurd rfl h
  rw [BitVec.and_assoc, hbit]

theorem or_bit_of_ne {m : Mask} {e e' : Event} (h : e' ≠ e) :
    (m ||| e.bit) &&& e'.bit = m &&& e'.bit := by
  have hbit : e.bit &&& e'.bit = 0 := by
    cases e <;> cases e' <;> first | decide | exact absurd rfl h
  rw [BitVec.and_comm, BitVec.and_or_distrib_left, BitVec.and_comm _ e.bit, hbit, BitVec.and_comm]
  exact BitVec.or_zero

/-- Taking an event out of the mask, and a store to its context, end the wait for that event and leave
the other one alone. -/
theorem Waits.of_clear {c : FdContext} {e e' : Event} {f : FiberId} {x : EventContext}
    (h : ({ c with events := c.events &&& ~~~e.bit }.setContext e x).Waits e' f) :
    e' ≠ e ∧ c.Waits e' f := by
  obtain ⟨hbit, hf⟩ := h
  rw [events_setContext] at hbit
  have hne : e' ≠ e := by
    rintro rfl
    exact hbit (and_not_bit_self _ _)
  dsimp only at hbit
  rw [and_not_bit_of_ne hne] at hbit
  rw [getContext_setContext_of_ne _ hne] at hf
  exact ⟨hne, hbit, by cases e' <;> exact hf⟩

theorem triggerEvent_clear {c : FdContext} {e : Event} {r : FdContext × Option Call}
    (h : c.triggerEvent e = some r) :
    ∃ x, r.1 = { c with events := c.events &&& ~~~e.bit }.setContext e x := by
  unfold triggerEvent at h
  dsimp only at h
  split_ifs at h
  · obtain ⟨sched, -, rfl⟩ := Option.map_eq_some_iff.1 h
    exact ⟨_, rfl⟩
  · obtain ⟨sched, -, rfl⟩ := Option.map_eq_some_iff.1 h
    exact ⟨_, rfl⟩
  · cases h
    exact ⟨_, rfl⟩

end FdContext

namespace IOManager

/-- Nobody waits who has not waited before. -/
def Loses (s t : IOManager) : Prop :=
  ∀ p e f, (t.heap p).Waits e f → (s.heap p).Waits e f

namespace Loses

variable {s t u : IOManager} {p : Ptr} {e : Event}

theorem refl (s : IOManager) : Loses s s := fun _ _ _ h => h

theorem trans (h : Loses s t) (h' : Loses t u) : Loses s u := fun p e f hw => h p e f (h' p e f hw)

/-- A store to one context. -/
theorem setContext {c : FdContext} (hc : ∀ e f, c.Waits e f → (s.heap p).Waits e f) :
    Loses s (s.setContext p c) := by
  intro q e f hw
  have hw : (Function.update s.heap p c q).Waits e f := hw
  by_cases hq : q = p
  · rw [hq, Function.update_self] at hw
    rw [hq]
    exact hc e f hw
  · rwa [Function.update_of_ne hq] at hw

theorem trigger (h : s.trigger p e = some t) : Loses s t := by
  obtain ⟨r, hr, rfl⟩ := Option.map_eq_some_iff.1 h
  obtain ⟨x, hx⟩ := FdContext.triggerEvent_clear hr
  refine fun q e' f hw => setContext (fun e f hw => ?_) q e' f hw
  rw [hx] at hw
  exact hw.of_clear.2

theorem fireIf {events : Mask} (h : s.fireIf events p e = some t) : Loses s t := by
  unfold IOManager.fireIf at h
  split_ifs at h
  · obtain ⟨u, hu, rfl⟩ := Option.map_eq_some_iff.1 h
    exact (trigger hu : Loses s u)
  · cases h
    exact refl s

theorem delEventLocked (s : IOManager) (p : Ptr) (fd : ℕ) (e : Event) (ok : Bool) :
    Loses s (s.delEventLocked p fd e ok).1 := by
  unfold IOManager.delEventLocked
  dsimp only
  split_ifs
  · exact refl s
  · split
    · exact refl s
    · exact setContext (s := s) fun e f hw => hw.of_clear.2

theorem cancelEventLocked {fd : ℕ} {ok : Bool} {r : IOManager × Bool}
    (h : s.cancelEventLocked p fd e ok = some r) : Loses s r.1 := by
  unfold IOManager.cancelEventLocked at h
  dsimp only at h
  split_ifs at h
  · cases h
    exact refl s
  · split at h
    · cases h
      exact refl s
    · next i _ =>
      obtain ⟨t, ht, rfl⟩ := Option.map_eq_some_iff.1 h
      exact (trigger ht : Loses ((s.setInterest i).addPending (-1)) t)

theorem cancelAllLocked {fd : ℕ} {ok : Bool} {r : IOManager × Bool}
    (h : s.cancelAllLocked p fd ok = some r) : Loses s r.1 := by
  unfold IOManager.cancelAllLocked at h
  split_ifs at h
  · cases h
    exact refl s
  · split at h
    · cases h
      exact refl s
    · next i _ =>
      obtain ⟨t, ht, h⟩ := Option.bind_eq_some_iff.1 h
      obtain ⟨u, hu, h⟩ := Option.bind_eq_some_iff.1 h
      split_ifs at h
      cases h
      exact trans (fireIf ht : Loses (s.setInterest i) t) (fireIf hu)

theorem idleEvent {reported : Mask} {ok : Bool} (h : s.idleEvent p reported ok = some t) :
    Loses s t := by
  unfold IOManager.idleEvent at h
  dsimp only at h
  split_ifs at h
  · cases h
    exact refl s
  · split at h
    · cases h
      exact refl s
    · next i _ =>
      obtain ⟨u, hu, h⟩ := Option.bind_eq_some_iff.1 h
      exact trans (fireIf hu : Loses (s.setInterest i) u) (fireIf h)

theorem contextResize (s : IOManager) (n : ℕ) : Loses s (s.contextResize n) := by
  intro q e f hw
  have hw : (if s.fresh ≤ q ∧ q < s.fresh + (n - s.table.length) then
    ({ fd := s.table.length + (q - s.fresh) } : FdContext) else s.heap q).Waits e f := hw
  split_ifs at hw
  · exact absurd (BitVec.zero_and ..) hw.1
  · exact hw

end Loses

variable {s t : IOManager} {p : Ptr} {e : Event}

/-- `addEvent` makes the calling fiber wait, and nobody else. -/
theorem addEventLocked_waits {fd : ℕ} {cb : Option Callback} {who : Caller} {ok : Bool}
    {r : IOManager × ℤ} (h : s.addEventLocked p fd e cb who ok = some r) {q : Ptr} {e' : Event}
    {f : FiberId} (hw : (r.1.heap q).Waits e' f) :
    (s.heap q).Waits e' f ∨ (who.fiber = f ∧ p = q) := by
  -- the store that a successful call makes
  have hstore : ∀ m : IOManager, (m.heap q).Waits e' f →
      m.heap = Function.update s.heap p
        ({ s.heap p with events := (s.heap p).events ||| e.bit }.setContext e (who.context cb)) →
      (s.heap q).Waits e' f ∨ (who.fiber = f ∧ p = q) := by
    intro m hw hm
    rw [hm] at hw
    by_cases hq : q = p
    · rw [hq, Function.update_self] at hw
      obtain ⟨hbit, hf⟩ := hw
      rw [FdContext.events_setContext] at hbit
      by_cases he : e' = e
      · rw [he, FdContext.getContext_setContext_self] at hf
        unfold Caller.context at hf
        split at hf
        · cases hf
        · exact .inr ⟨Option.some.inj hf, hq.symm⟩
      · dsimp only at hbit
        rw [FdContext.or_bit_of_ne he] at hbit
        rw [FdContext.getContext_setContext_of_ne _ he] at hf
        rw [hq]
        exact .inl ⟨hbit, by cases e' <;> exact hf⟩
    · rw [Function.update_of_ne hq] at hw
      exact .inl hw
  unfold addEventLocked at h
  dsimp only at h
  split_ifs at h <;> split at h
  all_goals first
    | (cases h; exact .inl hw)
    | skip
  all_goals first
    | cases h
    | (split at h <;> cases h <;> exact hstore _ hw rfl)

/-- `cancelEvent` ends the wait, if there is one and its `epoll_ctl` succeeds. -/
theorem cancelEventLocked_clears {fd : ℕ} {ok : Bool} {r : IOManager × Bool}
    (h : s.cancelEventLocked p fd e ok = some r)
    (hok : (s.heap p).events &&& e.bit ≠ 0 → ok = true ∧ s.interest fd ≠ none) (f : FiberId) :
    ¬ (r.1.heap p).Waits e f := by
  unfold cancelEventLocked at h
  dsimp only at h
  split_ifs at h with hbit
  · cases h
    exact fun hw => hw.1 hbit
  · obtain ⟨rfl, hi⟩ := hok hbit
    obtain ⟨i, hctl⟩ := Option.isSome_iff_exists.1
      (ctlLeft_isSome (p := p) hi ((s.heap p).events &&& ~~~e.bit))
    rw [hctl] at h
    obtain ⟨t, ht, rfl⟩ := Option.map_eq_some_iff.1 h
    obtain ⟨c, hc, rfl⟩ := Option.map_eq_some_iff.1 ht
    obtain ⟨x, hx⟩ := FdContext.triggerEvent_clear hc
    intro hw
    have hw : (Function.update s.heap p c.1 p).Waits e f := hw
    rw [Function.update_self, hx] at hw
    exact hw.of_clear.1 rfl

end IOManager

/-! ## Runs -/

/-- What a step does to the position of its thread. -/
inductive PcStep {T : Type} : ConcLabel T → CallPc → CallPc → Prop
  | stay {l : ConcLabel T} {pc : CallPc} : PcStep l pc pc
  | found {t : T} {c : EventCall} {p : Ptr} : PcStep (.call t c) .out (.found p c)
  | missed {t : T} {fd : ℕ} {e : Event} {cb : Option Callback} {who : Caller} :
      PcStep (.call t (.addEvent fd e cb who)) .out (.grow fd e cb who)
  | grown {t : T} {fd : ℕ} {e : Event} {cb : Option Callback} {who : Caller} {p : Ptr} :
      PcStep (.grow t) (.grow fd e cb who) (.found p (.addEvent fd e cb who))
  | locked {t : T} {ok : Bool} {p : Ptr} {c : EventCall} : PcStep (.lock t ok) (.found p c) .out
  | waited {t : T} {reports : List (ℕ × Mask)} {batch : List (Ptr × Mask)} :
      PcStep (.wait t reports) .out (.batch batch)
  | handled {t : T} {ok : Bool} {r : Ptr × Mask} {batch : List (Ptr × Mask)} :
      PcStep (.handle t ok) (.batch (r :: batch)) (.batch batch)
  | returned {t : T} {ok : Bool} : PcStep (.handle t ok) (.batch []) .out

namespace Conc

variable {T : Type} [DecidableEq T] {s u : Conc T} {l : ConcLabel T}

/-- What a step of thread `t` does to the positions. -/
def Moves (s u : Conc T) (l : ConcLabel T) : Prop :=
  (∀ v, v ≠ l.thread → u.pc v = s.pc v) ∧ PcStep l (s.pc l.thread) (u.pc l.thread)

theorem Moves.goto {pc : CallPc} {m : IOManager} (h : PcStep l (s.pc l.thread) pc) :
    Moves s { s.goto l.thread pc with mgr := m } l := by
  refine ⟨fun v hv => Function.update_of_ne hv _ _, ?_⟩
  show PcStep l _ (Function.update s.pc l.thread pc l.thread)
  rw [Function.update_self]
  exact h

omit [DecidableEq T] in
theorem Moves.fail (f : Fault) : Moves s (s.fail f) l := ⟨fun _ _ => rfl, .stay⟩

/-- What a step does to the contexts: nobody waits who has not waited before, unless the step is the
locked section of an `addEvent`. -/
def NewWaits (s u : Conc T) (l : ConcLabel T) : Prop :=
  ∀ p e f, (u.mgr.heap p).Waits e f → (s.mgr.heap p).Waits e f ∨
    ∃ t ok fd e' cb who, l = .lock t ok ∧ s.pc t = .found p (.addEvent fd e' cb who) ∧ who.fiber = f

omit [DecidableEq T] in
theorem NewWaits.of_loses (h : IOManager.Loses s.mgr u.mgr) : NewWaits s u l :=
  fun p e f hw => .inl (h p e f hw)

theorem callStep_spec (s : Conc T) (t : T) (c : EventCall) (hpc : s.pc t = .out) :
    Moves s (s.callStep t c) (.call t c) ∧ NewWaits s (s.callStep t c) (.call t c) := by
  unfold callStep
  cases s.mgr.lookup c.fd with
  | none =>
    rw [Option.elim_none]
    cases c with
    | addEvent fd e cb who =>
      refine ⟨Moves.goto (l := .call t (.addEvent fd e cb who)) ?_, .of_loses (.refl _)⟩
      rw [show s.pc (ConcLabel.call t _).thread = .out from hpc]
      exact .missed
    | _ => exact ⟨⟨fun _ _ => rfl, .stay⟩, .of_loses (.refl _)⟩
  | some p =>
    rw [Option.elim_some]
    refine ⟨Moves.goto (l := .call t c) ?_, .of_loses (.refl _)⟩
    rw [show s.pc (ConcLabel.call t c).thread = .out from hpc]
    exact .found

/-- The end of a locked section. -/
theorem locked_spec {t : T} {ok : Bool} {p : Ptr} {c : EventCall} (hpc : s.pc t = .found p c)
    {m : IOManager} (hm : IOManager.Loses s.mgr m) :
    Moves s { s.goto t .out with mgr := m } (.lock t ok) ∧
      NewWaits s { s.goto t .out with mgr := m } (.lock t ok) := by
  refine ⟨Moves.goto (l := .lock t ok) ?_, .of_loses hm⟩
  rw [show s.pc (ConcLabel.lock t ok).thread = .found p c from hpc]
  exact .locked

theorem lockStep_spec (t : T) {p : Ptr} (ok : Bool) {c : EventCall} (hpc : s.pc t = .found p c) :
    Moves s (s.lockStep t p ok c) (.lock t ok) ∧ NewWaits s (s.lockStep t p ok c) (.lock t ok) := by
  have hfail : ∀ f, Moves s (s.fail f) (.lock t ok) ∧ NewWaits s (s.fail f) (.lock t ok) :=
    fun f => ⟨.fail f, .of_loses (.refl _)⟩
  cases c with
  | addEvent fd e cb who =>
    rw [lockStep]
    cases hr : s.mgr.addEventLocked p fd e cb who ok with
    | none => exact hfail .add
    | some r =>
      refine ⟨(locked_spec hpc (.refl _)).1, fun q e' f hw => ?_⟩
      rcases IOManager.addEventLocked_waits hr hw with h | h
      · exact .inl h
      · exact .inr ⟨t, ok, fd, e, cb, who, rfl, h.2 ▸ hpc, h.1⟩
  | delEvent fd e => exact locked_spec hpc (.delEventLocked s.mgr p fd e ok)
  | cancelEvent fd e =>
    rw [lockStep]
    cases hr : s.mgr.cancelEventLocked p fd e ok with
    | none => exact hfail .trigger
    | some r => exact locked_spec hpc (.cancelEventLocked hr)
  | cancelAll fd =>
    rw [lockStep]
    cases hr : s.mgr.cancelAllLocked p fd ok with
    | none => exact hfail .trigger
    | some r => exact locked_spec hpc (.cancelAllLocked hr)

/-- What a step does to the positions of the threads, and to the fibers that wait. -/
theorem waits_step (h : s.step l = some u) : Moves s u l ∧ NewWaits s u l := by
  unfold Conc.step at h
  split_ifs at h
  cases l with
  | call t c =>
    simp only at h
    split_ifs at h with hpc
    rw [← Option.some.inj h]
    exact callStep_spec s t c hpc
  | grow t =>
    simp only at h
    split at h <;> cases h
    next fd e cb who hpc =>
    unfold growStep
    dsimp only
    cases (s.mgr.grow fd).2 with
    | none => exact ⟨.fail _, .of_loses (.refl _)⟩
    | some p =>
      refine ⟨Moves.goto (l := .grow t) ?_, .of_loses (.contextResize s.mgr (fd * 3 / 2))⟩
      rw [show s.pc (ConcLabel.grow t).thread = .grow fd e cb who from hpc]
      exact .grown
  | lock t ok =>
    simp only at h
    split at h <;> cases h
    next p c hpc => exact lockStep_spec t ok hpc
  | wait t reports =>
    simp only at h
    split_ifs at h with hpc
    cases h
    refine ⟨Moves.goto (l := .wait t reports) ?_, .of_loses (.refl _)⟩
    rw [show s.pc (ConcLabel.wait t reports).thread = .out from hpc.1]
    exact .waited
  | handle t ok =>
    simp only at h
    split at h <;> cases h
    · next p m rest hpc =>
      unfold handleStep
      cases hr : s.mgr.idleEvent p m ok with
      | none => exact ⟨.fail _, .of_loses (.refl _)⟩
      | some n =>
        refine ⟨Moves.goto (l := .handle t ok) ?_, .of_loses (.idleEvent hr)⟩
        rw [show s.pc (ConcLabel.handle t ok).thread = .batch ((p, m) :: rest) from hpc]
        exact .handled
    · next hpc =>
      refine ⟨Moves.goto (l := .handle t ok) ?_, .of_loses (.refl _)⟩
      rw [show s.pc (ConcLabel.handle t ok).thread = .batch [] from hpc]
      exact .returned

end Conc

end CoroutineScheduler
