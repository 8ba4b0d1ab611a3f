import CoroutineScheduler.IOManager.Concurrent

/-!
# Stale reports

By the time `idle` handles a reported event, other threads may have cancelled or consumed it. When
none of the reported events is registered any more, `idle` skips the report; when some are and some
are not, it fires all of them and `triggerEvent` fails its assertion (`stale_report`).

`trigger_safe`: in every run in which each report is handled with all of its events registered, or
with none that it would fire, no trigger fails and the counter of pending events is not negative.
-/

namespace CoroutineScheduler

open Trans

/-- What a use of a registration adds to the number of pending events. -/
def Use.weight : Use → ℤ
  | registered _ => 1
  | fired _ | dropped => -1

/-- The task that is scheduled, if there is one, may run on any thread. -/
def Use.Loose : Use → Prop
  | fired (some c) => c.ft.thread = -1
  | _ => True

def Use.isRegistered : Use → Bool
  | registered _ => true
  | _ => false

theorem Reg.call_thread (r : Reg) : r.call.ft.thread = -1 := by
  rcases r with ⟨sched, f | c⟩ <;> rfl

namespace IOManager

/-- The log has grown by uses that account for the change of the counter, and that schedule their
tasks for any thread. Registrations are among them only if `add` says so. -/
def Logged (add : Bool) (s t : IOManager) : Prop :=
  ∃ us : List Effect, t.log = s.log ++ us ∧ t.pending = s.pending + (us.map fun x => x.use.weight).sum ∧
    ∀ x ∈ us, x.use.Loose ∧ (x.use.isRegistered = true → add = true)

/-- What an operation on context `p` leaves alone, and what it logs. -/
structure Keeps (add : Bool) (s t : IOManager) (p : Ptr) : Prop where
  core : ∃ slot, Core t slot
  fresh : t.fresh = s.fresh
  table : t.table = s.table
  fd : ∀ q, (t.heap q).fd = (s.heap q).fd
  interest : ∀ d m q, t.interest d = some (m, q) → q = p ∨ ∃ m', s.interest d = some (m', q)
  logged : Logged add s t

theorem Logged.of_eq {add : Bool} {s t : IOManager} (hl : t.log = s.log) (hp : t.pending = s.pending) :
    Logged add s t :=
  ⟨[], by simp [hl], by simp [hp], by simp⟩

theorem Logged.trans {add : Bool} {s t u : IOManager} (h : Logged add s t) (h' : Logged add t u) :
    Logged add s u := by
  obtain ⟨us, hlog, hpending, hloose⟩ := h
  obtain ⟨us', hlog', hpending', hloose'⟩ := h'
  refine ⟨us ++ us', by rw [hlog', hlog, List.append_assoc], ?_, fun x hx => ?_⟩
  · rw [hpending', hpending, List.map_append, List.sum_append, add_assoc]
  · exact (List.mem_append.1 hx).elim (hloose x) (hloose' x)

theorem epollCtl_mem {i j : Interest} {ok : Bool} {op : EpollCtlOp} {fd : ℕ} {m : Mask} {p : Ptr}
    (h : epollCtl i ok op fd m p = some j) {d : ℕ} {m' : Mask} {q : Ptr}
    (hd : j d = some (m', q)) : q = p ∨ ∃ m'', i d = some (m'', q) := by
  have hupd : ∀ v : Option (Mask × Ptr), (v = none ∨ v = some (m, p)) → j = Function.update i fd v →
      q = p ∨ ∃ m'', i d = some (m'', q) := by
    rintro v hv rfl
    by_cases hdf : d = fd
    · subst hdf
      rw [Function.update_self] at hd
      rcases hv with rfl | rfl <;> cases hd
      exact Or.inl rfl
    · rw [Function.update_of_ne hdf] at hd
      exact Or.inr ⟨m', hd⟩
  unfold epollCtl at h
  split at h <;> cases h
  · exact hupd _ (Or.inr rfl) rfl
  · exact hupd _ (Or.inr rfl) rfl
  · exact hupd _ (Or.inl rfl) rfl

namespace Keeps

variable {s t u : IOManager} {p : Ptr} {add : Bool}

theorem refl {slot : Ptr → Event → Option Reg} (h : Core s slot) : Keeps add s s p :=
  ⟨⟨slot, h⟩, rfl, rfl, fun _ => rfl, fun _ m _ h => Or.inr ⟨m, h⟩, .of_eq rfl rfl⟩

theorem trans (h : Keeps add s t p) (h' : Keeps add t u p) : Keeps add s u p := by
  refine ⟨h'.core, h'.fresh.trans h.fresh, h'.table.trans h.table,
    fun q => (h'.fd q).trans (h.fd q), fun d m q hq => ?_, h.logged.trans h'.logged⟩
  rcases h'.interest d m q hq with rfl | ⟨m', hm⟩
  · exact Or.inl rfl
  · exact h.interest d m' q hm

theorem setInterest {slot : Ptr → Event → Option Reg} (h : Core s slot) {i : Interest} {ok : Bool}
    {op : EpollCtlOp} {fd : ℕ} {m : Mask} (hi : epollCtl s.interest ok op fd m p = some i) :
    Keeps add s (s.setInterest i) p :=
  ⟨⟨slot, h.setInterest i⟩, rfl, rfl, fun _ => rfl, fun _ _ _ hq => epollCtl_mem hi hq, .of_eq rfl rfl⟩

theorem put {slot : Ptr → Event → Option Reg} (h : Core s slot) (hp : p < s.fresh) (e : Event)
    (v : Option Reg) {w : Use} (hw : w.weight = v.isSome.toNat - (slot p e).isSome.toNat)
    (hl : w.Loose) (ha : w.isRegistered = true → add = true) : Keeps add s (s.put p (slot p) e v w) p := by
  refine ⟨⟨_, h.put hp e v w⟩, rfl, rfl, fun q => ?_, fun _ m _ hq => Or.inr ⟨m, hq⟩,
    ⟨_, rfl, by simp [IOManager.put, hw], by simpa using ⟨hl, ha⟩⟩⟩
  by_cases hqp : q = p
  · rw [hqp, put_heap]
    rfl
  · show (Function.update s.heap p _ q).fd = _
    rw [Function.update_of_ne hqp]

theorem consume {slot : Ptr → Event → Option Reg} (h : Core s slot) (hp : p < s.fresh) (e : Event) :
    Keeps add s (s.consume p (slot p) e) p := by
  unfold IOManager.consume
  split
  · next r hr => exact put h hp e none (by simp [hr, Use.weight]) r.call_thread nofun
  · exact refl h

theorem consumeIn {slot : Ptr → Event → Option Reg} (h : Core s slot) (hp : p < s.fresh)
    (real : Mask) (e : Event) : Keeps add s (s.consumeIn p (slot p) real e) p := by
  unfold IOManager.consumeIn
  split_ifs
  · exact consume h hp e
  · exact refl h

end Keeps

section Locked

variable {s : IOManager} {slot : Ptr → Event → Option Reg} {p : Ptr}

/-- The state of the calling fiber matters for an assertion only. -/
theorem addEventLocked_state {fd : ℕ} {e : Event} {cb : Option Callback} {caller : Caller} {ok : Bool}
    {r : IOManager × ℤ} (hr : s.addEventLocked p fd e cb caller ok = some r) :
    r = (s, -1) ∨ s.addEventLocked p fd e cb { caller with state := .exec } ok = some r := by
  have hx : ¬ (cb = none ∧ FiberState.exec ≠ FiberState.exec) := fun h => h.2 rfl
  by_cases hb : cb = none ∧ caller.state ≠ .exec
  · simp only [addEventLocked, if_pos hb, ite_self] at hr
    split_ifs at hr
    · split at hr
      · exact Or.inl (Option.some.inj hr).symm
      · cases hr
    · split at hr
      · exact Or.inl (Option.some.inj hr).symm
      · cases hr
  · simp only [addEventLocked, if_neg hb] at hr
    simp only [addEventLocked, if_neg hx]
    exact Or.inr hr

/-- `addEvent` keeps the contexts in order, unless it fails an assertion. -/
theorem addEventLocked_keeps (h : Core s slot) (hp : p < s.fresh) {fd : ℕ} {e : Event}
    {cb : Option Callback} {caller : Caller} (hs : caller.scheduler ≠ none) {ok : Bool}
    {r : IOManager × ℤ} (hr : s.addEventLocked p fd e cb caller ok = some r) :
    Keeps true s r.1 p := by
  obtain ⟨sched, hsched⟩ := Option.ne_none_iff_exists'.1 hs
  cases he : slot p e with
  | some reg =>
    have hz : (s.heap p).events &&& e.bit ≠ 0 := by
      rw [h.heap p hp, FdContext.of_events, Ne, Event.mask_and_bit, he]
      exact Option.some_ne_none reg
    rw [addEventLocked, if_pos hz] at hr
    cases hr
  | none =>
    rcases addEventLocked_state hr with rfl | hr
    · exact .refl h
    · have hsched' : { caller with state := FiberState.exec }.scheduler = some sched := hsched
      rw [addEventLocked_eq (h.heap p hp) he fd cb hsched' rfl ok] at hr
      split at hr <;> cases hr
      · exact .refl h
      · next i hi =>
        exact (Keeps.setInterest h hi).trans
          (.put (h.setInterest i) hp e _ (by simp [he, Use.weight]) trivial fun _ => rfl)

theorem delEventLocked_keeps (h : Core s slot) (hp : p < s.fresh) (fd : ℕ) (e : Event) (ok : Bool) :
    Keeps false s (s.delEventLocked p fd e ok).1 p := by
  rw [delEventLocked_eq (h.heap p hp)]
  split
  · next i hr hi =>
    exact (Keeps.setInterest h hi).trans
      (.put (h.setInterest i) hp e _ (by simp [hr, Use.weight]) trivial nofun)
  · exact .refl h

theorem cancelEventLocked_keeps (h : Core s slot) (hp : p < s.fresh) (fd : ℕ) (e : Event) (ok : Bool) :
    ∃ r, s.cancelEventLocked p fd e ok = some r ∧ Keeps false s r.1 p := by
  rw [cancelEventLocked_eq (h.heap p hp)]
  split
  · next i _ hi => exact ⟨_, rfl, (Keeps.setInterest h hi).trans (.consume (h.setInterest i) hp e)⟩
  · exact ⟨_, rfl, .refl h⟩

theorem cancelAllLocked_keeps (h : Core s slot) (hp : p < s.fresh) (fd : ℕ) (ok : Bool) :
    ∃ r, s.cancelAllLocked p fd ok = some r ∧ Keeps false s r.1 p := by
  rw [cancelAllLocked_eq (h.heap p hp)]
  split_ifs
  · exact ⟨_, rfl, .refl h⟩
  · split
    · exact ⟨_, rfl, .refl h⟩
    · next i hi =>
      have h1 := (h.setInterest i).consume hp .read
      have k2 : Keeps false _ _ p := .consume h1 (by rw [consume_fresh]; exact hp) .write
      rw [Function.update_self] at k2
      exact ⟨_, rfl, (Keeps.setInterest h hi).trans ((Keeps.consume (h.setInterest i) hp .read).trans k2)⟩

/-- The events of the report are all registered; or no registered event would be fired; or the
`epoll_ctl` fails. -/
def Fits (s : IOManager) (p : Ptr) (reported : Mask) (ok : Bool) : Prop :=
  (∀ e : Event, reported &&& e.bit ≠ 0 → (s.heap p).events &&& e.bit ≠ 0) ∨
    (∀ e : Event, (s.heap p).events &&& e.bit ≠ 0 →
      reported &&& e.bit = 0 ∧ reported &&& (Mask.epollErr ||| Mask.epollHup) = 0) ∨
    ok = false ∨ s.interest (s.heap p).fd = none

instance (s : IOManager) (p : Ptr) (reported : Mask) (ok : Bool) :
    Decidable (s.Fits p reported ok) := by
  unfold Fits; infer_instance

theorem ctlLeft_none {fd : ℕ} (h : s.interest fd = none) (left : Mask) (ok : Bool) :
    s.ctlLeft p fd left ok = none := by
  unfold ctlLeft
  dsimp only
  split_ifs <;> cases ok <;> simp [epollCtl, h]

theorem ctlLeft_false (fd : ℕ) (left : Mask) : s.ctlLeft p fd left false = none := rfl

/-- A report that fits fires registered events only. -/
theorem idleEvent_keeps (h : Core s slot) (hp : p < s.fresh) {reported : Mask} {ok : Bool}
    (hf : s.Fits p reported ok) : ∃ t, s.idleEvent p reported ok = some t ∧ Keeps false s t p := by
  have hev : (s.heap p).events = Event.mask (slot p) := by rw [h.heap p hp]; rfl
  have hskip : (∀ left, s.ctlLeft p (s.heap p).fd left ok = none) →
      ∃ t, s.idleEvent p reported ok = some t ∧ Keeps false s t p := by
    intro hctl
    refine ⟨s, ?_, .refl h⟩
    unfold idleEvent
    simp only [hctl]
    split_ifs <;> rfl
  unfold Fits at hf
  simp only [hev] at hf
  rcases hf with hall | hno | rfl | hi
  · have hsub : ∀ e : Event, realEvents reported (Event.mask (slot p)) &&& e.bit ≠ 0 →
        slot p e ≠ none := by
      intro e he
      rw [Ne, ← Event.mask_and_bit]
      rcases (realEvents_and_bit _ _ e).1 he with hr | ⟨-, hr⟩
      · exact hall e hr
      · exact hr
    rw [idleEvent_eq (h.heap p hp) rfl hsub]
    split_ifs
    · exact ⟨s, rfl, .refl h⟩
    · split
      · exact ⟨s, rfl, .refl h⟩
      · next i hi =>
        generalize realEvents reported (Event.mask (slot p)) = real
        have h1 := (h.setInterest i).consumeIn hp real .read
        have k2 : Keeps false _ _ p :=
          .consumeIn h1 (by rw [consumeIn_fresh]; exact hp) real .write
        rw [Function.update_self] at k2
        exact ⟨_, rfl, (Keeps.setInterest h hi).trans
          ((Keeps.consumeIn (h.setInterest i) hp real .read).trans k2)⟩
  · have hz : Event.mask (slot p) &&& realEvents reported (Event.mask (slot p)) = 0 := by
      refine mask_and_eq_zero fun e he => ?_
      by_contra hc
      have hm : Event.mask (slot p) &&& e.bit ≠ 0 := mt (Event.mask_and_bit _ e).1 he
      obtain ⟨h1, h2⟩ := hno e hm
      rcases (realEvents_and_bit _ _ e).1 hc with hr | ⟨hr, -⟩
      · exact hr h1
      · exact hr h2
    refine ⟨s, ?_, .refl h⟩
    unfold idleEvent
    simp only [hev, hz, if_true]
  · exact hskip fun left => ctlLeft_false _ left
  · exact hskip fun left => ctlLeft_none hi left ok

/-- An event that is not registered cannot be fired. -/
theorem fireIf_none {sl : Event → Option Reg} (h : s.heap p = .of (s.heap p).fd sl) {real : Mask}
    {e : Event} (hreal : real &&& e.bit ≠ 0) (he : sl e = none) : s.fireIf real p e = none := by
  unfold fireIf trigger
  rw [if_pos hreal, h, FdContext.triggerEvent_of_none he]
  rfl

/-- A report that does not fit is fired all the same, and a trigger fails. -/
theorem idleEvent_of_not_fits (h : Core s slot) (hp : p < s.fresh) {reported : Mask} {ok : Bool}
    (hf : ¬ s.Fits p reported ok) : s.idleEvent p reported ok = none := by
  have hev : (s.heap p).events = Event.mask (slot p) := by rw [h.heap p hp]; rfl
  unfold Fits at hf
  push Not at hf
  simp only [hev] at hf
  obtain ⟨⟨e, he, hstale⟩, ⟨d, hd, hfire⟩, hok, hint⟩ := hf
  obtain rfl : ok = true := by simpa using hok
  set real := realEvents reported (Event.mask (slot p)) with hreal
  have hrd : real &&& d.bit ≠ 0 := by
    refine (realEvents_and_bit _ _ d).2 ?_
    by_cases hr : reported &&& d.bit = 0
    · exact Or.inr ⟨hfire hr, hd⟩
    · exact Or.inl hr
  have hre : real &&& e.bit ≠ 0 := (realEvents_and_bit _ _ e).2 (Or.inl he)
  have hz : ¬ Event.mask (slot p) &&& real = 0 := by
    intro hz
    have hbit : (Event.mask (slot p) &&& real).getLsbD (Event.index d) = true := by
      rw [BitVec.getLsbD_and, (and_bit_ne_zero _ d).1 hd, (and_bit_ne_zero _ d).1 hrd]
      rfl
    rw [hz] at hbit
    exact absurd hbit (by simp)
  have hnone : slot p e = none := (Event.mask_and_bit _ e).1 hstale
  obtain ⟨i, hi⟩ := Option.isSome_iff_exists.1
    (ctlLeft_isSome (p := p) hint (Event.mask (slot p) &&& ~~~real))
  unfold idleEvent
  simp only [hev, ← hreal, if_neg hz, hi]
  show ((s.setInterest i).fireIf real p .read).bind (fun t => t.fireIf real p .write) = none
  have hs : (s.setInterest i).heap p = .of ((s.setInterest i).heap p).fd (slot p) := h.heap p hp
  by_cases hread : real &&& Event.read.bit ≠ 0 ∧ slot p .read = none
  · rw [fireIf_none hs hread.1 hread.2]
    rfl
  · push Not at hread
    rw [fireIf_eq hs hread, Option.bind_some]
    obtain rfl : e = .write := by
      cases e with
      | read => exact absurd hnone (hread hre)
      | write => rfl
    refine fireIf_none (consumeIn_heap (e := .read) hs real) hre ?_
    unfold without
    split_ifs
    · exact hnone
    · exact hnone

end Locked

end IOManager

/-! ## The invariant of all threads -/

/-- The caller of an `addEvent` is inside a scheduler. -/
def EventCall.Inside : EventCall → Prop
  | addEvent _ _ _ caller => caller.scheduler ≠ none
  | _ => True

/-- The thread is about to register an event. -/
def CallPc.registers : CallPc → Bool
  | found _ (.addEvent _ _ _ _) => true
  | _ => false

/-- The contexts that a thread has in hand are among the first `n`. -/
def CallPc.Valid (n : ℕ) : CallPc → Prop
  | out => True
  | grow _ _ _ caller => caller.scheduler ≠ none
  | found p c => p < n ∧ c.Inside
  | batch reports => ∀ r ∈ reports, r.1 < n

theorem CallPc.Valid.mono {n m : ℕ} (hnm : n ≤ m) {pc : CallPc} (h : pc.Valid n) : pc.Valid m := by
  cases pc with
  | out => trivial
  | grow fd e cb caller => exact h
  | found p c => exact ⟨lt_of_lt_of_le h.1 hnm, h.2⟩
  | batch reports => exact fun r hr => lt_of_lt_of_le (h r hr) hnm

namespace Conc

variable {T : Type} [DecidableEq T] {s u : Conc T} {t : T}

/-- Every report is handled while it fits. -/
def Fitting (s : Conc T) : ConcLabel T → Prop
  | .handle t ok =>
    match s.pc t with
    | .batch ((p, reported) :: _) => s.mgr.Fits p reported ok
    | _ => True
  | _ => True

instance (s : Conc T) (a : ConcLabel T) : Decidable (s.Fitting a) := by
  rcases a with _ | _ | _ | _ | ⟨t, ok⟩ <;> unfold Fitting <;> dsimp only
  case handle =>
    generalize s.pc t = p
    rcases p with _ | _ | _ | reports
    case batch => rcases reports with _ | ⟨⟨p, m⟩, rest⟩ <;> dsimp only <;> infer_instance
    all_goals infer_instance
  all_goals infer_instance

/-- No trigger has failed its assertion, and the counter of pending events has not gone below zero. -/
structure TriggerSafe (s : Conc T) : Prop where
  fault : s.fault ≠ some .trigger
  pending : 0 ≤ s.mgr.pending

/-- The invariant. -/
structure Inv (s : Conc T) : Prop where
  core : ∃ slot, IOManager.Core s.mgr slot
  table : ∀ p ∈ s.mgr.table, p < s.mgr.fresh
  interest : ∀ fd m p, s.mgr.interest fd = some (m, p) → p < s.mgr.fresh
  pc : ∀ t, (s.pc t).Valid s.mgr.fresh
  fault : s.fault ≠ some .trigger

omit [DecidableEq T] in
theorem Inv.triggerSafe (h : Inv s) : s.TriggerSafe := by
  obtain ⟨slot, hc⟩ := h.core
  exact ⟨h.fault, hc.pending_nonneg⟩

theorem Inv.goto (h : Inv s) {pc : CallPc} (hpc : pc.Valid s.mgr.fresh) : Inv (s.goto t pc) := by
  refine ⟨h.core, h.table, h.interest, fun v => ?_, h.fault⟩
  show (Function.update s.pc t pc v).Valid _
  by_cases hv : v = t
  · rw [hv, Function.update_self]
    exact hpc
  · rw [Function.update_of_ne hv]
    exact h.pc v

omit [DecidableEq T] in
theorem Inv.fail (h : Inv s) {f : Fault} (hf : f ≠ .trigger) : Inv (s.fail f) :=
  ⟨h.core, h.table, h.interest, h.pc, fun hc => hf (Option.some.inj hc)⟩

omit [DecidableEq T] in
/-- A locked section on context `p`. -/
theorem Inv.keeps (h : Inv s) {add : Bool} {m : IOManager} {p : Ptr} (hp : p < s.mgr.fresh)
    (hk : IOManager.Keeps add s.mgr m p) : Inv { s with mgr := m } := by
  refine ⟨hk.core, ?_, ?_, ?_, h.fault⟩
  · show ∀ p ∈ m.table, p < m.fresh
    rw [hk.table, hk.fresh]
    exact h.table
  · intro fd i q hq
    show q < m.fresh
    rw [hk.fresh]
    rcases hk.interest fd i q hq with rfl | ⟨i', hi'⟩
    · exact hp
    · exact h.interest fd i' q hi'
  · intro v
    show (s.pc v).Valid m.fresh
    rw [hk.fresh]
    exact h.pc v

theorem Inv.call (h : Inv s) (c : EventCall) (hc : c.Inside) : Inv (s.callStep t c) := by
  unfold callStep
  cases hl : s.mgr.lookup c.fd with
  | none =>
    rw [Option.elim_none]
    cases c with
    | addEvent fd e cb caller => exact h.goto hc
    | delEvent fd e => exact h
    | cancelEvent fd e => exact h
    | cancelAll fd => exact h
  | some p =>
    rw [Option.elim_some]
    refine h.goto ⟨h.table p ?_, hc⟩
    unfold IOManager.lookup at hl
    split_ifs at hl
    exact List.mem_of_getElem? hl

theorem Inv.grow (h : Inv s) {fd : ℕ} {c : EventCall} (hc : c.Inside) : Inv (s.growStep t fd c) := by
  obtain ⟨slot, hcore⟩ := h.core
  set m := s.mgr.contextResize (fd * 3 / 2) with hm
  have hle : s.mgr.fresh ≤ m.fresh := Nat.le_add_right _ _
  have htable : ∀ p ∈ m.table, p < m.fresh := by
    intro p hp
    rcases List.mem_append.1 hp with hp | hp
    · exact lt_of_lt_of_le (h.table p (List.mem_of_mem_take hp)) hle
    · exact (List.mem_range'_1.1 hp).2
  have hgrown : Inv { s with mgr := m } :=
    ⟨⟨slot, hcore.contextResize _⟩, htable,
      fun d i q hq => lt_of_lt_of_le (h.interest d i q hq) hle, fun v => (h.pc v).mono hle, h.fault⟩
  unfold growStep
  show Inv (m.table[fd]?.elim (s.fail .index) fun p => { s.goto t (.found p c) with mgr := m })
  cases hp : m.table[fd]? with
  | none => exact h.fail Fault.noConfusion
  | some p => exact hgrown.goto ⟨htable p (List.mem_of_getElem? hp), hc⟩

theorem Inv.lock (h : Inv s) {p : Ptr} {c : EventCall} (hp : p < s.mgr.fresh) (hc : c.Inside)
    (ok : Bool) : Inv (s.lockStep t p ok c) := by
  obtain ⟨slot, hcore⟩ := h.core
  have hout : ∀ add m, IOManager.Keeps add s.mgr m p → Inv { s.goto t .out with mgr := m } := fun _ m hk =>
    (h.keeps hp hk).goto trivial
  cases c with
  | addEvent fd e cb caller =>
    rw [lockStep]
    cases hr : s.mgr.addEventLocked p fd e cb caller ok with
    | none => exact h.fail Fault.noConfusion
    | some r => exact hout _ r.1 (IOManager.addEventLocked_keeps hcore hp hc hr)
  | delEvent fd e => exact hout _ _ (IOManager.delEventLocked_keeps hcore hp fd e ok)
  | cancelEvent fd e =>
    obtain ⟨r, hr, hk⟩ := IOManager.cancelEventLocked_keeps hcore hp fd e ok
    rw [lockStep, hr]
    exact hout _ r.1 hk
  | cancelAll fd =>
    obtain ⟨r, hr, hk⟩ := IOManager.cancelAllLocked_keeps hcore hp fd ok
    rw [lockStep, hr]
    exact hout _ r.1 hk

omit [DecidableEq T] in
/-- The reports that `epoll_wait` returns carry contexts that exist. -/
theorem Inv.reports (h : Inv s) (reports : List (ℕ × Mask)) :
    ∀ r ∈ reports.filterMap (reportOf s.mgr), r.1 < s.mgr.fresh := by
  intro r hr
  obtain ⟨d, -, hd⟩ := List.mem_filterMap.1 hr
  obtain ⟨i, hi, hd⟩ := Option.bind_eq_some_iff.1 hd
  split_ifs at hd
  cases hd
  exact h.interest d.1 i.1 i.2 hi

omit [DecidableEq T] in
theorem Inv.start : Inv (Conc.start : Conc T) := by
  refine ⟨⟨_, IOManager.Core.start⟩, fun p hp => ?_, fun fd m p h => ?_, fun _ => trivial,
    fun h => ?_⟩
  · exact List.mem_range.1 hp
  · cases h
  · cases h

omit [DecidableEq T] in
/-- A report that is handled while it fits. -/
theorem Inv.handled (h : Inv s) {p : Ptr} {m : Mask} {rest : List (Ptr × Mask)} {ok : Bool}
    (hpc : s.pc t = .batch ((p, m) :: rest)) (hf : s.Fitting (.handle t ok)) :
    ∃ n, s.mgr.idleEvent p m ok = some n ∧ IOManager.Keeps false s.mgr n p := by
  have hv := h.pc t
  rw [hpc] at hv
  obtain ⟨slot, hcore⟩ := h.core
  have hfit : s.mgr.Fits p m ok := by
    unfold Fitting at hf
    simp only [hpc] at hf
    exact hf
  exact IOManager.idleEvent_keeps hcore (hv (p, m) (List.mem_cons_self ..)) hfit

theorem Inv.step (h : Inv s) {a : ConcLabel T} (he : ∀ t c, a = .call t c → c.Inside)
    (hf : s.Fitting a) (hs : s.step a = some u) : Inv u := by
  unfold Conc.step at hs
  split_ifs at hs
  cases a with
  | call t c =>
    simp only at hs
    split_ifs at hs
    rw [← Option.some.inj hs]
    exact h.call c (he t c rfl)
  | grow t =>
    simp only at hs
    split at hs <;> cases hs
    next fd e cb caller hpc =>
    have hv := h.pc t
    rw [hpc] at hv
    exact h.grow (c := .addEvent fd e cb caller) hv
  | lock t ok =>
    simp only at hs
    split at hs <;> cases hs
    next p c hpc =>
    have hv := h.pc t
    rw [hpc] at hv
    exact h.lock hv.1 hv.2 ok
  | wait t reports =>
    simp only at hs
    split_ifs at hs
    cases hs
    exact h.goto (h.reports reports)
  | handle t ok =>
    simp only at hs
    split at hs <;> cases hs
    · next p m rest hpc =>
      have hv := h.pc t
      rw [hpc] at hv
      obtain ⟨n, hn, hk⟩ := h.handled hpc hf
      unfold handleStep
      rw [hn]
      refine (h.keeps (hv (p, m) (List.mem_cons_self ..)) hk).goto fun r hr => ?_
      show r.1 < n.fresh
      rw [hk.fresh]
      exact hv r (List.mem_cons_of_mem _ hr)
    · exact h.goto trivial

/-- A step that does not end the process handles its report while it fits. -/
theorem Inv.fitting (h : Inv s) {a : ConcLabel T} (hs : s.step a = some u) (hu : u.fault = none) :
    s.Fitting a := by
  unfold Fitting
  split
  · next t ok =>
    split
    · next p m rest hpc =>
      by_contra hf
      have hv := h.pc t
      rw [hpc] at hv
      obtain ⟨slot, hcore⟩ := h.core
      have hnone := IOManager.idleEvent_of_not_fits hcore (hv (p, m) (List.mem_cons_self ..)) hf
      unfold Conc.step at hs
      split_ifs at hs
      simp only [hpc, handleStep, hnone, Option.elim_none, Option.some.injEq] at hs
      rw [← hs] at hu
      cases hu
    · trivial
  · trivial

theorem callStep_mgr (s : Conc T) (t : T) (c : EventCall) : (s.callStep t c).mgr = s.mgr := by
  unfold callStep
  cases s.mgr.lookup c.fd with
  | some p => rfl
  | none => cases c <;> rfl

theorem Inv.logged_lock (h : Inv s) {p : Ptr} {c : EventCall} (hp : p < s.mgr.fresh) (hc : c.Inside)
    (ok : Bool) : s.mgr.Logged (CallPc.found p c).registers (s.lockStep t p ok c).mgr := by
  obtain ⟨slot, hcore⟩ := h.core
  cases c with
  | addEvent fd e cb caller =>
    rw [lockStep]
    cases hr : s.mgr.addEventLocked p fd e cb caller ok with
    | none => exact .of_eq rfl rfl
    | some r => exact (IOManager.addEventLocked_keeps hcore hp hc hr).logged
  | delEvent fd e => exact (IOManager.delEventLocked_keeps hcore hp fd e ok).logged
  | cancelEvent fd e =>
    obtain ⟨r, hr, hk⟩ := IOManager.cancelEventLocked_keeps hcore hp fd e ok
    rw [lockStep, hr]
    exact hk.logged
  | cancelAll fd =>
    obtain ⟨r, hr, hk⟩ := IOManager.cancelAllLocked_keeps hcore hp fd ok
    rw [lockStep, hr]
    exact hk.logged

/-- What a step logs accounts for the change of the counter. -/
theorem Inv.logged (h : Inv s) {a : ConcLabel T} (hf : s.Fitting a) (hs : s.step a = some u) :
    s.mgr.Logged (s.pc a.thread).registers u.mgr := by
  unfold Conc.step at hs
  split_ifs at hs
  cases a with
  | call t c =>
    simp only at hs
    split_ifs at hs
    rw [← Option.some.inj hs, callStep_mgr]
    exact .of_eq rfl rfl
  | grow t =>
    simp only at hs
    split at hs <;> cases hs
    unfold growStep
    dsimp only
    cases (s.mgr.grow _).2 with
    | none => exact .of_eq rfl rfl
    | some p => exact .of_eq rfl rfl
  | lock t ok =>
    simp only at hs
    split at hs <;> cases hs
    next p c hpc =>
    have hv := h.pc t
    rw [hpc] at hv
    rw [show s.pc (ConcLabel.lock t ok).thread = .found p c from hpc]
    exact h.logged_lock hv.1 hv.2 ok
  | wait t reports =>
    simp only at hs
    split_ifs at hs
    cases hs
    exact .of_eq rfl rfl
  | handle t ok =>
    simp only at hs
    split at hs <;> cases hs
    · next p m rest hpc =>
      obtain ⟨n, hn, hk⟩ := h.handled hpc hf
      unfold handleStep
      rw [hn, show s.pc (ConcLabel.handle t ok).thread = .batch ((p, m) :: rest) from hpc]
      exact hk.logged
    · exact .of_eq rfl rfl

omit [DecidableEq T] in
theorem Env.inside {a : ConcLabel T} (he : s.Env a) (t : T) (c : EventCall) (ha : a = .call t c) :
    c.Inside := by
  subst ha
  cases c with
  | addEvent fd e cb caller => exact he.1
  | _ => trivial

end Conc

/-- No trigger fails and the counter does not go below zero, in every run in which each report is
handled while it fits. -/
theorem trigger_safe {T : Type} [DecidableEq T] {s : Conc T}
    (hr : Reach Conc.step (fun s a => s.Env a ∧ s.Fitting a) Conc.start s) : s.TriggerSafe :=
  (hr.invariant (I := Conc.Inv) .start fun _ _ _ hi hok hs =>
    hi.step hok.1.inside hok.2 hs).triggerSafe

/-- A report of both events of a descriptor, handled after another thread has cancelled both. -/
theorem trigger_safe_cancelled : ∃ s : Conc (Fin 2), s.mgr.pending = 0 ∧ s.pc 0 = .batch [] ∧
    s.TriggerSafe := by
  have hr := reach_exec Conc.step (fun (s : Conc (Fin 2)) a => s.Env a ∧ s.Fitting a) Conc.start
    [.call 0 (.addEvent 7 .read none ⟨some 1, 3, .exec⟩), .lock 0 true,
      .call 0 (.addEvent 7 .write (some 9) ⟨some 1, 3, .exec⟩), .lock 0 true, .wait 0 [(7, 5)],
      .call 1 (.cancelAll 7), .lock 1 true, .handle 0 true] (by decide)
  refine ⟨_, ?_, ?_, trigger_safe hr⟩ <;> decide

/-- **A stale report.** `READ` and `WRITE` of a descriptor are registered, `epoll_wait` reports both,
another thread cancels `WRITE`; then `idle` triggers `WRITE` all the same. -/
theorem stale_report : ∃ s : Conc (Fin 2), Reach Conc.step Conc.Env Conc.start s ∧
    s.fault = some .trigger ∧ ¬ s.TriggerSafe := by
  have hr := reach_exec Conc.step (Conc.Env (T := Fin 2)) Conc.start
    [.call 0 (.addEvent 7 .read none ⟨some 1, 3, .exec⟩), .lock 0 true,
      .call 0 (.addEvent 7 .write (some 9) ⟨some 1, 3, .exec⟩), .lock 0 true, .wait 0 [(7, 5)],
      .call 1 (.cancelEvent 7 .write), .lock 1 true, .handle 0 true] (by decide)
  refine ⟨_, hr, by decide, fun h => h.fault ?_⟩
  decide

end CoroutineScheduler
