import CoroutineScheduler.IOManager.Slots
import CoroutineScheduler.Lib.Trans

/-!
# The registration invariant

One call after the other, with descriptors that stay open. The abstract state is which events of
which descriptor are registered, with what (`slot`); `Represents` and `Agrees` tie it to the
contexts, the counter, the log and the kernel's interest list, and every operation keeps them.

`events_registered`: after any sequence of calls and reports, `Registered` holds.
-/

namespace CoroutineScheduler

open Trans

/-! ## The machine -/

/-- The calls, and `report`: `idle` handles an event that the kernel reports of `fd`. -/
inductive EventOp
  | addEvent (fd : ℕ) (e : Event) (cb : Option Callback) (caller : Caller) (ok : Bool)
  | delEvent (fd : ℕ) (e : Event) (ok : Bool)
  | cancelEvent (fd : ℕ) (e : Event) (ok : Bool)
  | cancelAll (fd : ℕ) (ok : Bool)
  | report (fd : ℕ) (reported : Mask) (ok : Bool)
  deriving DecidableEq, Repr

/-- Whether the kernel lets the `epoll_ctl` of the operation succeed. -/
def EventOp.ok : EventOp → Bool
  | addEvent _ _ _ _ ok | delEvent _ _ ok | cancelEvent _ _ ok | cancelAll _ ok | report _ _ ok => ok

/-- One step in the life of an event: it is registered, and then used once, by the call of
`schedule` that its registration is good for or by being dropped. -/
def Use.play : Option Reg → Use → Option (Option Reg)
  | none, .registered r => some (some r)
  | some r, .fired (some c) => if c = r.call then some none else none
  | some _, .dropped => some none
  | _, _ => none

namespace IOManager

/-- The life of event `e` of `fd`, as far as the log goes: what is registered now, or `none` if
some registration was used twice, never, or for another call. -/
def life (log : List Effect) (fd : ℕ) (e : Event) : Option (Option Reg) :=
  ((log.filter fun x => x.fd = fd ∧ x.event = e).map Effect.use).foldlM Use.play none

/-- The context of `fd`; one that has not been created yet counts as empty. -/
def context (s : IOManager) (fd : ℕ) : FdContext :=
  match s.table[fd]? with
  | some p => s.heap p
  | none => { fd := fd }

def step (s : IOManager) : EventOp → Option IOManager
  | .addEvent fd e cb caller ok => (s.addEvent fd e cb caller ok).map Prod.fst
  | .delEvent fd e ok => some (s.delEvent fd e ok).1
  | .cancelEvent fd e ok => (s.cancelEvent fd e ok).map Prod.fst
  | .cancelAll fd ok => (s.cancelAll fd ok).map Prod.fst
  | .report fd reported ok => (s.interest fd).bind fun r => s.idleEvent r.2 reported ok

/-- The caller of `addEvent` runs in a scheduler and adds an event that is not registered yet; the
kernel's descriptors are small enough for the table to have fewer than `2 ^ 31` entries; a report is
about registered events. -/
def Allowed (s : IOManager) : EventOp → Prop
  | .addEvent fd e _ caller _ =>
    fd * 3 / 2 < 2 ^ 31 ∧ caller.scheduler ≠ none ∧ caller.state = .exec ∧
      (s.context fd).events &&& e.bit = 0
  | .report fd reported _ => s.interest fd ≠ none ∧ Current reported (s.context fd).events
  | _ => True

instance (s : IOManager) (o : EventOp) : Decidable (s.Allowed o) := by
  cases o <;> unfold Allowed <;> infer_instance

/-- Nothing has happened to any registration. -/
structure Unchanged (s t : IOManager) : Prop where
  pending : t.pending = s.pending
  context : ∀ fd, t.context fd = s.context fd
  interest : t.interest = s.interest
  log : t.log = s.log

/-- The registration invariant. -/
structure Registered (s : IOManager) : Prop where
  /-- `m_pendingEventCount` is the number of set bits -/
  pending : s.pending = (s.table.map fun p => ((s.heap p).events.setBits : ℤ)).sum
  /-- a bit is set iff its context has a scheduler and one of callback and fiber -/
  filled : ∀ fd e, (s.context fd).events &&& e.bit ≠ 0 ↔
    ((s.context fd).getContext e).scheduler.isSome = true ∧
      (((s.context fd).getContext e).cb.isSome ^^ ((s.context fd).getContext e).fiber.isSome) = true
  empty : ∀ fd e, (s.context fd).events &&& e.bit = 0 → (s.context fd).getContext e = {}
  /-- the kernel's mask is `events` -/
  interest : ∀ fd, (s.interest fd).map Prod.fst =
    if (s.context fd).events = 0 then none else some (Mask.epollEt ||| (s.context fd).events)
  /-- every registration but the present one has been used, once -/
  life : ∀ fd e, ∃ r, life s.log fd e = some r ∧ (s.context fd).getContext e = .of r
  /-- no assertion fails -/
  defined : ∀ o, s.Allowed o → (s.step o).isSome = true
  /-- a failed `epoll_ctl` changes nothing -/
  failed : ∀ o t, s.Allowed o → o.ok = false → s.step o = some t → s.Unchanged t

/-! ## The life of an event -/

theorem life_append (log : List Effect) (fd : ℕ) (e : Event) (x : Effect) :
    life (log ++ [x]) fd e =
      if x.fd = fd ∧ x.event = e then (life log fd e).bind fun r => Use.play r x.use
      else life log fd e := by
  unfold life
  by_cases h : x.fd = fd ∧ x.event = e
  · rw [if_pos h, List.filter_append, List.map_append, List.foldlM_append]
    simp [h]
  · rw [if_neg h, List.filter_append]
    simp [h]

/-! ## The invariant -/

/-- The contexts, the counter and the log of `s` stand for the registrations `slot`. -/
structure Represents (s : IOManager) (slot : ℕ → Event → Option Reg) : Prop where
  core : Core s slot
  order : InOrder s
  life : ∀ fd e, IOManager.life s.log fd e = some (slot fd e)

/-- The interest list `i` has the registrations `slot`. -/
def Agrees (i : Interest) (slot : ℕ → Event → Option Reg) : Prop :=
  ∀ fd, i fd = if Event.mask (slot fd) = 0 then none
    else some (Mask.epollEt ||| Event.mask (slot fd), fd)

namespace Represents

variable {s t : IOManager} {slot : ℕ → Event → Option Reg} {fd : ℕ} {e : Event}

theorem context_eq (h : Represents s slot) (fd : ℕ) : s.context fd = .of fd (slot fd) := by
  unfold IOManager.context
  rw [h.order.table]
  by_cases hfd : fd < s.fresh
  · rw [List.getElem?_range hfd]
    show s.heap fd = _
    rw [h.core.heap fd hfd, h.order.fd fd hfd]
  · rw [List.getElem?_eq_none (by simpa using hfd), h.core.beyond fd (not_lt.1 hfd)]
    rfl

theorem heap_eq (h : Represents s slot) (hfd : fd < s.fresh) :
    s.heap fd = .of (s.heap fd).fd (slot fd) := h.core.heap fd hfd

/-- A larger table. -/
theorem grow (h : Represents s slot) (hfd : ¬ fd < s.fresh) (hlt : fd * 3 / 2 < 2 ^ 31) :
    Represents (s.grow fd).1 slot ∧ (s.grow fd).2 = some fd ∧ fd < (s.grow fd).1.fresh := by
  have h32 := h.order.size.1
  obtain ⟨ho, hfresh⟩ := h.order.contextResize (n := fd * 3 / 2) (by omega) hlt
  have hlt' : fd < (s.contextResize (fd * 3 / 2)).fresh := by
    rw [hfresh]
    omega
  refine ⟨⟨h.core.contextResize _, ho, h.life⟩, ?_, hlt'⟩
  show (s.contextResize (fd * 3 / 2)).table[fd]? = some fd
  rw [ho.table, List.getElem?_range hlt']

theorem put (h : Represents s slot) (hfd : fd < s.fresh) {v : Option Reg} {u : Use}
    (hu : Use.play (slot fd e) u = some v) :
    Represents (s.put fd (slot fd) e v u)
      (Function.update slot fd (Function.update (slot fd) e v)) := by
  refine ⟨h.core.put hfd e v u, ⟨h.order.table, h.order.size, fun p hp => ?_⟩, fun d x => ?_⟩
  · by_cases hpf : p = fd
    · subst hpf
      rw [put_heap]
      exact h.order.fd p hp
    · have : (s.put fd (slot fd) e v u).heap p = s.heap p := Function.update_of_ne hpf _ _
      rw [this]
      exact h.order.fd p hp
  · show IOManager.life (s.log ++ [⟨(s.heap fd).fd, e, u⟩]) d x = _
    rw [life_append, h.order.fd fd hfd, h.life]
    by_cases hd : fd = d
    · subst hd
      rw [Function.update_self]
      by_cases hx : e = x
      · subst hx
        rw [if_pos ⟨rfl, rfl⟩, Function.update_self]
        exact hu
      · rw [if_neg (fun hc => hx hc.2), Function.update_of_ne (Ne.symm hx)]
    · rw [if_neg (fun hc => hd hc.1), Function.update_of_ne (Ne.symm hd)]

theorem setInterest (h : Represents s slot) (i : Interest) : Represents (s.setInterest i) slot :=
  ⟨h.core.setInterest i, ⟨h.order.table, h.order.size, h.order.fd⟩, h.life⟩

/-- A slot is changed, here and in the kernel. -/
theorem putInterest (h : Represents s slot) (hfd : fd < s.fresh) (i : Interest) {v : Option Reg}
    {u : Use} (hu : Use.play (slot fd e) u = some v) :
    Represents ((s.setInterest i).put fd (slot fd) e v u)
      (Function.update slot fd (Function.update (slot fd) e v)) :=
  (h.setInterest i).put hfd hu

theorem consume (h : Represents s slot) (hfd : fd < s.fresh) (e : Event) :
    Represents (s.consume fd (slot fd) e)
      (Function.update slot fd (Function.update (slot fd) e none)) := by
  unfold IOManager.consume
  split
  · next r hr => exact h.put hfd (by rw [hr]; simp [Use.play])
  · next hr =>
    rw [← hr, Function.update_eq_self, Function.update_eq_self]
    exact h

theorem consumeIn (h : Represents s slot) (hfd : fd < s.fresh) (real : Mask) (e : Event) :
    Represents (s.consumeIn fd (slot fd) real e)
      (Function.update slot fd (without (slot fd) real e)) := by
  unfold IOManager.consumeIn without
  split_ifs
  · exact h.consume hfd e
  · rw [Function.update_eq_self]
    exact h

end Represents

/-! ## The kernel's side -/

/-- The entry of the interest list for `fd` with the registrations `slot`. -/
def entry (fd : ℕ) (slot : Event → Option Reg) : Option (Mask × Ptr) :=
  if Event.mask slot = 0 then none else some (Mask.epollEt ||| Event.mask slot, fd)

namespace Agrees

variable {i : Interest} {slot : ℕ → Event → Option Reg} {fd : ℕ} {e : Event}

theorem update (h : Agrees i slot) (new : Event → Option Reg) :
    Agrees (Function.update i fd (entry fd new)) (Function.update slot fd new) := by
  intro d
  by_cases hd : d = fd
  · subst hd
    rw [Function.update_self, Function.update_self]
    rfl
  · rw [Function.update_of_ne hd, Function.update_of_ne hd]
    exact h d

/-- The `epoll_ctl` of `addEvent` fails only if the kernel lets it fail. -/
theorem ctl_add (h : Agrees i slot) (ok : Bool) (r : Reg) :
    epollCtl i ok (if Event.mask (slot fd) ≠ 0 then .mod else .add) fd
        (Mask.epollEt ||| Event.mask (slot fd) ||| e.bit) fd =
      if ok then some (Function.update i fd (entry fd (Function.update (slot fd) e (some r))))
      else none := by
  have hne : ¬ Event.mask (Function.update (slot fd) e (some r)) = 0 := by
    rw [Event.mask_eq_zero]
    intro hc
    have := hc e
    rw [Function.update_self] at this
    cases this
  rw [entry, if_neg hne, Event.mask_update_some, ← BitVec.or_assoc]
  have hi := h fd
  by_cases hz : Event.mask (slot fd) = 0
  · rw [if_pos hz] at hi
    cases ok <;> simp [epollCtl, hi, hz]
  · rw [if_neg hz] at hi
    have hz' : Event.mask (slot fd) ≠ 0 := hz
    cases ok <;> simp only [epollCtl, hi, if_pos hz', if_true, if_false, Bool.false_eq_true]

/-- So do those that leave the registrations `new`. -/
theorem ctlLeft {s : IOManager} (h : Agrees s.interest slot) (hz : Event.mask (slot fd) ≠ 0)
    (new : Event → Option Reg) (ok : Bool) :
    s.ctlLeft fd fd (Event.mask new) ok =
      if ok then some (Function.update s.interest fd (entry fd new)) else none := by
  have hi := h fd
  rw [if_neg hz] at hi
  unfold IOManager.ctlLeft entry
  by_cases hn : Event.mask new = 0
  · rw [if_pos hn]
    cases ok <;> simp [epollCtl, hi, hn]
  · have hn' : Event.mask new ≠ 0 := hn
    rw [if_neg hn]
    cases ok <;> simp only [epollCtl, hi, if_pos hn', if_true, if_false, Bool.false_eq_true]

theorem ctl_del (h : Agrees i slot) (hz : Event.mask (slot fd) ≠ 0) (m : Mask) (ok : Bool) :
    epollCtl i ok .del fd m fd = if ok then some (Function.update i fd none) else none := by
  have hi := h fd
  rw [if_neg hz] at hi
  cases ok <;> simp [epollCtl, hi]

end Agrees

/-! ## The operations -/

/-- The invariant. -/
def Inv (s : IOManager) : Prop := ∃ slot, Represents s slot ∧ Agrees s.interest slot

/-- What an operation does to a state that satisfies the invariant. -/
def Good (s : IOManager) (ok : Bool) (r : Option IOManager) : Prop :=
  ∃ t, r = some t ∧ Inv t ∧ (ok = false → s.Unchanged t)

theorem Unchanged.refl (s : IOManager) : s.Unchanged s := ⟨rfl, fun _ => rfl, rfl, rfl⟩

theorem good_self {s : IOManager} (h : Inv s) (ok : Bool) : Good s ok (some s) :=
  ⟨s, rfl, h, fun _ => .refl s⟩

/-- An operation whose `epoll_ctl` succeeds. -/
theorem good_of {s t : IOManager} {slot : ℕ → Event → Option Reg} (h : Represents t slot)
    (ha : Agrees t.interest slot) : Good s true (some t) :=
  ⟨t, rfl, ⟨slot, h, ha⟩, Bool.noConfusion⟩

section Operations

variable {s : IOManager} {slot : ℕ → Event → Option Reg} {fd : ℕ} {e : Event}

theorem addEventLocked_good (h : Represents s slot) (ha : Agrees s.interest slot)
    (hfd : fd < s.fresh) (he : slot fd e = none) (cb : Option Callback) {caller : Caller}
    (hs : caller.scheduler ≠ none) (hx : caller.state = .exec) (ok : Bool) :
    Good s ok ((s.addEventLocked fd fd e cb caller ok).map Prod.fst) := by
  obtain ⟨sched, hsched⟩ := Option.ne_none_iff_exists'.1 hs
  rw [addEventLocked_eq (h.heap_eq hfd) he fd cb hsched hx ok,
    ha.ctl_add ok ⟨sched, caller.task cb⟩]
  cases ok with
  | false => exact good_self ⟨slot, h, ha⟩ false
  | true =>
    exact good_of (h.putInterest hfd _ (by rw [he]; rfl)) (ha.update _)

theorem addEvent_good (h : Represents s slot) (ha : Agrees s.interest slot) {cb : Option Callback}
    {caller : Caller} {ok : Bool} (hok : s.Allowed (.addEvent fd e cb caller ok)) :
    Good s ok ((s.addEvent fd e cb caller ok).map Prod.fst) := by
  obtain ⟨hlt, hs, hx, hz⟩ := hok
  rw [h.context_eq fd, FdContext.of_events, Event.mask_and_bit] at hz
  unfold addEvent
  rw [h.order.lookup_eq fd]
  by_cases hfd : fd < s.fresh
  · rw [if_pos hfd]
    exact addEventLocked_good h ha hfd hz cb hs hx ok
  · obtain ⟨hg, hp, hlt'⟩ := h.grow hfd hlt
    dsimp only
    rw [if_neg hfd, hp]
    obtain ⟨t, ht, hi, hun⟩ := addEventLocked_good hg ha hlt' hz cb hs hx ok
    refine ⟨t, ht, hi, fun hk => ?_⟩
    obtain ⟨h1, h2, h3, h4⟩ := hun hk
    refine ⟨h1, fun d => ?_, h3, h4⟩
    rw [h2, hg.context_eq, h.context_eq]

theorem mask_ne_zero {sl : Event → Option Reg} {r : Reg} (hr : sl e = some r) : Event.mask sl ≠ 0 := by
  rw [Ne, Event.mask_eq_zero]
  intro hc
  rw [hc e] at hr
  cases hr

theorem delEvent_good (h : Represents s slot) (ha : Agrees s.interest slot) (ok : Bool) :
    Good s ok (some (s.delEvent fd e ok).1) := by
  unfold delEvent
  rw [h.order.lookup_eq fd]
  by_cases hfd : fd < s.fresh
  · rw [if_pos hfd, Option.elim_some, delEventLocked_eq (h.heap_eq hfd)]
    cases hr : slot fd e with
    | none => exact good_self ⟨slot, h, ha⟩ ok
    | some r =>
      rw [ha.ctlLeft (mask_ne_zero hr)]
      cases ok with
      | false => exact good_self ⟨slot, h, ha⟩ false
      | true => exact good_of (h.putInterest hfd _ (by rw [hr]; rfl)) (ha.update _)
  · rw [if_neg hfd]
    exact good_self ⟨slot, h, ha⟩ ok

theorem cancelEvent_good (h : Represents s slot) (ha : Agrees s.interest slot) (ok : Bool) :
    Good s ok ((s.cancelEvent fd e ok).map Prod.fst) := by
  unfold cancelEvent
  rw [h.order.lookup_eq fd]
  by_cases hfd : fd < s.fresh
  · rw [if_pos hfd, Option.elim_some, cancelEventLocked_eq (h.heap_eq hfd)]
    cases hr : slot fd e with
    | none => exact good_self ⟨slot, h, ha⟩ ok
    | some r =>
      rw [ha.ctlLeft (mask_ne_zero hr)]
      cases ok with
      | false => exact good_self ⟨slot, h, ha⟩ false
      | true =>
        refine good_of (Represents.consume (h.setInterest (Function.update s.interest fd _)) hfd e) ?_
        rw [consume_interest]
        exact ha.update _
  · rw [if_neg hfd]
    exact good_self ⟨slot, h, ha⟩ ok

theorem cancelAll_good (h : Represents s slot) (ha : Agrees s.interest slot) (ok : Bool) :
    Good s ok ((s.cancelAll fd ok).map Prod.fst) := by
  unfold cancelAll
  rw [h.order.lookup_eq fd]
  by_cases hfd : fd < s.fresh
  · rw [if_pos hfd, Option.elim_some, cancelAllLocked_eq (h.heap_eq hfd)]
    by_cases hz : Event.mask (slot fd) = 0
    · rw [if_pos hz]
      exact good_self ⟨slot, h, ha⟩ ok
    · rw [if_neg hz, ha.ctl_del hz]
      cases ok with
      | false => exact good_self ⟨slot, h, ha⟩ false
      | true =>
        have h1 := Represents.consume (h.setInterest (Function.update s.interest fd none)) hfd .read
        have h2 := h1.consume (by rw [consume_fresh]; exact hfd) .write
        rw [Function.update_self, Function.update_idem] at h2
        refine good_of h2 ?_
        rw [consume_interest, consume_interest]
        have hnone : ∀ e, Function.update (Function.update (slot fd) .read none) .write none e = none := by
          intro e
          cases e <;> rfl
        have hupd : Agrees (Function.update s.interest fd (entry fd _))
            (Function.update slot fd (Function.update (Function.update (slot fd) .read none) .write none)) :=
          ha.update _
        rwa [entry, if_pos ((Event.mask_eq_zero _).2 hnone)] at hupd
  · rw [if_neg hfd]
    exact good_self ⟨slot, h, ha⟩ ok

theorem report_good (h : Represents s slot) (ha : Agrees s.interest slot) {reported : Mask} {ok : Bool}
    (hok : s.Allowed (.report fd reported ok)) : Good s ok (s.step (.report fd reported ok)) := by
  obtain ⟨hi, hcur⟩ := hok
  rw [h.context_eq fd, FdContext.of_events] at hcur
  have hz : Event.mask (slot fd) ≠ 0 := fun hc => hi (by rw [ha fd, if_pos hc])
  have hfd : fd < s.fresh := by
    by_contra hc
    refine hz ((Event.mask_eq_zero _).2 fun e => ?_)
    rw [h.core.beyond fd (not_lt.1 hc)]
  show Good s ok ((s.interest fd).bind fun r => s.idleEvent r.2 reported ok)
  rw [ha fd, if_neg hz, Option.bind_some, idleEvent_eq (h.heap_eq hfd) rfl (fun e => hcur.sub),
    h.order.fd fd hfd]
  generalize realEvents reported (Event.mask (slot fd)) = real
  by_cases hr : Event.mask (slot fd) &&& real = 0
  · rw [if_pos hr]
    exact good_self ⟨slot, h, ha⟩ ok
  · rw [if_neg hr, ← mask_without, ha.ctlLeft hz]
    cases ok with
    | false => exact good_self ⟨slot, h, ha⟩ false
    | true =>
      have h1 := Represents.consumeIn (h.setInterest (Function.update s.interest fd
        (entry fd (without (without (slot fd) real .read) real .write)))) hfd real .read
      have h2 := h1.consumeIn (by rw [consumeIn_fresh]; exact hfd) real .write
      rw [Function.update_self, Function.update_idem] at h2
      refine good_of h2 ?_
      rw [consumeIn_interest, consumeIn_interest]
      exact ha.update _

end Operations

theorem Inv.good {s : IOManager} (h : Inv s) {o : EventOp} (hok : s.Allowed o) :
    Good s o.ok (s.step o) := by
  obtain ⟨slot, h, ha⟩ := h
  cases o with
  | addEvent fd e cb caller ok =>
    rw [IOManager.step, EventOp.ok]
    exact addEvent_good h ha hok
  | delEvent fd e ok =>
    rw [IOManager.step, EventOp.ok]
    exact delEvent_good h ha ok
  | cancelEvent fd e ok =>
    rw [IOManager.step, EventOp.ok]
    exact cancelEvent_good h ha ok
  | cancelAll fd ok =>
    rw [IOManager.step, EventOp.ok]
    exact cancelAll_good h ha ok
  | report fd reported ok => exact report_good h ha hok

theorem Inv.start : Inv start := by
  exact ⟨fun _ _ => none, ⟨Core.start, InOrder.start, fun _ _ => rfl⟩,
    fun _ => (if_pos ((Event.mask_eq_zero _).2 fun _ => rfl)).symm⟩

/-- The invariant says what the registrations are. -/
theorem Inv.registered {s : IOManager} (h : Inv s) : Registered s := by
  have hgood := fun o (ho : s.Allowed o) => h.good ho
  obtain ⟨slot, hr, ha⟩ := h
  refine ⟨?_, fun fd e => ?_, fun fd e hz => ?_, fun fd => ?_, fun fd e => ?_, fun o ho => ?_,
    fun o t ho hk ht => ?_⟩
  · have hbits : ∀ p ∈ Finset.range s.fresh,
        Event.count (slot p) = ((s.heap p).events.setBits : ℤ) := fun p hp => by
      rw [hr.heap_eq (Finset.mem_range.1 hp), FdContext.of_events, Event.setBits_mask, Nat.cast_add]
      rfl
    rw [hr.core.pending, hr.order.table, Finset.sum_congr rfl hbits]
    rfl
  · rw [hr.context_eq, FdContext.of_events, FdContext.getContext_of, Ne, Event.mask_and_bit,
      EventContext.of_scheduler]
    cases hs : slot fd e with
    | none => simp
    | some r => simp [EventContext.of_xor r]
  · rw [hr.context_eq, FdContext.of_events, Event.mask_and_bit] at hz
    rw [hr.context_eq, FdContext.getContext_of, hz]
    rfl
  · rw [ha fd, hr.context_eq, FdContext.of_events]
    split_ifs <;> rfl
  · exact ⟨slot fd e, hr.life fd e, by rw [hr.context_eq, FdContext.getContext_of]⟩
  · obtain ⟨t, ht, -⟩ := hgood o ho
    rw [ht]
    rfl
  · obtain ⟨u, hu, -, hun⟩ := hgood o ho
    rw [ht] at hu
    cases hu
    exact hun hk

end IOManager

/-- **The registration invariant** holds after any sequence of calls and reports. -/
theorem events_registered {s : IOManager}
    (hr : Reach IOManager.step IOManager.Allowed IOManager.start s) : s.Registered := by
  refine (hr.invariant (I := IOManager.Inv) .start fun s o t hi hok hs => ?_).registered
  obtain ⟨u, hu, hiu, -⟩ := hi.good hok
  rw [hs] at hu
  cases hu
  exact hiu

/-- Both events of one descriptor are registered, the table grows for another, one `epoll_ctl` fails,
and a hang-up fires what is left. -/
theorem events_registered_hup : ∃ s : IOManager, s.pending = 1 ∧ s.table.length = 60 ∧
    s.log.length = 5 ∧ (s.context 40).events = 4 ∧ (s.context 7).events = 0 ∧ s.Registered := by
  have hr := reach_exec IOManager.step IOManager.Allowed IOManager.start
    [.addEvent 7 .read none ⟨some 1, 3, .exec⟩ true, .addEvent 7 .write (some 9) ⟨some 1, 3, .exec⟩ true,
      .addEvent 40 .write none ⟨some 1, 4, .exec⟩ true, .delEvent 7 .read false,
      .report 7 0x11 true, .cancelAll 7 true] (by decide)
  refine ⟨_, ?_, ?_, ?_, ?_, ?_, events_registered hr⟩ <;> decide

end CoroutineScheduler
