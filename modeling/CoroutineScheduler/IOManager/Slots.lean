import CoroutineScheduler.IOManager.Events
import Mathlib.Algebra.BigOperators.Group.Finset.Basic
import Mathlib.Algebra.BigOperators.Ring.Finset
import Mathlib.Tactic

/-!
# What the event operations do to the registrations

The abstract view of event registration: a context is a pair of slots, each with a registration or
without, and an operation fills a slot or empties one. For each operation under the mutex of a
context one equation says which slots it changes (`put`), in a context that stands for given slots:
`addEventLocked_eq`, `delEventLocked_eq`, `cancelEventLocked_eq`, `cancelAllLocked_eq`, `idleEvent_eq`.

`Core s slot` says that the contexts of `s` stand for the slots, and that `m_pendingEventCount` is
the number of filled ones.
-/

namespace CoroutineScheduler

/-- The number of registrations of a context. -/
def Event.count (slot : Event → Option Reg) : ℤ :=
  (slot .read).isSome.toNat + (slot .write).isSome.toNat

theorem Event.count_update (slot : Event → Option Reg) (e : Event) (v : Option Reg) :
    Event.count (Function.update slot e v) =
      Event.count slot + ((v.isSome.toNat : ℤ) - (slot e).isSome.toNat) := by
  unfold Event.count
  cases e
  · simp [Function.update]
    ring
  · simp [Function.update]

theorem Event.count_nonneg (slot : Event → Option Reg) : 0 ≤ Event.count slot := by
  unfold Event.count
  omega

namespace IOManager

variable {s : IOManager} {p : Ptr} {slot : Event → Option Reg} {e : Event}

/-- The state after slot `e` of context `p` has become `v`. -/
def put (s : IOManager) (p : Ptr) (slot : Event → Option Reg) (e : Event) (v : Option Reg)
    (u : Use) : IOManager where
  pending := s.pending + ((v.isSome.toNat : ℤ) - (slot e).isSome.toNat)
  table := s.table
  heap := Function.update s.heap p (.of (s.heap p).fd (Function.update slot e v))
  fresh := s.fresh
  interest := s.interest
  log := s.log ++ [⟨(s.heap p).fd, e, u⟩]

/-- The state after the registration in slot `e`, if there is one, has been scheduled. -/
def consume (s : IOManager) (p : Ptr) (slot : Event → Option Reg) (e : Event) : IOManager :=
  match slot e with
  | some r => s.put p slot e none (.fired (some r.call))
  | none => s

theorem put_heap (v : Option Reg) (u : Use) :
    (s.put p slot e v u).heap p = .of (s.heap p).fd (Function.update slot e v) :=
  Function.update_self ..

theorem consume_heap (h : s.heap p = .of (s.heap p).fd slot) :
    (s.consume p slot e).heap p = .of ((s.consume p slot e).heap p).fd (Function.update slot e none) := by
  unfold consume
  split
  · next r hr =>
    rw [put_heap]
    rfl
  · next hr =>
    rw [← hr, Function.update_eq_self]
    exact h

theorem consume_interest : (s.consume p slot e).interest = s.interest := by
  unfold consume
  split <;> rfl

theorem consume_fresh : (s.consume p slot e).fresh = s.fresh := by
  unfold consume
  split <;> rfl

/-! ## The operations on given slots -/

/-- An `epoll_ctl` on a registered descriptor does what the kernel chooses. -/
theorem ctlLeft_isSome {fd : ℕ} (hi : s.interest fd ≠ none) (left : Mask) :
    (s.ctlLeft p fd left true).isSome = true := by
  obtain ⟨i, hi⟩ := Option.ne_none_iff_exists'.1 hi
  unfold ctlLeft epollCtl
  dsimp only
  rw [hi]
  split_ifs <;> rfl

theorem trigger_eq (h : s.heap p = .of (s.heap p).fd slot) {r : Reg} (hr : slot e = some r) :
    (s.trigger p e).map (fun t => t.addPending (-1)) =
      some (s.put p slot e none (.fired (some r.call))) := by
  unfold trigger
  rw [h, FdContext.triggerEvent_of hr]
  simp only [Option.map_some, put, hr]
  rfl

theorem trigger_addPending (d : ℤ) :
    (s.addPending d).trigger p e = (s.trigger p e).map (fun t => t.addPending d) := by
  unfold trigger
  rw [Option.map_map]
  rfl

theorem addEventLocked_eq (h : s.heap p = .of (s.heap p).fd slot) (hr : slot e = none) (fd : ℕ)
    (cb : Option Callback) {caller : Caller} {sched : SchedulerId}
    (hs : caller.scheduler = some sched) (hx : caller.state = .exec) (ok : Bool) :
    s.addEventLocked p fd e cb caller ok =
      match epollCtl s.interest ok (if Event.mask slot ≠ 0 then .mod else .add) fd
          (Mask.epollEt ||| Event.mask slot ||| e.bit) p with
      | none => some (s, -1)
      | some i =>
        some ((s.setInterest i).put p slot e (some ⟨sched, caller.task cb⟩)
          (.registered ⟨sched, caller.task cb⟩), 0) := by
  have hev : (s.heap p).events = Event.mask slot := by rw [h]; rfl
  have hctx : (s.heap p).getContext e = {} := by rw [h, FdContext.getContext_of, hr]; rfl
  have hz : Event.mask slot &&& e.bit = 0 := (Event.mask_and_bit slot e).2 hr
  unfold addEventLocked
  simp only [hev, hz, ne_eq, not_true_eq_false, if_false, hctx, hx, and_false, hs]
  cases epollCtl s.interest ok (if ¬ Event.mask slot = 0 then .mod else .add) fd
      (Mask.epollEt ||| Event.mask slot ||| e.bit) p with
  | none => rfl
  | some i =>
    have hc : FdContext.setContext { s.heap p with events := Event.mask slot ||| e.bit } e
        (caller.context cb) =
        .of (s.heap p).fd (Function.update slot e (some ⟨sched, caller.task cb⟩)) := by
      rw [← Event.mask_update_some slot e ⟨sched, caller.task cb⟩, ← FdContext.setContext_of, ← h]
      cases e <;> cases cb <;> simp [Caller.context, hs, FdContext.setContext, EventContext.of, Caller.task]
    simp only [hc, put, hr]
    rfl

theorem delEventLocked_eq (h : s.heap p = .of (s.heap p).fd slot) (fd : ℕ) (ok : Bool) :
    s.delEventLocked p fd e ok =
      match slot e, s.ctlLeft p fd (Event.mask (Function.update slot e none)) ok with
      | some _, some i => ((s.setInterest i).put p slot e none .dropped, true)
      | _, _ => (s, false) := by
  have hev : (s.heap p).events = Event.mask slot := by rw [h]; rfl
  unfold delEventLocked
  simp only [hev, ← Event.mask_update_none]
  cases hr : slot e with
  | none => simp [(Event.mask_and_bit slot e).2 hr]
  | some r =>
    have hz : ¬ Event.mask slot &&& e.bit = 0 := by
      rw [Event.mask_and_bit, hr]
      exact Option.some_ne_none r
    rw [if_neg hz]
    cases s.ctlLeft p fd (Event.mask (Function.update slot e none)) ok with
    | none => rfl
    | some i =>
      have hc : FdContext.resetContext
          { s.heap p with events := Event.mask (Function.update slot e none) } e =
          .of (s.heap p).fd (Function.update slot e none) := by
        rw [← FdContext.setContext_of, ← h]
        cases e <;> rfl
      simp only [hc, put, hr]
      rfl

theorem cancelEventLocked_eq (h : s.heap p = .of (s.heap p).fd slot) (fd : ℕ) (ok : Bool) :
    s.cancelEventLocked p fd e ok =
      match slot e, s.ctlLeft p fd (Event.mask (Function.update slot e none)) ok with
      | some _, some i => some ((s.setInterest i).consume p slot e, true)
      | _, _ => some (s, false) := by
  have hev : (s.heap p).events = Event.mask slot := by rw [h]; rfl
  unfold cancelEventLocked
  simp only [hev, ← Event.mask_update_none]
  cases hr : slot e with
  | none => simp [(Event.mask_and_bit slot e).2 hr]
  | some r =>
    have hz : ¬ Event.mask slot &&& e.bit = 0 := by
      rw [Event.mask_and_bit, hr]
      exact Option.some_ne_none r
    rw [if_neg hz]
    cases s.ctlLeft p fd (Event.mask (Function.update slot e none)) ok with
    | none => rfl
    | some i =>
      have ht := trigger_eq (s := s.setInterest i) (p := p) h hr
      simp only [trigger_addPending, ht, consume, hr]
      rfl

theorem fireIf_eq (h : s.heap p = .of (s.heap p).fd slot) {events : Mask}
    (hsub : events &&& e.bit ≠ 0 → slot e ≠ none) :
    s.fireIf events p e =
      some (if events &&& e.bit ≠ 0 then s.consume p slot e else s) := by
  unfold fireIf
  by_cases hz : events &&& e.bit ≠ 0
  · rw [if_pos hz, if_pos hz]
    obtain ⟨r, hr⟩ := Option.ne_none_iff_exists'.1 (hsub hz)
    rw [trigger_eq h hr, consume, hr]
  · rw [if_neg hz, if_neg hz]

theorem fireIf_mask (h : s.heap p = .of (s.heap p).fd slot) :
    s.fireIf (Event.mask slot) p e = some (s.consume p slot e) := by
  have hz : Event.mask slot &&& e.bit ≠ 0 → slot e ≠ none := mt (Event.mask_and_bit slot e).2
  rw [fireIf_eq h hz]
  by_cases hr : Event.mask slot &&& e.bit = 0
  · rw [if_neg (not_not.2 hr), consume, (Event.mask_and_bit slot e).1 hr]
  · rw [if_pos hr]

/-- Both slots are emptied. -/
theorem cancelAllLocked_eq (h : s.heap p = .of (s.heap p).fd slot) (fd : ℕ) (ok : Bool) :
    s.cancelAllLocked p fd ok =
      if Event.mask slot = 0 then some (s, false)
      else match epollCtl s.interest ok .del fd 0 p with
        | none => some (s, false)
        | some i =>
          some (((s.setInterest i).consume p slot .read).consume p
            (Function.update slot .read none) .write, true) := by
  have hev : (s.heap p).events = Event.mask slot := by rw [h]; rfl
  unfold cancelAllLocked
  rw [hev]
  by_cases hz : Event.mask slot = 0
  · rw [if_pos hz, if_pos hz]
  · rw [if_neg hz, if_neg hz]
    cases epollCtl s.interest ok .del fd 0 p with
    | none => rfl
    | some i =>
      have h1 := consume_heap (s := s.setInterest i) (e := .read) h
      have h2 := consume_heap (e := .write) h1
      have he1 : (((s.setInterest i).consume p slot .read).heap p).events =
          Event.mask (Function.update slot .read none) := by rw [h1]; rfl
      have hnone : ∀ e, Function.update (Function.update slot .read none) .write none e = none := by
        intro e
        cases e <;> rfl
      have he2 : ((((s.setInterest i).consume p slot .read).consume p
          (Function.update slot .read none) .write).heap p).events = 0 := by
        rw [h2]
        exact (Event.mask_eq_zero _).2 hnone
      simp only [Option.bind_eq_bind, fireIf_mask (s := s.setInterest i) h, Option.bind_some, he1,
        fireIf_mask h1, he2, if_true]

/-- The slots once the events in `real` have been fired, up to `e`. -/
def without (slot : Event → Option Reg) (real : Mask) (e : Event) : Event → Option Reg :=
  if real &&& e.bit ≠ 0 then Function.update slot e none else slot

/-- The state once event `e`, if it is in `real`, has been scheduled. -/
def consumeIn (s : IOManager) (p : Ptr) (slot : Event → Option Reg) (real : Mask) (e : Event) :
    IOManager :=
  if real &&& e.bit ≠ 0 then s.consume p slot e else s

theorem consumeIn_heap (h : s.heap p = .of (s.heap p).fd slot) (real : Mask) :
    (s.consumeIn p slot real e).heap p =
      .of ((s.consumeIn p slot real e).heap p).fd (without slot real e) := by
  unfold consumeIn without
  split_ifs
  · exact consume_heap h
  · exact h

theorem consumeIn_interest (real : Mask) : (s.consumeIn p slot real e).interest = s.interest := by
  unfold consumeIn
  split_ifs
  · exact consume_interest
  · rfl

theorem consumeIn_fresh (real : Mask) : (s.consumeIn p slot real e).fresh = s.fresh := by
  unfold consumeIn
  split_ifs
  · exact consume_fresh
  · rfl

/-- `idle` fires the events in `real` when all of them are registered. -/
theorem idleEvent_eq (h : s.heap p = .of (s.heap p).fd slot) {reported real : Mask}
    (hreal : realEvents reported (Event.mask slot) = real)
    (hsub : ∀ e : Event, real &&& e.bit ≠ 0 → slot e ≠ none) (ok : Bool) :
    s.idleEvent p reported ok =
      if Event.mask slot &&& real = 0 then some s
      else match s.ctlLeft p (s.heap p).fd (Event.mask slot &&& ~~~real) ok with
        | none => some s
        | some i =>
          some (((s.setInterest i).consumeIn p slot real .read).consumeIn p
            (without slot real .read) real .write) := by
  have hev : (s.heap p).events = Event.mask slot := by rw [h]; rfl
  unfold idleEvent
  simp only [hev, hreal]
  by_cases hz : Event.mask slot &&& real = 0
  · rw [if_pos hz, if_pos hz]
  · rw [if_neg hz, if_neg hz]
    cases s.ctlLeft p (s.heap p).fd (Event.mask slot &&& ~~~real) ok with
    | none => rfl
    | some i =>
      have h1 := consumeIn_heap (s := s.setInterest i) (e := .read) h real
      have hw : real &&& Event.write.bit ≠ 0 → without slot real .read .write ≠ none := by
        intro hz
        unfold without
        split_ifs
        · exact hsub .write hz
        · exact hsub .write hz
      show ((s.setInterest i).fireIf real p .read).bind (fun t => t.fireIf real p .write) = _
      rw [fireIf_eq (s := s.setInterest i) h (hsub .read), Option.bind_some]
      exact fireIf_eq h1 hw

/-! ## The events of a report -/

/-- The position of the bit of an event. -/
def Event.index : Event → ℕ
  | .read => 0
  | .write => 2

theorem bit_eq_twoPow (e : Event) : e.bit = BitVec.twoPow 32 (Event.index e) := by
  cases e <;> decide

theorem and_bit_ne_zero (m : Mask) (e : Event) :
    m &&& e.bit ≠ 0 ↔ m.getLsbD (Event.index e) = true := by
  rw [bit_eq_twoPow, BitVec.and_twoPow]
  cases hm : m.getLsbD (Event.index e) with
  | false => simp
  | true => cases e <;> simp [Event.index] <;> decide

theorem or_bits_and_bit (a b : Prop) [Decidable a] [Decidable b] (e : Event) :
    ((if a then Event.read.bit else 0) ||| if b then Event.write.bit else 0) &&& e.bit ≠ 0 ↔
      (e = .read ∧ a) ∨ (e = .write ∧ b) := by
  by_cases ha : a <;> by_cases hb : b <;> cases e <;> simp [ha, hb] <;> decide

/-- An event is fired when it is reported, or when it is registered and an error or hang-up is
reported. -/
theorem realEvents_and_bit (reported events : Mask) (e : Event) :
    realEvents reported events &&& e.bit ≠ 0 ↔
      reported &&& e.bit ≠ 0 ∨
        (reported &&& (Mask.epollErr ||| Mask.epollHup) ≠ 0 ∧ events &&& e.bit ≠ 0) := by
  have hconst : ∀ e : Event, (Mask.epollIn ||| Mask.epollOut).getLsbD (Event.index e) = true := by
    intro e
    cases e <;> decide
  unfold realEvents
  dsimp only
  rw [or_bits_and_bit, show Mask.epollIn = Event.read.bit from rfl,
    show Mask.epollOut = Event.write.bit from rfl] at *
  simp only [and_bit_ne_zero]
  by_cases h : reported &&& (Mask.epollErr ||| Mask.epollHup) ≠ 0
  · rw [if_pos h, BitVec.getLsbD_or, BitVec.getLsbD_or, BitVec.getLsbD_and, BitVec.getLsbD_and, hconst,
      hconst, Bool.true_and, Bool.true_and]
    cases e <;> simp only [Bool.or_eq_true, h, ne_eq, not_false_eq_true, true_and, reduceCtorEq,
      false_and, or_false, false_or]
  · rw [if_neg h]
    cases e <;> simp only [h, true_and, reduceCtorEq, false_and, or_false, false_or]

/-- A report of registered events. -/
def Current (reported events : Mask) : Prop :=
  reported &&& ~~~(events ||| Mask.epollErr ||| Mask.epollHup) = 0

instance (reported events : Mask) : Decidable (Current reported events) := by
  unfold Current; infer_instance

theorem Current.sub {reported : Mask} (hc : Current reported (Event.mask slot))
    (hr : realEvents reported (Event.mask slot) &&& e.bit ≠ 0) : slot e ≠ none := by
  rw [Ne, ← Event.mask_and_bit]
  rcases (realEvents_and_bit _ _ e).1 hr with h | ⟨-, h⟩
  · refine (and_bit_ne_zero _ _).2 ?_
    have h := (and_bit_ne_zero _ _).1 h
    by_contra hz
    rw [Bool.not_eq_true] at hz
    have hconst : (Mask.epollErr ||| Mask.epollHup).getLsbD (Event.index e) = false := by
      cases e <;> decide
    have hlt : Event.index e < 32 := by cases e <;> decide
    have hbit : (reported &&& ~~~(Event.mask slot ||| Mask.epollErr ||| Mask.epollHup)).getLsbD
        (Event.index e) = false := by
      rw [show reported &&& ~~~(Event.mask slot ||| Mask.epollErr ||| Mask.epollHup) = 0 from hc]
      exact BitVec.getLsbD_zero
    rw [BitVec.getLsbD_and, BitVec.getLsbD_not, BitVec.or_assoc, BitVec.getLsbD_or, hz, hconst, h] at hbit
    simp [hlt] at hbit
  · exact h

theorem getLsbD_mask (slot : Event → Option Reg) (i : ℕ) :
    (Event.mask slot).getLsbD i =
      (decide (i = 0) && (slot .read).isSome || decide (i = 2) && (slot .write).isSome) := by
  unfold Event.mask
  rw [bit_eq_twoPow, bit_eq_twoPow, BitVec.getLsbD_or]
  cases hr : slot .read <;> cases hw : slot .write <;>
    simp [BitVec.getLsbD_twoPow, Event.index, eq_comm]

theorem without_without (real : Mask) (e : Event) :
    without (without slot real .read) real .write e = if real &&& e.bit ≠ 0 then none else slot e := by
  unfold without
  cases e <;> split_ifs <;> rfl

/-- The mask of the slots that are left. -/
theorem mask_without (real : Mask) :
    Event.mask (without (without slot real .read) real .write) = Event.mask slot &&& ~~~real := by
  refine BitVec.eq_of_getLsbD_eq fun i hi => ?_
  rw [BitVec.getLsbD_and, BitVec.getLsbD_not, getLsbD_mask, getLsbD_mask, without_without,
    without_without]
  simp only [and_bit_ne_zero]
  by_cases h0 : i = 0
  · subst h0
    cases hr : real.getLsbD (Event.index .read) <;> simp_all [Event.index]
  · by_cases h2 : i = 2
    · subst h2
      cases hr : real.getLsbD (Event.index .write) <;> simp_all [Event.index]
    · simp [h0, h2]

/-- No registered event is in `real`. -/
theorem mask_and_eq_zero {real : Mask} (h : ∀ e, slot e ≠ none → real &&& e.bit = 0) :
    Event.mask slot &&& real = 0 := by
  have hbit : ∀ e, (slot e).isSome = true → real.getLsbD (Event.index e) = false := by
    intro e he
    by_contra hc
    exact (and_bit_ne_zero real e).2 (by simpa using hc) (h e (Option.isSome_iff_ne_none.1 he))
  refine BitVec.eq_of_getLsbD_eq fun i _ => ?_
  rw [BitVec.getLsbD_and, getLsbD_mask, show (0 : Mask).getLsbD i = false from BitVec.getLsbD_zero]
  by_cases h0 : i = 0
  · subst h0
    cases hr : (slot .read).isSome
    · simp
    · simpa [Event.index] using hbit .read hr
  · by_cases h2 : i = 2
    · subst h2
      cases hw : (slot .write).isSome
      · simp
      · simpa [Event.index] using hbit .write hw
    · simp [h0, h2]

/-! ## The table -/

/-- The table has the contexts in the order in which they were created, each under its own
descriptor. -/
structure InOrder (s : IOManager) : Prop where
  table : s.table = List.range s.fresh
  size : 32 ≤ s.fresh ∧ s.fresh < 2 ^ 31
  fd : ∀ p, p < s.fresh → (s.heap p).fd = p

theorem InOrder.lookup_eq (h : InOrder s) (fd : ℕ) :
    s.lookup fd = if fd < s.fresh then some fd else none := by
  have hsize : s.intSize = s.fresh := by
    unfold intSize
    rw [h.table, List.length_range]
    have := h.size.2
    exact Int.bmod_eq_of_le (by omega) (by omega)
  unfold lookup
  rw [hsize, h.table]
  by_cases hfd : fd < s.fresh
  · rw [if_pos (by exact_mod_cast hfd), if_pos hfd, List.getElem?_range hfd]
  · rw [if_neg (by exact_mod_cast hfd), if_neg hfd]

/-- A table that does not shrink stays in order. -/
theorem InOrder.contextResize (h : InOrder s) {n : ℕ} (hn : s.fresh ≤ n) (hlt : n < 2 ^ 31) :
    InOrder (s.contextResize n) ∧ (s.contextResize n).fresh = n := by
  have hlen : s.table.length = s.fresh := by rw [h.table, List.length_range]
  have h32 := h.size.1
  have hfresh : (s.contextResize n).fresh = n := by
    show s.fresh + (n - s.table.length) = n
    omega
  refine ⟨⟨?_, ?_, ?_⟩, hfresh⟩
  · rw [hfresh]
    show s.table.take n ++ List.range' s.fresh (n - s.table.length) = _
    rw [List.take_of_length_le (by omega), hlen, h.table, List.range_eq_range', List.range_eq_range']
    have happ := List.range'_append_1 (s := 0) (m := s.fresh) (n := n - s.fresh)
    rw [Nat.zero_add] at happ
    rw [happ]
    congr 1
    omega
  · rw [hfresh]
    omega
  · intro (p : ℕ) hp
    rw [hfresh] at hp
    show (if s.fresh ≤ p ∧ p < s.fresh + (n - s.table.length) then
      ({ fd := s.table.length + (p - s.fresh) } : FdContext) else s.heap p).fd = p
    by_cases hold : s.fresh ≤ p
    · rw [if_pos (by omega)]
      show s.table.length + (p - s.fresh) = p
      omega
    · rw [if_neg (by omega)]
      exact h.fd p (by omega)

theorem InOrder.start : InOrder IOManager.start := by
  refine ⟨rfl, by decide, ?_⟩
  intro (p : ℕ) hp
  show (if 0 ≤ p ∧ p < 0 + 32 then ({ fd := 0 + (p - 0) } : FdContext) else { fd := 0 }).fd = p
  rw [if_pos ⟨Nat.zero_le p, hp⟩]
  exact Nat.zero_add p

/-! ## Contexts and counter -/

/-- The contexts of `s` stand for the slots, and `m_pendingEventCount` counts the filled ones. -/
structure Core (s : IOManager) (slot : Ptr → Event → Option Reg) : Prop where
  heap : ∀ p, p < s.fresh → s.heap p = .of (s.heap p).fd (slot p)
  beyond : ∀ p, s.fresh ≤ p → slot p = fun _ => none
  pending : s.pending = ∑ p ∈ Finset.range s.fresh, Event.count (slot p)

namespace Core

variable {slot : Ptr → Event → Option Reg}

theorem put (h : Core s slot) (hp : p < s.fresh) (e : Event) (v : Option Reg) (u : Use) :
    Core (s.put p (slot p) e v u) (Function.update slot p (Function.update (slot p) e v)) := by
  refine ⟨?_, ?_, ?_⟩
  · intro q hq
    by_cases hqp : q = p
    · subst hqp
      rw [put_heap, Function.update_self]
      rfl
    · have : (s.put p (slot p) e v u).heap q = s.heap q := Function.update_of_ne hqp _ _
      rw [this, Function.update_of_ne hqp]
      exact h.heap q hq
  · intro q hq
    rw [Function.update_of_ne (ne_of_gt (lt_of_lt_of_le hp hq))]
    exact h.beyond q hq
  · have hmem : p ∈ Finset.range s.fresh := Finset.mem_range.2 hp
    have hsum : ∀ f : Ptr → Event → Option Reg, ∑ q ∈ Finset.range s.fresh, Event.count (f q) =
        Event.count (f p) + ∑ q ∈ (Finset.range s.fresh).erase p, Event.count (f q) := fun f =>
      (Finset.add_sum_erase _ _ hmem).symm
    have hrest : ∑ q ∈ (Finset.range s.fresh).erase p,
        Event.count (Function.update slot p (Function.update (slot p) e v) q) =
        ∑ q ∈ (Finset.range s.fresh).erase p, Event.count (slot q) :=
      Finset.sum_congr rfl fun q hq => by rw [Function.update_of_ne (Finset.ne_of_mem_erase hq)]
    show s.pending + _ = ∑ q ∈ Finset.range s.fresh, _
    rw [h.pending, hsum, hsum, hrest, Function.update_self, Event.count_update]
    ring

theorem setInterest (h : Core s slot) (i : Interest) : Core (s.setInterest i) slot :=
  ⟨h.heap, h.beyond, h.pending⟩

/-- New contexts have no registrations. -/
theorem contextResize (h : Core s slot) (n : ℕ) : Core (s.contextResize n) slot := by
  set k := n - s.table.length with hk
  refine ⟨fun q hq => ?_, fun q hq => h.beyond q (le_trans (Nat.le_add_right _ _) hq), ?_⟩
  · by_cases hold : q < s.fresh
    · have : (s.contextResize n).heap q = s.heap q := if_neg fun hc => absurd hc.1 (not_le.2 hold)
      rw [this]
      exact h.heap q hold
    · have hge : s.fresh ≤ q := not_lt.1 hold
      have : (s.contextResize n).heap q = { fd := s.table.length + (q - s.fresh) } :=
        if_pos ⟨hge, hq⟩
      rw [this, h.beyond q hge]
      rfl
  · show s.pending = ∑ q ∈ Finset.range (s.fresh + k), _
    rw [Finset.sum_range_add, h.pending, left_eq_add]
    exact Finset.sum_eq_zero fun q _ => by rw [h.beyond _ (Nat.le_add_right _ _)]; rfl

theorem start : Core IOManager.start fun _ _ => none := by
  refine Core.contextResize ⟨fun p hp => absurd hp (Nat.not_lt_zero p), fun _ _ => rfl, ?_⟩ 32
  rfl

theorem pending_nonneg (h : Core s slot) : 0 ≤ s.pending := by
  rw [h.pending]
  exact Finset.sum_nonneg fun p _ => Event.count_nonneg (slot p)

theorem consume (h : Core s slot) (hp : p < s.fresh) (e : Event) :
    Core (s.consume p (slot p) e) (Function.update slot p (Function.update (slot p) e none)) := by
  unfold IOManager.consume
  split
  · exact h.put hp e none _
  · next hr =>
    rw [← hr, Function.update_eq_self, Function.update_eq_self]
    exact h

theorem consumeIn (h : Core s slot) (hp : p < s.fresh) (real : Mask) (e : Event) :
    Core (s.consumeIn p (slot p) real e) (Function.update slot p (without (slot p) real e)) := by
  unfold IOManager.consumeIn without
  split_ifs
  · exact h.consume hp e
  · rw [Function.update_eq_self]
    exact h

end Core

end IOManager

end CoroutineScheduler
