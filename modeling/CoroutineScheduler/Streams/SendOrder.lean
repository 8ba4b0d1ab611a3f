import CoroutineScheduler.Streams.SendQueue

/-!
# What becomes of a message that is sent

Of what `enqueue` was called with, `doSend` gets the messages in their order, each at most once, and
all of them as long as nothing was thrown away (`sent_in_order`). A `doWrite` that sleeps on `m_sem`
has nothing to do, or somebody is about to wake it: that holds of a message in the queue and of the
end of the connection (`writer_woken`).
-/

namespace CoroutineScheduler.Streams

open Count Trans

namespace StreamPc

variable {μ : Type}

/-- What a fiber in the loop of `doWrite` has swapped out and not sent. -/
def inHand : StreamPc μ → List μ
  | .send ms => ms
  | _ => []

/-- How much that is. -/
def inHandLength (x : StreamPc μ) : ℤ := x.inHand.length

theorem inHand_send (ms : List μ) : (send ms).inHand = ms := rfl

theorem inHandLength_send (ms : List μ) : (send ms).inHandLength = ms.length := rfl

theorem wake_inHand (x : StreamPc μ) : x.wake.inHand = x.inHand := by
  cases x <;> rfl

end StreamPc

namespace AsyncSocketStream

variable {T μ : Type} [DecidableEq T] {s u : AsyncSocketStream T μ} {t : T} {b : StreamPc μ}

theorem inHand_update {pc : T → StreamPc μ} (hb : b.inHand = (pc t).inHand) (v : T) :
    (Function.update pc t b v).inHand = (pc v).inHand := by
  by_cases hv : v = t
  · rw [hv, Function.update_self, hb]
  · rw [Function.update_of_ne hv]

theorem inHand_woken (p : Permits T) (pc : T → StreamPc μ) (v : T) :
    (woken p pc v).inHand = (pc v).inHand := by
  cases hcons : p.waiters with
  | nil => rw [woken_nil hcons]
  | cons w ws =>
    rw [woken_cons hcons]
    exact inHand_update (StreamPc.wake_inHand _) v

theorem Moves.inHand {a : StreamPc μ} {c : Bool} (h : Moves c a b) : b.inHand = a.inHand := by
  cases h with
  | call op => cases op <;> rfl
  | _ => rfl

theorem Clears.inHand {a : StreamPc μ} (h : Clears a b) : b.inHand = a.inHand := by
  cases h with
  | write => rfl
  | close c => cases c <;> rfl

variable [Fintype T]

/-- What was sent, what a fiber has in hand and what is queued is, in this order, a part of what was
enqueued; nothing else is missing but what was thrown away. -/
structure Orderly (s : AsyncSocketStream T μ) : Prop where
  inHand : ∀ v, (s.sent ++ (s.pc v).inHand ++ s.queue).Sublist s.enqueued
  queue : (s.sent ++ s.queue).Sublist s.enqueued
  count : (s.sent.length : ℤ) + total StreamPc.inHandLength s.pc + s.queue.length +
    s.dropped = s.enqueued.length

omit [DecidableEq T] in
theorem Orderly.keep (h : Orderly s) (hh : ∀ v, (u.pc v).inHand = (s.pc v).inHand)
    (hs : u.sent = s.sent) (hq : u.queue = s.queue) (he : u.enqueued = s.enqueued)
    (hd : u.dropped = s.dropped) : Orderly u := by
  refine ⟨fun v => ?_, ?_, ?_⟩
  · rw [hs, hh, hq, he]
    exact h.inHand v
  · rw [hs, hq, he]
    exact h.queue
  · rw [hs, hq, he, hd, ← h.count]
    simp only [total, StreamPc.inHandLength, hh]

omit [DecidableEq T] in
theorem Orderly.clear (h : Orderly s) : Orderly s.cleared := by
  refine ⟨fun v => ?_, ?_, ?_⟩
  · refine List.Sublist.trans ?_ (h.inHand v)
    exact (List.Sublist.refl _).append (List.nil_sublist _)
  · refine List.Sublist.trans ?_ h.queue
    exact (List.Sublist.refl _).append (List.nil_sublist _)
  · have hcount := h.count
    show (s.sent.length : ℤ) + total StreamPc.inHandLength s.pc + 0 +
      (s.dropped + s.queue.length : ℕ) = s.enqueued.length
    omega

theorem Orderly.swap (h : Orderly s) (hpc : s.pc t = .swap) :
    Orderly { s.goto t (.send s.queue) with queue := [] } := by
  refine ⟨fun v => ?_, ?_, ?_⟩
  · show (s.sent ++ (Function.update s.pc t (.send s.queue) v).inHand ++ []).Sublist s.enqueued
    rw [List.append_nil]
    by_cases hv : v = t
    · rw [hv, Function.update_self]
      exact h.queue
    · rw [Function.update_of_ne hv]
      exact (List.sublist_append_left _ _).trans (h.inHand v)
  · show (s.sent ++ []).Sublist s.enqueued
    rw [List.append_nil]
    exact (List.sublist_append_left _ _).trans h.queue
  · have hcount := h.count
    show (s.sent.length : ℤ) + total StreamPc.inHandLength
      (Function.update s.pc t (.send s.queue)) + 0 + s.dropped = s.enqueued.length
    rw [total_update, hpc]
    show (s.sent.length : ℤ) + (total StreamPc.inHandLength s.pc - 0 + s.queue.length) + 0 +
      s.dropped = s.enqueued.length
    omega

theorem Orderly.push (h : Orderly s) (m : μ) (hb : b.inHand = (s.pc t).inHand) :
    Orderly { s.goto t b with queue := s.queue ++ [m], enqueued := s.enqueued ++ [m] } := by
  refine ⟨fun v => ?_, ?_, ?_⟩
  · show (s.sent ++ (Function.update s.pc t b v).inHand ++ (s.queue ++ [m])).Sublist (s.enqueued ++ [m])
    rw [inHand_update hb, ← List.append_assoc]
    exact (h.inHand v).append (List.Sublist.refl _)
  · show (s.sent ++ (s.queue ++ [m])).Sublist (s.enqueued ++ [m])
    rw [← List.append_assoc]
    exact h.queue.append (List.Sublist.refl _)
  · have hcount := h.count
    have htotal : total StreamPc.inHandLength (Function.update s.pc t b) =
        total StreamPc.inHandLength s.pc := by
      simp only [total, StreamPc.inHandLength, inHand_update hb]
    show (s.sent.length : ℤ) + total StreamPc.inHandLength (Function.update s.pc t b) +
      (s.queue ++ [m]).length + s.dropped = (s.enqueued ++ [m]).length
    rw [htotal, List.length_append, List.length_append]
    push_cast
    omega

omit [DecidableEq T] in
theorem Exclusive.sender (h : Exclusive s) {ms ms' : List μ} {v : T} (hpc : s.pc t = .send ms)
    (hv : s.pc v = .send ms') : v = t := by
  have hwrites := h.writes
  apply eq_of_tally_le_one (p := StreamPc.writes) (f := s.pc) (by omega)
  · rw [hv]
    rfl
  · rw [hpc]
    rfl

omit [DecidableEq T] in
/-- The other fibers have nothing in hand. -/
theorem Exclusive.inHand_nil (h : Exclusive s) {ms : List μ} (hpc : s.pc t = .send ms) {v : T}
    (hv : v ≠ t) : (s.pc v).inHand = [] := by
  cases hpcv : s.pc v with
  | send ms' => exact absurd (h.sender hpc hpcv) hv
  | _ => rfl

theorem Orderly.send (h : Orderly s) (hex : Exclusive s) {m : μ} {ms : List μ}
    (hpc : s.pc t = .send (m :: ms)) :
    Orderly { s.goto t (.send ms) with sent := s.sent ++ [m] } := by
  have hall := h.inHand t
  rw [hpc, StreamPc.inHand, List.append_assoc, List.cons_append] at hall
  have hnone : (s.sent ++ [m] ++ s.queue).Sublist s.enqueued := by
    refine List.Sublist.trans ?_ hall
    rw [List.append_assoc, List.singleton_append]
    exact (List.Sublist.refl _).append ((List.sublist_append_right _ _).cons_cons m)
  refine ⟨fun v => ?_, hnone, ?_⟩
  · show (s.sent ++ [m] ++ (Function.update s.pc t (.send ms) v).inHand ++ s.queue).Sublist s.enqueued
    by_cases hv : v = t
    · rw [hv, Function.update_self, StreamPc.inHand, List.append_assoc, List.append_assoc,
        List.singleton_append]
      exact hall
    · rw [Function.update_of_ne hv, hex.inHand_nil hpc hv, List.append_nil]
      exact hnone
  · have hcount := h.count
    show ((s.sent ++ [m]).length : ℤ) + total StreamPc.inHandLength
      (Function.update s.pc t (.send ms)) + s.queue.length + s.dropped = s.enqueued.length
    rw [total_update, hpc, List.length_append, StreamPc.inHandLength_send,
      StreamPc.inHandLength_send, List.length_singleton, List.length_cons]
    push_cast
    omega

/-- A fiber leaves what it has in hand. -/
theorem Orderly.leave (h : Orderly s) {ms : List μ} (hpc : s.pc t = .send ms) (hb : b.inHand = [])
    (hp : u.pc = Function.update s.pc t b) (hs : u.sent = s.sent) (hq : u.queue = s.queue)
    (he : u.enqueued = s.enqueued) (hd : u.dropped = s.dropped + ms.length) : Orderly u := by
  refine ⟨fun v => ?_, ?_, ?_⟩
  · rw [hp, hs, hq, he]
    by_cases hv : v = t
    · rw [hv, Function.update_self, hb, List.append_nil]
      exact h.queue
    · rw [Function.update_of_ne hv]
      exact h.inHand v
  · rw [hs, hq, he]
    exact h.queue
  · have hcount := h.count
    have hzero : b.inHandLength = 0 := by
      rw [StreamPc.inHandLength, hb]
      rfl
    rw [hp, hs, hq, he, hd, total_update, hpc, hzero, StreamPc.inHandLength_send]
    push_cast
    omega

theorem Orderly.step (h : Orderly s) (hex : Exclusive s) (hst : Stepped s t u) : Orderly u := by
  cases hst with
  | move hm => exact h.keep (inHand_update hm.inHand) rfl rfl rfl rfl
  | reconnect hpc | startRead hpc | startWrite hpc | doRead hpc hpos | doWrite hpc hpos =>
    exact h.keep (inHand_update (by rw [hpc]; rfl)) rfl rfl rfl rfl
  | takeWait ht =>
    have hboth : ∀ a b c : StreamPc μ, Takes a b c → b.inHand = a.inHand ∧ c.inHand = a.inHand := by
      intro a b c h
      cases h <;> exact ⟨rfl, rfl⟩
    obtain ⟨hb, hc⟩ := hboth _ _ _ ht
    unfold takeWait
    split_ifs
    · exact h.keep (inHand_update hb) rfl rfl rfl rfl
    · exact h.keep (inHand_update hc) rfl rfl rfl rfl
  | notifyWait hg =>
    have hb : ∀ a b : StreamPc μ, Gives a b → b.inHand = a.inHand := by
      intro a b h
      cases h <;> rfl
    refine h.keep (fun v => ?_) rfl rfl rfl rfl
    refine (inHand_update ?_ v).trans (inHand_woken _ _ v)
    exact (hb _ _ hg).trans (inHand_woken _ _ t).symm
  | takeSem hpc =>
    unfold takeSem
    split_ifs
    · exact h.keep (inHand_update (by rw [hpc]; rfl)) rfl rfl rfl rfl
    · exact h.keep (inHand_update (by rw [hpc]; rfl)) rfl rfl rfl rfl
  | notifySem hg =>
    have hb : ∀ a b : StreamPc μ, Signals a b → b.inHand = a.inHand := by
      intro a b h
      cases h <;> rfl
    refine h.keep (fun v => ?_) rfl rfl rfl rfl
    refine (inHand_update ?_ v).trans (inHand_woken _ _ v)
    exact (hb _ _ hg).trans (inHand_woken _ _ t).symm
  | swap hpc => exact h.swap hpc
  | clear hc => exact h.clear.keep (inHand_update hc.inHand) rfl rfl rfl rfl
  | push m hpc =>
    apply h.push m
    rw [hpc]
    split_ifs <;> rfl
  | close hc =>
    have hb : ∀ a b : StreamPc μ, Closes a b → b.inHand = a.inHand := by
      intro a b h
      cases h <;> rfl
    exact h.keep (inHand_update (hb _ _ hc)) rfl rfl rfl rfl
  | sent m ms hpc => exact h.send hex hpc
  | failed ms hpc | threw ms hpc => exact h.leave hpc rfl rfl rfl rfl rfl rfl

omit [DecidableEq T] in
theorem orderly_new (connected : Bool) :
    Orderly ({ connected := connected } : AsyncSocketStream T μ) := by
  refine ⟨fun v => List.Sublist.refl _, List.Sublist.refl _, ?_⟩
  simp [total, StreamPc.inHandLength, StreamPc.inHand]

/-- In every run the messages go to `doSend` in the order in which they were enqueued, none of them
twice. As long as nothing was thrown away (by `innerClose`, a `doSend` that failed, or the end of
`doWrite`), what was enqueued is what was sent, then what `doWrite` has in hand, then the queue. -/
theorem sent_in_order {connected : Bool}
    (h : Reach step free ({ connected := connected } : AsyncSocketStream T μ) s) :
    s.sent.Sublist s.enqueued ∧ (s.dropped = 0 → ∃ ms, (∀ v ms', s.pc v = .send ms' → ms' = ms) ∧
      s.enqueued = s.sent ++ ms ++ s.queue) := by
  have hboth : Exclusive s ∧ Orderly s := by
    refine h.invariant (I := fun v => Exclusive v ∧ Orderly v)
      ⟨exclusive_new connected, orderly_new connected⟩ fun v l u hv _ hst => ?_
    obtain ⟨t, hst⟩ := exists_stepped hst
    exact ⟨hv.1.step hst, hv.2.step hv.1 hst⟩
  obtain ⟨hex, hord⟩ := hboth
  refine ⟨(List.sublist_append_left _ _).trans hord.queue, fun hzero => ?_⟩
  have hcount := hord.count
  rw [hzero] at hcount
  by_cases hsend : ∃ t ms, s.pc t = .send ms
  · obtain ⟨t, ms, hpc⟩ := hsend
    have htotal : total StreamPc.inHandLength s.pc = ms.length := by
      rw [← StreamPc.inHandLength_send ms, ← hpc]
      refine Finset.sum_eq_single t (fun v _ hv => ?_) fun hmem => absurd (Finset.mem_univ t) hmem
      rw [StreamPc.inHandLength, hex.inHand_nil hpc hv]
      rfl
    refine ⟨ms, fun v ms' hv => ?_, ?_⟩
    · rw [hex.sender hpc hv, hpc] at hv
      exact (StreamPc.send.inj hv).symm
    · have hsub := hord.inHand t
      rw [hpc] at hsub
      refine (hsub.eq_of_length ?_).symm
      rw [StreamPc.inHand_send, List.length_append, List.length_append]
      omega
  · push Not at hsend
    have htotal : total StreamPc.inHandLength s.pc = 0 := by
      refine Finset.sum_eq_zero fun v _ => ?_
      cases hpc : s.pc v with
      | send ms => exact absurd hpc (hsend v ms)
      | _ => rfl
    refine ⟨[], fun v ms' hv => absurd hv (hsend v ms'), ?_⟩
    refine ((List.append_nil s.sent).symm ▸ hord.queue.eq_of_length ?_).symm
    rw [List.length_append]
    omega

/-- One of three messages is sent, one is in hand, and one came later. -/
theorem sent_in_order_three : ∃ s : AsyncSocketStream (Fin 4) ℕ, s.sent = [7] ∧ s.queue = [9] ∧
    ∃ ms, (∀ v ms', s.pc v = .send ms' → ms' = ms) ∧ s.enqueued = s.sent ++ ms ++ s.queue := by
  have hr := reach_exec step (free (σ := AsyncSocketStream (Fin 4) ℕ)) { connected := true }
    [.call 0 .start, .next 0, .next 0, .next 0, .outcome 0 true, .next 0, .next 0, .doWrite 2, .next 2,
      .call 3 (.enqueue 7), .next 3, .next 3, .call 3 (.enqueue 8), .next 3, .next 2, .next 2,
      .outcome 2 true, .call 3 (.enqueue 9), .next 3] (by decide)
  refine ⟨_, ?_, ?_, (sent_in_order hr).2 ?_⟩ <;> decide

end AsyncSocketStream

/-! ## Who wakes `doWrite` -/

namespace StreamPc

variable {μ : Type}

/-- Whether a fiber is about to call `m_sem.notify`, or to swap the queue out. -/
def looks : StreamPc μ → Bool
  | .notify | .closeNotify _ | .swap => true
  | _ => false

/-- Whether a fiber is about to call `m_sem.wait`, or sleeps there. -/
def waits : StreamPc μ → Bool
  | .wait | .asleep => true
  | _ => false

/-- Whether a fiber will close the socket and call `m_sem.notify` behind that, or is between them. -/
def ends : StreamPc μ → Bool
  | .read | .recv | .innerClose _ | .closeNotify _ => true
  | _ => false

/-- Whether a fiber is in the loop of `doRead`, or on its way to close the socket. -/
def receives : StreamPc μ → Bool
  | .read | .recv | .innerClose .recv | .innerClose .readOut => true
  | _ => false

/-- Whether a fiber is in the loop of `doWrite`. -/
def serves : StreamPc μ → Bool
  | .write | .wait | .asleep | .swap | .send _ => true
  | .innerClose c | .closeNotify c | .closeClear c => c = .send
  | _ => false

theorem waits_le (x : StreamPc μ) : (x.waits.toNat : ℤ) ≤ x.writes.toNat := by
  cases x <;> simp [waits, writes]

theorem receives_le (x : StreamPc μ) : (x.receives.toNat : ℤ) ≤ x.ends.toNat := by
  cases x with
  | innerClose c => cases c <;> simp [receives, ends]
  | _ => simp [receives, ends]

end StreamPc

namespace AsyncSocketStream

variable {T μ : Type} [Fintype T] [DecidableEq T] {s u : AsyncSocketStream T μ} {t : T}
  {b : StreamPc μ}

/-- Nothing is left for a `doWrite` that sleeps: while there are messages, somebody notifies or a
permit is there; so it is when the connection is closed; while it is up, there is a `doRead` to find
out about its end, and, if a `start` set it up, a `doWrite`. -/
structure Alert (s : AsyncSocketStream T μ) : Prop where
  queue : s.queue ≠ [] → 0 < (s.sem.free : ℤ) + tally StreamPc.looks s.pc
  closed : s.connected = false → 0 < tally StreamPc.waits s.pc →
    0 < (s.sem.free : ℤ) + s.reads + tally StreamPc.ends s.pc
  reader : s.connected = true → 0 < (s.writes : ℤ) + tally StreamPc.writes s.pc →
    0 < (s.reads : ℤ) + tally StreamPc.receives s.pc
  writer : s.writing = true → s.connected = true → 0 < (s.writes : ℤ) + tally StreamPc.serves s.pc

/-- A step of one fiber that leaves `m_sem` alone and does not open or close the connection. -/
structure Quiet (s u : AsyncSocketStream T μ) (a b : StreamPc μ) : Prop where
  connected : u.connected = s.connected
  sem : u.sem = s.sem
  queue : u.queue ≠ [] → s.queue ≠ [] ∧ a.looks.toNat ≤ b.looks.toNat
  waits : s.connected = true ∨ b.waits.toNat ≤ a.waits.toNat
  ends : s.reads + a.ends.toNat ≤ u.reads + b.ends.toNat
  receives : s.connected = false ∨ s.reads + a.receives.toNat ≤ u.reads + b.receives.toNat
  writes : 0 < u.reads ∨ u.writes + b.writes.toNat ≤ s.writes + a.writes.toNat
  writing : u.writing = true → s.connected = false ∨ 0 < u.writes + b.serves.toNat ∨
    (s.writing = true ∧ s.writes + a.serves.toNat ≤ u.writes + b.serves.toNat)

theorem Alert.quiet (h : Alert s) (hpc : u.pc = Function.update s.pc t b)
    (hq : Quiet s u (s.pc t) b) : Alert u := by
  have hends := hq.ends
  refine ⟨fun hne => ?_, fun hc hw => ?_, fun hc hw => ?_, fun hwr hc => ?_⟩
  · obtain ⟨hne', hlooks⟩ := hq.queue hne
    have hpos := h.queue hne'
    rw [hpc, hq.sem, tally_update]
    omega
  · rw [hq.connected] at hc
    have hwaits := hq.waits.resolve_left (by rw [hc]; exact Bool.false_ne_true)
    rw [hpc, tally_update] at hw
    have hpos := h.closed hc (by omega)
    rw [hpc, hq.sem, tally_update]
    omega
  · rw [hq.connected] at hc
    have hreceives := hq.receives.resolve_left (by rw [hc]; exact Bool.true_eq_false.mp)
    rw [hpc, tally_update] at hw ⊢
    have hnonneg := tally_nonneg StreamPc.receives (Function.update s.pc t b)
    rw [tally_update] at hnonneg
    rcases hq.writes with hpos | hwrites
    · omega
    · have hpos := h.reader hc (by omega)
      omega
  · rw [hq.connected] at hc
    have hnonneg := tally_nonneg StreamPc.serves (Function.update s.pc t b)
    have hle := one_le_tally (p := StreamPc.serves) (f := Function.update s.pc t b) (i := t)
    rw [Function.update_self] at hle
    rw [hpc]
    rcases hq.writing hwr with hfalse | hpos | ⟨hwr', hserves⟩
    · rw [hc] at hfalse
      cases hfalse
    · cases hb : b.serves with
      | true =>
        have hone := hle hb
        omega
      | false =>
        rw [hb, Bool.toNat_false] at hpos
        omega
    · have hpos := h.writer hwr' hc
      rw [tally_update]
      omega

omit [Fintype T] in
theorem Moves.quiet {a : StreamPc μ} (h : Moves s.connected a b) : Quiet s (s.goto t b) a b := by
  have hwr : ∀ x y : StreamPc μ, x.serves.toNat ≤ y.serves.toNat → (s.goto t b).writing = true →
      s.connected = false ∨ 0 < s.writes + y.serves.toNat ∨
        (s.writing = true ∧ s.writes + x.serves.toNat ≤ s.writes + y.serves.toNat) :=
    fun x y hle hw => .inr (.inr ⟨hw, Nat.add_le_add_left hle _⟩)
  cases h with
  | writeOut hc =>
    exact ⟨rfl, rfl, fun hne => ⟨hne, le_rfl⟩, .inr le_rfl, le_rfl, .inl hc, .inr le_rfl, fun _ => .inl hc⟩
  | write hc =>
    exact ⟨rfl, rfl, fun hne => ⟨hne, le_rfl⟩, .inl hc, le_rfl, .inr le_rfl, .inr le_rfl, hwr _ _ le_rfl⟩
  | call op =>
    cases op <;> exact ⟨rfl, rfl, fun hne => ⟨hne, le_rfl⟩, .inr le_rfl, le_rfl, .inr le_rfl, .inr le_rfl,
      hwr _ _ le_rfl⟩
  | refused hc | declined =>
    exact ⟨rfl, rfl, fun hne => ⟨hne, le_rfl⟩, .inr le_rfl, Nat.add_le_add_left (Nat.zero_le _) _,
      .inr le_rfl, .inr le_rfl, hwr _ _ le_rfl⟩
  | _ =>
    exact ⟨rfl, rfl, fun hne => ⟨hne, le_rfl⟩, .inr le_rfl, le_rfl, .inr le_rfl, .inr le_rfl,
      hwr _ _ le_rfl⟩

theorem Takes.facts_quiet {a queued : StreamPc μ} (h : Takes a b queued) :
    (a.looks = false ∧ a.ends = false ∧ a.receives = false ∧ a.serves = false) ∧
      (b.waits = false ∧ b.writes = false) ∧ queued.waits = false ∧ queued.writes = false := by
  cases h <;> exact ⟨⟨rfl, rfl, rfl, rfl⟩, ⟨rfl, rfl⟩, rfl, rfl⟩

theorem Gives.facts_quiet {a : StreamPc μ} (h : Gives a b) :
    a.looks = false ∧ a.ends = false ∧ a.receives = false ∧ a.serves = false ∧ b.waits = false ∧
      b.writes = false := by
  cases h <;> exact ⟨rfl, rfl, rfl, rfl, rfl, rfl⟩

/-- A step from a place that counts for nothing to one that asks for nothing. -/
theorem Alert.idle (h : Alert s) (hpc : u.pc = Function.update s.pc t b)
    (ha : (s.pc t).looks = false ∧ (s.pc t).ends = false ∧ (s.pc t).receives = false ∧
      (s.pc t).serves = false) (hb : b.waits = false ∧ b.writes = false)
    (hc : u.connected = s.connected) (hs : u.sem = s.sem) (hq : u.queue = s.queue)
    (hr : u.reads = s.reads) (hw : u.writes = s.writes) (hwr : u.writing = s.writing) : Alert u := by
  obtain ⟨hlooks, hends, hreceives, hserves⟩ := ha
  obtain ⟨hwaits, hwrites⟩ := hb
  refine h.quiet hpc ⟨hc, hs, fun hne => ⟨hq ▸ hne, ?_⟩, .inr ?_, ?_, .inr ?_, .inr ?_,
    fun hwriting => .inr (.inr ⟨hwr ▸ hwriting, ?_⟩)⟩
  · rw [hlooks]
    exact Nat.zero_le _
  · rw [hwaits]
    exact Nat.zero_le _
  · rw [hends, hr]
    exact Nat.le_add_right _ _
  · rw [hreceives, hr]
    exact Nat.le_add_right _ _
  · rw [hwrites, hw]
    exact Nat.le_add_right _ _
  · rw [hserves, hw]
    exact Nat.le_add_right _ _

omit [DecidableEq T] in
/-- The counts that `Alert` is about. -/
theorem Alert.congr (h : Alert s) (hc : u.connected = s.connected) (hs : u.sem = s.sem)
    (hq : u.queue = s.queue) (hr : u.reads = s.reads) (hw : u.writes = s.writes)
    (hwr : u.writing = s.writing) (htally : ∀ q ∈ [StreamPc.looks, StreamPc.waits, StreamPc.ends,
      StreamPc.receives, StreamPc.writes, StreamPc.serves], tally q u.pc = tally q s.pc) :
    Alert u := by
  simp only [List.forall_mem_cons, List.not_mem_nil, false_implies, implies_true, and_true] at htally
  obtain ⟨hlooks, hwaits, hends, hreceives, hwrites, hserves⟩ := htally
  refine ⟨?_, ?_, ?_, ?_⟩
  · rw [hq, hs, hlooks]
    exact h.queue
  · rw [hc, hs, hr, hwaits, hends]
    exact h.closed
  · rw [hc, hr, hw, hwrites, hreceives]
    exact h.reader
  · rw [hc, hw, hwr, hserves]
    exact h.writer

theorem tally_woken_of {q : StreamPc μ → Bool} {p : Permits T} {pc : T → StreamPc μ}
    (hq : ∀ w ∈ p.waiters, q (pc w).wake = q (pc w)) : tally q (woken p pc) = tally q pc := by
  cases hcons : p.waiters with
  | nil => rw [woken_nil hcons]
  | cons w ws =>
    rw [woken_cons hcons, tally_update, hq w (hcons ▸ List.mem_cons_self ..)]
    omega

theorem Alert.notifyWait (h : Alert s) (hex : Exclusive s) (hg : Gives (s.pc t) b) :
    Alert (s.notifyWait.goto t b) := by
  have hnot : t ∉ s.waitSem.waiters := fun hmem => by
    have hq := (hex.waitSem.mem t).1 hmem
    rw [hg.facts.1] at hq
    cases hq
  have hpct : s.notifyWait.pc t = s.pc t := woken_of_not_mem hnot
  have hwoken : Alert s.notifyWait := by
    refine h.congr rfl rfl rfl rfl rfl rfl fun q hq => tally_woken_of fun w hw => ?_
    have hqueued := (hex.waitSem.mem w).1 hw
    cases hpc : s.pc w with
    | queued₁ | queued₂ =>
      fin_cases hq <;> rfl
    | _ =>
      rw [hpc] at hqueued
      cases hqueued
  obtain ⟨hlooks, hends, hreceives, hserves, hb⟩ := hg.facts_quiet
  refine hwoken.idle rfl ?_ hb rfl rfl rfl rfl rfl rfl
  rw [hpct]
  exact ⟨hlooks, hends, hreceives, hserves⟩

omit [DecidableEq T] in
/-- At most one fiber waits for `m_sem`. -/
theorem Exclusive.waits_le (h : Exclusive s) : tally StreamPc.waits s.pc ≤ 1 := by
  have hle : tally StreamPc.waits s.pc ≤ tally StreamPc.writes s.pc := total_le StreamPc.waits_le s.pc
  have hwrites := h.writes
  omega

theorem Alert.takeSem (h : Alert s) (hex : Exclusive s) (hpc : s.pc t = .wait) :
    Alert (s.takeSem t) := by
  have hone := hex.waits_le
  unfold AsyncSocketStream.takeSem
  split_ifs with hfree
  · refine ⟨fun _ => ?_, fun _ hw => ?_, fun hc hw => ?_, fun hwr hc => ?_⟩
    · show 0 < ((s.sem.free - 1 : ℕ) : ℤ) + tally StreamPc.looks (Function.update s.pc t .swap)
      have hlooks := one_le_tally (p := StreamPc.looks) (f := Function.update s.pc t .swap) (i := t)
        (by rw [Function.update_self]; rfl)
      omega
    · replace hw : 0 < tally StreamPc.waits (Function.update s.pc t .swap) := hw
      rw [tally_update, hpc] at hw
      replace hw : 0 < tally StreamPc.waits s.pc - 1 + 0 := hw
      omega
    · refine lt_of_lt_of_eq (h.reader hc (lt_of_lt_of_eq hw ?_)) ?_
      · show (s.writes : ℤ) + tally StreamPc.writes (Function.update s.pc t .swap) = _
        rw [tally_update, hpc]
        exact congrArg _ (sub_add_cancel _ _)
      · show _ = (s.reads : ℤ) + tally StreamPc.receives (Function.update s.pc t .swap)
        rw [tally_update, hpc]
        exact congrArg _ (sub_add_cancel _ _).symm
    · refine lt_of_lt_of_eq (h.writer hwr hc) ?_
      show _ = (s.writes : ℤ) + tally StreamPc.serves (Function.update s.pc t .swap)
      rw [tally_update, hpc]
      exact congrArg _ (sub_add_cancel _ _).symm
  · have hsleep : Alert (s.goto t .asleep) := by
      refine h.quiet rfl ⟨rfl, rfl, fun hne => ⟨hne, ?_⟩, .inr ?_, ?_, .inr ?_, .inr ?_,
        fun hw => .inr (.inr ⟨hw, ?_⟩)⟩ <;> rw [hpc] <;> exact le_rfl
    exact ⟨hsleep.queue, hsleep.closed, hsleep.reader, hsleep.writer⟩

/-- The call of `m_sem.notify` itself: one more permit, or a fiber that sleeps no more. -/
theorem Alert.signal (h : Alert s) (hex : Exclusive s) (hpc : u.pc = Function.update s.notifySem.pc t b)
    (hg : Signals (s.pc t) b) (hs : u.sem = s.sem.give) (hc : u.connected = s.connected)
    (hq : u.queue = s.queue) (hr : u.reads = s.reads) (hw : u.writes = s.writes)
    (hwr : u.writing = s.writing) : Alert u := by
  have hone := hex.waits_le
  have hnot : t ∉ s.sem.waiters := fun hmem => by
    rw [hex.woken_sem hmem] at hg
    cases hg
  have hpct : s.notifySem.pc t = s.pc t := woken_of_not_mem hnot
  have hfacts : (s.pc t).looks = true ∧ b.looks = false ∧ (s.pc t).waits = false ∧ b.waits = false ∧
      (s.pc t).receives = false ∧ b.serves = (s.pc t).serves := by
    generalize s.pc t = a at hg
    cases hg with
    | enqueue => exact ⟨rfl, rfl, rfl, rfl, rfl, rfl⟩
    | close c => exact ⟨rfl, rfl, rfl, rfl, rfl, rfl⟩
  obtain ⟨hlooks, hlooks', hwaits, hwaits', hreceives, hserves⟩ := hfacts
  have hkeep : ∀ q : StreamPc μ → Bool, q .swap = q .asleep →
      tally q (woken s.sem s.pc) = tally q s.pc := fun q hq => by
    refine tally_woken_of fun w hw => ?_
    rw [hex.woken_sem hw]
    exact hq
  have hupdate : ∀ q : StreamPc μ → Bool, tally q u.pc =
      tally q (woken s.sem s.pc) - (q (s.pc t)).toNat + (q b).toNat := fun q => by
    rw [hpc, tally_update, hpct]
    rfl
  refine ⟨fun hne => ?_, fun hclosed hpos => ?_, fun hconn hpos => ?_, fun hwriting hconn => ?_⟩
  · have hpos := h.queue (hq ▸ hne)
    have htotal : (s.sem.give.free : ℤ) + tally StreamPc.looks (woken s.sem s.pc) =
        s.sem.free + tally StreamPc.looks s.pc + 1 := by
      refine total_woken (g := fun x => (x.looks.toNat : ℤ)) fun w hw => ?_
      rw [hex.woken_sem hw]
      rfl
    rw [hs, hupdate, hlooks, hlooks']
    simp only [Bool.toNat_true, Bool.toNat_false]
    omega
  · rw [hupdate, hwaits, hwaits'] at hpos
    have hends := tally_nonneg StreamPc.ends u.pc
    cases hcons : s.sem.waiters with
    | nil =>
      rw [hs, Permits.give_free_nil hcons]
      push_cast
      omega
    | cons w ws =>
      -- the only fiber that waits is the one that is woken
      rw [woken_cons hcons, tally_update, hex.woken_sem (hcons ▸ List.mem_cons_self ..)] at hpos
      replace hpos : 0 < tally StreamPc.waits s.pc - 1 + 0 - 0 + 0 := hpos
      omega
  · rw [hupdate, hkeep _ rfl, hg.same.2.2.2.2, hw] at hpos
    have hreader := h.reader (hc ▸ hconn) (by omega)
    rw [hupdate, hkeep _ rfl, hreceives, hr, Bool.toNat_false]
    omega
  · have hwriter := h.writer (hwr ▸ hwriting) (hc ▸ hconn)
    rw [hupdate, hkeep _ rfl, hserves, hw]
    omega

/-- The socket is closed: whoever sleeps then has a `doRead` to wake him. -/
theorem Alert.close (h : Alert s) (hcl : Closes (s.pc t) b) :
    Alert { s.goto t b with connected := false } := by
  have hfacts : (s.pc t).looks = false ∧ b.waits = (s.pc t).waits ∧ b.ends = (s.pc t).ends := by
    generalize s.pc t = a at hcl
    cases hcl with
    | inner c => exact ⟨rfl, rfl, rfl⟩
    | user => exact ⟨rfl, rfl, rfl⟩
  obtain ⟨hlooks, hwaits, hends⟩ := hfacts
  refine ⟨fun hne => ?_, fun _ hpos => ?_, fun hc => (by cases hc), fun _ hc => (by cases hc)⟩
  · have hpos := h.queue hne
    show 0 < (s.sem.free : ℤ) + tally StreamPc.looks (Function.update s.pc t b)
    rw [tally_update, hlooks]
    simp only [Bool.toNat_false]
    omega
  · replace hpos : 0 < tally StreamPc.waits (Function.update s.pc t b) := hpos
    rw [tally_update, hwaits, sub_add_cancel] at hpos
    show 0 < (s.sem.free : ℤ) + s.reads + tally StreamPc.ends (Function.update s.pc t b)
    rw [tally_update, hends, sub_add_cancel]
    cases hc : s.connected with
    | false => exact h.closed hc hpos
    | true =>
      have hle : tally StreamPc.waits s.pc ≤ tally StreamPc.writes s.pc :=
        total_le StreamPc.waits_le s.pc
      have hle' : tally StreamPc.receives s.pc ≤ tally StreamPc.ends s.pc :=
        total_le StreamPc.receives_le s.pc
      have hreader := h.reader hc (by omega)
      omega

theorem Alert.push (h : Alert s) {m : μ} (hpc : s.pc t = .push m) :
    Alert { s.goto t (if s.queue = [] then .notify else .idle) with
      queue := s.queue ++ [m], enqueued := s.enqueued ++ [m] } := by
  have hcount : (s.pc t).looks = false ∧ (s.pc t).ends = false ∧ (s.pc t).receives = false ∧
      (s.pc t).serves = false := by
    rw [hpc]
    exact ⟨rfl, rfl, rfl, rfl⟩
  have hmoved : Alert (s.goto t (if s.queue = [] then .notify else .idle)) :=
    h.idle rfl hcount (by split_ifs <;> exact ⟨rfl, rfl⟩) rfl rfl rfl rfl rfl rfl
  refine ⟨fun _ => ?_, hmoved.closed, hmoved.reader, hmoved.writer⟩
  by_cases hnil : s.queue = []
  · have hone := one_le_tally (p := StreamPc.looks)
      (f := Function.update s.pc t (if s.queue = [] then .notify else .idle)) (i := t)
      (by rw [if_pos hnil, Function.update_self]; rfl)
    show 0 < (s.sem.free : ℤ) +
      tally StreamPc.looks (Function.update s.pc t (if s.queue = [] then .notify else .idle))
    omega
  · exact hmoved.queue hnil

omit [Fintype T] in
theorem Clears.quiet {a : StreamPc μ} (h : Clears a b) : Quiet s (s.cleared.goto t b) a b := by
  have hqueue : (s.cleared.goto t b).queue ≠ [] → s.queue ≠ [] ∧ a.looks.toNat ≤ b.looks.toNat :=
    fun hne => absurd rfl hne
  cases h with
  | write =>
    exact ⟨rfl, rfl, hqueue, .inr le_rfl, le_rfl, .inr le_rfl, .inr le_rfl,
      fun hw => .inr (.inr ⟨hw, le_rfl⟩)⟩
  | close c =>
    cases c <;> exact ⟨rfl, rfl, hqueue, .inr le_rfl, Nat.add_le_add_left (Nat.zero_le _) _,
      .inr (Nat.add_le_add_left (Nat.zero_le _) _), .inr le_rfl, fun hw => .inr (.inr ⟨hw, le_rfl⟩)⟩

theorem Alert.step (h : Alert s) (hex : Exclusive s) (hst : Stepped s t u) : Alert u := by
  cases hst with
  | move hm => exact h.quiet rfl hm.quiet
  | reconnect hpc =>
    obtain ⟨hr, hw, htr, htw⟩ := hex.connects (t := t) (by rw [hpc]; rfl)
    refine ⟨fun hne => ?_, fun hc => (by cases hc), fun _ hpos => ?_, fun hwr => (by cases hwr)⟩
    · refine lt_of_lt_of_eq (h.queue hne) ?_
      show _ = (s.sem.free : ℤ) + tally StreamPc.looks (Function.update s.pc t .connectCb)
      rw [tally_update, hpc]
      exact congrArg _ (sub_add_cancel _ _).symm
    · -- no `doWrite` is left of the last connection
      replace hpos : 0 < (s.writes : ℤ) +
        tally StreamPc.writes (Function.update s.pc t .connectCb) := hpos
      rw [tally_update, hpc, htw, hw] at hpos
      exact absurd hpos (lt_irrefl _)
  | startRead hpc =>
    refine h.quiet rfl ⟨rfl, rfl, fun hne => ⟨hne, ?_⟩, .inr ?_, ?_, .inr ?_, .inl (Nat.succ_pos _),
      fun hw => .inr (.inr ⟨hw, ?_⟩)⟩ <;> rw [hpc]
    · exact le_rfl
    · exact le_rfl
    · exact Nat.le_succ _
    · exact Nat.le_succ _
    · exact le_rfl
  | startWrite hpc =>
    refine h.quiet rfl ⟨rfl, rfl, fun hne => ⟨hne, ?_⟩, .inr ?_, ?_, .inr ?_, .inr ?_,
      fun _ => .inr (.inl (Nat.add_pos_left (Nat.succ_pos _) _))⟩ <;> rw [hpc] <;> exact le_rfl
  | doRead hpc hpos =>
    refine h.quiet rfl ⟨rfl, rfl, fun hne => ⟨hne, ?_⟩, .inr ?_, ?_, .inr ?_, .inr ?_,
      fun hw => .inr (.inr ⟨hw, ?_⟩)⟩ <;> rw [hpc]
    · exact le_rfl
    · exact le_rfl
    · exact (Nat.sub_add_cancel hpos).ge
    · exact (Nat.sub_add_cancel hpos).ge
    · exact le_rfl
    · exact le_rfl
  | doWrite hpc hpos =>
    refine h.quiet rfl ⟨rfl, rfl, fun hne => ⟨hne, ?_⟩, .inr ?_, ?_, .inr ?_, .inr ?_,
      fun hw => .inr (.inr ⟨hw, ?_⟩)⟩ <;> rw [hpc]
    · exact le_rfl
    · exact le_rfl
    · exact le_rfl
    · exact le_rfl
    · exact (Nat.sub_add_cancel hpos).le
    · exact (Nat.sub_add_cancel hpos).ge
  | takeWait ht =>
    obtain ⟨ha, hb, hq⟩ := ht.facts_quiet
    unfold takeWait
    split_ifs
    · exact h.idle rfl ha hb rfl rfl rfl rfl rfl rfl
    · exact h.idle rfl ha hq rfl rfl rfl rfl rfl rfl
  | notifyWait hg => exact h.notifyWait hex hg
  | takeSem hpc => exact h.takeSem hex hpc
  | notifySem hg => exact h.signal hex rfl hg rfl rfl rfl rfl rfl rfl
  | swap hpc =>
    refine h.quiet rfl ⟨rfl, rfl, fun hne => absurd rfl hne, .inr ?_, ?_, .inr ?_, .inr ?_,
      fun hw => .inr (.inr ⟨hw, ?_⟩)⟩ <;> rw [hpc] <;> exact le_rfl
  | clear hc => exact h.quiet rfl hc.quiet
  | push m hpc => exact h.push hpc
  | close hc => exact h.close hc
  | sent m ms hpc =>
    refine h.quiet rfl ⟨rfl, rfl, fun hne => ⟨hne, ?_⟩, .inr ?_, ?_, .inr ?_, .inr ?_,
      fun hw => .inr (.inr ⟨hw, ?_⟩)⟩ <;> rw [hpc] <;> exact le_rfl
  | failed ms hpc =>
    refine h.quiet rfl ⟨rfl, rfl, fun hne => ⟨hne, ?_⟩, .inr ?_, ?_, .inr ?_, .inr ?_,
      fun hw => .inr (.inr ⟨hw, ?_⟩)⟩ <;> rw [hpc]
    · exact le_rfl
    · exact le_rfl
    · exact Nat.le_succ _
    · exact le_rfl
    · exact le_rfl
    · exact le_rfl
  | threw ms hpc =>
    refine h.quiet rfl ⟨rfl, rfl, fun hne => ⟨hne, ?_⟩, .inr ?_, ?_, .inr ?_, .inr ?_,
      fun hw => by cases hw⟩ <;> rw [hpc] <;> exact le_rfl

omit [DecidableEq T] in
theorem alert_new (connected : Bool) :
    Alert ({ connected := connected } : AsyncSocketStream T μ) := by
  have hzero : ∀ q : StreamPc μ → Bool, q .idle = false →
      tally q (fun _ : T => StreamPc.idle) = 0 := fun q hq => (tally_eq_zero_iff _ _).2 fun _ => hq
  refine ⟨fun hne => absurd rfl hne, fun _ hpos => ?_, fun _ hpos => ?_, fun hw => by cases hw⟩
  · exact absurd hpos (hzero StreamPc.waits rfl ▸ lt_irrefl _)
  · rw [hzero StreamPc.writes rfl] at hpos
    exact absurd hpos (lt_irrefl _)

omit [DecidableEq T] in
theorem exists_of_tally_pos {q : StreamPc μ → Bool} {pc : T → StreamPc μ} (h : 0 < tally q pc) :
    ∃ v, q (pc v) = true := by
  by_contra hnone
  push Not at hnone
  exact h.ne' ((tally_eq_zero_iff _ _).2 fun v => Bool.eq_false_iff.2 (hnone v))

omit [DecidableEq T] in
/-- With a `doWrite` asleep and messages in the queue, somebody is about to wake it. -/
theorem Alert.notifies (h : Alert s) (hex : Exclusive s) (hpc : s.pc t = .asleep)
    (hne : s.queue ≠ []) : ∃ v, s.pc v = .notify ∨ ∃ c, s.pc v = .closeNotify c := by
  have hmem : t ∈ s.sem.waiters := (hex.sem.mem t).2 (by rw [hpc]; rfl)
  have hfree := hex.sem.tight (List.ne_nil_of_mem hmem)
  have hpos := h.queue hne
  obtain ⟨v, hv⟩ := exists_of_tally_pos (show 0 < tally StreamPc.looks s.pc by omega)
  refine ⟨v, ?_⟩
  cases hpcv : s.pc v with
  | notify => exact .inl rfl
  | closeNotify c => exact .inr ⟨c, rfl⟩
  | swap =>
    have hwrites := hex.writes
    have hsame : v = t := by
      apply eq_of_tally_le_one (p := StreamPc.writes) (f := s.pc) (by omega)
      · rw [hpcv]
        rfl
      · rw [hpc]
        rfl
    rw [hsame, hpc] at hpcv
    cases hpcv
  | _ =>
    rw [hpcv] at hv
    cases hv

/-- In every run: while a `doWrite` sleeps on `m_sem` with messages in the queue, somebody is about
to call `m_sem.notify`; while it sleeps with the socket closed, a `doRead` is scheduled, or somebody is
in `doRead` or `innerClose` in front of that call. So, once a `start` has returned `true`, while the
connection is up and no `doSend` has thrown, messages in the queue have a `doWrite` that does not
sleep, or somebody who is about to wake it. -/
theorem writer_woken {connected : Bool}
    (h : Reach step free ({ connected := connected } : AsyncSocketStream T μ) s) :
    (∀ t, s.pc t = .asleep → s.queue ≠ [] → ∃ v, s.pc v = .notify ∨ ∃ c, s.pc v = .closeNotify c) ∧
    (∀ t, s.pc t = .asleep → s.connected = false → 0 < s.reads ∨ ∃ v, (s.pc v).ends = true) ∧
    (s.writing = true → s.connected = true → s.queue ≠ [] → 0 < s.writes ∨
      (∃ v, (s.pc v).serves = true ∧ s.pc v ≠ .asleep) ∨
        ∃ v, s.pc v = .notify ∨ ∃ c, s.pc v = .closeNotify c) := by
  have hboth : Exclusive s ∧ Alert s := by
    refine h.invariant (I := fun v => Exclusive v ∧ Alert v)
      ⟨exclusive_new connected, alert_new connected⟩ fun v l u hv _ hst => ?_
    obtain ⟨t, hst⟩ := exists_stepped hst
    exact ⟨hv.1.step hst, hv.2.step hv.1 hst⟩
  obtain ⟨hex, hal⟩ := hboth
  refine ⟨fun t hpc hne => hal.notifies hex hpc hne, fun t hpc hc => ?_, fun hwr hc hne => ?_⟩
  · have hmem : t ∈ s.sem.waiters := (hex.sem.mem t).2 (by rw [hpc]; rfl)
    have hfree := hex.sem.tight (List.ne_nil_of_mem hmem)
    have hpos := hal.closed hc
      (lt_of_lt_of_le zero_lt_one (one_le_tally (i := t) (by rw [hpc]; rfl)))
    by_cases hr : 0 < s.reads
    · exact .inl hr
    · exact .inr (exists_of_tally_pos (by omega))
  · have hpos := hal.writer hwr hc
    by_cases hw : 0 < s.writes
    · exact .inl hw
    · obtain ⟨v, hv⟩ := exists_of_tally_pos (show 0 < tally StreamPc.serves s.pc by omega)
      by_cases hpc : s.pc v = .asleep
      · exact .inr (.inr (hal.notifies hex hpc hne))
      · exact .inr (.inl ⟨v, hv, hpc⟩)

/-- A message is enqueued while `doWrite` sleeps. -/
theorem writer_woken_one : ∃ s : AsyncSocketStream (Fin 4) ℕ, s.pc 2 = .asleep ∧ s.queue = [7] ∧
    (∃ v, s.pc v = .notify ∨ ∃ c, s.pc v = .closeNotify c) ∧
    (0 < s.writes ∨ (∃ v, (s.pc v).serves = true ∧ s.pc v ≠ .asleep) ∨
      ∃ v, s.pc v = .notify ∨ ∃ c, s.pc v = .closeNotify c) := by
  have hr := reach_exec step (free (σ := AsyncSocketStream (Fin 4) ℕ)) { connected := true }
    [.call 0 .start, .next 0, .next 0, .next 0, .outcome 0 true, .next 0, .next 0, .doWrite 2, .next 2,
      .next 2, .call 3 (.enqueue 7), .next 3] (by decide)
  obtain ⟨hqueue, -, hwriting⟩ := writer_woken hr
  refine ⟨_, ?_, ?_, hqueue 2 ?_ ?_, hwriting ?_ ?_ ?_⟩ <;> decide

/-- After a `doSend` that throws the connection stays up without a `doWrite`, and what is enqueued
then stays in the queue until the connection ends. -/
theorem unsent_after_throw : ∃ s : AsyncSocketStream (Fin 4) ℕ,
    Reach step free ({ connected := true } : AsyncSocketStream (Fin 4) ℕ) s ∧ s.connected = true ∧
      s.queue = [8] ∧ s.writes = 0 ∧ ∀ v, s.pc v = .idle := by
  have hr := reach_exec step (free (σ := AsyncSocketStream (Fin 4) ℕ)) { connected := true }
    [.call 0 .start, .next 0, .next 0, .next 0, .outcome 0 true, .next 0, .next 0, .doWrite 2, .next 2,
      .next 2, .call 3 (.enqueue 7), .next 3, .next 3, .next 2, .threw 2, .next 2, .next 2,
      .call 3 (.enqueue 8), .next 3, .next 3] (by decide)
  exact ⟨_, hr, by decide, by decide, by decide, by decide⟩

end AsyncSocketStream

end CoroutineScheduler.Streams
