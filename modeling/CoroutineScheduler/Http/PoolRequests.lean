import CoroutineScheduler.Http.PoolCount

/-!
# Failed requests

A connection on which a request failed must not serve another one. `recvResponse` closes the socket
whenever it returns `nullptr`; `doRequest` does not close it when `sendRequest` fails, and `ReleasePtr`
puts it back (`broken_reused`).

`broken_not_reused`: in every run in which a send goes through to its end, or fails on a connection
that will not be put back anyway, no connection is used again behind a failure.
-/

namespace CoroutineScheduler.Http

open Trans

/-- The writes take `n` bytes before one of them fails. -/
def takes : List ℕ → ℕ → Bool
  | _, 0 => true
  | [], _ => true
  | r :: room, n => r ≠ 0 && takes room (n - r)

/-- Behind a failure a connection is not handed out, and no request is written to it; nor is one
written behind a part of another. -/
def NotReused (log : List PoolEvent) : Prop :=
  (∀ later earlier p, log = later ++ .failed p :: earlier →
    .made p ∉ later ∧ (∀ now c, .taken now p c ∉ later) ∧ ∀ data sent, .wrote p data sent ∉ later) ∧
  ∀ later earlier p data sent, log = later ++ .wrote p data sent :: earlier → sent ≠ data →
    ∀ data' sent', .wrote p data' sent' ∉ later

namespace Pool

variable {T : Type}

/-- A send goes through on a connection that could go back into the list. -/
def Sends (cfg : PoolConfig) (s : Pool T) : PoolLabel T → Prop
  | .send _ p data room => (s.heap p).connected = true → (s.heap p).request + 1 < cfg.maxRequest →
    takes room data.length = true ∧ 0 < toInt data.length
  | _ => True

instance (cfg : PoolConfig) (s : Pool T) (l : PoolLabel T) : Decidable (s.Sends cfg l) :=
  match l with
  | .send .. => inferInstanceAs (Decidable (_ → _))
  | .getConnection .. | .connect .. | .release .. | .next _ | .close .. | .recv .. => isTrue trivial

end Pool

/-! ## Writing -/

/-- The loop of `writeFixSize` ends well exactly when the writes take all bytes. -/
theorem writeLoop_takes (room : List ℕ) (data sent : List UInt8) :
    (writeLoop room data sent).1 = takes room data.length ∧
      (takes room data.length = true → (writeLoop room data sent).2.sent = sent ++ data) := by
  induction room generalizing data sent with
  | nil =>
    cases data with
    | nil => exact ⟨rfl, fun _ => (List.append_nil sent).symm⟩
    | cons b bs => exact ⟨rfl, fun _ => rfl⟩
  | cons r room ih =>
    cases data with
    | nil => exact ⟨rfl, fun _ => (List.append_nil sent).symm⟩
    | cons b bs =>
      rw [writeLoop, List.length_cons, takes]
      · split_ifs with hr
        · rw [decide_eq_false (not_not.2 hr), Bool.false_and]
          exact ⟨rfl, fun h => absurd h Bool.false_ne_true⟩
        · obtain ⟨hok, hsent⟩ := ih ((b :: bs).drop r) (sent ++ (b :: bs).take r)
          rw [List.length_drop, List.length_cons] at hok hsent
          rw [decide_eq_true hr, Bool.true_and]
          refine ⟨hok, fun h => ?_⟩
          rw [hsent h, List.append_assoc, List.take_append_drop]
      · exact Nat.succ_ne_zero _
      · exact List.cons_ne_nil b bs

/-- The result of `sendRequest` is positive when all bytes went out and their number is. -/
theorem sendRequest_eq {c : Conn} (hc : c.connected = true) (data : List UInt8) (room : List ℕ) :
    sendRequest c data room =
      (decide (0 < toInt data.length) && takes room data.length,
        (writeLoop room data []).2.sent) := by
  obtain ⟨hok, -⟩ := writeLoop_takes room data []
  simp only [sendRequest, hc, if_true, writeFixSize, hok]

/-- A request of which a part is missing has failed. -/
theorem sendRequest_sent {c : Conn} {data : List UInt8} {room : List ℕ}
    (h : (sendRequest c data room).1 = true) : (sendRequest c data room).2 = data := by
  cases hc : c.connected with
  | false =>
    rw [sendRequest, hc] at h
    cases h
  | true =>
    rw [sendRequest_eq hc] at h ⊢
    simp only [Bool.and_eq_true] at h
    exact (writeLoop_takes room data []).2 h.2

/-! ## The log -/

section
variable {log : List PoolEvent} {e : PoolEvent}

/-- A connection that an event uses. -/
def PoolEvent.Uses (p : ConnPtr) : PoolEvent → Prop
  | .made q | .taken _ q _ | .wrote q _ _ => q = p
  | .discarded .. | .failed _ => False

/-- Nothing in front of a failure uses its connection. -/
def Unused (log : List PoolEvent) : Prop :=
  ∀ later earlier p, log = later ++ .failed p :: earlier → ∀ e ∈ later, ¬ e.Uses p

theorem Unused.cons (h : Unused log) (he : ∀ p, .failed p ∈ log → ¬ e.Uses p) :
    Unused (e :: log) := by
  intro later earlier p heq e' he'
  obtain ⟨rfl, -⟩ | ⟨later, rfl, rfl⟩ := List.cons_eq_append_iff.1 heq
  · cases he'
  · obtain rfl | he' := List.mem_cons.1 he'
    · exact he p (by simp)
    · exact h later earlier p rfl e' he'

/-- Behind a part of a request stands its failure. -/
def PartsFail (log : List PoolEvent) : Prop :=
  ∀ later earlier p data sent, log = later ++ .wrote p data sent :: earlier → sent ≠ data →
    ∃ later', later = later' ++ [.failed p]

theorem PartsFail.cons (h : PartsFail log)
    (he : ∀ p data sent, e = .wrote p data sent → sent = data) : PartsFail (e :: log) := by
  intro later earlier p data sent heq hne
  obtain ⟨-, hlog⟩ | ⟨later, rfl, rfl⟩ := List.cons_eq_append_iff.1 heq
  · exact absurd (he p data sent (List.cons.inj hlog).1.symm) hne
  · obtain ⟨later', rfl⟩ := h later earlier p data sent rfl hne
    exact ⟨e :: later', rfl⟩

theorem PartsFail.failed (h : PartsFail log) (p : ConnPtr) (data sent : List UInt8) :
    PartsFail (.failed p :: .wrote p data sent :: log) := by
  intro later earlier q data' sent' heq hne
  obtain ⟨-, hlog⟩ | ⟨later, rfl, heq'⟩ := List.cons_eq_append_iff.1 heq
  · cases (List.cons.inj hlog).1
  · obtain ⟨rfl, hlog⟩ | ⟨later, rfl, rfl⟩ := List.cons_eq_append_iff.1 heq'
    · cases (List.cons.inj hlog).1
      exact ⟨[], rfl⟩
    · obtain ⟨later', rfl⟩ := h later earlier q data' sent' rfl hne
      exact ⟨.failed p :: .wrote p data sent :: later', rfl⟩

theorem Unused.notReused (h : Unused log) (hparts : PartsFail log) : NotReused log := by
  constructor
  · intro later earlier p heq
    have hunused := h later earlier p heq
    exact ⟨fun hmem => hunused _ hmem rfl, fun now c hmem => hunused _ hmem rfl,
      fun data sent hmem => hunused _ hmem rfl⟩
  · intro later earlier p data sent heq hne data' sent' hmem
    obtain ⟨later', rfl⟩ := hparts later earlier p data sent heq hne
    rw [List.append_assoc] at heq
    obtain hmem | hmem := List.mem_append.1 hmem
    · exact h later' _ p heq _ hmem rfl
    · simp at hmem

end

/-! ## One step -/

namespace Pool

section
variable {T : Type} [Fintype T] {cfg : PoolConfig} {s u : Pool T} {p : ConnPtr}

/-- A connection on which a request failed: it is with its user, or about to be deleted, or deleted,
and `ReleasePtr` will not put it back. -/
structure Doomed (cfg : PoolConfig) (s : Pool T) (p : ConnPtr) : Prop where
  made : p < s.fresh
  conns : p ∉ s.conns
  carried : ∀ t, p ∈ (s.pc t).carries → s.pc t = .drop p
  stage : (s.heap p).stage = .finished
  unfit : (s.heap p).connected = false ∨ cfg.maxRequest ≤ (s.heap p).request + 1

/-- The connections of failed requests are doomed, and the log is in order. -/
structure Clean (cfg : PoolConfig) (s : Pool T) : Prop where
  inv : Inv s
  doomed : ∀ p, .failed p ∈ s.log → Doomed cfg s p
  unused : Unused s.log
  parts : PartsFail s.log

theorem clean_start (cfg : PoolConfig) : Clean cfg (start : Pool T) where
  inv := inv_start
  doomed p h := by cases h
  unused later earlier p h := by simp [start] at h
  parts later earlier p data sent h := by simp [start] at h

variable [DecidableEq T] {t : T}

omit [Fintype T] in
/-- A step of `t` that leaves a doomed connection alone. -/
theorem Doomed.goto (h : Doomed cfg s p) (pc : PoolPc) (hpc : u.pc = Function.update s.pc t pc)
    (hnew : p ∉ pc.carries) (hfresh : s.fresh ≤ u.fresh) (hconns : p ∉ u.conns)
    (hheap : u.heap p = s.heap p) : Doomed cfg u p := by
  refine ⟨h.made.trans_le hfresh, hconns, fun t' ht' => ?_, ?_, ?_⟩
  · by_cases htt : t' = t
    · rw [hpc, htt, Function.update_self] at ht'
      exact absurd ht' hnew
    · rw [hpc, Function.update_of_ne htt] at ht' ⊢
      exact h.carried t' ht'
  · rw [hheap]
    exact h.stage
  · rw [hheap]
    exact h.unfit

omit [Fintype T] [DecidableEq T] in
/-- A step that changes other connections only. -/
theorem Doomed.frame (h : Doomed cfg s p) (hpc : u.pc = s.pc) (hfresh : u.fresh = s.fresh)
    (hconns : u.conns = s.conns) (hheap : u.heap p = s.heap p) : Doomed cfg u p := by
  refine ⟨?_, ?_, fun t ht => ?_, ?_, ?_⟩
  · rw [hfresh]
    exact h.made
  · rw [hconns]
    exact h.conns
  · rw [hpc] at ht ⊢
    exact h.carried t ht
  · rw [hheap]
    exact h.stage
  · rw [hheap]
    exact h.unfit

omit [Fintype T] in
/-- `ReleasePtr` is about to delete the connection. -/
theorem Doomed.drop (h : Doomed cfg s p) (hpc : u.pc = Function.update s.pc t (.drop p))
    (hfresh : u.fresh = s.fresh) (hconns : u.conns = s.conns)
    (hheap : u.heap p = { s.heap p with request := (s.heap p).request + 1 }) : Doomed cfg u p := by
  refine ⟨?_, ?_, fun t' ht' => ?_, ?_, ?_⟩
  · rw [hfresh]
    exact h.made
  · rw [hconns]
    exact h.conns
  · by_cases htt : t' = t
    · rw [hpc, htt, Function.update_self]
    · rw [hpc, Function.update_of_ne htt] at ht' ⊢
      exact h.carried t' ht'
  · rw [hheap]
    exact h.stage
  · rw [hheap]
    exact h.unfit.imp_right Nat.le_succ_of_le

theorem Clean.lockGet (h : Clean cfg s) {now : ℕ} (hpc : s.pc t = .lock now) :
    Clean cfg (s.lockGet cfg t now) := by
  have hinv := h.inv.shift (shift_lockGet cfg hpc)
  have hsplit := popLoop_append cfg s.heap now s.conns
  unfold Pool.lockGet at hinv ⊢
  generalize popLoop cfg s.heap now s.conns = r at hsplit hinv ⊢
  obtain ⟨invalid, ptr, rest⟩ := r
  dsimp only at hsplit hinv ⊢
  have hrest : ∀ p, .failed p ∈ s.log → p ∉ invalid ++ ptr.toList ∧ p ∉ rest := by
    intro p hp
    have hconns := (h.doomed p hp).conns
    rw [← hsplit, List.mem_append, not_or] at hconns
    exact hconns
  -- the events of the connections that are not fit do not use them
  have hlog : Unused (invalid.map (fun p => .discarded now (s.heap p)) ++ s.log) ∧
      PartsFail (invalid.map (fun p => .discarded now (s.heap p)) ++ s.log) := by
    clear hsplit hinv hrest
    induction invalid with
    | nil => exact ⟨h.unused, h.parts⟩
    | cons q invalid ih => exact ⟨ih.1.cons fun _ _ => id, ih.2.cons fun _ _ _ => nofun⟩
  have hfailed : ∀ p, .failed p ∈ invalid.map (fun p => .discarded now (s.heap p)) ++ s.log →
      .failed p ∈ s.log := by
    intro p hp
    simpa using hp
  cases ptr with
  | none =>
    refine ⟨hinv, fun p hp => ?_, hlog.1, hlog.2⟩
    obtain ⟨hnew, hconns⟩ := hrest p (hfailed p hp)
    exact (h.doomed p (hfailed p hp)).goto _ rfl hnew le_rfl hconns rfl
  | some q =>
    have hne : ∀ p, .failed p ∈ s.log → q ≠ p := by
      rintro p hp rfl
      exact (hrest q hp).1 (by simp)
    refine ⟨hinv, fun p hp => ?_, hlog.1.cons fun p hp => ?_, hlog.2.cons fun _ _ _ => nofun⟩
    · have hp := hfailed p (by simpa using hp)
      obtain ⟨hnew, hconns⟩ := hrest p hp
      exact (h.doomed p hp).goto _ rfl hnew le_rfl hconns
        (Function.update_of_ne (hne p hp).symm _ _)
    · exact hne p (hfailed p hp)

theorem Clean.next (h : Clean cfg s) (hst : s.next cfg t = some u) : Clean cfg u := by
  have hinv := h.inv.shift (shift_next cfg hst)
  have hcarried := fun p hp => (h.doomed p hp).carried t
  rw [Pool.next] at hst
  split at hst
  case h_1 | h_2 => cases hst
  case h_3 now hpc =>
    obtain rfl := Option.some.inj hst
    exact h.lockGet hpc
  case h_4 q invalid n ptr hpc =>
    obtain rfl := Option.some.inj hst
    refine ⟨hinv, fun p hp => ?_, h.unused, h.parts⟩
    refine (h.doomed p hp).goto _ rfl (fun hmem => ?_) le_rfl (h.doomed p hp).conns rfl
    have hold := hcarried p hp
    rw [hpc] at hold
    cases hold (List.mem_cons_of_mem q hmem)
  case h_10 q hpc =>
    obtain rfl := Option.some.inj hst
    refine ⟨hinv, fun p hp => ?_, h.unused, h.parts⟩
    refine (h.doomed p hp).goto _ rfl List.not_mem_nil le_rfl ?_ rfl
    rintro hmem
    obtain hmem | hmem := List.mem_append.1 hmem
    · exact (h.doomed p hp).conns hmem
    · have hold := hcarried p hp
      rw [hpc] at hold
      cases hold hmem
  all_goals
    obtain rfl := Option.some.inj hst
    refine ⟨hinv, fun p hp => ?_, h.unused, h.parts⟩
    exact (h.doomed p hp).goto _ rfl List.not_mem_nil le_rfl (h.doomed p hp).conns rfl

theorem Clean.make (h : Clean cfg s) (now : ℕ) (hpc : s.pc t = .connect) :
    Clean cfg (s.make t now) := by
  have hne : ∀ p, .failed p ∈ s.log → p ≠ s.fresh := fun p hp => (h.doomed p hp).made.ne
  refine ⟨h.inv.shift (shift_make now hpc), fun p hp => ?_, h.unused.cons fun p hp => ?_,
    h.parts.cons fun _ _ _ => nofun⟩
  · have hp : .failed p ∈ s.log := by simpa [Pool.make] using hp
    refine (h.doomed p hp).goto _ rfl ?_ (Nat.le_succ _) (h.doomed p hp).conns
      (Function.update_of_ne (hne p hp) _ _)
    exact mt List.mem_singleton.1 (hne p hp)
  · exact (hne p hp).symm

/-- A doomed connection is deleted when it is released. -/
theorem Clean.releasePtr (h : Clean cfg s) {v : T} {q : ConnPtr} {now : ℕ} (hpc : s.pc t = .idle)
    (hmem : (v, q) ∈ s.out) : Clean cfg (s.releasePtr cfg t v q now) := by
  have hinv := h.inv.shift (shift_release cfg now hpc hmem)
  unfold Pool.releasePtr at hinv ⊢
  dsimp only at hinv ⊢
  split_ifs at hinv ⊢ with hc
  · refine ⟨hinv, fun p hp => ?_, h.unused.cons fun _ _ => id, h.parts.cons fun _ _ _ => nofun⟩
    have hp : .failed p ∈ s.log := by simpa using hp
    have hd := h.doomed p hp
    by_cases hpq : p = q
    · subst hpq
      exact hd.drop rfl rfl rfl (Function.update_self _ _ _)
    · exact hd.goto _ rfl (mt List.mem_singleton.1 hpq) le_rfl hd.conns
        (Function.update_of_ne hpq _ _)
  · refine ⟨hinv, fun p hp => ?_, h.unused, h.parts⟩
    have hd := h.doomed p hp
    have hpq : p ≠ q := by
      rintro rfl
      rw [not_or, not_or, not_le, not_le] at hc
      exact hd.unfit.elim hc.1 hc.2.2.not_ge
    exact hd.goto _ rfl (mt List.mem_singleton.1 hpq) le_rfl hd.conns
      (Function.update_of_ne hpq _ _)

omit [DecidableEq T] in
/-- A user stores to his connection; no event uses a doomed one. -/
theorem Clean.store (h : Clean cfg s) (hinv : Inv u) {v : T} {q : ConnPtr} (c : Conn)
    (hmem : (v, q) ∈ s.out) (hheap : u.heap = Function.update s.heap q c) (hpc : u.pc = s.pc)
    (hfresh : u.fresh = s.fresh) (hconns : u.conns = s.conns)
    (hfailed : ∀ p, .failed p ∈ u.log → .failed p ∈ s.log ∨ p = q)
    (hdoomed : .failed q ∈ u.log → c.stage = .finished ∧
      (c.connected = false ∨ cfg.maxRequest ≤ c.request + 1))
    (hunused : Unused u.log) (hparts : PartsFail u.log) : Clean cfg u := by
  refine ⟨hinv, fun p hp => ?_, hunused, hparts⟩
  by_cases hpq : p = q
  · subst hpq
    obtain ⟨hmade, hnot, hcarried⟩ := h.inv.of_mem_out hmem
    obtain ⟨hstage, hunfit⟩ := hdoomed hp
    refine ⟨hfresh ▸ hmade, hconns ▸ hnot, fun t ht => ?_, ?_, ?_⟩
    · rw [hpc] at ht
      exact absurd ht (hcarried t)
    · rw [hheap, Function.update_self, hstage]
    · rw [hheap, Function.update_self]
      exact hunfit
  · have hd := h.doomed p ((hfailed p hp).resolve_right hpq)
    exact hd.frame hpc hfresh hconns (by rw [hheap, Function.update_of_ne hpq])

omit [DecidableEq T] in
theorem Clean.not_failed (h : Clean cfg s) {q : ConnPtr} (hstage : (s.heap q).stage ≠ .finished) :
    .failed q ∉ s.log :=
  fun hq => hstage (h.doomed q hq).stage

omit [DecidableEq T] in
theorem Clean.send (h : Clean cfg s) {v : T} {q : ConnPtr} {data : List UInt8} {room : List ℕ}
    (hmem : (v, q) ∈ s.out) (hstage : (s.heap q).stage = .ready)
    (hsends : s.Sends cfg (.send v q data room)) (hinv : Inv (s.send q data room)) :
    Clean cfg (s.send q data room) := by
  have hnot := h.not_failed (q := q) (by rw [hstage]; exact Stage.noConfusion)
  have hwrote : ∀ sent, Unused (.wrote q data sent :: s.log) := by
    intro sent
    apply h.unused.cons
    rintro p hp rfl
    exact hnot hp
  unfold Pool.send at hinv ⊢
  dsimp only at hinv ⊢
  split_ifs at hinv ⊢ with hok
  · refine h.store hinv _ hmem rfl rfl rfl rfl ?_ ?_ (hwrote _) ?_
    · intro p hp
      exact Or.inl (by simpa using hp)
    · intro hq
      exact absurd (by simpa using hq) hnot
    · apply h.parts.cons
      rintro _ _ _ ⟨⟩
      exact sendRequest_sent hok
  · refine h.store hinv _ hmem rfl rfl rfl rfl ?_ ?_ ((hwrote _).cons fun _ _ => id)
      (h.parts.failed q data _)
    · intro p hp
      simpa [or_comm] using hp
    · intro _
      refine ⟨rfl, ?_⟩
      by_contra hcon
      rw [not_or, Bool.not_eq_false, not_le] at hcon
      obtain ⟨htakes, hlen⟩ := hsends hcon.1 hcon.2
      have hc : (s.heap q).connected = true := hcon.1
      simp only [sendRequest_eq hc, htakes, Bool.and_true, decide_eq_true_eq] at hok
      exact hok hlen

omit [DecidableEq T] in
theorem Clean.recvIn (h : Clean cfg s) {v : T} {q : ConnPtr} {outcome : ResponseOutcome}
    (hmem : (v, q) ∈ s.out) (hstage : (s.heap q).stage = .sent)
    (hinv : Inv (s.recvIn q outcome)) : Clean cfg (s.recvIn q outcome) := by
  have hnot := h.not_failed (q := q) (by rw [hstage]; exact Stage.noConfusion)
  unfold Pool.recvIn at hinv ⊢
  split_ifs at hinv ⊢
  · refine h.store hinv _ hmem rfl rfl rfl rfl ?_ ?_ (h.unused.cons fun _ _ => id)
      (h.parts.cons fun _ _ _ => nofun)
    · intro p hp
      simpa [or_comm] using hp
    · exact fun _ => ⟨rfl, Or.inl rfl⟩
  · refine h.store hinv _ hmem rfl rfl rfl rfl (fun _ => Or.inl) ?_ h.unused h.parts
    exact fun hq => absurd hq hnot

theorem Clean.step {l : PoolLabel T} (h : Clean cfg s) (hsends : s.Sends cfg l)
    (hst : s.step cfg l = some u) : Clean cfg u := by
  obtain ⟨t', hshift⟩ := exists_shift cfg hst
  have hinv := h.inv.shift hshift
  cases l with
  | getConnection t now =>
    simp only [Pool.step] at hst
    split_ifs at hst
    obtain rfl := Option.some.inj hst
    refine ⟨hinv, fun p hp => ?_, h.unused, h.parts⟩
    exact (h.doomed p hp).goto _ rfl List.not_mem_nil le_rfl (h.doomed p hp).conns rfl
  | connect t now ok =>
    simp only [Pool.step] at hst
    split_ifs at hst with hc
    · obtain rfl := Option.some.inj hst
      have hmake := h.make now hc.1
      exact ⟨hinv, fun p hp => (hmake.doomed p hp).frame rfl rfl rfl rfl, hmake.unused, hmake.parts⟩
    · obtain rfl := Option.some.inj hst
      refine ⟨hinv, fun p hp => ?_, h.unused, h.parts⟩
      exact (h.doomed p hp).goto _ rfl List.not_mem_nil le_rfl (h.doomed p hp).conns rfl
  | release t v p now =>
    simp only [Pool.step] at hst
    split_ifs at hst with hc
    obtain rfl := Option.some.inj hst
    exact h.releasePtr hc.1 hc.2.1
  | next t => exact h.next hst
  | close v p =>
    simp only [Pool.step] at hst
    split_ifs at hst with hc
    obtain rfl := Option.some.inj hst
    refine h.store hinv _ hc rfl rfl rfl rfl (fun _ => Or.inl) ?_ h.unused h.parts
    exact fun hp => ⟨(h.doomed p hp).stage, Or.inl rfl⟩
  | send v p data room =>
    simp only [Pool.step] at hst
    split_ifs at hst with hc
    obtain rfl := Option.some.inj hst
    exact h.send hc.1 hc.2 hsends hinv
  | recv v p outcome =>
    simp only [Pool.step] at hst
    split_ifs at hst with hc
    obtain rfl := Option.some.inj hst
    exact h.recvIn hc.1 hc.2 hinv

end

/-! ## A run -/

/-- In every run in which sends go through, no connection on which a request failed is handed out or
written to again. -/
theorem broken_not_reused {T : Type} [Fintype T] [DecidableEq T] (cfg : PoolConfig) {s : Pool T}
    (h : Reach (step cfg) (Sends cfg) start s) : NotReused s.log := by
  have hclean : Clean cfg s := h.invariant (clean_start cfg) fun _ _ _ hc hok hst => hc.step hok hst
  exact hclean.unused.notReused hclean.parts

/-- A request goes out in two parts, its response is lost, and the next request gets a new
connection. -/
theorem broken_not_reused_recv : ∃ s : Pool Unit, s.log = [.wrote 1 [1, 2, 3] [1, 2, 3], .made 1,
      .discarded 105 { request := 1, connected := false, born := 101, stage := .finished },
      .failed 0, .wrote 0 [1, 2, 3] [1, 2, 3], .made 0] ∧ NotReused s.log := by
  have hs := reach_exec (step ⟨1, 10, 5⟩) (Sends (T := Unit) ⟨1, 10, 5⟩) start
    [.getConnection () 100, .next (), .next (), .connect () 101 true, .next (),
      .send () 0 [1, 2, 3] [2], .recv () 0 .closed, .release () () 0 105, .next (), .next (),
      .getConnection () 106, .next (), .next (), .connect () 106 true, .next (),
      .send () 1 [1, 2, 3] [1, 2]] (by decide +kernel)
  exact ⟨_, by decide +kernel, broken_not_reused ⟨1, 10, 5⟩ hs⟩

/-- The socket takes two bytes of a request and fails; the next request is written behind them. -/
theorem broken_reused : ∃ s : Pool Unit, Reach (step ⟨1, 10, 5⟩) Trans.free start s ∧
    s.log = [.wrote 0 [4, 5] [4, 5],
      .taken 106 0 { request := 1, born := 101, stage := .finished },
      .failed 0, .wrote 0 [1, 2, 3] [1, 2], .made 0] ∧ ¬ NotReused s.log := by
  have hs := reach_exec (step ⟨1, 10, 5⟩) (Trans.free (σ := Pool Unit)) start
    [.getConnection () 100, .next (), .next (), .connect () 101 true, .next (),
      .send () 0 [1, 2, 3] [2, 0], .release () () 0 105, .next (),
      .getConnection () 106, .next (), .next (), .send () 0 [4, 5] []] (by decide +kernel)
  have hbad : ∀ log : List PoolEvent, log = [.wrote 0 [4, 5] [4, 5],
      .taken 106 0 { request := 1, born := 101, stage := .finished },
      .failed 0, .wrote 0 [1, 2, 3] [1, 2], .made 0] → ¬ NotReused log := by
    rintro _ rfl ⟨hfailed, -⟩
    obtain ⟨-, htaken, -⟩ := hfailed [.wrote 0 [4, 5] [4, 5], .taken 106 0 _] _ 0 rfl
    exact htaken 106 _ (List.mem_cons_of_mem _ List.mem_cons_self)
  refine ⟨_, hs, ?_, hbad _ ?_⟩ <;> decide +kernel

end Pool

end CoroutineScheduler.Http
