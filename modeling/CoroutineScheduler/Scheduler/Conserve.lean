import CoroutineScheduler.Lib.Count
import CoroutineScheduler.Lib.Tickets
import CoroutineScheduler.Lib.Trans
import CoroutineScheduler.Scheduler.Run

/-!
# Task conservation

The machine of `Scheduler::run` with a record of its past: the tasks handed to `schedule()` in the
order of the locked sections, the tickets of the entries in the queue, the removals, and for each
worker what its last scan saw. Fiber states may change arbitrarily between steps (`Label.write`).

`run_conserves`: in every state of every run no task is lost or taken twice (`Tickets.Valid`), each
removal took the earliest entry eligible for its worker, a worker on its way to the idle fiber saw
no eligible entry, and `m_activeThreadCount` is the number of workers between a dequeue and the
matching decrement.
-/

namespace CoroutineScheduler

open Trans FiberAndThread

/-- What a scan reads: the queue and the fiber states. -/
structure Snapshot where
  fibers : List FiberAndThread
  state : FiberId → FiberState

/-- A dequeue: who took which entry, its ticket, its position in the queue, and what the scan
saw. -/
structure Removal (W : Type) where
  worker : W
  ticket : ℕ
  entry : FiberAndThread
  pos : ℕ
  seen : Snapshot

/-- The past of a run. -/
structure Hist (W : Type) where
  handed : List FiberAndThread
  tickets : Tickets
  removed : List (Removal W)
  lastScan : W → Snapshot

namespace Hist

variable {W : Type}

def start : Hist W := ⟨[], .empty, [], fun _ => ⟨[], fun _ => .init⟩⟩

/-- The non-empty tasks among those handed to `schedule()`. -/
def appended (h : Hist W) : List FiberAndThread := h.handed.filter nonEmpty

/-- The tasks `fts` are handed to `schedule()`; the non-empty ones get tickets. -/
def hand (h : Hist W) (fts : List FiberAndThread) : Hist W :=
  { h with
    handed := h.handed ++ fts
    tickets := h.tickets.issue (fts.filter nonEmpty).length }

/-- The position of the first entry that thread `tid` may take. -/
def firstEligible (seen : Snapshot) (tid : ℤ) : Option ℕ :=
  seen.fibers.findIdx? fun e => decide (Eligible seen.state tid e)

/-- Worker `w` scans and takes the first eligible entry. -/
def look [DecidableEq W] (h : Hist W) (tid : ℤ) (w : W) (seen : Snapshot) : Hist W :=
  let h' := { h with lastScan := Function.update h.lastScan w seen }
  match firstEligible seen tid with
  | none => h'
  | some i =>
    match seen.fibers[i]?, h.tickets.waiting[i]? with
    | some e, some n =>
      { h' with tickets := h.tickets.serve i, removed := h.removed ++ [⟨w, n, e, i, seen⟩] }
    | _, _ => h'

end Hist

/-- The task that a worker at `p` is about to put back into the queue. -/
def Pc.requeued : Pc → List FiberAndThread
  | requeue _ f => [.ofFiber (some f) (-1)]
  | _ => []

variable {W : Type} [DecidableEq W]

namespace Sys

/-- The tasks that label `a` hands to `schedule()` in state `s`. -/
def handedBy (s : Sys W) : Label W → List FiberAndThread
  | .schedule ft => [ft]
  | .scheduleRange fts => fts
  | .run w => (s.pc w).requeued
  | _ => []

/-- The worker that scans by label `a` in state `s`. -/
def scannedBy (s : Sys W) : Label W → Option W
  | .run w => if s.pc w = .scan then some w else none
  | _ => none

/-- The history after label `a` in state `s`. -/
def record (tid : W → ℤ) (s : Sys W) (a : Label W) (h : Hist W) : Hist W :=
  match s.scannedBy a with
  | some w => h.look (tid w) w ⟨s.fibers, s.state⟩
  | none => h.hand (s.handedBy a)

/-- A step of the machine with its history. -/
def stepH (tid : W → ℤ) (p : Sys W × Hist W) (a : Label W) : Option (Sys W × Hist W) :=
  (step tid p.1 a).map fun t => (t, p.1.record tid a p.2)

end Sys

/-! ## What a step does to the queue and the counter -/

namespace Sys

variable {tid : W → ℤ} {s t : Sys W} {a : Label W}

/-- Worker `w` moves to `p`, and the counter follows. -/
structure Moves (s t : Sys W) (w : W) (p : Pc) : Prop where
  pc : t.pc = Function.update s.pc w p
  active : t.active = s.active - (s.pc w).active.toNat + p.active.toNat

theorem active_afterFiber (ft : FiberAndThread) : (afterFiber ft).active = true := by
  unfold afterFiber; split <;> rfl

theorem idle_afterFiber (ft : FiberAndThread) : (afterFiber ft).idle = false := by
  unfold afterFiber; split <;> rfl

theorem active_dispatch (ft : FiberAndThread) : (dispatch ft).active = true := by
  unfold dispatch; split
  · rfl
  · exact active_afterFiber ft

theorem idle_dispatch (ft : FiberAndThread) : (dispatch ft).idle = false := by
  unfold dispatch; split
  · rfl
  · exact idle_afterFiber ft

theorem Jump.active {st : FiberId → FiberState} {p q : Pc} (h : Jump st p q) :
    q.active = p.active := by
  cases h <;> first | rfl | exact active_afterFiber _

theorem Jump.idle {st : FiberId → FiberState} {p q : Pc} (h : Jump st p q) : q.idle = false := by
  cases h <;> first | rfl | exact idle_afterFiber _

theorem Jump.requeued {st : FiberId → FiberState} {p q : Pc} (h : Jump st p q) :
    p.requeued = [] := by
  cases h <;> rfl

omit [DecidableEq W] in
theorem Fails.requeued {c : Option FiberId} {i : FiberState} {p : Pc} {k : ℤ}
    (h : Fails s k p c i) : p.requeued = [] := by
  cases h <;> rfl

/-- Worker `w` goes idle by label `a`: from a scan that took nothing, or because it was idle. -/
def GoesIdle (tid : W → ℤ) (s : Sys W) (a : Label W) (w : W) : Prop :=
  (s.scannedBy a = none ∧ (s.pc w).idle = true) ∨
    (s.scannedBy a = some w ∧ (scan s.state (tid w) s.fibers).taken = none)

/-- A move that leaves the counter alone. -/
theorem moves_keep {w : W} {p q : Pc} (hq : s.pc w = q) (hpc : t.pc = Function.update s.pc w p)
    (ha : t.active = s.active) (h : p.active = q.active) : Moves s t w p :=
  ⟨hpc, by rw [ha, hq, h]; omega⟩

/-- A move out of the active section. -/
theorem moves_dec {w : W} {p q : Pc} (hq : s.pc w = q) (hpc : t.pc = Function.update s.pc w p)
    (ha : t.active = s.active - 1) (hqa : q.active = true) (hpa : p.active = false) :
    Moves s t w p :=
  ⟨hpc, by rw [ha, hq, hqa, hpa]; simp⟩

/-- A step moves at most one worker, and the counter follows its move. -/
theorem step_moves (hs : Step tid s a t) :
    (t.pc = s.pc ∧ t.active = s.active) ∨
      ∃ w p, Moves s t w p ∧ (p.idle = true → GoesIdle tid s a w) := by
  cases hs with
  | schedule ft => exact Or.inl ⟨rfl, rfl⟩
  | scheduleRange fts => exact Or.inl ⟨rfl, rfl⟩
  | newFiber c => exact Or.inl ⟨rfl, rfl⟩
  | write f st => exact Or.inl ⟨rfl, rfl⟩
  | yieldFail w b f hpc hst ha => exact Or.inl ⟨rfl, rfl⟩
  | yieldToReady w b f hpc hst | yieldToHold w b f hpc hst | finish w b f hpc
  | throw w b f hpc => exact Or.inr ⟨w, .leave b f, moves_keep hpc rfl rfl rfl, nofun⟩
  | idleOut w o hpc => exact Or.inr ⟨w, .scan, moves_keep hpc rfl rfl rfl, nofun⟩
  | run w t h =>
    cases h with
    | take ft hpc ht =>
      refine Or.inr ⟨w, dispatch ft, ⟨rfl, ?_⟩, fun h => ?_⟩
      · rw [hpc, active_dispatch]
        show s.active + 1 = s.active - 0 + 1
        omega
      · rw [idle_dispatch] at h
        cases h
    | nothing hpc ht =>
      exact Or.inr ⟨w, .idleTest, moves_keep hpc rfl rfl rfl, fun _ => Or.inr ⟨if_pos hpc, ht⟩⟩
    | jump p hj =>
      refine Or.inr ⟨w, p, moves_keep rfl rfl rfl hj.active, fun h => ?_⟩
      rw [hj.idle] at h
      cases h
    | reuse c f hpc _ _ => exact Or.inr ⟨w, _, moves_keep hpc rfl rfl rfl, nofun⟩
    | fresh c hpc hcb => exact Or.inr ⟨w, _, moves_keep hpc rfl rfl rfl, nofun⟩
    | enter b f hpc => exact Or.inr ⟨w, _, moves_keep hpc rfl rfl rfl, nofun⟩
    | back b f hpc => exact Or.inr ⟨w, _, moves_dec hpc rfl rfl rfl rfl, nofun⟩
    | requeue b f hpc | hold b f hpc =>
      cases b <;> exact Or.inr ⟨w, .scan, moves_keep hpc rfl rfl rfl, nofun⟩
    | recycle f hpc hst => exact Or.inr ⟨w, .scan, moves_keep hpc rfl rfl rfl, nofun⟩
    | drop hpc => exact Or.inr ⟨w, .scan, moves_dec hpc rfl rfl rfl rfl, nofun⟩
    | quit hpc hi | idle hpc hi =>
      refine Or.inr ⟨w, _, moves_keep hpc rfl rfl rfl, fun _ => Or.inl ⟨?_, by rw [hpc]; rfl⟩⟩
      exact if_neg (by rw [hpc]; decide)
    | fail h => exact Or.inl ⟨rfl, rfl⟩

/-- Only the locked sections touch the queue; those that are no scan append the tasks handed
over. -/
theorem step_fibers (hs : Step tid s a t) (ha : s.scannedBy a = none) :
    t.fibers = s.fibers ++ (s.handedBy a).filter nonEmpty := by
  have hnil : s.handedBy a = [] → s.fibers = s.fibers ++ (s.handedBy a).filter nonEmpty := by
    intro h
    rw [h, List.filter_nil, List.append_nil]
  cases hs with
  | schedule ft => exact scheduleNoLock_fibers s.fibers ft
  | scheduleRange fts => exact scheduleRange_fibers s.fibers fts false
  | newFiber c | write f st | yieldToReady w b f hpc hst | yieldToHold w b f hpc hst
  | finish w b f hpc | throw w b f hpc | idleOut w o hpc => exact hnil rfl
  | yieldFail w b f hpc hst ha => rcases ha with rfl | rfl <;> exact hnil rfl
  | run w t h =>
    have hscan : s.pc w ≠ .scan := by
      intro h
      rw [scannedBy, if_pos h] at ha
      cases ha
    have hpcs : ∀ {p : Pc}, s.pc w = p → p.requeued = [] → s.handedBy (.run w) = [] := by
      rintro p rfl hp
      exact hp
    cases h with
    | take ft hpc ht => exact absurd hpc hscan
    | nothing hpc ht => exact absurd hpc hscan
    | requeue b f hpc =>
      rw [show s.handedBy (.run w) = [.ofFiber (some f) (-1)] by simp [handedBy, hpc, Pc.requeued],
        ← scheduleNoLock_fibers]
      cases b <;> rfl
    | jump p hj => exact hnil hj.requeued
    | reuse c f hpc _ _ | enter b f hpc | fresh c hpc hcb | back b f hpc | recycle f hpc hst
    | drop hpc | quit hpc hi | idle hpc hi => exact hnil (hpcs hpc rfl)
    | hold b f hpc => cases b <;> exact hnil (hpcs hpc rfl)
    | fail h => exact hnil h.requeued

/-- The state after a scan by `w`, from what the scan found. -/
theorem scan_step (hne : ∀ e ∈ s.fibers, e.nonEmpty = true) {w : W} (hpc : s.pc w = .scan)
    (hs : Step tid s (.run w) t) :
    t.fibers = (scan s.state (tid w) s.fibers).fibers ∧
      ((scan s.state (tid w) s.fibers).taken ≠ none → (t.pc w).idle = false) ∧
      ∀ v, v ≠ w → t.pc v = s.pc v := by
  cases hs with
  | yieldFail v b f _ _ ha => rcases ha with ha | ha <;> cases ha
  | run _ _ h =>
    cases h with
    | take ft _ ht =>
      refine ⟨rfl, fun _ => ?_, fun v hv => Function.update_of_ne hv _ _⟩
      show (Function.update s.pc w (dispatch ft) w).idle = false
      rw [Function.update_self]
      exact idle_dispatch ft
    | nothing _ ht => exact ⟨rfl, fun h => absurd ht h, fun v hv => Function.update_of_ne hv _ _⟩
    | jump p hj => rw [hpc] at hj; cases hj
    | fail hf =>
      -- the assertion in the scan cannot fail: the queue holds tasks only
      rw [hpc] at hf
      cases hf with
      | scan hok => rw [scan_ok _ _ hne] at hok; cases hok
    | reuse c f h _ _ | enter b f h | fresh c h _ | back b f h | recycle f h _ | drop h
    | quit h _ | idle h _ | requeue b f h | hold b f h => rw [hpc] at h; cases h

end Sys

/-! ## The invariant -/

/-- A removal took the entry with its ticket, the earliest eligible one in the queue it saw. -/
structure Removal.Good (tid : W → ℤ) (appended : List FiberAndThread) (r : Removal W) : Prop where
  ticket : appended[r.ticket]? = some r.entry
  entry : r.seen.fibers[r.pos]? = some r.entry
  thread : r.entry.thread = -1 ∨ r.entry.thread = tid r.worker
  notExec : ∀ f, r.entry.fiber = some f → r.seen.state f ≠ .exec
  earliest : ∀ i < r.pos, ∀ e, r.seen.fibers[i]? = some e →
    ¬ Eligible r.seen.state (tid r.worker) e

/-- Task conservation, of a state and the history that led to it. -/
structure Conserved [Fintype W] (tid : W → ℤ) (s : Sys W) (h : Hist W) : Prop where
  /-- each non-empty task handed to `schedule()` got one ticket -/
  issued : h.tickets.issued = h.appended.length
  /-- each ticket waits or was served, once, and waiting is in call order -/
  valid : h.tickets.Valid
  /-- `m_fibers` is made of the entries whose tickets wait -/
  queue : Tickets.Holds h.appended h.tickets s.fibers
  served : h.tickets.served = h.removed.map Removal.ticket
  removed : ∀ r ∈ h.removed, r.Good tid h.appended
  /-- a worker goes idle only from a scan that saw no eligible entry -/
  idle : ∀ w, (s.pc w).idle = true → ∀ e ∈ (h.lastScan w).fibers,
    ¬ Eligible (h.lastScan w).state (tid w) e
  active : s.active = (Finset.univ.filter fun w => (s.pc w).active = true).card

theorem Hist.firstEligible_take (seen : Snapshot) {tid : ℤ} {pre post : List FiberAndThread}
    {e : FiberAndThread} (hsplit : seen.fibers = pre ++ e :: post) (he : Eligible seen.state tid e)
    (hpre : ∀ x ∈ pre, ¬ Eligible seen.state tid x) :
    Hist.firstEligible seen tid = some pre.length := by
  have hnone : pre.findIdx? (fun x => decide (Eligible seen.state tid x)) = none :=
    List.findIdx?_eq_none_iff.2 fun x hx => by simpa using hpre x hx
  rw [Hist.firstEligible, hsplit, List.findIdx?_append, hnone]
  simp [List.findIdx?_cons, he]

theorem Hist.firstEligible_none (seen : Snapshot) {tid : ℤ}
    (h : ∀ x ∈ seen.fibers, ¬ Eligible seen.state tid x) : Hist.firstEligible seen tid = none :=
  List.findIdx?_eq_none_iff.2 fun x hx => by simpa using h x hx

omit [DecidableEq W] in
theorem Removal.Good.append {tid : W → ℤ} {xs : List FiberAndThread} {r : Removal W}
    (h : r.Good tid xs) (ys : List FiberAndThread) : r.Good tid (xs ++ ys) :=
  { h with
    ticket := by
      obtain ⟨hi, he⟩ := List.getElem?_eq_some_iff.1 h.ticket
      rw [List.getElem?_append_left hi]
      exact h.ticket }

namespace Conserved

variable [Fintype W] {tid : W → ℤ} {s t : Sys W} {h : Hist W} {a : Label W}

omit [DecidableEq W] in
theorem start : Conserved tid (Sys.start : Sys W) Hist.start where
  issued := rfl
  valid := Tickets.valid_empty
  queue := rfl
  served := rfl
  removed := by intro r hr; cases hr
  idle := by intro w hw; cases hw
  active := by
    show (0 : ℤ) = ((Finset.univ.filter fun _ => false = true).card : ℤ)
    simp

omit [DecidableEq W] in
theorem nonEmpty (hc : Conserved tid s h) : ∀ e ∈ s.fibers, e.nonEmpty = true :=
  fun _ he => (List.mem_filter.1 (hc.queue.mem he)).2

theorem active_step (hc : Conserved tid s h) (hs : Sys.Step tid s a t) :
    t.active = (Finset.univ.filter fun w => (t.pc w).active = true).card := by
  have hc' := hc.active
  rw [← Count.tally_eq_card] at hc' ⊢
  rcases Sys.step_moves hs with ⟨hpc, hact⟩ | ⟨w, p, hm, -⟩
  · rw [hpc, hact, hc']
  · rw [hm.pc, hm.active, hc', Count.tally_update]

omit [Fintype W] in
/-- A worker that is idle after a step without a scan was idle before. -/
theorem idle_of_step (hs : Sys.Step tid s a t) (ha : s.scannedBy a = none) {w : W}
    (hw : (t.pc w).idle = true) : (s.pc w).idle = true := by
  rcases Sys.step_moves hs with ⟨hpc, -⟩ | ⟨v, p, hm, hi⟩
  · rwa [hpc] at hw
  · rw [hm.pc] at hw
    by_cases hv : w = v
    · subst hv
      rw [Function.update_self] at hw
      rcases hi hw with ⟨-, h⟩ | ⟨h, -⟩
      · exact h
      · rw [ha] at h
        cases h
    · rwa [Function.update_of_ne hv] at hw

/-- A step that hands tasks to `schedule()`, or does not touch the queue at all. -/
theorem hand_step (hc : Conserved tid s h) (hs : Sys.Step tid s a t) (ha : s.scannedBy a = none) :
    Conserved tid t (h.hand (s.handedBy a)) := by
  have happ : (h.hand (s.handedBy a)).appended =
      h.appended ++ (s.handedBy a).filter FiberAndThread.nonEmpty := List.filter_append ..
  constructor
  · rw [happ, List.length_append, ← hc.issued]
    rfl
  · exact hc.valid.issue _
  · rw [happ, Sys.step_fibers hs ha]
    exact hc.queue.issue hc.valid hc.issued
  · exact hc.served
  · intro r hr
    rw [happ]
    exact (hc.removed r hr).append _
  · intro w hw
    exact hc.idle w (idle_of_step hs ha hw)
  · exact hc.active_step hs

omit [DecidableEq W] in
/-- The first entry that a worker may take is a good removal, under its ticket. -/
theorem good_removal (hc : Conserved tid s h) {w : W} {pre post : List FiberAndThread}
    {e : FiberAndThread} (hsplit : s.fibers = pre ++ e :: post) (he : Eligible s.state (tid w) e)
    (hpre : ∀ x ∈ pre, ¬ Eligible s.state (tid w) x) :
    s.fibers[pre.length]? = some e ∧ ∃ n, h.tickets.waiting[pre.length]? = some n ∧
      Removal.Good tid h.appended ⟨w, n, e, pre.length, ⟨s.fibers, s.state⟩⟩ := by
  have hlen : pre.length < s.fibers.length := by rw [hsplit]; simp
  have hget : s.fibers[pre.length]? = some e := by rw [hsplit]; simp
  obtain ⟨n, hn⟩ : ∃ n, h.tickets.waiting[pre.length]? = some n :=
    ⟨_, List.getElem?_eq_getElem (by rw [hc.queue.length]; exact hlen)⟩
  refine ⟨hget, n, hn, ?_, hget, he.1, he.2, ?_⟩
  · rw [← hc.queue.getElem? hn]
    exact hget
  · intro i hi x hx
    have hx' : s.fibers[i]? = some x := hx
    rw [hsplit, List.getElem?_append_left hi] at hx'
    exact hpre x (List.mem_of_getElem? hx')

/-- Behind a scan, an idle worker is the one that has found nothing, or was idle before. -/
theorem idle_look (hc : Conserved tid s h) {w : W} {seen : Snapshot}
    (hothers : ∀ v, v ≠ w → t.pc v = s.pc v)
    (hself : (t.pc w).idle = true → ∀ x ∈ seen.fibers, ¬ Eligible seen.state (tid w) x) (v : W)
    (hv : (t.pc v).idle = true) : ∀ x ∈ (Function.update h.lastScan w seen v).fibers,
      ¬ Eligible (Function.update h.lastScan w seen v).state (tid v) x := by
  by_cases hvw : v = w
  · subst hvw
    rw [Function.update_self]
    exact hself hv
  · rw [hothers v hvw] at hv
    rw [Function.update_of_ne hvw]
    exact hc.idle v hv

/-- A step that is a scan. -/
theorem look_step (hc : Conserved tid s h) {w : W} (hpc : s.pc w = .scan)
    (hs : Sys.Step tid s (.run w) t) :
    Conserved tid t (h.look (tid w) w ⟨s.fibers, s.state⟩) := by
  obtain ⟨hfib, hbusy, hothers⟩ := Sys.scan_step hc.nonEmpty hpc hs
  have hact := hc.active_step hs
  have hspec := scan_spec s.state (tid w) s.fibers
  rw [← hfib] at hspec
  generalize (scan s.state (tid w) s.fibers).taken = taken at hspec hbusy
  generalize hq : t.fibers = rest at hspec
  cases hspec with
  | take pre post e hsplit he hpre =>
    obtain ⟨hget, n, hn, hgood⟩ := hc.good_removal hsplit he hpre
    have hlook : h.look (tid w) w ⟨s.fibers, s.state⟩ =
        { h with
          lastScan := Function.update h.lastScan w ⟨s.fibers, s.state⟩
          tickets := h.tickets.serve pre.length
          removed := h.removed ++ [⟨w, n, e, pre.length, ⟨s.fibers, s.state⟩⟩] } := by
      unfold Hist.look
      rw [Hist.firstEligible_take ⟨s.fibers, s.state⟩ hsplit he hpre]
      simp only [hget, hn]
    have hserve : h.tickets.serve pre.length =
        ⟨h.tickets.issued, h.tickets.waiting.eraseIdx pre.length, h.tickets.served ++ [n]⟩ := by
      rw [Tickets.serve, hn]
    have herase : s.fibers.eraseIdx pre.length = t.fibers := by
      rw [hq, hsplit, List.eraseIdx_append_of_length_le (le_refl _), Nat.sub_self]
      rfl
    rw [hlook]
    constructor
    · rw [hserve]
      exact hc.issued
    · exact hc.valid.serve _
    · rw [← herase]
      exact hc.queue.serve _
    · rw [hserve]
      show h.tickets.served ++ [n] = _
      rw [List.map_append, hc.served]
      rfl
    · intro r hr
      rcases List.mem_append.1 hr with hr | hr
      · exact hc.removed r hr
      · obtain rfl := List.mem_singleton.1 hr
        exact hgood
    · refine hc.idle_look hothers fun hw => ?_
      rw [hbusy (by simp)] at hw
      cases hw
    · exact hact
  | nothing hno =>
    have hlook : h.look (tid w) w ⟨s.fibers, s.state⟩ =
        { h with lastScan := Function.update h.lastScan w ⟨s.fibers, s.state⟩ } := by
      unfold Hist.look
      rw [Hist.firstEligible_none ⟨s.fibers, s.state⟩ hno]
    rw [hlook]
    refine { issued := hc.issued, valid := hc.valid, queue := ?_, served := hc.served
             removed := hc.removed, idle := hc.idle_look hothers fun _ => hno, active := hact }
    rw [hq]
    exact hc.queue

theorem step (hc : Conserved tid s h) (hs : Sys.step tid s a = some t) :
    Conserved tid t (s.record tid a h) := by
  obtain ⟨-, hst⟩ := Sys.step_cases hs
  unfold Sys.record
  cases ha : s.scannedBy a with
  | none => exact hc.hand_step hst ha
  | some w =>
    cases a with
    | run v =>
      rw [Sys.scannedBy] at ha
      split_ifs at ha with hpc
      obtain rfl := Option.some.inj ha
      exact hc.look_step hpc hst
    | _ => cases ha

end Conserved

/-- **Task conservation.** It holds in every state that any interleaving of producers, workers and
arbitrary changes of fiber states reaches. -/
theorem run_conserves [Fintype W] (tid : W → ℤ) {s : Sys W} {h : Hist W}
    (hr : Reach (Sys.stepH tid) free (Sys.start, Hist.start) (s, h)) : Conserved tid s h := by
  refine hr.invariant (I := fun p => Conserved tid p.1 p.2) Conserved.start ?_
  rintro ⟨s, h⟩ a ⟨t, h'⟩ hc - hst
  obtain ⟨u, hu, he⟩ := Option.map_eq_some_iff.1 hst
  cases he
  exact hc.step hu

/-- Two workers with thread ids 10 and 11; an entry pinned to the second waits in front of a callback,
which the first takes. -/
theorem run_conserves_pinned : ∃ (s : Sys (Fin 2)) (h : Hist (Fin 2)),
    s.fibers = [.ofFiber (some 1) 11] ∧ h.removed.map Removal.entry = [.ofCb (some 5) (-1)] ∧
      s.active = 1 ∧ Conserved (fun w => (w.val : ℤ) + 10) s h := by
  have hr := reach_exec (Sys.stepH fun w : Fin 2 => (w.val : ℤ) + 10) free
    (Sys.start, Hist.start)
    [.newFiber 7, .schedule (.ofFiber (some 1) 11), .schedule (.ofCb none (-1)),
      .schedule (.ofCb (some 5) (-1)), .run 0] (by decide)
  refine ⟨_, _, ?_, ?_, ?_, run_conserves _ hr⟩ <;> decide

end CoroutineScheduler
