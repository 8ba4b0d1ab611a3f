import CoroutineScheduler.Scheduler.Exclusive

/-!
# A fiber goes on where it was sent

`switchTo(thread)` is `schedule(Fiber::GetThis(), thread)` and then `YieldToHold`: in the suspension
protocol the fiber is its own waker. The machine of the protocol is run here with the thread that each
fiber was last sent to. A fiber that `run()` puts back itself, after `YieldToReady`, is sent to any
thread.

`sent_to`: from the time it is resumed until it hands itself to its next waker, a fiber runs on the
thread it was sent to.
-/

namespace CoroutineScheduler

open Trans FiberAndThread

/-- The thread that each fiber was last sent to, `-1` for any. -/
abbrev Aims := FiberId → ℤ

variable {W : Type} [DecidableEq W]

namespace Sus

/-- What action `a` does to the aims. -/
def aim (s : Sus W) (m : Aims) : Act W → Aims
  | .wake f thr => Function.update m f thr
  | .run w =>
    match s.sys.pc w with
    | .requeue _ f => Function.update m f (-1)
    | _ => m
  | _ => m

/-- A step of the protocol with the aims. -/
def stepA (tid : W → ℤ) (p : Sus W × Aims) (a : Act W) : Option (Sus W × Aims) :=
  (p.1.step tid a).map fun t => (t, p.1.aim p.2 a)

/-- The protocol, of a state with aims. -/
def DisciplinedA (p : Sus W × Aims) (a : Act W) : Prop := p.1.Disciplined a

instance (p : Sus W × Aims) (a : Act W) : Decidable (DisciplinedA p a) := by
  unfold DisciplinedA
  infer_instance

/-- Thread `k` may run a fiber that is sent to `thr`. -/
def Fits (thr k : ℤ) : Prop := thr = -1 ∨ thr = k

/-- Where the fibers are on their way. -/
structure Aimed (tid : W → ℤ) (s : Sus W) (m : Aims) : Prop where
  queued : ∀ e ∈ s.sys.fibers, ∀ f, e.fiber = some f → e.thread = m f
  held : ∀ w f, (s.sys.pc w).holds f = true → Fits (m f) (tid w)
  body : ∀ w f, s.sys.pc w = .body .fiber f → s.waker f = .none → Fits (m f) (tid w)

variable {tid : W → ℤ} {s t : Sus W} {m : Aims} {f g : FiberId} {v w : W} {q : Pc}

omit [DecidableEq W] in
theorem Aimed.start : Aimed tid (start : Sus W) fun _ => -1 where
  queued := fun _ he => by cases he
  held := fun _ _ _ => .inl rfl
  body := fun _ _ _ _ => .inl rfl

/-- Worker `w` goes to `q`, which holds no fiber and runs no code, and the queue gets entries of no
fiber. -/
theorem Aimed.act (h : Aimed tid s m) (hpc : t.sys.pc = Function.update s.sys.pc w q)
    (hheld : ∀ f, q.holds f = true → (s.sys.pc w).holds f = true)
    (hbody : ∀ f, q ≠ .body .fiber f) (hwk : t.waker = s.waker)
    (hq : ∀ e ∈ t.sys.fibers, ∀ f, e.fiber = some f → e ∈ s.sys.fibers) : Aimed tid t m := by
  refine ⟨fun e he f hf => h.queued e (hq e he f hf) f hf, fun v f hv => ?_, fun v f hv hn => ?_⟩
  · rw [hpc] at hv
    by_cases hvw : v = w
    · rw [hvw, Function.update_self] at hv
      exact hvw ▸ h.held w f (hheld f hv)
    · rw [Function.update_of_ne hvw] at hv
      exact h.held v f hv
  · rw [hpc] at hv
    rw [hwk] at hn
    by_cases hvw : v = w
    · rw [hvw, Function.update_self] at hv
      exact absurd hv (hbody f)
    · rw [Function.update_of_ne hvw] at hv
      exact h.body v f hv hn

omit [DecidableEq W] in
/-- No worker moves. -/
theorem Aimed.still (h : Aimed tid s m) (hpc : t.sys.pc = s.sys.pc)
    (hwk : ∀ f, t.waker f = .none → s.waker f = .none)
    (hq : ∀ e ∈ t.sys.fibers, ∀ f, e.fiber = some f → e ∈ s.sys.fibers) : Aimed tid t m := by
  refine ⟨fun e he f hf => h.queued e (hq e he f hf) f hf, ?_, ?_⟩ <;> rw [hpc]
  · exact h.held
  · exact fun v f hv hn => h.body v f hv (hwk f hn)

omit [DecidableEq W] in
theorem not_queued [Fintype W] {u : Sys W} (h : u.queued f = 0) {e : FiberAndThread}
    (he : e ∈ u.fibers) : e.fiber ≠ some f := by
  intro hf
  unfold Sys.queued at h
  have hz : u.fibers.countP (fun e => decide (e.fiber = some f)) = 0 := by exact_mod_cast h
  exact absurd hf (by simpa using List.countP_eq_zero.1 hz e he)

omit [DecidableEq W] in
theorem not_held [Fintype W] {u : Sys W} (h : u.held f = 0) (w : W) : (u.pc w).holds f = false :=
  (Count.tally_eq_zero_iff _ _).1 h w

omit [DecidableEq W] in
/-- A fiber whose waker has not fired yet is in no queue and in no hand. -/
theorem Inv.tokens_asked [Fintype W] (hi : Inv s) (h : s.waker f = .asked) :
    s.sys.queued f = 0 ∧ s.sys.held f = 0 := by
  have hfi := hi.fiber f
  have ht := hfi.tokens
  have hq : 0 ≤ s.sys.queued f := Int.natCast_nonneg _
  have hh : 0 ≤ s.sys.held f := Count.tally_nonneg _ _
  have hready : ¬ (s.sys.state f = .ready ∧ s.sys.owned f = 0) := by
    rintro ⟨hst, h0⟩
    have hr := hfi.rest h0
    rw [hst, h] at hr
    simp [Rest] at hr
  rw [CoroutineScheduler.tokens, h, if_neg (by rintro ⟨⟩), if_neg hready] at ht
  omega

end Sus

namespace Sys

variable {tid : ℤ} {s t : Sys W} {w : W} {f : FiberId} {p q : Pc} {st : FiberId → FiberState}

theorem holds_afterFiber (ft : FiberAndThread) (f : FiberId) : (afterFiber ft).holds f = false := by
  unfold afterFiber
  split <;> rfl

theorem holds_dispatch {ft : FiberAndThread} (h : (dispatch ft).holds f = true) :
    ft.fiber = some f := by
  unfold dispatch at h
  split at h
  · next g hg =>
    rw [hg]
    exact congrArg some (by simpa [Pc.holds] using h)
  · rw [holds_afterFiber] at h
    cases h

/-- A worker does not come by a dequeued fiber by reading states, and starts no code. -/
theorem Jump.no_new (hj : Jump st p q) :
    (∀ f, q.holds f = true → p.holds f = true) ∧ ∀ f, q ≠ .body .fiber f := by
  cases hj with
  | @isTerm ft f h | @isExcept ft f h =>
    refine ⟨fun f hf => ?_, fun f hf => ?_⟩
    · rw [holds_afterFiber] at hf
      cases hf
    · unfold afterFiber at hf
      split at hf <;> cases hf
  | @swapIn b g h =>
    refine ⟨fun f hf => ?_, by rintro _ ⟨⟩⟩
    cases b <;> simp_all [Pc.holds]
  | _ => exact ⟨by simp [Pc.holds], by rintro _ ⟨⟩⟩

/-- The places from which neither a fiber is resumed nor one is put back. -/
def Plain (p : Pc) : Prop := (∀ b f, p ≠ .enter b f) ∧ ∀ b f, p ≠ .requeue b f

theorem Jump.plain_or (hj : Jump st p q) : Plain p := by
  cases hj <;> exact ⟨by rintro _ _ ⟨⟩, by rintro _ _ ⟨⟩⟩

end Sys

namespace Sus

variable {tid : W → ℤ} {s t : Sus W} {m : Aims} {f g : FiberId} {v w : W} {q : Pc} {u : Sys W}

omit [DecidableEq W] in
theorem resumed_of_plain (h : Sys.Plain (s.sys.pc w)) : s.resumed w = s := by
  unfold resumed
  split
  · next b f hpc => exact absurd hpc (h.1 b f)
  · rfl

omit [DecidableEq W] in
theorem aim_of_plain (h : Sys.Plain (s.sys.pc w)) : s.aim m (.run w) = m := by
  unfold aim
  dsimp only
  split
  · next b f hpc => exact absurd hpc (h.2 b f)
  · rfl

/-- Worker `w` resumes fiber `f`. -/
theorem Aimed.enter [Fintype W] {b : Branch} (h : Aimed tid s m) (hi : Inv s)
    (hpc : s.sys.pc w = .enter b f) :
    Aimed tid { s.resumed w with sys := (s.sys.write f .exec).goto w (.body b f) } m := by
  have hre : (s.resumed w).waker = Function.update s.waker f .none := by
    rw [resumed, hpc]
  refine ⟨fun e he => h.queued e he, fun v g hv => ?_, fun v g hv hn => ?_⟩
  · change (Function.update s.sys.pc w (.body b f) v).holds g = true at hv
    by_cases hvw : v = w
    · rw [hvw, Function.update_self] at hv
      cases hv
    · rw [Function.update_of_ne hvw] at hv
      exact h.held v g hv
  · change Function.update s.sys.pc w (.body b f) v = _ at hv
    change (s.resumed w).waker g = .none at hn
    by_cases hvw : v = w
    · rw [hvw, Function.update_self] at hv
      cases hv
      exact hvw ▸ h.held w f (by rw [hpc]; simp [Pc.holds])
    · rw [Function.update_of_ne hvw] at hv
      have hv' : (s.sys.pc v).owns g = true := by rw [hv]; simp [Pc.owns]
      -- no other worker runs a fiber that `w` is about to resume
      have hgf : g ≠ f := by
        rintro rfl
        cases b with
        | fiber =>
          have hw : (s.sys.pc w).holds g = true := by rw [hpc]; simp [Pc.holds]
          rw [FiberInv.unowned ((hi.fiber g).unowned_of_holds hw) v] at hv'
          cases hv'
        | cb =>
          have hw : (s.sys.pc w).owns g = true := by rw [hpc]; simp [Pc.owns]
          rw [(hi.fiber g).solo hw v hvw] at hv'
          cases hv'
      rw [hre, Function.update_of_ne hgf] at hn
      exact h.body v g hv hn

/-- `run()` puts fiber `f` back, for any thread. -/
theorem Aimed.requeue [Fintype W] {b : Branch} (h : Aimed tid s m) (hi : Inv s)
    (hpc : s.sys.pc w = .requeue b f) :
    Aimed tid { s with sys := (s.sys.schedule (.ofFiber (some f) (-1))).release w b }
      (Function.update m f (-1)) := by
  have hown : (s.sys.pc w).owns f = true := by rw [hpc]; simp [Pc.owns]
  have hwk : s.waker f = .none := by
    have ha := (hi.fiber f).owner w hown
    rw [hpc] at ha
    exact ha.2
  have h0 : s.sys.queued f = 0 := by
    rw [((hi.fiber f).of_owns hown).2, hwk, if_neg (by rintro ⟨⟩)]
  have hfits : ∀ v g, Fits (m g) (tid v) → Fits (Function.update m f (-1) g) (tid v) := by
    intro v g hg
    by_cases hgf : g = f
    · rw [hgf, Function.update_self]
      exact .inl rfl
    · rwa [Function.update_of_ne hgf]
  have hpc' : ∀ v q, ((s.sys.schedule (.ofFiber (some f) (-1))).release w b).pc v = q → q ≠ .scan →
      s.sys.pc v = q := by
    intro v q hv hq
    rw [Sys.release_pc] at hv
    by_cases hvw : v = w
    · rw [hvw, Function.update_self] at hv
      exact absurd hv.symm hq
    · rwa [Function.update_of_ne hvw] at hv
  refine ⟨fun e he g hg => ?_, fun v g hv => ?_, fun v g hv hn => ?_⟩
  · change e ∈ ((s.sys.schedule (.ofFiber (some f) (-1))).release w b).fibers at he
    rw [Sys.release_fibers] at he
    rcases List.mem_append.1 he with hold | hnew
    · have hgf : g ≠ f := by
        rintro rfl
        exact not_queued h0 hold hg
      rw [Function.update_of_ne hgf]
      exact h.queued e hold g hg
    · rw [List.mem_singleton.1 hnew] at hg ⊢
      cases hg
      rw [Function.update_self]
      rfl
  · refine hfits v g (h.held v g ?_)
    change (((s.sys.schedule (.ofFiber (some f) (-1))).release w b).pc v).holds g = true at hv
    rwa [hpc' v _ rfl fun hc => by rw [hc] at hv; cases hv]
  · exact hfits v g (h.body v g (hpc' v _ hv (by rintro ⟨⟩)) hn)

/-- A statement of `run()`. -/
theorem Aimed.run [Fintype W] (h : Aimed tid s m) (hi : Inv s)
    (hu : Sys.RunStep s.sys (tid w) w u) :
    Aimed tid { s.resumed w with sys := u } (s.aim m (.run w)) := by
  have hplain : Sys.Plain (s.sys.pc w) → Aimed tid { s with sys := u } m →
      Aimed tid { s.resumed w with sys := u } (s.aim m (.run w)) := by
    intro hp hgoal
    rwa [resumed_of_plain hp, aim_of_plain hp]
  cases hu with
  | take ft hpc ht =>
    have hspec := scan_spec s.sys.state (tid w) s.sys.fibers
    rw [ht] at hspec
    refine hplain (hpc ▸ ⟨by rintro _ _ ⟨⟩, by rintro _ _ ⟨⟩⟩) ?_
    show Aimed tid { s with sys := { s.sys.goto w (Sys.dispatch ft) with
      fibers := (scan s.sys.state (tid w) s.sys.fibers).fibers, active := s.sys.active + 1 } } m
    generalize (scan s.sys.state (tid w) s.sys.fibers).fibers = rest at hspec
    cases hspec with
    | take pre post _ hsplit he hpre =>
      have hmem : ft ∈ s.sys.fibers := by rw [hsplit]; simp
      refine ⟨fun e hm f hf => h.queued e ?_ f hf, fun v f hv => ?_, fun v f hv hn => ?_⟩
      · rw [hsplit]
        exact List.Sublist.append_left (List.sublist_cons_self ft post) pre |>.subset hm
      · change (Function.update s.sys.pc w (Sys.dispatch ft) v).holds f = true at hv
        by_cases hvw : v = w
        · rw [hvw, Function.update_self] at hv
          have hft := h.queued ft hmem f (Sys.holds_dispatch hv)
          rw [hvw, ← hft]
          exact he.1
        · rw [Function.update_of_ne hvw] at hv
          exact h.held v f hv
      · change Function.update s.sys.pc w (Sys.dispatch ft) v = _ at hv
        by_cases hvw : v = w
        · rw [hvw, Function.update_self] at hv
          unfold Sys.dispatch Sys.afterFiber at hv
          cases hf : ft.fiber <;> cases hc : ft.cb <;> rw [hf] at hv <;> simp [hc] at hv
        · rw [Function.update_of_ne hvw] at hv
          exact h.body v f hv hn
  | nothing hpc ht =>
    have hspec := scan_spec s.sys.state (tid w) s.sys.fibers
    rw [ht] at hspec
    refine hplain (hpc ▸ ⟨by rintro _ _ ⟨⟩, by rintro _ _ ⟨⟩⟩) (h.act rfl (by rintro _ ⟨⟩) (by rintro _ ⟨⟩) rfl fun e he _ _ => ?_)
    change e ∈ (scan s.sys.state (tid w) s.sys.fibers).fibers at he
    generalize (scan s.sys.state (tid w) s.sys.fibers).fibers = rest at hspec he
    cases hspec with
    | nothing hn => exact he
  | jump p hj =>
    exact hplain hj.plain_or (h.act rfl hj.no_new.1 hj.no_new.2 rfl fun _ he _ _ => he)
  | enter b f hpc =>
    rw [show s.aim m (.run w) = m by rw [aim, hpc]]
    exact h.enter hi hpc
  | requeue b f hpc =>
    rw [show s.aim m (.run w) = Function.update m f (-1) by rw [aim, hpc],
      show s.resumed w = s by rw [resumed, hpc]]
    exact h.requeue hi hpc
  | hold b f hpc =>
    refine hplain (hpc ▸ ⟨by rintro _ _ ⟨⟩, by rintro _ _ ⟨⟩⟩) (h.act (Sys.release_pc _ b) (by rintro _ ⟨⟩) (by rintro _ ⟨⟩) rfl ?_)
    intro e he _ _
    change e ∈ ((s.sys.write f .hold).release w b).fibers at he
    rwa [Sys.release_fibers] at he
  | fail hf =>
    refine hplain ?_ (h.still rfl (fun _ => id) fun _ he _ _ => he)
    generalize s.sys.pc w = p, s.sys.cbFiber w = c at hf
    cases hf <;> exact ⟨by rintro _ _ ⟨⟩, by rintro _ _ ⟨⟩⟩
  | reuse _ _ hpc | fresh _ hpc | back _ _ hpc | recycle _ hpc | drop hpc | quit hpc | idle hpc =>
    exact hplain (hpc ▸ ⟨by rintro _ _ ⟨⟩, by rintro _ _ ⟨⟩⟩) (h.act rfl (by rintro _ ⟨⟩) (by rintro _ ⟨⟩) rfl fun _ he _ _ => he)

omit [DecidableEq W] in
/-- A fiber is sent to thread `thr`. -/
theorem Aimed.wake [Fintype W] (h : Aimed tid s m) (hi : Inv s) (hwk : s.waker f = .asked) (thr : ℤ) :
    Aimed tid { s with
      sys := s.sys.schedule (.ofFiber (some f) thr)
      waker := Function.update s.waker f .fired } (Function.update m f thr) := by
  obtain ⟨hq, hheld⟩ := hi.tokens_asked hwk
  refine ⟨fun e he g hg => ?_, fun v g hv => ?_, fun v g hv hn => ?_⟩
  · rcases List.mem_append.1 he with hold | hnew
    · have hgf : g ≠ f := by
        rintro rfl
        exact not_queued hq hold hg
      rw [Function.update_of_ne hgf]
      exact h.queued e hold g hg
    · rw [List.mem_singleton.1 hnew] at hg ⊢
      cases hg
      rw [Function.update_self]
      rfl
  · have hgf : g ≠ f := by
      rintro rfl
      exact Bool.false_ne_true ((not_held hheld v).symm.trans hv)
    rw [Function.update_of_ne hgf]
    exact h.held v g hv
  · have hgf : g ≠ f := by
      rintro rfl
      change Function.update s.waker g .fired g = .none at hn
      rw [Function.update_self] at hn
      cases hn
    change Function.update s.waker f .fired g = .none at hn
    rw [Function.update_of_ne hgf] at hn ⊢
    exact h.body v g hv hn

/-- The code of a fiber yields or ends. -/
theorem Aimed.leave {b : Branch} {st : FiberState} (h : Aimed tid s m) (fn : FiberId → Option Callback) :
    Aimed tid { s with sys := (Sys.write { s.sys with fn := fn } f st).goto w (.leave b f) } m :=
  h.act rfl (by rintro _ ⟨⟩) (by rintro _ ⟨⟩) rfl fun _ he _ _ => he

theorem Aimed.step [Fintype W] {a : Act W} (h : Aimed tid s m) (hi : Inv s) (hok : s.Disciplined a)
    (hs : s.step tid a = some t) : Aimed tid t (s.aim m a) := by
  have habort : Aimed tid { s with sys := s.sys.abort } m :=
    h.still rfl (fun _ => id) fun _ he _ _ => he
  cases a with
  | create c =>
    obtain ⟨_, hl, rfl⟩ := Option.map_eq_some_iff.1 hs
    obtain ⟨u, hu, rfl⟩ := Inv.lift_cases hl
    cases hu with
    | newFiber =>
      refine h.still rfl (fun g hg => ?_) fun _ he _ _ => he
      change Function.update s.waker (s.sys.lastId + 1) .asked g = .none at hg
      by_cases hgl : g = s.sys.lastId + 1
      · rw [hgl, Function.update_self] at hg
        cases hg
      · rwa [Function.update_of_ne hgl] at hg
    | yieldFail v b f hpc hst ha => rcases ha with ha | ha <;> cases ha
  | post ft =>
    obtain ⟨u, hu, rfl⟩ := Inv.lift_cases hs
    cases hu with
    | schedule =>
      refine h.still rfl (fun _ => id) fun e he f hf => ?_
      rw [show (s.sys.schedule ft).fibers = _ from scheduleNoLock_fibers _ _] at he
      rcases List.mem_append.1 he with hold | hnew
      · exact hold
      · rw [List.mem_singleton.1 (List.mem_of_mem_filter hnew), hok] at hf
        cases hf
    | yieldFail => exact habort
  | postRange fts =>
    obtain ⟨u, hu, rfl⟩ := Inv.lift_cases hs
    cases hu with
    | scheduleRange =>
      refine h.still rfl (fun _ => id) fun e he f hf => ?_
      rw [show _ = _ from scheduleRange_fibers s.sys.fibers fts false] at he
      rcases List.mem_append.1 he with hold | hnew
      · exact hold
      · rw [hok e (List.mem_of_mem_filter hnew)] at hf
        cases hf
    | yieldFail => exact habort
  | publish w =>
    simp only [Sus.step, Sus.publish] at hs
    split at hs
    · next b f hpc =>
      cases hs
      refine h.still rfl (fun g hg => ?_) fun _ he _ _ => he
      change Function.update s.waker f .asked g = .none at hg
      by_cases hgf : g = f
      · rw [hgf, Function.update_self] at hg
        cases hg
      · rwa [Function.update_of_ne hgf] at hg
    · cases hs
  | wake f thr =>
    obtain ⟨_, hl, rfl⟩ := Option.map_eq_some_iff.1 hs
    obtain ⟨u, hu, rfl⟩ := Inv.lift_cases hl
    cases hu with
    | schedule => exact h.wake hi hok thr
    | yieldFail v b g hpc hst ha => rcases ha with ha | ha <;> cases ha
  | run w =>
    obtain ⟨u, hu, rfl⟩ := Inv.lift_cases hs
    cases hu with
    | run _ _ hrun =>
      have hsys : (s.resumed w).sys = s.sys := by
        unfold Sus.resumed
        split <;> rfl
      rw [hsys] at hrun
      exact h.run hi hrun
    | yieldFail v b f hpc hst ha => rcases ha with ha | ha <;> cases ha
  | yieldToReady w =>
    obtain ⟨u, hu, rfl⟩ := Inv.lift_cases hs
    cases hu with
    | yieldToReady => exact h.leave s.sys.fn
    | yieldFail => exact habort
  | yieldToHold w =>
    obtain ⟨u, hu, rfl⟩ := Inv.lift_cases hs
    cases hu with
    | yieldToHold => exact h.leave s.sys.fn
    | yieldFail => exact habort
  | finish w =>
    obtain ⟨u, hu, rfl⟩ := Inv.lift_cases hs
    cases hu with
    | finish => exact h.leave _
    | yieldFail => exact habort
  | throw w =>
    obtain ⟨u, hu, rfl⟩ := Inv.lift_cases hs
    cases hu with
    | throw => exact h.leave s.sys.fn
    | yieldFail => exact habort
  | idleOut w o =>
    obtain ⟨u, hu, rfl⟩ := Inv.lift_cases hs
    cases hu with
    | idleOut => exact h.act rfl (by rintro _ ⟨⟩) (by rintro _ ⟨⟩) rfl fun _ he _ _ => he
    | yieldFail => exact habort

end Sus

/-- **A fiber goes on where it was sent.** In every run in which each suspension has one waker, a fiber
that a waker has sent to a thread with `schedule(fiber, thread)`, or that has sent itself there with
`switchTo(thread)`, runs on that thread until it is handed to a waker again or ends. -/
theorem sent_to [Fintype W] (tid : W → ℤ) {s : Sus W} {m : Aims}
    (hr : Reach (Sus.stepA tid) Sus.DisciplinedA (Sus.start, fun _ => -1) (s, m)) {w : W} {f : FiberId}
    (hpc : s.sys.pc w = .body .fiber f) (hwk : s.waker f = .none) : m f = -1 ∨ m f = tid w := by
  have hinv : Sus.Inv s ∧ Sus.Aimed tid s m := by
    refine hr.invariant (I := fun p => Sus.Inv p.1 ∧ Sus.Aimed tid p.1 p.2)
      ⟨Sus.Inv.start, Sus.Aimed.start⟩ ?_
    rintro ⟨s, m⟩ a ⟨t, m'⟩ ⟨hi, h⟩ hok hst
    obtain ⟨u, hu, he⟩ := Option.map_eq_some_iff.1 hst
    cases he
    exact ⟨hi.step hok hu, h.step hi hok hu⟩
  exact hinv.2.body w f hpc hwk

/-- Fiber 1 starts on thread 10, calls `switchTo(11)` and goes on there. -/
theorem sent_to_second : ∃ x : Sus (Fin 2) × Aims, x.1.sys.pc 1 = .body .fiber 1 ∧ x.2 1 = 11 ∧
    (x.2 1 = -1 ∨ x.2 1 = ((1 : Fin 2).val : ℤ) + 10) := by
  have hr := reach_exec (Sus.stepA fun w : Fin 2 => (w.val : ℤ) + 10) Sus.DisciplinedA
    (Sus.start, fun _ => -1)
    [.create 7, .wake 1 10, .run 0, .run 0, .run 0, .run 0, .run 0, .publish 0, .wake 1 11,
      .yieldToHold 0, .run 0, .run 0, .run 0, .run 0, .run 0, .run 0,
      .run 1, .run 1, .run 1, .run 1, .run 1] (by decide)
  have hsent : ∀ x, Reach (Sus.stepA fun w : Fin 2 => (w.val : ℤ) + 10) Sus.DisciplinedA
      (Sus.start, fun _ => -1) x → x.1.sys.pc 1 = .body .fiber 1 → x.1.waker 1 = .none →
      (x.2 1 = -1 ∨ x.2 1 = ((1 : Fin 2).val : ℤ) + 10) :=
    fun x hx => sent_to _ (s := x.1) (m := x.2) hx
  refine ⟨_, ?_, ?_, hsent _ hr ?_ ?_⟩ <;> decide

end CoroutineScheduler
