import CoroutineScheduler.Scheduler.Run

/-!
# The queue is drained

A worker whose idle fiber has ended still takes tasks, and leaves `run()` only from a scan that takes
nothing. While a task is queued there is a worker that will scan again (`Drains.queued`): whoever
schedules a task is such a worker, and a scan that takes nothing leaves behind only tasks whose fiber
is being executed, by a worker that will scan again.
-/

namespace CoroutineScheduler

/-- The worker has set the state of `f` to `EXEC` and not yet to anything else. -/
def Pc.inCharge (f : FiberId) : Pc → Bool
  | body _ g | leave _ g | back _ g | first _ g | second _ g | third _ g | hold _ g => g = f
  | _ => false

namespace Sys

variable {W : Type}

/-- The worker will scan the queue again. -/
def Awake (s : Sys W) (w : W) : Prop :=
  s.pc w ≠ .left ∧ ¬ (s.pc w = .idleTest ∧ s.idleFiber w = .term)

/-- The idle fiber of the worker has ended, or the worker has left. -/
def Ended (s : Sys W) (w : W) : Prop := s.idleFiber w = .term ∨ s.pc w = .left

/-- A fiber in state `EXEC` is in the charge of a worker. -/
def Charged (s : Sys W) : Prop := ∀ f, s.state f = .exec → ∃ w, (s.pc w).inCharge f = true

/-- What the workers owe to the queue, before and after `stop`. -/
structure Drains (stopping : Bool) (s : Sys W) : Prop where
  before : stopping = false → ∀ w, ¬ s.Ended w
  queued : s.fibers ≠ [] → ∃ w, s.Awake w
  /-- once a worker has found the queue empty, tasks are for any thread -/
  anyThread : ∀ w, s.Ended w → ∀ e ∈ s.fibers, e.thread = -1
  charged : s.Charged

theorem Drains.start : Drains false (Sys.start : Sys W) where
  before := fun _ w hw => by rcases hw with h | h <;> cases h
  queued := fun h => absurd rfl h
  anyThread := fun _ _ _ he => by cases he
  charged := fun _ h => by cases h

theorem Drains.stop {b : Bool} {s : Sys W} (h : Drains b s) : Drains true s :=
  ⟨nofun, h.queued, h.anyThread, h.charged⟩

variable [DecidableEq W] {b : Bool} {s t : Sys W} {w : W} {q : Pc} {tid : ℤ}

/-! ## Who is in charge -/

/-- Worker `w` goes to `q`, and the fibers that are in state `EXEC` afterwards are in its charge or
were in that of another worker. -/
theorem Charged.act (h : s.Charged) (hpc : t.pc = Function.update s.pc w q)
    (hst : ∀ f, t.state f = .exec →
      q.inCharge f = true ∨ (s.state f = .exec ∧ (s.pc w).inCharge f = false)) : t.Charged := by
  intro f hf
  rcases hst f hf with hq | ⟨hs, hw⟩
  · exact ⟨w, by rw [hpc, Function.update_self]; exact hq⟩
  · obtain ⟨v, hv⟩ := h f hs
    have hne : v ≠ w := by
      rintro rfl
      rw [hw] at hv
      cases hv
    exact ⟨v, by rw [hpc, Function.update_of_ne hne]; exact hv⟩

/-- The same, for a step that leaves the states alone. -/
theorem Charged.goto (h : s.Charged) (hpc : t.pc = Function.update s.pc w q)
    (hst : t.state = s.state)
    (hq : ∀ f, s.state f = .exec → (s.pc w).inCharge f = true → q.inCharge f = true) : t.Charged := by
  refine h.act hpc fun f hf => ?_
  rw [hst] at hf
  cases hw : (s.pc w).inCharge f with
  | false => exact .inr ⟨hf, rfl⟩
  | true => exact .inl (hq f hf hw)

omit [DecidableEq W] in
theorem exec_of_update {f g : FiberId} {st : FiberState}
    (h : Function.update s.state f st g = .exec) (hst : st ≠ .exec) : g ≠ f ∧ s.state g = .exec := by
  by_cases hg : g = f
  · rw [hg, Function.update_self] at h
    exact absurd h hst
  · rw [Function.update_of_ne hg] at h
    exact ⟨hg, h⟩

/-- A worker leaves its fiber only once the state is no longer `EXEC`. -/
theorem Jump.inCharge {st : FiberId → FiberState} {p : Pc} {f : FiberId} (hj : Jump st p q)
    (hf : st f = .exec) (hp : p.inCharge f = true) : q.inCharge f = true := by
  cases hj <;> simp_all [Pc.inCharge]

theorem Charged.run (h : s.Charged) (hs : RunStep s tid w t) : t.Charged := by
  cases hs with
  | take ft hpc ht => exact h.goto rfl rfl fun f _ hf => by rw [hpc] at hf; cases hf
  | nothing hpc ht => exact h.goto rfl rfl fun f _ hf => by rw [hpc] at hf; cases hf
  | jump p hj => exact h.goto rfl rfl fun f hx hf => hj.inCharge hx hf
  | reuse c f hpc hcb hst =>
    refine h.act rfl fun g hg => .inr ?_
    rw [hpc]
    exact ⟨(exec_of_update hg nofun).2, rfl⟩
  | fresh c hpc hcb =>
    refine h.act rfl fun g hg => .inr ?_
    rw [hpc]
    exact ⟨(exec_of_update hg nofun).2, rfl⟩
  | enter c f hpc =>
    refine h.act rfl fun g hg => ?_
    by_cases hgf : g = f
    · exact .inl (by simp [Pc.inCharge, hgf])
    · rw [hpc]
      exact .inr ⟨(Function.update_of_ne hgf _ _).symm.trans hg, rfl⟩
  | back c f hpc => exact h.goto rfl rfl fun g _ hg => by rw [hpc] at hg; exact hg
  | requeue c f hpc =>
    refine h.goto (release_pc _ c) (release_state _ c) fun g _ hg => ?_
    rw [hpc] at hg
    cases hg
  | recycle f hpc hst =>
    refine h.act rfl fun g hg => .inr ?_
    rw [hpc]
    exact ⟨(exec_of_update hg nofun).2, rfl⟩
  | hold c f hpc =>
    refine h.act (release_pc _ c) fun g hg => .inr ?_
    rw [release_state] at hg
    obtain ⟨hne, hg⟩ := exec_of_update hg nofun
    rw [hpc]
    exact ⟨hg, by simp [Pc.inCharge, hne.symm]⟩
  | drop hpc => exact h.goto rfl rfl fun f _ hf => by rw [hpc] at hf; cases hf
  | quit hpc hi => exact h.goto rfl rfl fun f _ hf => by rw [hpc] at hf; cases hf
  | idle hpc hi => exact h.goto rfl rfl fun f _ hf => by rw [hpc] at hf; cases hf
  | fail hf => exact h

/-! ## What a step leaves alone -/

/-- The code of the fiber on worker `w` yields or ends, or fails an assertion. -/
def Leaves (s : Sys W) (w : W) (t : Sys W) : Prop :=
  t = s.abort ∨ ∃ b f st, s.pc w = .body b f ∧ t.pc = Function.update s.pc w (.leave b f) ∧
    t.state = Function.update s.state f st ∧ t.fibers = s.fibers ∧ t.idleFiber = s.idleFiber

theorem leaveStep_leaves {st : FiberState} (hs : s.leaveStep w st = some t) : Leaves s w t := by
  obtain ⟨b, f, hpc, rfl⟩ := leaveStep_cases hs
  exact .inr ⟨b, f, st, hpc, rfl, rfl, rfl, rfl⟩

theorem yieldStep_leaves {st : FiberState} (hs : s.yieldStep w st = some t) : Leaves s w t := by
  obtain ⟨b, f, hpc, ⟨-, rfl⟩ | ⟨-, rfl⟩⟩ := yieldStep_cases hs
  · exact .inr ⟨b, f, st, hpc, rfl, rfl, rfl, rfl⟩
  · exact .inl rfl

theorem finishStep_leaves (hs : s.finishStep w = some t) : Leaves s w t := by
  unfold finishStep at hs
  split at hs
  · next b f hpc =>
    obtain ⟨d, g, hpc', rfl⟩ := leaveStep_cases hs
    exact .inr ⟨d, g, .term, hpc', rfl, rfl, rfl, rfl⟩
  · cases hs

theorem idleOutStep_cases {o : IdleOut} (hs : s.idleOutStep w o = some t) : s.pc w = .idling ∧
    t = { s.goto w .scan with
      idle := s.idle - 1, idleFiber := Function.update s.idleFiber w o.state } := by
  unfold idleOutStep at hs
  split at hs
  · next hpc => exact ⟨hpc, (Option.some.inj hs).symm⟩
  · cases hs

/-- Worker `w` goes to `q`, and no idle fiber ends. -/
theorem Ended.of_update {v : W} (hv : t.Ended v) (hpc : t.pc = Function.update s.pc w q)
    (hidle : ∀ u, t.idleFiber u = .term → s.idleFiber u = .term)
    (hq : q = .left → s.idleFiber w = .term) : s.Ended v := by
  rcases hv with hv | hv
  · exact .inl (hidle v hv)
  · rw [hpc] at hv
    by_cases hvw : v = w
    · rw [hvw, Function.update_self] at hv
      exact .inl (hvw ▸ hq hv)
    · rw [Function.update_of_ne hvw] at hv
      exact .inr hv

theorem term_of_update {v : W} {st : FiberState}
    (h : Function.update s.idleFiber w st v = .term) (hst : st ≠ .term) :
    v ≠ w ∧ s.idleFiber v = .term := by
  by_cases hvw : v = w
  · rw [hvw, Function.update_self] at h
    exact absurd h hst
  · rw [Function.update_of_ne hvw] at h
    exact ⟨hvw, h⟩

theorem Jump.target {st : FiberId → FiberState} {p : Pc} (hj : Jump st p q) :
    q ≠ .left ∧ q ≠ .idleTest := by
  have hafter : ∀ ft, afterFiber ft ≠ .left ∧ afterFiber ft ≠ .idleTest := by
    intro ft
    unfold afterFiber
    cases ft.cb <;> exact ⟨nofun, nofun⟩
  cases hj <;> first | exact hafter _ | exact ⟨nofun, nofun⟩

theorem dispatch_target (ft : FiberAndThread) : dispatch ft ≠ .left ∧ dispatch ft ≠ .idleTest := by
  unfold dispatch afterFiber
  cases ft.fiber <;> cases ft.cb <;> exact ⟨nofun, nofun⟩

theorem RunStep.pc_of_ne (hs : RunStep s tid w t) {v : W} (hv : v ≠ w) : t.pc v = s.pc v := by
  cases hs with
  | requeue c f hpc =>
    rw [release_pc]
    exact Function.update_of_ne hv _ _
  | hold c f hpc =>
    rw [release_pc]
    exact Function.update_of_ne hv _ _
  | fail hf => rfl
  | _ => exact Function.update_of_ne hv _ _

/-- No statement of `run()` ends an idle fiber, and a worker leaves only after its own has ended. -/
theorem RunStep.ended (hs : RunStep s tid w t) {v : W} (hv : t.Ended v) : s.Ended v := by
  cases hs with
  | take ft hpc ht =>
    exact hv.of_update rfl (fun _ => id) fun hl => absurd hl (dispatch_target ft).1
  | jump p hj => exact hv.of_update rfl (fun _ => id) fun hl => absurd hl hj.target.1
  | requeue c f hpc =>
    exact hv.of_update (release_pc _ c) (fun u hu => by rwa [release_idleFiber] at hu) nofun
  | hold c f hpc =>
    exact hv.of_update (release_pc _ c) (fun u hu => by rwa [release_idleFiber] at hu) nofun
  | quit hpc hi => exact hv.of_update rfl (fun _ => id) fun _ => hi
  | idle hpc hi => exact hv.of_update rfl (fun u hu => (term_of_update hu nofun).2) nofun
  | fail hf => exact hv
  | _ => exact hv.of_update rfl (fun _ => id) nofun

/-! ## The steps -/

namespace Drains

/-- Worker `w` acts and stays awake. What it adds to the queue is for any thread, unless the
scheduler has not been stopped. -/
theorem act (h : Drains b s) (hpc : t.pc = Function.update s.pc w q) (hleft : q ≠ .left)
    (htest : q ≠ .idleTest) (hidle : ∀ v, t.idleFiber v = .term → s.idleFiber v = .term)
    (hfibers : ∀ e ∈ t.fibers, e ∈ s.fibers ∨ e.thread = -1 ∨ b = false) (hcharged : t.Charged) :
    Drains b t := by
  have hended : ∀ v, t.Ended v → s.Ended v := fun v hv =>
    hv.of_update hpc hidle fun hl => absurd hl hleft
  refine ⟨fun hb v hv => h.before hb v (hended v hv), fun _ => ⟨w, ?_⟩, fun v hv e he => ?_, hcharged⟩
  · unfold Awake
    rw [hpc, Function.update_self]
    exact ⟨hleft, fun hc => htest hc.1⟩
  · rcases hfibers e he with he | he | hb
    · exact h.anyThread v (hended v hv) e he
    · exact he
    · exact absurd (hended v hv) (h.before hb v)

omit [DecidableEq W] in
/-- The queue changes while a worker is awake. -/
theorem setFibers (h : Drains b s) {fibers : List FiberAndThread} (hw : s.Awake w)
    (hfibers : ∀ e ∈ fibers, e ∈ s.fibers ∨ e.thread = -1 ∨ b = false) :
    Drains b { s with fibers := fibers } := by
  refine ⟨h.before, fun _ => ⟨w, hw⟩, fun v hv e he => ?_, h.charged⟩
  rcases hfibers e he with he | he | hb
  · exact h.anyThread v hv e he
  · exact he
  · exact absurd hv (h.before hb v)

omit [DecidableEq W] in
/-- While the queue is empty, workers may leave and their idle fibers may end. -/
theorem of_empty (hfibers : t.fibers = []) (hcharged : t.Charged) : Drains true t := by
  refine ⟨nofun, fun hne => absurd hfibers hne, fun v _ e he => ?_, hcharged⟩
  rw [hfibers] at he
  cases he

/-- A worker that takes nothing: what is left in the queue is being executed. -/
theorem nothing (h : Drains b s) (hpc : s.pc w = .scan)
    (hnone : ∀ e ∈ s.fibers, ¬ Eligible s.state tid e) : Drains b (s.goto w .idleTest) := by
  have hended : ∀ v, (s.goto w .idleTest).Ended v → s.Ended v := fun v hv =>
    hv.of_update rfl (fun _ => id) nofun
  refine ⟨fun hb v hv => h.before hb v (hended v hv), fun hne => ?_,
    fun v hv => h.anyThread v (hended v hv),
    h.charged.goto rfl rfl fun f _ hf => by rw [hpc] at hf; cases hf⟩
  by_cases hterm : s.idleFiber w = .term
  · obtain ⟨e, he⟩ := List.exists_mem_of_ne_nil _ hne
    have hthread : e.thread = -1 := h.anyThread w (.inl hterm) e he
    have hexec : ∃ f, e.fiber = some f ∧ s.state f = .exec := by
      by_contra hc
      push Not at hc
      exact hnone e he ⟨.inl hthread, hc⟩
    obtain ⟨f, -, hf⟩ := hexec
    obtain ⟨v, hv⟩ := h.charged f hf
    have hvw : v ≠ w := by
      rintro rfl
      rw [hpc] at hv
      cases hv
    refine ⟨v, ?_⟩
    unfold Awake
    rw [goto_pc_of_ne hvw]
    refine ⟨fun hc => ?_, fun hc => ?_⟩
    · rw [hc] at hv
      cases hv
    · rw [hc.1] at hv
      cases hv
  · refine ⟨w, fun hc => ?_, fun hc => hterm hc.2⟩
    rw [goto_pc_self] at hc
    cases hc

/-- A worker leaves that has not been awake. -/
theorem quit (h : Drains b s) (hpc : s.pc w = .idleTest) (hi : s.idleFiber w = .term) :
    Drains b (s.goto w .left) := by
  have hb : b = true := by
    by_contra hb
    exact h.before (by simpa using hb) w (.inl hi)
  refine ⟨fun hb' => absurd (hb.symm.trans hb') nofun, fun hne => ?_,
    fun _ _ => h.anyThread w (.inl hi),
    h.charged.goto rfl rfl fun f _ hf => by rw [hpc] at hf; cases hf⟩
  obtain ⟨v, hv⟩ := h.queued hne
  have hvw : v ≠ w := by
    rintro rfl
    exact hv.2 ⟨hpc, hi⟩
  refine ⟨v, ?_⟩
  unfold Awake
  rw [goto_pc_of_ne hvw]
  exact hv

/-- Every statement of `run()`. -/
theorem run (h : Drains b s) (hs : RunStep s tid w t) : Drains b t := by
  have hcharged := h.charged.run hs
  have hsame : ∀ e ∈ s.fibers, e ∈ s.fibers ∨ e.thread = -1 ∨ b = false := fun _ => .inl
  cases hs with
  | take ft hpc ht =>
    refine h.act rfl (dispatch_target ft).1 (dispatch_target ft).2 (fun _ => id) (fun e he => ?_) hcharged
    have hspec := scan_spec s.state tid s.fibers
    rw [ht] at hspec
    have he : e ∈ (scan s.state tid s.fibers).fibers := he
    generalize (scan s.state tid s.fibers).fibers = rest at hspec he
    cases hspec with
    | take pre post _ hsplit hx hpre =>
      rw [hsplit]
      exact .inl (List.Sublist.append_left (List.sublist_cons_self ft post) pre |>.subset he)
  | nothing hpc ht =>
    have hspec := scan_spec s.state tid s.fibers
    rw [ht] at hspec
    generalize hrest : (scan s.state tid s.fibers).fibers = rest at hspec
    cases hspec with
    | nothing hn => exact h.nothing hpc hn
  | jump p hj => exact h.act rfl hj.target.1 hj.target.2 (fun _ => id) hsame hcharged
  | reuse c f hpc hcb hst => exact h.act rfl nofun nofun (fun _ => id) hsame hcharged
  | fresh c hpc hcb => exact h.act rfl nofun nofun (fun _ => id) hsame hcharged
  | enter c f hpc => exact h.act rfl nofun nofun (fun _ => id) hsame hcharged
  | back c f hpc => exact h.act rfl nofun nofun (fun _ => id) hsame hcharged
  | requeue c f hpc =>
    refine h.act (release_pc _ c) nofun nofun (fun v hv => by rwa [release_idleFiber] at hv)
      (fun e he => ?_) hcharged
    rw [release_fibers] at he
    rcases List.mem_append.1 he with he | he
    · exact .inl he
    · rw [List.mem_singleton.1 he]
      exact .inr (.inl rfl)
  | recycle f hpc hst => exact h.act rfl nofun nofun (fun _ => id) hsame hcharged
  | hold c f hpc =>
    refine h.act (release_pc _ c) nofun nofun (fun v hv => by rwa [release_idleFiber] at hv)
      (fun e he => ?_) hcharged
    rw [release_fibers] at he
    exact .inl he
  | drop hpc => exact h.act rfl nofun nofun (fun _ => id) hsame hcharged
  | quit hpc hi => exact h.quit hpc hi
  | idle hpc hi =>
    exact h.act rfl nofun nofun (fun v hv => (term_of_update hv nofun).2) hsame hcharged
  | fail hf => exact ⟨h.before, h.queued, h.anyThread, h.charged⟩

/-! ## The other steps -/

theorem leave (h : Drains b s) (hs : Leaves s w t) : Drains b t := by
  rcases hs with rfl | ⟨d, f, st, hpc, hto, hst, hfibers, hidle⟩
  · exact ⟨h.before, h.queued, h.anyThread, h.charged⟩
  · refine h.act hto nofun nofun (fun v hv => by rwa [hidle] at hv) (fun e he => ?_)
      (h.charged.act hto fun g hg => ?_)
    · rw [hfibers] at he
      exact .inl he
    · by_cases hgf : g = f
      · exact .inl (by simp [Pc.inCharge, hgf])
      · rw [hst, Function.update_of_ne hgf] at hg
        rw [hpc]
        exact .inr ⟨hg, by simp [Pc.inCharge, Ne.symm hgf]⟩

omit [DecidableEq W] in
theorem newFiber (h : Drains b s) (c : Callback) : Drains b (s.newFiber c) :=
  ⟨h.before, h.queued, h.anyThread, fun f hf => h.charged f (exec_of_update hf nofun).2⟩

/-- The idle fiber comes back to `run()`. -/
theorem idleYield (h : Drains b s) (hs : s.idleOutStep w .yield = some t) : Drains b t := by
  obtain ⟨hpc, rfl⟩ := idleOutStep_cases hs
  exact h.act rfl nofun nofun (fun v hv => (term_of_update hv nofun).2) (fun _ => .inl)
    (h.charged.goto rfl rfl fun f _ hf => by rw [hpc] at hf; cases hf)

/-- The idle fiber ends while the queue is empty. -/
theorem idleTerm (h : Drains b s) (hb : b = true) (hempty : s.fibers = [])
    (hs : s.idleOutStep w .term = some t) : Drains b t := by
  obtain ⟨hpc, rfl⟩ := idleOutStep_cases hs
  rw [hb]
  exact of_empty hempty (h.charged.goto rfl rfl fun f _ hf => by rw [hpc] at hf; cases hf)

end Drains

end Sys

end CoroutineScheduler
