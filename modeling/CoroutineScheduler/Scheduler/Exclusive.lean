import CoroutineScheduler.Scheduler.Suspend

/-!
# A fiber never runs on two workers at once

The invariant behind `Sus.Exclusive`. A fiber has an owner, the worker that has resumed it and is not
yet done with its state, or it rests. Its wake-up is a token: in the queue, or with the one worker
that has dequeued it (`FiberInv.tokens`). Since the scan passes over fibers in state `EXEC`, and an
owned fiber with a wake-up outstanding is in that state until its owner stores `HOLD`
(`Allowed`), no worker takes the token of an owned fiber.

`run_exclusive`: in every run that keeps to the protocol, `Sus.Exclusive` holds in every state.
-/

namespace CoroutineScheduler

open Trans

/-! ## The invariant of one fiber -/

/-- The states of a fiber that nobody owns. -/
def Rest (st : FiberState) (wk : Waker) : Prop :=
  st = .init ∨ st = .hold ∨ ((st = .ready ∨ st = .term ∨ st = .except) ∧ wk = .none)

/-- The states of a fiber whose owner is at `p`. -/
def Allowed (p : Pc) (st : FiberState) (wk : Waker) : Prop :=
  match p with
  | .swapIn .cb _ | .enter .cb _ => st = .init ∧ wk = .none
  | .body _ _ => st = .exec
  | .leave _ _ | .back _ _ | .first _ _ =>
    (st = .exec ∧ wk ≠ .none) ∨ ((st = .ready ∨ st = .term ∨ st = .except) ∧ wk = .none)
  | .second _ _ => (st = .exec ∧ wk ≠ .none) ∨ ((st = .term ∨ st = .except) ∧ wk = .none)
  | .third .fiber _ => (st = .exec ∧ wk ≠ .none) ∨ (st = .except ∧ wk = .none)
  | .third .cb _ => (st = .exec ∧ wk ≠ .none) ∨ (st = .term ∧ wk = .none)
  | .requeue _ _ => st = .ready ∧ wk = .none
  | .recycle _ => (st = .term ∨ st = .except) ∧ wk = .none
  | .hold _ _ => st = .exec ∧ wk ≠ .none
  | _ => True

/-- The fiber that the worker runs or has dequeued. -/
def Pc.about : Pc → Option FiberId
  | testTerm _ f | testExcept _ f | swapIn _ f | enter _ f | body _ f | leave _ f | back _ f
  | first _ f | second _ f | third _ f | requeue _ f | recycle f | hold _ f => some f
  | _ => none

/-- The wake-ups outstanding of a fiber with `o` owners: the one its waker gave, and the one of
`run()` for a fiber that has yielded by `YieldToReady`. -/
def tokens (st : FiberState) (wk : Waker) (o : ℤ) : ℤ :=
  (if wk = .fired then 1 else 0) + if st = .ready ∧ o = 0 then 1 else 0

variable {W : Type} [DecidableEq W] [Fintype W]

/-- The invariant of fiber `f`. -/
structure FiberInv (s : Sus W) (f : FiberId) : Prop where
  own_le : s.sys.owned f ≤ 1
  tokens : s.sys.queued f + s.sys.held f = tokens (s.sys.state f) (s.waker f) (s.sys.owned f)
  held_own : 0 < s.sys.held f → s.sys.owned f = 0
  rest : s.sys.owned f = 0 → Rest (s.sys.state f) (s.waker f)
  owner : ∀ w, (s.sys.pc w).owns f = true → Allowed (s.sys.pc w) (s.sys.state f) (s.waker f)
  resumer : ∀ w, (s.sys.pc w).resumed f = true → s.resumer f = some w

/-- An owned fiber whose waker has fired is in state `EXEC`. -/
theorem exec_of_fired {p : Pc} {f : FiberId} {st : FiberState} (hp : p.owns f = true)
    (h : Allowed p st .fired) : st = .exec := by
  cases p with
  | swapIn b g | enter b g | third b g => cases b <;> simp_all [Allowed, Pc.owns]
  | _ => simp_all [Allowed, Pc.owns]

theorem Pc.owns_of_holds {p : Pc} {f : FiberId} (h : p.holds f = true) : p.owns f = false := by
  unfold Pc.holds at h
  split at h <;> simp_all [Pc.owns]

theorem Pc.owns_of_resumed {p : Pc} {f : FiberId} (h : p.resumed f = true) : p.owns f = true := by
  unfold Pc.resumed at h
  split at h <;> simp_all [Pc.owns]

theorem Pc.resumed_of_executes {p : Pc} {f : FiberId} (h : p.executes f = true) :
    p.resumed f = true := by
  unfold Pc.executes at h
  split at h <;> simp_all [Pc.resumed]

theorem Pc.owns_of_ownsCb {p : Pc} {f : FiberId} (h : p.ownsCb f = true) : p.owns f = true := by
  unfold Pc.ownsCb at h
  split at h <;> simp_all [Pc.owns]

theorem Pc.ownsCb_eq_false {p : Pc} {f : FiberId} (h : p.owns f = false) : p.ownsCb f = false := by
  by_contra hc
  rw [Pc.owns_of_ownsCb (by simpa using hc)] at h
  cases h

theorem Pc.about_of_owns {p : Pc} {f : FiberId} (h : p.owns f = true) : p.about = some f := by
  unfold Pc.owns at h
  split at h <;> simp_all [Pc.about]

theorem Pc.about_of_holds {p : Pc} {f : FiberId} (h : p.holds f = true) : p.about = some f := by
  unfold Pc.holds at h
  split at h <;> simp_all [Pc.about]

theorem Pc.not_about {p : Pc} {g : FiberId} (h : p.about ≠ some g) :
    p.owns g = false ∧ p.holds g = false := by
  refine ⟨?_, ?_⟩
  · by_contra hc
    exact h (Pc.about_of_owns (by simpa using hc))
  · by_contra hc
    exact h (Pc.about_of_holds (by simpa using hc))

namespace FiberInv

variable {s t : Sus W} {f g : FiberId} {w : W} {p : Pc}

omit [DecidableEq W] in
/-- The owner of a fiber is its only owner. -/
theorem solo (h : FiberInv s f) (hw : (s.sys.pc w).owns f = true) :
    ∀ v, v ≠ w → (s.sys.pc v).owns f = false := by
  intro v hv
  by_contra hc
  exact hv (Count.eq_of_tally_le_one h.own_le (by simpa using hc) hw)

omit [DecidableEq W] in
theorem unowned (h : s.sys.owned f = 0) (v : W) : (s.sys.pc v).owns f = false :=
  (Count.tally_eq_zero_iff _ _).1 h v

omit [DecidableEq W] in
theorem unowned_of_holds (h : FiberInv s f) (hw : (s.sys.pc w).holds f = true) :
    s.sys.owned f = 0 :=
  h.held_own (Count.one_le_tally hw)

omit [DecidableEq W] in
/-- A fiber that a worker has dequeued can be resumed, and has no other token. -/
theorem of_holds (h : FiberInv s f) (hw : (s.sys.pc w).holds f = true) :
    s.sys.state f ≠ .exec ∧ s.sys.state f ≠ .term ∧ s.sys.state f ≠ .except ∧
      s.sys.queued f = 0 ∧ s.sys.held f = 1 := by
  have h0 := h.unowned_of_holds hw
  have h1 : 1 ≤ s.sys.held f := Count.one_le_tally hw
  have hq : 0 ≤ s.sys.queued f := Int.natCast_nonneg _
  have ht := h.tokens
  have hr := h.rest h0
  unfold CoroutineScheduler.tokens at ht
  unfold Rest at hr
  rw [h0] at ht
  rcases hr with hr | hr | ⟨hr | hr | hr, hw⟩ <;> simp only [hr, hw] at ht ⊢ <;>
    split_ifs at ht <;> simp_all <;> omega

omit [DecidableEq W] in
theorem congr (h : FiberInv s g) (hpc : t.sys.pc = s.sys.pc) (hst : t.sys.state g = s.sys.state g)
    (hwk : t.waker g = s.waker g) (hre : t.resumer g = s.resumer g)
    (hq : t.sys.queued g = s.sys.queued g) : FiberInv t g := by
  have hown : t.sys.owned g = s.sys.owned g := by rw [Sys.owned, hpc]; rfl
  have hheld : t.sys.held g = s.sys.held g := by rw [Sys.held, hpc]; rfl
  refine ⟨?_, ?_, ?_, ?_, ?_, ?_⟩
  · rw [hown]
    exact h.own_le
  · rw [hown, hheld, hst, hwk, hq]
    exact h.tokens
  · rw [hown, hheld]
    exact h.held_own
  · rw [hown, hst, hwk]
    exact h.rest
  · rw [hpc, hst, hwk]
    exact h.owner
  · rw [hpc, hre]
    exact h.resumer

/-- A step of a worker that is not concerned with `g`. -/
theorem frame (h : FiberInv s g) (hpc : t.sys.pc = Function.update s.sys.pc w p)
    (ho : (s.sys.pc w).owns g = p.owns g) (hh : (s.sys.pc w).holds g = p.holds g)
    (hp : p.owns g = false) (hst : t.sys.state g = s.sys.state g) (hwk : t.waker g = s.waker g)
    (hres : t.resumer g = s.resumer g) (hq : t.sys.queued g = s.sys.queued g) : FiberInv t g := by
  have hown : t.sys.owned g = s.sys.owned g := by
    unfold Sys.owned
    rw [hpc, Count.tally_update, ho]
    omega
  have hheld : t.sys.held g = s.sys.held g := by
    unfold Sys.held
    rw [hpc, Count.tally_update, hh]
    omega
  have hsame : ∀ v, (t.sys.pc v).owns g = true → t.sys.pc v = s.sys.pc v := by
    intro v hv
    rw [hpc] at hv ⊢
    by_cases hvw : v = w
    · subst hvw
      rw [Function.update_self, hp] at hv
      cases hv
    · rw [Function.update_of_ne hvw]
  refine ⟨?_, ?_, ?_, ?_, ?_, ?_⟩
  · rw [hown]
    exact h.own_le
  · rw [hown, hheld, hst, hwk, hq]
    exact h.tokens
  · rw [hown, hheld]
    exact h.held_own
  · rw [hown, hst, hwk]
    exact h.rest
  · intro v hv
    have he := hsame v hv
    rw [he] at hv ⊢
    rw [hst, hwk]
    exact h.owner v hv
  · intro v hv
    have he := hsame v (Pc.owns_of_resumed hv)
    rw [he] at hv
    rw [hres]
    exact h.resumer v hv

/-- A step of the only worker that is concerned with `f`. -/
theorem self (hsolo : ∀ v, v ≠ w → (s.sys.pc v).owns f = false)
    (hpc : t.sys.pc = Function.update s.sys.pc w p)
    (htok : t.sys.queued f + t.sys.held f =
      CoroutineScheduler.tokens (t.sys.state f) (t.waker f) (p.owns f).toNat)
    (hheld : 0 < t.sys.held f → p.owns f = false)
    (hrest : p.owns f = false → Rest (t.sys.state f) (t.waker f))
    (hown : p.owns f = true → Allowed p (t.sys.state f) (t.waker f))
    (hres : p.resumed f = true → t.resumer f = some w) : FiberInv t f := by
  have hother : ∀ v, v ≠ w → (t.sys.pc v).owns f = false := by
    intro v hv
    rw [hpc, Function.update_of_ne hv]
    exact hsolo v hv
  have hat : t.sys.pc w = p := by rw [hpc, Function.update_self]
  have howned : t.sys.owned f = (p.owns f).toNat := by
    unfold Sys.owned Count.tally
    rw [Finset.sum_eq_single w (fun v _ hv => by rw [hother v hv]; rfl)
      (fun h => absurd (Finset.mem_univ w) h), hat]
  have heq : ∀ v, (t.sys.pc v).owns f = true → v = w := by
    intro v hv
    by_contra hvw
    rw [hother v hvw] at hv
    cases hv
  refine ⟨?_, ?_, ?_, ?_, ?_, ?_⟩
  · rw [howned]
    cases p.owns f <;> simp
  · rw [howned]
    exact htok
  · intro h
    rw [howned, hheld h]
    rfl
  · intro h
    rw [howned] at h
    refine hrest ?_
    cases hp : p.owns f
    · rfl
    · rw [hp] at h
      cases h
  · intro v hv
    obtain rfl := heq v hv
    rw [hat] at hv ⊢
    exact hown hv
  · intro v hv
    obtain rfl := heq v (Pc.owns_of_resumed hv)
    rw [hat] at hv
    exact hres hv

omit [DecidableEq W] in
/-- The token of an owned fiber is in the queue. -/
theorem of_owns (h : FiberInv s f) (hw : (s.sys.pc w).owns f = true) :
    s.sys.held f = 0 ∧ s.sys.queued f = if s.waker f = .fired then 1 else 0 := by
  have h1 : 1 ≤ s.sys.owned f := Count.one_le_tally hw
  have h2 : 0 ≤ s.sys.held f := Count.tally_nonneg _ _
  have h3 : s.sys.held f = 0 := by
    by_contra hc
    have := h.held_own (by omega)
    omega
  have ht := h.tokens
  unfold CoroutineScheduler.tokens at ht
  rw [h3, if_neg (show ¬ (s.sys.state f = .ready ∧ s.sys.owned f = 0) from fun hc => by omega)] at ht
  exact ⟨h3, by omega⟩

/-- A step of the owner of `f`, which puts `d` entries of `f` into the queue. -/
theorem owner_step (h : FiberInv s f) (hw : (s.sys.pc w).owns f = true)
    (hpc : t.sys.pc = Function.update s.sys.pc w p) (hp : p.holds f = false) {d : ℤ}
    (hq : t.sys.queued f = s.sys.queued f + d)
    (htok : (if s.waker f = .fired then 1 else 0) + d =
      CoroutineScheduler.tokens (t.sys.state f) (t.waker f) (p.owns f).toNat)
    (hrest : p.owns f = false → Rest (t.sys.state f) (t.waker f))
    (hown : p.owns f = true → Allowed p (t.sys.state f) (t.waker f))
    (hres : p.resumed f = true → t.resumer f = some w) : FiberInv t f := by
  obtain ⟨h0, h1⟩ := h.of_owns hw
  have hn : (s.sys.pc w).holds f = false := by
    by_contra hc
    rw [Pc.owns_of_holds (by simpa using hc)] at hw
    cases hw
  have hheld : t.sys.held f = 0 := by
    unfold Sys.held at h0 ⊢
    rw [hpc, Count.tally_update, hn, hp, h0]
    rfl
  refine self (h.solo hw) hpc ?_ ?_ hrest hown hres
  · rw [hq, h1, hheld, add_zero]
    exact htok
  · intro hc
    omega

end FiberInv

/-! ## The invariant of the machine -/

/-- Nobody runs `f`, nobody will: a callback's fiber between two callbacks, or an id not yet given
out. -/
def Spare (s : Sus W) (f : FiberId) : Prop :=
  s.sys.owned f = 0 ∧ s.sys.state f = .init ∧ s.waker f = .none

/-- The invariant. -/
structure Sus.Inv (s : Sus W) : Prop where
  fiber : ∀ f, FiberInv s f
  unborn : ∀ f, s.sys.lastId < f → Spare s f
  cbOwn : ∀ w f, (s.sys.pc w).ownsCb f = true → s.sys.cbFiber w = some f
  cbInj : ∀ v w f, s.sys.cbFiber v = some f → s.sys.cbFiber w = some f → v = w
  cbBorn : ∀ w f, s.sys.cbFiber w = some f → f ≤ s.sys.lastId
  spare : ∀ w f, s.sys.cbFiber w = some f → (s.sys.pc w).ownsCb f = true ∨ Spare s f
  idle : ∀ w, s.sys.idleFiber w = .exec ↔ s.sys.pc w = .idling

namespace Sus.Inv

variable {s t : Sus W} {f g : FiberId} {v w : W} {p : Pc}

omit [DecidableEq W] in
theorem no_token (hi : Inv s) (h : Spare s f) : s.sys.queued f = 0 ∧ s.sys.held f = 0 := by
  have ht := (hi.fiber f).tokens
  rw [h.1, h.2.1, h.2.2] at ht
  have h1 : 0 ≤ s.sys.held f := Count.tally_nonneg _ _
  have h2 : 0 ≤ s.sys.queued f := Int.natCast_nonneg _
  simp [tokens] at ht
  omega

omit [DecidableEq W] in
theorem not_spare (hi : Inv s) (h : (s.sys.pc v).owns f = true ∨ (s.sys.pc v).holds f = true) :
    ¬ Spare s f := by
  intro hs
  rcases h with h | h
  · rw [FiberInv.unowned hs.1 v] at h
    cases h
  · have h1 : 1 ≤ s.sys.held f := Count.one_le_tally h
    have h2 := (hi.no_token hs).2
    omega

omit [DecidableEq W] in
theorem born (hi : Inv s) (h : ¬ Spare s f) : f ≤ s.sys.lastId := by
  by_contra hf
  exact h (hi.unborn f (not_le.1 hf))

omit [DecidableEq W] in
/-- A fiber that worker `v` owns or has dequeued is no other worker's `cb_fiber`. -/
theorem not_cbFiber (hi : Inv s) (h : (s.sys.pc v).owns f = true ∨ (s.sys.pc v).holds f = true)
    (hw : w ≠ v) : s.sys.cbFiber w ≠ some f := by
  intro hc
  rcases hi.spare w f hc with ho | hs
  · have ho := Pc.owns_of_ownsCb ho
    rcases h with h | h
    · rw [(hi.fiber f).solo h w hw] at ho
      cases ho
    · rw [FiberInv.unowned ((hi.fiber f).unowned_of_holds h) w] at ho
      cases ho
  · exact hi.not_spare h hs

omit [DecidableEq W] in
theorem not_cbFiber_of_unowned (hi : Inv s) (h0 : s.sys.owned f = 0) (hs : ¬ Spare s f) :
    s.sys.cbFiber w ≠ some f := by
  intro hc
  have ho := Pc.owns_of_ownsCb ((hi.spare w f hc).resolve_right hs)
  rw [FiberInv.unowned h0 w] at ho
  cases ho

/-- A step of worker `v` that touches no fiber but `f`. -/
structure Touch (s t : Sus W) (v : W) (p : Pc) (f : FiberId) : Prop where
  pc : t.sys.pc = Function.update s.sys.pc v p
  before : ∀ g, g ≠ f → (s.sys.pc v).about ≠ some g
  after : ∀ g, g ≠ f → p.about ≠ some g
  state : ∀ g, g ≠ f → t.sys.state g = s.sys.state g
  waker : ∀ g, g ≠ f → t.waker g = s.waker g
  resumer : ∀ g, g ≠ f → t.resumer g = s.resumer g
  queued : ∀ g, g ≠ f → t.sys.queued g = s.sys.queued g

theorem Touch.fiber (ht : Touch s t v p f) (hi : Inv s) (hg : g ≠ f) : FiberInv t g :=
  have h0 := Pc.not_about (ht.before g hg)
  have h1 := Pc.not_about (ht.after g hg)
  (hi.fiber g).frame ht.pc (by rw [h0.1, h1.1]) (by rw [h0.2, h1.2]) h1.1 (ht.state g hg)
    (ht.waker g hg) (ht.resumer g hg) (ht.queued g hg)

theorem Touch.spare (ht : Touch s t v p f) (hg : g ≠ f) (hs : Spare s g) : Spare t g := by
  refine ⟨?_, by rw [ht.state g hg]; exact hs.2.1, by rw [ht.waker g hg]; exact hs.2.2⟩
  have h0 := hs.1
  unfold Sys.owned at h0 ⊢
  rw [ht.pc, Count.tally_update, (Pc.not_about (ht.before g hg)).1,
    (Pc.not_about (ht.after g hg)).1, h0]
  rfl

theorem idle_of_update (hi : Inv s) (hpc : t.sys.pc = Function.update s.sys.pc v p)
    (h : t.sys.idleFiber = s.sys.idleFiber) (h0 : s.sys.pc v ≠ .idling) (h1 : p ≠ .idling) (w : W) :
    t.sys.idleFiber w = .exec ↔ t.sys.pc w = .idling := by
  rw [h, hpc]
  by_cases hw : w = v
  · subst hw
    rw [Function.update_self, hi.idle w]
    exact ⟨fun h => absurd h h0, fun h => absurd h h1⟩
  · rw [Function.update_of_ne hw]
    exact hi.idle w

/-- A step of worker `v` with fiber `f`. -/
theorem act (hi : Inv s) (ht : Touch s t v p f) (hself : FiberInv t f)
    (hf : f ≤ s.sys.lastId) (hlast : t.sys.lastId = s.sys.lastId)
    (hothers : ∀ w, w ≠ v → s.sys.cbFiber w ≠ some f)
    (hcb : ∀ w g, t.sys.cbFiber w = some g → s.sys.cbFiber w = some g)
    (hspare : t.sys.cbFiber v = some f → p.ownsCb f = true ∨ Spare t f)
    (hown : p.ownsCb f = true → t.sys.cbFiber v = some f)
    (hkeep : ∀ w, w ≠ v → t.sys.cbFiber w = s.sys.cbFiber w)
    (hidle : ∀ w, t.sys.idleFiber w = .exec ↔ t.sys.pc w = .idling) : Inv t := by
  have hpc : ∀ w, w ≠ v → t.sys.pc w = s.sys.pc w := fun w hw => by
    rw [ht.pc, Function.update_of_ne hw]
  have hat : t.sys.pc v = p := by rw [ht.pc, Function.update_self]
  refine ⟨fun g => ?_, fun g hg => ?_, fun w g h => ?_, fun u w g h h' => ?_, fun w g h => ?_,
    fun w g h => ?_, hidle⟩
  · by_cases hg : g = f
    · rw [hg]
      exact hself
    · exact ht.fiber hi hg
  · rw [hlast] at hg
    exact ht.spare (fun h => absurd hf (not_le.2 (h ▸ hg))) (hi.unborn g hg)
  · by_cases hw : w = v
    · subst hw
      rw [hat] at h
      by_cases hg : g = f
      · rw [hg] at h ⊢
        exact hown h
      · have := (Pc.not_about (ht.after g hg)).1
        rw [Pc.owns_of_ownsCb h] at this
        cases this
    · rw [hpc w hw] at h
      rw [hkeep w hw]
      exact hi.cbOwn w g h
  · exact hi.cbInj u w g (hcb u g h) (hcb w g h')
  · rw [hlast]
    exact hi.cbBorn w g (hcb w g h)
  · by_cases hg : g = f
    · subst hg
      by_cases hw : w = v
      · subst hw
        rw [hat]
        exact hspare h
      · exact absurd (hcb w g h) (hothers w hw)
    · rcases hi.spare w g (hcb w g h) with ho | hs
      · by_cases hw : w = v
        · subst hw
          have := (Pc.not_about (ht.before g hg)).1
          rw [Pc.owns_of_ownsCb ho] at this
          cases this
        · left
          rw [hpc w hw]
          exact ho
      · exact Or.inr (ht.spare hg hs)

/-- A step of worker `v` with the fiber `f` that it owns or has dequeued. Its `cb_fiber` stays, or is
given up. -/
theorem worker (hi : Inv s) (ht : Touch s t v p f) (hself : FiberInv t f)
    (hrel : (s.sys.pc v).owns f = true ∨ (s.sys.pc v).holds f = true)
    (hlast : t.sys.lastId = s.sys.lastId) (hidle : t.sys.idleFiber = s.sys.idleFiber)
    (hp : p ≠ .idling)
    (hcb : (t.sys.cbFiber = s.sys.cbFiber ∧
        (p.ownsCb f = (s.sys.pc v).ownsCb f ∨ (p.ownsCb f = false ∧ Spare t f))) ∨
      (t.sys.cbFiber = Function.update s.sys.cbFiber v none ∧ p.ownsCb f = false)) : Inv t := by
  have hbusy : s.sys.pc v ≠ .idling := by
    intro h
    rw [h] at hrel
    simp [Pc.owns, Pc.holds] at hrel
  refine hi.act ht hself (hi.born (hi.not_spare hrel)) hlast (fun w hw => hi.not_cbFiber hrel hw)
    ?_ ?_ ?_ ?_ (hi.idle_of_update ht.pc hidle hbusy hp)
  · intro w g h
    rcases hcb with ⟨hc, -⟩ | ⟨hc, -⟩ <;> rw [hc] at h
    · exact h
    · by_cases hw : w = v
      · subst hw
        rw [Function.update_self] at h
        cases h
      · rwa [Function.update_of_ne hw] at h
  · intro h
    rcases hcb with ⟨hc, ho | ho⟩ | ⟨hc, -⟩ <;> rw [hc] at h
    · rw [ho]
      exact Or.inl ((hi.spare v f h).resolve_right (hi.not_spare hrel))
    · exact Or.inr ho.2
    · rw [Function.update_self] at h
      cases h
  · intro h
    rcases hcb with ⟨hc, ho | ho⟩ | ⟨-, ho⟩
    · rw [hc]
      exact hi.cbOwn v f (ho ▸ h)
    · rw [ho.1] at h
      cases h
    · rw [ho] at h
      cases h
  · intro w hw
    rcases hcb with ⟨hc, -⟩ | ⟨hc, -⟩ <;> rw [hc]
    rw [Function.update_of_ne hw]

omit [DecidableEq W] in
/-- A step that touches no fiber at all. -/
theorem quiet (hi : Inv s)
    (hpc : ∀ w, t.sys.pc w = s.sys.pc w ∨ (s.sys.pc w).about = none ∧ (t.sys.pc w).about = none)
    (hst : t.sys.state = s.sys.state) (hwk : t.waker = s.waker) (hres : t.resumer = s.resumer)
    (hq : ∀ g, t.sys.queued g = s.sys.queued g) (hlast : s.sys.lastId ≤ t.sys.lastId)
    (hcb : t.sys.cbFiber = s.sys.cbFiber)
    (hidle : ∀ w, t.sys.idleFiber w = .exec ↔ t.sys.pc w = .idling) : Inv t := by
  have hsame : ∀ w g, (t.sys.pc w).owns g = (s.sys.pc w).owns g ∧
      (t.sys.pc w).holds g = (s.sys.pc w).holds g := by
    intro w g
    rcases hpc w with h | ⟨h0, h1⟩
    · rw [h]
      exact ⟨rfl, rfl⟩
    · have a := Pc.not_about (g := g) (by rw [h0]; exact Option.some_ne_none g ∘ Eq.symm)
      have b := Pc.not_about (g := g) (by rw [h1]; exact Option.some_ne_none g ∘ Eq.symm)
      rw [a.1, a.2, b.1, b.2]
      exact ⟨rfl, rfl⟩
  have hat : ∀ w g, (t.sys.pc w).owns g = true → t.sys.pc w = s.sys.pc w := by
    intro w g h
    refine (hpc w).resolve_right fun hn => ?_
    rw [Pc.about_of_owns h] at hn
    cases hn.2
  have hown : ∀ g, t.sys.owned g = s.sys.owned g := fun g =>
    Finset.sum_congr rfl fun w _ => by rw [(hsame w g).1]
  have hheld : ∀ g, t.sys.held g = s.sys.held g := fun g =>
    Finset.sum_congr rfl fun w _ => by rw [(hsame w g).2]
  have hspare : ∀ g, Spare s g → Spare t g := by
    intro g h
    unfold Spare at h ⊢
    rwa [hown, hst, hwk]
  refine ⟨fun g => ⟨?_, ?_, ?_, ?_, ?_, ?_⟩, ?_, ?_, ?_, ?_, ?_, hidle⟩
  · rw [hown]
    exact (hi.fiber g).own_le
  · rw [hown, hheld, hq, hst, hwk]
    exact (hi.fiber g).tokens
  · rw [hown, hheld]
    exact (hi.fiber g).held_own
  · rw [hown, hst, hwk]
    exact (hi.fiber g).rest
  · intro w h
    have he := hat w g h
    rw [he] at h ⊢
    rw [hst, hwk]
    exact (hi.fiber g).owner w h
  · intro w h
    rw [hat w g (Pc.owns_of_resumed h)] at h
    rw [hres]
    exact (hi.fiber g).resumer w h
  · exact fun g hg => hspare g (hi.unborn g (lt_of_le_of_lt hlast hg))
  · intro w g h
    rw [hat w g (Pc.owns_of_ownsCb h)] at h
    rw [hcb]
    exact hi.cbOwn w g h
  · rw [hcb]
    exact hi.cbInj
  · rw [hcb]
    exact fun w g h => le_trans (hi.cbBorn w g h) hlast
  · intro w g h
    rw [hcb] at h
    rcases hi.spare w g h with ho | hs
    · left
      rcases hpc w with he | ⟨h0, -⟩
      · rwa [he]
      · rw [Pc.about_of_owns (Pc.owns_of_ownsCb ho)] at h0
        cases h0
    · exact Or.inr (hspare g hs)

end Sus.Inv

/-! ## The steps of a worker -/

namespace Sys

variable {s : Sys W}

omit [DecidableEq W] [Fintype W] in
theorem queued_append {t : Sys W} {fts : List FiberAndThread} (h : t.fibers = s.fibers ++ fts)
    (g : FiberId) : t.queued g = s.queued g + (fts.countP fun e => e.fiber = some g : ℕ) := by
  rw [queued, queued, h, List.countP_append, Nat.cast_add]

omit [DecidableEq W] [Fintype W] in
theorem queued_schedule_fiber (s : Sys W) (f g : FiberId) (thr : ℤ) :
    (s.schedule (.ofFiber (some f) thr)).queued g = s.queued g + if f = g then 1 else 0 := by
  have hs : (s.schedule (.ofFiber (some f) thr)).fibers = s.fibers ++ [.ofFiber (some f) thr] := by
    rw [schedule, scheduleNoLock_fibers]
    rfl
  rw [queued_append hs]
  by_cases h : f = g <;> simp [FiberAndThread.ofFiber, h]

omit [DecidableEq W] [Fintype W] in
theorem queued_of_no_fiber {t : Sys W} {fts : List FiberAndThread}
    (h : t.fibers = s.fibers ++ fts.filter FiberAndThread.nonEmpty)
    (hn : ∀ ft ∈ fts, ft.fiber = none) (g : FiberId) : t.queued g = s.queued g := by
  rw [queued_append h, List.countP_eq_zero.2, Nat.cast_zero, add_zero]
  intro ft hft
  rw [hn ft (List.mem_of_mem_filter hft)]
  simp

/-- The statements that only read states are about a fiber the worker owns or has dequeued. -/
theorem Jump.concerns {st : FiberId → FiberState} {p q : Pc} (hj : Jump st p q) :
    ∃ f, p.holds f = true ∨ p.owns f = true := by
  cases hj with
  | @swapIn b f h =>
    refine ⟨f, ?_⟩
    cases b <;> simp [Pc.holds, Pc.owns]
  | _ => exact ⟨_, by simp [Pc.holds, Pc.owns]; rfl⟩

theorem Jump.ne_idling {st : FiberId → FiberState} {p q : Pc} (hj : Jump st p q) :
    q ≠ .idling := by
  cases hj with
  | @isTerm ft f h | @isExcept ft f h =>
    unfold afterFiber
    split <;> exact Pc.noConfusion
  | _ => exact Pc.noConfusion

/-- They keep a dequeued fiber, unless they find that it has ended. -/
theorem Jump.holder {st : FiberId → FiberState} {p q : Pc} {f : FiberId} (hj : Jump st p q)
    (hp : p.holds f = true) : st f = .term ∨ st f = .except ∨ q.holds f = true := by
  cases hj with
  | @swapIn b g h => cases b <;> simp_all [Pc.holds]
  | _ => simp_all [Pc.holds]

/-- They take the owner of a fiber on to where the state it read allows it to be. -/
theorem Jump.owner {st : FiberId → FiberState} {p q : Pc} {f : FiberId} {wk : Waker}
    (hj : Jump st p q) (hp : p.owns f = true) (ha : Allowed p (st f) wk) :
    (q.owns f = true ∧ q.ownsCb f = p.ownsCb f ∧ (q.resumed f = true → p.resumed f = true) ∧
        Allowed q (st f) wk) ∨
      (p.ownsCb f = false ∧ q = .scan ∧ (st f = .term ∨ st f = .except) ∧ wk = .none) := by
  cases hj with
  | @swapIn b g h => cases b <;> simp_all [Pc.owns, Pc.ownsCb, Pc.resumed, Allowed]
  | @swapOut b g => cases b <;> simp_all [Pc.owns, Pc.ownsCb, Pc.resumed, Allowed]
  | @ready b g h => cases b <;> simp_all [Pc.owns, Pc.ownsCb, Pc.resumed, Allowed]
  | @notReady b g h => cases b <;> simp_all [Pc.owns, Pc.ownsCb, Pc.resumed, Allowed]
  | _ => simp_all [Pc.owns, Pc.ownsCb, Pc.resumed, Allowed]

end Sys

namespace Sus.Inv

variable {s : Sus W} {f : FiberId} {w : W} {q : Pc}

theorem jump (hi : Inv s) (hj : Sys.Jump s.sys.state (s.sys.pc w) q) :
    Inv { s with sys := s.sys.goto w q } := by
  obtain ⟨f, hf⟩ := hj.concerns
  have habout : (s.sys.pc w).about = some f := hf.elim Pc.about_of_holds Pc.about_of_owns
  have touch : q.about = some f ∨ q.about = none → Touch s { s with sys := s.sys.goto w q } w q f :=
    fun hq =>
    { pc := rfl
      before := fun g hg h => hg (Option.some.inj (h.symm.trans habout))
      after := fun g hg h => by
        rcases hq with hq | hq <;> rw [hq] at h <;> cases h
        exact hg rfl
      state := fun _ _ => rfl
      waker := fun _ _ => rfl
      resumer := fun _ _ => rfl
      queued := fun _ _ => rfl }
  have hidling := hj.ne_idling
  rcases hf with hh | ho
  · -- a dequeued fiber has not ended, so the worker goes on with it
    obtain ⟨-, h1, h2, -, -⟩ := (hi.fiber f).of_holds hh
    have hq := ((hj.holder hh).resolve_left h1).resolve_left h2
    have hp := Pc.owns_of_holds hq
    have hs := Pc.owns_of_holds hh
    refine hi.worker (touch (Or.inl (Pc.about_of_holds hq))) ?_ (Or.inr hh) rfl rfl hidling
      (Or.inl ⟨rfl, Or.inl ?_⟩)
    · exact (hi.fiber f).frame rfl (by rw [hp, hs]) (by rw [hh, hq]) hp rfl rfl rfl rfl
    · rw [Pc.ownsCb_eq_false hp, Pc.ownsCb_eq_false hs]
  · have ha := (hi.fiber f).owner w ho
    rcases hj.owner ho ha with ⟨hq, hcb, hres, hal⟩ | ⟨hcb, rfl, hst, hwk⟩
    · refine hi.worker (touch (Or.inl (Pc.about_of_owns hq))) ?_ (Or.inl ho) rfl rfl hidling
        (Or.inl ⟨rfl, Or.inl hcb⟩)
      refine (hi.fiber f).owner_step ho rfl ?_ (add_zero _).symm ?_ ?_ (fun _ => hal)
        (fun h => (hi.fiber f).resumer w (hres h))
      · by_contra hc
        rw [Pc.owns_of_holds (by simpa using hc)] at hq
        cases hq
      · rw [hq]
        simp [tokens]
      · intro h
        rw [hq] at h
        cases h
    · refine hi.worker (touch (Or.inr rfl)) ?_ (Or.inl ho) rfl rfl hidling
        (Or.inl ⟨rfl, Or.inl hcb.symm⟩)
      refine (hi.fiber f).owner_step ho rfl rfl (add_zero _).symm ?_ ?_ ?_ ?_
      · show _ = tokens (s.sys.state f) (s.waker f) 0
        rcases hst with h | h <;> simp [tokens, h, hwk]
      · intro _
        exact Or.inr (Or.inr ⟨Or.inr hst, hwk⟩)
      · intro h
        cases h
      · intro h
        cases h

/-- The owner of `f` goes on with it, having changed its state, waker or resumer. -/
theorem own_to {t : Sus W} {p : Pc} (hi : Inv s) (ho : (s.sys.pc w).owns f = true)
    (hpc : t.sys.pc = Function.update s.sys.pc w p) (hp : p.owns f = true)
    (hpcb : p.ownsCb f = (s.sys.pc w).ownsCb f)
    (hst : ∀ g, g ≠ f → t.sys.state g = s.sys.state g)
    (hwk : ∀ g, g ≠ f → t.waker g = s.waker g) (hre : ∀ g, g ≠ f → t.resumer g = s.resumer g)
    (hq : t.sys.fibers = s.sys.fibers) (hlast : t.sys.lastId = s.sys.lastId)
    (hcb : t.sys.cbFiber = s.sys.cbFiber) (hidle : t.sys.idleFiber = s.sys.idleFiber)
    (hfired : t.waker f = .fired ↔ s.waker f = .fired)
    (hal : Allowed p (t.sys.state f) (t.waker f)) (hres : p.resumed f = true → t.resumer f = some w) :
    Inv t := by
  have hqueued : ∀ g, t.sys.queued g = s.sys.queued g := fun g => by rw [Sys.queued, hq]; rfl
  have habout := Pc.about_of_owns hp
  refine hi.worker (p := p) (f := f)
    ⟨hpc, fun g hg h => hg ?_, fun g hg h => hg ?_, hst, hwk, hre, fun g _ => hqueued g⟩ ?_ (Or.inl ho)
    hlast hidle ?_ (Or.inl ⟨hcb, Or.inl hpcb⟩)
  · exact Option.some.inj (h.symm.trans (Pc.about_of_owns ho))
  · exact Option.some.inj (h.symm.trans habout)
  · refine (hi.fiber f).owner_step (d := 0) ho hpc ?_ (by rw [hqueued, add_zero]) ?_ ?_
      (fun _ => hal) hres
    · by_contra hc
      rw [Pc.owns_of_holds (by simpa using hc)] at hp
      cases hp
    · rw [hp]
      simp [tokens, hfired]
    · intro h
      rw [hp] at h
      cases h
  · rintro rfl
    cases hp

/-- The owner of `f` is done with it. It has put `d` entries of `f` into the queue. -/
theorem own_done {t : Sus W} {d : ℤ} (hi : Inv s) (ho : (s.sys.pc w).owns f = true)
    (hpc : t.sys.pc = Function.update s.sys.pc w .scan)
    (hst : ∀ g, g ≠ f → t.sys.state g = s.sys.state g) (hwk : t.waker = s.waker)
    (hre : t.resumer = s.resumer) (hq : ∀ g, g ≠ f → t.sys.queued g = s.sys.queued g)
    (hqf : t.sys.queued f = s.sys.queued f + d) (hlast : t.sys.lastId = s.sys.lastId)
    (hidle : t.sys.idleFiber = s.sys.idleFiber)
    (hcb : (t.sys.cbFiber = s.sys.cbFiber ∧ ((s.sys.pc w).ownsCb f = false ∨ Spare t f)) ∨
      t.sys.cbFiber = Function.update s.sys.cbFiber w none)
    (htok : (if s.waker f = .fired then 1 else 0) + d = tokens (t.sys.state f) (s.waker f) 0)
    (hrest : Rest (t.sys.state f) (s.waker f)) : Inv t := by
  refine hi.worker (p := .scan) (f := f)
    ⟨hpc, fun g hg h => hg ?_, fun g hg h => (by cases h), hst, fun g _ => by rw [hwk],
      fun g _ => by rw [hre], hq⟩ ?_ (Or.inl ho) hlast hidle Pc.noConfusion ?_
  · exact Option.some.inj (h.symm.trans (Pc.about_of_owns ho))
  · refine (hi.fiber f).owner_step ho hpc rfl hqf ?_ ?_ (fun h => by cases h) (fun h => by cases h)
    · rw [hwk]
      exact htok
    · rw [hwk]
      exact fun _ => hrest
  · rcases hcb with ⟨hc, h | h⟩ | hc
    · exact Or.inl ⟨hc, Or.inl h.symm⟩
    · exact Or.inl ⟨hc, Or.inr ⟨rfl, h⟩⟩
    · exact Or.inr ⟨hc, rfl⟩

/-- The code of the fiber ends its turn. -/
theorem leave {b : Branch} {st : FiberState} (hi : Inv s) (hpc : s.sys.pc w = .body b f)
    (hst : (st = .exec ∧ s.waker f ≠ .none) ∨
      ((st = .ready ∨ st = .term ∨ st = .except) ∧ s.waker f = .none))
    (fn : FiberId → Option Callback) :
    Inv { s with sys := (Sys.write { s.sys with fn := fn } f st).goto w (.leave b f) } := by
  have ho : (s.sys.pc w).owns f = true := by rw [hpc]; simp [Pc.owns]
  refine hi.own_to (p := .leave b f) ho rfl (by simp [Pc.owns]) ?_
    (fun g hg => Function.update_of_ne hg _ _) (fun _ _ => rfl) (fun _ _ => rfl) rfl rfl rfl rfl Iff.rfl
    ?_ ?_
  · rw [hpc]
    cases b <;> rfl
  · show Allowed _ (Function.update s.sys.state f st f) _
    rw [Function.update_self]
    exact hst
  · exact fun _ => (hi.fiber f).resumer w (by rw [hpc]; simp [Pc.resumed])

theorem publish {b : Branch} (hi : Inv s) (hpc : s.sys.pc w = .body b f) (hwk : s.waker f = .none) :
    Inv { s with waker := Function.update s.waker f .asked } := by
  have ho : (s.sys.pc w).owns f = true := by rw [hpc]; simp [Pc.owns]
  refine hi.own_to ho (Function.update_eq_self w _).symm ho rfl (fun _ _ => rfl)
    (fun g hg => Function.update_of_ne hg _ _) (fun _ _ => rfl) rfl rfl rfl rfl ?_ ?_
    (fun h => (hi.fiber f).resumer w h)
  · show Function.update s.waker f Waker.asked f = .fired ↔ _
    rw [Function.update_self, hwk]
    simp
  · have := (hi.fiber f).owner w ho
    rw [hpc] at this ⊢
    exact this

theorem back {b : Branch} (hi : Inv s) (hpc : s.sys.pc w = .back b f) :
    Inv { s with sys := { s.sys.goto w (.first b f) with active := s.sys.active - 1 } } := by
  have ho : (s.sys.pc w).owns f = true := by rw [hpc]; simp [Pc.owns]
  refine hi.own_to (p := .first b f) ho rfl (by simp [Pc.owns]) ?_ (fun _ _ => rfl) (fun _ _ => rfl)
    (fun _ _ => rfl) rfl rfl rfl rfl Iff.rfl ?_ ?_
  · rw [hpc]
    cases b <;> rfl
  · have := (hi.fiber f).owner w ho
    rw [hpc] at this
    exact this
  · exact fun _ => (hi.fiber f).resumer w (by rw [hpc]; simp [Pc.resumed])

omit [Fintype W] in
theorem release_cbFiber (u : Sys W) {p : Pc} {b : Branch}
    (hb : b = .fiber → p.ownsCb f = false) (P : Prop) :
    ((u.release w b).cbFiber = u.cbFiber ∧ (p.ownsCb f = false ∨ P)) ∨
      (u.release w b).cbFiber = Function.update u.cbFiber w none := by
  cases b with
  | fiber => exact Or.inl ⟨rfl, Or.inl (hb rfl)⟩
  | cb => exact Or.inr rfl

/-- `run()` schedules a fiber that has yielded by `YieldToReady`. -/
theorem requeue {b : Branch} (hi : Inv s) (hpc : s.sys.pc w = .requeue b f) :
    Inv { s with sys := (s.sys.schedule (.ofFiber (some f) (-1))).release w b } := by
  have ho : (s.sys.pc w).owns f = true := by rw [hpc]; simp [Pc.owns]
  have ha := (hi.fiber f).owner w ho
  rw [hpc] at ha
  obtain ⟨hst, hwk⟩ : s.sys.state f = .ready ∧ s.waker f = .none := ha
  have hq : ∀ g, ((s.sys.schedule (.ofFiber (some f) (-1))).release w b).queued g =
      s.sys.queued g + if f = g then 1 else 0 := by
    intro g
    rw [← Sys.queued_schedule_fiber s.sys f g (-1)]
    cases b <;> rfl
  have hstate : ((s.sys.schedule (.ofFiber (some f) (-1))).release w b).state = s.sys.state :=
    Sys.release_state _ b
  refine hi.own_done (d := 1) ho (Sys.release_pc _ b) (fun g _ => by rw [hstate]) rfl rfl ?_ ?_
    (by cases b <;> rfl) (by cases b <;> rfl)
    (release_cbFiber _ (fun h => by rw [hpc, h]; rfl) _) ?_ ?_
  · intro g hg
    rw [hq, if_neg hg.symm, add_zero]
  · rw [hq, if_pos rfl]
  · rw [hstate, hst, hwk]
    rfl
  · rw [hstate, hst, hwk]
    exact Or.inr (Or.inr ⟨Or.inl rfl, rfl⟩)

/-- `run()` stores `HOLD` in a fiber that has handed itself to a waker. -/
theorem hold {b : Branch} (hi : Inv s) (hpc : s.sys.pc w = .hold b f) :
    Inv { s with sys := (s.sys.write f .hold).release w b } := by
  have ho : (s.sys.pc w).owns f = true := by rw [hpc]; simp [Pc.owns]
  have hstate : ((s.sys.write f .hold).release w b).state =
      Function.update s.sys.state f .hold := Sys.release_state _ b
  refine hi.own_done (d := 0) ho (Sys.release_pc _ b)
    (fun g hg => by rw [hstate]; exact Function.update_of_ne hg _ _) rfl rfl
    (fun g _ => by cases b <;> rfl) (by rw [add_zero]; cases b <;> rfl)
    (by cases b <;> rfl) (by cases b <;> rfl)
    (release_cbFiber _ (fun h => by rw [hpc, h]; rfl) _) ?_ ?_
  · rw [hstate, Function.update_self]
    simp [tokens]
  · rw [hstate, Function.update_self]
    exact Or.inr (Or.inl rfl)

/-- `cb_fiber->reset(nullptr)`. -/
theorem recycle (hi : Inv s) (hpc : s.sys.pc w = .recycle f) :
    Inv { s with sys := Sys.goto { s.sys with
      fn := Function.update s.sys.fn f none,
      state := Function.update s.sys.state f .init } w .scan } := by
  have ho : (s.sys.pc w).owns f = true := by rw [hpc]; simp [Pc.owns]
  have ha := (hi.fiber f).owner w ho
  rw [hpc] at ha
  have hwk : s.waker f = .none := ha.2
  refine hi.own_done (d := 0) ho rfl (fun g hg => Function.update_of_ne hg _ _) rfl rfl
    (fun _ _ => rfl) (add_zero _).symm rfl rfl (Or.inl ⟨rfl, Or.inr ⟨?_, ?_, hwk⟩⟩) ?_ ?_
  · have hle := (hi.fiber f).own_le
    have h1 : 1 ≤ s.sys.owned f := Count.one_le_tally ho
    unfold Sys.owned at hle h1 ⊢
    show Count.tally _ (Function.update s.sys.pc w .scan) = 0
    rw [Count.tally_update, ho]
    simp [Pc.owns]
    omega
  · exact Function.update_self ..
  · show _ = tokens (Function.update s.sys.state f .init f) _ _
    rw [Function.update_self, hwk]
    rfl
  · show Rest (Function.update s.sys.state f .init f) _
    rw [Function.update_self]
    exact Or.inl rfl

/-- `m_state = EXEC`: the fiber is resumed, which uses up its wake-up. -/
theorem enter {b : Branch} (hi : Inv s) (hpc : s.sys.pc w = .enter b f) :
    Inv ⟨(s.sys.write f .exec).goto w (.body b f), Function.update s.waker f .none,
      Function.update s.resumer f (some w)⟩ := by
  cases b with
  | cb =>
    have ho : (s.sys.pc w).owns f = true := by rw [hpc]; simp [Pc.owns]
    have ha := (hi.fiber f).owner w ho
    rw [hpc] at ha
    have hwk : s.waker f = .none := ha.2
    refine hi.own_to (p := .body .cb f) ho rfl (by simp [Pc.owns]) (by rw [hpc]; rfl)
      (fun g hg => Function.update_of_ne hg _ _) (fun g hg => Function.update_of_ne hg _ _)
      (fun g hg => Function.update_of_ne hg _ _) rfl rfl rfl rfl ?_ ?_ ?_
    · show Function.update s.waker f Waker.none f = .fired ↔ _
      rw [Function.update_self, hwk]
    · exact Function.update_self ..
    · exact fun _ => Function.update_self ..
  | fiber =>
    have hh : (s.sys.pc w).holds f = true := by rw [hpc]; simp [Pc.holds]
    obtain ⟨-, -, -, hq, hheld⟩ := (hi.fiber f).of_holds hh
    refine hi.worker (p := .body .fiber f) (f := f)
      ⟨rfl, fun g hg h => hg ?_, fun g hg h => hg ?_, fun g hg => Function.update_of_ne hg _ _,
        fun g hg => Function.update_of_ne hg _ _, fun g hg => Function.update_of_ne hg _ _,
        fun _ _ => rfl⟩
      ?_ (Or.inr hh) rfl rfl Pc.noConfusion (Or.inl ⟨rfl, Or.inl ?_⟩)
    · rw [hpc] at h
      exact (Option.some.inj h).symm
    · exact (Option.some.inj h).symm
    · have hnone : Sys.held ((s.sys.write f .exec).goto w (.body .fiber f)) f = 0 := by
        unfold Sys.held at hheld ⊢
        show Count.tally _ (Function.update s.sys.pc w _) = 0
        rw [Count.tally_update, hheld, hh]
        rfl
      refine FiberInv.self (p := .body .fiber f)
        (fun v _ => FiberInv.unowned ((hi.fiber f).unowned_of_holds hh) v) rfl ?_ ?_ ?_ ?_ ?_
      · show s.sys.queued f + Sys.held ((s.sys.write f .exec).goto w (.body .fiber f)) f =
          tokens (Function.update s.sys.state f .exec f) (Function.update s.waker f .none f) _
        rw [hq, hnone, Function.update_self, Function.update_self]
        rfl
      · intro h
        rw [hnone] at h
        cases h
      · intro h
        simp [Pc.owns] at h
      · exact fun _ => Function.update_self ..
      · exact fun _ => Function.update_self ..
    · rw [hpc]
      rfl

omit [DecidableEq W] in
/-- An eligible entry of a fiber is not that of an owned fiber. -/
theorem unowned_of_queued (hi : Inv s) (hq : 0 < s.sys.queued f) (hst : s.sys.state f ≠ .exec) :
    s.sys.owned f = 0 := by
  by_contra hc
  obtain ⟨v, hv⟩ : ∃ v, (s.sys.pc v).owns f = true := by
    by_contra hn
    refine hc ((Count.tally_eq_zero_iff _ _).2 fun v => ?_)
    exact Bool.eq_false_iff.2 fun h => hn ⟨v, h⟩
  have h1 := ((hi.fiber f).of_owns hv).2
  have ha := (hi.fiber f).owner v hv
  split_ifs at h1 with hf
  · rw [hf] at ha
    exact hst (exec_of_fired hv ha)
  · omega

omit [Fintype W] in
theorem about_update {t : Sus W} {p : Pc} (hpc : t.sys.pc = Function.update s.sys.pc w p)
    (h0 : (s.sys.pc w).about = none) (h1 : p.about = none) (v : W) :
    t.sys.pc v = s.sys.pc v ∨ (s.sys.pc v).about = none ∧ (t.sys.pc v).about = none := by
  by_cases hv : v = w
  · subst hv
    rw [hpc, Function.update_self]
    exact Or.inr ⟨h0, h1⟩
  · rw [hpc, Function.update_of_ne hv]
    exact Or.inl rfl

omit [Fintype W] in
theorem about_dispatch {ft : FiberAndThread} (h : ft.fiber = none) :
    (Sys.dispatch ft).about = none ∧ Sys.dispatch ft ≠ .idling := by
  unfold Sys.dispatch Sys.afterFiber
  rw [h]
  cases ft.cb <;> exact ⟨rfl, Pc.noConfusion⟩

/-- The scan takes an entry. -/
theorem take {tid : ℤ} {ft : FiberAndThread} (hi : Inv s) (hpc : s.sys.pc w = .scan)
    (ht : (scan s.sys.state tid s.sys.fibers).taken = some ft) :
    Inv { s with sys := { s.sys.goto w (Sys.dispatch ft) with
      fibers := (scan s.sys.state tid s.sys.fibers).fibers, active := s.sys.active + 1 } } := by
  have hspec := scan_spec s.sys.state tid s.sys.fibers
  rw [ht] at hspec
  generalize (scan s.sys.state tid s.sys.fibers).fibers = rest at hspec
  obtain ⟨pre, post, _, hsplit, ⟨-, hel⟩, -⟩ := hspec
  have hbusy : s.sys.pc w ≠ .idling := by rw [hpc]; exact Pc.noConfusion
  have hcount : ∀ g, s.sys.queued g =
      ((pre ++ post).countP fun e => e.fiber = some g : ℕ) + if ft.fiber = some g then 1 else 0 := by
    intro g
    rw [Sys.queued, hsplit, List.countP_append, List.countP_append, List.countP_cons]
    push_cast
    by_cases h : ft.fiber = some g <;> simp [h]
    ring
  cases hft : ft.fiber with
  | none =>
    obtain ⟨ha, hn⟩ := about_dispatch hft
    refine hi.quiet (about_update rfl (by rw [hpc]; rfl) ha) rfl rfl rfl (fun g => ?_) le_rfl rfl
      (hi.idle_of_update rfl rfl hbusy hn)
    rw [hcount g, hft]
    simp [Sys.queued]
  | some f =>
    have hd : Sys.dispatch ft = .testTerm ft f := by rw [Sys.dispatch, hft]
    have hqf := hcount f
    rw [hft, if_pos rfl] at hqf
    have hst := hel f hft
    have h0 : s.sys.owned f = 0 := hi.unowned_of_queued (by omega) hst
    have hns : ¬ Spare s f := fun h => by
      have := (hi.no_token h).1
      omega
    have hheld : Sys.held (s.sys.goto w (Sys.dispatch ft)) f = s.sys.held f + 1 := by
      unfold Sys.held
      show Count.tally _ (Function.update s.sys.pc w _) = _
      rw [Count.tally_update, hpc, hd]
      simp [Pc.holds]
    have hown : (Sys.dispatch ft).owns f = false := by rw [hd]; rfl
    refine hi.act (p := Sys.dispatch ft) (f := f)
      ⟨rfl, fun g hg h => ?_, fun g hg h => hg ?_, fun _ _ => rfl, fun _ _ => rfl, fun _ _ => rfl, ?_⟩
      ?_ ?_ rfl ?_ (fun _ _ h => h) ?_ ?_ (fun _ _ => rfl) (hi.idle_of_update rfl rfl hbusy ?_)
    · rw [hpc] at h
      cases h
    · rw [hd] at h
      exact (Option.some.inj h).symm
    · intro g hg
      rw [hcount g, hft, if_neg (fun h => hg (Option.some.inj h).symm), add_zero]
      rfl
    · refine FiberInv.self (fun v _ => FiberInv.unowned h0 v) rfl ?_ (fun _ => hown)
        (fun _ => (hi.fiber f).rest h0) ?_ ?_
      · have htok := (hi.fiber f).tokens
        rw [h0] at htok
        show ((pre ++ post).countP fun e => e.fiber = some f : ℕ) +
          Sys.held (s.sys.goto w (Sys.dispatch ft)) f = tokens (s.sys.state f) (s.waker f) _
        rw [hown, Bool.toNat_false, Nat.cast_zero, ← htok, hheld]
        omega
      · intro h
        rw [hown] at h
        cases h
      · intro h
        rw [Pc.owns_of_resumed h] at hown
        cases hown
    · exact hi.born hns
    · exact fun v _ => hi.not_cbFiber_of_unowned h0 hns
    · exact fun h => absurd h (hi.not_cbFiber_of_unowned h0 hns)
    · intro h
      rw [Pc.owns_of_ownsCb h] at hown
      cases hown
    · rw [hd]
      exact Pc.noConfusion

/-- A callback's fiber between two callbacks is set up again. -/
theorem reuse {c : Callback} (hi : Inv s) (hpc : s.sys.pc w = .prepare c)
    (hcb : s.sys.cbFiber w = some f) :
    Inv { s with sys := Sys.goto { s.sys with
      fn := Function.update s.sys.fn f (some c),
      state := Function.update s.sys.state f .init } w (.swapIn .cb f) } := by
  have hs : Spare s f := (hi.spare w f hcb).resolve_left fun h => by
    rw [hpc] at h
    cases h
  obtain ⟨hq, hh⟩ := hi.no_token hs
  refine hi.act (p := .swapIn .cb f) (f := f)
    ⟨rfl, fun g hg h => ?_, fun g hg h => hg (Option.some.inj h).symm,
      fun g hg => Function.update_of_ne hg _ _, fun _ _ => rfl, fun _ _ => rfl, fun _ _ => rfl⟩
    ?_ (hi.cbBorn w f hcb) rfl (fun v hv h => hv (hi.cbInj v w f h hcb)) (fun _ _ h => h)
    (fun _ => Or.inl (by simp [Pc.ownsCb])) (fun _ => hcb) (fun _ _ => rfl)
    (hi.idle_of_update rfl rfl (by rw [hpc]; exact Pc.noConfusion) Pc.noConfusion)
  · rw [hpc] at h
    cases h
  · have hheld : Count.tally (Pc.holds f) (Function.update s.sys.pc w (.swapIn .cb f)) = 0 := by
      unfold Sys.held at hh
      rw [Count.tally_update, hh, hpc]
      rfl
    refine FiberInv.self (p := .swapIn .cb f) (fun v _ => FiberInv.unowned hs.1 v) rfl ?_ ?_ ?_ ?_ ?_
    · show s.sys.queued f + Count.tally (Pc.holds f) (Function.update s.sys.pc w (.swapIn .cb f)) =
        tokens (Function.update s.sys.state f .init f) (s.waker f) _
      rw [hq, hheld, Function.update_self, hs.2.2]
      rfl
    · intro h
      have : 0 < Count.tally (Pc.holds f) (Function.update s.sys.pc w (.swapIn .cb f)) := h
      omega
    · intro h
      simp [Pc.owns] at h
    · exact fun _ => ⟨Function.update_self .., hs.2.2⟩
    · intro h
      cases h

omit [DecidableEq W] in
theorem newFiber (hi : Inv s) (c : Callback) : Inv { s with sys := s.sys.newFiber c } := by
  refine hi.quiet (fun _ => Or.inl rfl) ?_ rfl rfl (fun _ => rfl) (Nat.le_succ _) rfl hi.idle
  have h := (hi.unborn (s.sys.lastId + 1) (Nat.lt_succ_self _)).2.1
  show Function.update s.sys.state (s.sys.lastId + 1) .init = s.sys.state
  rw [← h, Function.update_eq_self]

/-- A worker takes a fiber that is nobody's for its `cb_fiber`. -/
theorem adopt (hi : Inv s) (hw : s.sys.cbFiber w = none) (hs : Spare s f) (hf : f ≤ s.sys.lastId)
    (hcb : ∀ v, s.sys.cbFiber v ≠ some f) :
    Inv { s with sys := s.sys.setCbFiber w (some f) } := by
  have hat : ∀ v g, Function.update s.sys.cbFiber w (some f) v = some g →
      (v = w ∧ g = f) ∨ (v ≠ w ∧ s.sys.cbFiber v = some g) := by
    intro v g h
    by_cases hv : v = w
    · subst hv
      rw [Function.update_self] at h
      exact Or.inl ⟨rfl, (Option.some.inj h).symm⟩
    · rw [Function.update_of_ne hv] at h
      exact Or.inr ⟨hv, h⟩
  refine ⟨fun g => ?_, hi.unborn, fun v g h => ?_, fun u v g hu hv => ?_, fun v g h => ?_,
    fun v g h => ?_, hi.idle⟩
  · exact (hi.fiber g).congr rfl rfl rfl rfl rfl
  · have h' := hi.cbOwn v g h
    show Function.update s.sys.cbFiber w (some f) v = some g
    rw [Function.update_of_ne ?_, h']
    rintro rfl
    rw [hw] at h'
    cases h'
  · rcases hat u g hu with ⟨hu, hg⟩ | ⟨-, hu⟩ <;> rcases hat v g hv with ⟨hv, hg'⟩ | ⟨-, hv⟩
    · rw [hu, hv]
    · exact absurd (hg ▸ hv) (hcb v)
    · exact absurd (hg' ▸ hu) (hcb u)
    · exact hi.cbInj u v g hu hv
  · rcases hat v g h with ⟨-, rfl⟩ | ⟨-, h⟩
    · exact hf
    · exact hi.cbBorn v g h
  · rcases hat v g h with ⟨-, rfl⟩ | ⟨-, h⟩
    · exact Or.inr hs
    · exact hi.spare v g h

/-- `cb_fiber.reset(new Fiber(ft.cb))`. -/
theorem fresh {c : Callback} (hi : Inv s) (hpc : s.sys.pc w = .prepare c)
    (hcb : s.sys.cbFiber w = none) :
    Inv ⟨((s.sys.newFiber c).setCbFiber w (some (s.sys.lastId + 1))).goto w
      (.swapIn .cb (s.sys.lastId + 1)), s.waker, s.resumer⟩ := by
  have hnew := hi.newFiber c
  have hs : Spare { s with sys := s.sys.newFiber c } (s.sys.lastId + 1) := by
    obtain ⟨h0, -, hwk⟩ := hi.unborn (s.sys.lastId + 1) (Nat.lt_succ_self _)
    exact ⟨h0, Function.update_self .., hwk⟩
  have hadopt := hnew.adopt (w := w) hcb hs le_rfl fun v h =>
    absurd (hi.cbBorn v _ h) (Nat.not_succ_le_self _)
  have := hadopt.reuse (w := w) (c := c) hpc (Function.update_self ..)
  simpa [Sys.newFiber, Sys.setCbFiber, Sys.goto] using this

omit [DecidableEq W] in
/-- The waker of `f` does something. -/
theorem signal {t : Sus W} {fibers : List FiberAndThread} (hi : Inv s)
    (hsys : t.sys = { s.sys with fibers := fibers })
    (hq : ∀ g, g ≠ f → t.sys.queued g = s.sys.queued g)
    (hwk : ∀ g, g ≠ f → t.waker g = s.waker g) (hre : t.resumer = s.resumer)
    (hf : f ≤ s.sys.lastId) (hcb : ∀ v, s.sys.cbFiber v = some f → (s.sys.pc v).ownsCb f = true)
    (hself : FiberInv t f) : Inv t := by
  have hpc : t.sys.pc = s.sys.pc := by rw [hsys]
  have hst : t.sys.state = s.sys.state := by rw [hsys]
  have hlast : t.sys.lastId = s.sys.lastId := by rw [hsys]
  have hcbf : t.sys.cbFiber = s.sys.cbFiber := by rw [hsys]
  have hidle : t.sys.idleFiber = s.sys.idleFiber := by rw [hsys]
  have hspare : ∀ g, g ≠ f → Spare s g → Spare t g := by
    intro g hg h
    unfold Spare Sys.owned at h ⊢
    rwa [hpc, hst, hwk g hg]
  refine ⟨fun g => ?_, fun g hg => ?_, ?_, ?_, ?_, fun v g h => ?_, ?_⟩
  · by_cases hg : g = f
    · rw [hg]
      exact hself
    · exact (hi.fiber g).congr hpc (by rw [hst]) (hwk g hg) (by rw [hre]) (hq g hg)
  · rw [hlast] at hg
    exact hspare g (fun h => absurd hf (not_le.2 (h ▸ hg))) (hi.unborn g hg)
  · rw [hpc, hcbf]
    exact hi.cbOwn
  · rw [hcbf]
    exact hi.cbInj
  · rw [hcbf, hlast]
    exact hi.cbBorn
  · rw [hcbf] at h
    rw [hpc]
    by_cases hg : g = f
    · rw [hg] at h ⊢
      exact Or.inl (hcb v h)
    · exact (hi.spare v g h).imp_right (hspare g hg)
  · rw [hidle, hpc]
    exact hi.idle

omit [DecidableEq W] in
/-- A new fiber is its creator's to schedule. -/
theorem create (hi : Inv s) (c : Callback) :
    Inv { s with
      sys := s.sys.newFiber c
      waker := Function.update s.waker (s.sys.lastId + 1) .asked } := by
  have hnew := hi.newFiber c
  obtain ⟨h0, -, hwk⟩ := hi.unborn (s.sys.lastId + 1) (Nat.lt_succ_self _)
  refine hnew.signal (f := s.sys.lastId + 1) rfl (fun _ _ => rfl)
    (fun g hg => Function.update_of_ne hg _ _) rfl le_rfl
    (fun v h => absurd (hi.cbBorn v _ h) (Nat.not_succ_le_self _)) ?_
  obtain ⟨h1, h2, h3, h4, h5, h6⟩ := hnew.fiber (s.sys.lastId + 1)
  refine ⟨h1, ?_, h3, fun _ => Or.inl (Function.update_self ..), fun v hv => ?_, h6⟩
  · show _ = tokens _ (Function.update s.waker (s.sys.lastId + 1) .asked (s.sys.lastId + 1)) _
    have h2' : _ = tokens _ (s.waker (s.sys.lastId + 1)) _ := h2
    rw [hwk] at h2'
    rw [Function.update_self]
    exact h2'
  · have h : (s.sys.pc v).owns (s.sys.lastId + 1) = true := hv
    rw [FiberInv.unowned h0 v] at h
    cases h

omit [DecidableEq W] in
/-- A waker may fire in every state that allows it to be asked. -/
theorem allowed_fired {p : Pc} {st : FiberState} (h : Allowed p st .asked) : Allowed p st .fired := by
  unfold Allowed at h ⊢
  split <;> simp_all

omit [DecidableEq W] in
/-- The waker calls `schedule(fiber, thr)`. -/
theorem wake (hi : Inv s) (hwk : s.waker f = .asked) (thr : ℤ) :
    Inv { s with
      sys := s.sys.schedule (.ofFiber (some f) thr)
      waker := Function.update s.waker f .fired } := by
  have hns : ¬ Spare s f := fun h => by
    rw [h.2.2] at hwk
    cases hwk
  have hat : Function.update s.waker f .fired f = .fired := Function.update_self ..
  refine hi.signal (f := f) rfl (fun g hg => ?_) (fun g hg => Function.update_of_ne hg _ _) rfl
    (hi.born hns) (fun v h => (hi.spare v f h).resolve_right hns) ?_
  · rw [Sys.queued_schedule_fiber, if_neg hg.symm, add_zero]
  · obtain ⟨h1, h2, h3, h4, h5, h6⟩ := hi.fiber f
    refine ⟨h1, ?_, h3, fun h => ?_, fun v hv => ?_, h6⟩
    · show (s.sys.schedule (.ofFiber (some f) thr)).queued f + s.sys.held f =
        tokens (s.sys.state f) (Function.update s.waker f .fired f) (s.sys.owned f)
      rw [Sys.queued_schedule_fiber, if_pos rfl, hat]
      rw [hwk] at h2
      simp [tokens] at h2 ⊢
      omega
    · show Rest (s.sys.state f) (Function.update s.waker f .fired f)
      have := h4 h
      rw [hwk] at this
      rw [hat]
      simp [Rest] at this ⊢
      exact this
    · show Allowed (s.sys.pc v) (s.sys.state f) (Function.update s.waker f .fired f)
      have := h5 v hv
      rw [hwk] at this
      rw [hat]
      exact allowed_fired this

omit [DecidableEq W] in
theorem start : Inv (Sus.start : Sus W) := by
  have howned : ∀ f, (Sus.start : Sus W).sys.owned f = 0 := fun f =>
    (Count.tally_eq_zero_iff _ _).2 fun _ => rfl
  have hheld : ∀ f, (Sus.start : Sus W).sys.held f = 0 := fun f =>
    (Count.tally_eq_zero_iff _ _).2 fun _ => rfl
  refine ⟨fun f => ⟨?_, ?_, ?_, ?_, ?_, ?_⟩, ?_, ?_, ?_, ?_, ?_, ?_⟩
  · rw [howned]
    exact zero_le_one
  · rw [howned, hheld]
    rfl
  · rw [hheld]
    exact fun h => absurd h (lt_irrefl 0)
  · exact fun _ => Or.inl rfl
  · intro w h
    cases h
  · intro w h
    cases h
  · exact fun f _ => ⟨howned f, rfl, rfl⟩
  · intro w f h
    cases h
  · intro v w f h
    cases h
  · intro w f h
    cases h
  · intro w f h
    cases h
  · exact fun w => ⟨FiberState.noConfusion, Pc.noConfusion⟩

omit [DecidableEq W] in
/-- A failed assertion changes nothing else. -/
theorem abort (hi : Inv s) : Inv { s with sys := s.sys.abort } :=
  hi.quiet (fun _ => Or.inl rfl) rfl rfl rfl (fun _ => rfl) le_rfl rfl hi.idle

/-- The idle fiber of `w` is entered or left, or the worker passes by it. -/
theorem idle_move {t : Sus W} {p : Pc} {st : FiberState} (hi : Inv s)
    (hsys : t.sys.pc = Function.update s.sys.pc w p) (h0 : (s.sys.pc w).about = none)
    (h1 : p.about = none) (hst : t.sys.state = s.sys.state) (hwk : t.waker = s.waker)
    (hre : t.resumer = s.resumer) (hq : t.sys.fibers = s.sys.fibers)
    (hlast : t.sys.lastId = s.sys.lastId) (hcb : t.sys.cbFiber = s.sys.cbFiber)
    (hidle : t.sys.idleFiber = Function.update s.sys.idleFiber w st)
    (hp : st = .exec ↔ p = .idling) : Inv t := by
  refine hi.quiet (about_update hsys h0 h1) hst hwk hre (fun g => by rw [Sys.queued, hq]; rfl)
    (le_of_eq hlast.symm) hcb fun v => ?_
  rw [hidle, hsys]
  by_cases hv : v = w
  · subst hv
    rw [Function.update_self, Function.update_self]
    exact hp
  · rw [Function.update_of_ne hv, Function.update_of_ne hv]
    exact hi.idle v

/-- Every statement of `run()` keeps the invariant. -/
theorem run {tid : ℤ} {t : Sys W} (hi : Inv s) (h : Sys.RunStep s.sys tid w t) :
    Inv { s.resumed w with sys := t } := by
  have hsame : (∀ b f, s.sys.pc w ≠ .enter b f) → s.resumed w = s := by
    intro hn
    unfold Sus.resumed
    split
    · next b f hpc => exact absurd hpc (hn b f)
    · rfl
  cases h with
  | take ft hpc ht =>
    rw [hsame (by simp [hpc])]
    exact hi.take hpc ht
  | nothing hpc ht =>
    rw [hsame (by simp [hpc])]
    have hspec := scan_spec s.sys.state tid s.sys.fibers
    rw [ht] at hspec
    generalize (scan s.sys.state tid s.sys.fibers).fibers = rest at hspec
    cases hspec
    exact hi.quiet (about_update rfl (by rw [hpc]; rfl) rfl) rfl rfl rfl (fun _ => rfl) le_rfl rfl
      (hi.idle_of_update rfl rfl (by rw [hpc]; exact Pc.noConfusion) Pc.noConfusion)
  | jump p hj =>
    rw [hsame (fun b f h => by rw [h] at hj; cases hj)]
    exact hi.jump hj
  | reuse c f hpc hcb hst =>
    rw [hsame (by simp [hpc])]
    exact hi.reuse hpc hcb
  | fresh c hpc hcb =>
    rw [hsame (by simp [hpc])]
    exact hi.fresh hpc hcb
  | enter b f hpc =>
    have : s.resumed w = { s with
        waker := Function.update s.waker f .none
        resumer := Function.update s.resumer f (some w) } := by
      unfold Sus.resumed
      rw [hpc]
    rw [this]
    exact hi.enter hpc
  | back b f hpc =>
    rw [hsame (by simp [hpc])]
    exact hi.back hpc
  | requeue b f hpc =>
    rw [hsame (by simp [hpc])]
    exact hi.requeue hpc
  | recycle f hpc hst =>
    rw [hsame (by simp [hpc])]
    exact hi.recycle hpc
  | hold b f hpc =>
    rw [hsame (by simp [hpc])]
    exact hi.hold hpc
  | drop hpc =>
    rw [hsame (by simp [hpc])]
    exact hi.quiet (about_update rfl (by rw [hpc]; rfl) rfl) rfl rfl rfl (fun _ => rfl) le_rfl rfl
      (hi.idle_of_update rfl rfl (by rw [hpc]; exact Pc.noConfusion) Pc.noConfusion)
  | quit hpc _ =>
    rw [hsame (by simp [hpc])]
    exact hi.quiet (about_update rfl (by rw [hpc]; rfl) rfl) rfl rfl rfl (fun _ => rfl) le_rfl rfl
      (hi.idle_of_update rfl rfl (by rw [hpc]; exact Pc.noConfusion) Pc.noConfusion)
  | idle hpc _ =>
    rw [hsame (by simp [hpc])]
    exact hi.idle_move rfl (by rw [hpc]; rfl) rfl rfl rfl rfl rfl rfl rfl rfl (by simp)
  | fail h =>
    rw [hsame (fun b f hpc => by rw [hpc] at h; cases h)]
    exact hi.abort

omit [Fintype W] in
/-- A step of the machine below that leaves the wakers alone. -/
theorem lift_cases {tid : W → ℤ} {t : Sus W} {a : Label W} (h : s.lift tid a = some t) :
    ∃ u, Sys.Step tid s.sys a u ∧ t = { s with sys := u } := by
  obtain ⟨u, hu, rfl⟩ := Option.map_eq_some_iff.1 h
  exact ⟨u, (Sys.step_cases hu).2, rfl⟩

theorem step {tid : W → ℤ} {t : Sus W} {a : Act W} (hi : Inv s) (hok : s.Disciplined a)
    (hs : s.step tid a = some t) : Inv t := by
  cases a with
  | create c =>
    obtain ⟨_, hl, rfl⟩ := Option.map_eq_some_iff.1 hs
    obtain ⟨u, hu, rfl⟩ := lift_cases hl
    cases hu with
    | newFiber => exact hi.create c
    | yieldFail v b f hpc hst ha => rcases ha with ha | ha <;> cases ha
  | post ft =>
    obtain ⟨u, hu, rfl⟩ := lift_cases hs
    cases hu with
    | schedule =>
      have hn : ∀ x ∈ [ft], x.fiber = none := fun x hx => List.mem_singleton.1 hx ▸ hok
      refine hi.quiet (fun _ => Or.inl rfl) rfl rfl rfl (fun g => ?_) le_rfl rfl hi.idle
      exact Sys.queued_of_no_fiber (scheduleNoLock_fibers _ _) hn g
    | yieldFail => exact hi.abort
  | postRange fts =>
    obtain ⟨u, hu, rfl⟩ := lift_cases hs
    cases hu with
    | scheduleRange =>
      refine hi.quiet (fun _ => Or.inl rfl) rfl rfl rfl (fun g => ?_) le_rfl rfl hi.idle
      exact Sys.queued_of_no_fiber (scheduleRange_fibers _ _ _) hok g
    | yieldFail => exact hi.abort
  | publish w =>
    simp only [Sus.step, Sus.publish] at hs
    split at hs
    · next b f hpc =>
      cases hs
      exact hi.publish hpc (Pc.OnBody.of_eq hok hpc)
    · cases hs
  | wake f thr =>
    obtain ⟨_, hl, rfl⟩ := Option.map_eq_some_iff.1 hs
    obtain ⟨u, hu, rfl⟩ := lift_cases hl
    cases hu with
    | schedule => exact hi.wake hok thr
    | yieldFail v b g hpc hst ha => rcases ha with ha | ha <;> cases ha
  | run w =>
    obtain ⟨u, hu, rfl⟩ := lift_cases hs
    cases hu with
    | run _ _ h =>
      have hsys : (s.resumed w).sys = s.sys := by
        unfold Sus.resumed
        split <;> rfl
      rw [hsys] at h
      exact hi.run h
    | yieldFail v b f hpc hst ha => rcases ha with ha | ha <;> cases ha
  | yieldToReady w =>
    obtain ⟨u, hu, rfl⟩ := lift_cases hs
    cases hu with
    | yieldToReady _ b f hpc _ =>
      exact hi.leave hpc (Or.inr ⟨Or.inl rfl, Pc.OnBody.of_eq hok hpc⟩) s.sys.fn
    | yieldFail => exact hi.abort
  | yieldToHold w =>
    obtain ⟨u, hu, rfl⟩ := lift_cases hs
    cases hu with
    | yieldToHold _ b f hpc _ =>
      exact hi.leave hpc (Or.inl ⟨rfl, Pc.OnBody.of_eq hok hpc⟩) s.sys.fn
    | yieldFail => exact hi.abort
  | finish w =>
    obtain ⟨u, hu, rfl⟩ := lift_cases hs
    cases hu with
    | finish _ b f hpc =>
      exact hi.leave hpc (Or.inr ⟨Or.inr (Or.inl rfl), Pc.OnBody.of_eq hok hpc⟩) _
    | yieldFail => exact hi.abort
  | throw w =>
    obtain ⟨u, hu, rfl⟩ := lift_cases hs
    cases hu with
    | throw _ b f hpc =>
      exact hi.leave hpc (Or.inr ⟨Or.inr (Or.inr rfl), Pc.OnBody.of_eq hok hpc⟩) s.sys.fn
    | yieldFail => exact hi.abort
  | idleOut w o =>
    obtain ⟨u, hu, rfl⟩ := lift_cases hs
    cases hu with
    | idleOut _ _ hpc =>
      exact hi.idle_move rfl (by rw [hpc]; rfl) rfl rfl rfl rfl rfl rfl rfl rfl
        (by cases o <;> simp [IdleOut.state])
    | yieldFail => exact hi.abort

omit [DecidableEq W] in
/-- The invariant says that execution is exclusive. -/
theorem exclusive (hi : Inv s) : s.Exclusive where
  one f v w hv hw := by
    have h : ∀ u, (s.sys.pc u).executes f = true → (s.sys.pc u).owns f = true := fun u hu =>
      Pc.owns_of_resumed (Pc.resumed_of_executes hu)
    exact Count.eq_of_tally_le_one (hi.fiber f).own_le (h v hv) (h w hw)
  swapIn w b f hpc := by
    cases b with
    | fiber => exact ((hi.fiber f).of_holds (w := w) (by rw [hpc]; simp [Pc.holds])).1
    | cb =>
      have h := (hi.fiber f).owner w (by rw [hpc]; simp [Pc.owns])
      rw [hpc] at h
      rw [h.1]
      exact FiberState.noConfusion
  idle w hpc h := by
    rw [hi.idle w, hpc] at h
    cases h
  hold w b f hpc := by
    have ho : (s.sys.pc w).owns f = true := by rw [hpc]; simp [Pc.owns]
    have ha := (hi.fiber f).owner w ho
    rw [hpc] at ha
    refine ⟨ha.1, (hi.fiber f).resumer w (by rw [hpc]; simp [Pc.resumed]), fun v => ?_⟩
    exact (Count.tally_eq_zero_iff _ _).1 ((hi.fiber f).of_owns ho).1 v
  kept f hf := by
    have ht := (hi.fiber f).tokens
    rw [ht, hf, tokens, if_pos rfl, if_neg, add_zero]
    rintro ⟨hst, h0⟩
    have := (hi.fiber f).rest h0
    rw [hst, hf] at this
    simp [Rest] at this
  early f w hf ho := by
    rw [((hi.fiber f).of_owns ho).2, if_pos hf]

end Sus.Inv

/-- **A fiber never runs on two workers at once.** In every run in which each suspension has one
waker, for any number of workers and any order of steps, `swapIn`'s assertion holds, `run()`
overwrites no state after another worker has resumed the fiber, and no wake-up is lost. -/
theorem run_exclusive (tid : W → ℤ) {s : Sus W}
    (hr : Reach (Sus.step tid) Sus.Disciplined Sus.start s) : s.Exclusive :=
  (hr.invariant (I := Sus.Inv) Sus.Inv.start fun _ _ _ hi hok hs => hi.step hok hs).exclusive

/-- A waker that fires before the swap-out: worker 1 scans past the entry, and the wake-up is still in
the queue when worker 0 is about to store `HOLD`. -/
theorem run_exclusive_early : ∃ s : Sus (Fin 2), s.sys.pc 0 = .hold .fiber 1 ∧
    s.sys.pc 1 = .idleTest ∧ s.waker 1 = .fired ∧ s.Exclusive := by
  have hr := reach_exec (Sus.step fun w : Fin 2 => (w.val : ℤ)) Sus.Disciplined Sus.start
    [.create 7, .wake 1 (-1), .run 0, .run 0, .run 0, .run 0, .run 0, .publish 0, .wake 1 (-1),
      .run 1, .yieldToHold 0, .run 0, .run 0, .run 0, .run 0, .run 0] (by decide)
  refine ⟨_, ?_, ?_, ?_, run_exclusive _ hr⟩ <;> decide

end CoroutineScheduler
