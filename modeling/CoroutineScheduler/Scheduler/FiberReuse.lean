import CoroutineScheduler.Scheduler.CbFiber

/-!
# A fiber for callbacks is reused safely

Every step of `CbRun` keeps the invariant. A step of a worker moves one callback from the queue into its
hands, from there into a fiber, or starts it (`Inv.worker`); most steps do none of this (`Inv.stay`). A
step with one fiber puts its context where its new state says (`Inv.touch`).
-/

namespace CoroutineScheduler

open Trans

namespace CbRun

variable {W : Type} [Fintype W] {s t : CbRun W} {f : FiberId} {v w : W} {c : Callback}

/-! ## The counts -/

theorem inQueue_append (es es' : List FiberAndThread) :
    inQueue (es ++ es') c = inQueue es c + inQueue es' c := by
  rw [inQueue, List.countP_append, Nat.cast_add]
  rfl

theorem inQueue_eq_zero {es : List FiberAndThread} (h : ∀ e ∈ es, e.cb = none) : inQueue es c = 0 := by
  have h0 : es.countP (fun e => e.cb = some c) = 0 := List.countP_eq_zero.2 fun e he => by
    rw [h e he]
    simp
  rw [inQueue, h0, Nat.cast_zero]

theorem inQueue_filter (es : List FiberAndThread) :
    inQueue (es.filter FiberAndThread.nonEmpty) c = inQueue es c := by
  rw [inQueue, List.countP_filter]
  refine congrArg Nat.cast (List.countP_congr fun e _ => ?_)
  simp only [Bool.and_eq_true, decide_eq_true_eq, and_iff_left_iff_imp]
  intro he
  simp [FiberAndThread.nonEmpty, he]

theorem unstarted_update (pending : FiberId → Option Callback) {last : FiberId} (hf : f ≤ last)
    (x : Option Callback) :
    unstarted (Function.update pending f x) last c =
      unstarted pending last c - (if pending f = some c then 1 else 0) + if x = some c then 1 else 0 := by
  have hmem : f ∈ Finset.range (last + 1) := Finset.mem_range.2 (Nat.lt_succ_of_le hf)
  rw [unstarted, unstarted, ← Finset.add_sum_erase _ _ hmem, ← Finset.add_sum_erase _ _ hmem,
    Function.update_self]
  have hrest : ∀ g ∈ (Finset.range (last + 1)).erase f,
      (if Function.update pending f x g = some c then (1 : ℤ) else 0) =
        if pending g = some c then 1 else 0 := fun g hg => by
    rw [Function.update_of_ne (Finset.ne_of_mem_erase hg)]
  rw [Finset.sum_congr rfl hrest]
  ring

theorem unstarted_succ (pending : FiberId → Option Callback) (last : FiberId) (x : Option Callback) :
    unstarted (Function.update pending (last + 1) x) (last + 1) c =
      unstarted pending last c + if x = some c then 1 else 0 := by
  rw [unstarted, unstarted, Finset.sum_range_succ, Function.update_self]
  have hrest : ∀ g ∈ Finset.range (last + 1),
      (if Function.update pending (last + 1) x g = some c then (1 : ℤ) else 0) =
        if pending g = some c then 1 else 0 := fun g hg => by
    rw [Function.update_of_ne (Finset.mem_range.1 hg).ne]
  rw [Finset.sum_congr rfl hrest]

/-! ## What a step does to the callbacks -/

/-- A step from outside, which moves no worker. -/
theorem Inv.handIn (h : Inv s) (hsus : t.sus.Inv)
    (hctx : ∀ f, t.context f = contextOf (t.sus.sys.state f)) (hpc : t.sus.sys.pc = s.sus.sys.pc)
    (hentries : ∀ e ∈ t.sus.sys.fibers, e.fiber = none ∨ e.cb = none)
    (hspare : ∀ f, Spare t.sus f → t.sus.sys.fn f = none) (hstarted : ∀ c, t.started c = s.started c)
    (honce : ∀ c, (t.posted c : ℤ) + inQueue s.sus.sys.fibers c +
        unstarted s.pending s.sus.sys.lastId c =
      s.posted c + inQueue t.sus.sys.fibers c + unstarted t.pending t.sus.sys.lastId c) : Inv t where
  sus := hsus
  context := hctx
  entries := hentries
  testing v ft hv := h.testing v ft (by rwa [hpc] at hv)
  spare := hspare
  once c := by
    have h0 := h.once c
    have h1 := honce c
    rw [waiting] at h0 ⊢
    rw [hstarted, hpc]
    omega

variable [DecidableEq W]

theorem tally_move {q : W → Pc} {p : Pc} :
    Count.tally (fun p : Pc => p.callback = some c) (Function.update q w p) =
      Count.tally (fun p : Pc => p.callback = some c) q - (if (q w).callback = some c then 1 else 0) +
        if p.callback = some c then 1 else 0 := by
  rw [Count.tally_update]
  congr 1
  · congr 1
    by_cases h : (q w).callback = some c <;> simp [h]
  · by_cases h : p.callback = some c <;> simp [h]

/-- A step of one worker, by what it does to the callbacks. -/
theorem Inv.worker (h : Inv s) (hsus : t.sus.Inv)
    (hctx : ∀ f, t.context f = contextOf (t.sus.sys.state f)) {p : Pc}
    (hpc : t.sus.sys.pc = Function.update s.sus.sys.pc w p)
    (hentries : ∀ e ∈ t.sus.sys.fibers, e.fiber = none ∨ e.cb = none)
    (htest : ∀ ft, p.tested = some ft → ft.cb = none)
    (hspare : ∀ f, Spare t.sus f → t.sus.sys.fn f = none) (hposted : ∀ c, t.posted c = s.posted c)
    (honce : ∀ c, (t.started c : ℤ) + inQueue t.sus.sys.fibers c +
        (if p.callback = some c then 1 else 0) + unstarted t.pending t.sus.sys.lastId c =
      s.started c + inQueue s.sus.sys.fibers c +
        (if (s.sus.sys.pc w).callback = some c then 1 else 0) +
        unstarted s.pending s.sus.sys.lastId c) : Inv t where
  sus := hsus
  context := hctx
  entries := hentries
  testing v ft hv := by
    rw [hpc] at hv
    rcases eq_or_ne v w with rfl | hne
    · rw [Function.update_self] at hv
      exact htest ft hv
    · rw [Function.update_of_ne hne] at hv
      exact h.testing v ft hv
  spare := hspare
  once c := by
    have h0 := h.once c
    have h1 := honce c
    rw [waiting] at h0 ⊢
    rw [hposted, hpc, tally_move]
    omega

/-- A step of one worker that leaves every callback where it is. -/
theorem Inv.move (h : Inv s) (hsus : t.sus.Inv)
    (hctx : ∀ f, t.context f = contextOf (t.sus.sys.state f)) {es : List FiberAndThread}
    (hfibers : t.sus.sys.fibers = s.sus.sys.fibers ++ es) (hes : ∀ e ∈ es, e.cb = none) {p : Pc}
    (hpc : t.sus.sys.pc = Function.update s.sus.sys.pc w p)
    (hcall : p.callback = (s.sus.sys.pc w).callback)
    (htest : ∀ ft, p.tested = some ft → ft.cb = none)
    (hspare : ∀ f, Spare t.sus f → Spare s.sus f)
    (hfn : ∀ f, s.sus.sys.fn f = none → t.sus.sys.fn f = none)
    (hpend : ∀ f, t.pending f = s.pending f) (hlast : t.sus.sys.lastId = s.sus.sys.lastId)
    (hposted : ∀ c, t.posted c = s.posted c) (hstarted : ∀ c, t.started c = s.started c) : Inv t := by
  refine h.worker hsus hctx hpc (fun e he => ?_) htest (fun f hf => hfn f (h.spare f (hspare f hf)))
    hposted fun c => ?_
  · rw [hfibers] at he
    exact (List.mem_append.1 he).elim (h.entries e) fun he => Or.inr (hes e he)
  · rw [hstarted, hfibers, inQueue_append, inQueue_eq_zero hes, hcall, hlast,
      show t.pending = s.pending from funext hpend, add_zero]

/-- A worker that keeps a fiber it has not entered makes no fiber spare. -/
theorem spare_of_move {s t : Sus W} {p : Pc} (hs : Spare t f)
    (hpc : t.sys.pc = Function.update s.sys.pc w p)
    (hst : t.sys.state f = .init → s.sys.state f = .init)
    (hwk : t.waker f = .none → s.waker f = .none)
    (hkeep : (s.sys.pc w).owns f = true → s.sys.state f = .init → p.owns f = true) : Spare s f := by
  have hinit := hst hs.2.1
  refine ⟨?_, hinit, hwk hs.2.2⟩
  have h0 := hs.1
  rw [Sys.owned, hpc, Count.tally_update] at h0
  have hnn : 0 ≤ Count.tally (Pc.owns f) s.sys.pc := Count.tally_nonneg _ _
  rw [Sys.owned]
  by_cases ho : (s.sys.pc w).owns f = true
  · rw [ho, hkeep ho hinit] at h0
    simpa using h0
  · rw [Bool.not_eq_true] at ho
    rw [ho] at h0
    simp only [Bool.toNat_false] at h0
    omega

omit [Fintype W] [DecidableEq W] in
/-- A worker that is about one fiber owns no other. -/
theorem not_owns_of_about {p : Pc} {g : FiberId} (habout : p.about = some f) (hg : g ≠ f) :
    p.owns g = false :=
  (Pc.not_about fun hc => hg (Option.some.inj (hc.symm.trans habout))).1

/-- A fiber that a worker owns is not spare. -/
theorem not_spare_of_update {s : Sus W} {p : Pc} {q : W → Pc}
    (hpc : s.sys.pc = Function.update q w p) (hp : p.owns f = true) : ¬Spare s f := fun hs => by
  have hw := FiberInv.unowned hs.1 w
  rw [hpc, Function.update_self, hp] at hw
  cases hw

omit [DecidableEq W] in
theorem Inv.context_update (h : Inv s) (f : FiberId) (st : FiberState) (g : FiberId) :
    Function.update s.context f (contextOf st) g =
      contextOf (Function.update s.sus.sys.state f st g) := by
  rcases eq_or_ne g f with rfl | hg
  · rw [Function.update_self, Function.update_self]
  · rw [Function.update_of_ne hg, Function.update_of_ne hg, h.context]

omit [Fintype W] [DecidableEq W] in
/-- What a fiber has yet to start, behind a step that gives it a context. -/
theorem pending_update {k : Context} (hctx : t.context = Function.update s.context f k)
    (hfn : ∀ g, g ≠ f → t.sus.sys.fn g = s.sus.sys.fn g) :
    t.pending = Function.update s.pending f (if k = .main then t.sus.sys.fn f else none) := by
  funext g
  rw [pending, hctx]
  rcases eq_or_ne g f with rfl | hg
  · rw [Function.update_self, Function.update_self]
  · rw [Function.update_of_ne hg, Function.update_of_ne hg, hfn g hg]
    rfl

/-- A step of one worker with one fiber, which is put into the state `st`. -/
theorem Inv.touch (h : Inv s) (hsus : t.sus.Inv) {p : Pc} {st : FiberState}
    (hpc : t.sus.sys.pc = Function.update s.sus.sys.pc w p)
    (hfibers : t.sus.sys.fibers = s.sus.sys.fibers)
    (hstate : t.sus.sys.state = Function.update s.sus.sys.state f st)
    (hctx : t.context = Function.update s.context f (contextOf st))
    (hfn : ∀ g, g ≠ f → t.sus.sys.fn g = s.sus.sys.fn g)
    (hwk : ∀ g, g ≠ f → t.sus.waker g = s.sus.waker g)
    (hother : ∀ g, g ≠ f → (s.sus.sys.pc w).owns g = false)
    (htest : ∀ ft, p.tested = some ft → ft.cb = none)
    (hspare : Spare t.sus f → t.sus.sys.fn f = none) (hposted : ∀ c, t.posted c = s.posted c)
    (honce : ∀ c, (t.started c : ℤ) + (if p.callback = some c then 1 else 0) +
        unstarted (Function.update s.pending f (if contextOf st = .main then t.sus.sys.fn f else none))
          t.sus.sys.lastId c =
      s.started c + (if (s.sus.sys.pc w).callback = some c then 1 else 0) +
        unstarted s.pending s.sus.sys.lastId c) : Inv t := by
  refine h.worker hsus (fun g => ?_) hpc (by rw [hfibers]; exact h.entries) htest (fun g hg => ?_)
    hposted fun c => ?_
  · rw [hctx, hstate]
    exact h.context_update f st g
  · rcases eq_or_ne g f with rfl | hne
    · exact hspare hg
    · rw [hfn g hne]
      refine h.spare g (spare_of_move hg hpc (fun hi => ?_) (fun hn => ?_) fun ho => ?_)
      · rwa [hstate, Function.update_of_ne hne] at hi
      · rwa [hwk g hne] at hn
      · rw [hother g hne] at ho
        cases ho
  · have h1 := honce c
    rw [hfibers, pending_update hctx hfn]
    omega

/-! ## The statements of `run()` -/

section
variable {tid : ℤ} {u : Sys W} {p q : Pc}

omit [Fintype W] [DecidableEq W] in
/-- Most statements touch no context and start no callback. -/
theorem run_same (h : (s.sus.sys.pc w).setsContext = false) :
    s.contexts (.run w) = s.context ∧ ∀ c, s.starts c (.run w) = 0 := by
  revert h
  simp only [contexts, starts, entered]
  cases s.sus.sys.pc w with
  | prepare c | recycle f | enter b f => exact fun h => by cases h
  | _ => exact fun _ => ⟨rfl, fun _ => rfl⟩

theorem Jump.callback {st : FiberId → FiberState} (hj : Sys.Jump st p q)
    (ht : ∀ ft, p.tested = some ft → ft.cb = none) :
    q.callback = p.callback ∧ ∀ ft, q.tested = some ft → ft.cb = none := by
  cases hj with
  | @isTerm ft f _ | @isExcept ft f _ =>
    have hcb := ht ft rfl
    have hdrop : Sys.afterFiber ft = .drop := by rw [Sys.afterFiber, hcb]
    rw [hdrop]
    exact ⟨hcb.symm, fun _ h => by cases h⟩
  | notTerm => exact ⟨rfl, ht⟩
  | @notExcept ft f _ => exact ⟨(ht ft rfl).symm, fun _ h => by cases h⟩
  | swapIn | swapOut | ready | notReady | fiberTerm | fiberNotTerm | fiberExcept | fiberHold
  | cbExcept | cbNotExcept | cbTerm | cbHold => exact ⟨rfl, fun _ h => by cases h⟩

theorem Jump.setsContext {st : FiberId → FiberState} (hj : Sys.Jump st p q) :
    p.setsContext = false := by
  cases hj <;> rfl

omit [Fintype W] [DecidableEq W] in
theorem resumed_eq {s : Sus W} (he : ∀ b f, s.sys.pc w ≠ .enter b f) : s.resumed w = s := by
  unfold Sus.resumed
  split
  · next b f hpc => exact absurd hpc (he b f)
  · rfl

/-- A statement that starts nothing. -/
theorem Inv.stay (h : Inv s) (hsus : Sus.Inv { s.sus.resumed w with sys := u })
    (hsets : (s.sus.sys.pc w).setsContext = false) {es : List FiberAndThread}
    (hfibers : u.fibers = s.sus.sys.fibers ++ es) (hes : ∀ e ∈ es, e.cb = none)
    (hpc : u.pc = Function.update s.sus.sys.pc w p) (hcall : p.callback = (s.sus.sys.pc w).callback)
    (htest : ∀ ft, p.tested = some ft → ft.cb = none)
    (hkeep : ∀ f, s.sus.sys.pc w = .swapIn .cb f → p.owns f = true)
    (hst : ∀ f, contextOf (u.state f) = contextOf (s.sus.sys.state f)) (hfn : u.fn = s.sus.sys.fn)
    (hlast : u.lastId = s.sus.sys.lastId) :
    Inv (s.next { s.sus.resumed w with sys := u } (.run w)) := by
  obtain ⟨hctx, hstarts⟩ := run_same hsets
  have he : ∀ b f, s.sus.sys.pc w ≠ .enter b f := by
    intro b f hpc
    rw [hpc] at hsets
    cases hsets
  have hwk : (s.sus.resumed w).waker = s.sus.waker := by rw [resumed_eq he]
  refine h.move (p := p) (w := w) hsus (fun f => ?_) hfibers hes hpc hcall htest (fun f hf => ?_)
    (fun f hf => ?_) (fun f => ?_) hlast (fun c => rfl) (fun c => ?_)
  · show s.contexts (.run w) f = contextOf (u.state f)
    rw [hctx, h.context, hst]
  · refine spare_of_move hf hpc (fun hi => ?_) (fun hn => ?_) (fun ho hi => ?_)
    · have hi : u.state f = .init := hi
      rwa [← contextOf_eq_main, hst, contextOf_eq_main] at hi
    · have hn : (s.sus.resumed w).waker f = .none := hn
      rwa [hwk] at hn
    · rcases h.enters_of_owns ho hi with hs | hs
      · exact hkeep f hs
      · exact absurd hs (he _ _)
  · show u.fn f = none
    rwa [hfn]
  · show (if s.contexts (.run w) f = .main then u.fn f else none) = s.pending f
    rw [hctx, hfn]
    rfl
  · show s.started c + s.starts c (.run w) = s.started c
    rw [hstarts, add_zero]

/-- The callback of a taken entry goes into the hands of the worker. -/
theorem dispatch_callback (ft : FiberAndThread) : (Sys.dispatch ft).callback = ft.cb := by
  rw [Sys.dispatch]
  split
  · rfl
  · rw [Sys.afterFiber]
    split
    · next c hc => exact hc.symm
    · next hc => exact hc.symm

theorem dispatch_tested {ft e : FiberAndThread} (h : (Sys.dispatch e).tested = some ft) :
    ft = e ∧ e.fiber ≠ none := by
  rw [Sys.dispatch] at h
  split at h
  · next f hf =>
    cases h
    exact ⟨rfl, by rw [hf]; exact Option.some_ne_none f⟩
  · rw [Sys.afterFiber] at h
    split at h <;> cases h

omit [Fintype W] in
/-- A waiting callback: out of the queue, into the hands of the worker. -/
theorem inQueue_take {pre post : List FiberAndThread} {e : FiberAndThread} :
    inQueue (pre ++ e :: post) c = inQueue (pre ++ post) c + if e.cb = some c then 1 else 0 := by
  rw [inQueue_append, inQueue_append, inQueue, inQueue, List.countP_cons]
  by_cases he : e.cb = some c <;> simp [he, inQueue, add_assoc]

/-- The worker takes an entry. -/
theorem Inv.take {ft : FiberAndThread} (h : Inv s)
    (hsus : Sus.Inv { s.sus with
      sys := { s.sus.sys.goto w (Sys.dispatch ft) with
        fibers := (scan s.sus.sys.state tid s.sus.sys.fibers).fibers
        active := s.sus.sys.active + 1 } })
    (hpc : s.sus.sys.pc w = .scan)
    (ht : (scan s.sus.sys.state tid s.sus.sys.fibers).taken = some ft) :
    Inv (s.next { s.sus with
      sys := { s.sus.sys.goto w (Sys.dispatch ft) with
        fibers := (scan s.sus.sys.state tid s.sus.sys.fibers).fibers
        active := s.sus.sys.active + 1 } } (.run w)) := by
  obtain ⟨hctx, hstarts⟩ := run_same (s := s) (w := w) (by rw [hpc]; rfl)
  have hspec := scan_spec s.sus.sys.state tid s.sus.sys.fibers
  rw [ht] at hspec
  generalize (scan s.sus.sys.state tid s.sus.sys.fibers).fibers = rest at hspec hsus ⊢
  generalize hes : s.sus.sys.fibers = es at hspec
  obtain ⟨pre, post, _, hsplit, -, -⟩ := hspec
  have hmem : ∀ e, e ∈ pre ++ ft :: post → e.fiber = none ∨ e.cb = none := fun e he =>
    h.entries e (by rwa [hes, hsplit])
  refine h.worker (p := Sys.dispatch ft) (w := w) hsus (fun f => ?_) rfl (fun e he => hmem e ?_)
    (fun e hv => ?_) (fun f hf => h.spare f (spare_of_move hf rfl id id fun ho => ?_))
    (fun _ => rfl) fun c => ?_
  · show s.contexts (.run w) f = contextOf (s.sus.sys.state f)
    rw [hctx, h.context]
  · exact List.mem_append.2 ((List.mem_append.1 he).imp_right (List.mem_cons_of_mem _))
  · obtain ⟨rfl, hfiber⟩ := dispatch_tested hv
    exact (hmem e (List.mem_append_right _ (List.mem_cons_self ..))).resolve_left hfiber
  · rw [hpc] at ho
    cases ho
  · have hpend : (s.next { s.sus with
        sys := { s.sus.sys.goto w (Sys.dispatch ft) with
          fibers := pre ++ post
          active := s.sus.sys.active + 1 } } (.run w)).pending = s.pending := by
      funext f
      show (if s.contexts (.run w) f = .main then s.sus.sys.fn f else none) = s.pending f
      rw [hctx]
      rfl
    show ((s.started c + s.starts c (.run w) : ℕ) : ℤ) + inQueue (pre ++ post) c + _ +
      unstarted _ s.sus.sys.lastId c = _
    rw [hstarts, add_zero, hpend, hes, hsplit, inQueue_take, dispatch_callback, hpc]
    simp only [Pc.callback, reduceCtorEq, if_false]
    ring

/-- The callback goes from the hands of the worker into the fiber that it enters next. -/
theorem Inv.fill (h : Inv s) (hsus : Sus.Inv { s.sus with sys := u })
    (hpc : s.sus.sys.pc w = .prepare c)
    (hto : u.pc = Function.update s.sus.sys.pc w (.swapIn .cb f))
    (hfibers : u.fibers = s.sus.sys.fibers)
    (hfn : u.fn = Function.update s.sus.sys.fn f (some c))
    (hstate : u.state = Function.update s.sus.sys.state f .init)
    (hctx : s.contexts (.run w) = Function.update s.context f .main)
    (hcount : ∀ c', unstarted (Function.update s.pending f (some c)) u.lastId c' =
      unstarted s.pending s.sus.sys.lastId c' + if some c = some c' then 1 else 0) :
    Inv (s.next { s.sus with sys := u } (.run w)) := by
  have hstarts : ∀ c', s.starts c' (.run w) = 0 := fun c' => by simp only [starts, entered, hpc]
  have hcall : (s.sus.sys.pc w).callback = some c := by rw [hpc]; rfl
  have hother : ∀ g, g ≠ f → u.fn g = s.sus.sys.fn g := fun g hg => by
    rw [hfn, Function.update_of_ne hg]
  refine h.touch (p := .swapIn .cb f) (w := w) hsus hto hfibers hstate hctx hother (fun _ _ => rfl)
    (fun g _ => by rw [hpc]; rfl) (fun _ h => by cases h)
    (fun hs => absurd hs (not_spare_of_update hto (by simp [Pc.owns]))) (fun _ => rfl) fun c' => ?_
  show ((s.started c' + s.starts c' (.run w) : ℕ) : ℤ) + _ + unstarted (Function.update s.pending f
    (if Context.main = .main then u.fn f else none)) u.lastId c' = _
  rw [hstarts, add_zero, if_pos rfl, hfn, Function.update_self, hcount, hcall]
  simp only [Pc.callback, reduceCtorEq, if_false]
  ring

/-- `cb_fiber->reset(ft.cb)`. -/
theorem Inv.reuse (h : Inv s)
    (hsus : Sus.Inv { s.sus with
      sys := Sys.goto { s.sus.sys with
        fn := Function.update s.sus.sys.fn f (some c)
        state := Function.update s.sus.sys.state f .init } w (.swapIn .cb f) })
    (hpc : s.sus.sys.pc w = .prepare c) (hcb : s.sus.sys.cbFiber w = some f) :
    Inv (s.next { s.sus with
      sys := Sys.goto { s.sus.sys with
        fn := Function.update s.sus.sys.fn f (some c)
        state := Function.update s.sus.sys.state f .init } w (.swapIn .cb f) } (.run w)) := by
  have hctx : s.contexts (.run w) = Function.update s.context f .main := by
    simp only [contexts, hpc, hcb, Option.getD_some]
  have hbefore : s.pending f = none := by
    rw [pending, h.spare f (h.spare_of_prepare hpc hcb), ite_self]
  refine h.fill hsus hpc rfl rfl rfl rfl hctx fun c' => ?_
  show unstarted _ s.sus.sys.lastId c' = _
  rw [unstarted_update _ (h.sus.cbBorn w f hcb), hbefore, if_neg (Option.some_ne_none c').symm, sub_zero]

/-- `cb_fiber.reset(new Fiber(ft.cb))`. -/
theorem Inv.fresh (h : Inv s)
    (hsus : Sus.Inv { s.sus with
      sys := ((s.sus.sys.newFiber c).setCbFiber w (some (s.sus.sys.lastId + 1))).goto w
        (.swapIn .cb (s.sus.sys.lastId + 1)) })
    (hpc : s.sus.sys.pc w = .prepare c) (hcb : s.sus.sys.cbFiber w = none) :
    Inv (s.next { s.sus with
      sys := ((s.sus.sys.newFiber c).setCbFiber w (some (s.sus.sys.lastId + 1))).goto w
        (.swapIn .cb (s.sus.sys.lastId + 1)) } (.run w)) := by
  have hctx : s.contexts (.run w) = Function.update s.context (s.sus.sys.lastId + 1) .main := by
    simp only [contexts, hpc, hcb, Option.getD_none]
  exact h.fill hsus hpc rfl rfl rfl rfl hctx fun c' => unstarted_succ _ _ _

/-- `swapIn`: a fiber that has not begun starts its callback. -/
theorem Inv.enter {b : Branch} (h : Inv s)
    (hsus : Sus.Inv { s.sus.resumed w with sys := (s.sus.sys.write f .exec).goto w (.body b f) })
    (hpc : s.sus.sys.pc w = .enter b f) :
    Inv (s.next { s.sus.resumed w with sys := (s.sus.sys.write f .exec).goto w (.body b f) }
      (.run w)) := by
  have hctx : s.contexts (.run w) = Function.update s.context f .live := by
    simp only [contexts, hpc]
  have hstarts : ∀ c', (s.starts c' (.run w) : ℤ) = if s.pending f = some c' then 1 else 0 := by
    intro c'
    simp only [starts, entered, hpc, pending_eq_some]
    split_ifs <;> rfl
  have hborn : f ≤ s.sus.sys.lastId := h.sus.born (h.sus.not_spare (v := w) (by
    rw [hpc]
    cases b <;> simp [Pc.owns, Pc.holds]))
  have hwk : (s.sus.resumed w).waker = Function.update s.sus.waker f .none := by
    rw [Sus.resumed, hpc]
  have habout : (s.sus.sys.pc w).about = some f := by rw [hpc]; rfl
  refine h.touch (p := .body b f) (w := w) hsus rfl rfl rfl hctx (fun _ _ => rfl) (fun g hg => ?_)
    (fun g => not_owns_of_about habout) (fun _ h => by cases h)
    (fun hs => absurd hs (not_spare_of_update rfl (by simp [Pc.owns]))) (fun _ => rfl) fun c' => ?_
  · show (s.sus.resumed w).waker g = s.sus.waker g
    rw [hwk, Function.update_of_ne hg]
  · show ((s.started c' + s.starts c' (.run w) : ℕ) : ℤ) + _ + unstarted (Function.update s.pending f
      none) s.sus.sys.lastId c' = _
    rw [Nat.cast_add, hstarts, unstarted_update _ hborn, hpc]
    simp only [Pc.callback, reduceCtorEq, if_false]
    ring

/-- `cb_fiber->reset(nullptr)`: a callback that has thrown is forgotten. -/
theorem Inv.recycle (h : Inv s)
    (hsus : Sus.Inv { s.sus with
      sys := Sys.goto { s.sus.sys with
        fn := Function.update s.sus.sys.fn f none
        state := Function.update s.sus.sys.state f .init } w .scan })
    (hpc : s.sus.sys.pc w = .recycle f) :
    Inv (s.next { s.sus with
      sys := Sys.goto { s.sus.sys with
        fn := Function.update s.sus.sys.fn f none
        state := Function.update s.sus.sys.state f .init } w .scan } (.run w)) := by
  have hctx : s.contexts (.run w) = Function.update s.context f .main := by
    simp only [contexts, hpc]
  have hstarts : ∀ c', s.starts c' (.run w) = 0 := fun c' => by simp only [starts, entered, hpc]
  have hbefore : s.pending f = none := by
    have ha := (h.sus.fiber f).owner w (by rw [hpc]; simp [Pc.owns])
    rw [hpc] at ha
    rw [pending, h.context, if_neg]
    rcases ha.1 with hst | hst <;> rw [hst] <;> exact Context.noConfusion
  have habout : (s.sus.sys.pc w).about = some f := by rw [hpc]; rfl
  have hnone : Function.update s.sus.sys.fn f none f = none := Function.update_self ..
  refine h.touch (p := .scan) (w := w) hsus rfl rfl rfl hctx
    (fun g hg => Function.update_of_ne hg _ _) (fun _ _ => rfl)
    (fun g => not_owns_of_about habout)
    (fun _ h => by cases h) (fun _ => hnone) (fun _ => rfl) fun c' => ?_
  show ((s.started c' + s.starts c' (.run w) : ℕ) : ℤ) + _ + unstarted (Function.update s.pending f
    (if Context.main = .main then Function.update s.sus.sys.fn f none f else none))
    s.sus.sys.lastId c' = _
  rw [hstarts, if_pos rfl, hnone, ← hbefore, Function.update_eq_self, hpc]
  rfl

omit [Fintype W] [DecidableEq W] in
theorem schedule_fibers (s : Sys W) (f : FiberId) (thr : ℤ) :
    (s.schedule (.ofFiber (some f) thr)).fibers = s.fibers ++ [.ofFiber (some f) thr] := by
  rw [Sys.schedule, scheduleNoLock_fibers]
  rfl

omit [Fintype W] [DecidableEq W] in
theorem ofFiber_cb (f : FiberId) (thr : ℤ) : ∀ e ∈ [FiberAndThread.ofFiber (some f) thr], e.cb = none :=
  fun e he => by
    rw [List.mem_singleton.1 he]
    rfl

/-- The assertions of `Fiber::reset` hold, so a failed statement is another one. -/
theorem Inv.fail (h : Inv s) (hsus : Sus.Inv { s.sus.resumed w with sys := s.sus.sys.abort })
    (hf : Sys.Fails s.sus.sys tid (s.sus.sys.pc w) (s.sus.sys.cbFiber w) (s.sus.sys.idleFiber w)) :
    Inv (s.next { s.sus.resumed w with sys := s.sus.sys.abort } (.run w)) := by
  have hsets : (s.sus.sys.pc w).setsContext = false := by
    cases hpc : s.sus.sys.pc w with
    | prepare c =>
      rw [hpc] at hf
      cases hcb : s.sus.sys.cbFiber w with
      | none =>
        rw [hcb] at hf
        cases hf
      | some f =>
        rw [hcb] at hf
        cases hf with
        | prepare hn => exact absurd (Or.inr (Or.inr (h.spare_of_prepare hpc hcb).2.1)) hn
    | recycle f =>
      rw [hpc] at hf
      cases hf with
      | recycle hn => exact absurd (h.safe.reset w f (Or.inr hpc)).1 hn
    | enter b f =>
      rw [hpc] at hf
      cases hf
    | _ => rfl
  refine h.stay hsus hsets (List.append_nil _).symm (by simp) (Function.update_eq_self w _).symm rfl
    (h.testing w) (fun f hpc => ?_) (fun _ => rfl) rfl rfl
  show (s.sus.sys.pc w).owns f = true
  rw [hpc]
  simp [Pc.owns]

/-- Every statement of `run()` keeps the invariant. -/
theorem Inv.run (h : Inv s) (hr : Sys.RunStep s.sus.sys tid w u) :
    Inv (s.next { s.sus.resumed w with sys := u } (.run w)) := by
  have hsus := h.sus.run hr
  cases hr with
  | take ft hpc ht =>
    rw [resumed_eq (by simp [hpc])] at hsus ⊢
    exact h.take hsus hpc ht
  | nothing hpc ht =>
    have hrest : (scan s.sus.sys.state tid s.sus.sys.fibers).fibers = s.sus.sys.fibers ++ [] := by
      have hspec := scan_spec s.sus.sys.state tid s.sus.sys.fibers
      rw [ht] at hspec
      generalize (scan s.sus.sys.state tid s.sus.sys.fibers).fibers = rest at hspec ⊢
      cases hspec
      exact (List.append_nil _).symm
    exact h.stay (p := .idleTest) hsus (by rw [hpc]; rfl) hrest (by simp)
      rfl (by rw [hpc]; rfl) (fun _ h => by cases h) (by simp [hpc]) (fun _ => rfl) rfl rfl
  | jump p hj =>
    obtain ⟨hcall, htest⟩ := Jump.callback hj (h.testing w)
    refine h.stay hsus (Jump.setsContext hj) (List.append_nil _).symm (by simp) rfl hcall htest (fun f hpc => ?_)
      (fun _ => rfl) rfl rfl
    rw [hpc] at hj
    cases hj
    simp [Pc.owns]
  | reuse c f hpc hcb hst =>
    rw [resumed_eq (by simp [hpc])] at hsus ⊢
    exact h.reuse hsus hpc hcb
  | fresh c hpc hcb =>
    rw [resumed_eq (by simp [hpc])] at hsus ⊢
    exact h.fresh hsus hpc hcb
  | enter b f hpc => exact h.enter hsus hpc
  | back b f hpc =>
    exact h.stay (p := .first b f) hsus (by rw [hpc]; rfl)
      (List.append_nil _).symm (by simp) rfl (by rw [hpc]; rfl) (fun _ h => by cases h)
      (by simp [hpc]) (fun _ => rfl) rfl rfl
  | requeue b f hpc =>
    refine h.stay (p := .scan) hsus (by rw [hpc]; rfl) ?_
      (ofFiber_cb f (-1)) (Sys.release_pc _ _) (by rw [hpc]; rfl) (fun _ h => by cases h)
      (by simp [hpc]) (fun g => ?_) ?_ ?_
    · rw [Sys.release_fibers, schedule_fibers]
    · rw [Sys.release_state]
      rfl
    · cases b <;> rfl
    · cases b <;> rfl
  | recycle f hpc hst =>
    rw [resumed_eq (by simp [hpc])] at hsus ⊢
    exact h.recycle hsus hpc
  | hold b f hpc =>
    have hexec : s.sus.sys.state f = .exec := (h.sus.exclusive.hold w b f hpc).1
    refine h.stay (p := .scan) hsus (by rw [hpc]; rfl)
      ((Sys.release_fibers _ _).trans (List.append_nil _).symm) (by simp) (Sys.release_pc _ _)
      (by rw [hpc]; rfl) (fun _ h => by cases h) (by simp [hpc]) (fun g => ?_) ?_ ?_
    · rw [Sys.release_state]
      show contextOf (Function.update s.sus.sys.state f .hold g) = _
      rcases eq_or_ne g f with rfl | hg
      · rw [Function.update_self, hexec]
        rfl
      · rw [Function.update_of_ne hg]
    · cases b <;> rfl
    · cases b <;> rfl
  | drop hpc =>
    exact h.stay (p := .scan) hsus (by rw [hpc]; rfl)
      (List.append_nil _).symm (by simp) rfl (by rw [hpc]; rfl) (fun _ h => by cases h)
      (by simp [hpc]) (fun _ => rfl) rfl rfl
  | quit hpc _ =>
    exact h.stay (p := .left) hsus (by rw [hpc]; rfl)
      (List.append_nil _).symm (by simp) rfl (by rw [hpc]; rfl) (fun _ h => by cases h)
      (by simp [hpc]) (fun _ => rfl) rfl rfl
  | idle hpc _ =>
    exact h.stay (p := .idling) hsus (by rw [hpc]; rfl)
      (List.append_nil _).symm (by simp) rfl (by rw [hpc]; rfl) (fun _ h => by cases h)
      (by simp [hpc]) (fun _ => rfl) rfl rfl
  | fail hf => exact h.fail hsus hf

end

/-! ## The other steps -/

section

variable {tid : W → ℤ} {b : Branch} {st : FiberState}

/-- Tasks without a fiber are scheduled. -/
theorem Inv.post {fts es : List FiberAndThread} {a : Act W} (h : Inv s)
    (hsus : Sus.Inv { s.sus with sys := { s.sus.sys with fibers := es } })
    (hes : es = s.sus.sys.fibers ++ fts.filter FiberAndThread.nonEmpty)
    (hfts : ∀ ft ∈ fts, ft.fiber = none) (hctx : s.contexts a = s.context)
    (hposts : ∀ c, (posts c a : ℤ) = inQueue fts c) (hstarts : ∀ c, s.starts c a = 0) :
    Inv (s.next { s.sus with sys := { s.sus.sys with fibers := es } } a) := by
  refine h.handIn hsus (fun f => ?_) rfl (fun e he => ?_) h.spare (fun c => ?_) fun c => ?_
  · show s.contexts a f = contextOf (s.sus.sys.state f)
    rw [hctx, h.context]
  · have he : e ∈ es := he
    rw [hes] at he
    rcases List.mem_append.1 he with he | he
    · exact h.entries e he
    · exact Or.inl (hfts e (List.mem_of_mem_filter he))
  · show s.started c + s.starts c a = s.started c
    rw [hstarts, add_zero]
  · have hpend : (s.next { s.sus with sys := { s.sus.sys with fibers := es } } a).pending =
        s.pending := by
      funext f
      show (if s.contexts a f = .main then s.sus.sys.fn f else none) = s.pending f
      rw [hctx]
      rfl
    show ((s.posted c + posts c a : ℕ) : ℤ) + _ + _ = s.posted c + inQueue es c +
      unstarted _ s.sus.sys.lastId c
    rw [hpend, hes, inQueue_append, inQueue_filter, Nat.cast_add, hposts]
    ring

/-- `new Fiber(cb)`, for a creator who schedules it. -/
theorem Inv.create (h : Inv s)
    (hsus : Sus.Inv { s.sus with
      sys := s.sus.sys.newFiber c
      waker := Function.update s.sus.waker (s.sus.sys.lastId + 1) .asked }) :
    Inv (s.next { s.sus with
      sys := s.sus.sys.newFiber c
      waker := Function.update s.sus.waker (s.sus.sys.lastId + 1) .asked } (.create c)) := by
  refine h.handIn hsus (h.context_update (s.sus.sys.lastId + 1) .init) rfl h.entries (fun f hf => ?_)
    (fun _ => rfl) fun c' => ?_
  · obtain ⟨h0, hst, hwk⟩ := hf
    have hne : f ≠ s.sus.sys.lastId + 1 := fun he => by
      subst he
      have hwk : Function.update s.sus.waker (s.sus.sys.lastId + 1) .asked
        (s.sus.sys.lastId + 1) = .none := hwk
      rw [Function.update_self] at hwk
      cases hwk
    show Function.update s.sus.sys.fn (s.sus.sys.lastId + 1) (some c) f = none
    rw [Function.update_of_ne hne]
    refine h.spare f ⟨h0, ?_, ?_⟩
    · have hst : Function.update s.sus.sys.state (s.sus.sys.lastId + 1) .init f = .init := hst
      rwa [Function.update_of_ne hne] at hst
    · have hwk : Function.update s.sus.waker (s.sus.sys.lastId + 1) .asked f = .none := hwk
      rwa [Function.update_of_ne hne] at hwk
  · have hpend := pending_update (s := s) (t := s.next { s.sus with
      sys := s.sus.sys.newFiber c
      waker := Function.update s.sus.waker (s.sus.sys.lastId + 1) .asked } (.create c)) rfl
      fun g hg => Function.update_of_ne hg _ _
    show ((s.posted c' + (if c = c' then 1 else 0) : ℕ) : ℤ) + _ + _ = s.posted c' +
      inQueue s.sus.sys.fibers c' + unstarted _ (s.sus.sys.lastId + 1) c'
    rw [hpend, unstarted_succ, if_pos rfl]
    show _ = _ + (_ + if Function.update s.sus.sys.fn (s.sus.sys.lastId + 1) (some c)
      (s.sus.sys.lastId + 1) = some c' then 1 else 0)
    rw [Function.update_self, Nat.cast_add, Nat.cast_ite, Nat.cast_one, Nat.cast_zero]
    simp only [Option.some.injEq]
    ring

omit [DecidableEq W] in
theorem Inv.exec_of_body (h : Inv s) (hpc : s.sus.sys.pc w = .body b f) :
    s.sus.sys.state f = .exec := by
  have ha := (h.sus.fiber f).owner w (by rw [hpc]; simp [Pc.owns])
  rwa [hpc] at ha

/-- The code of a fiber ends its turn. -/
theorem Inv.leave {fn : FiberId → Option Callback} {a : Act W} (h : Inv s)
    (hsus : Sus.Inv { s.sus with
      sys := (Sys.write { s.sus.sys with fn := fn } f st).goto w (.leave b f) })
    (hpc : s.sus.sys.pc w = .body b f) (hst : st ≠ .init)
    (hfn : ∀ g, g ≠ f → fn g = s.sus.sys.fn g)
    (hctx : s.contexts a = Function.update s.context f (contextOf st)) (hposts : ∀ c, posts c a = 0)
    (hstarts : ∀ c, s.starts c a = 0) :
    Inv (s.next { s.sus with
      sys := (Sys.write { s.sus.sys with fn := fn } f st).goto w (.leave b f) } a) := by
  have hmain : contextOf st ≠ .main := fun hc => hst (contextOf_eq_main.1 hc)
  have hbefore : s.pending f = none := by
    rw [pending, h.context, h.exec_of_body hpc]
    rfl
  have habout : (s.sus.sys.pc w).about = some f := by rw [hpc]; rfl
  refine h.touch (p := .leave b f) (w := w) hsus rfl rfl rfl hctx hfn (fun _ _ => rfl)
    (fun g => not_owns_of_about habout) (fun _ h => by cases h)
    (fun hs => absurd hs (not_spare_of_update rfl (by simp [Pc.owns]))) (fun c => ?_) fun c => ?_
  · show s.posted c + posts c a = s.posted c
    rw [hposts, add_zero]
  · show ((s.started c + s.starts c a : ℕ) : ℤ) + _ + unstarted _ s.sus.sys.lastId c = _
    rw [hstarts, if_neg hmain, ← hbefore, Function.update_eq_self, hpc]
    rfl

/-- The waker of a fiber is told, or fires: nothing else changes but the queue. -/
theorem Inv.signal {es fibers : List FiberAndThread} {wk : Waker} {a : Act W} (h : Inv s)
    (hsus : Sus.Inv { s.sus with
      sys := { s.sus.sys with fibers := fibers }
      waker := Function.update s.sus.waker f wk })
    (hfibers : fibers = s.sus.sys.fibers ++ es) (hes : ∀ e ∈ es, e.cb = none) (hwk : wk ≠ .none)
    (hctx : s.contexts a = s.context) (hposts : ∀ c, posts c a = 0) (hstarts : ∀ c, s.starts c a = 0) :
    Inv (s.next { s.sus with
      sys := { s.sus.sys with fibers := fibers }
      waker := Function.update s.sus.waker f wk } a) := by
  refine h.handIn hsus (fun g => ?_) rfl (fun e he => ?_) (fun g hg => ?_) (fun c => ?_) fun c => ?_
  · show s.contexts a g = contextOf (s.sus.sys.state g)
    rw [hctx, h.context]
  · have he : e ∈ fibers := he
    rw [hfibers] at he
    exact (List.mem_append.1 he).elim (h.entries e) fun he => Or.inr (hes e he)
  · obtain ⟨h0, hst, hn⟩ := hg
    have hn : Function.update s.sus.waker f wk g = .none := hn
    refine h.spare g ⟨h0, hst, ?_⟩
    rcases eq_or_ne g f with rfl | hne
    · rw [Function.update_self] at hn
      exact absurd hn hwk
    · rwa [Function.update_of_ne hne] at hn
  · show s.started c + s.starts c a = s.started c
    rw [hstarts, add_zero]
  · have hpend : (s.next { s.sus with
        sys := { s.sus.sys with fibers := fibers }
        waker := Function.update s.sus.waker f wk } a).pending = s.pending := by
      funext g
      show (if s.contexts a g = .main then s.sus.sys.fn g else none) = s.pending g
      rw [hctx]
      rfl
    show ((s.posted c + posts c a : ℕ) : ℤ) + _ + _ = s.posted c + inQueue fibers c +
      unstarted _ s.sus.sys.lastId c
    rw [hpend, hposts, hfibers, inQueue_append, inQueue_eq_zero hes, add_zero, add_zero]

omit [DecidableEq W] in
/-- A fiber that yields goes on later where it is. -/
theorem Inv.context_live (h : Inv s) (hpc : s.sus.sys.pc w = .body b f) :
    s.context = Function.update s.context f .live := by
  rw [eq_comm, Function.update_eq_self_iff, h.context, h.exec_of_body hpc]
  rfl

theorem Inv.act {t : Sus W} {a : Act W} (h : Inv s) (hok : s.sus.Disciplined a)
    (hs : s.sus.step tid a = some t) : Inv (s.next t a) := by
  have hsus := h.sus.step hok hs
  cases a with
  | create c =>
    obtain ⟨_, hl, rfl⟩ := Option.map_eq_some_iff.1 hs
    obtain ⟨u, hu, rfl⟩ := Sus.Inv.lift_cases hl
    cases hu with
    | newFiber => exact h.create hsus
    | yieldFail v b f hpc hst ha => rcases ha with ha | ha <;> cases ha
  | post ft =>
    obtain ⟨u, hu, rfl⟩ := Sus.Inv.lift_cases hs
    cases hu with
    | schedule =>
      refine h.post hsus (scheduleNoLock_fibers _ _)
        (fun e he => List.mem_singleton.1 he ▸ hok) rfl (fun c => ?_) fun _ => rfl
      rw [posts, inQueue, List.countP_singleton]
      simp
    | yieldFail v b f hpc hst ha => rcases ha with ha | ha <;> cases ha
  | postRange fts =>
    obtain ⟨u, hu, rfl⟩ := Sus.Inv.lift_cases hs
    cases hu with
    | scheduleRange =>
      exact h.post hsus (scheduleRange_fibers _ _ _) hok rfl (fun _ => rfl) fun _ => rfl
    | yieldFail v b f hpc hst ha => rcases ha with ha | ha <;> cases ha
  | publish w =>
    simp only [Sus.step, Sus.publish] at hs
    split at hs
    · next b f hpc =>
      cases hs
      exact h.signal hsus (List.append_nil _).symm (by simp) Waker.noConfusion rfl (fun _ => rfl)
        fun _ => rfl
    · cases hs
  | wake f thr =>
    obtain ⟨_, hl, rfl⟩ := Option.map_eq_some_iff.1 hs
    obtain ⟨u, hu, rfl⟩ := Sus.Inv.lift_cases hl
    cases hu with
    | schedule =>
      exact h.signal hsus (schedule_fibers _ f thr) (ofFiber_cb f thr) Waker.noConfusion rfl
        (fun _ => rfl) fun _ => rfl
    | yieldFail v b g hpc hst ha => rcases ha with ha | ha <;> cases ha
  | run w =>
    obtain ⟨u, hu, rfl⟩ := Sus.Inv.lift_cases hs
    cases hu with
    | run _ _ hr =>
      have hsys : (s.sus.resumed w).sys = s.sus.sys := by
        unfold Sus.resumed
        split <;> rfl
      rw [hsys] at hr
      exact h.run hr
    | yieldFail v b f hpc hst ha => rcases ha with ha | ha <;> cases ha
  | yieldToReady w =>
    obtain ⟨u, hu, rfl⟩ := Sus.Inv.lift_cases hs
    cases hu with
    | yieldToReady _ b f hpc hst =>
      exact h.leave hsus hpc FiberState.noConfusion (fun _ _ => rfl)
        (h.context_live hpc) (fun _ => rfl) fun _ => rfl
    | yieldFail v b f hpc hst => exact absurd (h.exec_of_body hpc) hst
  | yieldToHold w =>
    obtain ⟨u, hu, rfl⟩ := Sus.Inv.lift_cases hs
    cases hu with
    | yieldToHold _ b f hpc hst =>
      exact h.leave hsus hpc FiberState.noConfusion (fun _ _ => rfl)
        (h.context_live hpc) (fun _ => rfl) fun _ => rfl
    | yieldFail v b f hpc hst => exact absurd (h.exec_of_body hpc) hst
  | finish w =>
    obtain ⟨u, hu, rfl⟩ := Sus.Inv.lift_cases hs
    cases hu with
    | finish _ b f hpc =>
      refine h.leave hsus hpc FiberState.noConfusion (fun g hg => Function.update_of_ne hg _ _) ?_
        (fun _ => rfl) fun _ => rfl
      simp only [contexts, hpc]
      rfl
    | yieldFail v b f hpc hst ha => rcases ha with ha | ha <;> cases ha
  | throw w =>
    obtain ⟨u, hu, rfl⟩ := Sus.Inv.lift_cases hs
    cases hu with
    | throw _ b f hpc =>
      refine h.leave hsus hpc FiberState.noConfusion (fun _ _ => rfl) ?_ (fun _ => rfl)
        fun _ => rfl
      simp only [contexts, hpc]
      rfl
    | yieldFail v b f hpc hst ha => rcases ha with ha | ha <;> cases ha
  | idleOut w o =>
    obtain ⟨u, hu, rfl⟩ := Sus.Inv.lift_cases hs
    cases hu with
    | idleOut _ _ hpc =>
      exact h.move (p := .scan) (w := w) hsus h.context (List.append_nil _).symm (by simp) rfl
        (by rw [hpc]; rfl) (fun _ h => by cases h)
        (fun g hg => spare_of_move hg rfl id id fun ho => by rw [hpc] at ho; cases ho)
        (fun _ hg => hg) (fun _ => rfl) rfl (fun _ => rfl) fun _ => rfl
    | yieldFail v b f hpc hst ha => rcases ha with ha | ha <;> cases ha

theorem Inv.step {t : CbRun W} {a : CbAct W} (h : Inv s) (hok : s.Disciplined a)
    (hs : s.step tid a = some t) : Inv t := by
  cases a with
  | act a =>
    rw [CbRun.step] at hs
    split_ifs at hs with hr
    obtain ⟨u, hu, rfl⟩ := Option.map_eq_some_iff.1 hs
    exact h.act hok hu
  | reset w =>
    cases hs
    exact ⟨h.sus, h.context, h.entries, h.testing, h.spare, h.once⟩
  | copy f =>
    cases hs
    exact ⟨h.sus, h.context, h.entries, h.testing, h.spare, h.once⟩
  | discard f =>
    rw [CbRun.step] at hs
    split_ifs at hs
    cases hs
    exact ⟨h.sus, h.context, h.entries, h.testing, h.spare, h.once⟩

omit [DecidableEq W] in
theorem Inv.start : Inv (start : CbRun W) where
  sus := Sus.Inv.start
  context _ := rfl
  entries _ he := absurd he List.not_mem_nil
  testing _ _ hpc := by cases hpc
  spare _ _ := rfl
  once c := by
    rw [waiting, (Count.tally_eq_zero_iff _ _).2 fun _ => rfl, unstarted]
    simp [CbRun.start, inQueue, Sus.start, Sys.start, pending]

end

end CbRun

/-- **A fiber for callbacks is reused safely.** In every run that keeps to the protocol, for any
number of workers, any callbacks and any order of steps, the assertions of `Fiber::reset` and of
the destructor hold, no worker resets or enters a fiber that a task has, and each callback is
started as often as it was handed in, less what is yet to come. -/
theorem run_cbFiber {W : Type} [DecidableEq W] [Fintype W] (tid : W → ℤ) {s : CbRun W}
    (hr : Reach (CbRun.step tid) CbRun.Disciplined CbRun.start s) : s.Safe :=
  (hr.invariant (I := CbRun.Inv) CbRun.Inv.start fun _ _ _ h hok hs => h.step hok hs).safe

/-- One fiber for three turns: a callback throws, the next one suspends itself, and worker 1 resumes it
while worker 0 has dropped its pointer. -/
theorem run_cbFiber_resumed : ∃ s : CbRun (Fin 2), s.sus.sys.pc 1 = .body .fiber 1 ∧
    s.sus.sys.cbFiber 0 = none ∧ s.started 7 = 1 ∧ s.started 8 = 1 ∧ s.Safe := by
  have hr := reach_exec (CbRun.step fun w : Fin 2 => (w.val : ℤ)) CbRun.Disciplined CbRun.start
    [.act (.post (.ofCb (some 7) (-1))), .act (.run 0), .act (.run 0), .act (.run 0), .act (.run 0),
      .act (.throw 0), .act (.run 0), .act (.run 0), .act (.run 0), .act (.run 0), .act (.run 0),
      .act (.post (.ofCb (some 8) (-1))), .act (.run 0), .act (.run 0), .act (.run 0), .act (.run 0),
      .act (.publish 0), .act (.yieldToHold 0), .act (.run 0), .act (.run 0), .act (.run 0),
      .act (.run 0), .act (.run 0), .act (.run 0), .reset 0, .act (.wake 1 (-1)), .act (.run 1),
      .act (.run 1), .act (.run 1), .act (.run 1), .act (.run 1)] (by decide)
  refine ⟨_, ?_, ?_, ?_, ?_, run_cbFiber _ hr⟩ <;> decide

end CoroutineScheduler
