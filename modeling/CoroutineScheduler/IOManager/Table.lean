import CoroutineScheduler.IOManager.Concurrent

/-!
# The identity of contexts

`addEvent` computes the size of the table from its own descriptor, outside of the lock under which it
looked the table up. When another call has made the table larger in between, `contextResize` cuts it
off, and the contexts behind the cut are lost with their registrations (`table_shrinks`).

`table_stable`: in every run in which no call finds the table longer than the size it has computed,
the table only grows, and every registration is found under its descriptor.
-/

namespace CoroutineScheduler

open Trans

theorem FdContext.setContext_fd (c : FdContext) (e : Event) (x : EventContext) :
    (c.setContext e x).fd = c.fd := by
  cases e <;> rfl

theorem FdContext.triggerEvent_fd {c : FdContext} {e : Event} {r : FdContext × Option Call}
    (h : c.triggerEvent e = some r) : r.1.fd = c.fd := by
  unfold triggerEvent at h
  dsimp only at h
  split_ifs at h
  · obtain ⟨sched, -, rfl⟩ := Option.map_eq_some_iff.1 h
    exact setContext_fd _ e _
  · obtain ⟨sched, -, rfl⟩ := Option.map_eq_some_iff.1 h
    exact setContext_fd _ e _
  · cases h
    exact setContext_fd _ e _

namespace IOManager

/-- The table and the descriptors of the contexts are the same. -/
structure Frame (s t : IOManager) : Prop where
  table : t.table = s.table
  fresh : t.fresh = s.fresh
  fd : ∀ p, (t.heap p).fd = (s.heap p).fd

namespace Frame

variable {s t u : IOManager} {p : Ptr} {e : Event}

theorem refl (s : IOManager) : Frame s s := ⟨rfl, rfl, fun _ => rfl⟩

theorem trans (h : Frame s t) (h' : Frame t u) : Frame s u :=
  ⟨h'.table.trans h.table, h'.fresh.trans h.fresh, fun q => (h'.fd q).trans (h.fd q)⟩

theorem setContext (s : IOManager) {c : FdContext} (hc : c.fd = (s.heap p).fd) :
    Frame s (s.setContext p c) := by
  refine ⟨rfl, rfl, fun q => ?_⟩
  show (Function.update s.heap p c q).fd = _
  by_cases hq : q = p
  · rw [hq, Function.update_self, hc]
  · rw [Function.update_of_ne hq]

theorem trigger (h : s.trigger p e = some t) : Frame s t := by
  obtain ⟨r, hr, rfl⟩ := Option.map_eq_some_iff.1 h
  exact (setContext s (FdContext.triggerEvent_fd hr)).trans ⟨rfl, rfl, fun _ => rfl⟩

theorem fireIf {events : Mask} (h : s.fireIf events p e = some t) : Frame s t := by
  unfold IOManager.fireIf at h
  split_ifs at h
  · obtain ⟨u, hu, rfl⟩ := Option.map_eq_some_iff.1 h
    exact (trigger hu).trans ⟨rfl, rfl, fun _ => rfl⟩
  · cases h
    exact refl s

theorem addEventLocked {fd : ℕ} {cb : Option Callback} {caller : Caller} {ok : Bool}
    {r : IOManager × ℤ} (h : s.addEventLocked p fd e cb caller ok = some r) : Frame s r.1 := by
  unfold IOManager.addEventLocked at h
  dsimp only at h
  split_ifs at h <;> split at h
  all_goals first
    | (cases h; exact refl s)
    | skip
  all_goals
    have hfd := FdContext.setContext_fd { s.heap p with events := (s.heap p).events ||| e.bit } e
      (caller.context cb)
    have hset := setContext (p := p) s hfd
    first
      | cases h
      | (split at h <;> cases h <;> exact ⟨hset.table, hset.fresh, hset.fd⟩)

theorem delEventLocked (s : IOManager) (p : Ptr) (fd : ℕ) (e : Event) (ok : Bool) :
    Frame s (s.delEventLocked p fd e ok).1 := by
  unfold IOManager.delEventLocked
  dsimp only
  split_ifs
  · exact refl s
  · split
    · exact refl s
    · have hset := setContext (p := p) s (FdContext.setContext_fd
        { s.heap p with events := (s.heap p).events &&& ~~~e.bit } e {})
      exact ⟨hset.table, hset.fresh, hset.fd⟩

theorem cancelEventLocked {fd : ℕ} {ok : Bool} {r : IOManager × Bool}
    (h : s.cancelEventLocked p fd e ok = some r) : Frame s r.1 := by
  unfold IOManager.cancelEventLocked at h
  dsimp only at h
  split_ifs at h
  · cases h
    exact refl s
  · split at h
    · cases h
      exact refl s
    · next i _ =>
      obtain ⟨t, ht, rfl⟩ := Option.map_eq_some_iff.1 h
      have := trigger ht
      exact ⟨this.table, this.fresh, this.fd⟩

theorem cancelAllLocked {fd : ℕ} {ok : Bool} {r : IOManager × Bool}
    (h : s.cancelAllLocked p fd ok = some r) : Frame s r.1 := by
  unfold IOManager.cancelAllLocked at h
  split_ifs at h
  · cases h
    exact refl s
  · split at h
    · cases h
      exact refl s
    · next i _ =>
      obtain ⟨t, ht, h⟩ := Option.bind_eq_some_iff.1 h
      obtain ⟨u, hu, h⟩ := Option.bind_eq_some_iff.1 h
      split_ifs at h
      cases h
      have := (fireIf ht).trans (fireIf hu)
      exact ⟨this.table, this.fresh, this.fd⟩

theorem idleEvent {reported : Mask} {ok : Bool} (h : s.idleEvent p reported ok = some t) :
    Frame s t := by
  unfold IOManager.idleEvent at h
  dsimp only at h
  split_ifs at h
  · cases h
    exact refl s
  · split at h
    · cases h
      exact refl s
    · next i _ =>
      obtain ⟨u, hu, h⟩ := Option.bind_eq_some_iff.1 h
      have := (fireIf hu).trans (fireIf h)
      exact ⟨this.table, this.fresh, this.fd⟩

end Frame

theorem InOrder.frame {s t : IOManager} (h : InOrder s) (hf : Frame s t) : InOrder t := by
  obtain ⟨htable, hsize, hfd⟩ := h
  rw [← hf.fresh] at htable hsize hfd
  exact ⟨hf.table.trans htable, hsize, fun p hp => (hf.fd p).trans (hfd p hp)⟩

end IOManager

/-! ## Runs -/

namespace Conc

variable {T : Type}

/-- A call that resizes the table finds it no longer than the size it has computed, which fits an
`int`. -/
def Growing (s : Conc T) : ConcLabel T → Prop
  | .grow t =>
    match s.pc t with
    | .grow fd _ _ _ => s.mgr.table.length ≤ fd * 3 / 2 ∧ fd * 3 / 2 < 2 ^ 31
    | _ => True
  | _ => True

instance (s : Conc T) (a : ConcLabel T) : Decidable (s.Growing a) := by
  rcases a with _ | t | _ <;> unfold Growing <;> dsimp only
  case grow =>
    generalize s.pc t = p
    rcases p with _ | _ <;> dsimp only <;> infer_instance
  all_goals infer_instance

/-- What stays from `s` to `t`. -/
structure Stable (s t : Conc T) : Prop where
  /-- the table is not shorter, and holds the same contexts -/
  table : s.mgr.table <+: t.mgr.table
  lookup : ∀ fd p, s.mgr.lookup fd = some p → t.mgr.lookup fd = some p
  /-- the context in which a call registers its event is found under its descriptor -/
  found : ∀ v p c, s.pc v = .found p c → t.mgr.lookup c.fd = some p
  /-- and so is every context that was ever created -/
  contexts : ∀ p, p < t.mgr.fresh → t.mgr.lookup (t.mgr.heap p).fd = some p

/-- What the position of a thread says about the table. -/
def CallPc.InTable (n : ℕ) : CallPc → Prop
  | .grow fd _ _ _ => 32 ≤ fd
  | .found p c => p = c.fd ∧ c.fd < n
  | _ => True

theorem CallPc.InTable.mono {pc : CallPc} {n m : ℕ} (h : CallPc.InTable n pc) (hnm : n ≤ m) :
    CallPc.InTable m pc := by
  cases pc with
  | found p c => exact ⟨h.1, lt_of_lt_of_le h.2 hnm⟩
  | _ => exact h

structure TableInv (s : Conc T) : Prop where
  order : IOManager.InOrder s.mgr
  pc : ∀ v, CallPc.InTable s.mgr.fresh (s.pc v)

theorem TableInv.start : TableInv (Conc.start : Conc T) :=
  ⟨IOManager.InOrder.start, fun _ => trivial⟩

theorem TableInv.stable {s t : Conc T} (hs : TableInv s) (ht : TableInv t)
    (hle : s.mgr.fresh ≤ t.mgr.fresh) : Stable s t := by
  refine ⟨?_, fun fd p h => ?_, fun v p c h => ?_, fun p hp => ?_⟩
  · rw [hs.order.table, ht.order.table]
    exact List.prefix_iff_eq_take.2 (by rw [List.length_range, List.take_range, Nat.min_eq_left hle])
  · rw [hs.order.lookup_eq] at h
    split_ifs at h with hfd
    rw [ht.order.lookup_eq, if_pos (lt_of_lt_of_le hfd hle), h]
  · have hv := hs.pc v
    rw [h] at hv
    rw [ht.order.lookup_eq, if_pos (lt_of_lt_of_le hv.2 hle), hv.1]
  · rw [ht.order.fd p hp, ht.order.lookup_eq, if_pos hp]

variable [DecidableEq T] {s u : Conc T} {t : T}

theorem TableInv.goto (h : TableInv s) {pc : CallPc} (hpc : CallPc.InTable s.mgr.fresh pc) :
    TableInv (s.goto t pc) := by
  refine ⟨h.order, fun v => ?_⟩
  show CallPc.InTable _ (Function.update s.pc t pc v)
  by_cases hv : v = t
  · rw [hv, Function.update_self]
    exact hpc
  · rw [Function.update_of_ne hv]
    exact h.pc v

omit [DecidableEq T] in
theorem TableInv.frame (h : TableInv s) {m : IOManager} (hf : IOManager.Frame s.mgr m) :
    TableInv { s with mgr := m } := by
  refine ⟨h.order.frame hf, fun v => ?_⟩
  show CallPc.InTable m.fresh (s.pc v)
  rw [hf.fresh]
  exact h.pc v

/-- One step keeps the invariant and does not lose a context. -/
def Extends (s u : Conc T) : Prop := TableInv u ∧ s.mgr.fresh ≤ u.mgr.fresh

theorem TableInv.call (h : TableInv s) (c : EventCall) : Extends s (s.callStep t c) := by
  unfold callStep
  rw [h.order.lookup_eq]
  have h32 := h.order.size.1
  split_ifs with hfd
  · exact ⟨h.goto ⟨rfl, hfd⟩, le_refl _⟩
  · rw [Option.elim_none]
    cases c with
    | addEvent fd e cb caller =>
      have hge : s.mgr.fresh ≤ fd := not_lt.1 hfd
      exact ⟨h.goto (le_trans h32 hge), le_refl _⟩
    | _ => exact ⟨h, le_refl _⟩

/-- The table grows, and the descriptor is inside. -/
theorem TableInv.grow (h : TableInv s) {fd : ℕ} {c : EventCall} (hc : c.fd = fd) (h32 : 32 ≤ fd)
    (hlen : s.mgr.table.length ≤ fd * 3 / 2) (hmax : fd * 3 / 2 < 2 ^ 31) :
    Extends s (s.growStep t fd c) := by
  have hfresh : s.mgr.fresh ≤ fd * 3 / 2 := by
    rw [h.order.table, List.length_range] at hlen
    exact hlen
  obtain ⟨horder, hnew⟩ := h.order.contextResize hfresh hmax
  set m := s.mgr.contextResize (fd * 3 / 2) with hm
  have hlt : fd < m.fresh := by
    rw [hnew]
    omega
  have hget : m.table[fd]? = some fd := by
    rw [horder.table, List.getElem?_range hlt]
  have hle : s.mgr.fresh ≤ m.fresh := by
    rw [hnew]
    exact hfresh
  have hgrown : TableInv { s with mgr := m } := ⟨horder, fun v => (h.pc v).mono hle⟩
  unfold growStep
  show Extends s (m.table[fd]?.elim (s.fail .index) fun p => { s.goto t (.found p c) with mgr := m })
  rw [hget, Option.elim_some]
  refine ⟨hgrown.goto ⟨hc.symm, ?_⟩, hle⟩
  rw [hc]
  exact hlt

omit [DecidableEq T] in
theorem TableInv.fail (h : TableInv s) (f : Fault) : Extends s (s.fail f) :=
  ⟨⟨h.order, h.pc⟩, le_refl _⟩

theorem TableInv.out (h : TableInv s) {m : IOManager} (hf : IOManager.Frame s.mgr m) :
    Extends s { s.goto t .out with mgr := m } :=
  ⟨(h.frame hf).goto trivial, hf.fresh.ge⟩

theorem TableInv.lock (h : TableInv s) (p : Ptr) (ok : Bool) (c : EventCall) :
    Extends s (s.lockStep t p ok c) := by
  cases c with
  | addEvent fd e cb caller =>
    rw [lockStep]
    cases hr : s.mgr.addEventLocked p fd e cb caller ok with
    | none => exact h.fail .add
    | some r => exact h.out (.addEventLocked hr)
  | delEvent fd e => exact h.out (.delEventLocked s.mgr p fd e ok)
  | cancelEvent fd e =>
    rw [lockStep]
    cases hr : s.mgr.cancelEventLocked p fd e ok with
    | none => exact h.fail .trigger
    | some r => exact h.out (.cancelEventLocked hr)
  | cancelAll fd =>
    rw [lockStep]
    cases hr : s.mgr.cancelAllLocked p fd ok with
    | none => exact h.fail .trigger
    | some r => exact h.out (.cancelAllLocked hr)

theorem TableInv.handle (h : TableInv s) (p : Ptr) (reported : Mask) (rest : List (Ptr × Mask))
    (ok : Bool) : Extends s (s.handleStep t p reported rest ok) := by
  unfold handleStep
  cases hr : s.mgr.idleEvent p reported ok with
  | none => exact h.fail .trigger
  | some m =>
    have hf := IOManager.Frame.idleEvent hr
    exact ⟨(h.frame hf).goto trivial, hf.fresh.ge⟩

theorem TableInv.step (h : TableInv s) {a : ConcLabel T} (hg : s.Growing a)
    (hs : s.step a = some u) : Extends s u := by
  unfold Conc.step at hs
  split_ifs at hs
  cases a with
  | call t c =>
    simp only at hs
    split_ifs at hs
    rw [← Option.some.inj hs]
    exact h.call c
  | grow t =>
    simp only at hs
    split at hs <;> cases hs
    next fd e cb caller hpc =>
    have hv := h.pc t
    rw [hpc] at hv
    unfold Growing at hg
    simp only [hpc] at hg
    exact h.grow rfl hv hg.1 hg.2
  | lock t ok =>
    simp only at hs
    split at hs <;> cases hs
    exact h.lock _ ok _
  | wait t reports =>
    simp only at hs
    split_ifs at hs
    cases hs
    exact ⟨h.goto trivial, le_refl _⟩
  | handle t ok =>
    simp only at hs
    split at hs <;> cases hs
    · exact h.handle _ _ _ ok
    · exact ⟨h.goto trivial, le_refl _⟩

end Conc

/-- Contexts keep their places, in every run in which no call cuts the table off. -/
theorem table_stable {T : Type} [DecidableEq T] {s t : Conc T}
    (hs : Reach Conc.step Conc.Growing Conc.start s) (ht : Reach Conc.step Conc.Growing s t) :
    Conc.Stable s t := by
  have hinv : ∀ u : Conc T, Reach Conc.step Conc.Growing Conc.start u → Conc.TableInv u :=
    fun u hu => hu.invariant Conc.TableInv.start fun _ _ _ hi hok hst => (hi.step hok hst).1
  have hle : s.mgr.fresh ≤ t.mgr.fresh :=
    Reach.rel (I := Conc.TableInv) (R := fun s t => s.mgr.fresh ≤ t.mgr.fresh) ht (hinv s hs)
      (fun _ => le_refl _) (fun _ _ _ => le_trans) fun _ _ _ hi hok hst => hi.step hok hst
  exact (hinv s hs).stable (hinv t (hs.trans ht)) hle

/-- Two calls that resize one after the other, the second to a larger table. -/
theorem table_stable_twice : ∃ s t : Conc (Fin 2), s.pc 1 = .found 32 (.cancelAll 32) ∧
    t.mgr.table.length = 72 ∧ Conc.Stable s t := by
  have hs := reach_exec Conc.step (Conc.Growing (T := Fin 2)) Conc.start
    [.call 0 (.addEvent 32 .read none ⟨some 1, 3, .exec⟩), .grow 0, .lock 0 true,
      .call 1 (.cancelAll 32)] (by decide)
  have ht := fun s => reach_exec Conc.step (Conc.Growing (T := Fin 2)) s
    [.call 0 (.addEvent 48 .read none ⟨some 1, 3, .exec⟩), .grow 0]
  refine ⟨_, _, ?_, ?_, table_stable hs (ht _ (by decide))⟩ <;> decide

/-- **The table shrinks.** Two calls find the table too short; the one with the larger descriptor
resizes it and registers its event, then the other resizes it again. -/
theorem table_shrinks : ∃ s t : Conc (Fin 2), Reach Conc.step Trans.free Conc.start s ∧
    Reach Conc.step Trans.free s t ∧ (s.mgr.heap 48).events = Event.read.bit ∧
    s.mgr.lookup 48 = some 48 ∧ t.mgr.lookup 48 = none ∧ ¬ Conc.Stable s t := by
  have hs := reach_exec Conc.step (Trans.free (σ := Conc (Fin 2))) Conc.start
    [.call 0 (.addEvent 48 .read none ⟨some 1, 3, .exec⟩),
      .call 1 (.addEvent 32 .read none ⟨some 1, 4, .exec⟩), .grow 0, .lock 0 true] (by decide)
  have ht := fun s => reach_exec Conc.step (Trans.free (σ := Conc (Fin 2))) s [.grow 1]
  have hcut : ∀ s t : Conc (Fin 2), s.mgr.lookup 48 = some 48 → t.mgr.lookup 48 = none →
      ¬ Conc.Stable s t := by
    intro s t h1 h2 h
    have := h.lookup 48 48 h1
    rw [h2] at this
    cases this
  refine ⟨_, _, hs, ht _ (by decide), ?_, ?_, ?_, hcut _ _ ?_ ?_⟩ <;> decide

end CoroutineScheduler
