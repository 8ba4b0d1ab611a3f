import CoroutineScheduler.Streams.CtxSteps

/-!
# A caller is resumed once

The first swap that succeeds with a `Ctx` finds its scheduler, and every later one finds null: what
the first one holds is used once, and nobody else holds anything (`Sole`). Who takes a `Ctx` out of
the map calls `doRsp` for it (`Kept`).
-/

namespace CoroutineScheduler.Streams

open Trans

namespace AsyncSocket

variable {T : Type} {s u : AsyncSocket T} {t : T} {c : CtxPtr}

/-! ## Only one call holds a scheduler -/

/-- How far a `Ctx` has come whose caller waits with the fiber `f` on the scheduler `scd`. -/
inductive Phase (c : CtxPtr) (scd f : ℕ) (s : AsyncSocket T) : Prop
  | waiting (swaps : s.swapsOf c = []) (log : s.logOf c = [])
      (scheduler : (s.heap c).scheduler = some scd) (fiber : (s.heap c).fiber = some f)
      (held : ∀ t, (s.pc t).held c = none)
  | claimed (t : T) (n : ℕ) (rest : List ℕ) (swaps : s.swapsOf c = n :: rest) (log : s.logOf c = [])
      (scheduler : (s.heap c).scheduler = none) (fiber : (s.heap c).fiber = some f)
      (holds : (s.pc t).held c = some (n, scd)) (held : ∀ t', t' ≠ t → (s.pc t').held c = none)
  | resumed (n : ℕ) (rest : List ℕ) (swaps : s.swapsOf c = n :: rest)
      (log : s.logOf c = [⟨n, c, scd, f⟩]) (scheduler : (s.heap c).scheduler = none)
      (held : ∀ t, (s.pc t).held c = none)

/-- The phases, and that nobody is behind the first swap before it. -/
structure Sole (c : CtxPtr) (scd f : ℕ) (s : AsyncSocket T) : Prop where
  phase : Phase c scd f s
  expected : ∀ t v, (s.pc t).expected c = some v → v = some scd ∨ s.swapsOf c ≠ []
  swapped : ∀ t, (s.pc t).swapped c = true → s.swapsOf c ≠ []

variable {scd f : ℕ}

theorem Phase.scheduler (h : Phase c scd f s) :
    (s.heap c).scheduler = some scd ∨ s.swapsOf c ≠ [] := by
  cases h with
  | waiting swaps log scheduler fiber held => exact .inl scheduler
  | claimed t n rest swaps log scheduler fiber holds held => exact .inr (by simp [swaps])
  | resumed n rest swaps log scheduler held => exact .inr (by simp [swaps])

/-- A step that leaves the `Ctx` and what is held of it. -/
theorem Phase.same (h : Phase c scd f s) (hs : Same c s u)
    (hheld : ∀ t, (u.pc t).held c = (s.pc t).held c) : Phase c scd f u := by
  cases h with
  | waiting swaps log scheduler fiber held =>
    exact .waiting (hs.swaps.trans swaps) (hs.log.trans log) (hs.scheduler.trans scheduler)
      (hs.fiber.trans fiber) fun t => (hheld t).trans (held t)
  | claimed t n rest swaps log scheduler fiber holds held =>
    exact .claimed t n rest (hs.swaps.trans swaps) (hs.log.trans log)
      (hs.scheduler.trans scheduler) (hs.fiber.trans fiber) ((hheld t).trans holds)
      fun t' ht => (hheld t').trans (held t' ht)
  | resumed n rest swaps log scheduler held =>
    exact .resumed n rest (hs.swaps.trans swaps) (hs.log.trans log) (hs.scheduler.trans scheduler)
      fun t => (hheld t).trans (held t)

/-- What the other threads hold is what they held. -/
theorem held_others (hothers : ∀ t', t' ≠ t → u.pc t' = s.pc t')
    (hheld : (u.pc t).held c = (s.pc t).held c) (t' : T) :
    (u.pc t').held c = (s.pc t').held c := by
  by_cases ht : t' = t
  · rw [ht, hheld]
  · rw [hothers t' ht]

theorem Effect.swaps (h : Effect c s u t) (hne : s.swapsOf c ≠ []) : u.swapsOf c ≠ [] := by
  cases h with
  | other same held expected swapped => rwa [same.swaps]
  | read same before held expected swapped => rwa [same.swaps]
  | swap n before read scheduler fiber swaps log held expected => simp [swaps]
  | resume n scd before held expected swapped scheduler swaps log => rwa [swaps]
  | giveUp same fiber held expected swapped => rwa [same.swaps]

theorem Phase.step (h : Phase c scd f s) (he : Effect c s u t)
    (hothers : ∀ t', t' ≠ t → u.pc t' = s.pc t') : Phase c scd f u := by
  cases he with
  | other same held expected swapped => exact h.same same (held_others hothers held)
  | read same before held expected swapped =>
    exact h.same same (held_others hothers (held.trans before.symm))
  | swap n before read scheduler fiber swaps log held expected =>
    cases h with
    | waiting swaps₀ log₀ scheduler₀ fiber₀ held₀ =>
      rw [scheduler₀] at held
      rw [swaps₀] at swaps
      refine .claimed t n [] swaps (log.trans log₀) scheduler (fiber.trans fiber₀) held ?_
      intro t' ht
      rw [hothers t' ht, held₀ t']
    | claimed t₀ n₀ rest swaps₀ log₀ scheduler₀ fiber₀ holds held₀ =>
      rw [scheduler₀] at held
      rw [swaps₀] at swaps
      have hheld := held_others hothers (held.trans before.symm)
      exact .claimed t₀ n₀ (rest ++ [n]) swaps (log.trans log₀) scheduler (fiber.trans fiber₀)
        ((hheld t₀).trans holds) fun t' ht => (hheld t').trans (held₀ t' ht)
    | resumed n₀ rest swaps₀ log₀ scheduler₀ held₀ =>
      rw [scheduler₀] at held
      rw [swaps₀] at swaps
      have hheld := held_others hothers (held.trans before.symm)
      exact .resumed n₀ (rest ++ [n]) swaps (log.trans log₀) scheduler
        fun t' => (hheld t').trans (held₀ t')
  | resume n scd' before held expected swapped scheduler swaps log =>
    cases h with
    | waiting swaps₀ log₀ scheduler₀ fiber₀ held₀ =>
      rw [held₀ t] at before
      cases before
    | claimed t₀ n₀ rest swaps₀ log₀ scheduler₀ fiber₀ holds held₀ =>
      have ht : t = t₀ := by
        by_contra hne
        rw [held₀ t hne] at before
        cases before
      subst ht
      obtain ⟨rfl, rfl⟩ := Prod.mk.inj (Option.some.inj (before.symm.trans holds))
      rw [log₀, fiber₀] at log
      refine .resumed n rest (swaps.trans swaps₀) log (scheduler.trans scheduler₀) fun t' => ?_
      by_cases ht : t' = t
      · rw [ht, held]
      · rw [hothers t' ht, held₀ t' ht]
    | resumed n₀ rest swaps₀ log₀ scheduler₀ held₀ =>
      rw [held₀ t] at before
      cases before
  | giveUp same fiber held expected swapped =>
    cases h with
    | waiting swaps₀ log₀ scheduler₀ fiber₀ held₀ =>
      rw [fiber] at fiber₀
      cases fiber₀
    | claimed t₀ n₀ rest swaps₀ log₀ scheduler₀ fiber₀ holds held₀ =>
      rw [fiber] at fiber₀
      cases fiber₀
    | resumed n₀ rest swaps₀ log₀ scheduler₀ held₀ =>
      exact Phase.same (.resumed n₀ rest swaps₀ log₀ scheduler₀ held₀) same
        (held_others hothers (held.trans (held₀ t).symm))

theorem Sole.step (h : Sole c scd f s) (he : Effect c s u t)
    (hothers : ∀ t', t' ≠ t → u.pc t' = s.pc t') : Sole c scd f u := by
  refine ⟨h.phase.step he hothers, fun t' v hv => ?_, fun t' ht' => ?_⟩
  · by_cases ht : t' = t
    · subst ht
      cases he with
      | read same before held expected swapped =>
        obtain rfl := Option.some.inj (expected.symm.trans hv)
        rw [same.swaps]
        exact h.phase.scheduler
      | other same held expected swapped => rw [expected] at hv; cases hv
      | swap n before read scheduler fiber swaps log held expected =>
        rw [expected] at hv; cases hv
      | resume n scd before held expected swapped scheduler swaps log =>
        rw [expected] at hv; cases hv
      | giveUp same fiber held expected swapped => rw [expected] at hv; cases hv
    · rw [hothers t' ht] at hv
      exact (h.expected t' v hv).imp id he.swaps
  · by_cases ht : t' = t
    · subst ht
      cases he with
      | other same held expected swapped => rw [same.swaps]; exact h.swapped t' (swapped ht')
      | swap n before read scheduler fiber swaps log held expected => simp [swaps]
      | read same before held expected swapped => rw [swapped] at ht'; cases ht'
      | resume n scd before held expected swapped scheduler swaps log =>
        rw [swapped] at ht'; cases ht'
      | giveUp same fiber held expected swapped => rw [swapped] at ht'; cases ht'
    · rw [hothers t' ht] at ht'
      exact he.swaps (h.swapped t' ht')

theorem sole_start (heap : CtxPtr → Ctx) (added : List CtxPtr)
    (hscd : (heap c).scheduler = some scd) (hfiber : (heap c).fiber = some f) :
    Sole c scd f (start heap added : AsyncSocket T) where
  phase := .waiting rfl rfl hscd hfiber fun _ => rfl
  expected _ _ h := nomatch h
  swapped _ h := nomatch h

/-! ## Who takes a `Ctx` out of the map -/

/-- The operation has its section under the lock behind it. -/
def Passed (s : AsyncSocket T) (op : AsyncOp) : Prop :=
  op ∈ s.done ∨ ∃ t, (s.pc t).past = some op

/-- What the section under the lock takes out of the map is not in it. -/
def Cleared (s : AsyncSocket T) : AsyncOp → Prop
  | .response sn => sn ∉ s.ctxs.map Prod.fst
  | .timeout c => (s.heap c).sn ∉ s.ctxs.map Prod.fst
  | .close => s.ctxs = []

/-- A thread has called `doRsp` of the `Ctx`, and it returns. -/
def Returns (s : AsyncSocket T) (t : T) (c : CtxPtr) : Prop :=
  (∃ scd, (s.pc t).expected c = some scd ∧ (s.heap c).scheduler ≠ scd) ∨ (s.pc t).swapped c = true

/-- The steps outside the section under the lock: a thread goes on with its operation, or ends it. -/
structure Keeps (s u : AsyncSocket T) (t : T) : Prop where
  ctxs : u.ctxs = s.ctxs
  sn : ∀ c, (u.heap c).sn = (s.heap c).sn
  past : (u.pc t).past = (s.pc t).past ∧ u.done = s.done ∨
    u.pc t = .idle ∧ ∃ op, (s.pc t).past = some op ∧ u.done = op :: s.done
  due : ∀ c ∈ (s.pc t).due, c ∈ (u.pc t).due ∨ s.Returns t c

section
variable [DecidableEq T]

omit [DecidableEq T] in
theorem sn_store {x : Ctx} {d : CtxPtr} (hx : x.sn = (s.heap d).sn) (c : CtxPtr) :
    (Function.update s.heap d x c).sn = (s.heap c).sn := by
  by_cases hc : c = d
  · rw [hc, Function.update_self, hx]
  · rw [Function.update_of_ne hc]

theorem rspStep_frame (s : AsyncSocket T) (t : T) (who : Caller) (call : ℕ) (d : CtxPtr)
    (pc : RspPc) : (s.rspStep t who call d pc).ctxs = s.ctxs ∧
      ∀ c, ((s.rspStep t who call d pc).heap c).sn = (s.heap c).sn := by
  cases pc with
  | read => exact ⟨rfl, fun _ => rfl⟩
  | swap scd =>
    rw [rspStep]
    split_ifs
    · exact ⟨rfl, sn_store rfl⟩
    · exact ⟨back_ctxs .., fun c => by rw [back_heap]⟩
  | check scd =>
    cases scd with
    | none => exact ⟨back_ctxs .., fun c => by rw [rspStep, back_heap]⟩
    | some scd =>
      rw [rspStep]
      split_ifs
      · exact ⟨back_ctxs .., fun c => by rw [back_heap]⟩
      · exact ⟨rfl, fun _ => rfl⟩
  | cancel scd => exact ⟨rfl, sn_store rfl⟩
  | result scd =>
    rw [rspStep]
    split_ifs
    · exact ⟨rfl, sn_store rfl⟩
    · exact ⟨rfl, fun _ => rfl⟩
  | schedule scd =>
    have hsn : ∀ c, (Function.update s.heap d { s.heap d with fiber := none } c).sn =
        (s.heap c).sn := sn_store rfl
    refine ⟨back_ctxs .., fun c => ?_⟩
    show ((back (s.setCtx d _) t who d).heap c).sn = _
    rw [back_heap]
    exact hsn c

theorem keeps_rsp {who : Caller} {call : ℕ} {d : CtxPtr} {pc : RspPc}
    (hpc : s.pc t = .rsp who call d pc) : Keeps s (s.rspStep t who call d pc) t := by
  obtain ⟨hctxs, hsn⟩ := rspStep_frame s t who call d pc
  obtain ⟨pc', hpc', hdone⟩ | ⟨hpc', hdone, hreturns⟩ := rspStep_pc s t who call d pc
  · refine ⟨hctxs, hsn, .inl ⟨?_, hdone⟩, fun c hc => .inl ?_⟩
    · rw [hpc', Function.update_self, hpc]; rfl
    · rw [hpc] at hc
      rwa [hpc', Function.update_self]
  · have hd : s.Returns t d := by
      rw [Returns, hpc]
      obtain ⟨scd, rfl, hscd⟩ | hswapped := hreturns
      · exact .inl ⟨scd, by simp [AsyncPc.expected], hscd⟩
      · exact .inr hswapped
    refine ⟨hctxs, hsn, ?_, fun c hc => ?_⟩
    · rw [hpc', hdone, hpc]
      cases who with
      | response sn => exact .inr ⟨goto_pc .., _, rfl, rfl⟩
      | timeout => exact .inr ⟨goto_pc .., _, rfl, rfl⟩
      | close rest => exact .inl ⟨by simp [back, AsyncPc.past, Caller.op], rfl⟩
    · rw [hpc] at hc
      obtain rfl | hc := List.mem_cons.1 hc
      · exact .inr hd
      · rw [hpc']
        cases who with
        | response sn => exact absurd hc List.not_mem_nil
        | timeout => exact absurd hc List.not_mem_nil
        | close rest => exact .inl (by simpa [back, AsyncPc.due, Caller.rest] using hc)

/-- A step is a section under the lock, or it keeps the map. -/
theorem Stepped.keeps (h : Stepped s t u) :
    (∃ op, s.pc t = .lock op ∧ u = s.locked t op) ∨ Keeps s u t := by
  cases h with
  | call op hpc =>
    refine .inr ⟨rfl, fun _ => rfl, .inl ⟨?_, rfl⟩, fun c hc => ?_⟩
    · rw [hpc, goto_pc]; rfl
    · rw [hpc] at hc
      exact nomatch hc
  | locked op hpc => exact .inl ⟨op, hpc, rfl⟩
  | stored who d hpc =>
    refine .inr ?_
    have hpc' : (s.stored t who d).pc t = .rsp who s.calls d .read := by
      cases who <;> exact goto_pc ..
    refine ⟨by cases who <;> rfl, ?_, .inl ⟨?_, by cases who <;> rfl⟩, fun c hc => .inl ?_⟩
    · cases who with
      | response sn => exact fun _ => rfl
      | timeout => exact sn_store rfl
      | close rest => exact sn_store rfl
    · rw [hpc, hpc']; rfl
    · rw [hpc] at hc
      rwa [hpc']
  | rsp who call d pc hpc => exact .inr (keeps_rsp hpc)
  | pick rest d hpc hd =>
    refine .inr ⟨rfl, fun _ => rfl, .inl ⟨?_, rfl⟩, fun c hc => .inl ?_⟩
    · rw [hpc, goto_pc]; rfl
    · rw [hpc] at hc
      rw [goto_pc]
      by_cases hcd : c = d
      · exact hcd ▸ List.mem_cons_self
      · exact List.mem_cons_of_mem _ ((List.mem_erase_of_ne hcd).2 hc)
  | closed hpc =>
    refine .inr ⟨rfl, fun _ => rfl, .inr ⟨goto_pc .., .close, ?_, rfl⟩, fun c hc => ?_⟩
    · rw [hpc]; rfl
    · rw [hpc] at hc
      exact nomatch hc

end

/-- The sections under the lock, for a map whose numbers are distinct: what is taken out is then due,
unless a `Ctx` with the same number has timed out. -/
structure Locks (s u : AsyncSocket T) (t : T) (op : AsyncOp) : Prop where
  heap : u.heap = s.heap
  sub : ∀ p ∈ u.ctxs, p ∈ s.ctxs
  cleared : u.Cleared op
  past : (u.pc t).past = some op ∧ u.done = s.done ∨ u.pc t = .idle ∧ u.done = op :: s.done
  timeouts : ∀ c, .timeout c ∈ u.done → .timeout c ∈ s.done
  taken : ∀ p ∈ s.ctxs, p ∈ u.ctxs ∨ p.2 ∈ (u.pc t).due ∨
    ∃ d, op = .timeout d ∧ (s.heap d).sn = p.1

theorem not_mem_filter {l : List (UInt32 × CtxPtr)} (sn : UInt32) :
    sn ∉ (l.filter (·.1 ≠ sn)).map Prod.fst := by
  simp

theorem mem_or_eq {l : List (UInt32 × CtxPtr)} {p : UInt32 × CtxPtr} (hp : p ∈ l) (sn : UInt32) :
    p ∈ l.filter (·.1 ≠ sn) ∨ sn = p.1 := by
  by_cases h : p.1 = sn
  · exact .inr h.symm
  · exact .inl (List.mem_filter.2 ⟨hp, by simpa using h⟩)

theorem locks_locked [DecidableEq T] (s : AsyncSocket T) (t : T) (op : AsyncOp)
    (hinj : ∀ p ∈ s.ctxs, ∀ q ∈ s.ctxs, p.1 = q.1 → p.2 = q.2) : Locks s (s.locked t op) t op := by
  cases op with
  | response sn =>
    rw [locked]
    split
    case h_1 d hd =>
      obtain ⟨l₁, l₂, heq, -⟩ := List.lookup_eq_some_iff.mp hd
      have hmem : (sn, d) ∈ s.ctxs := by simp [heq]
      constructor
      · rfl
      · exact fun p hp => (List.mem_filter.1 hp).1
      · exact not_mem_filter sn
      · exact .inl ⟨by simp [callRsp, AsyncPc.past, Caller.op], rfl⟩
      · exact fun c hc => hc
      · intro p hp
        refine (mem_or_eq hp sn).imp id fun hsn => .inl ?_
        rw [← hinj _ hmem p hp hsn]
        simp [callRsp, AsyncPc.due]
    case h_2 hnone =>
      constructor
      · rfl
      · exact fun p hp => hp
      · intro hmem
        obtain ⟨p, hp, hsn⟩ := List.mem_map.1 hmem
        simpa [hsn] using List.lookup_eq_none_iff.1 hnone p hp
      · exact .inr ⟨goto_pc .., rfl⟩
      · intro c hc
        obtain hc | hc := List.mem_cons.1 hc
        · cases hc
        · exact hc
      · exact fun p hp => .inl hp
  | timeout d =>
    constructor
    · rfl
    · exact fun p hp => (List.mem_filter.1 hp).1
    · exact not_mem_filter _
    · exact .inl ⟨by simp [locked, AsyncPc.past, Caller.op], rfl⟩
    · exact fun c hc => hc
    · exact fun p hp => (mem_or_eq hp (s.heap d).sn).imp id fun hsn => .inr ⟨d, rfl, hsn⟩
  | close =>
    constructor
    · rfl
    · exact fun p hp => absurd hp List.not_mem_nil
    · rfl
    · exact .inl ⟨by simp [locked, AsyncPc.past], rfl⟩
    · exact fun c hc => hc
    · intro p hp
      refine .inr (.inl ?_)
      simpa [locked, AsyncPc.due] using ⟨p.1, hp⟩

/-- The map only loses entries, and it has lost those of the operations that are past their section
under the lock. Who took out the `Ctx` has called `doRsp` for it, or still has to. -/
structure Kept (heap : CtxPtr → Ctx) (ctxs : List (UInt32 × CtxPtr)) (c : CtxPtr)
    (s : AsyncSocket T) : Prop where
  sn : ∀ d, (s.heap d).sn = (heap d).sn
  sub : ∀ p ∈ s.ctxs, p ∈ ctxs
  cleared : ∀ op, s.Passed op → s.Cleared op
  timeout : .timeout c ∈ s.done → s.swapsOf c ≠ []
  registered : ∀ sn, (sn, c) ∈ ctxs → (sn, c) ∈ s.ctxs ∨ (∃ t, c ∈ (s.pc t).due) ∨
    s.swapsOf c ≠ [] ∨ ∃ d, d ≠ c ∧ (heap d).sn = sn ∧ s.Passed (.timeout d)

variable {heap : CtxPtr → Ctx} {ctxs : List (UInt32 × CtxPtr)} {op : AsyncOp}

theorem Cleared.mono (h : s.Cleared op) (hsn : ∀ d, (u.heap d).sn = (s.heap d).sn)
    (hsub : ∀ p ∈ u.ctxs, p ∈ s.ctxs) : u.Cleared op := by
  cases op with
  | response sn => exact fun hmem => h (List.map_subset _ hsub hmem)
  | timeout d =>
    intro hmem
    rw [hsn] at hmem
    exact h (List.map_subset _ hsub hmem)
  | close =>
    refine List.eq_nil_iff_forall_not_mem.2 fun p hp => ?_
    exact absurd (hsub p hp) (by rw [show s.ctxs = [] from h]; exact List.not_mem_nil)

/-- Going on with an operation, or ending it, passes no other one. -/
theorem Keeps.passed (hk : Keeps s u t) (hothers : ∀ t', t' ≠ t → u.pc t' = s.pc t')
    (op : AsyncOp) : u.Passed op ↔ s.Passed op := by
  obtain ⟨hpast, hdone⟩ | ⟨hidle, op₀, hop₀, hdone⟩ := hk.past
  · have hall : ∀ t', (u.pc t').past = (s.pc t').past := fun t' => by
      by_cases ht : t' = t
      · rw [ht, hpast]
      · rw [hothers t' ht]
    simp only [Passed, hdone, hall]
  · constructor
    · rintro (hop | ⟨t', ht'⟩)
      · rw [hdone] at hop
        obtain rfl | hop := List.mem_cons.1 hop
        · exact .inr ⟨t, hop₀⟩
        · exact .inl hop
      · by_cases ht : t' = t
        · rw [ht, hidle] at ht'
          cases ht'
        · exact .inr ⟨t', hothers t' ht ▸ ht'⟩
    · rintro (hop | ⟨t', ht'⟩)
      · exact .inl (hdone ▸ List.mem_cons_of_mem _ hop)
      · by_cases ht : t' = t
        · rw [ht, hop₀] at ht'
          obtain rfl := Option.some.inj ht'
          exact .inl (hdone ▸ List.mem_cons_self)
        · exact .inr ⟨t', (hothers t' ht).symm ▸ ht'⟩

/-- A section under the lock passes its own operation. -/
theorem Locks.passed (hl : Locks s u t op) (hpc : s.pc t = .lock op)
    (hothers : ∀ t', t' ≠ t → u.pc t' = s.pc t') (op' : AsyncOp) :
    u.Passed op' ↔ op' = op ∨ s.Passed op' := by
  have hnone : (s.pc t).past = none := by rw [hpc]; rfl
  have hrest : ∀ t', t' ≠ t → ((u.pc t').past = some op' ↔ (s.pc t').past = some op') :=
    fun t' ht => by rw [hothers t' ht]
  have hs : s.Passed op' ↔ op' ∈ s.done ∨ ∃ t', t' ≠ t ∧ (u.pc t').past = some op' := by
    refine or_congr_right ⟨fun ⟨t', ht'⟩ => ?_, fun ⟨t', ht, ht'⟩ => ⟨t', (hrest t' ht).1 ht'⟩⟩
    have ht : t' ≠ t := by
      rintro rfl
      rw [hnone] at ht'
      cases ht'
    exact ⟨t', ht, (hrest t' ht).2 ht'⟩
  have hu : u.Passed op' ↔ op' ∈ u.done ∨ (u.pc t).past = some op' ∨
      ∃ t', t' ≠ t ∧ (u.pc t').past = some op' := by
    refine or_congr_right ⟨fun ⟨t', ht'⟩ => ?_, ?_⟩
    · by_cases ht : t' = t
      · exact .inl (ht ▸ ht')
      · exact .inr ⟨t', ht, ht'⟩
    · rintro (ht | ⟨t', -, ht'⟩)
      · exact ⟨t, ht⟩
      · exact ⟨t', ht'⟩
  rw [hs, hu]
  obtain ⟨hpast, hdone⟩ | ⟨hidle, hdone⟩ := hl.past
  · rw [hpast, hdone, Option.some_inj, eq_comm (a := op)]
    exact or_left_comm
  · rw [hidle, hdone, List.mem_cons]
    simp only [AsyncPc.past, reduceCtorEq, false_or]
    exact or_assoc

theorem Sole.returns (h : Sole c scd f s) (hr : s.Returns t c) : s.swapsOf c ≠ [] := by
  obtain ⟨v, hv, hne⟩ | hswapped := hr
  · obtain rfl | hswaps := h.expected t v hv
    · exact h.phase.scheduler.resolve_left hne
    · exact hswaps
  · exact h.swapped t hswapped

section
variable [DecidableEq T]

theorem Kept.keeps (h : Kept heap ctxs c s) (hk : Keeps s u t)
    (hothers : ∀ t', t' ≠ t → u.pc t' = s.pc t') (hreturns : s.Returns t c → s.swapsOf c ≠ [])
    (hswaps : s.swapsOf c ≠ [] → u.swapsOf c ≠ []) : Kept heap ctxs c u where
  sn d := (hk.sn d).trans (h.sn d)
  sub p hp := h.sub p (hk.ctxs ▸ hp)
  cleared op hop := ((h.cleared op ((hk.passed hothers op).1 hop)).mono hk.sn
    fun p hp => hk.ctxs ▸ hp)
  timeout hc := by
    obtain ⟨-, hdone⟩ | ⟨hidle, op, hop, hdone⟩ := hk.past
    · exact hswaps (h.timeout (hdone ▸ hc))
    · rw [hdone] at hc
      obtain rfl | hc := List.mem_cons.1 hc
      · obtain hdue | hret := hk.due c (AsyncPc.due_of_past hop)
        · rw [hidle] at hdue
          exact nomatch hdue
        · exact hswaps (hreturns hret)
      · exact hswaps (h.timeout hc)
  registered sn hsn := by
    obtain hmem | ⟨t', ht'⟩ | hne | ⟨d, hd, hdsn, hpassed⟩ := h.registered sn hsn
    · exact .inl (hk.ctxs ▸ hmem)
    · by_cases ht : t' = t
      · subst ht
        obtain hdue | hret := hk.due c ht'
        · exact .inr (.inl ⟨t', hdue⟩)
        · exact .inr (.inr (.inl (hswaps (hreturns hret))))
      · exact .inr (.inl ⟨t', (hothers t' ht).symm ▸ ht'⟩)
    · exact .inr (.inr (.inl (hswaps hne)))
    · exact .inr (.inr (.inr ⟨d, hd, hdsn, (hk.passed hothers _).2 hpassed⟩))

omit [DecidableEq T] in
theorem Kept.locked (h : Kept heap ctxs c s) (hl : Locks s u t op) (hpc : s.pc t = .lock op)
    (hothers : ∀ t', t' ≠ t → u.pc t' = s.pc t') (hswaps : s.swapsOf c ≠ [] → u.swapsOf c ≠ []) :
    Kept heap ctxs c u where
  sn d := by rw [hl.heap, h.sn]
  sub p hp := h.sub p (hl.sub p hp)
  cleared op' hop' := by
    obtain rfl | hop' := (hl.passed hpc hothers op').1 hop'
    · exact hl.cleared
    · exact (h.cleared op' hop').mono (fun d => by rw [hl.heap]) hl.sub
  timeout hc := hswaps (h.timeout (hl.timeouts c hc))
  registered sn hsn := by
    obtain hmem | ⟨t', ht'⟩ | hne | ⟨d, hd, hdsn, hpassed⟩ := h.registered sn hsn
    · obtain hmem | hdue | ⟨d, rfl, hdsn⟩ := hl.taken _ hmem
      · exact .inl hmem
      · exact .inr (.inl ⟨t, hdue⟩)
      · by_cases hd : d = c
        · subst hd
          obtain ⟨hpast, -⟩ | ⟨-, hdone⟩ := hl.past
          · exact .inr (.inl ⟨t, AsyncPc.due_of_past hpast⟩)
          · have hc := hl.timeouts d (hdone ▸ List.mem_cons_self)
            exact .inr (.inr (.inl (hswaps (h.timeout hc))))
        · rw [h.sn] at hdsn
          exact .inr (.inr (.inr ⟨d, hd, hdsn, (hl.passed hpc hothers _).2 (.inl rfl)⟩))
    · have ht : t' ≠ t := by
        rintro rfl
        rw [hpc] at ht'
        exact nomatch ht'
      exact .inr (.inl ⟨t', (hothers t' ht).symm ▸ ht'⟩)
    · exact .inr (.inr (.inl (hswaps hne)))
    · exact .inr (.inr (.inr ⟨d, hd, hdsn, (hl.passed hpc hothers _).2 (.inr hpassed)⟩))

/-! ## A run -/

omit [DecidableEq T] in
/-- The numbers in the map are those of the `Ctx`s, and distinct. -/
theorem addCtx_keys (heap : CtxPtr → Ctx) (added : List CtxPtr) :
    (∀ p ∈ (start heap added : AsyncSocket T).ctxs, p.1 = (heap p.2).sn) ∧
      ∀ p ∈ (start heap added : AsyncSocket T).ctxs,
        ∀ q ∈ (start heap added : AsyncSocket T).ctxs, p.1 = q.1 → p.2 = q.2 := by
  show (∀ p ∈ added.foldl (addCtx heap) [], _) ∧
    ∀ p ∈ added.foldl (addCtx heap) [], ∀ q ∈ added.foldl (addCtx heap) [], _
  induction added using List.reverseRecOn with
  | nil => exact ⟨nofun, nofun⟩
  | append_singleton added c ih =>
    rw [List.foldl_append, List.foldl_cons, List.foldl_nil, addCtx]
    split_ifs with hmem
    · exact ih
    · obtain ⟨hkeys, hinj⟩ := ih
      have hnew : ∀ p ∈ added.foldl (addCtx heap) [], p.1 ≠ (heap c).sn := fun p hp hsn =>
        hmem (List.mem_map.2 ⟨p, hp, hsn⟩)
      refine ⟨fun p hp => ?_, fun p hp q hq hpq => ?_⟩
      · obtain hp | hp := List.mem_append.1 hp
        · exact hkeys p hp
        · obtain rfl := List.mem_singleton.1 hp
          rfl
      · obtain hp | hp := List.mem_append.1 hp
        · obtain hq | hq := List.mem_append.1 hq
          · exact hinj p hp q hq hpq
          · obtain rfl := List.mem_singleton.1 hq
            exact absurd hpq (hnew p hp)
        · obtain rfl := List.mem_singleton.1 hp
          obtain hq | hq := List.mem_append.1 hq
          · exact absurd hpq.symm (hnew q hq)
          · rw [List.mem_singleton.1 hq]

omit [DecidableEq T] in
theorem kept_start (heap : CtxPtr → Ctx) (added : List CtxPtr) (c : CtxPtr) :
    Kept heap (start heap added : AsyncSocket T).ctxs c (start heap added : AsyncSocket T) where
  sn _ := rfl
  sub _ hp := hp
  cleared op h := by
    obtain h | ⟨t, ht⟩ := h
    · exact nomatch h
    · exact nomatch ht
  timeout h := nomatch h
  registered _ hmem := .inl hmem

theorem sole_kept_of_reach {added : List CtxPtr} (hscd : (heap c).scheduler = some scd)
    (hfiber : (heap c).fiber = some f) (h : Reach step Trans.free (start heap added) s) :
    Sole c scd f s ∧ Kept heap (start heap added : AsyncSocket T).ctxs c s := by
  refine h.invariant (I := fun s => Sole c scd f s ∧ Kept heap _ c s)
    ⟨sole_start heap added hscd hfiber, kept_start heap added c⟩ fun s l u hinv _ hst => ?_
  obtain ⟨hsole, hkept⟩ := hinv
  obtain ⟨t, hstep⟩ := exists_stepped hst
  have heffect := hstep.effect c
  have hothers : ∀ t', t' ≠ t → u.pc t' = s.pc t' := fun t' => hstep.others
  refine ⟨hsole.step heffect hothers, ?_⟩
  obtain ⟨op, hpc, rfl⟩ | hkeeps := hstep.keeps
  · have hinj := (addCtx_keys (T := T) heap added).2
    refine hkept.locked (locks_locked s t op fun p hp q hq => ?_) hpc hothers heffect.swaps
    exact hinj p (hkept.sub p hp) q (hkept.sub q hq)
  · exact hkept.keeps hkeeps hothers hsole.returns heffect.swaps

omit [DecidableEq T] in
/-- When no operation is running, a `Ctx` that was swapped has been resumed. -/
theorem Sole.resumed (h : Sole c scd f s) (hidle : ∀ t, s.pc t = .idle) (hne : s.swapsOf c ≠ []) :
    s.logOf c ≠ [] := by
  cases h.phase with
  | waiting swaps log scheduler fiber held => exact absurd swaps hne
  | claimed t n rest swaps log scheduler fiber holds held =>
    rw [hidle t] at holds
    cases holds
  | resumed n rest swaps log scheduler held => simp [log]

omit [DecidableEq T] in
/-- When no operation is running, a `Ctx` that has left the map was swapped, unless another one with
its number has timed out. -/
theorem Kept.swapped (h : Kept heap ctxs c s) (hidle : ∀ t, s.pc t = .idle) {sn : UInt32}
    (hmem : (sn, c) ∈ ctxs) (hleft : (sn, c) ∉ s.ctxs)
    (hother : ∀ d, .timeout d ∈ s.done → (heap d).sn = sn → d = c) : s.swapsOf c ≠ [] := by
  obtain hin | ⟨t, ht⟩ | hne | ⟨d, hd, hsn, hdone | ⟨t, ht⟩⟩ := h.registered sn hmem
  · exact absurd hin hleft
  · rw [hidle t] at ht
    exact nomatch ht
  · exact hne
  · exact absurd (hother d hdone hsn) hd
  · rw [hidle t] at ht
    cases ht

/-- In every run, the fiber of a `Ctx` is scheduled at most once, and by the first call of `doRsp`
whose swap succeeded. When no operation is running, it was scheduled if a swap succeeded: so after the
timeout, and after the response or the end of the connection for a `Ctx` that was added, whose number
no other `Ctx` that timed out has. After the timeout and the end of the connection, the `Ctx` is not
in the map. -/
theorem resumed_once (heap : CtxPtr → Ctx) (added : List CtxPtr) {c : CtxPtr} {scd f : ℕ}
    (hscd : (heap c).scheduler = some scd) (hfiber : (heap c).fiber = some f) {s : AsyncSocket T}
    (h : Reach step Trans.free (start heap added) s) :
    (s.logOf c = [] ∨ ∃ n rest, s.swapsOf c = n :: rest ∧ s.logOf c = [⟨n, c, scd, f⟩]) ∧
    ((∀ t, s.pc t = .idle) →
      s.swapsOf c ≠ [] ∨ .timeout c ∈ s.done ∨
        (((heap c).sn, c) ∈ (start heap added : AsyncSocket T).ctxs ∧
          (∀ d, .timeout d ∈ s.done → (heap d).sn = (heap c).sn → d = c) ∧
          (.response (heap c).sn ∈ s.done ∨ .close ∈ s.done)) →
      s.logOf c ≠ []) ∧
    (.timeout c ∈ s.done ∨ .close ∈ s.done → c ∉ s.ctxs.map Prod.snd) := by
  obtain ⟨hsole, hkept⟩ := sole_kept_of_reach hscd hfiber h
  have hkeys := (addCtx_keys (T := T) heap added).1
  refine ⟨?_, fun hidle hdone => hsole.resumed hidle ?_, ?_⟩
  · cases hsole.phase with
    | waiting swaps log scheduler fiber held => exact .inl log
    | claimed t n rest swaps log scheduler fiber holds held => exact .inl log
    | resumed n rest swaps log scheduler held => exact .inr ⟨n, rest, swaps, log⟩
  · obtain hne | htimeout | ⟨hmem, hother, hdone⟩ := hdone
    · exact hne
    · exact hkept.timeout htimeout
    · refine hkept.swapped hidle hmem (fun hin => ?_) hother
      obtain hresponse | hclose := hdone
      · exact hkept.cleared _ (.inl hresponse) (List.mem_map.2 ⟨_, hin, rfl⟩)
      · rw [show s.ctxs = [] from hkept.cleared _ (.inl hclose)] at hin
        exact nomatch hin
  · rintro (htimeout | hclose) hmem
    · obtain ⟨p, hp, rfl⟩ := List.mem_map.1 hmem
      refine hkept.cleared _ (.inl htimeout) (List.mem_map.2 ⟨p, hp, ?_⟩)
      rw [hkept.sn, hkeys p (hkept.sub p hp)]
    · rw [show s.ctxs = [] from hkept.cleared _ (.inl hclose)] at hmem
      exact nomatch hmem

end

/-- The end of the connection and the timer both read the scheduler, and the timer swaps first; the
response comes when the `Ctx` is not in the map any more. -/
theorem resumed_once_race : ∃ s : AsyncSocket (Fin 3), s.logOf 5 = [⟨1, 5, 7, 9⟩] ∧
    s.logOf 5 ≠ [] ∧ 5 ∉ s.ctxs.map Prod.snd := by
  have hs := reach_exec step (Trans.free (σ := AsyncSocket (Fin 3)))
    (start (fun _ => ⟨1, 0, false, some 7, some 9, some 3⟩) [5])
    [.call 0 .close, .call 1 (.timeout 5), .call 2 (.response 1), .next 0, .next 1, .next 2,
      .pick 0 5, .next 0, .next 1, .next 0, .next 1, .next 1, .next 0, .next 1, .next 1, .next 1,
      .next 1, .next 0] (by decide +kernel)
  obtain ⟨-, hresumed, hmap⟩ := resumed_once _ _ (c := 5) rfl rfl hs
  refine ⟨_, ?_, hresumed ?_ (.inr (.inl ?_)), hmap (.inl ?_)⟩ <;> decide +kernel

end AsyncSocket

end CoroutineScheduler.Streams
