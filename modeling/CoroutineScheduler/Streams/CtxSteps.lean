import CoroutineScheduler.Streams.AsyncSocket

/-!
# Steps seen from one `Ctx`

What a step of a thread does to one `Ctx`: it reads the scheduler, swaps it, gives the fiber to a
scheduler, gives up, or leaves all of this (`Stepped.effect`).
-/

namespace CoroutineScheduler.Streams

/-- The call and the scheduler of a thread whose swap on `c` succeeded with a scheduler, until it has
used it. -/
def AsyncPc.held (c : CtxPtr) : AsyncPc → Option (ℕ × ℕ)
  | .rsp _ call d (.check (some scd)) | .rsp _ call d (.cancel scd) | .rsp _ call d (.result scd)
  | .rsp _ call d (.schedule scd) => if d = c then some (call, scd) else none
  | _ => none

/-- What a thread in front of the swap on `c` has read. -/
def AsyncPc.expected (c : CtxPtr) : AsyncPc → Option (Option ℕ)
  | .rsp _ _ d (.swap scd) => if d = c then some scd else none
  | _ => none

/-- Whether a thread is in `doRsp` of `c` behind the swap. -/
def AsyncPc.swapped (c : CtxPtr) : AsyncPc → Bool
  | .rsp _ _ d (.check _) | .rsp _ _ d (.cancel _) | .rsp _ _ d (.result _)
  | .rsp _ _ d (.schedule _) => d = c
  | _ => false

/-- The operation of a caller. -/
def Caller.op (c : CtxPtr) : Caller → AsyncOp
  | .response sn => .response sn
  | .timeout => .timeout c
  | .close _ => .close

def Caller.rest : Caller → List CtxPtr
  | .close rest => rest
  | .response _ | .timeout => []

/-- The operation whose section under the lock a thread has behind it. -/
def AsyncPc.past : AsyncPc → Option AsyncOp
  | .idle | .lock _ => none
  | .mark who c | .rsp who _ c _ => some (who.op c)
  | .loop _ => some .close

/-- The `Ctx`s whose `doRsp` a thread has to call, or to finish. -/
def AsyncPc.due : AsyncPc → List CtxPtr
  | .idle | .lock _ => []
  | .mark who c | .rsp who _ c _ => c :: who.rest
  | .loop rest => rest

/-- A timeout has its own `Ctx` to do. -/
theorem AsyncPc.due_of_past {c : CtxPtr} {pc : AsyncPc} (h : pc.past = some (.timeout c)) :
    c ∈ pc.due := by
  cases pc with
  | idle | lock op => cases h
  | mark who d | rsp who call d pc =>
    cases who with
    | timeout =>
      obtain rfl := AsyncOp.timeout.inj (Option.some.inj h)
      exact List.mem_cons_self
    | response sn | close rest => cases h
  | loop rest => cases h

/-- `doRsp` of another `Ctx` has nothing of this one. -/
theorem AsyncPc.rsp_other {c d : CtxPtr} (hd : d ≠ c) (who : Caller) (call : ℕ) (pc : RspPc) :
    (AsyncPc.rsp who call d pc).held c = none ∧ (AsyncPc.rsp who call d pc).expected c = none ∧
      (AsyncPc.rsp who call d pc).swapped c = false := by
  rcases pc with _ | _ | (_ | _) | _ | _ | _ <;> simp [held, expected, swapped, hd]

namespace AsyncSocket

variable {T : Type} {s u : AsyncSocket T} {t : T} {c : CtxPtr}

/-- The parts of a `Ctx` and of the histories that decide who resumes its fiber. -/
structure Same (c : CtxPtr) (s u : AsyncSocket T) : Prop where
  scheduler : (u.heap c).scheduler = (s.heap c).scheduler
  fiber : (u.heap c).fiber = (s.heap c).fiber
  swaps : u.swapsOf c = s.swapsOf c
  log : u.logOf c = s.logOf c

/-- The steps of a thread, as a `Ctx` sees them: reading its scheduler, swapping it, giving its fiber
to a scheduler, giving up for want of a fiber, and all others. -/
inductive Effect (c : CtxPtr) (s u : AsyncSocket T) (t : T) : Prop
  | other (same : Same c s u) (held : (u.pc t).held c = (s.pc t).held c)
      (expected : (u.pc t).expected c = none)
      (swapped : (u.pc t).swapped c = true → (s.pc t).swapped c = true)
  | read (same : Same c s u) (before : (s.pc t).held c = none) (held : (u.pc t).held c = none)
      (expected : (u.pc t).expected c = some (s.heap c).scheduler)
      (swapped : (u.pc t).swapped c = false)
  | swap (n : ℕ) (before : (s.pc t).held c = none)
      (read : (s.pc t).expected c = some (s.heap c).scheduler)
      (scheduler : (u.heap c).scheduler = none) (fiber : (u.heap c).fiber = (s.heap c).fiber)
      (swaps : u.swapsOf c = s.swapsOf c ++ [n]) (log : u.logOf c = s.logOf c)
      (held : (u.pc t).held c = (s.heap c).scheduler.map fun scd => (n, scd))
      (expected : (u.pc t).expected c = none)
  | resume (n scd : ℕ) (before : (s.pc t).held c = some (n, scd)) (held : (u.pc t).held c = none)
      (expected : (u.pc t).expected c = none) (swapped : (u.pc t).swapped c = false)
      (scheduler : (u.heap c).scheduler = (s.heap c).scheduler) (swaps : u.swapsOf c = s.swapsOf c)
      (log : u.logOf c = s.logOf c ++ (s.heap c).fiber.toList.map fun f => ⟨n, c, scd, f⟩)
  | giveUp (same : Same c s u) (fiber : (s.heap c).fiber = none) (held : (u.pc t).held c = none)
      (expected : (u.pc t).expected c = none) (swapped : (u.pc t).swapped c = false)

/-- The steps, by the place of the thread. -/
inductive Stepped [DecidableEq T] (s : AsyncSocket T) (t : T) : AsyncSocket T → Prop
  | call (op : AsyncOp) (hpc : s.pc t = .idle) : Stepped s t (s.goto t (.lock op))
  | locked (op : AsyncOp) (hpc : s.pc t = .lock op) : Stepped s t (s.locked t op)
  | stored (who : Caller) (c : CtxPtr) (hpc : s.pc t = .mark who c) : Stepped s t (s.stored t who c)
  | rsp (who : Caller) (call : ℕ) (c : CtxPtr) (pc : RspPc) (hpc : s.pc t = .rsp who call c pc) :
      Stepped s t (s.rspStep t who call c pc)
  | pick (rest : List CtxPtr) (c : CtxPtr) (hpc : s.pc t = .loop rest) (hc : c ∈ rest) :
      Stepped s t (s.goto t (.mark (.close (rest.erase c)) c))
  | closed (hpc : s.pc t = .loop []) :
      Stepped s t { s.goto t .idle with done := .close :: s.done }

section
variable [DecidableEq T]

theorem exists_stepped {l : AsyncLabel T} (h : s.step l = some u) : ∃ t, Stepped s t u := by
  cases l with
  | call t op =>
    simp only [step] at h
    split_ifs at h with hpc
    obtain rfl := Option.some.inj h
    exact ⟨t, .call op hpc⟩
  | next t =>
    rw [step] at h
    split at h
    case h_1 | h_2 => cases h
    all_goals obtain rfl := Option.some.inj h
    · exact ⟨t, .locked _ ‹_›⟩
    · exact ⟨t, .stored _ _ ‹_›⟩
    · exact ⟨t, .closed ‹_›⟩
    · exact ⟨t, .rsp _ _ _ _ ‹_›⟩
  | pick t c =>
    rw [step] at h
    split at h
    case h_1 rest hpc =>
      split_ifs at h with hc
      obtain rfl := Option.some.inj h
      exact ⟨t, .pick rest c hpc hc⟩
    case h_2 => cases h

/-! ## What a step does to one `Ctx` -/

@[simp] theorem goto_pc (s : AsyncSocket T) (t : T) (pc : AsyncPc) : (s.goto t pc).pc t = pc :=
  Function.update_self _ _ _

theorem goto_others (s : AsyncSocket T) (pc : AsyncPc) {t t' : T} (h : t' ≠ t) :
    (s.goto t pc).pc t' = s.pc t' :=
  Function.update_of_ne h _ _

omit [DecidableEq T] in
theorem Same.of_eq (hheap : u.heap = s.heap) (hswaps : u.swaps = s.swaps) (hlog : u.log = s.log) :
    Same c s u := by
  constructor
  · rw [hheap]
  · rw [hheap]
  · rw [swapsOf, swapsOf, hswaps]
  · rw [logOf, logOf, hlog]

omit [DecidableEq T] in
/-- Storing into the other parts of a `Ctx`. -/
theorem Same.store {d : CtxPtr} {x : Ctx} (hheap : u.heap = Function.update s.heap d x)
    (hswaps : u.swaps = s.swaps) (hlog : u.log = s.log)
    (hscd : x.scheduler = (s.heap d).scheduler) (hfiber : x.fiber = (s.heap d).fiber) :
    Same c s u := by
  have hx : (u.heap c).scheduler = (s.heap c).scheduler ∧ (u.heap c).fiber = (s.heap c).fiber := by
    rw [hheap]
    by_cases hd : c = d
    · rw [hd, Function.update_self]
      exact ⟨hscd, hfiber⟩
    · rw [Function.update_of_ne hd]
      exact ⟨rfl, rfl⟩
  constructor
  · exact hx.1
  · exact hx.2
  · rw [swapsOf, swapsOf, hswaps]
  · rw [logOf, logOf, hlog]

@[simp] theorem back_heap (s : AsyncSocket T) (t : T) (who : Caller) (c : CtxPtr) :
    (s.back t who c).heap = s.heap := by
  cases who <;> rfl

@[simp] theorem back_ctxs (s : AsyncSocket T) (t : T) (who : Caller) (c : CtxPtr) :
    (s.back t who c).ctxs = s.ctxs := by
  cases who <;> rfl

@[simp] theorem back_swaps (s : AsyncSocket T) (t : T) (who : Caller) (c : CtxPtr) :
    (s.back t who c).swaps = s.swaps := by
  cases who <;> rfl

@[simp] theorem back_log (s : AsyncSocket T) (t : T) (who : Caller) (c : CtxPtr) :
    (s.back t who c).log = s.log := by
  cases who <;> rfl

theorem back_others (s : AsyncSocket T) (who : Caller) (c : CtxPtr) {t t' : T} (h : t' ≠ t) :
    (s.back t who c).pc t' = s.pc t' := by
  cases who <;> exact goto_others s _ h

/-- A thread that has returned from `doRsp` holds nothing. -/
theorem back_pc (s : AsyncSocket T) (t : T) (who : Caller) (c d : CtxPtr) :
    ((s.back t who c).pc t).held d = none ∧ ((s.back t who c).pc t).expected d = none ∧
      ((s.back t who c).pc t).swapped d = false := by
  cases who <;> simp [back, AsyncPc.held, AsyncPc.expected, AsyncPc.swapped]

omit [DecidableEq T] in
theorem Effect.quiet {a b : AsyncPc} (same : Same c s u) (ha : s.pc t = a) (hb : u.pc t = b)
    (hheld : b.held c = a.held c) (hexp : b.expected c = none) (hswapped : b.swapped c = a.swapped c) :
    Effect c s u t :=
  .other same (by rw [ha, hb, hheld]) (by rw [hb, hexp]) (by rw [ha, hb, hswapped]; exact id)

/-- A step of `doRsp` stays in it, or it is the return. -/
theorem rspStep_pc (s : AsyncSocket T) (t : T) (who : Caller) (call : ℕ) (d : CtxPtr) (pc : RspPc) :
    (∃ pc', (s.rspStep t who call d pc).pc = Function.update s.pc t (.rsp who call d pc') ∧
      (s.rspStep t who call d pc).done = s.done) ∨
    ((s.rspStep t who call d pc).pc = (s.back t who d).pc ∧
      (s.rspStep t who call d pc).done = (s.back t who d).done ∧
      ((∃ scd, pc = .swap scd ∧ (s.heap d).scheduler ≠ scd) ∨
        (AsyncPc.rsp who call d pc).swapped d = true)) := by
  cases pc with
  | read => exact .inl ⟨_, rfl, rfl⟩
  | swap scd =>
    rw [rspStep]
    split_ifs with hscd
    · exact .inl ⟨_, rfl, rfl⟩
    · exact .inr ⟨rfl, rfl, .inl ⟨scd, rfl, hscd⟩⟩
  | check scd =>
    have hswapped : (AsyncPc.rsp who call d (.check scd)).swapped d = true := by
      simp [AsyncPc.swapped]
    cases scd with
    | none => exact .inr ⟨rfl, rfl, .inr hswapped⟩
    | some scd =>
      rw [rspStep]
      split_ifs
      · exact .inr ⟨rfl, rfl, .inr hswapped⟩
      · exact .inl ⟨_, rfl, rfl⟩
  | cancel scd => exact .inl ⟨_, rfl, rfl⟩
  | result scd =>
    rw [rspStep]
    split_ifs
    · exact .inl ⟨_, rfl, rfl⟩
    · exact .inl ⟨_, rfl, rfl⟩
  | schedule scd =>
    refine .inr ⟨?_, ?_, .inr (by simp [AsyncPc.swapped])⟩
    · cases who <;> rfl
    · cases who <;> rfl

/-- A step of `doRsp` changes its own `Ctx`. -/
theorem same_rspStep {who : Caller} {call : ℕ} {d : CtxPtr} (pc : RspPc) (hd : d ≠ c) :
    Same c s (s.rspStep t who call d pc) := by
  have hctx : ∀ (x : Ctx), Function.update s.heap d x c = s.heap c := fun x =>
    Function.update_of_ne hd.symm _ _
  cases pc with
  | read => exact Same.of_eq rfl rfl rfl
  | swap scd =>
    rw [rspStep]
    split_ifs
    · constructor
      · exact congrArg Ctx.scheduler (hctx _)
      · exact congrArg Ctx.fiber (hctx _)
      · simp [swapsOf, hd]
      · rfl
    · exact Same.of_eq (back_heap ..) (back_swaps ..) (back_log ..)
  | check scd =>
    cases scd with
    | none => exact Same.of_eq (back_heap ..) (back_swaps ..) (back_log ..)
    | some scd =>
      rw [rspStep]
      split_ifs
      · exact Same.of_eq (back_heap ..) (back_swaps ..) (back_log ..)
      · exact Same.of_eq rfl rfl rfl
  | cancel scd => exact Same.store rfl rfl rfl rfl rfl
  | result scd =>
    rw [rspStep]
    split_ifs
    · exact Same.store rfl rfl rfl rfl rfl
    · exact Same.of_eq rfl rfl rfl
  | schedule scd =>
    constructor
    · simp [rspStep, setCtx, hctx]
    · simp [rspStep, setCtx, hctx]
    · simp [rspStep, swapsOf, setCtx]
    · simp [rspStep, logOf, setCtx, hd]

theorem effect_rsp {who : Caller} {call : ℕ} {pc : RspPc} (hpc : s.pc t = .rsp who call c pc) :
    Effect c s (s.rspStep t who call c pc) t := by
  cases pc with
  | read =>
    refine .read (Same.of_eq rfl rfl rfl) ?_ ?_ ?_ ?_
    · rw [hpc]; rfl
    · simp [rspStep, AsyncPc.held]
    · simp [rspStep, AsyncPc.expected]
    · simp [rspStep, AsyncPc.swapped]
  | swap scd =>
    obtain ⟨hheld, hexp, hswapped⟩ := back_pc s t who c c
    rw [rspStep]
    split_ifs with hscd
    · refine .swap call ?_ ?_ ?_ ?_ ?_ ?_ ?_ ?_
      · rw [hpc]; rfl
      · rw [hpc, hscd]; simp [AsyncPc.expected]
      · simp [goto, setCtx]
      · simp [goto, setCtx]
      · simp [swapsOf]
      · rfl
      · rw [hscd]
        cases scd <;> simp [AsyncPc.held]
      · simp [AsyncPc.expected]
    · refine .other (Same.of_eq (back_heap ..) (back_swaps ..) (back_log ..)) ?_ hexp ?_
      · rw [hheld, hpc]; rfl
      · rw [hswapped]; exact nofun
  | check scd =>
    obtain ⟨hheld, hexp, hswapped⟩ := back_pc s t who c c
    cases scd with
    | none =>
      refine .other (Same.of_eq (back_heap ..) (back_swaps ..) (back_log ..)) ?_ hexp ?_
      · rw [rspStep, hheld, hpc]; rfl
      · rw [rspStep, hswapped]; exact nofun
    | some scd =>
      rw [rspStep]
      split_ifs with hfiber
      · exact .giveUp (Same.of_eq (back_heap ..) (back_swaps ..) (back_log ..)) hfiber hheld hexp
          hswapped
      · exact .quiet (Same.of_eq rfl rfl rfl) hpc (goto_pc ..) rfl rfl rfl
  | cancel scd =>
    exact .quiet (Same.store rfl rfl rfl rfl rfl) hpc (goto_pc ..) rfl rfl rfl
  | result scd =>
    refine .quiet ?_ hpc (goto_pc ..) rfl rfl rfl
    rw [rspStep]
    split_ifs
    · exact Same.store rfl rfl rfl rfl rfl
    · exact Same.of_eq rfl rfl rfl
  | schedule scd =>
    obtain ⟨hheld, hexp, hswapped⟩ :=
      back_pc (s.setCtx c { s.heap c with fiber := none }) t who c c
    refine .resume call scd ?_ hheld hexp hswapped ?_ ?_ ?_
    · rw [hpc]; simp [AsyncPc.held]
    · simp [rspStep, setCtx]
    · simp [rspStep, swapsOf, setCtx]
    · simp [rspStep, logOf]

theorem effect_rsp_other {who : Caller} {call : ℕ} {d : CtxPtr} {pc : RspPc}
    (hpc : s.pc t = .rsp who call d pc) (hd : d ≠ c) : Effect c s (s.rspStep t who call d pc) t := by
  obtain ⟨hheld, -, -⟩ := AsyncPc.rsp_other hd who call pc
  rw [← hpc] at hheld
  obtain ⟨pc', hpc', -⟩ | ⟨hpc', -, -⟩ := rspStep_pc s t who call d pc
  · obtain ⟨hheld', hexp', hswapped'⟩ := AsyncPc.rsp_other hd who call pc'
    refine .other (same_rspStep pc hd) ?_ ?_ ?_
    · rw [hpc', Function.update_self, hheld, hheld']
    · rw [hpc', Function.update_self, hexp']
    · rw [hpc', Function.update_self, hswapped']; exact nofun
  · obtain ⟨hheld', hexp', hswapped'⟩ := back_pc s t who d c
    refine .other (same_rspStep pc hd) ?_ ?_ ?_
    · rw [hpc', hheld, hheld']
    · rw [hpc', hexp']
    · rw [hpc', hswapped']; exact nofun

theorem Stepped.effect (h : Stepped s t u) (c : CtxPtr) : Effect c s u t := by
  cases h with
  | call op hpc => exact .quiet (Same.of_eq rfl rfl rfl) hpc (goto_pc ..) rfl rfl rfl
  | locked op hpc =>
    cases op with
    | response sn =>
      rw [AsyncSocket.locked]
      split
      · exact .quiet (Same.of_eq rfl rfl rfl) hpc (goto_pc ..) rfl rfl rfl
      · exact .quiet (Same.of_eq rfl rfl rfl) hpc (goto_pc ..) rfl rfl rfl
    | timeout d => exact .quiet (Same.of_eq rfl rfl rfl) hpc (goto_pc ..) rfl rfl rfl
    | close => exact .quiet (Same.of_eq rfl rfl rfl) hpc (goto_pc ..) rfl rfl rfl
  | stored who d hpc =>
    cases who with
    | response sn => exact .quiet (Same.of_eq rfl rfl rfl) hpc (goto_pc ..) rfl rfl rfl
    | timeout => exact .quiet (Same.store rfl rfl rfl rfl rfl) hpc (goto_pc ..) rfl rfl rfl
    | close rest => exact .quiet (Same.store rfl rfl rfl rfl rfl) hpc (goto_pc ..) rfl rfl rfl
  | rsp who call d pc hpc =>
    by_cases hd : d = c
    · subst hd
      exact effect_rsp hpc
    · exact effect_rsp_other hpc hd
  | pick rest d hpc hd => exact .quiet (Same.of_eq rfl rfl rfl) hpc (goto_pc ..) rfl rfl rfl
  | closed hpc => exact .quiet (Same.of_eq rfl rfl rfl) hpc (goto_pc ..) rfl rfl rfl

theorem Stepped.others (h : Stepped s t u) {t' : T} (ht : t' ≠ t) : u.pc t' = s.pc t' := by
  cases h with
  | call op hpc => exact goto_others s _ ht
  | locked op hpc =>
    cases op with
    | response sn =>
      rw [AsyncSocket.locked]
      split
      · exact goto_others s _ ht
      · exact goto_others s _ ht
    | timeout d => exact goto_others s _ ht
    | close => exact goto_others s _ ht
  | stored who d hpc => cases who <;> exact goto_others s _ ht
  | rsp who call d pc hpc =>
    obtain ⟨pc', hpc', -⟩ | ⟨hpc', -, -⟩ := rspStep_pc s t who call d pc
    · rw [hpc', Function.update_of_ne ht]
    · rw [hpc', back_others s who d ht]
  | pick rest d hpc hd => exact goto_others s _ ht
  | closed hpc => exact goto_others s _ ht

end

end AsyncSocket

end CoroutineScheduler.Streams
