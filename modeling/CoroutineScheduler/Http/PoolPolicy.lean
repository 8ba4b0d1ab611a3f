import CoroutineScheduler.Http.PoolCount

/-!
# The policy of the pool

The comment on `m_maxSize` and the names of `m_maxAliveTime` and `m_maxRequest` say what the pool is to
do with its connections: `Policy` says it of a connection that is taken or discarded. The code sets
no `m_createTime`, compares it the wrong way round and does not look at `m_maxSize`, so the age of a
connection and the number of idle ones do not matter to it (`policy_broken`).

`pool_policy`: the policy is followed in the runs in which they did not have to matter.
-/

namespace CoroutineScheduler.Http

open Trans

/-- A connection that is taken out of the idle list is connected, not too old and may serve a
request; one that is discarded is not connected, or it is too old or has served all its requests. -/
def Policy (cfg : PoolConfig) : PoolEvent → Prop
  | .taken now _ c => c.connected = true ∧ now ≤ c.born + cfg.maxAliveTime ∧
    c.request < cfg.maxRequest
  | .discarded now c => ¬ (c.connected = true ∧ now < c.born + cfg.maxAliveTime ∧
    c.request < cfg.maxRequest)
  | _ => True

instance (cfg : PoolConfig) : DecidablePred (Policy cfg)
  | .taken .. => inferInstanceAs (Decidable (_ ∧ _))
  | .discarded .. => inferInstanceAs (Decidable (¬ _))
  | .made _ | .wrote .. | .failed _ => isTrue trivial

namespace Pool

variable {T : Type}

/-- The first idle connection that is connected. -/
def firstLive (s : Pool T) : Option ConnPtr := s.conns.find? fun p => (s.heap p).connected

/-- The sections at which the missing checks make no difference: `getConnection` finds no live
connection, or the first one not too old and the clock not below `m_maxAliveTime`, and a connection
that is put back finds room. -/
def FitsAt (cfg : PoolConfig) (s : Pool T) : PoolPc → Prop
  | .lock now => ∀ p ∈ s.firstLive,
    cfg.maxAliveTime ≤ now ∧ now ≤ (s.heap p).born + cfg.maxAliveTime
  | .push _ => s.conns.length < cfg.maxSize
  | _ => True

/-- The steps at which they make none: also, the clock is not below `m_maxAliveTime` when a
connection worth keeping is released. -/
def Fits (cfg : PoolConfig) (s : Pool T) : PoolLabel T → Prop
  | .next t => s.FitsAt cfg (s.pc t)
  | .release _ _ p now => (s.heap p).connected = true → (s.heap p).request + 1 < cfg.maxRequest →
    now < (s.heap p).born + cfg.maxAliveTime → cfg.maxAliveTime < now
  | _ => True

instance (cfg : PoolConfig) (s : Pool T) : DecidablePred (s.FitsAt cfg)
  | .lock now => inferInstanceAs (Decidable (∀ p ∈ s.firstLive,
      cfg.maxAliveTime ≤ now ∧ now ≤ (s.heap p).born + cfg.maxAliveTime))
  | .push _ => inferInstanceAs (Decidable (_ < _))
  | .idle | .delete .. | .connect | .count _ | .drop _ | .uncount => isTrue trivial

instance (cfg : PoolConfig) (s : Pool T) (l : PoolLabel T) : Decidable (s.Fits cfg l) :=
  match l with
  | .next t => inferInstanceAs (Decidable (s.FitsAt cfg (s.pc t)))
  | .release .. => inferInstanceAs (Decidable (_ → _))
  | .getConnection .. | .connect .. | .close .. | .send .. | .recv .. => isTrue trivial

/-! ## The loop -/

section
variable {cfg : PoolConfig} {heap : ConnPtr → Conn} {now : ℕ}

theorem popLoop_some {ps : List ConnPtr} {p : ConnPtr}
    (h : (popLoop cfg heap now ps).2.1 = some p) :
    p ∈ ps ∧ (heap p).connected = true ∧ (heap p).createTime + cfg.maxAliveTime ≤ now := by
  induction ps with
  | nil => cases h
  | cons q ps ih =>
    rw [popLoop] at h
    split_ifs at h with hc
    · obtain ⟨hmem, hrest⟩ := ih h
      exact ⟨List.mem_cons_of_mem _ hmem, hrest⟩
    · cases h
      rw [not_or, Bool.not_eq_false, not_lt] at hc
      exact ⟨List.mem_cons_self, hc⟩

theorem popLoop_invalid {ps : List ConnPtr} {p : ConnPtr} (h : p ∈ (popLoop cfg heap now ps).1) :
    p ∈ ps ∧ ((heap p).connected = false ∨ now < (heap p).createTime + cfg.maxAliveTime) := by
  induction ps with
  | nil => cases h
  | cons q ps ih =>
    rw [popLoop] at h
    split_ifs at h with hc
    · obtain rfl | hmem := List.mem_cons.1 h
      · exact ⟨List.mem_cons_self, hc⟩
      · obtain ⟨hmem, hrest⟩ := ih hmem
        exact ⟨List.mem_cons_of_mem _ hmem, hrest⟩
    · cases h

/-- The connection that is taken is the first live one. -/
theorem popLoop_find (hzero : ∀ p, (heap p).createTime = 0) {ps : List ConnPtr} {p : ConnPtr}
    (h : (popLoop cfg heap now ps).2.1 = some p) :
    ps.find? (fun p => (heap p).connected) = some p := by
  have hnow := (popLoop_some h).2.2
  induction ps with
  | nil => cases h
  | cons q ps ih =>
    rw [popLoop] at h
    split_ifs at h with hc
    · have hq : (heap q).connected = false := by
        apply hc.resolve_right
        rw [hzero] at hnow ⊢
        omega
      rw [List.find?_cons_of_neg (by rw [hq]; exact Bool.false_ne_true), ih h]
    · cases h
      rw [not_or, Bool.not_eq_false] at hc
      exact List.find?_cons_of_pos hc.1

end

/-! ## One step -/

/-- A store to a connection that leaves its time and its number of requests. -/
theorem keeps_update (heap : ConnPtr → Conn) (p : ConnPtr) (c : Conn)
    (htime : c.createTime = (heap p).createTime) (hreq : c.request = (heap p).request)
    (q : ConnPtr) : (Function.update heap p c q).createTime = (heap q).createTime ∧
      (Function.update heap p c q).request = (heap q).request := by
  by_cases hq : q = p
  · rw [hq, Function.update_self]
    exact ⟨htime, hreq⟩
  · rw [Function.update_of_ne hq]
    exact ⟨rfl, rfl⟩

/-- A connection in the idle list, or on its way there. -/
def Waiting (s : Pool T) (p : ConnPtr) : Prop := p ∈ s.conns ∨ ∃ t, s.pc t = .push p

/-- The policy so far, and what it rests on: no `m_createTime` is set, and a connection goes back
into the list while it may serve another request. -/
structure Fit [Fintype T] (cfg : PoolConfig) (s : Pool T) : Prop where
  inv : Inv s
  zero : ∀ p, (s.heap p).createTime = 0
  waiting : ∀ p, s.Waiting p → (s.heap p).request < cfg.maxRequest
  size : s.conns.length ≤ cfg.maxSize
  log : ∀ e ∈ s.log, Policy cfg e

section
variable [Fintype T] {cfg : PoolConfig} {s u : Pool T}

theorem fit_start (cfg : PoolConfig) : Fit cfg (start : Pool T) where
  inv := inv_start
  zero _ := rfl
  waiting p h := by
    obtain hmem | ⟨t, ht⟩ := h
    · cases hmem
    · cases ht
  size := Nat.zero_le _
  log e h := by cases h

/-- A connection with a user does not wait. -/
theorem Inv.not_waiting (h : Inv s) {v : T} {p : ConnPtr} (hmem : (v, p) ∈ s.out) :
    ¬ s.Waiting p := by
  obtain ⟨-, hconns, hcarried⟩ := h.of_mem_out hmem
  rintro (hmem | ⟨t, ht⟩)
  · exact hconns hmem
  · apply hcarried t
    rw [ht]
    exact List.mem_singleton_self p

theorem Inv.lt_fresh (h : Inv s) (v : T) {p : ConnPtr} (hw : s.Waiting p) : p < s.fresh := by
  have hone : 1 ≤ s.born p := by
    obtain hmem | ⟨t, ht⟩ := hw
    · have hpos := List.count_pos_iff.2 hmem
      have hle := h.places_le v p
      rw [places] at hle
      omega
    · have hle := h.places_le t p
      rw [places, ht, PoolPc.carries, List.count_singleton_self] at hle
      omega
  rw [born] at hone
  split_ifs at hone with hlt
  · exact hlt
  · omega

theorem Fit.step_of (h : Fit cfg s) (hinv : Inv u)
    (hzero : ∀ p, (u.heap p).createTime = 0)
    (hwait : ∀ p, u.Waiting p → s.Waiting p ∧ (u.heap p).request = (s.heap p).request ∨
      (u.heap p).request < cfg.maxRequest)
    (hsize : u.conns.length ≤ cfg.maxSize) (hlog : ∀ e ∈ u.log, e ∈ s.log ∨ Policy cfg e) :
    Fit cfg u where
  inv := hinv
  zero := hzero
  waiting p hp := by
    obtain ⟨hw, heq⟩ | hlt := hwait p hp
    · rw [heq]
      exact h.waiting p hw
    · exact hlt
  size := hsize
  log e he := (hlog e he).elim (h.log e) id

/-- A step that changes no time and no number of requests. -/
theorem Fit.keep (h : Fit cfg s) (hinv : Inv u)
    (hheap : ∀ q, (u.heap q).createTime = (s.heap q).createTime ∧
      (u.heap q).request = (s.heap q).request)
    (hwait : ∀ q, u.Waiting q → s.Waiting q) (hsize : u.conns.length ≤ cfg.maxSize)
    (hlog : ∀ e ∈ u.log, e ∈ s.log ∨ Policy cfg e) : Fit cfg u :=
  h.step_of hinv (fun q => (hheap q).1.trans (h.zero q))
    (fun q hq => Or.inl ⟨hwait q hq, (hheap q).2⟩) hsize hlog

variable [DecidableEq T] {t : T}

omit [Fintype T] in
theorem Waiting.of_update {p : ConnPtr} (hw : u.Waiting p) (pc : PoolPc)
    (hpc : u.pc = Function.update s.pc t pc) (hne : ∀ p, pc ≠ .push p)
    (hconns : ∀ p ∈ u.conns, p ∈ s.conns) : s.Waiting p := by
  obtain hmem | ⟨t', ht'⟩ := hw
  · exact Or.inl (hconns p hmem)
  · by_cases htt : t' = t
    · rw [hpc, htt, Function.update_self] at ht'
      exact absurd ht' (hne p)
    · rw [hpc, Function.update_of_ne htt] at ht'
      exact Or.inr ⟨t', ht'⟩

theorem Fit.lockGet (h : Fit cfg s) {now : ℕ} (hpc : s.pc t = .lock now)
    (hfits : s.FitsAt cfg (.lock now)) : Fit cfg (s.lockGet cfg t now) := by
  have hinv := h.inv.shift (shift_lockGet cfg hpc)
  have hsplit := popLoop_append cfg s.heap now s.conns
  have hinvalid : ∀ e ∈ (popLoop cfg s.heap now s.conns).1.map fun p =>
      PoolEvent.discarded now (s.heap p), Policy cfg e := by
    intro e he
    obtain ⟨p, hp, rfl⟩ := List.mem_map.1 he
    obtain ⟨hmem, hc⟩ := popLoop_invalid hp
    rintro ⟨hconn, -, -⟩
    obtain ⟨q, hq⟩ := Option.isSome_iff_exists.1
      (List.find?_isSome (p := fun p => (s.heap p).connected) |>.2 ⟨p, hmem, hconn⟩)
    have hnow := (hfits q hq).1
    rw [hconn, h.zero, Nat.zero_add] at hc
    exact absurd hnow (not_le.2 (hc.resolve_left Bool.noConfusion))
  have htaken : ∀ p, (popLoop cfg s.heap now s.conns).2.1 = some p →
      Policy cfg (.taken now p (s.heap p)) := by
    intro p hp
    obtain ⟨hmem, hconn, -⟩ := popLoop_some hp
    exact ⟨hconn, (hfits p (popLoop_find h.zero hp)).2, h.waiting p (Or.inl hmem)⟩
  unfold Pool.lockGet at hinv ⊢
  generalize popLoop cfg s.heap now s.conns = r at *
  obtain ⟨invalid, ptr, rest⟩ := r
  dsimp only at *
  have hrest : ∀ p ∈ rest, p ∈ s.conns := by
    intro p hp
    rw [← hsplit]
    exact List.mem_append_right _ hp
  have hsize : rest.length ≤ cfg.maxSize := by
    refine le_trans ?_ h.size
    rw [← hsplit, List.length_append]
    omega
  cases ptr with
  | none =>
    refine h.keep hinv (fun _ => ⟨rfl, rfl⟩) ?_ hsize ?_
    · intro q hq
      exact hq.of_update _ rfl (fun _ => PoolPc.noConfusion) hrest
    · intro e he
      exact (List.mem_append.1 he).elim (fun h => Or.inr (hinvalid e h)) Or.inl
  | some p =>
    refine h.keep hinv (keeps_update s.heap p { s.heap p with stage := .ready } rfl rfl) ?_ hsize ?_
    · intro q hq
      exact hq.of_update _ rfl (fun _ => PoolPc.noConfusion) hrest
    · intro e he
      obtain rfl | he := List.mem_cons.1 he
      · exact Or.inr (htaken p rfl)
      · exact (List.mem_append.1 he).elim (fun h => Or.inr (hinvalid e h)) Or.inl

/-- The steps of a user that leave the connections, the list and the log as they are. -/
theorem Fit.goto (h : Fit cfg s) (hinv : Inv u) (pc : PoolPc)
    (hpc : u.pc = Function.update s.pc t pc) (hne : ∀ p, pc ≠ .push p)
    (hheap : u.heap = s.heap) (hconns : u.conns = s.conns) (hlog : u.log = s.log) : Fit cfg u := by
  refine h.keep hinv (fun q => by rw [hheap]; exact ⟨rfl, rfl⟩) ?_ (hconns ▸ h.size) ?_
  · intro q hq
    refine hq.of_update pc hpc hne fun p hp => ?_
    rwa [hconns] at hp
  · intro e he
    rw [hlog] at he
    exact Or.inl he

omit [DecidableEq T] in
/-- A store to a connection by its user. -/
theorem Fit.store (h : Fit cfg s) (hinv : Inv u) {p : ConnPtr} (c : Conn)
    (hheap : u.heap = Function.update s.heap p c) (htime : c.createTime = (s.heap p).createTime)
    (hreq : c.request = (s.heap p).request) (hpc : u.pc = s.pc) (hconns : u.conns = s.conns)
    (hlog : ∀ e ∈ u.log, e ∈ s.log ∨ Policy cfg e) : Fit cfg u := by
  refine h.keep hinv (hheap ▸ keeps_update s.heap p c htime hreq) ?_ (hconns ▸ h.size) hlog
  intro q hq
  rwa [Waiting, hpc, hconns] at hq

theorem Fit.next (h : Fit cfg s) (hfits : s.FitsAt cfg (s.pc t)) (hst : s.next cfg t = some u) :
    Fit cfg u := by
  have hinv := h.inv.shift (shift_next cfg hst)
  rw [Pool.next] at hst
  split at hst
  case h_1 | h_2 => cases hst
  case h_3 now hpc =>
    obtain rfl := Option.some.inj hst
    rw [hpc] at hfits
    exact h.lockGet hpc hfits
  case h_10 p hpc =>
    obtain rfl := Option.some.inj hst
    rw [hpc] at hfits
    refine h.keep hinv (fun _ => ⟨rfl, rfl⟩) ?_ ?_ (fun e he => Or.inl he)
    · rintro q (hmem | ⟨t', ht'⟩)
      · obtain hmem | hmem := List.mem_append.1 hmem
        · exact Or.inl hmem
        · rw [List.mem_singleton.1 hmem]
          exact Or.inr ⟨t, hpc⟩
      · refine Or.inr ⟨t', ?_⟩
        by_cases htt : t' = t
        · subst htt
          rw [goto_pc] at ht'
          cases ht'
        · exact (goto_others s _ htt).symm.trans ht'
    · exact (List.length_append ..).trans_le hfits
  all_goals
    obtain rfl := Option.some.inj hst
    exact h.goto hinv _ rfl (fun _ => PoolPc.noConfusion) rfl rfl rfl

theorem Fit.make (h : Fit cfg s) (now : ℕ) (hpc : s.pc t = .connect) : Fit cfg (s.make t now) := by
  refine h.step_of (h.inv.shift (shift_make now hpc)) ?_ ?_ h.size ?_
  · intro q
    show (Function.update s.heap s.fresh { born := now } q).createTime = 0
    by_cases hq : q = s.fresh
    · rw [hq, Function.update_self]
    · rw [Function.update_of_ne hq, h.zero]
  · intro q hq
    have hw : s.Waiting q := hq.of_update _ rfl (fun _ => PoolPc.noConfusion) fun _ => id
    have hne := (h.inv.lt_fresh t hw).ne
    exact Or.inl ⟨hw, congrArg Conn.request (Function.update_of_ne hne ..)⟩
  · intro e he
    obtain rfl | he := List.mem_cons.1 he
    · exact Or.inr trivial
    · exact Or.inl he

theorem Fit.releasePtr (h : Fit cfg s) {v : T} {p : ConnPtr} {now : ℕ} (hpc : s.pc t = .idle)
    (hmem : (v, p) ∈ s.out) (hfits : s.Fits cfg (.release t v p now)) :
    Fit cfg (s.releasePtr cfg t v p now) := by
  have hinv := h.inv.shift (shift_release cfg now hpc hmem)
  have hwait := h.inv.not_waiting hmem
  have htime := h.zero p
  unfold Pool.releasePtr at hinv ⊢
  dsimp only at hinv ⊢
  have hzero : ∀ q, (Function.update s.heap p
      { s.heap p with request := (s.heap p).request + 1 } q).createTime = 0 := by
    intro q
    by_cases hq : q = p
    · rw [hq, Function.update_self]
      exact htime
    · rw [Function.update_of_ne hq]
      exact h.zero q
  have hother : ∀ q, s.Waiting q → (Function.update s.heap p
      { s.heap p with request := (s.heap p).request + 1 } q).request = (s.heap q).request := by
    intro q hq
    rw [Function.update_of_ne]
    rintro rfl
    exact hwait hq
  split_ifs at hinv ⊢ with hc
  · refine h.step_of hinv hzero ?_ h.size ?_
    · intro q hq
      have hw : s.Waiting q := hq.of_update _ rfl (fun _ => PoolPc.noConfusion) fun _ => id
      exact Or.inl ⟨hw, hother q hw⟩
    · intro e he
      obtain rfl | he := List.mem_cons.1 he
      · right
        rintro ⟨hconn, hage, hreq⟩
        have hnow := hfits hconn hreq hage
        rw [htime] at hc
        simp only at hconn hreq
        rw [hconn] at hc
        obtain hc | hc | hc := hc
        · cases hc
        · omega
        · omega
      · exact Or.inl he
  · refine h.step_of hinv hzero ?_ h.size (fun e he => Or.inl he)
    rw [not_or, not_or, not_le, not_le] at hc
    rintro q (hq | ⟨t', ht'⟩)
    · exact Or.inl ⟨Or.inl hq, hother q (Or.inl hq)⟩
    · by_cases htt : t' = t
      · subst htt
        rw [goto_pc] at ht'
        cases ht'
        right
        exact (congrArg Conn.request (Function.update_self ..)).trans_lt hc.2.2
      · have hw : s.Waiting q := Or.inr ⟨t', (goto_others _ _ htt).symm.trans ht'⟩
        exact Or.inl ⟨hw, hother q hw⟩

theorem Fit.step {l : PoolLabel T} (h : Fit cfg s) (hfits : s.Fits cfg l)
    (hst : s.step cfg l = some u) : Fit cfg u := by
  obtain ⟨t', hshift⟩ := exists_shift cfg hst
  have hinv := h.inv.shift hshift
  cases l with
  | getConnection t now =>
    simp only [Pool.step] at hst
    split_ifs at hst
    obtain rfl := Option.some.inj hst
    exact h.goto hinv _ rfl (fun _ => PoolPc.noConfusion) rfl rfl rfl
  | connect t now ok =>
    simp only [Pool.step] at hst
    split_ifs at hst with hc
    · obtain rfl := Option.some.inj hst
      have hmake := h.make now hc.1
      exact ⟨hinv, hmake.zero, hmake.waiting, hmake.size, hmake.log⟩
    · obtain rfl := Option.some.inj hst
      exact h.goto hinv _ rfl (fun _ => PoolPc.noConfusion) rfl rfl rfl
  | release t v p now =>
    simp only [Pool.step] at hst
    split_ifs at hst with hc
    obtain rfl := Option.some.inj hst
    exact h.releasePtr hc.1 hc.2.1 hfits
  | next t => exact h.next hfits hst
  | close v p =>
    simp only [Pool.step] at hst
    split_ifs at hst
    obtain rfl := Option.some.inj hst
    exact h.store hinv _ rfl rfl rfl rfl rfl fun e he => Or.inl he
  | send v p data room =>
    simp only [Pool.step] at hst
    split_ifs at hst
    obtain rfl := Option.some.inj hst
    unfold Pool.send at hinv ⊢
    dsimp only at hinv ⊢
    split_ifs at hinv ⊢
    · refine h.store hinv _ rfl rfl rfl rfl rfl fun e he => ?_
      obtain rfl | he := List.mem_cons.1 he
      · exact Or.inr trivial
      · exact Or.inl he
    · refine h.store hinv _ rfl rfl rfl rfl rfl fun e he => ?_
      obtain rfl | he := List.mem_cons.1 he
      · exact Or.inr trivial
      · obtain rfl | he := List.mem_cons.1 he
        · exact Or.inr trivial
        · exact Or.inl he
  | recv v p outcome =>
    simp only [Pool.step] at hst
    split_ifs at hst
    obtain rfl := Option.some.inj hst
    unfold Pool.recvIn at hinv ⊢
    split_ifs at hinv ⊢
    · refine h.store hinv _ rfl rfl rfl rfl rfl fun e he => ?_
      obtain rfl | he := List.mem_cons.1 he
      · exact Or.inr trivial
      · exact Or.inl he
    · exact h.store hinv _ rfl rfl rfl rfl rfl fun e he => Or.inl he

end

/-! ## A run -/

/-- In every run of fitting steps, connections are taken and discarded as the policy says, and no
more than `m_maxSize` of them are idle. -/
theorem pool_policy [Fintype T] [DecidableEq T] (cfg : PoolConfig) {s : Pool T}
    (h : Reach (step cfg) (Fits cfg) start s) :
    (∀ e ∈ s.log, Policy cfg e) ∧ s.conns.length ≤ cfg.maxSize := by
  have hfit : Fit cfg s := h.invariant (fit_start cfg) fun _ _ _ hf hok hst => hf.step hok hst
  exact ⟨hfit.log, hfit.size⟩

/-- A connection is used twice and released after its second request, the last one it may serve. -/
theorem pool_policy_twice : ∃ s : Pool Unit, s.log = [
      .discarded 108 { request := 2, born := 101, stage := .finished },
      .wrote 0 [1] [1],
      .taken 107 0 { request := 1, born := 101, stage := .sent },
      .wrote 0 [1] [1], .made 0] ∧
    (∀ e ∈ s.log, Policy ⟨1, 10, 2⟩ e) ∧ s.conns.length ≤ 1 := by
  have hs := reach_exec (step ⟨1, 10, 2⟩) (Fits (T := Unit) ⟨1, 10, 2⟩) start
    [.getConnection () 100, .next (), .next (), .connect () 101 true, .next (), .send () 0 [1] [],
      .release () () 0 105, .next (), .getConnection () 107, .next (), .next (),
      .send () 0 [1] [], .recv () 0 .threw, .release () () 0 108, .next (), .next ()]
    (by decide +kernel)
  exact ⟨_, by decide +kernel, pool_policy ⟨1, 10, 2⟩ hs⟩

/-- Two connections go back into a list for one, and are handed out again when they are ten times as
old as they may be. -/
theorem policy_broken : ∃ s : Pool (Fin 2), Reach (step ⟨1, 10, 5⟩) Trans.free start s ∧
    s.conns = [1] ∧ .taken 200 0 { request := 1, born := 100 } ∈ s.log ∧
    ¬ Policy ⟨1, 10, 5⟩ (.taken 200 0 { request := 1, born := 100 }) ∧
    ∃ u : Pool (Fin 2), Reach (step ⟨1, 10, 5⟩) Trans.free start u ∧ u.conns.length = 2 := by
  have hu := reach_exec (step ⟨1, 10, 5⟩) (Trans.free (σ := Pool (Fin 2))) start
    [.getConnection 0 100, .next 0, .next 0, .connect 0 100 true, .next 0, .getConnection 1 100,
      .next 1, .next 1, .connect 1 100 true, .next 1, .release 0 0 0 105, .next 0,
      .release 1 1 1 105, .next 1] (by decide +kernel)
  have hs := fun u => reach_exec (step ⟨1, 10, 5⟩) (Trans.free (σ := Pool (Fin 2))) u
    [.getConnection 0 200, .next 0]
  refine ⟨_, hu.trans (hs _ (by decide +kernel)), ?_, ?_, ?_, _, hu, ?_⟩ <;> decide +kernel

end Pool

end CoroutineScheduler.Http
