import CoroutineScheduler.Lib.Count
import CoroutineScheduler.Http.Pool

/-!
# The accounts of the pool

A connection is in one place: in the idle list, with a user, in the hands of a call, or deleted.
`m_total` counts those in the first three places, less the connections made and not yet counted and
with those deleted and still counted. `pool_accounts` draws the balance when no call is in progress.
-/

namespace CoroutineScheduler.Http

open Trans

/-- The connections in the hands of a call. -/
def PoolPc.carries : PoolPc → List ConnPtr
  | .delete invalid _ ptr => invalid ++ ptr.toList
  | .count p | .drop p | .push p => [p]
  | .idle | .lock _ | .connect | .uncount => []

/-- What `m_total` counts for a call. -/
def PoolPc.owes : PoolPc → ℤ
  | .delete _ n ptr => n + ptr.toList.length
  | .drop _ | .uncount | .push _ => 1
  | .idle | .lock _ | .connect | .count _ => 0

theorem PoolPc.owes_nonneg (pc : PoolPc) : 0 ≤ pc.owes := by
  cases pc <;> simp only [owes] <;> omega

/-- The loop splits the list. -/
theorem popLoop_append (cfg : PoolConfig) (heap : ConnPtr → Conn) (now : ℕ) (ps : List ConnPtr) :
    (popLoop cfg heap now ps).1 ++ (popLoop cfg heap now ps).2.1.toList ++
      (popLoop cfg heap now ps).2.2 = ps := by
  induction ps with
  | nil => rfl
  | cons p ps ih =>
    rw [popLoop]
    split_ifs
    · exact congrArg (p :: ·) ih
    · rfl

namespace Pool

variable {T : Type} {s u : Pool T} {t : T}

/-- How often a connection is in the lists or in the hands of a call. -/
def places (s : Pool T) (t : T) (p : ConnPtr) : ℤ :=
  s.conns.count p + (s.out.map Prod.snd).count p + s.deleted.count p + (s.pc t).carries.count p

/-- The part of `m_total` that belongs to other calls. -/
def surplus (s : Pool T) (t : T) : ℤ :=
  s.total - s.conns.length - s.out.length - (s.pc t).owes

/-- Whether a connection was made. -/
def born (s : Pool T) (p : ConnPtr) : ℤ := if p < s.fresh then 1 else 0

/-- What a step of `t` does to the accounts: only new connections come in, and `m_total` changes by
what it is to count for `t` and the lists. -/
structure Shift (s u : Pool T) (t : T) : Prop where
  others : ∀ t', t' ≠ t → u.pc t' = s.pc t'
  places : ∀ p, u.places t p - u.born p = s.places t p - s.born p
  surplus : u.surplus t = s.surplus t

/-- Every connection made is in one place, and `m_total` is what it is to count. -/
structure Inv [Fintype T] (s : Pool T) : Prop where
  once : ∀ p, (s.conns.count p + (s.out.map Prod.snd).count p + s.deleted.count p : ℤ) +
    Count.total (fun pc => pc.carries.count p) s.pc = s.born p
  balance : s.total = s.conns.length + s.out.length + Count.total PoolPc.owes s.pc

theorem inv_start [Fintype T] : Inv (start : Pool T) where
  once p := by simp [start, Count.total, PoolPc.carries, born]
  balance := by simp [start, Count.total, PoolPc.owes]

theorem Inv.shift [Fintype T] [DecidableEq T] (h : Inv s) (hs : Shift s u t) : Inv u := by
  have hpc : u.pc = Function.update s.pc t (u.pc t) := by
    funext t'
    by_cases ht : t' = t
    · rw [ht, Function.update_self]
    · rw [Function.update_of_ne ht, hs.others t' ht]
  constructor
  · intro p
    have hp := hs.places p
    have honce := h.once p
    rw [hpc, Count.total_update]
    simp only [Pool.places] at hp
    omega
  · have hsur := hs.surplus
    have hbal := h.balance
    rw [hpc, Count.total_update]
    simp only [Pool.surplus] at hsur
    omega

theorem born_le_one (s : Pool T) (p : ConnPtr) : s.born p ≤ 1 := by
  rw [born]
  split_ifs <;> decide

/-- No call and no list has a connection that another one has. -/
theorem Inv.places_le [Fintype T] (h : Inv s) (t : T) (p : ConnPtr) : s.places t p ≤ s.born p := by
  have honce := h.once p
  have hle := Count.le_total (g := fun pc => (pc.carries.count p : ℤ))
    (fun _ => Int.natCast_nonneg _) s.pc t
  rw [places]
  omega

/-- A connection with a user is in no other place. -/
theorem Inv.of_mem_out [Fintype T] (h : Inv s) {v : T} {p : ConnPtr} (hmem : (v, p) ∈ s.out) :
    p < s.fresh ∧ p ∉ s.conns ∧ ∀ t, p ∉ (s.pc t).carries := by
  have hout : 0 < (s.out.map Prod.snd).count p :=
    List.count_pos_iff.2 (List.mem_map.2 ⟨(v, p), hmem, rfl⟩)
  have hborn := s.born_le_one p
  refine ⟨?_, fun hconn => ?_, fun t ht => ?_⟩
  · have hle := h.places_le v p
    rw [places, born] at hle
    split_ifs at hle with hlt
    · exact hlt
    · omega
  · have hle := h.places_le v p
    have hpos := List.count_pos_iff.2 hconn
    rw [places] at hle
    omega
  · have hle := h.places_le t p
    have hpos := List.count_pos_iff.2 ht
    rw [places] at hle
    omega

/-! ## One step -/

section
variable [DecidableEq T] {pc : PoolPc}

@[simp] theorem goto_pc (s : Pool T) (t : T) (pc : PoolPc) : (s.goto t pc).pc t = pc :=
  Function.update_self _ _ _

theorem goto_others (s : Pool T) (pc : PoolPc) {t t' : T} (h : t' ≠ t) :
    (s.goto t pc).pc t' = s.pc t' :=
  Function.update_of_ne h _ _

/-- The accounts of a step that moves `t` to a new place. -/
theorem Shift.goto {a b : PoolPc} (ha : s.pc t = a) (hpc : u.pc = Function.update s.pc t b)
    (hfresh : u.fresh = s.fresh)
    (hplaces : ∀ p, u.conns.count p + (u.out.map Prod.snd).count p + u.deleted.count p +
      b.carries.count p = s.conns.count p + (s.out.map Prod.snd).count p + s.deleted.count p +
      a.carries.count p)
    (htotal : u.total - u.conns.length - u.out.length - b.owes =
      s.total - s.conns.length - s.out.length - a.owes) : Shift s u t := by
  constructor
  · intro t' ht
    rw [hpc, Function.update_of_ne ht]
  · intro p
    have hp := hplaces p
    simp only [Pool.places, born, hpc, Function.update_self, ha, hfresh]
    omega
  · simp only [Pool.surplus, hpc, Function.update_self, ha, htotal]

omit [DecidableEq T] in
/-- The accounts do not see what connections contain. -/
theorem Shift.frame (hpc : u.pc = s.pc) (hconns : u.conns = s.conns) (hout : u.out = s.out)
    (hdel : u.deleted = s.deleted) (hfresh : u.fresh = s.fresh) (htotal : u.total = s.total) (t : T) :
    Shift s u t := by
  constructor
  · intro t' _
    rw [hpc]
  · intro p
    simp only [Pool.places, born, hpc, hconns, hout, hdel, hfresh]
  · simp only [Pool.surplus, hpc, hconns, hout, htotal]

theorem shift_lockGet (cfg : PoolConfig) {now : ℕ} (hpc : s.pc t = .lock now) :
    Shift s (s.lockGet cfg t now) t := by
  have hsplit := popLoop_append cfg s.heap now s.conns
  unfold lockGet
  generalize popLoop cfg s.heap now s.conns = r at hsplit ⊢
  obtain ⟨invalid, ptr, rest⟩ := r
  dsimp only at hsplit
  have hplaces : ∀ p, rest.count p + (s.out.map Prod.snd).count p + s.deleted.count p +
      (PoolPc.delete invalid invalid.length ptr).carries.count p =
      s.conns.count p + (s.out.map Prod.snd).count p + s.deleted.count p +
      (PoolPc.lock now).carries.count p := by
    intro p
    simp only [← hsplit, PoolPc.carries, List.count_append, List.count_nil]
    omega
  have htotal : s.total - rest.length - s.out.length -
      (PoolPc.delete invalid invalid.length ptr).owes =
      s.total - s.conns.length - s.out.length - (PoolPc.lock now).owes := by
    simp only [← hsplit, PoolPc.owes, List.length_append]
    omega
  cases ptr with
  | none => exact Shift.goto hpc rfl rfl hplaces htotal
  | some p => exact Shift.goto hpc rfl rfl hplaces htotal

theorem shift_next (cfg : PoolConfig) (h : s.next cfg t = some u) : Shift s u t := by
  rw [next] at h
  split at h
  case h_1 | h_2 => cases h
  case h_3 now hpc =>
    obtain rfl := Option.some.inj h
    exact shift_lockGet cfg hpc
  all_goals
    obtain rfl := Option.some.inj h
    refine Shift.goto ‹_› rfl rfl (fun q => ?_) ?_
    · simp only [PoolPc.carries, goto, List.count_append, List.count_cons, List.count_nil,
        List.map_cons, Option.toList_some, Option.toList_none] <;> omega
    · simp only [PoolPc.owes, goto, List.length_append, List.length_cons, List.length_nil,
        Option.toList_some, Option.toList_none] <;> omega

theorem shift_release (cfg : PoolConfig) {v : T} {p : ConnPtr} (now : ℕ) (hpc : s.pc t = .idle)
    (hmem : (v, p) ∈ s.out) : Shift s (s.releasePtr cfg t v p now) t := by
  have hperm := List.perm_cons_erase hmem
  have hcount : ∀ q, (s.out.map Prod.snd).count q =
      ((s.out.erase (v, p)).map Prod.snd).count q + [p].count q := by
    intro q
    rw [(hperm.map Prod.snd).count_eq, List.map_cons, ← List.singleton_append, List.count_append,
      add_comm]
  have hlen : s.out.length = (s.out.erase (v, p)).length + 1 := hperm.length_eq
  have hplaces : ∀ q, s.conns.count q + ((s.out.erase (v, p)).map Prod.snd).count q +
      s.deleted.count q + [p].count q = s.conns.count q + (s.out.map Prod.snd).count q +
      s.deleted.count q + PoolPc.idle.carries.count q := by
    intro q
    rw [hcount, PoolPc.carries, List.count_nil]
    omega
  have htotal : s.total - s.conns.length - (s.out.erase (v, p)).length - 1 =
      s.total - s.conns.length - s.out.length - PoolPc.idle.owes := by
    rw [hlen, PoolPc.owes]
    omega
  unfold releasePtr
  dsimp only
  split_ifs
  · exact Shift.goto hpc rfl rfl hplaces htotal
  · exact Shift.goto hpc rfl rfl hplaces htotal

theorem shift_make (now : ℕ) (hpc : s.pc t = .connect) : Shift s (s.make t now) t := by
  have hpc' : (s.make t now).pc t = .count s.fresh := Function.update_self _ _ _
  constructor
  · intro t' ht
    exact Function.update_of_ne ht _ _
  · intro q
    have hborn : (s.make t now).born q = s.born q + [s.fresh].count q := by
      show (if q < s.fresh + 1 then (1 : ℤ) else 0) = _
      rw [born, List.count_singleton]
      rcases lt_trichotomy q s.fresh with hlt | rfl | hgt
      · simp [hlt, hlt.ne', Nat.lt_succ_of_lt hlt]
      · simp
      · simp [hgt.ne, not_lt.2 hgt.le, not_lt.2 (Nat.succ_le_of_lt hgt)]
    simp only [Pool.places, hpc', hpc, PoolPc.carries, hborn, List.count_nil]
    exact sub_eq_sub_iff_add_eq_add.2 (by simp only [make, goto, setConn]; omega)
  · simp only [Pool.surplus, hpc', hpc]
    rfl

theorem exists_shift (cfg : PoolConfig) {l : PoolLabel T} (h : s.step cfg l = some u) :
    ∃ t, Shift s u t := by
  cases l with
  | getConnection t now =>
    simp only [step] at h
    split_ifs at h with hc
    obtain rfl := Option.some.inj h
    exact ⟨t, Shift.goto hc.1 rfl rfl (fun _ => rfl) rfl⟩
  | connect t now ok =>
    simp only [step] at h
    split_ifs at h with hc
    · obtain rfl := Option.some.inj h
      obtain ⟨hothers, hplaces, hsurplus⟩ := shift_make now hc.1
      exact ⟨t, hothers, hplaces, hsurplus⟩
    · obtain rfl := Option.some.inj h
      exact ⟨t, Shift.goto hc.1 rfl rfl (fun _ => rfl) rfl⟩
  | release t v p now =>
    simp only [step] at h
    split_ifs at h with hc
    obtain rfl := Option.some.inj h
    exact ⟨t, shift_release cfg now hc.1 hc.2.1⟩
  | next t => exact ⟨t, shift_next cfg h⟩
  | close v p =>
    simp only [step] at h
    split_ifs at h
    obtain rfl := Option.some.inj h
    exact ⟨v, by apply Shift.frame <;> rfl⟩
  | send v p data room =>
    simp only [step] at h
    split_ifs at h
    obtain rfl := Option.some.inj h
    unfold send
    dsimp only
    split_ifs
    · exact ⟨v, by apply Shift.frame <;> rfl⟩
    · exact ⟨v, by apply Shift.frame <;> rfl⟩
  | recv v p outcome =>
    simp only [step] at h
    split_ifs at h
    obtain rfl := Option.some.inj h
    unfold recvIn
    split_ifs
    · exact ⟨v, by apply Shift.frame <;> rfl⟩
    · exact ⟨v, by apply Shift.frame <;> rfl⟩

end

/-! ## A run -/

theorem inv_of_reach [Fintype T] [DecidableEq T] {cfg : PoolConfig}
    (h : Reach (step cfg) Trans.free start s) : Inv s := by
  refine h.invariant inv_start fun s l u hinv _ hst => ?_
  obtain ⟨t, hshift⟩ := exists_shift cfg hst
  exact hinv.shift hshift

/-- In every run, `m_total` is not negative, and it is the number of the idle connections and of
those handed out when no call is in progress. No connection is in two places: idle, with a user, or
deleted. -/
theorem pool_accounts [Fintype T] [DecidableEq T] (cfg : PoolConfig) {s : Pool T}
    (h : Reach (step cfg) Trans.free start s) :
    ((∀ t, s.pc t = .idle) → s.total = s.conns.length + s.out.length) ∧ 0 ≤ s.total ∧
      (s.conns ++ s.out.map Prod.snd ++ s.deleted).Nodup := by
  have hinv := inv_of_reach h
  refine ⟨fun hidle => ?_, ?_, ?_⟩
  · have hzero : Count.total PoolPc.owes s.pc = 0 :=
      Finset.sum_eq_zero fun t _ => by rw [hidle t]; rfl
    rw [hinv.balance, hzero, add_zero]
  · have hnonneg : 0 ≤ Count.total PoolPc.owes s.pc :=
      Finset.sum_nonneg fun t _ => (s.pc t).owes_nonneg
    rw [hinv.balance]
    omega
  · rw [List.nodup_iff_count_le_one]
    intro p
    have honce := hinv.once p
    have hnonneg : 0 ≤ Count.total (fun pc => (pc.carries.count p : ℤ)) s.pc :=
      Finset.sum_nonneg fun t _ => Int.natCast_nonneg _
    have hborn := s.born_le_one p
    rw [List.count_append, List.count_append]
    omega

/-- Two users get a connection each; the second one closes his and both release, then the second one
gets the connection of the first one. -/
theorem pool_accounts_pair : ∃ s : Pool (Fin 2), s.deleted = [1] ∧ s.out = [(1, 0)] ∧
    s.total = s.conns.length + s.out.length ∧ 0 ≤ s.total ∧
    (s.conns ++ s.out.map Prod.snd ++ s.deleted).Nodup := by
  have hs := reach_exec (step ⟨1, 10, 5⟩) (Trans.free (σ := Pool (Fin 2))) start
    [.getConnection 0 100, .next 0, .getConnection 1 100, .next 1, .next 1, .next 0,
      .connect 1 101 true, .connect 0 102 false, .next 1, .getConnection 0 103, .next 0, .next 0,
      .connect 0 103 true, .next 0, .close 0 1, .release 0 0 1 104, .release 1 1 0 104, .next 0,
      .next 1, .next 0, .getConnection 1 105, .next 1, .next 1] (by decide +kernel)
  obtain ⟨htotal, hnonneg, hnodup⟩ := pool_accounts ⟨1, 10, 5⟩ hs
  refine ⟨_, ?_, ?_, htotal ?_, hnonneg, hnodup⟩ <;> decide +kernel

end Pool

end CoroutineScheduler.Http
