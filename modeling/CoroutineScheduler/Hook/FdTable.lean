import Mathlib.Tactic
import CoroutineScheduler.Lib.Trans
import CoroutineScheduler.Hook.FdManager

/-!
# The identity of descriptor objects

Threads that call `get` and `del` of one `FdManager`, one lock section at a time, and store to the
objects that they were given. `get` gives its read lock up before it takes the write lock and does
not look again, so two threads that find a slot empty both create an object (`object_overwritten`).

`object_shared`: in every run in which no write section finds an object in its slot, and none lets
the table grow beyond what `(int)m_fds.size()` can tell, a descriptor has one object from one `del`
to the next.
-/

namespace CoroutineScheduler

open Trans

/-- What the threads see: the results of `get`, the calls of `del`, and stores to objects. -/
inductive FdEvent
  | got (fd : ℕ) (autoCreate : Bool) (ctx : Option CtxPtr)
  | deleted (fd : ℕ)
  | stored (p : CtxPtr) (c : FdCtx)
  deriving DecidableEq

/-- `FdManager` with its callers. A thread with a descriptor is in `get`, between the two locks. -/
structure FdTable (T : Type) where
  mgr : FdManager
  creating : T → Option ℕ
  /-- The events so far, the last one in front. -/
  log : List FdEvent

inductive FdLabel (T : Type)
  | read (t : T) (fd : ℕ) (autoCreate : Bool)
  | write (t : T) (stat : Option Bool)
  | del (t : T) (fd : ℕ)
  | store (t : T) (p : CtxPtr) (c : FdCtx)

namespace FdTable

variable {T : Type} [DecidableEq T]

def start : FdTable T := ⟨.start, fun _ => none, []⟩

/-- One lock section of a thread, or a store to an object that exists. -/
def step (s : FdTable T) : FdLabel T → Option (FdTable T)
  | .read t fd autoCreate =>
    if s.creating t = none then
      some <| (s.mgr.find fd autoCreate).elim
        { s with creating := Function.update s.creating t (some fd) }
        fun ctx => { s with log := .got fd autoCreate ctx :: s.log }
    else none
  | .write t stat =>
    (s.creating t).map fun fd =>
      { mgr := s.mgr.create fd stat
        creating := Function.update s.creating t none
        log := .got fd true (some s.mgr.fresh) :: s.log }
  | .del t fd =>
    if s.creating t = none then
      some { s with mgr := s.mgr.del fd, log := .deleted fd :: s.log }
    else none
  | .store t p c =>
    if s.creating t = none ∧ p < s.mgr.fresh then
      some { s with
        mgr := { s.mgr with heap := Function.update s.mgr.heap p c }
        log := .stored p c :: s.log }
    else none

/-- The index at which a section reads or writes `m_fds`, with the size of the table there. -/
def access (s : FdTable T) : FdLabel T → Option (ℕ × ℕ)
  | .read _ fd _ | .del _ fd => if s.mgr.intSize ≤ fd then none else some (fd, s.mgr.fds.length)
  | .write t stat => (s.creating t).map fun fd => (fd, (s.mgr.create fd stat).fds.length)
  | .store _ _ _ => none

/-- A write section finds its slot empty, and has room in the table or makes it. -/
def Sound (s : FdTable T) : FdLabel T → Prop
  | .write t _ => (s.creating t).elim True fun fd =>
    s.mgr.fds[fd]?.getD none = none ∧ (fd < s.mgr.fds.length ∨ fd * 3 / 2 < 2 ^ 31)
  | _ => True

instance (s : FdTable T) (l : FdLabel T) : Decidable (s.Sound l) :=
  match l with
  | .read .. | .del .. | .store .. => isTrue trivial
  | .write t _ =>
    match h : s.creating t with
    | none => isTrue (by rw [Sound, h]; trivial)
    | some fd => decidable_of_iff
        (s.mgr.fds[fd]?.getD none = none ∧ (fd < s.mgr.fds.length ∨ fd * 3 / 2 < 2 ^ 31))
        (by rw [Sound, h, Option.elim_some])

end FdTable

/-- A creating `get` gave the object, and the descriptor was not deleted since. -/
def Since (log : List FdEvent) (fd : ℕ) (ctx : Option CtxPtr) : Prop :=
  ∃ between earlier, log = between ++ .got fd true ctx :: earlier ∧ .deleted fd ∉ between

/-- A `get` that follows a creating `get` of the descriptor gives the same object, unless the
descriptor was deleted in between. -/
def SameObject (log : List FdEvent) : Prop :=
  ∀ later earlier fd autoCreate ctx ctx', log = later ++ .got fd autoCreate ctx :: earlier →
    Since earlier fd ctx' → ctx = ctx'

/-- An object has the content that was stored to it last. -/
def StoreSeen (heap : CtxPtr → FdCtx) (log : List FdEvent) : Prop :=
  ∀ later earlier p c, log = later ++ .stored p c :: earlier → (∀ c', .stored p c' ∉ later) →
    heap p = c

/-! ## The log -/

section
variable {log : List FdEvent} {e : FdEvent} {heap heap' : CtxPtr → FdCtx}

theorem since_cons {fd : ℕ} {ctx : Option CtxPtr} :
    Since (e :: log) fd ctx ↔ e = .got fd true ctx ∨ e ≠ .deleted fd ∧ Since log fd ctx := by
  constructor
  · rintro ⟨between, earlier, heq, hdel⟩
    obtain ⟨-, hlog⟩ | ⟨between, rfl, rfl⟩ := List.cons_eq_append_iff.1 heq
    · left
      exact (List.cons.inj hlog).1.symm
    · right
      rw [List.mem_cons, not_or] at hdel
      exact ⟨Ne.symm hdel.1, between, earlier, rfl, hdel.2⟩
  · rintro (rfl | ⟨hne, between, earlier, rfl, hdel⟩)
    · exact ⟨[], log, rfl, List.not_mem_nil⟩
    · refine ⟨e :: between, earlier, rfl, ?_⟩
      rw [List.mem_cons, not_or]
      exact ⟨hne.symm, hdel⟩

theorem SameObject.cons (h : SameObject log)
    (he : ∀ fd autoCreate ctx ctx', e = .got fd autoCreate ctx → Since log fd ctx' → ctx = ctx') :
    SameObject (e :: log) := by
  intro later earlier fd autoCreate ctx ctx' heq hsince
  obtain ⟨-, hlog⟩ | ⟨later, -, hlog⟩ := List.cons_eq_append_iff.1 heq
  · obtain ⟨rfl, rfl⟩ := List.cons.inj hlog
    exact he fd autoCreate ctx ctx' rfl hsince
  · exact h later earlier fd autoCreate ctx ctx' hlog hsince

theorem StoreSeen.cons (h : StoreSeen heap log) (hnew : ∀ p c, e = .stored p c → heap' p = c)
    (hold : ∀ p c, (∀ c', e ≠ .stored p c') → .stored p c ∈ log → heap' p = heap p) :
    StoreSeen heap' (e :: log) := by
  intro later earlier p c heq hlater
  obtain ⟨-, hlog⟩ | ⟨later, rfl, rfl⟩ := List.cons_eq_append_iff.1 heq
  · exact hnew p c (List.cons.inj hlog).1.symm
  · have hp := fun c' => not_or.1 (mt List.mem_cons.2 (hlater c'))
    rw [hold p c (fun c' => Ne.symm (hp c').1) (by simp)]
    exact h later earlier p c rfl fun c' => (hp c').2

end

/-! ## The table -/

namespace FdManager

section
variable {s : FdManager} {fd : ℕ}

theorem intSize_eq (h : s.fds.length < 2 ^ 31) : s.intSize = s.fds.length := by
  apply Int.bmod_eq_of_le_mul_two
  · omega
  · omega

theorem find_eq_some (h : s.fds.length < 2 ^ 31) {autoCreate : Bool} {ctx : Option CtxPtr}
    (hfind : s.find fd autoCreate = some ctx) :
    s.fds[fd]?.getD none = ctx ∧ (autoCreate = true → ctx.isSome) := by
  rw [find, intSize_eq h] at hfind
  split_ifs at hfind with hfd hauto
  · have hnone : s.fds[fd]? = none := List.getElem?_eq_none (by omega)
    cases hfind
    rw [hnone]
    exact ⟨rfl, fun h => absurd h hauto⟩
  · dsimp only at hfind
    split_ifs at hfind with hcond
    cases hfind
    refine ⟨rfl, fun hauto => ?_⟩
    rwa [hauto, Bool.not_true, Bool.or_false] at hcond

/-- The table before the store of `create`. -/
theorem create_fds (hlarge : 64 ≤ s.fds.length) (hsmall : s.fds.length < 2 ^ 31)
    (fd : ℕ) (stat : Option Bool) :
    ∃ n, (s.create fd stat).fds = (s.fds ++ List.replicate n none).set fd (some s.fresh) ∧
      fd < s.fds.length + n ∧ (fd < s.fds.length → n = 0) ∧
      (s.fds.length ≤ fd → s.fds.length + n = fd * 3 / 2) := by
  rw [create, intSize_eq hsmall]
  by_cases hfd : s.fds.length ≤ fd
  · refine ⟨fd * 3 / 2 - s.fds.length, ?_, by omega, by omega, by omega⟩
    rw [if_pos (by exact_mod_cast hfd), resize]
    dsimp only
    rw [List.take_of_length_le (by omega)]
  · refine ⟨0, ?_, by omega, fun _ => rfl, fun h => absurd h hfd⟩
    rw [if_neg (by exact_mod_cast hfd), List.replicate_zero, List.append_nil]

theorem create_fresh (s : FdManager) (fd : ℕ) (stat : Option Bool) :
    (s.create fd stat).fresh = s.fresh + 1 := by
  unfold create
  dsimp only
  split_ifs <;> rfl

theorem create_heap (s : FdManager) (fd : ℕ) (stat : Option Bool) :
    (s.create fd stat).heap = Function.update s.heap s.fresh (.new stat) := by
  unfold create
  dsimp only
  split_ifs <;> rfl

theorem create_of_ne (hlarge : 64 ≤ s.fds.length) (hsmall : s.fds.length < 2 ^ 31)
    (stat : Option Bool) {fd' : ℕ} {ctx : Option CtxPtr} (hne : fd ≠ fd')
    (h : s.fds[fd']? = some ctx) : (s.create fd stat).fds[fd']? = some ctx := by
  obtain ⟨n, hfds, -, -⟩ := create_fds hlarge hsmall fd stat
  have hlt : fd' < s.fds.length := (List.getElem?_eq_some_iff.1 h).1
  rw [hfds, List.getElem?_set_ne hne, List.getElem?_append_left hlt, h]

theorem create_self (hlarge : 64 ≤ s.fds.length) (hsmall : s.fds.length < 2 ^ 31)
    (stat : Option Bool) : (s.create fd stat).fds[fd]? = some (some s.fresh) := by
  obtain ⟨n, hfds, hlt, -⟩ := create_fds hlarge hsmall fd stat
  rw [hfds, List.getElem?_set_self]
  rwa [List.length_append, List.length_replicate]

/-- The length of the table behind `create`. -/
theorem length_create (hlarge : 64 ≤ s.fds.length) (hsmall : s.fds.length < 2 ^ 31)
    (fd : ℕ) (stat : Option Bool) :
    s.fds.length ≤ (s.create fd stat).fds.length ∧ fd < (s.create fd stat).fds.length ∧
      (fd < s.fds.length ∨ fd * 3 / 2 < 2 ^ 31 → (s.create fd stat).fds.length < 2 ^ 31) := by
  obtain ⟨n, hfds, hlt, hin, hout⟩ := create_fds hlarge hsmall fd stat
  rw [hfds, List.length_set, List.length_append, List.length_replicate]
  omega

theorem del_spec (s : FdManager) (fd : ℕ) :
    (s.del fd).heap = s.heap ∧ (s.del fd).fresh = s.fresh ∧
      (s.del fd).fds.length = s.fds.length ∧
      ∀ fd', fd ≠ fd' → (s.del fd).fds[fd']? = s.fds[fd']? := by
  unfold del
  split_ifs
  · exact ⟨rfl, rfl, rfl, fun _ _ => rfl⟩
  · exact ⟨rfl, rfl, List.length_set, fun _ hne => List.getElem?_set_ne hne⟩

end

end FdManager

/-! ## One section -/

namespace FdTable

variable {T : Type}

/-- The slots are as the log has them, and no object was stored to before it was made. -/
structure Inv (s : FdTable T) : Prop where
  large : 64 ≤ s.mgr.fds.length
  small : s.mgr.fds.length < 2 ^ 31
  held : ∀ fd ctx, Since s.log fd ctx → s.mgr.fds[fd]? = some ctx
  made : ∀ fd ctx, .got fd true ctx ∈ s.log → ctx.isSome
  same : SameObject s.log
  exist : ∀ p c, .stored p c ∈ s.log → p < s.mgr.fresh
  seen : StoreSeen s.mgr.heap s.log

theorem inv_start : Inv (start : FdTable T) where
  large := by simp [start, FdManager.start]
  small := by simp [start, FdManager.start]
  held := by
    rintro fd ctx ⟨between, earlier, hlog, -⟩
    simp [start] at hlog
  made fd ctx h := absurd h List.not_mem_nil
  same := by
    intro later earlier fd autoCreate ctx ctx' hlog
    simp [start] at hlog
  exist p c h := absurd h List.not_mem_nil
  seen := by
    intro later earlier p c hlog
    simp [start] at hlog

section
variable {s : FdTable T}

theorem Inv.read (h : Inv s) {fd : ℕ} {autoCreate : Bool} {ctx : Option CtxPtr}
    (hfind : s.mgr.find fd autoCreate = some ctx) :
    Inv { s with log := .got fd autoCreate ctx :: s.log } := by
  obtain ⟨hslot, hsome⟩ := FdManager.find_eq_some h.small hfind
  refine ⟨h.large, h.small, ?_, ?_, ?_, ?_, ?_⟩
  · intro fd' ctx' hsince
    obtain heq | ⟨-, hsince⟩ := since_cons.1 hsince
    · cases heq
      obtain ⟨p, rfl⟩ := Option.isSome_iff_exists.1 (hsome rfl)
      simpa [Option.getD_eq_iff] using hslot
    · exact h.held fd' ctx' hsince
  · intro fd' ctx' hmem
    obtain heq | hmem := List.mem_cons.1 hmem
    · cases heq
      exact hsome rfl
    · exact h.made fd' ctx' hmem
  · apply h.same.cons
    rintro _ _ _ ctx' ⟨⟩ hsince
    rw [← hslot, h.held fd ctx' hsince, Option.getD_some]
  · intro p c hmem
    exact h.exist p c (by simpa using hmem)
  · apply h.seen.cons
    · rintro p c ⟨⟩
    · exact fun _ _ _ _ => rfl

/-- A slot without an object has given none out since it was deleted. -/
theorem Inv.not_since (h : Inv s) {fd : ℕ} (hempty : s.mgr.fds[fd]?.getD none = none)
    (ctx : Option CtxPtr) : ¬ Since s.log fd ctx := by
  intro hsince
  rw [h.held fd ctx hsince, Option.getD_some] at hempty
  obtain ⟨between, earlier, hlog, -⟩ := hsince
  have hsome := h.made fd ctx (by simp [hlog])
  rw [hempty] at hsome
  exact Bool.false_ne_true hsome

theorem Inv.write [DecidableEq T] (h : Inv s) {t : T} {fd : ℕ} (stat : Option Bool)
    (hempty : s.mgr.fds[fd]?.getD none = none)
    (hroom : fd < s.mgr.fds.length ∨ fd * 3 / 2 < 2 ^ 31) :
    Inv { mgr := s.mgr.create fd stat
          creating := Function.update s.creating t none
          log := .got fd true (some s.mgr.fresh) :: s.log } := by
  obtain ⟨hle, -, hlt⟩ := FdManager.length_create h.large h.small fd stat
  refine ⟨h.large.trans hle, hlt hroom, ?_, ?_, ?_, ?_, ?_⟩
  · intro fd' ctx' hsince
    obtain heq | ⟨-, hsince⟩ := since_cons.1 hsince
    · cases heq
      exact FdManager.create_self h.large h.small stat
    · have hslot := h.held fd' ctx' hsince
      by_cases hfd : fd = fd'
      · subst hfd
        exact absurd hsince (h.not_since hempty ctx')
      · exact FdManager.create_of_ne h.large h.small stat hfd hslot
  · intro fd' ctx' hmem
    obtain heq | hmem := List.mem_cons.1 hmem
    · cases heq
      rfl
    · exact h.made fd' ctx' hmem
  · apply h.same.cons
    rintro _ _ _ ctx' ⟨⟩ hsince
    exact absurd hsince (h.not_since hempty ctx')
  · intro p c hmem
    rw [FdManager.create_fresh]
    exact Nat.lt_succ_of_lt (h.exist p c (by simpa using hmem))
  · apply h.seen.cons
    · rintro p c ⟨⟩
    · intro p c _ hmem
      rw [FdManager.create_heap, Function.update_of_ne (h.exist p c hmem).ne]

theorem Inv.del (h : Inv s) {fd : ℕ} {mgr : FdManager} (hheap : mgr.heap = s.mgr.heap)
    (hfresh : mgr.fresh = s.mgr.fresh) (hlen : mgr.fds.length = s.mgr.fds.length)
    (hslot : ∀ fd', fd ≠ fd' → mgr.fds[fd']? = s.mgr.fds[fd']?) :
    Inv { s with mgr := mgr, log := .deleted fd :: s.log } := by
  refine ⟨?_, ?_, ?_, ?_, ?_, ?_, ?_⟩
  · rw [hlen]
    exact h.large
  · rw [hlen]
    exact h.small
  · intro fd' ctx' hsince
    obtain heq | ⟨hne, hsince⟩ := since_cons.1 hsince
    · cases heq
    · rw [hslot fd' (fun hfd => hne (congrArg _ hfd)), h.held fd' ctx' hsince]
  · intro fd' ctx' hmem
    exact h.made fd' ctx' (by simpa using hmem)
  · apply h.same.cons
    rintro _ _ _ ctx' ⟨⟩
  · intro p c hmem
    rw [hfresh]
    exact h.exist p c (by simpa using hmem)
  · apply h.seen.cons
    · rintro p c ⟨⟩
    · intro p c _ _
      rw [hheap]

theorem Inv.store (h : Inv s) {p : CtxPtr} (c : FdCtx) (hp : p < s.mgr.fresh) :
    Inv { s with
      mgr := { s.mgr with heap := Function.update s.mgr.heap p c }
      log := .stored p c :: s.log } := by
  refine ⟨h.large, h.small, ?_, ?_, ?_, ?_, ?_⟩
  · intro fd' ctx' hsince
    obtain heq | ⟨-, hsince⟩ := since_cons.1 hsince
    · cases heq
    · exact h.held fd' ctx' hsince
  · intro fd' ctx' hmem
    exact h.made fd' ctx' (by simpa using hmem)
  · apply h.same.cons
    rintro _ _ _ ctx' ⟨⟩
  · intro p' c' hmem
    obtain heq | hmem := List.mem_cons.1 hmem
    · cases heq
      exact hp
    · exact h.exist p' c' hmem
  · apply h.seen.cons
    · rintro _ _ ⟨⟩
      exact Function.update_self _ _ _
    · intro p' c' hne _
      apply Function.update_of_ne
      rintro rfl
      exact hne c rfl

theorem Inv.step [DecidableEq T] {u : FdTable T} {l : FdLabel T} (h : Inv s) (hok : s.Sound l)
    (hst : s.step l = some u) : Inv u ∧ s.mgr.fds.length ≤ u.mgr.fds.length := by
  cases l with
  | read t fd autoCreate =>
    rw [FdTable.step] at hst
    split_ifs at hst
    cases hfind : s.mgr.find fd autoCreate with
    | none =>
      rw [hfind] at hst
      cases hst
      exact ⟨⟨h.large, h.small, h.held, h.made, h.same, h.exist, h.seen⟩, le_rfl⟩
    | some ctx =>
      rw [hfind] at hst
      cases hst
      exact ⟨h.read hfind, le_rfl⟩
  | write t stat =>
    obtain ⟨fd, hfd, rfl⟩ := Option.map_eq_some_iff.1 hst
    rw [Sound, hfd, Option.elim_some] at hok
    exact ⟨h.write stat hok.1 hok.2, (FdManager.length_create h.large h.small fd stat).1⟩
  | del t fd =>
    rw [FdTable.step] at hst
    split_ifs at hst
    obtain rfl := Option.some.inj hst
    obtain ⟨hheap, hfresh, hlen, hslot⟩ := s.mgr.del_spec fd
    exact ⟨h.del hheap hfresh hlen hslot, hlen.ge⟩
  | store t p c =>
    rw [FdTable.step] at hst
    split_ifs at hst with hp
    cases hst
    exact ⟨h.store c hp.2, le_rfl⟩

/-- The sections stay inside of the table, also those that the guard refuses. -/
theorem Inv.access (h : Inv s) {l : FdLabel T} {i n : ℕ} (hacc : s.access l = some (i, n)) :
    i < n := by
  have hsize := FdManager.intSize_eq h.small
  cases l with
  | write t stat =>
    obtain ⟨fd, -, heq⟩ := Option.map_eq_some_iff.1 hacc
    cases heq
    exact (FdManager.length_create h.large h.small _ stat).2.1
  | store t p c => cases hacc
  | _ =>
    rw [FdTable.access] at hacc
    split_ifs at hacc with hfd
    cases hacc
    omega

end

/-! ## A run -/

/-- A descriptor has one object from one `del` to the next: a creating `get` gives an object, every
later `get` gives the same one, and what was stored through one of them is seen through all. The
table does not shrink, and no section reads or writes outside of it. -/
theorem object_shared [DecidableEq T] {s u : FdTable T} (hs : Reach step Sound start s)
    (hu : Reach step Sound s u) :
    (∀ fd ctx, .got fd true ctx ∈ u.log → ctx.isSome) ∧ SameObject u.log ∧
      StoreSeen u.mgr.heap u.log ∧ s.mgr.fds.length ≤ u.mgr.fds.length ∧
      ∀ l i n, u.access l = some (i, n) → i < n := by
  have hinv : ∀ {t u : FdTable T}, Inv t → Reach step Sound t u → Inv u :=
    fun h hr => hr.invariant h fun _ _ _ h hok hst => (h.step hok hst).1
  have hsInv := hinv inv_start hs
  have huInv := hinv hsInv hu
  refine ⟨huInv.made, huInv.same, huInv.seen, ?_, fun l i n => huInv.access⟩
  exact hu.rel (R := fun s u => s.mgr.fds.length ≤ u.mgr.fds.length) hsInv (fun _ => le_rfl)
    (fun _ _ _ => le_trans) fun _ _ _ h hok hst => h.step hok hst

/-- The second thread gets the object to which the first one has stored a timeout, and a new one for
a descriptor that was deleted. -/
theorem object_shared_pair : ∃ s u : FdTable (Fin 2),
    s.mgr.fds.length = 64 ∧ u.mgr.fds.length = 105 ∧
    u.log = [.got 5 true (some 2), .deleted 5, .got 70 true (some 1), .got 5 false (some 0),
      .stored 0 { recvTimeout := 10 }, .got 5 true (some 0)] ∧ SameObject u.log ∧
    s.mgr.fds.length ≤ u.mgr.fds.length := by
  have hs := reach_exec step (Sound (T := Fin 2)) start
    [.read 0 5 true, .write 0 (some true), .store 0 0 { recvTimeout := 10 }] (by decide +kernel)
  have hu := fun s => reach_exec step (Sound (T := Fin 2)) s
    [.read 1 5 false, .read 1 70 true, .write 1 none, .del 0 5, .read 1 5 true, .write 1 none]
  obtain ⟨-, hsame, -, hle, -⟩ := object_shared hs (hu _ (by decide +kernel))
  refine ⟨_, _, ?_, ?_, ?_, hsame, hle⟩ <;> decide +kernel

/-- Both threads find descriptor 5 without an object, and the second one overwrites the object to
which the first one has stored a timeout. -/
theorem object_overwritten : ∃ s : FdTable (Fin 2), Reach step Trans.free start s ∧
    s.log = [.got 5 false (some 1), .got 5 true (some 1), .stored 0 { recvTimeout := 10 },
      .got 5 true (some 0)] ∧
    (s.mgr.heap 1).recvTimeout = ~~~0 ∧ ¬ SameObject s.log := by
  have hs := reach_exec step (Trans.free (σ := FdTable (Fin 2))) start
    [.read 0 5 true, .read 1 5 true, .write 0 (some true), .store 0 0 { recvTimeout := 10 },
      .write 1 (some true), .read 0 5 false] (by decide +kernel)
  have hbad : ∀ log : List FdEvent, log = [.got 5 false (some 1), .got 5 true (some 1),
      .stored 0 { recvTimeout := 10 }, .got 5 true (some 0)] → ¬ SameObject log := by
    rintro _ rfl hsame
    have hsince : Since [.stored 0 { recvTimeout := 10 }, .got 5 true (some 0)] 5 (some 0) :=
      ⟨[.stored 0 { recvTimeout := 10 }], [], rfl, by decide⟩
    cases hsame [.got 5 false (some 1)] _ 5 true (some 1) (some 0) rfl hsince
  refine ⟨_, hs, ?_, ?_, hbad _ ?_⟩ <;> decide +kernel

end FdTable

end CoroutineScheduler
