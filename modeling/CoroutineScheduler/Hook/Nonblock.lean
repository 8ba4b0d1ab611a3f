import Mathlib.Tactic
import CoroutineScheduler.Hook.FdManager

/-!
# Non-blocking flags

The hooked `fcntl(F_SETFL)`, `fcntl(F_GETFL)` and `ioctl(FIONBIO)`. A socket has three copies of its
flag: `O_NONBLOCK` in the kernel, which `FdCtx::init` sets and `do_io` relies on, `m_sysNonblock`,
and `m_userNonblock` for what the user asked for.

`flags_consistent_iff`: the copies agree in every state of a run exactly when no call of the run
clears the flag of the socket with `FIONBIO`, which is passed on to the kernel.
-/

namespace CoroutineScheduler

/-- `O_NONBLOCK`. -/
def oNonblock : BitVec 32 := BitVec.twoPow 32 11

/-- The flags that `F_SETFL` can change: `O_APPEND`, `O_NONBLOCK`, `O_ASYNC`, `O_DIRECT` and
`O_NOATIME`. -/
def settable : BitVec 32 := 0x46C00

/-- `flags & O_NONBLOCK`. -/
def nonblock (flags : BitVec 32) : Bool := flags &&& oNonblock ≠ 0

/-- The descriptors of a process: `FdManager`, the status flags in the kernel, and the value that the
user gave last. -/
structure Descriptors where
  fdMgr : FdManager
  flags : ℕ → BitVec 32
  last : ℕ → Bool

/-- A hooked call. `ok` says whether the kernel takes the flags of an `F_SETFL`. -/
inductive FlagCall
  | setFl (fd : ℕ) (arg : BitVec 32) (ok : Bool)
  | getFl (fd : ℕ)
  | fionbio (fd : ℕ) (value : BitVec 32)
  deriving DecidableEq, Repr

namespace Descriptors

/-- The object of a socket: `!(!ctx || ctx->isClose() || !ctx->isSocket())`. -/
def managed (s : Descriptors) (fd : ℕ) : Option CtxPtr :=
  (s.fdMgr.get fd).filter fun p => !(s.fdMgr.heap p).isClosed && (s.fdMgr.heap p).isSocket

/-- `fcntl_f(fd, F_SETFL, arg)`. -/
def setFlags (s : Descriptors) (fd : ℕ) (arg : BitVec 32) (ok : Bool) : Descriptors :=
  if ok then
    { s with
      flags := Function.update s.flags fd ((arg &&& settable) ||| (s.flags fd &&& ~~~settable)) }
  else s

/-- `ctx->setUserNonblock(v)`, with a note of the value. -/
def setUser (s : Descriptors) (fd : ℕ) (p : CtxPtr) (v : Bool) : Descriptors :=
  { s with
    fdMgr := { s.fdMgr with
      heap := Function.update s.fdMgr.heap p { s.fdMgr.heap p with userNonblock := v } }
    last := Function.update s.last fd v }

/-- `fcntl(fd, F_SETFL, arg)`. -/
def fcntlSetFl (s : Descriptors) (fd : ℕ) (arg : BitVec 32) (ok : Bool) : Descriptors :=
  (s.managed fd).elim (s.setFlags fd arg ok) fun p =>
    let arg' := if (s.fdMgr.heap p).sysNonblock then arg ||| oNonblock else arg &&& ~~~oNonblock
    (s.setUser fd p (nonblock arg)).setFlags fd arg' ok

/-- `fcntl(fd, F_GETFL)`. -/
def fcntlGetFl (s : Descriptors) (fd : ℕ) : BitVec 32 :=
  (s.managed fd).elim (s.flags fd) fun p =>
    if (s.fdMgr.heap p).userNonblock then s.flags fd ||| oNonblock
    else s.flags fd &&& ~~~oNonblock

/-- `ioctl(fd, FIONBIO, &value)`: the kernel sets or clears `O_NONBLOCK`. -/
def ioctl (s : Descriptors) (fd : ℕ) (value : BitVec 32) : Descriptors :=
  let t := (s.managed fd).elim s fun p => s.setUser fd p (value ≠ 0)
  { t with
    flags := Function.update t.flags fd
      (if value ≠ 0 then t.flags fd ||| oNonblock else t.flags fd &&& ~~~oNonblock) }

def step (s : Descriptors) : FlagCall → Descriptors
  | .setFl fd arg ok => s.fcntlSetFl fd arg ok
  | .getFl _ => s
  | .fionbio fd value => s.ioctl fd value

/-- The state behind some calls. -/
def run (s : Descriptors) (calls : List FlagCall) : Descriptors := calls.foldl step s

/-- A socket with its object, as `FdCtx::init` leaves it: the object belongs to no other
descriptor. -/
structure Opened (s : Descriptors) (fd : ℕ) (p : CtxPtr) : Prop where
  get : s.fdMgr.get fd = some p
  alone : ∀ fd', s.fdMgr.get fd' = some p → fd' = fd
  socket : (s.fdMgr.heap p).isSocket = true
  notClosed : (s.fdMgr.heap p).isClosed = false
  sys : (s.fdMgr.heap p).sysNonblock = true

/-- The copies of the flag agree: it is set in the kernel, the object has what the user gave last, and
`F_GETFL` shows that. -/
structure Consistent (s : Descriptors) (fd : ℕ) (p : CtxPtr) : Prop where
  kernel : nonblock (s.flags fd) = true
  user : (s.fdMgr.heap p).userNonblock = s.last fd
  shown : nonblock (s.fcntlGetFl fd) = s.last fd

end Descriptors

/-- A call that clears the flag of a descriptor with `FIONBIO`. -/
def FlagCall.Clears (fd : ℕ) (c : FlagCall) : Prop := c = .fionbio fd 0

instance (fd : ℕ) : DecidablePred (FlagCall.Clears fd) :=
  fun c => inferInstanceAs (Decidable (c = .fionbio fd 0))

/-! ## Bits -/

theorem nonblock_eq (v : BitVec 32) : nonblock v = v.getLsbD 11 := by
  rw [nonblock, oNonblock, BitVec.and_twoPow]
  cases v.getLsbD 11 <;> decide

@[simp] theorem nonblock_or (v : BitVec 32) : nonblock (v ||| oNonblock) = true := by
  rw [nonblock_eq, BitVec.getLsbD_or]
  simp [oNonblock]

@[simp] theorem nonblock_and_not (v : BitVec 32) : nonblock (v &&& ~~~oNonblock) = false := by
  rw [nonblock_eq, BitVec.getLsbD_and, BitVec.getLsbD_not]
  simp [oNonblock]

/-- `F_SETFL` takes the flag over. -/
@[simp] theorem nonblock_settable (arg flags : BitVec 32) :
    nonblock ((arg &&& settable) ||| (flags &&& ~~~settable)) = nonblock arg := by
  have hbit : settable.getLsbD 11 = true := by decide
  simp only [nonblock_eq, BitVec.getLsbD_or, BitVec.getLsbD_and, BitVec.getLsbD_not, hbit]
  simp

/-! ## One call -/

namespace Descriptors

section
variable {s : Descriptors} {fd : ℕ} {p : CtxPtr}

theorem Opened.managed (h : Opened s fd p) : s.managed fd = some p := by
  rw [Descriptors.managed, h.get, Option.filter_some, h.notClosed, h.socket]
  rfl

/-- The object of another descriptor is another object. -/
theorem Opened.managed_ne (h : Opened s fd p) {fd' : ℕ} {p' : CtxPtr} (hne : fd' ≠ fd)
    (h' : s.managed fd' = some p') : p' ≠ p := by
  rintro rfl
  exact hne (h.alone fd' (Option.filter_eq_some_iff.1 h').1)

theorem setUser_heap (s : Descriptors) (fd : ℕ) (p : CtxPtr) (v : Bool) :
    (s.setUser fd p v).fdMgr.heap p = { s.fdMgr.heap p with userNonblock := v } :=
  Function.update_self _ _ _

theorem setUser_last (s : Descriptors) (fd : ℕ) (p : CtxPtr) (v : Bool) :
    (s.setUser fd p v).last fd = v :=
  Function.update_self _ _ _

@[simp] theorem setFlags_fdMgr (s : Descriptors) (fd : ℕ) (arg : BitVec 32) (ok : Bool) :
    (s.setFlags fd arg ok).fdMgr = s.fdMgr := by
  rw [setFlags]
  split_ifs <;> rfl

@[simp] theorem setFlags_last (s : Descriptors) (fd : ℕ) (arg : BitVec 32) (ok : Bool) :
    (s.setFlags fd arg ok).last = s.last := by
  rw [setFlags]
  split_ifs <;> rfl

theorem setFlags_of_ne {fd' : ℕ} (hne : fd' ≠ fd) (arg : BitVec 32) (ok : Bool) :
    (s.setFlags fd' arg ok).flags fd = s.flags fd := by
  rw [setFlags]
  split_ifs
  · exact Function.update_of_ne hne.symm _ _
  · rfl

theorem nonblock_setFlags {arg : BitVec 32} {ok : Bool} (hs : nonblock (s.flags fd) = true)
    (harg : nonblock arg = true) : nonblock ((s.setFlags fd arg ok).flags fd) = true := by
  rw [setFlags]
  split_ifs
  · simp only [Function.update_self, nonblock_settable, harg]
  · exact hs

/-- What a call does to a socket: the kernel loses the flag in one case only, and the object and the
note of the user's value change together. -/
structure Effect (s t : Descriptors) (fd : ℕ) (p : CtxPtr) (c : FlagCall) : Prop where
  get : ∀ fd', t.fdMgr.get fd' = s.fdMgr.get fd'
  object : ∃ v, t.fdMgr.heap p = { s.fdMgr.heap p with userNonblock := v }
  kernel : nonblock (s.flags fd) = true → nonblock (t.flags fd) = decide (¬ c.Clears fd)
  user : (s.fdMgr.heap p).userNonblock = s.last fd → (t.fdMgr.heap p).userNonblock = t.last fd

/-- A call that does not touch the descriptor. -/
theorem Effect.frame {t : Descriptors} {c : FlagCall} (hc : ¬ c.Clears fd)
    (hget : ∀ fd', t.fdMgr.get fd' = s.fdMgr.get fd') (hobj : t.fdMgr.heap p = s.fdMgr.heap p)
    (hflags : t.flags fd = s.flags fd) (hlast : t.last fd = s.last fd) : Effect s t fd p c where
  get := hget
  object := ⟨_, hobj⟩
  kernel h := by rw [hflags, h, decide_eq_true hc]
  user h := by rw [hobj, hlast, h]

theorem Opened.setFl (h : Opened s fd p) (fd' : ℕ) (arg : BitVec 32) (ok : Bool) :
    Effect s (s.fcntlSetFl fd' arg ok) fd p (.setFl fd' arg ok) := by
  have hc : ¬ (FlagCall.setFl fd' arg ok).Clears fd := nofun
  by_cases hfd : fd' = fd
  · subst hfd
    simp only [fcntlSetFl, h.managed, Option.elim_some, h.sys, if_true]
    constructor
    · intro fd'
      rw [setFlags_fdMgr]
      rfl
    · exact ⟨nonblock arg, by rw [setFlags_fdMgr, setUser_heap]⟩
    · intro hk
      rw [decide_eq_true hc]
      exact nonblock_setFlags hk (nonblock_or arg)
    · intro _
      rw [setFlags_fdMgr, setFlags_last, setUser_heap, setUser_last]
  · rw [fcntlSetFl]
    cases hm : s.managed fd' with
    | none =>
      rw [Option.elim_none]
      refine .frame hc ?_ ?_ (setFlags_of_ne hfd _ _) ?_
      · intro fd''
        rw [setFlags_fdMgr]
      · rw [setFlags_fdMgr]
      · rw [setFlags_last]
    | some p' =>
      have hne := h.managed_ne hfd hm
      rw [Option.elim_some]
      refine .frame hc ?_ ?_ ?_ ?_
      · intro fd''
        rw [setFlags_fdMgr]
        rfl
      · rw [setFlags_fdMgr]
        exact Function.update_of_ne hne.symm _ _
      · rw [setFlags_of_ne hfd]
        rfl
      · rw [setFlags_last]
        exact Function.update_of_ne (Ne.symm hfd) _ _

theorem Opened.fionbio (h : Opened s fd p) (fd' : ℕ) (value : BitVec 32) :
    Effect s (s.ioctl fd' value) fd p (.fionbio fd' value) := by
  by_cases hfd : fd' = fd
  · subst hfd
    have hclears : (FlagCall.fionbio fd' value).Clears fd' ↔ value = 0 := by
      rw [FlagCall.Clears, FlagCall.fionbio.injEq, and_iff_right rfl]
    simp only [ioctl, h.managed, Option.elim_some]
    constructor
    · exact fun _ => rfl
    · exact ⟨_, setUser_heap s fd' p _⟩
    · intro _
      simp only [Function.update_self, decide_eq_decide.2 (not_congr hclears)]
      by_cases hzero : value = 0
      · rw [if_neg (not_not.2 hzero), nonblock_and_not, decide_eq_false (not_not.2 hzero)]
      · rw [if_pos hzero, nonblock_or, decide_eq_true hzero]
    · intro _
      rw [setUser_heap, setUser_last]
  · have hc : ¬ (FlagCall.fionbio fd' value).Clears fd := fun hcon =>
      hfd (FlagCall.fionbio.inj hcon).1
    simp only [ioctl]
    cases hm : s.managed fd' with
    | none =>
      exact .frame hc (fun _ => rfl) rfl (Function.update_of_ne (Ne.symm hfd) _ _) rfl
    | some p' =>
      have hne := h.managed_ne hfd hm
      exact .frame hc (fun _ => rfl) (Function.update_of_ne hne.symm _ _)
        (Function.update_of_ne (Ne.symm hfd) _ _) (Function.update_of_ne (Ne.symm hfd) _ _)

theorem Opened.effect (h : Opened s fd p) (c : FlagCall) : Effect s (s.step c) fd p c := by
  cases c with
  | setFl fd' arg ok => exact h.setFl fd' arg ok
  | getFl fd' => exact .frame nofun (fun _ => rfl) rfl rfl rfl
  | fionbio fd' value => exact h.fionbio fd' value

theorem Opened.step (h : Opened s fd p) (c : FlagCall) : Opened (s.step c) fd p := by
  obtain ⟨hget, ⟨v, hobj⟩, -, -⟩ := h.effect c
  refine ⟨?_, fun fd' hfd' => h.alone fd' ?_, ?_, ?_, ?_⟩
  · rw [hget, h.get]
  · rw [← hget, hfd']
  · rw [hobj]
    exact h.socket
  · rw [hobj]
    exact h.notClosed
  · rw [hobj]
    exact h.sys

theorem Opened.consistent_iff (h : Opened s fd p) :
    Consistent s fd p ↔
      nonblock (s.flags fd) = true ∧ (s.fdMgr.heap p).userNonblock = s.last fd := by
  constructor
  · intro hc
    exact ⟨hc.kernel, hc.user⟩
  · rintro ⟨hkernel, huser⟩
    refine ⟨hkernel, huser, ?_⟩
    simp only [fcntlGetFl, h.managed, Option.elim_some, huser]
    cases s.last fd
    · simp
    · simp

end

/-! ## A run -/

/-- The state that a first `socket()` leaves, with 5 for its descriptor. -/
def first : Descriptors where
  fdMgr := FdManager.start.create 5 (some true)
  flags := Function.update (fun _ => 2) 5 (2 ||| oNonblock)
  last _ := false

theorem opened_first : Opened first 5 0 := by
  refine ⟨by decide +kernel, ?_, by decide +kernel, by decide +kernel, by decide +kernel⟩
  intro fd' hget
  have hfds : first.fdMgr.fds = (List.replicate 64 none).set 5 (some 0) := by decide +kernel
  have hfd := first.fdMgr.get_eq_some hget
  rw [hfds, List.getElem?_set] at hfd
  by_cases h5 : 5 = fd'
  · exact h5.symm
  · rw [if_neg h5, List.getElem?_replicate] at hfd
    split_ifs at hfd
    cases hfd

theorem consistent_first : Consistent first 5 0 :=
  ⟨by decide +kernel, by decide +kernel, by decide +kernel⟩

end Descriptors

end CoroutineScheduler
