import Mathlib.Tactic

/-!
# Descriptor objects

`FdCtx` and `FdManager`. `get` is cut at its two locks: `find` is the section under the read lock,
`create` the one under the write lock.
-/

namespace CoroutineScheduler

/-- The address of an `FdCtx`. -/
abbrev CtxPtr := ℕ

/-- `SO_RCVTIMEO` and `SO_SNDTIMEO`. -/
inductive TimeoutSo
  | recv | send
  deriving DecidableEq, Repr

/-- The fields of `FdCtx`, less `m_fd`. -/
structure FdCtx where
  isInit : Bool := false
  isSocket : Bool := false
  sysNonblock : Bool := false
  userNonblock : Bool := false
  isClosed : Bool := false
  recvTimeout : UInt64 := ~~~0
  sendTimeout : UInt64 := ~~~0
  deriving DecidableEq, Repr

namespace FdCtx

/-- `FdCtx(fd)`, where `fstat` fails or says whether `fd` is a socket. -/
def new (stat : Option Bool) : FdCtx :=
  { isInit := stat.isSome, isSocket := stat == some true, sysNonblock := stat == some true }

def setTimeout (c : FdCtx) (type : TimeoutSo) (t : UInt64) : FdCtx :=
  match type with
  | .recv => { c with recvTimeout := t }
  | .send => { c with sendTimeout := t }

def getTimeout (c : FdCtx) : TimeoutSo → UInt64
  | .recv => c.recvTimeout
  | .send => c.sendTimeout

end FdCtx

/-- `FdManager`, with the objects that its pointers refer to. -/
structure FdManager where
  fds : List (Option CtxPtr)
  heap : CtxPtr → FdCtx
  fresh : ℕ

namespace FdManager

def start : FdManager := ⟨List.replicate 64 none, fun _ => {}, 0⟩

/-- `(int)m_fds.size()`. -/
def intSize (s : FdManager) : ℤ := (s.fds.length : ℤ).bmod (2 ^ 32)

/-- `get` under the read lock: `none` when it goes on to the write lock. -/
def find (s : FdManager) (fd : ℕ) (autoCreate : Bool) : Option (Option CtxPtr) :=
  if s.intSize ≤ fd then if autoCreate then none else some none
  else
    let ctx := s.fds[fd]?.getD none
    if ctx.isSome || !autoCreate then some ctx else none

/-- `m_fds.resize`. -/
def resize (s : FdManager) (size : ℕ) : FdManager :=
  { s with fds := s.fds.take size ++ List.replicate (size - s.fds.length) none }

/-- `get` under the write lock. -/
def create (s : FdManager) (fd : ℕ) (stat : Option Bool) : FdManager :=
  let t := if (fd : ℤ) ≥ s.intSize then s.resize (fd * 3 / 2) else s
  { t with
    fds := t.fds.set fd (some t.fresh)
    heap := Function.update t.heap t.fresh (.new stat)
    fresh := t.fresh + 1 }

/-- `get(fd)`, which creates nothing. -/
def get (s : FdManager) (fd : ℕ) : Option CtxPtr := (s.find fd false).getD none

def del (s : FdManager) (fd : ℕ) : FdManager :=
  if s.intSize ≤ fd then s else { s with fds := s.fds.set fd none }

theorem get_eq_some (s : FdManager) {fd : ℕ} {p : CtxPtr} (h : s.get fd = some p) :
    s.fds[fd]? = some (some p) := by
  rw [get, find] at h
  split at h
  · cases h
  · simp only [Bool.not_false, Bool.or_true, if_true, Option.getD_some] at h
    cases hfd : s.fds[fd]? with
    | none => simp [hfd] at h
    | some ctx => simpa [hfd] using h

/-- A store to the object of a descriptor, if it has one. -/
def modify (s : FdManager) (fd : ℕ) (f : FdCtx → FdCtx) : FdManager :=
  (s.get fd).elim s fun p => { s with heap := Function.update s.heap p (f (s.heap p)) }

end FdManager

end CoroutineScheduler
