import CoroutineScheduler.Lib.Count
import CoroutineScheduler.Lib.Permits
import CoroutineScheduler.Lib.Trans
import Mathlib.Tactic

/-!
# Sending on a stream that reconnects

`AsyncSocketStream` without its `Ctx`s: `start`, the fibers of `doRead` and `doWrite` that it
schedules, `enqueue`, `innerClose` and `close`. Any number of fibers run any number of these; each
access to the socket, each section under `m_queueMutex` and each call on a semaphore is a step.
`start` takes both permits of `m_waitSem`, `doRead` and `doWrite` give one back each, and so does
every `start` that fails, twice. What `doRecv`, `doSend`, `reconnect` and the callbacks do is up to
them, and `start` may be called at any time, as the timers do that it and `doRead` set.

The model and its steps (`Stepped`), and that there is one `doRead` and one `doWrite` at a time
(`one_connection`).
-/

namespace CoroutineScheduler.Streams

open Count Trans

/-- Where `innerClose` goes back to: `start`, the `doSend` that failed, a `doRecv` that called it,
or the end of `doRead`. -/
inductive Closer
  | start
  | send
  | recv
  | readOut
  deriving DecidableEq, Repr

/-- The place of a fiber in `start`: the two calls of `wait` in `waitFiber` and the queues there, the
test of `isConnected` with `reconnect`, `m_connectCb`, the scheduling of `doRead` and `doWrite`, and
the two calls of `notify` behind a failure. In `doRead`: the test of the loop, `doRecv`, and
`m_waitSem.notify`. In `doWrite`: the test of the loop, `m_sem.wait` and the queue there, the swap, the
loop over what was swapped out, the section behind the loops, and `m_waitSem.notify`. In `enqueue`: the
section under the lock, and `m_sem.notify`. In `innerClose`: closing the socket, `m_sem.notify`, and
clearing the queue. Last `close`. -/
inductive StreamPc (μ : Type)
  | idle
  | wait₁ | queued₁ | wait₂ | queued₂ | connect | connectCb | startRead | startWrite | notify₁ | notify₂
  | read | recv | readOut
  | write | wait | asleep | swap | send (ctxs : List μ) | clear | writeOut
  | push (m : μ) | notify
  | innerClose (c : Closer) | closeNotify (c : Closer) | closeClear (c : Closer)
  | close
  deriving DecidableEq, Repr

/-- Where a queued fiber goes on that has got its permit. -/
def StreamPc.wake {μ : Type} : StreamPc μ → StreamPc μ
  | .queued₁ => .wait₂
  | .queued₂ => .connect
  | .asleep => .swap
  | pc => pc

/-- Where `innerClose` returns to. -/
def Closer.back {μ : Type} : Closer → StreamPc μ
  | .start => .notify₁
  | .send => .write
  | .recv => .read
  | .readOut => .readOut

/-- What a fiber may call. -/
inductive StreamOp (μ : Type)
  | start
  | enqueue (m : μ)
  | close
  deriving DecidableEq, Repr

def StreamOp.entry {μ : Type} : StreamOp μ → StreamPc μ
  | .start => .wait₁
  | .enqueue m => .push m
  | .close => .close

/-- The stream and the fibers `T`. `reads` and `writes` are the scheduled calls of `doRead` and
`doWrite`; `enqueued` is what `enqueue` was called with, `sent` what `doSend` has sent, and `dropped`
how much was thrown away. `writing` says that a `start` has returned `true` on this connection, and
that no `doSend` has thrown since. -/
structure AsyncSocketStream (T μ : Type) where
  connected : Bool
  waitSem : Permits T := ⟨2, []⟩
  sem : Permits T := ⟨0, []⟩
  queue : List μ := []
  reads : ℕ := 0
  writes : ℕ := 0
  pc : T → StreamPc μ := fun _ => .idle
  enqueued : List μ := []
  sent : List μ := []
  dropped : ℕ := 0
  writing : Bool := false

namespace AsyncSocketStream

variable {T μ : Type} [DecidableEq T]

def goto (s : AsyncSocketStream T μ) (t : T) (b : StreamPc μ) : AsyncSocketStream T μ :=
  { s with pc := Function.update s.pc t b }

/-- The places when a permit of `p` is given back: the first fiber in the queue goes on. -/
def woken (p : Permits T) (pc : T → StreamPc μ) : T → StreamPc μ :=
  match p.waiters with
  | w :: _ => Function.update pc w (pc w).wake
  | [] => pc

/-- `m_waitSem.notify()`. -/
def notifyWait (s : AsyncSocketStream T μ) : AsyncSocketStream T μ :=
  { s with waitSem := s.waitSem.give, pc := woken s.waitSem s.pc }

/-- `m_sem.notify()`. -/
def notifySem (s : AsyncSocketStream T μ) : AsyncSocketStream T μ :=
  { s with sem := s.sem.give, pc := woken s.sem s.pc }

/-- `m_waitSem.wait()`, which goes on at `granted` or is queued at `queued`. -/
def takeWait (s : AsyncSocketStream T μ) (t : T) (granted queued : StreamPc μ) :
    AsyncSocketStream T μ :=
  if 0 < s.waitSem.free then { s.goto t granted with waitSem := s.waitSem.take }
  else { s.goto t queued with waitSem := s.waitSem.wait t }

/-- `m_sem.wait()`. -/
def takeSem (s : AsyncSocketStream T μ) (t : T) : AsyncSocketStream T μ :=
  if 0 < s.sem.free then { s.goto t .swap with sem := s.sem.take }
  else { s.goto t .asleep with sem := s.sem.wait t }

/-- The queue is cleared. -/
def cleared (s : AsyncSocketStream T μ) : AsyncSocketStream T μ :=
  { s with queue := [], dropped := s.dropped + s.queue.length }

/-- A fiber begins a call, or one that was scheduled, or takes its next step; `outcome` is the result
of what it calls (`reconnect`, `m_connectCb`, `doRecv`, `doSend`), which may also throw (`threw`), and
`doRecv` may call `innerClose` (`closes`). -/
inductive StreamLabel (T μ : Type)
  | call (t : T) (op : StreamOp μ)
  | doRead (t : T)
  | doWrite (t : T)
  | next (t : T)
  | outcome (t : T) (ok : Bool)
  | threw (t : T)
  | closes (t : T)

/-- The next step of a fiber at a place where it depends on nobody else. -/
def next (s : AsyncSocketStream T μ) (t : T) : StreamPc μ → Option (AsyncSocketStream T μ)
  | .idle | .queued₁ | .queued₂ | .asleep | .connectCb | .recv | .send (_ :: _) => none
  | .wait₁ => some (s.takeWait t .wait₂ .queued₁)
  | .wait₂ => some (s.takeWait t .connect .queued₂)
  | .connect => if s.connected then some (s.goto t .connectCb) else none
  | .startRead => some { s.goto t .startWrite with reads := s.reads + 1 }
  | .startWrite => some { s.goto t .idle with writes := s.writes + 1, writing := true }
  | .notify₁ => some (s.notifyWait.goto t .notify₂)
  | .notify₂ => some (s.notifyWait.goto t .idle)
  | .read => some (s.goto t (if s.connected then .recv else .innerClose .readOut))
  | .readOut => some (s.notifyWait.goto t .idle)
  | .write => some (s.goto t (if s.connected then .wait else .clear))
  | .wait => some (s.takeSem t)
  | .swap => some { s.goto t (.send s.queue) with queue := [] }
  | .send [] => some (s.goto t .write)
  | .clear => some (s.cleared.goto t .writeOut)
  | .writeOut => some (s.notifyWait.goto t .idle)
  | .push m =>
    some { s.goto t (if s.queue = [] then .notify else .idle) with
      queue := s.queue ++ [m], enqueued := s.enqueued ++ [m] }
  | .notify => some (s.notifySem.goto t .idle)
  | .innerClose c => some { s.goto t (.closeNotify c) with connected := false }
  | .closeNotify c => some (s.notifySem.goto t (.closeClear c))
  | .closeClear c => some (s.cleared.goto t c.back)
  | .close => some { s.goto t .idle with connected := false }

/-- What `reconnect`, `m_connectCb`, `doRecv` or `doSend` comes to. -/
def outcome (s : AsyncSocketStream T μ) (t : T) (ok : Bool) : StreamPc μ → Option (AsyncSocketStream T μ)
  | .connect =>
    if s.connected then none
    else if ok then some { s.goto t .connectCb with connected := true, writing := false }
    else some (s.goto t (.innerClose .start))
  | .connectCb => some (s.goto t (if ok then .startRead else .innerClose .start))
  | .recv => if ok then some (s.goto t .read) else none
  | .send (m :: ms) =>
    if ok then some { s.goto t (.send ms) with sent := s.sent ++ [m] }
    else some { s.goto t (.innerClose .send) with dropped := s.dropped + (m :: ms).length }
  | _ => none

def step (s : AsyncSocketStream T μ) : StreamLabel T μ → Option (AsyncSocketStream T μ)
  | .call t op =>
    match s.pc t with
    | .idle => some (s.goto t op.entry)
    | _ => none
  | .doRead t =>
    match s.pc t with
    | .idle => if 0 < s.reads then some { s.goto t .read with reads := s.reads - 1 } else none
    | _ => none
  | .doWrite t =>
    match s.pc t with
    | .idle => if 0 < s.writes then some { s.goto t .write with writes := s.writes - 1 } else none
    | _ => none
  | .next t => s.next t (s.pc t)
  | .outcome t ok => s.outcome t ok (s.pc t)
  | .threw t =>
    match s.pc t with
    | .recv => some (s.goto t (.innerClose .readOut))
    | .send ms =>
      if ms = [] then none
      else some { s.goto t .clear with dropped := s.dropped + ms.length, writing := false }
    | _ => none
  | .closes t =>
    match s.pc t with
    | .recv => some (s.goto t (.innerClose .recv))
    | _ => none

/-! ## The steps, by what they do -/

/-- The moves of a fiber that change nothing else. -/
inductive Moves (connected : Bool) : StreamPc μ → StreamPc μ → Prop
  | call (op : StreamOp μ) : Moves connected .idle op.entry
  | connected (h : connected = true) : Moves connected .connect .connectCb
  | refused (h : connected = false) : Moves connected .connect (.innerClose .start)
  | accepted : Moves connected .connectCb .startRead
  | declined : Moves connected .connectCb (.innerClose .start)
  | read (h : connected = true) : Moves connected .read .recv
  | readOut (h : connected = false) : Moves connected .read (.innerClose .readOut)
  | received : Moves connected .recv .read
  | threw : Moves connected .recv (.innerClose .readOut)
  | closes : Moves connected .recv (.innerClose .recv)
  | write (h : connected = true) : Moves connected .write .wait
  | writeOut (h : connected = false) : Moves connected .write .clear
  | sent : Moves connected (.send []) .write

/-- The moves with a call of `m_waitSem.wait()`, with the place in the queue. -/
inductive Takes : StreamPc μ → StreamPc μ → StreamPc μ → Prop
  | first : Takes .wait₁ .wait₂ .queued₁
  | second : Takes .wait₂ .connect .queued₂

/-- The moves with a call of `m_waitSem.notify()`. -/
inductive Gives : StreamPc μ → StreamPc μ → Prop
  | first : Gives .notify₁ .notify₂
  | second : Gives .notify₂ .idle
  | readOut : Gives .readOut .idle
  | writeOut : Gives .writeOut .idle

/-- The moves with a call of `m_sem.notify()`. -/
inductive Signals : StreamPc μ → StreamPc μ → Prop
  | enqueue : Signals .notify .idle
  | close (c : Closer) : Signals (.closeNotify c) (.closeClear c)

/-- The moves that clear the queue. -/
inductive Clears : StreamPc μ → StreamPc μ → Prop
  | write : Clears .clear .writeOut
  | close (c : Closer) : Clears (.closeClear c) c.back

/-- The moves that close the socket. -/
inductive Closes : StreamPc μ → StreamPc μ → Prop
  | inner (c : Closer) : Closes (.innerClose c) (.closeNotify c)
  | user : Closes .close .idle

/-- A step of fiber `t`. -/
inductive Stepped (s : AsyncSocketStream T μ) (t : T) : AsyncSocketStream T μ → Prop
  | move {b : StreamPc μ} (h : Moves s.connected (s.pc t) b) : Stepped s t (s.goto t b)
  | reconnect (hpc : s.pc t = .connect) :
      Stepped s t { s.goto t .connectCb with connected := true, writing := false }
  | startRead (hpc : s.pc t = .startRead) :
      Stepped s t { s.goto t .startWrite with reads := s.reads + 1 }
  | startWrite (hpc : s.pc t = .startWrite) :
      Stepped s t { s.goto t .idle with writes := s.writes + 1, writing := true }
  | doRead (hpc : s.pc t = .idle) (hpos : 0 < s.reads) :
      Stepped s t { s.goto t .read with reads := s.reads - 1 }
  | doWrite (hpc : s.pc t = .idle) (hpos : 0 < s.writes) :
      Stepped s t { s.goto t .write with writes := s.writes - 1 }
  | takeWait {granted queued : StreamPc μ} (h : Takes (s.pc t) granted queued) :
      Stepped s t (s.takeWait t granted queued)
  | notifyWait {b : StreamPc μ} (h : Gives (s.pc t) b) : Stepped s t (s.notifyWait.goto t b)
  | takeSem (hpc : s.pc t = .wait) : Stepped s t (s.takeSem t)
  | notifySem {b : StreamPc μ} (h : Signals (s.pc t) b) : Stepped s t (s.notifySem.goto t b)
  | swap (hpc : s.pc t = .swap) : Stepped s t { s.goto t (.send s.queue) with queue := [] }
  | clear {b : StreamPc μ} (h : Clears (s.pc t) b) : Stepped s t (s.cleared.goto t b)
  | push (m : μ) (hpc : s.pc t = .push m) :
      Stepped s t { s.goto t (if s.queue = [] then .notify else .idle) with
        queue := s.queue ++ [m], enqueued := s.enqueued ++ [m] }
  | close {b : StreamPc μ} (h : Closes (s.pc t) b) :
      Stepped s t { s.goto t b with connected := false }
  | sent (m : μ) (ms : List μ) (hpc : s.pc t = .send (m :: ms)) :
      Stepped s t { s.goto t (.send ms) with sent := s.sent ++ [m] }
  | failed (ms : List μ) (hpc : s.pc t = .send ms) :
      Stepped s t { s.goto t (.innerClose .send) with dropped := s.dropped + ms.length }
  | threw (ms : List μ) (hpc : s.pc t = .send ms) :
      Stepped s t { s.goto t .clear with dropped := s.dropped + ms.length, writing := false }

variable {s u : AsyncSocketStream T μ} {t : T} {b : StreamPc μ}

theorem stepped_next {p : StreamPc μ} (hpc : s.pc t = p) (h : s.next t p = some u) : Stepped s t u := by
  cases p with
  | idle | queued₁ | queued₂ | asleep | connectCb | recv => cases h
  | connect =>
    rw [next] at h
    split_ifs at h with hc
    obtain rfl := Option.some.inj h
    exact .move (hpc ▸ .connected hc)
  | send ms =>
    cases ms with
    | nil =>
      obtain rfl := Option.some.inj h
      exact .move (hpc ▸ .sent)
    | cons m ms => cases h
  | read =>
    obtain rfl := Option.some.inj h
    cases hc : s.connected with
    | true => exact .move (hpc ▸ .read hc)
    | false => exact .move (hpc ▸ .readOut hc)
  | write =>
    obtain rfl := Option.some.inj h
    cases hc : s.connected with
    | true => exact .move (hpc ▸ .write hc)
    | false => exact .move (hpc ▸ .writeOut hc)
  | wait₁ =>
    obtain rfl := Option.some.inj h
    exact .takeWait (hpc ▸ .first)
  | wait₂ =>
    obtain rfl := Option.some.inj h
    exact .takeWait (hpc ▸ .second)
  | startRead =>
    obtain rfl := Option.some.inj h
    exact .startRead hpc
  | startWrite =>
    obtain rfl := Option.some.inj h
    exact .startWrite hpc
  | notify₁ =>
    obtain rfl := Option.some.inj h
    exact .notifyWait (hpc ▸ .first)
  | notify₂ =>
    obtain rfl := Option.some.inj h
    exact .notifyWait (hpc ▸ .second)
  | readOut =>
    obtain rfl := Option.some.inj h
    exact .notifyWait (hpc ▸ .readOut)
  | wait =>
    obtain rfl := Option.some.inj h
    exact .takeSem hpc
  | swap =>
    obtain rfl := Option.some.inj h
    exact .swap hpc
  | clear =>
    obtain rfl := Option.some.inj h
    exact .clear (hpc ▸ .write)
  | writeOut =>
    obtain rfl := Option.some.inj h
    exact .notifyWait (hpc ▸ .writeOut)
  | push m =>
    obtain rfl := Option.some.inj h
    exact .push m hpc
  | notify =>
    obtain rfl := Option.some.inj h
    exact .notifySem (hpc ▸ .enqueue)
  | innerClose c =>
    obtain rfl := Option.some.inj h
    exact .close (hpc ▸ .inner c)
  | closeNotify c =>
    obtain rfl := Option.some.inj h
    exact .notifySem (hpc ▸ .close c)
  | closeClear c =>
    obtain rfl := Option.some.inj h
    exact .clear (hpc ▸ .close c)
  | close =>
    obtain rfl := Option.some.inj h
    exact .close (hpc ▸ .user)

theorem stepped_outcome {ok : Bool} (h : s.outcome t ok (s.pc t) = some u) : Stepped s t u := by
  cases hpc : s.pc t with
  | connect =>
    rw [hpc, outcome] at h
    split_ifs at h with hc hok
    · obtain rfl := Option.some.inj h
      exact .reconnect hpc
    · obtain rfl := Option.some.inj h
      exact .move (hpc ▸ .refused (Bool.eq_false_iff.2 hc))
  | connectCb =>
    rw [hpc] at h
    obtain rfl := Option.some.inj h
    cases ok with
    | true => exact .move (hpc ▸ .accepted)
    | false => exact .move (hpc ▸ .declined)
  | recv =>
    rw [hpc, outcome] at h
    split_ifs at h
    obtain rfl := Option.some.inj h
    exact .move (hpc ▸ .received)
  | send ms =>
    rw [hpc] at h
    cases ms with
    | nil => cases h
    | cons m ms =>
      rw [outcome] at h
      split_ifs at h
      · obtain rfl := Option.some.inj h
        exact .sent m ms hpc
      · obtain rfl := Option.some.inj h
        exact .failed (m :: ms) hpc
  | _ =>
    rw [hpc] at h
    cases h

theorem exists_stepped {l : StreamLabel T μ} (h : s.step l = some u) : ∃ t, Stepped s t u := by
  cases l with
  | call t op =>
    rw [step] at h
    split at h
    · next hpc =>
      obtain rfl := Option.some.inj h
      exact ⟨t, .move (hpc ▸ .call op)⟩
    · cases h
  | doRead t =>
    rw [step] at h
    split at h
    · split_ifs at h with hpos
      obtain rfl := Option.some.inj h
      exact ⟨t, .doRead ‹_› hpos⟩
    · cases h
  | doWrite t =>
    rw [step] at h
    split at h
    · split_ifs at h with hpos
      obtain rfl := Option.some.inj h
      exact ⟨t, .doWrite ‹_› hpos⟩
    · cases h
  | next t => exact ⟨t, stepped_next rfl h⟩
  | outcome t ok => exact ⟨t, stepped_outcome h⟩
  | threw t =>
    rw [step] at h
    split at h
    · next hpc =>
      obtain rfl := Option.some.inj h
      exact ⟨t, .move (hpc ▸ .threw)⟩
    · next ms hpc =>
      split_ifs at h
      obtain rfl := Option.some.inj h
      exact ⟨t, .threw ms hpc⟩
    · cases h
  | closes t =>
    rw [step] at h
    split at h
    · next hpc =>
      obtain rfl := Option.some.inj h
      exact ⟨t, .move (hpc ▸ .closes)⟩
    · cases h

end AsyncSocketStream

/-! ## One connection at a time -/

/-- The permits of `m_waitSem` that `innerClose` was called with. -/
def Closer.permits : Closer → ℤ
  | .start => 2
  | .send | .recv | .readOut => 1

namespace StreamPc

variable {μ : Type}

/-- The permits of `m_waitSem` that a fiber holds. -/
def permits : StreamPc μ → ℤ
  | .connect | .connectCb | .startRead | .notify₁ => 2
  | .wait₂ | .queued₂ | .startWrite | .notify₂ | .read | .recv | .readOut | .write | .wait | .asleep
  | .swap | .send _ | .clear | .writeOut => 1
  | .innerClose c | .closeNotify c | .closeClear c => c.permits
  | .idle | .wait₁ | .queued₁ | .push _ | .notify | .close => 0

/-- Whether a fiber is in `doRead`. -/
def reads : StreamPc μ → Bool
  | .read | .recv | .readOut => true
  | .innerClose c | .closeNotify c | .closeClear c => c = .recv || c = .readOut
  | _ => false

/-- Whether a fiber is in `doWrite`, or about to schedule it. -/
def writes : StreamPc μ → Bool
  | .startWrite | .write | .wait | .asleep | .swap | .send _ | .clear | .writeOut => true
  | .innerClose c | .closeNotify c | .closeClear c => c = .send
  | _ => false

/-- Whether a `start` is between its two permits and the scheduling of `doRead`, or the giving back
of the first permit. -/
def connects : StreamPc μ → Bool
  | .connect | .connectCb | .startRead | .notify₁ => true
  | .innerClose c | .closeNotify c | .closeClear c => c = .start
  | _ => false

/-- Whether a fiber is in `start`. -/
def starts : StreamPc μ → Bool
  | .wait₁ | .queued₁ | .wait₂ | .queued₂ | .connect | .connectCb | .startRead | .startWrite | .notify₁
  | .notify₂ => true
  | .innerClose c | .closeNotify c | .closeClear c => c = .start
  | _ => false

/-- Whether a fiber is in the queue of `m_waitSem`. -/
def queued : StreamPc μ → Bool
  | .queued₁ | .queued₂ => true
  | _ => false

/-- Whether a fiber is in the queue of `m_sem`. -/
def sleeps : StreamPc μ → Bool
  | .asleep => true
  | _ => false

theorem le_permits (x : StreamPc μ) :
    (x.reads.toNat : ℤ) + x.writes.toNat + 2 * x.connects.toNat ≤ x.permits := by
  cases x with
  | innerClose c | closeNotify c | closeClear c =>
    cases c <;> simp [reads, writes, connects, permits, Closer.permits]
  | _ => simp [reads, writes, connects, permits]

/-- Outside `start`, `doRead` and `doWrite` a fiber has no permits. -/
theorem permits_eq_zero {x : StreamPc μ} (hs : x.starts = false) (hr : x.reads = false)
    (hw : x.writes = false) : x.permits = 0 := by
  cases x with
  | innerClose c | closeNotify c | closeClear c =>
    cases c with
    | start => cases hs
    | send => cases hw
    | recv | readOut => cases hr
  | _ =>
    first
    | rfl
    | exact absurd hs Bool.true_eq_false.mp
    | exact absurd hr Bool.true_eq_false.mp
    | exact absurd hw Bool.true_eq_false.mp

end StreamPc

namespace AsyncSocketStream

variable {T μ : Type} [Fintype T] [DecidableEq T] {s u : AsyncSocketStream T μ} {t : T}
  {b : StreamPc μ}

/-- The permits are where they should be: two in all, no more than one `doRead` and one `doWrite`,
and those who wait in the queues. -/
structure Exclusive (s : AsyncSocketStream T μ) : Prop where
  permits : (s.waitSem.free : ℤ) + s.reads + s.writes + total StreamPc.permits s.pc = 2
  reads : (s.reads : ℤ) + tally StreamPc.reads s.pc ≤ 1
  writes : (s.writes : ℤ) + tally StreamPc.writes s.pc ≤ 1
  waitSem : s.waitSem.Queued fun t => (s.pc t).queued = true
  sem : s.sem.Queued fun t => (s.pc t).sleeps = true

omit [DecidableEq T] in
theorem total_le {f g : StreamPc μ → ℤ} (h : ∀ x, f x ≤ g x) (pc : T → StreamPc μ) :
    total f pc ≤ total g pc := Finset.sum_le_sum fun i _ => h (pc i)

omit [DecidableEq T] in
theorem counts_le (s : AsyncSocketStream T μ) : tally StreamPc.reads s.pc +
    tally StreamPc.writes s.pc + 2 * tally StreamPc.connects s.pc ≤ total StreamPc.permits s.pc := by
  refine le_of_eq_of_le ?_ (total_le StreamPc.le_permits s.pc)
  simp only [tally, total, Finset.sum_add_distrib, Finset.mul_sum]

omit [DecidableEq T] in
theorem Exclusive.connects_le (h : Exclusive s) : tally StreamPc.connects s.pc ≤ 1 := by
  have hsum := s.counts_le
  have hreads := tally_nonneg StreamPc.reads s.pc
  have hwrites := tally_nonneg StreamPc.writes s.pc
  have hpermits := h.permits
  omega

omit [DecidableEq T] in
/-- Nobody else has a permit while a `start` is connecting. -/
theorem Exclusive.connects (h : Exclusive s) (hc : (s.pc t).connects = true) :
    s.reads = 0 ∧ s.writes = 0 ∧ tally StreamPc.reads s.pc = 0 ∧ tally StreamPc.writes s.pc = 0 := by
  have hsum := s.counts_le
  have hone := one_le_tally hc
  have hreads := tally_nonneg StreamPc.reads s.pc
  have hwrites := tally_nonneg StreamPc.writes s.pc
  have hpermits := h.permits
  omega

omit [Fintype T] in
theorem queued_update {p : Permits T} {q : StreamPc μ → Bool} {pc : T → StreamPc μ}
    (h : p.Queued fun i => q (pc i) = true) (hb : q b = q (pc t)) :
    p.Queued fun i => q (Function.update pc t b i) = true := by
  apply h.congr
  intro i
  by_cases hi : i = t
  · rw [hi, Function.update_self, hb]
  · rw [Function.update_of_ne hi]

/-- A step that changes nothing about who has a permit and who waits. -/
theorem Exclusive.keep (h : Exclusive s) (hpc : u.pc = Function.update s.pc t b)
    (hw : u.waitSem = s.waitSem) (hs : u.sem = s.sem) (hq : b.queued = (s.pc t).queued)
    (ha : b.sleeps = (s.pc t).sleeps)
    (hp : (u.reads : ℤ) + u.writes + b.permits = s.reads + s.writes + (s.pc t).permits)
    (hr : (u.reads : ℤ) + b.reads.toNat = s.reads + (s.pc t).reads.toNat)
    (hwr : (u.writes : ℤ) + b.writes.toNat = s.writes + (s.pc t).writes.toNat) : Exclusive u := by
  have hpermits := h.permits
  have hreads := h.reads
  have hwrites := h.writes
  constructor
  · rw [hpc, hw, total_update]
    omega
  · rw [hpc, tally_update]
    omega
  · rw [hpc, tally_update]
    omega
  · rw [hpc, hw]
    exact queued_update h.waitSem hq
  · rw [hpc, hs]
    exact queued_update h.sem ha

theorem Moves.same {a : StreamPc μ} {c : Bool} (h : Moves c a b) :
    b.queued = a.queued ∧ b.sleeps = a.sleeps ∧ b.permits = a.permits ∧ b.reads = a.reads ∧
      b.writes = a.writes := by
  cases h with
  | call op => cases op <;> exact ⟨rfl, rfl, rfl, rfl, rfl⟩
  | _ => exact ⟨rfl, rfl, rfl, rfl, rfl⟩

theorem Clears.same {a : StreamPc μ} (h : Clears a b) :
    b.queued = a.queued ∧ b.sleeps = a.sleeps ∧ b.permits = a.permits ∧ b.reads = a.reads ∧
      b.writes = a.writes := by
  cases h with
  | write => exact ⟨rfl, rfl, rfl, rfl, rfl⟩
  | close c => cases c <;> exact ⟨rfl, rfl, rfl, rfl, rfl⟩

theorem Closes.same {a : StreamPc μ} (h : Closes a b) :
    b.queued = a.queued ∧ b.sleeps = a.sleeps ∧ b.permits = a.permits ∧ b.reads = a.reads ∧
      b.writes = a.writes := by
  cases h with
  | inner c => cases c <;> exact ⟨rfl, rfl, rfl, rfl, rfl⟩
  | user => exact ⟨rfl, rfl, rfl, rfl, rfl⟩

theorem Signals.same {a : StreamPc μ} (h : Signals a b) :
    b.queued = a.queued ∧ b.sleeps = a.sleeps ∧ b.permits = a.permits ∧ b.reads = a.reads ∧
      b.writes = a.writes := by
  cases h with
  | enqueue => exact ⟨rfl, rfl, rfl, rfl, rfl⟩
  | close c => cases c <;> exact ⟨rfl, rfl, rfl, rfl, rfl⟩

/-- A step that only moves a fiber between places with the same permits. -/
theorem Exclusive.same (h : Exclusive s) (hpc : u.pc = Function.update s.pc t b)
    (hw : u.waitSem = s.waitSem) (hs : u.sem = s.sem) (hr : u.reads = s.reads)
    (hwr : u.writes = s.writes)
    (hsame : b.queued = (s.pc t).queued ∧ b.sleeps = (s.pc t).sleeps ∧
      b.permits = (s.pc t).permits ∧ b.reads = (s.pc t).reads ∧ b.writes = (s.pc t).writes) :
    Exclusive u := by
  obtain ⟨hq, ha, hp, hreads, hwrites⟩ := hsame
  apply h.keep hpc hw hs hq ha
  · rw [hp, hr, hwr]
  · rw [hreads, hr]
  · rw [hwrites, hwr]

/-! ### The semaphores -/

theorem wake_reads (x : StreamPc μ) : x.wake.reads = x.reads := by
  cases x <;> rfl

theorem wake_writes (x : StreamPc μ) : x.wake.writes = x.writes := by
  cases x <;> rfl

omit [Fintype T] in
theorem woken_nil {p : Permits T} {pc : T → StreamPc μ} (h : p.waiters = []) : woken p pc = pc := by
  rw [woken, h]

omit [Fintype T] in
theorem woken_cons {p : Permits T} {pc : T → StreamPc μ} {w : T} {ws : List T}
    (h : p.waiters = w :: ws) : woken p pc = Function.update pc w (pc w).wake := by
  rw [woken, h]

/-- The fibers that are woken count as before where waking makes no difference. -/
theorem tally_woken {q : StreamPc μ → Bool} (hq : ∀ x, q x.wake = q x) (p : Permits T)
    (pc : T → StreamPc μ) : tally q (woken p pc) = tally q pc := by
  cases hcons : p.waiters with
  | nil => rw [woken_nil hcons]
  | cons w ws =>
    rw [woken_cons hcons, tally_update, hq]
    omega

omit [Fintype T] in
/-- Who is not in the queue stays where he is. -/
theorem woken_of_not_mem {p : Permits T} {pc : T → StreamPc μ} (h : t ∉ p.waiters) :
    woken p pc t = pc t := by
  cases hcons : p.waiters with
  | nil => rw [woken_nil hcons]
  | cons w ws =>
    rw [hcons] at h
    rw [woken_cons hcons, Function.update_of_ne (List.ne_of_not_mem_cons h)]

/-- The permit that is given back is free or has gone to the first in the queue, who counts for one
more by `g`. -/
theorem total_woken {g : StreamPc μ → ℤ} {p : Permits T} {pc : T → StreamPc μ}
    (hg : ∀ w ∈ p.waiters, g (pc w).wake = g (pc w) + 1) :
    (p.give.free : ℤ) + total g (woken p pc) = p.free + total g pc + 1 := by
  cases hcons : p.waiters with
  | nil =>
    rw [woken_nil hcons, Permits.give_free_nil hcons]
    push_cast
    omega
  | cons w ws =>
    rw [woken_cons hcons, total_update, hg w (hcons ▸ List.mem_cons_self ..),
      Permits.give_free_cons hcons]
    omega

omit [Fintype T] in
/-- The queue that the permit was given back to. -/
theorem queued_give {p : Permits T} {q : StreamPc μ → Bool} {pc : T → StreamPc μ}
    (h : p.Queued fun i => q (pc i) = true) (hq : ∀ x, q x = true → q x.wake = false) :
    p.give.Queued fun i => q (woken p pc i) = true := by
  cases hcons : p.waiters with
  | nil =>
    rw [woken_nil hcons]
    exact h.give_nil hcons
  | cons w ws =>
    rw [woken_cons hcons]
    refine h.give_cons hcons fun j => ?_
    by_cases hj : j = w
    · rw [hj, Function.update_self, hq _ ((h.mem w).1 (hcons ▸ List.mem_cons_self ..))]
      simp
    · rw [Function.update_of_ne hj]
      exact (and_iff_left hj).symm

omit [Fintype T] in
/-- The other queue. -/
theorem queued_woken {p p' : Permits T} {q : StreamPc μ → Bool} {pc : T → StreamPc μ}
    (h : p.Queued fun i => q (pc i) = true) (hq : ∀ w ∈ p'.waiters, q (pc w).wake = q (pc w)) :
    p.Queued fun i => q (woken p' pc i) = true := by
  cases hcons : p'.waiters with
  | nil =>
    rw [woken_nil hcons]
    exact h
  | cons w ws =>
    rw [woken_cons hcons]
    exact queued_update h (hq w (hcons ▸ List.mem_cons_self ..))

omit [DecidableEq T] in
/-- What a queued fiber has when it is woken from the queue of `m_waitSem`. -/
theorem Exclusive.woken_wait (h : Exclusive s) {w : T} (hw : w ∈ s.waitSem.waiters) :
    (s.pc w).wake.permits = (s.pc w).permits + 1 ∧ (s.pc w).sleeps = false ∧
      (s.pc w).wake.sleeps = false := by
  have hq := (h.waitSem.mem w).1 hw
  cases hpc : s.pc w with
  | queued₁ | queued₂ => exact ⟨rfl, rfl, rfl⟩
  | _ =>
    rw [hpc] at hq
    cases hq

omit [DecidableEq T] in
theorem Exclusive.woken_sem (h : Exclusive s) {w : T} (hw : w ∈ s.sem.waiters) :
    s.pc w = .asleep := by
  have hq := (h.sem.mem w).1 hw
  cases hpc : s.pc w with
  | asleep => rfl
  | _ =>
    rw [hpc] at hq
    cases hq

theorem Gives.facts {a : StreamPc μ} (h : Gives a b) :
    a.queued = false ∧ a.sleeps = false ∧ b.queued = false ∧ b.sleeps = false ∧
      a.permits = b.permits + 1 ∧ b.reads = false ∧ b.writes = false := by
  cases h <;> exact ⟨rfl, rfl, rfl, rfl, rfl, rfl, rfl⟩

theorem Exclusive.notifyWait (h : Exclusive s) (hg : Gives (s.pc t) b) :
    Exclusive (s.notifyWait.goto t b) := by
  obtain ⟨hq, ha, hq', ha', hp, hr, hw⟩ := hg.facts
  have hnot : t ∉ s.waitSem.waiters := fun hmem => by
    rw [(h.waitSem.mem t).1 hmem] at hq
    cases hq
  have hpct : s.notifyWait.pc t = s.pc t := woken_of_not_mem hnot
  have htotal : (s.waitSem.give.free : ℤ) + total StreamPc.permits (woken s.waitSem s.pc) =
      s.waitSem.free + total StreamPc.permits s.pc + 1 :=
    total_woken fun w hmem => (h.woken_wait hmem).1
  have hpermits := h.permits
  have hreads := h.reads
  have hwrites := h.writes
  constructor
  · show (s.waitSem.give.free : ℤ) + s.reads + s.writes +
      total StreamPc.permits (Function.update s.notifyWait.pc t b) = 2
    rw [total_update, hpct]
    show (s.waitSem.give.free : ℤ) + s.reads + s.writes +
      (total StreamPc.permits (woken s.waitSem s.pc) - _ + _) = 2
    omega
  · show (s.reads : ℤ) + tally StreamPc.reads (Function.update (woken s.waitSem s.pc) t b) ≤ 1
    rw [tally_update, tally_woken wake_reads, hr]
    rw [Bool.toNat_false]
    omega
  · show (s.writes : ℤ) + tally StreamPc.writes (Function.update (woken s.waitSem s.pc) t b) ≤ 1
    rw [tally_update, tally_woken wake_writes, hw]
    rw [Bool.toNat_false]
    omega
  · refine queued_update (queued_give h.waitSem fun x hx => ?_) (hq'.trans (hpct ▸ hq).symm)
    cases x with
    | queued₁ | queued₂ => rfl
    | _ => cases hx
  · refine queued_update (queued_woken h.sem fun w hmem => ?_) (ha'.trans (hpct ▸ ha).symm)
    obtain ⟨-, hbefore, hafter⟩ := h.woken_wait hmem
    rw [hbefore, hafter]

theorem Exclusive.notifySem (h : Exclusive s) (hg : Signals (s.pc t) b) :
    Exclusive (s.notifySem.goto t b) := by
  obtain ⟨hq, ha, hp, hr, hw⟩ := hg.same
  have hnot : t ∉ s.sem.waiters := fun hmem => by
    rw [h.woken_sem hmem] at hg
    cases hg
  have hpct : s.notifySem.pc t = s.pc t := woken_of_not_mem hnot
  have hwoken : Exclusive s.notifySem := by
    have hpermits : ∀ x : StreamPc μ, x = .asleep → x.wake.permits = x.permits := by
      rintro x rfl
      rfl
    refine ⟨?_, ?_, ?_, queued_woken h.waitSem fun w hmem => ?_, queued_give h.sem fun x hx => ?_⟩
    · show (s.waitSem.free : ℤ) + s.reads + s.writes +
        total StreamPc.permits (woken s.sem s.pc) = 2
      rw [← h.permits]
      congr 1
      cases hcons : s.sem.waiters with
      | nil => rw [woken_nil hcons]
      | cons w ws =>
        rw [woken_cons hcons, total_update,
          hpermits _ (h.woken_sem (hcons ▸ List.mem_cons_self ..))]
        omega
    · exact le_of_eq_of_le (congrArg _ (tally_woken wake_reads _ _)) h.reads
    · exact le_of_eq_of_le (congrArg _ (tally_woken wake_writes _ _)) h.writes
    · rw [h.woken_sem hmem]
      rfl
    · cases x with
      | asleep => rfl
      | _ => cases hx
  refine hwoken.same rfl rfl rfl rfl rfl ?_
  rw [hpct]
  exact hg.same

theorem Takes.facts {a queued : StreamPc μ} (h : Takes a b queued) :
    a.queued = false ∧ a.sleeps = false ∧ b.queued = false ∧ b.sleeps = false ∧
      queued.queued = true ∧ queued.sleeps = false ∧ b.permits = a.permits + 1 ∧
      queued.permits = a.permits ∧ a.reads = false ∧ b.reads = false ∧ queued.reads = false ∧
      a.writes = false ∧ b.writes = false ∧ queued.writes = false := by
  cases h <;> exact ⟨rfl, rfl, rfl, rfl, rfl, rfl, rfl, rfl, rfl, rfl, rfl, rfl, rfl, rfl⟩

omit [Fintype T] in
/-- The queue that a fiber has joined. -/
theorem queued_wait {p : Permits T} {q : StreamPc μ → Bool} {pc : T → StreamPc μ}
    (h : p.Queued fun i => q (pc i) = true) (hfree : p.free = 0) (ha : q (pc t) = false)
    (hb : q b = true) : (p.wait t).Queued fun i => q (Function.update pc t b i) = true := by
  refine h.wait hfree (by rw [ha]; exact Bool.false_ne_true) fun j => ?_
  by_cases hj : j = t
  · rw [hj, Function.update_self, hb]
    simp
  · rw [Function.update_of_ne hj]
    exact (or_iff_left hj).symm

theorem Exclusive.takeWait {queued : StreamPc μ} (h : Exclusive s)
    (ht : Takes (s.pc t) b queued) : Exclusive (s.takeWait t b queued) := by
  obtain ⟨hq, ha, hbq, hba, hqq, hqa, hp, hp', hr, hbr, hqr, hw, hbw, hqw⟩ := ht.facts
  have hpermits := h.permits
  have hreads := h.reads
  have hwrites := h.writes
  unfold AsyncSocketStream.takeWait
  split_ifs with hfree
  · refine ⟨?_, ?_, ?_, queued_update h.waitSem.take (hbq.trans hq.symm),
      queued_update h.sem (hba.trans ha.symm)⟩
    · show ((s.waitSem.free - 1 : ℕ) : ℤ) + s.reads + s.writes +
        total StreamPc.permits (Function.update s.pc t b) = 2
      rw [total_update]
      omega
    · show (s.reads : ℤ) + tally StreamPc.reads (Function.update s.pc t b) ≤ 1
      rw [tally_update, hr, hbr]
      omega
    · show (s.writes : ℤ) + tally StreamPc.writes (Function.update s.pc t b) ≤ 1
      rw [tally_update, hw, hbw]
      omega
  · refine ⟨?_, ?_, ?_, queued_wait h.waitSem (by omega) hq hqq,
      queued_update h.sem (hqa.trans ha.symm)⟩
    · show (s.waitSem.free : ℤ) + s.reads + s.writes +
        total StreamPc.permits (Function.update s.pc t queued) = 2
      rw [total_update]
      omega
    · show (s.reads : ℤ) + tally StreamPc.reads (Function.update s.pc t queued) ≤ 1
      rw [tally_update, hr, hqr]
      omega
    · show (s.writes : ℤ) + tally StreamPc.writes (Function.update s.pc t queued) ≤ 1
      rw [tally_update, hw, hqw]
      omega

theorem Exclusive.takeSem (h : Exclusive s) (hpc : s.pc t = .wait) : Exclusive (s.takeSem t) := by
  unfold AsyncSocketStream.takeSem
  split_ifs with hfree
  · have hswap : Exclusive (s.goto t .swap) := by
      refine h.same rfl rfl rfl rfl rfl ?_
      rw [hpc]
      exact ⟨rfl, rfl, rfl, rfl, rfl⟩
    exact ⟨hswap.permits, hswap.reads, hswap.writes, hswap.waitSem, hswap.sem.take⟩
  · have hpermits := h.permits
    have hreads := h.reads
    have hwrites := h.writes
    refine ⟨?_, ?_, ?_, queued_update h.waitSem (by rw [hpc]; rfl),
      queued_wait h.sem (by omega) (by rw [hpc]; rfl) rfl⟩
    · show (s.waitSem.free : ℤ) + s.reads + s.writes +
        total StreamPc.permits (Function.update s.pc t .asleep) = 2
      rw [total_update, hpc]
      exact (congrArg _ (sub_add_cancel _ _)).trans hpermits
    · show (s.reads : ℤ) + tally StreamPc.reads (Function.update s.pc t .asleep) ≤ 1
      rw [tally_update, hpc]
      exact (congrArg _ (sub_add_cancel _ _)).trans_le hreads
    · show (s.writes : ℤ) + tally StreamPc.writes (Function.update s.pc t .asleep) ≤ 1
      rw [tally_update, hpc]
      exact (congrArg _ (sub_add_cancel _ _)).trans_le hwrites

theorem Exclusive.startRead (h : Exclusive s) (hpc : s.pc t = .startRead) :
    Exclusive { s.goto t .startWrite with reads := s.reads + 1 } := by
  obtain ⟨hr, hw, htr, htw⟩ := h.connects (t := t) (by rw [hpc]; rfl)
  have hpermits := h.permits
  refine ⟨?_, ?_, ?_, queued_update h.waitSem (by rw [hpc]; rfl),
    queued_update h.sem (by rw [hpc]; rfl)⟩
  · show (s.waitSem.free : ℤ) + (s.reads + 1 : ℕ) + s.writes +
      total StreamPc.permits (Function.update s.pc t .startWrite) = 2
    rw [total_update, hpc]
    show (s.waitSem.free : ℤ) + (s.reads + 1 : ℕ) + s.writes +
      (total StreamPc.permits s.pc - 2 + 1) = 2
    omega
  · show ((s.reads + 1 : ℕ) : ℤ) + tally StreamPc.reads (Function.update s.pc t .startWrite) ≤ 1
    rw [tally_update, hpc, hr, htr]
    exact le_rfl
  · show (s.writes : ℤ) + tally StreamPc.writes (Function.update s.pc t .startWrite) ≤ 1
    rw [tally_update, hpc, hw, htw]
    exact le_rfl

theorem Exclusive.step (h : Exclusive s) (hst : Stepped s t u) : Exclusive u := by
  cases hst with
  | move hm => exact h.same rfl rfl rfl rfl rfl hm.same
  | reconnect hpc =>
    refine h.same rfl rfl rfl rfl rfl ?_
    rw [hpc]
    exact ⟨rfl, rfl, rfl, rfl, rfl⟩
  | startRead hpc => exact h.startRead hpc
  | startWrite hpc =>
    refine h.keep rfl rfl rfl ?_ ?_ ?_ ?_ ?_ <;> rw [hpc]
    · rfl
    · rfl
    · show (s.reads : ℤ) + (s.writes + 1 : ℕ) + 0 = s.reads + s.writes + 1
      omega
    · rfl
    · rfl
  | doRead hpc hpos =>
    refine h.keep rfl rfl rfl ?_ ?_ ?_ ?_ ?_ <;> rw [hpc]
    · rfl
    · rfl
    · show ((s.reads - 1 : ℕ) : ℤ) + s.writes + 1 = s.reads + s.writes + 0
      omega
    · show ((s.reads - 1 : ℕ) : ℤ) + 1 = s.reads + 0
      omega
    · rfl
  | doWrite hpc hpos =>
    refine h.keep rfl rfl rfl ?_ ?_ ?_ ?_ ?_ <;> rw [hpc]
    · rfl
    · rfl
    · show (s.reads : ℤ) + (s.writes - 1 : ℕ) + 1 = s.reads + s.writes + 0
      omega
    · rfl
    · show ((s.writes - 1 : ℕ) : ℤ) + 1 = s.writes + 0
      omega
  | takeWait ht => exact h.takeWait ht
  | notifyWait hg => exact h.notifyWait hg
  | takeSem hpc => exact h.takeSem hpc
  | notifySem hg => exact h.notifySem hg
  | clear hc => exact h.same rfl rfl rfl rfl rfl hc.same
  | close hc => exact h.same rfl rfl rfl rfl rfl hc.same
  | push m hpc =>
    refine h.same rfl rfl rfl rfl rfl ?_
    rw [hpc]
    split_ifs <;> exact ⟨rfl, rfl, rfl, rfl, rfl⟩
  | swap hpc | sent m ms hpc | failed ms hpc | threw ms hpc =>
    refine h.same rfl rfl rfl rfl rfl ?_
    rw [hpc]
    exact ⟨rfl, rfl, rfl, rfl, rfl⟩

omit [DecidableEq T] in
theorem exclusive_new (connected : Bool) :
    Exclusive ({ connected := connected } : AsyncSocketStream T μ) := by
  have hzero : ∀ q : StreamPc μ → Bool, q .idle = false →
      tally q (fun _ : T => StreamPc.idle) = 0 := fun q hq => (tally_eq_zero_iff _ _).2 fun _ => hq
  refine ⟨?_, ?_, ?_, ⟨List.nodup_nil, fun h => absurd rfl h, fun _ => ?_⟩,
    ⟨List.nodup_nil, fun h => absurd rfl h, fun _ => ?_⟩⟩
  · simp [total, StreamPc.permits]
  · simp [hzero StreamPc.reads rfl]
  · simp [hzero StreamPc.writes rfl]
  · simp [StreamPc.queued]
  · simp [StreamPc.sleeps]

theorem exclusive_of_reach {connected : Bool}
    (h : Reach step free ({ connected := connected } : AsyncSocketStream T μ) s) : Exclusive s := by
  refine h.invariant (exclusive_new connected) fun v l u hv _ hst => ?_
  obtain ⟨t, hst⟩ := exists_stepped hst
  exact hv.step hst

omit [DecidableEq T] in
/-- A `start` that waits for a permit has somebody to wait for, if it is the only one. -/
theorem Exclusive.served (h : Exclusive s) (hq : (s.pc t).queued = true)
    (hone : ∀ v, (s.pc v).starts = true → v = t) : 0 < s.reads ∨ 0 < s.writes ∨
      ∃ v, (s.pc v).reads = true ∨ (s.pc v).writes = true := by
  by_contra hnone
  push Not at hnone
  obtain ⟨hreads, hwrites, hnobody⟩ := hnone
  have hfree : s.waitSem.free = 0 := by
    apply h.waitSem.tight
    exact List.ne_nil_of_mem ((h.waitSem.mem t).2 hq)
  have htotal : total StreamPc.permits s.pc = (s.pc t).permits := by
    refine Finset.sum_eq_single t (fun v _ hv => ?_) fun hmem => absurd (Finset.mem_univ t) hmem
    apply StreamPc.permits_eq_zero
    · exact Bool.eq_false_iff.2 fun hs => hv (hone v hs)
    · exact Bool.eq_false_iff.2 (hnobody v).1
    · exact Bool.eq_false_iff.2 (hnobody v).2
  have hle : (s.pc t).permits ≤ 1 := by
    cases hpc : s.pc t with
    | queued₁ | queued₂ => simp [StreamPc.permits]
    | _ =>
      rw [hpc] at hq
      cases hq
  have hpermits := h.permits
  omega

/-- In every run there is at most one `doRead` and one `doWrite`, scheduled or under way, and neither
of them while a `start` connects. A `start` that waits in `waitFiber` waits for one of them, unless
another `start` is under way as well. -/
theorem one_connection {connected : Bool}
    (h : Reach step free ({ connected := connected } : AsyncSocketStream T μ) s) :
    (∀ t v, (s.pc t).reads = true → s.reads = 0 ∧ ((s.pc v).reads = true → t = v)) ∧
    (∀ t v, (s.pc t).writes = true → s.writes = 0 ∧ ((s.pc v).writes = true → t = v)) ∧
    (∀ t v, (s.pc t).connects = true → s.reads = 0 ∧ s.writes = 0 ∧ (s.pc v).reads = false ∧
      (s.pc v).writes = false ∧ ((s.pc v).connects = true → t = v)) ∧
    ∀ t, (s.pc t).queued = true → (∀ v, (s.pc v).starts = true → v = t) → 0 < s.reads ∨
      0 < s.writes ∨ ∃ v, (s.pc v).reads = true ∨ (s.pc v).writes = true := by
  have hex := exclusive_of_reach h
  have hreads := hex.reads
  have hwrites := hex.writes
  refine ⟨fun t v ht => ?_, fun t v ht => ?_, fun t v ht => ?_, fun t hq hone => hex.served hq hone⟩
  · have hcount := one_le_tally ht
    exact ⟨by omega, eq_of_tally_le_one (by omega) ht⟩
  · have hcount := one_le_tally ht
    exact ⟨by omega, eq_of_tally_le_one (by omega) ht⟩
  · obtain ⟨hr, hw, htr, htw⟩ := hex.connects ht
    exact ⟨hr, hw, (tally_eq_zero_iff _ _).1 htr v, (tally_eq_zero_iff _ _).1 htw v,
      eq_of_tally_le_one hex.connects_le ht⟩

/-- A connection is up, and a second `start` waits for both of its fibers. -/
theorem one_connection_second : ∃ s : AsyncSocketStream (Fin 3) ℕ, s.pc 1 = .queued₁ ∧
    (∃ v, (s.pc v).reads = true) ∧ s.writes = 1 ∧
    (0 < s.reads ∨ 0 < s.writes ∨ ∃ v, (s.pc v).reads = true ∨ (s.pc v).writes = true) := by
  have hr := reach_exec step (free (σ := AsyncSocketStream (Fin 3) ℕ)) { connected := false }
    [.call 0 .start, .next 0, .next 0, .outcome 0 true, .outcome 0 true, .next 0, .next 0, .doRead 2,
      .call 1 .start, .next 1] (by decide)
  refine ⟨_, ?_, ⟨2, ?_⟩, ?_, (one_connection hr).2.2.2 1 ?_ ?_⟩ <;> decide

/-- Two calls of `start` may each take one permit of `m_waitSem`, and wait for the other one. -/
theorem starts_stall : ∃ s : AsyncSocketStream (Fin 2) ℕ,
    Reach step free ({ connected := false } : AsyncSocketStream (Fin 2) ℕ) s ∧
      s.pc 0 = .queued₂ ∧ s.pc 1 = .queued₂ ∧ s.reads = 0 ∧ s.writes = 0 := by
  have hr := reach_exec step (free (σ := AsyncSocketStream (Fin 2) ℕ)) { connected := false }
    [.call 0 .start, .call 1 .start, .next 0, .next 1, .next 0, .next 1] (by decide)
  exact ⟨_, hr, by decide, by decide, by decide, by decide⟩

end AsyncSocketStream

end CoroutineScheduler.Streams
