import CoroutineScheduler.Lib.Trans
import CoroutineScheduler.Http.Connection

/-!
# A pool of connections

`HttpConnectionPool` with its users. A call of `getConnection` is cut at its reading of the clock, at
the section under `m_mutex`, at every `delete`, at `connect` and at the changes of `m_total`; the
deleter `ReleasePtr` is cut in the same way. What a user does with a connection in `doRequest` is one
step for `sendRequest` and one for `recvResponse`.
-/

namespace CoroutineScheduler.Http

/-- The address of an `HttpConnection`. -/
abbrev ConnPtr := ℕ

/-- How far `doRequest` has come with a connection. -/
inductive Stage
  | ready | sent | finished
  deriving DecidableEq, Repr

/-- The fields of `HttpConnection` that the pool uses, with the time at which it was made and the
stage of the request on it. -/
structure Conn where
  createTime : ℕ := 0
  request : ℕ := 0
  connected : Bool := true
  born : ℕ
  stage : Stage := .ready
  deriving DecidableEq, Repr

structure PoolConfig where
  maxSize : ℕ
  maxAliveTime : ℕ
  maxRequest : ℕ

/-- What happens to connections: one is made, is taken out of the idle list, is found unfit in
`getConnection` or `ReleasePtr`, has bytes of a request written to it, or has a request fail. -/
inductive PoolEvent
  | made (p : ConnPtr)
  | taken (now : ℕ) (p : ConnPtr) (c : Conn)
  | discarded (now : ℕ) (c : Conn)
  | wrote (p : ConnPtr) (data sent : List UInt8)
  | failed (p : ConnPtr)
  deriving DecidableEq, Repr

/-- The place of a user in the pool: outside, or in front of a section of `getConnection` (up to
`count`) or of `ReleasePtr`. -/
inductive PoolPc
  | idle
  | lock (now : ℕ)
  | delete (invalid : List ConnPtr) (n : ℕ) (ptr : Option ConnPtr)
  | connect
  | count (p : ConnPtr)
  | drop (p : ConnPtr)
  | uncount
  | push (p : ConnPtr)
  deriving DecidableEq, Repr

structure Pool (T : Type) where
  conns : List ConnPtr
  heap : ConnPtr → Conn
  total : ℤ
  pc : T → PoolPc
  /-- The connections handed out and not released, with their users. -/
  out : List (T × ConnPtr)
  /-- The connections deleted so far. -/
  deleted : List ConnPtr
  fresh : ℕ
  clock : ℕ
  /-- The events so far, the last one in front. -/
  log : List PoolEvent

inductive PoolLabel (T : Type)
  | getConnection (t : T) (now : ℕ)
  | connect (t : T) (now : ℕ) (ok : Bool)
  | release (t u : T) (p : ConnPtr) (now : ℕ)
  | next (t : T)
  | close (u : T) (p : ConnPtr)
  | send (u : T) (p : ConnPtr) (data : List UInt8) (room : List ℕ)
  | recv (u : T) (p : ConnPtr) (outcome : ResponseOutcome)

/-- The loop of `getConnection` over `m_conns`: the connections that are not fit, the one that is, and
the list that stays. -/
def popLoop (cfg : PoolConfig) (heap : ConnPtr → Conn) (now : ℕ) :
    List ConnPtr → List ConnPtr × Option ConnPtr × List ConnPtr
  | [] => ([], none, [])
  | p :: ps =>
    if (heap p).connected = false ∨ now < (heap p).createTime + cfg.maxAliveTime then
      let r := popLoop cfg heap now ps
      (p :: r.1, r.2)
    else ([], some p, ps)

/-- `HttpConnection::sendRequest`: whether its result is positive, and what was sent. -/
def sendRequest (c : Conn) (data : List UInt8) (room : List ℕ) : Bool × List UInt8 :=
  if c.connected then
    let r := writeFixSize data ⟨room, []⟩
    (r.1, r.2.sent)
  else (false, [])

namespace Pool

variable {T : Type} [DecidableEq T]

def start : Pool T := ⟨[], fun _ => { born := 0 }, 0, fun _ => .idle, [], [], 0, 0, []⟩

def goto (s : Pool T) (t : T) (pc : PoolPc) : Pool T := { s with pc := Function.update s.pc t pc }

def setConn (s : Pool T) (p : ConnPtr) (c : Conn) : Pool T :=
  { s with heap := Function.update s.heap p c }

/-- `getConnection` under the lock. -/
def lockGet (cfg : PoolConfig) (s : Pool T) (t : T) (now : ℕ) : Pool T :=
  let r := popLoop cfg s.heap now s.conns
  let u := { s.goto t (.delete r.1 r.1.length r.2.1) with
    conns := r.2.2
    log := r.1.map (fun p => .discarded now (s.heap p)) ++ s.log }
  match r.2.1 with
  | none => u
  | some p =>
    { u.setConn p { s.heap p with stage := .ready } with log := .taken now p (s.heap p) :: u.log }

/-- `new HttpConnection(sock)`, with the socket connected. -/
def make (s : Pool T) (t : T) (now : ℕ) : Pool T :=
  { (s.goto t (.count s.fresh)).setConn s.fresh { born := now } with
    fresh := s.fresh + 1
    log := .made s.fresh :: s.log }

/-- The first part of `ReleasePtr`: the connection is deleted or goes back into the list. -/
def releasePtr (cfg : PoolConfig) (s : Pool T) (t u : T) (p : ConnPtr) (now : ℕ) : Pool T :=
  let c := { s.heap p with request := (s.heap p).request + 1 }
  let v := { s.setConn p c with out := s.out.erase (u, p), clock := now }
  if c.connected = false ∨ now ≤ c.createTime + cfg.maxAliveTime ∨ cfg.maxRequest ≤ c.request then
    { v.goto t (.drop p) with log := .discarded now c :: s.log }
  else v.goto t (.push p)

/-- The next step of a user in the pool. -/
def next (cfg : PoolConfig) (s : Pool T) (t : T) : Option (Pool T) :=
  match s.pc t with
  | .idle | .connect => none
  | .lock now => some (s.lockGet cfg t now)
  | .delete (p :: invalid) n ptr =>
    some { s.goto t (.delete invalid n ptr) with deleted := p :: s.deleted }
  | .delete [] n none => some { s.goto t .connect with total := s.total - n }
  | .delete [] n (some p) =>
    some { s.goto t .idle with total := s.total - n, out := (t, p) :: s.out }
  | .count p => some { s.goto t .idle with total := s.total + 1, out := (t, p) :: s.out }
  | .drop p => some { s.goto t .uncount with deleted := p :: s.deleted }
  | .uncount => some { s.goto t .idle with total := s.total - 1 }
  | .push p => some { s.goto t .idle with conns := s.conns ++ [p] }

/-- `sendRequest` in `doRequest`. -/
def send (s : Pool T) (p : ConnPtr) (data : List UInt8) (room : List ℕ) : Pool T :=
  let r := sendRequest (s.heap p) data room
  let log := .wrote p data r.2 :: s.log
  if r.1 then { s.setConn p { s.heap p with stage := .sent } with log := log }
  else { s.setConn p { s.heap p with stage := .finished } with log := .failed p :: log }

/-- `recvResponse` in `doRequest`: a read of a closed socket fails, and `nullptr` is returned behind
`close()` only. -/
def recvIn (s : Pool T) (p : ConnPtr) (outcome : ResponseOutcome) : Pool T :=
  if (s.heap p).connected = false ∨ outcome = .closed then
    { s.setConn p { s.heap p with stage := .finished, connected := false } with
      log := .failed p :: s.log }
  else s.setConn p { s.heap p with stage := .finished }

def step (cfg : PoolConfig) (s : Pool T) : PoolLabel T → Option (Pool T)
  | .getConnection t now =>
    if s.pc t = .idle ∧ s.clock ≤ now then some { s.goto t (.lock now) with clock := now } else none
  | .connect t now ok =>
    if s.pc t = .connect ∧ s.clock ≤ now then
      some { (if ok then s.make t now else s.goto t .idle) with clock := now }
    else none
  | .release t u p now =>
    if s.pc t = .idle ∧ (u, p) ∈ s.out ∧ s.clock ≤ now then some (s.releasePtr cfg t u p now)
    else none
  | .next t => s.next cfg t
  | .close u p =>
    if (u, p) ∈ s.out then some (s.setConn p { s.heap p with connected := false }) else none
  | .send u p data room =>
    if (u, p) ∈ s.out ∧ (s.heap p).stage = .ready then some (s.send p data room) else none
  | .recv u p outcome =>
    if (u, p) ∈ s.out ∧ (s.heap p).stage = .sent then some (s.recvIn p outcome) else none

end Pool

end CoroutineScheduler.Http
