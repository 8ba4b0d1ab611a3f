import CoroutineScheduler.Http.Session
import CoroutineScheduler.Http.ChunkForm

/-!
# Receiving a response

`HttpConnection::recvResponse`. Behind the header section a chunked body is received in three nested
loops; they are embedded as one machine with a step for each round of an inner loop: a round that
looks for a size line in the buffer (`lineStep`), with the copying that follows a complete one, and a
round that reads data directly behind the body (`directStep`). A step keeps a record of the
operations on lengths that the source makes, in their order; the run ends at an exception or at an
`int` that overflows.
-/

namespace CoroutineScheduler.Http

open Scan

/-- The callbacks of `HttpResponseParser` and the actions of its machine. -/
def responseHandlers : Handlers ResponseAction ResponseParser where
  reset := ResponseParser.reset
  act := ResponseParser.act
  breaks a := a = .done
  error e := e.error ≠ 0
  threw _ := false

/-- An operation of the chunk loop: a use of `content_len`, the result of an `int` operation,
`body.append(data, count)` with `len` bytes in the buffer, `memmove(data, data + source, count)`,
a new value of `len`, and the argument of `body.resize`. -/
inductive ChunkOp
  | use (contentLen : ℤ)
  | int (value : ℤ)
  | append (count : ℤ) (len : ℕ)
  | move (source count : ℤ)
  | len (value : ℤ)
  | size (value : ℤ)
  deriving DecidableEq, Repr

/-- The bytes in the buffer, the body so far, the parser and the socket. -/
structure ChunkState where
  buf : List UInt8
  body : List UInt8
  env : ResponseParser
  reads : Reads

/-- At a size line, for the first time or not, or with `left` bytes to be read directly. -/
inductive Phase
  | line (first : Bool)
  | direct (left : ℤ)
  deriving DecidableEq, Repr

inductive ChunkNext
  | closed
  | threw
  | overflow
  | done (s : ChunkState)
  | go (p : Phase) (s : ChunkState)

structure ChunkStep where
  ops : List ChunkOp
  next : ChunkNext

/-- The end of a round of the outer loop: `while(!client_parser.chunks_done)`. -/
def chunkDone (s : ChunkState) : ChunkNext :=
  if s.env.chunksDone then .done s else .go (.line true) s

/-- What follows a complete size line. -/
def chunkData (s : ChunkState) : ChunkStep :=
  let c := s.env.contentLen
  let len := s.buf.length
  let test := [.use c, .int (c + 2)]
  if 2 ^ 31 ≤ c + 2 then ⟨test, .overflow⟩
  else if c + 2 ≤ len then
    -- `append` takes a `size_t`: a negative length is longer than any string
    if c < 0 then ⟨test ++ [.use c, .append c len], .threw⟩
    else
      ⟨test ++ [.use c, .append c len, .use c, .int (len - c), .int (len - c - 2),
          .move (c + 2) (len - c - 2), .use c, .int (c + 2), .len (len - (c + 2))],
        chunkDone { s with buf := s.buf.drop (c + 2).toNat, body := s.body ++ s.buf.take c.toNat }⟩
  else
    ⟨test ++ [.append len len, .use c, .int (c - len), .int (c - len + 2)],
      .go (.direct (c - len + 2)) { s with buf := [], body := s.body ++ s.buf }⟩

/-- A round of the loop for a size line reads if the buffer is empty or was not enough. -/
def lineReads (first : Bool) (s : ChunkState) : Bool := !first || s.buf = []

def lineRead (buffSize : ℕ) (first : Bool) (s : ChunkState) : List UInt8 × Reads :=
  if lineReads first s then recv (buffSize - s.buf.length) s.reads else ([], s.reads)

/-- `parser->execute(data, len, true)`: the parser is initialised anew for every call. -/
def lineCall (M : ResponseMachine) (buffSize : ℕ) (first : Bool) (s : ChunkState) :
    Halt ResponseAction ResponseParser M.toScanner :=
  execute responseHandlers (s.buf ++ (lineRead buffSize first s).1) M.start s.env.init

/-- A round of the loop for a size line, with what follows a complete one. -/
def lineStep (M : ResponseMachine) (buffSize : ℕ) (first : Bool) (s : ChunkState) : ChunkStep :=
  let r := lineRead buffSize first s
  let buf := s.buf ++ r.1
  let h := lineCall M buffSize first s
  let s' : ChunkState := ⟨buf.drop h.pos, s.body, h.env, r.2⟩
  let t := chunkData s'
  if lineReads first s ∧ r.1 = [] then ⟨[], .closed⟩
  else if h.stop = .failed ∨ h.env.error ≠ 0 then ⟨[.len buf.length], .closed⟩
  else if s'.buf.length = buffSize then ⟨[.len buf.length, .len s'.buf.length], .closed⟩
  else if M.final h.cs then ⟨[.len buf.length, .len s'.buf.length] ++ t.ops, t.next⟩
  else ⟨[.len buf.length, .len s'.buf.length], .go (.line false) s'⟩

/-- A round of `while(left > 0)`, with what follows the last one. -/
def directStep (buffSize : ℕ) (left : ℤ) (s : ChunkState) : ChunkStep :=
  let r := recv (min left.toNat buffSize) s.reads
  let body := s.body ++ r.1
  let left' := left - r.1.length
  let read : List ChunkOp := [.append r.1.length r.1.length, .int left']
  let resize : List ChunkOp := [.size (body.length - 2)]
  if r.1 = [] then ⟨[], .closed⟩
  else if 0 < left' then ⟨read, .go (.direct left') { s with body := body, reads := r.2 }⟩
  else if body.length < 2 then ⟨read ++ resize, .threw⟩
  else
    ⟨read ++ resize ++ [.len 0],
      chunkDone { s with buf := [], body := body.take (body.length - 2), reads := r.2 }⟩

def chunkStep (M : ResponseMachine) (buffSize : ℕ) : Phase → ChunkState → ChunkStep
  | .line first, s => lineStep M buffSize first s
  | .direct left, s => directStep buffSize left s

inductive ChunkEnd
  | closed
  | threw
  | overflow
  | done (s : ChunkState)

structure ChunkRun where
  ops : List ChunkOp
  ending : ChunkEnd

/-- The loops, with a bound on the number of steps. -/
def chunkRun (M : ResponseMachine) (buffSize : ℕ) : ℕ → Phase → ChunkState → ChunkRun
  | 0, _, _ => ⟨[], .closed⟩
  | fuel + 1, p, s =>
    let t := chunkStep M buffSize p s
    match t.next with
    | .closed => ⟨t.ops, .closed⟩
    | .threw => ⟨t.ops, .threw⟩
    | .overflow => ⟨t.ops, .overflow⟩
    | .done s' => ⟨t.ops, .done s'⟩
    | .go p' s' =>
      let r := chunkRun M buffSize fuel p' s'
      ⟨t.ops ++ r.ops, r.ending⟩

/-- The state in which the loops start behind a header section. -/
def HeadState.chunks {M : ResponseMachine}
    (s : HeadState ResponseAction ResponseParser M.toScanner) : ChunkState :=
  ⟨s.rest, [], s.env, s.reads⟩

/-- A bound on the steps from a state: every step goes over at least one byte. -/
def ChunkState.fuel (s : ChunkState) : ℕ := (s.buf ++ s.reads.flatten).length + 1

/-- The loops behind a header section. -/
def recvChunks (M : ResponseMachine) (buffSize : ℕ)
    (s : HeadState ResponseAction ResponseParser M.toScanner) : ChunkRun :=
  chunkRun M buffSize s.chunks.fuel (.line true) s.chunks

/-- The result of `recvResponse`. -/
inductive ResponseOutcome
  | closed
  | threw
  | overflow
  | returned (r : HttpResponse)
  deriving DecidableEq, Repr

/-- What a call of `recvResponse` did. -/
structure ReceivedResponse where
  outcome : ResponseOutcome
  ops : List ChunkOp := []

/-- The response with its body; an empty one is not set. -/
def setBody (data : HttpResponse) (body : List UInt8) : HttpResponse :=
  if body = [] then data else { data with body := body }

/-- The part of `recvResponse` behind its header loop. -/
def finishResponse (M : ResponseMachine) (buffSize : ℕ)
    (lexicalCast : List UInt8 → Option UInt64)
    (s : HeadState ResponseAction ResponseParser M.toScanner) : ReceivedResponse :=
  if s.env.chunked then
    let r := recvChunks M buffSize s
    match r.ending with
    | .closed => ⟨.closed, r.ops⟩
    | .threw => ⟨.threw, r.ops⟩
    | .overflow => ⟨.overflow, r.ops⟩
    | .done t => ⟨.returned (setBody t.env.data t.body), r.ops⟩
  else
    let length := contentLength lexicalCast s.env.data.headers
    if 0 < length then
      match (readBody length s.rest s.reads).1 with
      | none => { outcome := .closed }
      | some body => { outcome := .returned (setBody s.env.data body) }
    else { outcome := .returned s.env.data }

/-- `HttpConnection::recvResponse`. -/
def recvResponse (M : ResponseMachine) (cfg : HttpConfig)
    (lexicalCast : List UInt8 → Option UInt64) (rs : Reads) : ReceivedResponse :=
  match recvHead responseHandlers cfg.bufferSize M.toScanner {} rs with
  | .closed => { outcome := .closed }
  | .threw => { outcome := .threw }
  | .done s => finishResponse M cfg.bufferSize lexicalCast s

end CoroutineScheduler.Http
