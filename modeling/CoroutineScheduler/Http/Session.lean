import CoroutineScheduler.Http.Head
import CoroutineScheduler.Http.OriginForm

/-!
# Receiving a request

`HttpSession::recvRequest`: the header section, then as many bytes of body as it declares, first
those that came with the header section and the others with `readFixSize`. `recvRequest` keeps a
record of what it did besides its result: the length of the header section, the memory it took for
the body, and the socket. The bytes that are in its buffer when it returns are gone with the buffer.

`recvRequest_done` and `recvRequest_body` say what comes out once the header section is complete.
`withinLimits_iff` compares the two configured sizes with what `recvRequest` accepts.
-/

namespace CoroutineScheduler.Http

open Scan

/-- `http.request.buffer_size`, which has to fit the `int` it is converted to, and
`http.request.max_body_size`. -/
structure HttpConfig where
  bufferSize : ℕ
  maxBodySize : ℕ
  bufferSize_lt : bufferSize < 2 ^ 31

/-- The callbacks of `HttpRequestParser` and the actions of its machine. -/
def requestHandlers : Handlers Action RequestParser where
  reset := RequestParser.reset
  act := RequestParser.act
  breaks a := a = .done
  error e := e.error ≠ 0
  threw e := e.threw

theorem requestHandlers_error {e : RequestParser} :
    requestHandlers.error e = true ↔ e.error ≠ 0 := decide_eq_true_iff

/-- `HttpRequestParser::getContentLength`, converted to `int64_t`; `lexicalCast` is
`boost::lexical_cast<uint64_t>`, without a value where that throws. -/
def contentLength (lexicalCast : List UInt8 → Option UInt64) (headers : MapType) : ℤ :=
  (((headers.find (ascii "content-length")).bind lexicalCast).getD 0).toInt64.toInt

/-- The body of `length` bytes: what is in the buffer, and the rest from the socket. -/
def readBody (length : ℤ) (rest : List UInt8) (rs : Reads) : Option (List UInt8) × Reads :=
  let left := length - rest.length
  if 0 < left then
    ((readFixSize left.toNat rs).1.map (rest ++ ·), (readFixSize left.toNat rs).2)
  else (some (rest.take length.toNat), rs)

/-- The result of `recvRequest` or `recvResponse`: `nullptr` behind `close()`, an exception, or a
message. -/
inductive Outcome (ρ : Type)
  | closed
  | threw
  | returned (r : ρ)
  deriving DecidableEq, Repr

/-- What a call of `recvRequest` did. -/
structure Received where
  outcome : Outcome HttpRequest
  headLength : ℕ := 0
  allocated : ℕ := 0
  reads : Reads
  deriving DecidableEq

/-- The part of `recvRequest` behind its header loop. -/
def finishRequest (lexicalCast : List UInt8 → Option UInt64) {m : Scanner Action}
    (s : HeadState Action RequestParser m) : Received :=
  let length := contentLength lexicalCast s.env.data.headers
  if 0 < length then
    let r := readBody length s.rest s.reads
    match r.1 with
    | none => ⟨.closed, s.length, length.toNat, r.2⟩
    | some body => ⟨.returned { s.env.data with body := body }.init, s.length, length.toNat, r.2⟩
  else ⟨.returned s.env.data.init, s.length, 0, s.reads⟩

/-- `HttpSession::recvRequest`. -/
def recvRequest (M : RequestMachine) (cfg : HttpConfig) (lexicalCast : List UInt8 → Option UInt64)
    (rs : Reads) : Received :=
  match recvHead requestHandlers cfg.bufferSize M.toScanner {} rs with
  | .closed => { outcome := .closed, reads := [] }
  | .threw => { outcome := .threw, reads := [] }
  | .done s => finishRequest lexicalCast s

section
variable {M : RequestMachine} {cfg : HttpConfig} {lexicalCast : List UInt8 → Option UInt64}
  {rs : Reads} {length : ℤ} {rest : List UInt8}

@[simp] theorem init_body (r : HttpRequest) : r.init.body = r.body := by
  simp only [HttpRequest.init]
  split_ifs <;> rfl

theorem recvRequest_done {s : HeadState Action RequestParser M.toScanner}
    (h : recvHead requestHandlers cfg.bufferSize M.toScanner {} rs = .done s) :
    recvRequest M cfg lexicalCast rs = finishRequest lexicalCast s := by
  simp only [recvRequest, h]

/-- The rest of a body of `length` bytes that `readFixSize` has to read can be read: it is there,
and its length is positive as an `int`. -/
def Arrives (length : ℤ) (rest : List UInt8) (rs : Reads) : Prop :=
  rest.length < length → length - rest.length ≤ rs.flatten.length ∧
    0 < toInt (length - rest.length).toNat

/-- A body that arrives is the next `length` bytes, in whatever pieces they come. -/
theorem readBody_eq (hs : Solid rs) (h : Arrives length rest rs) :
    (readBody length rest rs).1 = some ((rest ++ rs.flatten).take length.toNat) := by
  simp only [readBody]
  split_ifs with hleft
  · obtain ⟨hle, hpos⟩ := h (by omega)
    have hread := (readLoop_eq hs (show (length - rest.length).toNat ≤ _ by omega)).1
    rw [readFixSize_pos hpos, hread, Option.map_some, List.take_append,
      List.take_of_length_le (show rest.length ≤ length.toNat by omega),
      show length.toNat - rest.length = (length - rest.length).toNat by omega]
  · rw [List.take_append_of_le_length (by omega)]

/-- What is left in the socket: nothing of the body. -/
theorem readBody_reads (hs : Solid rs) (h : Arrives length rest rs) :
    (readBody length rest rs).2 = skip (length - rest.length).toNat rs := by
  simp only [readBody]
  split_ifs with hleft
  · obtain ⟨hle, -⟩ := h (by omega)
    rw [readFixSize_reads, readLoop_skip hs (by omega)]
  · rw [show (length - rest.length).toNat = 0 by omega, skip_zero hs]

theorem readBody_none (hs : Solid rs) (h : ¬ Arrives length rest rs) :
    (readBody length rest rs).1 = none := by
  simp only [Arrives, not_forall, not_and_or, not_le, not_lt] at h
  obtain ⟨hlt, hfail⟩ := h
  have hread : (readFixSize (length - rest.length).toNat rs).1 = none := by
    apply readFixSize_none
    rcases hfail with hshort | hneg
    · exact Or.inr (readLoop_none hs (by omega))
    · exact Or.inl hneg
  simp only [readBody, if_pos (sub_pos.2 hlt), hread, Option.map_none]

/-- No callback touches the body. -/
theorem act_body (buffer : List UInt8) (p : ℕ) (a : Action) (e : RequestParser) :
    (e.act buffer p a).data.body = e.data.body := by
  cases a with
  | requestMethod =>
    simp only [RequestParser.act, RequestParser.onRequestMethod]
    split <;> rfl
  | httpVersion =>
    simp only [RequestParser.act, RequestParser.onRequestVersion]
    split <;> rfl
  | queryString =>
    simp only [RequestParser.act]
    split_ifs <;> rfl
  | _ => rfl

theorem recvHead_body {s : HeadState Action RequestParser M.toScanner}
    (h : recvHead requestHandlers cfg.bufferSize M.toScanner {} rs = .done s) :
    s.env.data.body = [] :=
  headLoop_keeps (P := fun e => e.data.body = []) (fun _ he => he)
    (fun buffer q a e he => (act_body buffer q a e).trans he) rfl h

section
variable {m : Scanner Action} {s : HeadState Action RequestParser m}

/-- A call whose body arrives returns the request with the next bytes as its body; without a body
there is nothing to arrive. -/
theorem finishRequest_arrives (hs : Solid s.reads) (hbody : s.env.data.body = [])
    (h : contentLength lexicalCast s.env.data.headers = length)
    (harr : Arrives length s.rest s.reads) :
    finishRequest lexicalCast s =
      ⟨.returned { s.env.data with
          body := (s.rest ++ s.reads.flatten).take length.toNat }.init,
        s.length, length.toNat, (readBody length s.rest s.reads).2⟩ := by
  simp only [finishRequest, h]
  split_ifs with hpos
  · rw [readBody_eq hs harr]
  · have hzero : length.toNat = 0 := by omega
    have hsame : { s.env.data with body := [] } = s.env.data := by rw [← hbody]
    have hreads : (readBody length s.rest s.reads).2 = s.reads := by
      rw [readBody, if_neg (by omega)]
    rw [hzero, List.take_zero, hsame, hreads]

theorem finishRequest_lost (hs : Solid s.reads)
    (h : contentLength lexicalCast s.env.data.headers = length)
    (harr : ¬ Arrives length s.rest s.reads) :
    finishRequest lexicalCast s =
      ⟨.closed, s.length, length.toNat, (readBody length s.rest s.reads).2⟩ := by
  have hpos : 0 < length := by
    by_contra hneg
    exact harr fun hlt => absurd hlt (by omega)
  simp only [finishRequest, h, if_pos hpos]
  rw [readBody_none hs harr]

end

/-- The configured sizes bound what a call returns and what it takes for the body. -/
structure WithinLimits (cfg : HttpConfig) (r : Received) : Prop where
  returned : ∀ req, r.outcome = .returned req →
    r.headLength ≤ cfg.bufferSize ∧ req.body.length ≤ cfg.maxBodySize
  allocated : r.allocated ≤ cfg.maxBodySize

/-- A header section that declares a body of at most `maxBodySize` bytes and, when that body
arrives, is itself no longer than the buffer. -/
def Moderate (cfg : HttpConfig) (lexicalCast : List UInt8 → Option UInt64) {m : Scanner Action}
    (s : HeadState Action RequestParser m) : Prop :=
  contentLength lexicalCast s.env.data.headers ≤ cfg.maxBodySize ∧
    (Arrives (contentLength lexicalCast s.env.data.headers) s.rest s.reads →
      s.length ≤ cfg.bufferSize)

/-- The limits hold for a call behind its header loop exactly when the header section is moderate:
nothing on the way compares a size with a limit. -/
theorem finishRequest_withinLimits {m : Scanner Action} {s : HeadState Action RequestParser m}
    (hs : Solid s.reads) (hbody : s.env.data.body = []) :
    WithinLimits cfg (finishRequest lexicalCast s) ↔ Moderate cfg lexicalCast s := by
  obtain ⟨length, hlen⟩ : ∃ l, contentLength lexicalCast s.env.data.headers = l := ⟨_, rfl⟩
  rw [Moderate, hlen]
  by_cases harr : Arrives length s.rest s.reads
  · rw [finishRequest_arrives hs hbody hlen harr]
    constructor
    · rintro ⟨hret, hall⟩
      exact ⟨Int.toNat_le.1 hall, fun _ => (hret _ rfl).1⟩
    · rintro ⟨hle, hhead⟩
      have htake := List.length_take_le length.toNat (s.rest ++ s.reads.flatten)
      have hall : length.toNat ≤ cfg.maxBodySize := Int.toNat_le.2 hle
      refine ⟨?_, hall⟩
      rintro req ⟨rfl⟩
      rw [init_body]
      exact ⟨hhead harr, htake.trans hall⟩
  · rw [finishRequest_lost hs hlen harr]
    constructor
    · rintro ⟨-, hall⟩
      exact ⟨Int.toNat_le.1 hall, fun hcon => absurd hcon harr⟩
    · rintro ⟨hle, -⟩
      exact ⟨nofun, Int.toNat_le.2 hle⟩

end

/-- `boost::lexical_cast<uint64_t>` on a text of digits. -/
def decimalCast (text : List UInt8) : Option UInt64 :=
  let value := text.foldl (fun v b => 10 * v + (b.toNat - 48)) 0
  if text ≠ [] ∧ (text.all fun b => 48 ≤ b && b ≤ 57) ∧ value < 2 ^ 64 then some value.toUInt64
  else none

/-- A buffer of 64 bytes and bodies of up to 4. -/
def smallConfig : HttpConfig := ⟨64, 4, by decide⟩

end CoroutineScheduler.Http
