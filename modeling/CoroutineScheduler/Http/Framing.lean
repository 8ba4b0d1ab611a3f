import CoroutineScheduler.Http.Segments

/-!
# Several requests on one connection

`HttpServer::handleClient` calls `recvRequest` in a loop on one session. Every call has a buffer of
its own, and what the buffer still holds when the call returns is gone. `framing_iff`: the loop
receives a list of messages, each with nothing but the following messages left in the socket,
exactly when the first read of every call ends inside the message of that call.
-/

namespace CoroutineScheduler.Http

open Scan

/-- `HttpServer::handleClient`, with a bound on its rounds: the requests it receives, each with the
bytes that are still in the socket then. -/
def handleClient (M : RequestMachine) (cfg : HttpConfig) (lexicalCast : List UInt8 → Option UInt64)
    (isKeepalive : Bool) : ℕ → Reads → List (HttpRequest × List UInt8)
  | 0, _ => []
  | fuel + 1, rs =>
    let r := recvRequest M cfg lexicalCast rs
    match r.outcome with
    | .returned req =>
      (req, r.reads.flatten) ::
        if !isKeepalive || req.close then []
        else handleClient M cfg lexicalCast isKeepalive fuel r.reads
    | _ => []

/-- A well-formed request: a header section that the machine accepts as a whole and that fits the
buffer, and a body of the length it declares. -/
structure Message (M : RequestMachine) (cfg : HttpConfig)
    (lexicalCast : List UInt8 → Option UInt64) where
  head : List UInt8
  body : List UInt8
  complete : (execute requestHandlers head M.start {}).stop = .broke
  ends : (execute requestHandlers head M.start {}).pos = head.length
  valid : (execute requestHandlers head M.start {}).env.error = 0
  fits : head.length ≤ cfg.bufferSize
  declares : contentLength lexicalCast
    (execute requestHandlers head M.start {}).env.data.headers = body.length

section
variable {M : RequestMachine} {cfg : HttpConfig} {lexicalCast : List UInt8 → Option UInt64}

namespace Message

/-- The serialisation of a message. -/
def bytes (m : Message M cfg lexicalCast) : List UInt8 := m.head ++ m.body

/-- The request of a message, as `recvRequest` returns it. -/
def request (m : Message M cfg lexicalCast) : HttpRequest :=
  { (execute requestHandlers m.head M.start {}).env.data with body := m.body }.init

theorem length_bytes (m : Message M cfg lexicalCast) :
    m.bytes.length = m.head.length + m.body.length := List.length_append

theorem head_pos (m : Message M cfg lexicalCast) : 0 < m.head.length := by
  have hpos : 0 < (execute requestHandlers m.head M.start {}).pos := exec_pos_broke m.complete
  rwa [m.ends] at hpos

end Message

/-- The messages one behind the other. -/
def stream (ms : List (Message M cfg lexicalCast)) : List UInt8 := (ms.map Message.bytes).flatten

/-- What `handleClient` is to receive: the messages in order, before each of them nothing lost and
behind it nothing but the messages that follow. -/
def expected : List (Message M cfg lexicalCast) → List (HttpRequest × List UInt8)
  | [] => []
  | m :: ms => (m.request, stream ms) :: expected ms

/-- All requests but the last keep the connection open. -/
def KeptAlive : List (Message M cfg lexicalCast) → Prop
  | [] => True
  | m :: ms => (ms ≠ [] → m.request.close = false) ∧ KeptAlive ms

/-- No header section is cut: the piece with its first byte holds all of it. -/
def WholeHeads : List (Message M cfg lexicalCast) → Reads → Prop
  | [], _ => True
  | m :: ms, rs => m.head.length ≤ (rs.headD []).length ∧ WholeHeads ms (skip m.bytes.length rs)

/-- The read with the header section of a message ends inside that message, and what is left of the
message has a length that is positive as an `int`. -/
def Aligned : List (Message M cfg lexicalCast) → Reads → Prop
  | [], _ => True
  | m :: ms, rs =>
    let read := (recv cfg.bufferSize rs).1.length
    read ≤ m.bytes.length ∧ (read < m.bytes.length → 0 < toInt (m.bytes.length - read)) ∧
      Aligned ms (skip m.bytes.length rs)

variable {rs : Reads} {m : Message M cfg lexicalCast} {ms : List (Message M cfg lexicalCast)}

/-- The call of `execute` on a buffer that starts with the header section of a message. -/
theorem Message.execute_append (m : Message M cfg lexicalCast) (tail : List UInt8) :
    (execute requestHandlers (m.head ++ tail) M.start {}).stop = .broke ∧
      (execute requestHandlers (m.head ++ tail) M.start {}).pos = m.head.length ∧
      (execute requestHandlers (m.head ++ tail) M.start {}).env.error = 0 ∧
      (execute requestHandlers (m.head ++ tail) M.start {}).env.threw = false ∧
      (execute requestHandlers (m.head ++ tail) M.start {}).env.data =
        (execute requestHandlers m.head M.start {}).env.data := by
  have hrel := execute_agrees [] tail beside_start (M.start_untorn m.head)
  obtain ⟨c, q, f, henv⟩ := hrel.env
  have hstop := hrel.stop_eq.trans m.complete
  have hcall : execute requestHandlers (m.head ++ tail) M.start {} =
      exec M.toScanner (RequestParser.act ([] ++ (m.head ++ tail))) requestHandlers.breaks 0 m.head
        M.start {} := exec_append_stop fun hcon => absurd (hstop.symm.trans hcon) (by decide)
  rw [hcall]
  refine ⟨hstop, hrel.pos_eq.trans ?_, henv.error.trans m.valid, henv.threw', henv.data⟩
  rw [m.ends, List.length_nil, Nat.zero_add]

/-- A call whose first read holds the header section of a message has done with the header section
in one round. -/
theorem Message.recvHead_eq {more : List UInt8} (hbytes : rs.flatten = m.head ++ more)
    (hwhole : m.head.length ≤ (recv cfg.bufferSize rs).1.length) :
    ∃ s, recvHead requestHandlers cfg.bufferSize M.toScanner {} rs = .done s ∧
      s.env.data = (execute requestHandlers m.head M.start {}).env.data ∧
      s.rest = (recv cfg.bufferSize rs).1.drop m.head.length ∧
      s.reads = (recv cfg.bufferSize rs).2 := by
  obtain ⟨tail, htail⟩ : ∃ tail, m.head ++ tail = (recv cfg.bufferSize rs).1 := by
    have hfront : m.head <+: rs.flatten := ⟨more, hbytes.symm⟩
    exact List.prefix_of_prefix_length_le hfront ⟨_, recv_append cfg.bufferSize rs⟩ hwhole
  let s₀ : HeadState Action RequestParser M.toScanner := ⟨[], M.start, {}, 0, rs⟩
  have hbuffer : s₀.buffer cfg.bufferSize = m.head ++ tail := htail.symm
  obtain ⟨hstop, hpos, herr, hthrew, hdata⟩ := m.execute_append tail
  rw [← hbuffer] at hstop hpos herr hthrew hdata
  have hhead := m.head_pos
  have hread : (s₀.read cfg.bufferSize).1 ≠ [] := by
    apply List.ne_nil_of_length_pos
    exact hhead.trans_le hwhole
  have hfinal : M.final (execute requestHandlers (s₀.buffer cfg.bufferSize) M.start {}).cs = true :=
    exec_broke_final (fun h => (RequestMachine.final_breaks h).2) hstop
  have hrest : (s₀.past requestHandlers cfg.bufferSize).rest =
      (recv cfg.bufferSize rs).1.drop m.head.length := by
    show (s₀.buffer cfg.bufferSize).drop
      (execute requestHandlers (s₀.buffer cfg.bufferSize) M.start {}).pos = _
    rw [hpos, hbuffer, htail]
  have hturn : headTurn requestHandlers cfg.bufferSize s₀ =
      .done (s₀.past requestHandlers cfg.bufferSize) := by
    refine (headTurn_ok hread hthrew (by rw [hstop]; exact nofun) ?_ ?_).trans (if_pos hfinal)
    · exact Bool.eq_false_iff.2 fun hcon => requestHandlers_error.1 hcon herr
    · have hle := recv_length_le cfg.bufferSize rs
      rw [hrest, List.length_drop]
      omega
  exact ⟨s₀.past requestHandlers cfg.bufferSize, headLoop_done hturn, hdata, hrest, rfl⟩

/-- The first call on a stream of messages, with the header section in its first read. The request
is the one of the message as soon as the rest of its body can be read; the bytes of the read behind
the message are lost. -/
theorem Message.recvRequest_eq (hs : Solid rs) (hbytes : rs.flatten = m.bytes ++ stream ms)
    (hwhole : m.head.length ≤ (recv cfg.bufferSize rs).1.length)
    (hcount : (recv cfg.bufferSize rs).1.length < m.bytes.length →
      0 < toInt (m.bytes.length - (recv cfg.bufferSize rs).1.length)) :
    (recvRequest M cfg lexicalCast rs).outcome = .returned m.request ∧
      (recvRequest M cfg lexicalCast rs).reads =
        skip (max (recv cfg.bufferSize rs).1.length m.bytes.length) rs := by
  have hsplit := recv_append cfg.bufferSize rs
  have hlen := congrArg List.length hsplit
  rw [List.length_append, hbytes, List.length_append, m.length_bytes] at hlen
  rw [m.length_bytes] at hcount ⊢
  obtain ⟨s, hhead, hdata, hrest, hreads⟩ := Message.recvHead_eq
    (hbytes.trans (List.append_assoc ..)) hwhole
  have hcontent : contentLength lexicalCast s.env.data.headers = m.body.length := by
    rw [hdata, m.declares]
  have hsolid := (headLoop_advances hhead).solid hs
  have hrestlen : s.rest.length = (recv cfg.bufferSize rs).1.length - m.head.length := by
    rw [hrest, List.length_drop]
  have harr : Arrives m.body.length s.rest s.reads := by
    intro hlt
    rw [hreads]
    refine ⟨by omega, ?_⟩
    rw [show ((m.body.length : ℤ) - s.rest.length).toNat =
      m.head.length + m.body.length - (recv cfg.bufferSize rs).1.length by omega]
    exact hcount (by omega)
  have hbody : (s.rest ++ s.reads.flatten).take (m.body.length : ℤ).toNat = m.body := by
    rw [hrest, hreads, ← List.drop_append_of_le_length hwhole, hsplit, hbytes, Message.bytes,
      List.append_assoc, List.drop_left, Int.toNat_natCast, List.take_left]
  rw [recvRequest_done hhead, finishRequest_arrives hsolid (recvHead_body hhead) hcontent harr,
    hbody, hdata]
  refine ⟨rfl, ?_⟩
  show (readBody m.body.length s.rest s.reads).2 = _
  rw [readBody_reads hsolid harr, hreads, recv_skip hs, skip_skip hs]
  congr 1
  omega

/-- Where the length of what is left of the message is not positive as an `int`, the call fails. -/
theorem Message.recvRequest_closed (hs : Solid rs) (hbytes : rs.flatten = m.bytes ++ stream ms)
    (hwhole : m.head.length ≤ (recv cfg.bufferSize rs).1.length)
    (hlt : (recv cfg.bufferSize rs).1.length < m.bytes.length)
    (hneg : toInt (m.bytes.length - (recv cfg.bufferSize rs).1.length) ≤ 0) :
    (recvRequest M cfg lexicalCast rs).outcome = .closed := by
  rw [m.length_bytes] at hlt hneg
  obtain ⟨s, hhead, hdata, hrest, -⟩ := Message.recvHead_eq
    (hbytes.trans (List.append_assoc ..)) hwhole
  have hcontent : contentLength lexicalCast s.env.data.headers = m.body.length := by
    rw [hdata, m.declares]
  have hrestlen : s.rest.length = (recv cfg.bufferSize rs).1.length - m.head.length := by
    rw [hrest, List.length_drop]
  have harr : ¬ Arrives m.body.length s.rest s.reads := by
    intro h
    have hpos := (h (by omega)).2
    rw [show ((m.body.length : ℤ) - s.rest.length).toNat =
      m.head.length + m.body.length - (recv cfg.bufferSize rs).1.length by omega] at hpos
    exact absurd hpos (not_lt.2 hneg)
  rw [recvRequest_done hhead,
    finishRequest_lost ((headLoop_advances hhead).solid hs) hcontent harr]

theorem handleClient_returned {isKeepalive : Bool} {fuel : ℕ} {req : HttpRequest}
    (h : (recvRequest M cfg lexicalCast rs).outcome = .returned req) :
    handleClient M cfg lexicalCast isKeepalive (fuel + 1) rs =
      (req, (recvRequest M cfg lexicalCast rs).reads.flatten) ::
        if !isKeepalive || req.close then []
        else handleClient M cfg lexicalCast isKeepalive fuel
          (recvRequest M cfg lexicalCast rs).reads := by
  simp only [handleClient, h]

theorem handleClient_closed {isKeepalive : Bool} {fuel : ℕ}
    (h : (recvRequest M cfg lexicalCast rs).outcome = .closed) :
    handleClient M cfg lexicalCast isKeepalive (fuel + 1) rs = [] := by
  simp only [handleClient, h]

/-- Nothing is received from a stream without bytes. -/
theorem handleClient_nil {isKeepalive : Bool} {fuel : ℕ} (hs : Solid rs) (h : rs.flatten = []) :
    handleClient M cfg lexicalCast isKeepalive fuel rs = [] := by
  obtain rfl : rs = [] := by
    cases rs with
    | nil => rfl
    | cons c rs => exact absurd (List.append_eq_nil_iff.1 h).1 (hs c (List.mem_cons_self ..))
  cases fuel with
  | zero => rfl
  | succ fuel => exact handleClient_closed rfl

theorem stream_cons : stream (m :: ms) = m.bytes ++ stream ms := by
  rw [stream, List.map_cons, List.flatten_cons]
  rfl

/-- A header section in one piece that fits the buffer comes with one read. -/
theorem head_le_recv (h : m.head.length ≤ (rs.headD []).length) :
    m.head.length ≤ (recv cfg.bufferSize rs).1.length := by
  have hfits := m.fits
  cases rs with
  | nil => exact h
  | cons c rs =>
    rw [List.headD_cons] at h
    simp only [recv, List.length_take]
    omega

theorem handleClient_iff {fuel : ℕ} (hs : Solid rs) (hbytes : rs.flatten = stream ms)
    (hfuel : rs.flatten.length < fuel) (hkept : KeptAlive ms) (hwhole : WholeHeads ms rs) :
    handleClient M cfg lexicalCast true fuel rs = expected ms ↔ Aligned ms rs := by
  induction ms generalizing rs fuel with
  | nil =>
    rw [handleClient_nil hs hbytes]
    exact iff_of_true rfl trivial
  | cons m ms ih =>
    obtain ⟨fuel, rfl⟩ := Nat.exists_eq_succ_of_ne_zero (Nat.ne_of_gt (Nat.zero_lt_of_lt hfuel))
    obtain ⟨hhead, hwhole⟩ := hwhole
    obtain ⟨hclose, hkept⟩ := hkept
    rw [stream_cons] at hbytes
    have hread := head_le_recv hhead
    have hlen := congrArg List.length hbytes
    rw [List.length_append] at hlen
    simp only [Aligned]
    by_cases hcount : (recv cfg.bufferSize rs).1.length < m.bytes.length →
        0 < toInt (m.bytes.length - (recv cfg.bufferSize rs).1.length)
    · obtain ⟨hout, hreads⟩ := Message.recvRequest_eq hs hbytes hread hcount
      rw [handleClient_returned hout, hreads, expected, flatten_skip, hbytes]
      by_cases hle : (recv cfg.bufferSize rs).1.length ≤ m.bytes.length
      · -- the call ends where the next message starts
        have hnext : (skip m.bytes.length rs).flatten = stream ms := by
          rw [flatten_skip, hbytes, List.drop_left]
        have hfuel' : (skip m.bytes.length rs).flatten.length < fuel := by
          have hpos := m.head_pos
          have hmlen := m.length_bytes
          rw [hnext]
          omega
        have hloop : (if !true || m.request.close then []
            else handleClient M cfg lexicalCast true fuel (skip m.bytes.length rs)) =
            handleClient M cfg lexicalCast true fuel (skip m.bytes.length rs) := by
          split_ifs with hbreak
          · have hlast : ms = [] := by
              by_contra hne
              simp [hclose hne] at hbreak
            subst hlast
            rw [handleClient_nil hs.skip hnext]
          · rfl
        have hrest := ih hs.skip hnext hfuel' hkept hwhole
        rw [max_eq_right hle, List.drop_left, List.cons_eq_cons, hloop, hrest]
        exact ⟨fun h => ⟨hle, hcount, h.2⟩, fun h => ⟨rfl, h.2.2⟩⟩
      · -- bytes of the next message are in the buffer of this call
        refine iff_of_false (fun h => ?_) fun h => hle h.1
        have hsnd := congrArg (fun p => List.length p.2) (List.cons_eq_cons.1 h).1
        simp only [List.length_drop, List.length_append] at hsnd
        have hle' := recv_length_le cfg.bufferSize rs
        have hsplit := congrArg List.length (recv_append cfg.bufferSize rs)
        rw [List.length_append] at hsplit
        omega
    · rw [Classical.not_imp, not_lt] at hcount
      rw [handleClient_closed (Message.recvRequest_closed hs hbytes hread hcount.1 hcount.2)]
      exact iff_of_false nofun fun h => absurd (h.2.1 hcount.1) (not_lt.2 hcount.2)

end

/-- On a connection that is kept alive, with no header section cut by the segmentation, the loop of
`handleClient` receives exactly the messages of the stream if and only if every message is
aligned. -/
theorem framing_iff (M : RequestMachine) (cfg : HttpConfig)
    (lexicalCast : List UInt8 → Option UInt64) (ms : List (Message M cfg lexicalCast)) (rs : Reads)
    (hs : Solid rs) (hbytes : rs.flatten = stream ms) (hkept : KeptAlive ms)
    (hwhole : WholeHeads ms rs) :
    handleClient M cfg lexicalCast true (rs.flatten.length + 1) rs = expected ms ↔ Aligned ms rs :=
  handleClient_iff hs hbytes (Nat.lt_succ_self _) hkept hwhole

/-- A request without a body that keeps the connection. -/
def ping : Message originForm smallConfig decimalCast where
  head := ascii "GET /a HTTP/1.1\r\nConnection: keep-alive\r\n\r\n"
  body := []
  complete := by decide
  ends := by decide
  valid := by decide
  fits := by decide
  declares := by decide

/-- A request with a body. -/
def post : Message originForm smallConfig decimalCast where
  head := ascii "POST /b HTTP/1.1\r\nContent-Length: 3\r\n\r\n"
  body := ascii "abc"
  complete := by decide
  ends := by decide
  valid := by decide
  fits := by decide
  declares := by decide

/-- Two messages, the second one with its body in two pieces. -/
theorem framing_pieces :
    handleClient originForm smallConfig decimalCast true
        ([ping.bytes, post.head ++ ascii "a", ascii "bc"].flatten.length + 1)
        [ping.bytes, post.head ++ ascii "a", ascii "bc"] = expected [ping, post] :=
  (framing_iff originForm smallConfig decimalCast [ping, post] _ (by decide) (by decide)
    ⟨fun _ => by decide, nofun, trivial⟩ ⟨by decide, by decide, trivial⟩).2
    ⟨by decide, by decide, by decide, by decide, trivial⟩

/-- Both messages in one piece: the bytes of the second one that come with the first one are lost,
and the rest of it is no request. -/
theorem second_message_lost :
    Solid [stream [ping, post]] ∧ KeptAlive [ping, post] ∧
      WholeHeads [ping, post] [stream [ping, post]] ∧
      handleClient originForm smallConfig decimalCast true
        ([stream [ping, post]].flatten.length + 1) [stream [ping, post]] ≠ expected [ping, post] := by
  refine ⟨by decide, ⟨fun _ => by decide, nofun, trivial⟩, ⟨by decide, by decide, trivial⟩, ?_⟩
  decide

end CoroutineScheduler.Http
