import CoroutineScheduler.Http.ResponseDelivery

/-!
# A client and a server on one connection

`HttpServer::handleClient` gives every request it receives to its servlets and sends the response they
make. The client sends a request and receives the response before it sends the next one, so the bytes
of a request come in pieces of their own, and so do those of a response. `conversation` is about both
ends: the responses that the server sends are those for the requests of the client, in order, and the
client gets them as they were sent.
-/

open Splice Lines

namespace CoroutineScheduler.Http

open Uri (decimal)

/-- The part of an `HttpServer` that its answers depend on: its name, whether it keeps connections, and
what its servlets make of a request and of the response they are given. -/
structure HttpServer where
  name : List UInt8
  isKeepalive : Bool
  handle : HttpRequest → HttpResponse → HttpResponse

/-- The response to a request, as `handleClient` sends it. -/
def HttpServer.answer (v : HttpServer) (req : HttpRequest) : HttpResponse :=
  v.handle req { version := req.version, close := req.close || !v.isKeepalive,
                 headers := MapType.set (ascii "Server") v.name [] }

/-- The responses that `handleClient` sends on a connection. -/
def HttpServer.responses (v : HttpServer) (cfg : HttpConfig) (rs : Reads) : List HttpResponse :=
  (handleClient originForm cfg decimalCast v.isKeepalive (rs.flatten.length + 1) rs).map
    fun p => v.answer p.1

section
variable {cfg : HttpConfig} {q : Sendable cfg} {qs : List (Sendable cfg)} {rs rest : Reads}
  {ups : List Reads}

/-- The pieces of a request. -/
abbrev Uploads (q : Sendable cfg) (rs : Reads) : Prop :=
  Pieces cfg (headText q.request) q.request.dump rs

theorem headD_append (h : rs ≠ []) : (rs ++ rest).headD [] = rs.headD [] := by
  cases rs with
  | nil => exact absurd rfl h
  | cons c rs => rfl

theorem recv_append_left (h : rs ≠ []) (n : ℕ) : (recv n (rs ++ rest)).1 = (recv n rs).1 := by
  cases rs with
  | nil => exact absurd rfl h
  | cons c rs => rfl

theorem Uploads.ne_nil (h : Uploads q rs) : rs ≠ [] :=
  Pieces.ne_nil h (List.ne_nil_of_length_pos q.message.head_pos)

theorem solid_uploads (h : List.Forall₂ Uploads qs ups) : Solid ups.flatten := by
  induction h with
  | nil => exact fun c hc => absurd hc List.not_mem_nil
  | cons hq _ ih =>
    rw [List.flatten_cons]
    intro c hc
    rcases List.mem_append.1 hc with hc | hc
    · exact hq.solid c hc
    · exact ih c hc

theorem bytes_uploads (h : List.Forall₂ Uploads qs ups) :
    ups.flatten.flatten = qs.flatMap fun q => q.request.dump := by
  induction h with
  | nil => rfl
  | cons hq _ ih => rw [List.flatten_cons, List.flatten_append, hq.bytes, ih, List.flatMap_cons]

/-- Behind the bytes of a message come the pieces of the next one. -/
theorem skip_upload (h : Uploads q rs) (hrest : Solid rest) :
    skip q.message.bytes.length (rs ++ rest) = rest := by
  rw [q.message_bytes, ← h.bytes]
  exact skip_append h.solid hrest

theorem wholeHeads_uploads (h : List.Forall₂ Uploads qs ups) :
    WholeHeads (qs.map Sendable.message) ups.flatten := by
  induction h with
  | nil => trivial
  | cons hq htail ih =>
    rw [List.flatten_cons, List.map_cons]
    refine ⟨?_, ?_⟩
    · rw [headD_append hq.ne_nil]
      exact hq.whole
    · rw [skip_upload hq (solid_uploads htail)]
      exact ih

/-- A read does not go over the end of a request: the next one is not sent before the response. -/
theorem aligned_uploads (h : List.Forall₂ Uploads qs ups) :
    Aligned (qs.map Sendable.message) ups.flatten := by
  induction h with
  | nil => trivial
  | cons hq htail ih =>
    rw [List.flatten_cons, List.map_cons]
    simp only [Aligned]
    rw [recv_append_left hq.ne_nil, skip_upload hq (solid_uploads htail)]
    have hle := congrArg List.length (recv_append cfg.bufferSize _ |>.trans hq.bytes)
    rw [List.length_append] at hle
    rw [Sendable.message_bytes]
    exact ⟨by omega, hq.count, ih⟩

theorem deliveries_fst (qs : List (Sendable cfg)) :
    (deliveries qs).map Prod.fst = qs.map Sendable.arrived := by
  induction qs with
  | nil => rfl
  | cons q qs ih => rw [deliveries, List.map_cons, ih, List.map_cons]

/-- The server answers the requests of the client as they were sent, in order. -/
theorem responses_uploads {v : HttpServer} (hkeep : v.isKeepalive = true)
    (hkept : ∀ q ∈ qs.dropLast, q.request.close = false) (h : List.Forall₂ Uploads qs ups) :
    v.responses cfg ups.flatten = qs.map fun q => v.answer q.arrived := by
  have hbytes := (bytes_uploads h).trans (stream_message qs).symm
  have hrun := (handleClient_iff (solid_uploads h) hbytes (Nat.lt_succ_self _) (keptAlive_message hkept)
    (wholeHeads_uploads h)).2 (aligned_uploads h)
  rw [HttpServer.responses, hkeep, hrun, expected_message]
  have hmap : (fun p : HttpRequest × List UInt8 => v.answer p.1) = v.answer ∘ Prod.fst := rfl
  rw [hmap, ← List.map_map, deliveries_fst, List.map_map]
  rfl

/-- The pieces of a response. -/
abbrev Downloads (cfg : HttpConfig) (r : HttpResponse) (rs : Reads) : Prop :=
  Pieces cfg (responseHead r) r.dump rs

theorem recvResponse_downloads {out : List HttpResponse} {downs : List Reads}
    (hans : ∀ r ∈ out, Answerable cfg r) (h : List.Forall₂ (Downloads cfg) out downs) :
    downs.map (fun rs => (recvResponse responseForm cfg decimalCast rs).outcome) =
      out.map fun r => .returned r.arrived := by
  induction h with
  | nil => rfl
  | cons hr _ ih =>
    rw [List.map_cons, List.map_cons, recvResponse_pieces (hans _ (List.mem_cons_self ..)) hr,
      ih fun r hmem => hans r (List.mem_cons_of_mem _ hmem)]

end

/-- A client that sends each request when it has the response to the one before gets for every request
the response that the server made for it, whatever the pieces in which the bytes come in either
direction, as long as the first piece of a message holds its header section. The headers of the
response are those the server gave it, with the two that `dump` writes itself and the last of its
cookies. -/
theorem conversation (cfg : HttpConfig) (v : HttpServer) (qs : List (Sendable cfg))
    (ups downs : List Reads) (hkeep : v.isKeepalive = true)
    (hkept : ∀ q ∈ qs.dropLast, q.request.close = false) (hups : List.Forall₂ Uploads qs ups)
    (hans : ∀ q ∈ qs, Answerable cfg (v.answer q.arrived))
    (hdowns : List.Forall₂ (Downloads cfg) (v.responses cfg ups.flatten) downs) :
    (downs.map fun rs => (recvResponse responseForm cfg decimalCast rs).outcome) =
        (qs.map fun q => .returned (v.answer q.arrived).arrived) ∧
      ∀ q ∈ qs, ∀ key, (v.answer q.arrived).arrived.headers.find key =
        if folded key = folded (ascii "connection") then
          some (ascii (if (v.answer q.arrived).close then "close" else "keep-alive"))
        else if folded key = folded (ascii "content-length") then
          if (v.answer q.arrived).body ≠ [] then some (decimal (v.answer q.arrived).body.length)
          else none
        else (if folded key = folded (ascii "Set-Cookie") then (v.answer q.arrived).cookies.getLast?
          else none).or
            (((v.answer q.arrived).headers.reverse.find? fun f => folded f.1 = folded key).map
              Prod.snd) := by
  rw [responses_uploads hkeep hkept hups] at hdowns
  refine ⟨?_, fun q hq key => find_written (hans q hq).regular key⟩
  have hall : ∀ r ∈ qs.map fun q => v.answer q.arrived, Answerable cfg r := by
    intro r hr
    obtain ⟨q, hq, rfl⟩ := List.mem_map.1 hr
    exact hans q hq
  rw [recvResponse_downloads hall hdowns, List.map_map]
  rfl

/-- A server that sends the body of the request back. -/
def echoServer : HttpServer where
  name := ascii "e"
  isKeepalive := true
  handle req rsp := { rsp with body := req.body }

/-- A buffer for the header sections of these texts. -/
def echoConfig : HttpConfig := ⟨128, 4, by decide⟩

/-- A request that fits it. -/
def echoed (q : Sendable smallConfig) : Sendable echoConfig where
  request := q.request
  plain := q.plain
  fits := q.fits.trans (by decide)
  short := q.short

theorem echo_answerable {r : HttpResponse} (hw : r.websocket = false) (hstatus : r.status = 200)
    (hversion : r.version = 0x11) (hreason : r.reason = []) (hcookies : r.cookies = [])
    (hheaders : r.headers = [(ascii "Server", ascii "e")])
    (hfits : (responseHead r).length ≤ 128) (hshort : r.body.length < 2 ^ 63) :
    Answerable echoConfig r := by
  refine ⟨⟨hw, ?_, .inl hversion, ?_, ?_, ?_⟩, hfits, hshort⟩
  · rw [hstatus]
    decide
  · rw [hreason]
    exact fun b hb => absurd hb List.not_mem_nil
  · rw [hheaders]
    intro h hh
    rw [List.mem_singleton.1 hh]
    exact ⟨header_of_all (by decide) (by decide) (by decide) (by decide) (by decide) (by decide),
      by decide⟩
  · rw [hcookies]
    exact fun b hb => absurd hb List.not_mem_nil

/-- Two requests, the second one and the response to it in two pieces. -/
theorem conversation_two :
    ([[(echoServer.answer (echoed sentPing).arrived).dump],
        [responseHead (echoServer.answer (echoed sentPost).arrived) ++ ascii "a", ascii "bc"]].map
      fun rs => (recvResponse responseForm echoConfig decimalCast rs).outcome) =
      ([echoed sentPing, echoed sentPost].map
        fun q => .returned (echoServer.answer q.arrived).arrived) := by
  refine (conversation echoConfig echoServer [echoed sentPing, echoed sentPost]
    [[sentPing.request.dump], [headText sentPost.request ++ ascii "a", ascii "bc"]] _ rfl
    (fun q hq => by rw [List.mem_singleton.1 hq]; rfl) ?_ ?_ ?_).1
  · exact .cons ⟨by decide, by decide, by decide, by decide⟩
      (.cons ⟨by decide, by decide, by decide, by decide⟩ .nil)
  · intro q hq
    rcases List.mem_cons.1 hq with rfl | hq
    · exact echo_answerable rfl rfl rfl rfl rfl (by decide) (by decide) (by decide)
    · rw [List.mem_singleton.1 hq]
      exact echo_answerable rfl rfl rfl rfl rfl (by decide) (by decide) (by decide)
  · have hsent : echoServer.responses echoConfig [[sentPing.request.dump],
        [headText sentPost.request ++ ascii "a", ascii "bc"]].flatten =
        [echoServer.answer (echoed sentPing).arrived, echoServer.answer (echoed sentPost).arrived] := by
      decide
    rw [hsent]
    exact .cons ⟨by decide, by decide, by decide, by decide⟩
      (.cons ⟨by decide, by decide, by decide, by decide⟩ .nil)

end CoroutineScheduler.Http
