import CoroutineScheduler.Http.ResponseText

/-!
# Both directions of a connection

`HttpServer::handleClient` answers a request with what its servlets make of it, `sendResponse` writes
`dump`, and `HttpConnection::recvResponse` reads. `recvResponse_pieces` says that a response comes out
as it was sent; with `requests_delivered` this is `conversation`: a client that sends its next request
when it has the response to the last one gets, for each request, the response that was made for it.
-/

open Scan Splice Lines

namespace CoroutineScheduler.Http

open Uri (decimal digits_decimal)

open ResponseForm (lower digit token space)

/-! ## The header section of a response -/

section
variable {r : HttpResponse} {s : ResponseForm.State} {d : HttpResponse} {e : ResponseParser}

theorem header_of_all {name value : List UInt8} (hne : name ≠ []) (htoken : name.all token = true)
    (hplain : lower name ≠ ascii "transfer-encoding")
    (hbytes : value.all (fun b => b ≠ 10 ∧ b ≠ 13) = true)
    (hfront : value.head?.all (fun b => !space b) = true)
    (hvalue : lower name = ascii "connection" ∨ lower name = ascii "content-length" → value ≠ []) :
    Header (name, value) := by
  refine ⟨hne, List.all_eq_true.1 htoken, hplain, fun b hb => ?_, fun b hb => ?_, hvalue⟩
  · exact of_decide_eq_true (List.all_eq_true.1 hbytes b hb)
  · rw [Option.mem_def.1 hb] at hfront
    exact Bool.not_eq_true' _ ▸ hfront

theorem header_connection (close : Bool) :
    Header (ascii "connection", ascii (if close then "close" else "keep-alive")) := by
  apply header_of_all (by decide) (by decide) (by decide)
  · cases close <;> decide
  · cases close <;> decide
  · intro _
    cases close <;> decide

theorem not_space_of_digit : ∀ c, Uri.digit c = true → space c = false :=
  Wire.forall_byte (by decide +kernel)

theorem header_contentLength (n : ℕ) : Header (ascii "content-length", decimal n) := by
  have hdigit := digits_decimal n
  have hname : ascii "content-length" ≠ [] ∧ (ascii "content-length").all token = true ∧
      lower (ascii "content-length") ≠ ascii "transfer-encoding" := by decide
  refine ⟨hname.1, List.all_eq_true.1 hname.2.1, hname.2.2, fun b hb => ?_, fun b hb => ?_,
    fun _ => decimal_ne_nil n⟩
  · exact ⟨ne_of_class (hdigit b hb) (by decide), ne_of_class (hdigit b hb) (by decide)⟩
  · exact not_space_of_digit b (hdigit b (List.mem_of_mem_head? hb))

theorem writtenFields_header (h : Regular r) : ∀ f ∈ writtenFields r, Header f := by
  intro f hf
  unfold writtenFields at hf
  rcases List.mem_append.1 hf with hf | hf
  · rcases List.mem_append.1 hf with hf | hf
    · rcases List.mem_append.1 hf with hf | hf
      · exact (h.headers f (List.mem_of_mem_filter hf)).1
      · obtain ⟨c, hc, rfl⟩ := List.mem_map.1 hf
        exact h.cookies c hc
    · rw [List.mem_singleton.1 hf]
      exact header_connection r.close
  · split_ifs at hf
    · rw [List.mem_singleton.1 hf]
      exact header_contentLength _
    · cases hf

/-- The empty line ends the header section, behind any line. -/
theorem runFrom_responseEnd (hs : s = .fields ∨ s = .closeFields) (pre tail : List UInt8)
    (he : Got d e) : ∃ e', Got d e' ∧
      runFrom (m := ResponseForm.scanner) ResponseParser.act responseHandlers.breaks pre
        (crlf ++ tail) s e = ⟨.done, e', pre.length + 1 + 1, .broke⟩ := by
  rcases hs with rfl | rfl
  · exact ⟨e, he, rfl⟩
  · exact ⟨{ e with close := true }, he, rfl⟩

/-- The response that the header section holds. -/
def headPart (r : HttpResponse) : HttpResponse :=
  { statusPart r with headers := writtenHeaders r }

/-- The header section as a whole, on the machine, whatever is behind it. -/
theorem execute_responseHead (h : Regular r) (tail : List UInt8) : ∃ e, Got (headPart r) e ∧
    execute responseHandlers (responseHead r ++ tail) responseForm.start {} =
      ⟨.done, e, (responseHead r).length, .broke⟩ := by
  have hfields : ∃ s, (s = .fields ∨ s = .closeFields) ∧
      Turns (Got (statusPart r)) .fields ([] ++ (r.statusLine ++ crlf))
        ((writtenFields r).flatMap fieldLine) s (Got (headPart r)) :=
    turns_fields (.inl rfl) (writtenFields_header h)
  obtain ⟨s, hs, hfields⟩ := hfields
  have hlines := (turns_statusLine h).trans hfields
  rw [responseHead, List.append_assoc _ crlf tail]
  generalize r.statusLine ++ crlf ++ (writtenFields r).flatMap fieldLine = xs at hlines ⊢
  have hstart : Got {} {} := ⟨rfl, rfl, rfl⟩
  obtain ⟨e, he, hrun⟩ := Leads.run hlines (crlf ++ tail) hstart
  obtain ⟨e', he', hend⟩ := runFrom_responseEnd hs xs tail he
  rw [hend] at hrun
  refine ⟨e', he', ?_⟩
  rw [show (xs ++ crlf).length = xs.length + 1 + 1 from List.length_append]
  exact hrun

/-! ## The headers that arrive -/

theorem cookie_names : folded (ascii "Set-Cookie") ≠ folded (ascii "connection") ∧
    folded (ascii "Set-Cookie") ≠ folded (ascii "content-length") := by decide

theorem find_cookies (cookies : List (List UInt8)) (key : List UInt8) :
    ((cookies.map fun c => (ascii "Set-Cookie", c)).reverse.find?
        fun f => folded f.1 = folded key).map Prod.snd =
      if folded key = folded (ascii "Set-Cookie") then cookies.getLast? else none := by
  rw [← List.map_reverse, List.find?_map, Option.map_map, List.getLast?_eq_head?_reverse]
  by_cases hkey : folded key = folded (ascii "Set-Cookie")
  · rw [if_pos hkey]
    cases cookies.reverse with
    | nil => rfl
    | cons c cs => simp [hkey]
  · rw [if_neg hkey]
    have hnone : cookies.reverse.find? ((fun f : List UInt8 × List UInt8 =>
        decide (folded f.1 = folded key)) ∘ fun c => (ascii "Set-Cookie", c)) = none := by
      rw [List.find?_eq_none]
      intro c _ hc
      exact hkey (of_decide_eq_true hc).symm
    rw [hnone]
    rfl

/-- What is looked up in the headers that are written. -/
theorem find_writtenHeaders (h : Regular r) (key : List UInt8) :
    (writtenHeaders r).find key =
      ((writtenFields r).reverse.find? fun f => folded f.1 = folded key).map Prod.snd := by
  unfold writtenHeaders
  rw [find_foldl List.Pairwise.nil fun f hf => (writtenFields_header h f hf).ne_nil]
  exact Option.or_none

/-- What is looked up in the headers of the text: what `dump` writes itself, and of several cookies
the last one. -/
theorem find_written (h : Regular r) (key : List UInt8) : (writtenHeaders r).find key =
    if folded key = folded (ascii "connection") then
      some (ascii (if r.close then "close" else "keep-alive"))
    else if folded key = folded (ascii "content-length") then
      if r.body ≠ [] then some (decimal r.body.length) else none
    else (if folded key = folded (ascii "Set-Cookie") then r.cookies.getLast? else none).or
      ((r.headers.reverse.find? fun f => folded f.1 = folded key).map Prod.snd) := by
  rw [find_writtenHeaders h, writtenFields, last_append, last_append, last_append, last_without,
    find_cookies, last_single, last_ite]
  by_cases hconn : folded key = folded (ascii "connection")
  · simp only [hconn, own_names_ne, if_true, if_false, Option.none_or, Option.some_or]
  simp only [if_neg hconn, Option.none_or]
  by_cases hlen : folded key = folded (ascii "content-length")
  · have hnone : (r.headers.reverse.find? fun f => folded f.1 = folded key).map Prod.snd = none :=
      last_none fun f hf hkey => (h.headers f hf).2 (hkey.trans hlen)
    have hcookie : folded key ≠ folded (ascii "Set-Cookie") := hlen ▸ cookie_names.2.symm
    simp only [if_pos hlen, if_neg hcookie, hnone, Option.or_none]
  · simp only [if_neg hlen, Option.none_or]

theorem contentLength_written (h : Regular r) (hlen : r.body.length < 2 ^ 63) :
    contentLength decimalCast (writtenHeaders r) = r.body.length := by
  apply contentLength_find hlen
  rw [find_written h, if_neg own_names_ne.symm, if_pos rfl]

end

/-! ## Pieces -/

/-- A text comes in pieces, the header section in the first one, and what is left of it behind the first
read has a length that is positive as an `int`. -/
structure Pieces (cfg : HttpConfig) (head text : List UInt8) (rs : Reads) : Prop where
  solid : Solid rs
  bytes : rs.flatten = text
  whole : head.length ≤ (rs.headD []).length
  count : (recv cfg.bufferSize rs).1.length < text.length →
    0 < toInt (text.length - (recv cfg.bufferSize rs).1.length)

section
variable {cfg : HttpConfig} {head text more : List UInt8} {rs rest : Reads}

theorem Pieces.recv_whole (h : Pieces cfg head text rs) (hfits : head.length ≤ cfg.bufferSize) :
    head.length ≤ (recv cfg.bufferSize rs).1.length := by
  have hwhole := h.whole
  cases rs with
  | nil => exact hwhole
  | cons c rs =>
    rw [List.headD_cons] at hwhole
    simp only [recv, List.length_take]
    omega

/-- Pieces of something are at least one piece. -/
theorem Pieces.ne_nil (h : Pieces cfg head text rs) (hne : head ≠ []) : rs ≠ [] := by
  rintro rfl
  exact hne (List.length_eq_zero_iff.1 (Nat.le_zero.1 h.whole))

theorem skip_append (hs : Solid rs) (hrest : Solid rest) :
    skip rs.flatten.length (rs ++ rest) = rest := by
  induction rs with
  | nil => exact skip_zero hrest
  | cons c rs ih =>
    have hle : c.length ≤ (c :: rs).flatten.length := by
      rw [List.flatten_cons, List.length_append]
      omega
    rw [List.cons_append, skip, if_pos hle, List.flatten_cons, List.length_append,
      Nat.add_sub_cancel_left]
    exact ih hs.tail

end

/-! ## A response on its way -/

/-- A response whose header section fits the buffer of the receiver and whose body has a length that
fits its `int64_t`. -/
structure Answerable (cfg : HttpConfig) (r : HttpResponse) : Prop where
  regular : Regular r
  fits : (responseHead r).length ≤ cfg.bufferSize
  short : r.body.length < 2 ^ 63

/-- What arrives: the response as it was sent, with the headers of its text. -/
def HttpResponse.arrived (r : HttpResponse) : HttpResponse := { headPart r with body := r.body }

section
variable {cfg : HttpConfig} {r : HttpResponse} {rs : Reads} {more : List UInt8}

/-- With the header section in its first read the header loop is done in one round. -/
theorem recvHead_regular (h : Answerable cfg r) (hbytes : rs.flatten = responseHead r ++ more)
    (hwhole : (responseHead r).length ≤ (recv cfg.bufferSize rs).1.length) :
    ∃ s, recvHead responseHandlers cfg.bufferSize responseForm.toScanner {} rs = .done s ∧
      Got (headPart r) s.env ∧ s.rest = (recv cfg.bufferSize rs).1.drop (responseHead r).length ∧
      s.reads = (recv cfg.bufferSize rs).2 := by
  obtain ⟨tail, htail⟩ : ∃ tail, responseHead r ++ tail = (recv cfg.bufferSize rs).1 := by
    have hfront : responseHead r <+: rs.flatten := ⟨more, hbytes.symm⟩
    exact List.prefix_of_prefix_length_le hfront ⟨_, recv_append cfg.bufferSize rs⟩ hwhole
  obtain ⟨e, he, hrun⟩ := execute_responseHead h.regular tail
  let s₀ : HeadState ResponseAction ResponseParser responseForm.toScanner :=
    ⟨[], responseForm.start, {}, 0, rs⟩
  have hbuffer : s₀.buffer cfg.bufferSize = responseHead r ++ tail := htail.symm
  rw [← hbuffer] at hrun
  have hpos : 0 < (responseHead r).length := by
    rw [responseHead, List.length_append]
    exact Nat.add_pos_right _ (by decide)
  have hread : (s₀.read cfg.bufferSize).1 ≠ [] := List.ne_nil_of_length_pos (hpos.trans_le hwhole)
  have hrest : (s₀.past responseHandlers cfg.bufferSize).rest =
      (recv cfg.bufferSize rs).1.drop (responseHead r).length := by
    show (s₀.buffer cfg.bufferSize).drop
      (execute responseHandlers (s₀.buffer cfg.bufferSize) responseForm.start {}).pos = _
    rw [hrun, hbuffer, htail]
  have henv : (s₀.past responseHandlers cfg.bufferSize).env = e := congrArg Halt.env hrun
  have hturn : headTurn responseHandlers cfg.bufferSize s₀ =
      .done (s₀.past responseHandlers cfg.bufferSize) := by
    refine (headTurn_ok hread rfl ?_ ?_ ?_).trans ?_
    · rw [hrun]
      rintro ⟨⟩
    · rw [hrun]
      exact decide_eq_false fun hcon => hcon he.2.1
    · have hle := recv_length_le cfg.bufferSize rs
      rw [hrest, List.length_drop]
      omega
    · rw [hrun]
      rfl
  exact ⟨s₀.past responseHandlers cfg.bufferSize, headLoop_done hturn, henv ▸ he, hrest, rfl⟩

/-- A response that comes in pieces is returned as it was sent. -/
theorem recvResponse_pieces (h : Answerable cfg r) (hp : Pieces cfg (responseHead r) r.dump rs) :
    (recvResponse responseForm cfg decimalCast rs).outcome = .returned r.arrived := by
  have hdump := responseDump_eq h.regular.websocket
  have hbytes : rs.flatten = responseHead r ++ r.body := hp.bytes.trans hdump
  have hwhole := hp.recv_whole h.fits
  have hcount := hp.count
  have hsplit := recv_append cfg.bufferSize rs
  have hlen := congrArg List.length hsplit
  rw [List.length_append, hbytes, List.length_append] at hlen
  rw [hdump, List.length_append] at hcount
  obtain ⟨s, hhead, ⟨hdata, -, hchunked⟩, hrest, hreads⟩ := recvHead_regular h hbytes hwhole
  have hcontent : contentLength decimalCast s.env.data.headers = r.body.length := by
    rw [hdata]
    exact contentLength_written h.regular h.short
  have hrestlen : s.rest.length = (recv cfg.bufferSize rs).1.length - (responseHead r).length := by
    rw [hrest, List.length_drop]
  have hsolid := (headLoop_advances hhead).solid hp.solid
  have harr : Arrives r.body.length s.rest s.reads := by
    intro hlt
    rw [hreads]
    refine ⟨by omega, ?_⟩
    rw [show ((r.body.length : ℤ) - s.rest.length).toNat =
      (responseHead r).length + r.body.length - (recv cfg.bufferSize rs).1.length by omega]
    exact hcount (by omega)
  have hbody : (s.rest ++ s.reads.flatten).take (r.body.length : ℤ).toNat = r.body := by
    rw [hrest, hreads, ← List.drop_append_of_le_length hwhole, hsplit, hbytes, List.drop_left,
      Int.toNat_natCast, List.take_length]
  simp only [recvResponse, hhead, finishResponse, hchunked, Bool.false_eq_true, if_false, hcontent]
  by_cases hnil : r.body = []
  · rw [if_neg (by simp [hnil]), hdata, HttpResponse.arrived, hnil]
    rfl
  · rw [if_pos (by exact_mod_cast List.length_pos_iff.2 hnil), readBody_eq hsolid harr, hbody]
    dsimp only
    rw [setBody, if_neg hnil, hdata, HttpResponse.arrived]

end

end CoroutineScheduler.Http
