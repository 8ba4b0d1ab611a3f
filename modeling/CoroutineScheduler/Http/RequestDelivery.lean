import CoroutineScheduler.Http.RequestText

/-!
# Requests from one end of a connection to the other

`HttpConnection::sendRequest` writes `dump`, and `HttpServer::handleClient` reads with `recvRequest`.
`Sendable` is a request that fits into one round of this: `message_request` says that the request
comes out of the machine as it was sent, with the headers that `dump` adds, and `requests_delivered`
says the same of a list of requests on one connection.
-/

open Scan Splice Lines OrderedMap

namespace CoroutineScheduler.Http

open Uri (decimal digits_decimal digitsValue_decimal)

/-! ## Header maps -/

section
variable {key k v : List UInt8} {m : MapType}

/-- The entries are in the order of their names. -/
def Ordered (m : MapType) : Prop := m.Pairwise fun a b => folded a.1 < folded b.1

theorem set_eq_upsert (key val : List UInt8) (m : MapType) :
    m.set key val = upsert folded (fun _ => val) key val m := by
  induction m with
  | nil => rfl
  | cons e m ih =>
    obtain ⟨k, v⟩ := e
    rw [MapType.set, upsert, ih]

theorem find_eq_first (key : List UInt8) (m : MapType) :
    m.find key = (first folded (folded key) m).map Prod.snd := rfl

theorem ordered_add (h : Ordered m) (k v : List UInt8) : Ordered (m.add k v) := by
  unfold MapType.add
  split_ifs
  · exact h
  · rw [set_eq_upsert]
    exact pairwise_upsert h

theorem find_add (h : Ordered m) (hk : k ≠ []) (key v : List UInt8) :
    (m.add k v).find key = if folded key = folded k then some v else m.find key := by
  rw [MapType.add, if_neg hk, set_eq_upsert, find_eq_first, first_upsert h, find_eq_first]
  split_ifs with hc
  · cases first folded (folded key) m <;> rfl
  · rfl

/-- Of the fields with one name the last one counts. -/
theorem find_foldl {fs : MapType} (h : Ordered m) (hne : ∀ f ∈ fs, f.1 ≠ [])
    (key : List UInt8) :
    (fs.foldl (fun m f => m.add f.1 f.2) m).find key =
      ((fs.reverse.find? fun f => folded f.1 = folded key).map Prod.snd).or (m.find key) := by
  induction fs generalizing m with
  | nil => rfl
  | cons f fs ih =>
    rw [List.foldl_cons, ih (ordered_add h f.1 f.2) fun g hg => hne g (List.mem_cons_of_mem _ hg),
      find_add h (hne f (List.mem_cons_self ..)), List.reverse_cons, List.find?_append]
    cases hfind : fs.reverse.find? fun f => folded f.1 = folded key with
    | some g => rfl
    | none =>
      by_cases hc : folded f.1 = folded key
      · rw [if_pos hc.symm]
        simp [hc]
      · rw [if_neg fun he => hc he.symm]
        simp [hc]

end

/-! ## Lookup of the last field with a name -/

section
variable {fs : MapType} {key : List UInt8}

theorem last_append (fs gs : MapType) (key : List UInt8) :
    ((fs ++ gs).reverse.find? fun f => folded f.1 = folded key).map Prod.snd =
      ((gs.reverse.find? fun f => folded f.1 = folded key).map Prod.snd).or
        ((fs.reverse.find? fun f => folded f.1 = folded key).map Prod.snd) := by
  rw [List.reverse_append, List.find?_append, Option.map_or]

theorem last_single (name value key : List UInt8) :
    ([(name, value)].reverse.find? fun f => folded f.1 = folded key).map Prod.snd =
      if folded key = folded name then some value else none := by
  by_cases hkey : folded key = folded name
  · simp [hkey]
  · simp [hkey, Ne.symm hkey]

theorem last_ite (p : Prop) [Decidable p] (name value key : List UInt8) :
    ((if p then [(name, value)] else []).reverse.find? fun f => folded f.1 = folded key).map Prod.snd =
      if folded key = folded name then if p then some value else none else none := by
  by_cases hp : p
  · rw [if_pos hp, if_pos hp, last_single]
  · rw [if_neg hp, if_neg hp, ite_self]
    rfl

theorem last_none (h : ∀ f ∈ fs, folded f.1 ≠ folded key) :
    (fs.reverse.find? fun f => folded f.1 = folded key).map Prod.snd = none := by
  rw [Option.map_eq_none_iff, List.find?_eq_none]
  intro f hf hkey
  exact h f (List.mem_reverse.1 hf) (of_decide_eq_true hkey)

/-- Without the fields of one name the others are looked up as before. -/
theorem last_without (fs : MapType) (name key : List UInt8) :
    ((fs.filter fun i => folded i.1 ≠ folded name).reverse.find?
        fun f => folded f.1 = folded key).map Prod.snd =
      if folded key = folded name then none
      else (fs.reverse.find? fun f => folded f.1 = folded key).map Prod.snd := by
  split_ifs with hname
  · apply last_none
    intro f hf hkey
    exact of_decide_eq_true (List.mem_filter.1 hf).2 (hkey.trans hname)
  · rw [← List.filter_reverse, List.find?_filter]
    congr 1
    apply List.find?_congr
    intro f _
    by_cases hf : folded f.1 = folded key
    · simp [hf, hname]
    · simp [hf]

end

/-! ## The fields of a request -/

section
variable {r : HttpRequest}

theorem field_decimal (n : ℕ) : FieldText (decimal n) := by
  have hd : ∀ b ∈ decimal n, b ≠ 0 ∧ b ≠ 10 ∧ b ≠ 13 ∧ b ≠ 127 ∧ blank b = false := by
    intro b hb
    have hdigit := digits_decimal n b hb
    refine ⟨ne_of_class hdigit (by decide), ne_of_class hdigit (by decide),
      ne_of_class hdigit (by decide), ne_of_class hdigit (by decide), ?_⟩
    exact not_blank_of_digit b hdigit
  refine ⟨fun b hb => ?_, fun b hb => (hd b (List.mem_of_mem_head? hb)).2.2.2.2⟩
  obtain ⟨h0, h10, h13, h127, -⟩ := hd b hb
  exact ⟨h0, h10, h13, h127⟩

theorem fieldText_of_all {value : List UInt8}
    (h : value.all (fun b => b ≠ 0 ∧ b ≠ 10 ∧ b ≠ 13 ∧ b ≠ 127) = true)
    (hfront : value.head?.all (fun b => !blank b) = true) : FieldText value := by
  refine ⟨fun b hb => of_decide_eq_true (List.all_eq_true.1 h b hb), fun b hb => ?_⟩
  rw [Option.mem_def.1 hb] at hfront
  exact Bool.not_eq_true' _ ▸ hfront

theorem field_connection (close : Bool) :
    Field (ascii "connection", ascii (if close then "close" else "keep-alive")) := by
  have hname : ascii "connection" ≠ [] ∧ (ascii "connection").all OriginForm.token = true := by
    decide
  refine ⟨hname.1, List.all_eq_true.1 hname.2, ?_⟩
  cases close <;> exact fieldText_of_all (by decide) (by decide)

theorem field_contentLength (n : ℕ) : Field (ascii "content-length", decimal n) := by
  have hname : ascii "content-length" ≠ [] ∧
      (ascii "content-length").all OriginForm.token = true := by decide
  exact ⟨hname.1, List.all_eq_true.1 hname.2, field_decimal n⟩

theorem sentFields_field (h : Plain r) : ∀ f ∈ sentFields r, Field f := by
  intro f hf
  unfold sentFields at hf
  rcases List.mem_append.1 hf with hf | hf
  · rcases List.mem_cons.1 hf with rfl | hf
    · exact field_connection r.close
    · exact (h.headers f (List.mem_of_mem_filter hf)).1
  · split_ifs at hf
    · rw [List.mem_singleton.1 hf]
      exact field_contentLength _
    · cases hf

/-- What is looked up in the headers that are sent. -/
theorem find_sentHeaders (h : Plain r) (key : List UInt8) :
    (sentHeaders r).find key =
      ((sentFields r).reverse.find? fun f => folded f.1 = folded key).map Prod.snd := by
  unfold sentHeaders
  rw [find_foldl List.Pairwise.nil fun f hf => (sentFields_field h f hf).ne_nil]
  exact Option.or_none

theorem own_names_ne : folded (ascii "connection") ≠ folded (ascii "content-length") := by decide

/-- The fields of the map that are sent, beside those that `dump` adds. -/
theorem find_sent (h : Plain r) (key : List UInt8) : (sentHeaders r).find key =
    if folded key = folded (ascii "connection") then
      some (ascii (if r.close then "close" else "keep-alive"))
    else if folded key = folded (ascii "content-length") then
      if r.body ≠ [] then some (decimal r.body.length) else none
    else (r.headers.reverse.find? fun f => folded f.1 = folded key).map Prod.snd := by
  have hfields : sentFields r =
      [(ascii "connection", ascii (if r.close then "close" else "keep-alive"))] ++
        (r.headers.filter fun i => folded i.1 ≠ folded (ascii "connection")) ++
        if r.body ≠ [] then [(ascii "content-length", decimal r.body.length)] else [] := rfl
  rw [find_sentHeaders h, hfields, last_append, last_append, last_single, last_without, last_ite]
  by_cases hconn : folded key = folded (ascii "connection")
  · simp only [hconn, own_names_ne, if_true, if_false, Option.none_or]
  simp only [if_neg hconn, Option.or_none]
  by_cases hlen : folded key = folded (ascii "content-length")
  · have hnone : (r.headers.reverse.find? fun f => folded f.1 = folded key).map Prod.snd = none :=
      last_none fun f hf hkey => (h.headers f hf).2 (hkey.trans hlen)
    simp only [if_pos hlen, hnone, Option.or_none]
  · simp only [if_neg hlen, Option.none_or]

theorem decimalCast_decimal {n : ℕ} (hn : n < 2 ^ 64) : decimalCast (decimal n) = some n.toUInt64 := by
  have hd := digits_decimal n
  have hall : (decimal n).all (fun b => 48 ≤ b && b ≤ 57) = true := List.all_eq_true.2 hd
  have hvalue : (decimal n).foldl (fun v b => 10 * v + (b.toNat - 48)) 0 = n := by
    have hfold := digitsValue_decimal n
    have htake : (decimal n).takeWhile (fun b => decide (digitValue b < 10)) = decimal n := by
      rw [List.takeWhile_eq_self_iff]
      intro b hb
      rw [← Uri.digit_iff]
      exact hd b hb
    rw [digitsValue, htake] at hfold
    refine (List.foldl_ext _ _ 0 fun v b hb => ?_).trans hfold
    have hb := hd b hb
    rw [Uri.digit, Bool.and_eq_true, decide_eq_true_eq, decide_eq_true_eq] at hb
    rw [digitValue, if_pos hb]
  rw [decimalCast, hvalue, if_pos ⟨decimal_ne_nil n, hall, hn⟩]

/-- The length that the receiver takes from a header map that `dump` has made is that of the body. -/
theorem contentLength_find {m : MapType} {body : List UInt8} (hlen : body.length < 2 ^ 63)
    (hfind : m.find (ascii "content-length") =
      if body ≠ [] then some (decimal body.length) else none) :
    contentLength decimalCast m = body.length := by
  rw [contentLength, hfind]
  by_cases hb : body = []
  · rw [if_neg (not_not.2 hb), hb]
    rfl
  · rw [if_pos hb, Option.bind_some, decimalCast_decimal (hlen.trans (by norm_num)), Option.getD_some]
    show (Int64.ofNat body.length).toInt = _
    rw [Int64.toInt_ofNat_of_lt hlen]

theorem contentLength_sent (h : Plain r) (hlen : r.body.length < 2 ^ 63) :
    contentLength decimalCast (sentHeaders r) = r.body.length := by
  apply contentLength_find hlen
  rw [find_sent h, if_neg own_names_ne.symm, if_pos rfl]

/-! ## Messages -/

/-- The empty line ends the header section. -/
theorem runFrom_end (pre : List UInt8) (e : RequestParser) :
    runFrom (m := OriginForm.scanner) RequestParser.act requestHandlers.breaks pre crlf .fields e =
      ⟨.done, { e with fieldStart := pre.length }, pre.length + 1 + 1, .broke⟩ := rfl

/-- The header section as a whole, on the machine. -/
theorem execute_headText (h : Plain r) : ∃ e, Holds { firstLine r with headers := sentHeaders r } e ∧
    execute requestHandlers (headText r) originForm.start {} =
      ⟨.done, e, (headText r).length, .broke⟩ := by
  have htake := (fills_requestLine h).trans (fills_fields (sentFields_field h))
  rw [headText]
  generalize r.requestLine ++ crlf ++ (sentFields r).flatMap fieldLine = xs at htake ⊢
  have hstart : Holds {} {} := ⟨rfl, rfl, rfl⟩
  obtain ⟨e, he, hrun⟩ := Leads.run htake crlf hstart
  rw [runFrom_end] at hrun
  refine ⟨{ e with fieldStart := xs.length }, he, ?_⟩
  rw [show (xs ++ crlf).length = xs.length + 1 + 1 from List.length_append]
  exact hrun

/-- `init` finds the `close` flag in the header that `dump` wrote for it. -/
theorem init_sent (h : Plain r) :
    HttpRequest.init { firstLine r with headers := sentHeaders r, body := r.body } =
      { r with headers := sentHeaders r } := by
  have hconn : HttpRequest.getHeader { firstLine r with headers := sentHeaders r, body := r.body }
      "connection" = ascii (if r.close then "close" else "keep-alive") := by
    rw [HttpRequest.getHeader, find_sent h, if_pos rfl, Option.getD_some]
  have hclose : ascii (if r.close then "close" else "keep-alive") ≠ [] ∧
      decide (folded (ascii (if r.close then "close" else "keep-alive")) ≠
        folded (ascii "keep-alive")) = r.close := by
    cases r.close <;> decide
  rw [HttpRequest.init, hconn]
  dsimp only
  rw [if_neg hclose.1, hclose.2]
  have hw := h.websocket
  cases r
  dsimp only at hw
  subst hw
  rfl

variable {cfg : HttpConfig}

/-- A request that can be sent, whose header section fits the buffer of the receiver and whose body
has a length that fits its `int64_t`. -/
structure Sendable (cfg : HttpConfig) where
  request : HttpRequest
  plain : Plain request
  fits : (headText request).length ≤ cfg.bufferSize
  short : request.body.length < 2 ^ 63

namespace Sendable

/-- The request as a message on the wire. -/
def message (q : Sendable cfg) : Message originForm cfg decimalCast where
  head := headText q.request
  body := q.request.body
  complete := by
    obtain ⟨e, -, hrun⟩ := execute_headText q.plain
    rw [hrun]
  ends := by
    obtain ⟨e, -, hrun⟩ := execute_headText q.plain
    rw [hrun]
  valid := by
    obtain ⟨e, he, hrun⟩ := execute_headText q.plain
    rw [hrun]
    exact he.2.1
  fits := q.fits
  declares := by
    obtain ⟨e, he, hrun⟩ := execute_headText q.plain
    rw [hrun]
    show contentLength decimalCast e.data.headers = _
    rw [he.1]
    exact contentLength_sent q.plain q.short

theorem message_head (q : Sendable cfg) : q.message.head = headText q.request := rfl

theorem message_body (q : Sendable cfg) : q.message.body = q.request.body := rfl

theorem message_bytes (q : Sendable cfg) : q.message.bytes = q.request.dump :=
  (dump_eq q.plain.websocket).symm

/-- What arrives: the request as it was sent, with the headers of its text. -/
def arrived (q : Sendable cfg) : HttpRequest := { q.request with headers := sentHeaders q.request }

theorem message_request (q : Sendable cfg) : q.message.request = q.arrived := by
  obtain ⟨e, he, hrun⟩ := execute_headText q.plain
  rw [Message.request, message_head, message_body, hrun, he.1, init_sent q.plain, arrived]

end Sendable

/-- What the server is to receive: the requests in order as they were sent, behind each of them
nothing but the texts of those that follow. -/
def deliveries : List (Sendable cfg) → List (HttpRequest × List UInt8)
  | [] => []
  | q :: qs => (q.arrived, qs.flatMap fun q => q.request.dump) :: deliveries qs

theorem stream_message (qs : List (Sendable cfg)) :
    stream (qs.map Sendable.message) = qs.flatMap fun q => q.request.dump := by
  induction qs with
  | nil => rfl
  | cons q qs ih => rw [List.map_cons, stream_cons, q.message_bytes, ih, List.flatMap_cons]

theorem expected_message (qs : List (Sendable cfg)) :
    expected (qs.map Sendable.message) = deliveries qs := by
  induction qs with
  | nil => rfl
  | cons q qs ih =>
    rw [List.map_cons, expected, q.message_request, stream_message, ih]
    rfl

theorem keptAlive_message {qs : List (Sendable cfg)}
    (h : ∀ q ∈ qs.dropLast, q.request.close = false) : KeptAlive (qs.map Sendable.message) := by
  induction qs with
  | nil => trivial
  | cons q qs ih =>
    cases qs with
    | nil => exact ⟨fun hne => absurd rfl hne, trivial⟩
    | cons q' qs =>
      rw [List.dropLast_cons_cons] at h
      refine ⟨fun _ => ?_, ih fun p hp => h p (List.mem_cons_of_mem _ hp)⟩
      rw [q.message_request]
      exact h q (List.mem_cons_self ..)

end

/-- Requests that are sent one behind the other on a connection that is kept open arrive as they
were sent, in order and none of them with bytes of another one, exactly when the read with the
header section of each ends inside its text. The headers that arrive are those of the request, under
names in any case, with the two that `dump` writes itself. -/
theorem requests_delivered (cfg : HttpConfig) (qs : List (Sendable cfg)) (rs : Reads) (hs : Solid rs)
    (hbytes : rs.flatten = qs.flatMap fun q => q.request.dump)
    (hkept : ∀ q ∈ qs.dropLast, q.request.close = false)
    (hwhole : WholeHeads (qs.map Sendable.message) rs) :
    (handleClient originForm cfg decimalCast true (rs.flatten.length + 1) rs = deliveries qs ↔
      Aligned (qs.map Sendable.message) rs) ∧
    ∀ q ∈ qs, ∀ key, q.arrived.headers.find key =
      if folded key = folded (ascii "connection") then
        some (ascii (if q.request.close then "close" else "keep-alive"))
      else if folded key = folded (ascii "content-length") then
        if q.request.body ≠ [] then some (decimal q.request.body.length) else none
      else (q.request.headers.reverse.find? fun f => folded f.1 = folded key).map Prod.snd := by
  refine ⟨?_, fun q _ key => find_sent q.plain key⟩
  rw [← expected_message]
  rw [← stream_message] at hbytes
  exact handleClient_iff hs hbytes (Nat.lt_succ_self _) (keptAlive_message hkept) hwhole

/-- A request with a query and a header that keeps the connection. -/
def sentPing : Sendable smallConfig where
  request := { path := ascii "/a", query := ascii "b=c", close := false,
               headers := [(ascii "A", ascii "d")] }
  plain := by
    refine ⟨rfl, by decide, ⟨ascii "a", rfl, fun b hb => ?_⟩, List.all_eq_true.1 (by decide),
      List.all_eq_true.1 (by decide), .inl rfl, fun h hh => ?_⟩
    · exact .inl (List.all_eq_true.1 (by decide) b hb)
    · obtain rfl := List.mem_singleton.1 hh
      exact ⟨⟨by decide, List.all_eq_true.1 (by decide), fieldText_of_all (by decide) (by decide)⟩,
        by decide⟩
  fits := by decide
  short := by decide

/-- A request with a body. -/
def sentPost : Sendable smallConfig where
  request := { method := .POST, path := ascii "/b", body := ascii "abc" }
  plain := by
    refine ⟨rfl, by decide, ⟨ascii "b", rfl, fun b hb => ?_⟩, List.all_eq_true.1 (by decide),
      List.all_eq_true.1 (by decide), .inl rfl, fun h hh => absurd hh List.not_mem_nil⟩
    exact .inl (List.all_eq_true.1 (by decide) b hb)
  fits := by decide
  short := by decide

/-- Two requests, the second one with its body in two pieces. -/
theorem requests_delivered_two :
    handleClient originForm smallConfig decimalCast true
        ([sentPing.request.dump, sentPost.message.head ++ ascii "a", ascii "bc"].flatten.length + 1)
        [sentPing.request.dump, sentPost.message.head ++ ascii "a", ascii "bc"] =
      deliveries [sentPing, sentPost] :=
  (requests_delivered smallConfig [sentPing, sentPost] _ (by decide) (by decide)
    (fun q hq => by rw [List.mem_singleton.1 hq]; rfl)
    ⟨by decide, by decide, trivial⟩).1.2 ⟨by decide, by decide, by decide, by decide, trivial⟩

end CoroutineScheduler.Http
