import CoroutineScheduler.Http.Session

/-!
# Segmentation of a request

The parser keeps offsets into the buffer of the running call, and a call starts with its registers
at zero. A token that is cut by the end of a read is therefore read from the start of the next
buffer. `Untorn` says that no read of the header section cuts a token: every register that a
callback uses was set in the same call.

Where no token is cut, the loop of the header section computes what a single call on all the bytes
computes (`recvHead_oneShot`), and `recvRequest` depends on the bytes only
(`segments_irrelevant`).
-/

namespace CoroutineScheduler.Http

open Scan Splice

/-- No read of the header section cuts a token, until the loop ends. -/
def Untorn {m : Scanner Action} (buffSize fuel : ℕ) (s : HeadState Action RequestParser m) : Prop :=
  EachCall requestHandlers buffSize (fun buffer cs => tears m buffer cs = false) fuel s

/-! ## One action in two buffers -/

/-- The parser of a call whose buffer starts at position `c`, at its position `q`, beside the parser
of a call on all the bytes: the requests are the same, and so are the registers that were set in
the call. -/
structure Agrees (c q : ℕ) (e : RequestParser) (f : Fresh) (e' : RequestParser) : Prop where
  data : e'.data = e.data
  error : e'.error = e.error
  threw : e.threw = false
  threw' : e'.threw = false
  mark : f.mark → e'.mark = c + e.mark ∧ e.mark ≤ q
  fieldStart : f.fieldStart → e'.fieldStart = c + e.fieldStart ∧ e.fieldStart ≤ q
  fieldLen : f.fieldLen → f.fieldStart ∧ e'.fieldLen = e.fieldLen ∧ e.fieldStart + e.fieldLen ≤ q
  queryStart : f.queryStart → e'.queryStart = c + e.queryStart ∧ e.queryStart ≤ q

section
variable {pre buffer post : List UInt8} {q i n : ℕ} {e e' : RequestParser} {f : Fresh}

theorem slice_middle (h : i + n ≤ buffer.length) :
    slice (pre ++ (buffer ++ post)) (pre.length + i) n = slice buffer i n := by
  rw [slice_right, slice_left h]

/-- The text from the mark is the same text. -/
theorem Agrees.marked (h : Agrees pre.length q e f e') (hq : q < buffer.length) (hf : f.mark) :
    e'.marked (pre ++ (buffer ++ post)) (pre.length + q) = e.marked buffer q := by
  obtain ⟨heq, hle⟩ := h.mark hf
  rw [RequestParser.marked, RequestParser.marked, heq,
    show pre.length + q - (pre.length + e.mark) = q - e.mark by omega, slice_middle (by omega)]

/-- A name without a space is found at the front of a text with a space, whatever follows it. -/
theorem isPrefixOf_append_space {name text : List UInt8} (hname : 32 ∉ name) (htext : 32 ∈ text) :
    name.isPrefixOf (text ++ post) = name.isPrefixOf text := by
  rw [Bool.eq_iff_iff, List.isPrefixOf_iff_prefix, List.isPrefixOf_iff_prefix]
  constructor
  · intro h
    rcases Nat.le_total name.length text.length with hle | hle
    · exact List.prefix_of_prefix_length_le h (List.prefix_append text post) hle
    · have hsub := List.prefix_of_prefix_length_le (List.prefix_append text post) h hle
      exact absurd (hsub.subset htext) hname
  · intro h
    exact h.trans (List.prefix_append text post)

theorem charsToHttpMethod_append {text : List UInt8} (htext : 32 ∈ text) :
    charsToHttpMethod (text ++ post) = charsToHttpMethod text := by
  have hnames : ∀ e ∈ httpMethodMap, 32 ∉ ascii e.2 := by decide
  rw [charsToHttpMethod, charsToHttpMethod,
    List.find?_congr fun e he => isPrefixOf_append_space (hnames e he) htext]

theorem Agrees.setData (h : Agrees pre.length q e f e') (d : HttpRequest) (t : Bool) :
    Agrees pre.length q { e with data := d } { f with torn := t } { e' with data := d } :=
  { h with data := rfl }

theorem Agrees.setError (h : Agrees pre.length q e f e') (k : ℕ) (t : Bool) :
    Agrees pre.length q { e with error := k } { f with torn := t }
      { e' with error := k, data := e.data } :=
  { h with error := rfl, data := rfl }

/-- The method token is followed by its space in both buffers. -/
theorem Agrees.onRequestMethod (h : Agrees pre.length q e f e') (hb : buffer[q]? = some 32)
    (hf : f.mark) (t : Bool) :
    Agrees pre.length q (e.onRequestMethod (buffer.drop e.mark)) { f with torn := t }
      (e'.onRequestMethod ((pre ++ (buffer ++ post)).drop e'.mark)) := by
  obtain ⟨heq, hle⟩ := h.mark hf
  have hlt : e.mark < buffer.length := hle.trans_lt (List.getElem?_eq_some_iff.1 hb).1
  have hspace : 32 ∈ buffer.drop e.mark := by
    apply List.mem_of_getElem? (i := q - e.mark)
    rw [List.getElem?_drop, show e.mark + (q - e.mark) = q by omega, hb]
  have htext : (pre ++ (buffer ++ post)).drop e'.mark = buffer.drop e.mark ++ post := by
    rw [heq, List.drop_length_add_append, List.drop_append_of_le_length hlt.le]
  rw [htext, RequestParser.onRequestMethod, RequestParser.onRequestMethod,
    charsToHttpMethod_append hspace, h.data]
  split
  · exact h.setError 1000 t
  · exact h.setData _ t

theorem Agrees.onRequestVersion (h : Agrees pre.length q e f e') (text : List UInt8) (t : Bool) :
    Agrees pre.length q (e.onRequestVersion text) { f with torn := t }
      (e'.onRequestVersion text) := by
  simp only [RequestParser.onRequestVersion, h.data]
  split
  · exact h.setData _ t
  · exact h.setError 1001 t

/-- An action that uses no register of an earlier call does the same in both buffers. -/
theorem Agrees.act {a : Action} {b : UInt8} (h : Agrees pre.length q e f e')
    (hb : buffer[q]? = some b) (hspace : a = .requestMethod → b = 32)
    (ht : (f.note a).torn = false) :
    Agrees pre.length q (e.act buffer q a) (f.note a)
      (e'.act (pre ++ (buffer ++ post)) (pre.length + q) a) := by
  have hq : q < buffer.length := (List.getElem?_eq_some_iff.1 hb).1
  cases a with
  | mark | startValue => exact { h with mark := fun _ => ⟨rfl, le_rfl⟩ }
  | startField => exact { h with fieldStart := fun _ => ⟨rfl, le_rfl⟩, fieldLen := nofun }
  | writeField =>
    refine { h with fieldLen := fun hf => ⟨hf, ?_, ?_⟩ }
    · obtain ⟨heq, hle⟩ := h.fieldStart hf
      show pre.length + q - e'.fieldStart = q - e.fieldStart
      omega
    · have hle := (h.fieldStart hf).2
      show e.fieldStart + (q - e.fieldStart) ≤ q
      omega
  | writeValue =>
    simp only [Fresh.note, Bool.or_eq_false_iff, Bool.not_eq_false', Bool.and_eq_true] at ht
    obtain ⟨-, hmark, hlen⟩ := ht
    obtain ⟨hstart, hleq, hle⟩ := h.fieldLen hlen
    have hfield : slice (pre ++ (buffer ++ post)) e'.fieldStart e'.fieldLen =
        slice buffer e.fieldStart e.fieldLen := by
      rw [hleq, (h.fieldStart hstart).1, slice_middle (by omega)]
    simp only [RequestParser.act, RequestParser.onRequestHttpField, hfield, h.marked hq hmark,
      h.data]
    exact h.setData _ _
  | requestMethod =>
    simp only [Fresh.note, Bool.or_eq_false_iff, Bool.not_eq_false'] at ht
    exact h.onRequestMethod (by rw [hb, hspace rfl]) ht.2 _
  | fragment | requestPath =>
    simp only [Fresh.note, Bool.or_eq_false_iff, Bool.not_eq_false'] at ht
    simp only [RequestParser.act, h.marked hq ht.2, h.data]
    exact h.setData _ _
  | httpVersion =>
    simp only [Fresh.note, Bool.or_eq_false_iff, Bool.not_eq_false'] at ht
    simp only [RequestParser.act, h.marked hq ht.2]
    exact h.onRequestVersion _ _
  | startQuery => exact { h with queryStart := fun _ => ⟨rfl, le_rfl⟩ }
  | queryString =>
    simp only [Fresh.note, Bool.or_eq_false_iff, Bool.not_eq_false'] at ht
    obtain ⟨heq, hle⟩ := h.queryStart ht.2
    have htext : slice (pre ++ (buffer ++ post)) e'.queryStart (pre.length + q - e'.queryStart) =
        slice buffer e.queryStart (q - e.queryStart) := by
      rw [heq, show pre.length + q - (pre.length + e.queryStart) = q - e.queryStart by omega,
        slice_middle (by omega)]
    simp only [RequestParser.act, if_neg (show ¬ q < e.queryStart by omega),
      if_neg (show ¬ pre.length + q < e'.queryStart by omega), htext, h.data]
    exact h.setData _ _
  | requestUri | done | xml | json => exact h

theorem note_torn (f : Fresh) (a : Action) (h : (f.note a).torn = false) : f.torn = false := by
  cases a <;> simp_all [Fresh.note]

theorem Agrees.succ {c : ℕ} (h : Agrees c q e f e') : Agrees c (q + 1) e f e' where
  data := h.data
  error := h.error
  threw := h.threw
  threw' := h.threw'
  mark hf := ⟨(h.mark hf).1, (h.mark hf).2.trans (Nat.le_succ q)⟩
  fieldStart hf := ⟨(h.fieldStart hf).1, (h.fieldStart hf).2.trans (Nat.le_succ q)⟩
  fieldLen hf := ⟨(h.fieldLen hf).1, (h.fieldLen hf).2.1, (h.fieldLen hf).2.2.trans (Nat.le_succ q)⟩
  queryStart hf := ⟨(h.queryStart hf).1, (h.queryStart hf).2.trans (Nat.le_succ q)⟩

/-- Between two calls only the request and the errors count. -/
theorem Agrees.reset {c c' q' : ℕ} (h : Agrees c q e f e') : Agrees c' q' e.reset {} e' :=
  ⟨h.data, h.error, h.threw, h.threw', nofun, nofun, nofun, nofun⟩

end

section
variable {M : RequestMachine} {buffer : List UInt8} {cs : M.State} {e e' : RequestParser}
  {c q : ℕ} {f : Fresh}

/-- The parser between two calls, beside the parser of a call on all the bytes. -/
def Beside (e e' : RequestParser) : Prop := ∃ c q f, Agrees c q e f e'

/-- A call that tears no token goes through the states of the call on all the bytes. -/
theorem execute_agrees (pre post : List UInt8) (h : Beside e e')
    (ht : tears M.toScanner buffer cs = false) :
    Rel (fun _ => Beside) pre.length (execute requestHandlers buffer cs e)
      (exec M.toScanner (RequestParser.act (pre ++ (buffer ++ post))) requestHandlers.breaks
        pre.length buffer cs e') := by
  obtain ⟨c, q, f, h⟩ := h
  obtain ⟨f', hrel⟩ : ∃ f', Rel (fun q e e' => Agrees pre.length q e f' e') pre.length
      (execute requestHandlers buffer cs e)
      (exec M.toScanner (RequestParser.act (pre ++ (buffer ++ post))) requestHandlers.breaks
        (pre.length + 0) buffer cs e') := by
    refine exec_ghost (R := Agrees pre.length) pre.length (fun a f => Fresh.note f a) Fresh.torn
      (fun a f => note_torn f a) ?_ (fun q e f e' => Agrees.succ) h.reset ht
    intro q b a e f e' _ hb hemit hagree hok
    refine hagree.act hb ?_ hok
    rintro rfl
    obtain ⟨s, s', as, hnext, hmem⟩ := hemit
    exact M.method_space hnext hmem
  exact ⟨hrel.cs_eq, hrel.pos_eq, hrel.stop_eq, _, _, f', hrel.env⟩

theorem act_error (bytes : List UInt8) (q : ℕ) (a : Action) (e : RequestParser)
    (h : requestHandlers.error e = true) :
    requestHandlers.error (e.act bytes q a) = true := by
  rw [requestHandlers_error] at h ⊢
  cases a with
  | requestMethod =>
    simp only [RequestParser.act, RequestParser.onRequestMethod]
    split
    · exact fun hc => by cases hc
    · exact h
  | httpVersion =>
    simp only [RequestParser.act, RequestParser.onRequestVersion]
    split
    · exact h
    · exact fun hc => by cases hc
  | queryString =>
    simp only [RequestParser.act]
    split_ifs <;> exact h
  | _ => exact h

theorem RequestMachine.final_breaks {s s' : M.State} {b : UInt8} {as : List Action}
    (h : M.next s b = some (s', as)) : M.final s' = true ↔ as.any requestHandlers.breaks = true := by
  rw [M.final_iff h, List.any_eq_true]
  simp [requestHandlers]

theorem request_simulates (M : RequestMachine) :
    Simulates M.toScanner requestHandlers (fun buffer cs => tears M.toScanner buffer cs = false)
      Beside where
  call pre post h ht := execute_agrees pre post h ht
  error := by
    rintro e w ⟨c, q, f, h⟩
    simp only [requestHandlers, h.error]
  threw := by
    rintro e w ⟨c, q, f, h⟩
    exact h.threw
  sticky := act_error
  final_breaks h := (RequestMachine.final_breaks h).1

theorem beside_start : Beside {} {} :=
  ⟨0, 0, {}, rfl, rfl, rfl, rfl, nofun, nofun, nofun, nofun⟩

/-- The header section of a stream without torn tokens. -/
theorem recvHead_oneShot {buffSize : ℕ} {rs : Reads} (hbuf : 0 < buffSize) (hs : Solid rs)
    (hu : Untorn buffSize (rs.flatten.length + 1) ⟨[], M.start, {}, 0, rs⟩) :
    (Complete requestHandlers (restOfCall requestHandlers [] rs.flatten M.start {}) →
      ∃ s, recvHead requestHandlers buffSize M.toScanner {} rs = .done s ∧
        Beside s.env (restOfCall requestHandlers [] rs.flatten M.start {}).env ∧
        s.rest ++ s.reads.flatten =
          rs.flatten.drop (restOfCall requestHandlers [] rs.flatten M.start {}).pos) ∧
      (¬ Complete requestHandlers (restOfCall requestHandlers [] rs.flatten M.start {}) →
        recvHead requestHandlers buffSize M.toScanner {} rs = .closed) :=
  headLoop_oneShot (request_simulates M) hbuf hs (Nat.lt_succ_self _) rfl M.start_not_final hu
    beside_start (exec_broke_final fun h => (RequestMachine.final_breaks h).2)

end

/-! ## Two ways to cut a stream -/

section
variable (M : RequestMachine) (cfg : HttpConfig) (lexicalCast : List UInt8 → Option UInt64)

/-- The length that is left for `readFixSize` is positive as an `int`, if the body is complete. -/
def BodyCounts {m : Scanner Action} (s : HeadState Action RequestParser m) : Prop :=
  let left := contentLength lexicalCast s.env.data.headers - s.rest.length
  0 < left → left ≤ s.reads.flatten.length → 0 < toInt left.toNat

/-- A stream is cut between tokens in its header section, and anywhere behind it that leaves less
than `2 ^ 31` bytes of body. -/
structure CleanCut (rs : Reads) : Prop where
  untorn : Untorn cfg.bufferSize (rs.flatten.length + 1) ⟨[], M.start, {}, 0, rs⟩
  body : ∀ s, recvHead requestHandlers cfg.bufferSize M.toScanner {} rs = .done s →
    BodyCounts lexicalCast s

/-- Both calls fail, or both return the same request. -/
def SameOutcome (o o' : Outcome HttpRequest) : Prop :=
  (o = .closed ∧ o' = .closed) ∨ ∃ r, o = .returned r ∧ o' = .returned r

/-- The outcome of a call behind its header section. -/
def bodyOutcome (data : HttpRequest) (bytes : List UInt8) : Outcome HttpRequest :=
  let length := contentLength lexicalCast data.headers
  if length ≤ bytes.length then .returned { data with body := bytes.take length.toNat }.init
  else .closed

/-- The outcome of a call that gets all the bytes of a stream at once. -/
def oneShotOutcome (M : RequestMachine) (bytes : List UInt8) : Outcome HttpRequest :=
  let h : Halt Action RequestParser M.toScanner := restOfCall requestHandlers [] bytes M.start {}
  if h.stop = .broke ∧ requestHandlers.error h.env = false then
    bodyOutcome lexicalCast h.env.data (bytes.drop h.pos)
  else .closed

variable {M cfg lexicalCast} {rs : Reads}

theorem finishRequest_outcome {m : Scanner Action} {s : HeadState Action RequestParser m}
    (hs : Solid s.reads) (hbody : s.env.data.body = []) (h : BodyCounts lexicalCast s) :
    (finishRequest lexicalCast s).outcome =
      bodyOutcome lexicalCast s.env.data (s.rest ++ s.reads.flatten) := by
  obtain ⟨length, hlen⟩ : ∃ l, contentLength lexicalCast s.env.data.headers = l := ⟨_, rfl⟩
  simp only [BodyCounts, hlen] at h
  simp only [bodyOutcome, hlen, List.length_append]
  by_cases harr : Arrives length s.rest s.reads
  · rw [finishRequest_arrives hs hbody hlen harr, if_pos]
    by_cases hlt : s.rest.length < length
    · have hle := (harr hlt).1
      omega
    · omega
  · rw [finishRequest_lost hs hlen harr, if_neg]
    intro hle
    refine harr fun hlt => ⟨by omega, h (by omega) (by omega)⟩

/-- What a call on a cleanly cut stream returns depends on the bytes of the stream only. -/
theorem recvRequest_outcome (hbuf : 0 < cfg.bufferSize) (hs : Solid rs)
    (hc : CleanCut M cfg lexicalCast rs) :
    (recvRequest M cfg lexicalCast rs).outcome =
      oneShotOutcome lexicalCast M rs.flatten := by
  obtain ⟨hdone, hclosed⟩ := recvHead_oneShot hbuf hs hc.untorn
  rw [oneShotOutcome]
  split_ifs with hcomplete
  · obtain ⟨s, hhead, ⟨c, q, f, hbeside⟩, hbytes⟩ := hdone hcomplete
    rw [recvRequest_done hhead, hbeside.data, ← hbytes]
    exact finishRequest_outcome ((headLoop_advances hhead).solid hs) (recvHead_body hhead)
      (hc.body s hhead)
  · rw [recvRequest, hclosed hcomplete]

theorem SameOutcome.refl {o : Outcome HttpRequest} (h : o ≠ .threw) : SameOutcome o o := by
  cases o with
  | closed => exact Or.inl ⟨rfl, rfl⟩
  | threw => exact absurd rfl h
  | returned r => exact Or.inr ⟨r, rfl, rfl⟩

end

end CoroutineScheduler.Http
