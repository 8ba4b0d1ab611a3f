import CoroutineScheduler.Http.Dump
import CoroutineScheduler.Http.Framing
import CoroutineScheduler.Lib.OrderedMap
import CoroutineScheduler.Lib.ScanTexts

/-!
# A request as it is sent and received

What `HttpRequest::dump` writes is led through the machine on origin-form targets part by part: the
method, the path, the query, the fragment, the version and one line for each header.
-/

open Scan Splice Lines

namespace CoroutineScheduler.Http

open Uri (decimal digits_decimal)

/-! ## Requests that can be sent -/

/-- The text of a header field: no line ends and no bytes that the machine refuses, and no blank in
front, which the machine skips. -/
structure FieldText (value : List UInt8) : Prop where
  bytes : ∀ b ∈ value, b ≠ 0 ∧ b ≠ 10 ∧ b ≠ 13 ∧ b ≠ 127
  front : ∀ b ∈ value.head?, blank b = false

/-- A field name and its text. -/
structure Field (h : List UInt8 × List UInt8) : Prop where
  ne_nil : h.1 ≠ []
  token : ∀ b ∈ h.1, OriginForm.token b = true
  text : FieldText h.2

/-- A request whose parts are made of the bytes that the grammar has for them. -/
structure Plain (r : HttpRequest) : Prop where
  websocket : r.websocket = false
  method : (httpMethodToString r.method).all OriginForm.upper = true
  path : ∃ tail, r.path = 47 :: tail ∧ ∀ b ∈ tail, OriginForm.pchar b = true ∨ b = 47
  query : ∀ b ∈ r.query, OriginForm.qchar b = true
  fragment : ∀ b ∈ r.fragment, OriginForm.qchar b = true
  version : r.version = 0x11 ∨ r.version = 0x10
  headers : ∀ h ∈ r.headers, Field h ∧ folded h.1 ≠ folded (ascii "content-length")

/-- The headers as `dump` writes them. -/
def sentFields (r : HttpRequest) : MapType :=
  (ascii "connection", ascii (if r.close then "close" else "keep-alive")) ::
    (r.headers.filter fun i => folded i.1 ≠ folded (ascii "connection")) ++
      if r.body ≠ [] then [(ascii "content-length", decimal r.body.length)] else []

/-- The header map that they give. -/
def sentHeaders (r : HttpRequest) : MapType :=
  (sentFields r).foldl (fun m h => m.add h.1 h.2) []

/-- A line of the header section. -/
def fieldLine (h : List UInt8 × List UInt8) : List UInt8 := h.1 ++ ascii ": " ++ h.2 ++ crlf

/-- The header section. -/
def headText (r : HttpRequest) : List UInt8 :=
  r.requestLine ++ crlf ++ (sentFields r).flatMap fieldLine ++ crlf

/-- `dump` is the header section and the body. -/
theorem dump_eq {r : HttpRequest} (hw : r.websocket = false) : r.dump = headText r ++ r.body := by
  have hlines : ∀ m : MapType, unlines (m.map fun i => i.1 ++ ascii ": " ++ i.2) =
      m.flatMap fieldLine := by
    intro m
    unfold unlines
    rw [List.flatMap_map]
    rfl
  unfold HttpRequest.dump headText sentFields connectionLine headerLines bodyText
  rw [hw]
  simp only [Bool.not_false, if_true, Bool.true_and, List.cons_append]
  rw [unlines_cons, List.nil_append, unlines_cons, hlines]
  by_cases hb : r.body = []
  · simp [hb, fieldLine, List.flatMap_cons, decide_not]
    rfl
  · simp [hb, fieldLine, List.flatMap_append, List.flatMap_cons, decide_not]
    rfl

/-! ## The parts of the header section -/

/-- The request that has been read so far, without an error. -/
def Holds (d : HttpRequest) (e : RequestParser) : Prop :=
  e.data = d ∧ e.error = 0 ∧ e.threw = false

/-- A text behind `pre` leads from one place and request to another. -/
abbrev Fills (d : HttpRequest) (s : OriginForm.State) (pre xs : List UInt8) (s' : OriginForm.State)
    (d' : HttpRequest) : Prop :=
  Leads (m := OriginForm.scanner) RequestParser.act requestHandlers.breaks (Holds d) s pre xs s'
    (Holds d')

theorem slice_between (pre xs ys : List UInt8) : slice (pre ++ (xs ++ ys)) pre.length xs.length = xs := by
  unfold slice
  rw [List.drop_left, List.take_left]

/-- What the mark has cut out at the end of a token. -/
theorem marked_token {e : RequestParser} {pre xs ys : List UInt8} (h : e.mark = pre.length) :
    e.marked ((pre ++ xs) ++ ys) (pre ++ xs).length = xs := by
  unfold RequestParser.marked
  rw [h, List.length_append, Nat.add_sub_cancel_left, List.append_assoc, slice_between]

section
variable {d d' : HttpRequest} {s s₂ : OriginForm.State} {pre xs ys : List UInt8} {b c : UInt8}
  {as : List Action}

/-- A token: its first byte sets the mark, the others follow in one state, and the byte behind it has
the actions that use the mark. -/
theorem fills_token (s₁ : OriginForm.State) (as : List Action)
    (hfirst : OriginForm.next s b = some (s₁, [.mark]))
    (hloop : ∀ x ∈ xs, OriginForm.next s₁ x = some (s₁, []))
    (hlast : OriginForm.next s₁ c = some (s₂, as)) (hbreaks : as.any requestHandlers.breaks = false)
    (hact : ∀ ys e, Holds d e → e.mark = pre.length → Holds d'
      (as.foldl (fun e a => e.act ((pre ++ b :: xs) ++ c :: ys) (pre ++ b :: xs).length a) e)) :
    Fills d s pre (b :: xs ++ [c]) s₂ d' := by
  have h1 : Leads (m := OriginForm.scanner) RequestParser.act requestHandlers.breaks (Holds d) s pre
      [b] s₁ fun e => Holds d e ∧ e.mark = pre.length :=
    Leads.one _ hfirst rfl fun ys e he => ⟨he, rfl⟩
  have h2 : Leads (m := OriginForm.scanner) RequestParser.act requestHandlers.breaks
      (fun e => Holds d e ∧ e.mark = pre.length) s₁ (pre ++ [b]) xs s₁
      fun e => Holds d e ∧ e.mark = pre.length := Leads.loop hloop
  refine (h1.trans h2).trans (Leads.one as hlast hbreaks fun ys e he => ?_)
  exact hact ys e he.1 he.2

theorem ne_of_class {cls : UInt8 → Bool} (hb : cls b = true) (hc : cls c = false) : b ≠ c := by
  rintro rfl
  rw [hc] at hb
  cases hb

/-- A byte of a class that belongs to the same place. -/
theorem next_method {n : ℕ} (hb : OriginForm.upper b = true) (hn : n < 20) :
    OriginForm.next (.method n) b = some (.method (n + 1), []) := by
  rw [OriginForm.next, if_neg (ne_of_class hb (by decide)), if_pos ⟨hb, hn⟩]

theorem next_path (hb : OriginForm.pchar b = true ∨ b = 47) :
    OriginForm.next .path b = some (.path, []) := by
  have hne : ∀ c, OriginForm.pchar c = false → c ≠ 47 → b ≠ c := by
    intro c hc h47
    rcases hb with hb | rfl
    · exact ne_of_class hb hc
    · exact h47.symm
  rw [OriginForm.next, if_neg (hne 32 (by decide) (by decide)), if_neg (hne 63 (by decide) (by decide)),
    if_neg (hne 35 (by decide) (by decide)), if_pos hb]

theorem next_query0 (hb : OriginForm.qchar b = true) :
    OriginForm.next .query0 b = some (.query, [.startQuery]) := by
  rw [OriginForm.next, if_neg (ne_of_class hb (by decide)), if_neg (ne_of_class hb (by decide)),
    if_pos hb]

theorem next_query (hb : OriginForm.qchar b = true) :
    OriginForm.next .query b = some (.query, []) := by
  rw [OriginForm.next, if_neg (ne_of_class hb (by decide)), if_neg (ne_of_class hb (by decide)),
    if_pos hb]

theorem next_fragment0 (hb : OriginForm.qchar b = true) :
    OriginForm.next .fragment0 b = some (.fragment, [.mark]) := by
  rw [OriginForm.next, if_neg (ne_of_class hb (by decide)), if_pos hb]

theorem next_fragment (hb : OriginForm.qchar b = true) :
    OriginForm.next .fragment b = some (.fragment, []) := by
  rw [OriginForm.next, if_neg (ne_of_class hb (by decide)), if_pos hb]

theorem next_fields (hb : OriginForm.token b = true) :
    OriginForm.next .fields b = some (.field, [.startField]) := by
  rw [OriginForm.next, if_neg (ne_of_class hb (by decide)), if_neg (ne_of_class hb (by decide)),
    if_pos hb]

theorem next_field (hb : OriginForm.token b = true) :
    OriginForm.next .field b = some (.field, []) := by
  rw [OriginForm.next, if_neg (ne_of_class hb (by decide)), if_pos hb]

theorem next_value (hb : b ≠ 0 ∧ b ≠ 10 ∧ b ≠ 13 ∧ b ≠ 127) :
    OriginForm.next .value b = some (.value, []) := by
  rw [OriginForm.next, if_neg hb.2.1, if_neg hb.2.2.1, if_neg fun h => h.elim hb.1 hb.2.2.2]

theorem next_value0 (hb : b ≠ 0 ∧ b ≠ 10 ∧ b ≠ 13 ∧ b ≠ 127) (hblank : blank b = false) :
    OriginForm.next .value0 b = some (.value, [.startValue]) := by
  have hn : ¬(b = 9 ∨ b = 32) := by
    rintro (rfl | rfl) <;> exact absurd hblank (by decide)
  rw [OriginForm.next, if_neg hn, if_neg hb.2.1, if_neg hb.2.2.1, if_neg fun h => h.elim hb.1 hb.2.2.2]

/-! ### The request line -/

theorem method_facts (m : HttpMethod) (h : (httpMethodToString m).all OriginForm.upper = true) :
    0 < (httpMethodToString m).length ∧ (httpMethodToString m).length ≤ 20 ∧
      charsToHttpMethod (httpMethodToString m ++ [32]) = some m := by
  cases m <;> first | exact absurd h (by decide) | exact by decide

theorem fills_method {m : HttpMethod} (h : (httpMethodToString m).all OriginForm.upper = true) :
    Fills {} .start [] (httpMethodToString m ++ [32]) .target { method := m } := by
  obtain ⟨hpos, hle, hchars⟩ := method_facts m h
  rw [List.all_eq_true] at h
  cases htext : httpMethodToString m with
  | nil =>
    rw [htext] at hpos
    cases hpos
  | cons b xs =>
    rw [htext] at h hle hchars
    rw [List.length_cons] at hle
    have h1 : Leads (m := OriginForm.scanner) RequestParser.act requestHandlers.breaks (Holds {}) .start
        [] [b] (.method 1) fun e => Holds {} e ∧ e.mark = 0 :=
      Leads.one [.mark] (if_pos (h b (List.mem_cons_self ..))) rfl fun ys e he => ⟨he, rfl⟩
    have h2 : Leads (m := OriginForm.scanner) RequestParser.act requestHandlers.breaks
        (fun e => Holds {} e ∧ e.mark = 0) (.method 1) ([] ++ [b]) xs (.method (xs.length + 1))
        fun e => Holds {} e ∧ e.mark = 0 := by
      refine Leads.steps (m := OriginForm.scanner) (fun i => .method (i + 1)) fun i c hc => ?_
      have hi : i < xs.length := (List.getElem?_eq_some_iff.1 hc).1
      exact next_method (h c (List.mem_cons_of_mem _ (List.mem_of_getElem? hc))) (by omega)
    refine (h1.trans h2).trans (Leads.one [.requestMethod] rfl rfl fun ys e he => ?_)
    obtain ⟨⟨hdata, herr, hthrew⟩, hmark⟩ := he
    have hdrop : ([] ++ ([b] ++ xs) ++ 32 :: ys).drop e.mark = (b :: xs ++ [32]) ++ ys := by
      rw [hmark]
      simp
    show Holds _ (e.onRequestMethod (([] ++ ([b] ++ xs) ++ 32 :: ys).drop e.mark))
    rw [hdrop, RequestParser.onRequestMethod, charsToHttpMethod_append (by simp), hchars]
    exact ⟨by rw [hdata], herr, hthrew⟩

/-- The path, up to the space, the question mark or the hash behind it. -/
theorem fills_path {tail : List UInt8} (h : ∀ b ∈ tail, OriginForm.pchar b = true ∨ b = 47)
    (hlast : OriginForm.next .path c = some (s₂, .requestPath :: as))
    (has : as = [] ∨ as = [.requestUri]) :
    Fills d .target pre (47 :: tail ++ [c]) s₂ { d with path := 47 :: tail } := by
  refine fills_token .path _ rfl (fun x hx => next_path (h x hx)) hlast ?_ ?_
  · rcases has with rfl | rfl <;> rfl
  · rintro ys e ⟨hdata, herr, hthrew⟩ hmark
    have hpath : e.marked ((pre ++ 47 :: tail) ++ c :: ys) (pre ++ 47 :: tail).length = 47 :: tail :=
      marked_token hmark
    rcases has with rfl | rfl <;>
      exact ⟨by simp only [List.foldl_cons, List.foldl_nil, RequestParser.act, hpath, hdata], herr,
        hthrew⟩

theorem fills_fragment {f : List UInt8} (hf : f ≠ []) (h : ∀ b ∈ f, OriginForm.qchar b = true) :
    Fills d .fragment0 pre (f ++ [32]) .version0 { d with fragment := f } := by
  cases f with
  | nil => exact absurd rfl hf
  | cons b xs =>
    refine fills_token .fragment [.fragment] (next_fragment0 (h b (List.mem_cons_self ..)))
      (fun x hx => next_fragment (h x (List.mem_cons_of_mem _ hx))) rfl rfl ?_
    rintro ys e ⟨hdata, herr, hthrew⟩ hmark
    have hfrag : e.marked ((pre ++ b :: xs) ++ 32 :: ys) (pre ++ b :: xs).length = b :: xs :=
      marked_token hmark
    exact ⟨by simp only [List.foldl_cons, List.foldl_nil, RequestParser.act, hfrag, hdata], herr, hthrew⟩

/-- The query, up to the space or the hash behind it. -/
theorem fills_query {q : List UInt8} (hq : q ≠ []) (h : ∀ b ∈ q, OriginForm.qchar b = true)
    (hlast : OriginForm.next .query c = some (s₂, [.queryString, .requestUri])) :
    Fills d .query0 pre (q ++ [c]) s₂ { d with query := q } := by
  cases q with
  | nil => exact absurd rfl hq
  | cons b xs =>
    have h1 : Leads (m := OriginForm.scanner) RequestParser.act requestHandlers.breaks (Holds d) .query0
        pre [b] .query fun e => Holds d e ∧ e.queryStart = pre.length :=
      Leads.one [.startQuery] (next_query0 (h b (List.mem_cons_self ..))) rfl
        fun ys e he => ⟨he, rfl⟩
    have h2 : Leads (m := OriginForm.scanner) RequestParser.act requestHandlers.breaks
        (fun e => Holds d e ∧ e.queryStart = pre.length) .query (pre ++ [b]) xs .query
        fun e => Holds d e ∧ e.queryStart = pre.length :=
      Leads.loop fun x hx => next_query (h x (List.mem_cons_of_mem _ hx))
    refine (h1.trans h2).trans (Leads.one _ hlast rfl fun ys e he => ?_)
    obtain ⟨⟨hdata, herr, hthrew⟩, hstart⟩ := he
    have hlt : ¬ (pre ++ ([b] ++ xs)).length < e.queryStart := by
      rw [hstart, List.length_append]
      omega
    have hslice : slice ((pre ++ ([b] ++ xs)) ++ c :: ys) e.queryStart
        ((pre ++ ([b] ++ xs)).length - e.queryStart) = b :: xs := by
      rw [hstart, List.length_append, Nat.add_sub_cancel_left, List.append_assoc, slice_between]
      rfl
    simp only [List.foldl_cons, List.foldl_nil, RequestParser.act, if_neg hlt, hslice]
    exact ⟨by rw [hdata], herr, hthrew⟩

/-- The version, with the end of its line. -/
theorem fills_version {x v : UInt8} (hx : (x = 49 ∧ v = 0x11) ∨ (x = 48 ∧ v = 0x10)) :
    Fills d .version0 pre (ascii "HTTP/1." ++ [x] ++ crlf) .fields { d with version := v } := by
  have hsteps : ∀ i b, (OriginForm.versionTail ++ [x])[i]? = some b →
      OriginForm.next (.version i) b = some (.version (i + 1), []) := by
    intro i b hb
    have hi : i < 7 := (List.getElem?_eq_some_iff.1 hb).1
    rcases hx with ⟨rfl, -⟩ | ⟨rfl, -⟩ <;> interval_cases i <;> cases hb <;> rfl
  have htext : versionOf (ascii "HTTP/1." ++ [x]) = some v := by
    rcases hx with ⟨rfl, rfl⟩ | ⟨rfl, rfl⟩ <;> decide
  have h1 : Leads (m := OriginForm.scanner) RequestParser.act requestHandlers.breaks (Holds d) .version0
      pre [72] (.version 0) fun e => Holds d e ∧ e.mark = pre.length :=
    Leads.one [.mark] rfl rfl fun ys e he => ⟨he, rfl⟩
  have h2 : Leads (m := OriginForm.scanner) RequestParser.act requestHandlers.breaks
      (fun e => Holds d e ∧ e.mark = pre.length) (.version 0) (pre ++ [72])
      (OriginForm.versionTail ++ [x]) (.version 7) fun e => Holds d e ∧ e.mark = pre.length :=
    Leads.steps (m := OriginForm.scanner) .version hsteps
  have h3 : Leads (m := OriginForm.scanner) RequestParser.act requestHandlers.breaks
      (fun e => Holds d e ∧ e.mark = pre.length) (.version 7)
      (pre ++ ([72] ++ (OriginForm.versionTail ++ [x]))) [13] .cr (Holds { d with version := v }) := by
    refine Leads.one [.httpVersion] rfl rfl fun ys e he => ?_
    obtain ⟨⟨hdata, herr, hthrew⟩, hmark⟩ := he
    show Holds _ (e.onRequestVersion (e.marked _ _))
    rw [marked_token hmark, RequestParser.onRequestVersion,
      show [72] ++ (OriginForm.versionTail ++ [x]) = ascii "HTTP/1." ++ [x] from rfl, htext]
    exact ⟨by rw [hdata], herr, hthrew⟩
  have h4 : Leads (m := OriginForm.scanner) RequestParser.act requestHandlers.breaks
      (Holds { d with version := v }) .cr (pre ++ ([72] ++ (OriginForm.versionTail ++ [x]) ++ [13])) [10]
      .fields (Holds { d with version := v }) := Leads.one [] rfl rfl fun _ _ => id
  exact ((h1.trans h2).trans h3).trans h4

/-! ### The header lines -/

/-- Behind the name of a field that starts behind `pre`. -/
def Named (d : HttpRequest) (pre name : List UInt8) (e : RequestParser) : Prop :=
  Holds d e ∧ e.fieldStart = pre.length ∧ e.fieldLen = name.length

/-- A field name, with the colon and the space behind it. -/
theorem fills_name {name : List UInt8} (hne : name ≠ [])
    (h : ∀ b ∈ name, OriginForm.token b = true) :
    Leads (m := OriginForm.scanner) RequestParser.act requestHandlers.breaks (Holds d) .fields pre
      (name ++ [58] ++ [32]) .value0 (Named d pre name) := by
  cases name with
  | nil => exact absurd rfl hne
  | cons b xs =>
    have h1 : Leads (m := OriginForm.scanner) RequestParser.act requestHandlers.breaks (Holds d) .fields
        pre [b] .field fun e => Holds d e ∧ e.fieldStart = pre.length :=
      Leads.one [.startField] (next_fields (h b (List.mem_cons_self ..))) rfl
        fun ys e he => ⟨he, rfl⟩
    have h2 : Leads (m := OriginForm.scanner) RequestParser.act requestHandlers.breaks
        (fun e => Holds d e ∧ e.fieldStart = pre.length) .field (pre ++ [b]) xs .field
        fun e => Holds d e ∧ e.fieldStart = pre.length :=
      Leads.loop fun x hx => next_field (h x (List.mem_cons_of_mem _ hx))
    refine Leads.trans (Q := Named d pre (b :: xs))
      ((h1.trans h2).trans (Leads.one [.writeField] rfl rfl fun ys e he => ⟨he.1, he.2, ?_⟩))
      (Leads.one [.startValue] rfl rfl fun ys e he => he)
    show (pre ++ ([b] ++ xs)).length - e.fieldStart = _
    rw [he.2, List.length_append, Nat.add_sub_cancel_left]
    rfl

/-- At the end of a value the field goes into the map. -/
theorem writeValue_holds {name : List UInt8} (value ys : List UInt8) {e : RequestParser} (h : Named d pre name e)
    (hmark : e.mark = (pre ++ (name ++ [58] ++ [32])).length) :
    Holds { d with headers := d.headers.add name value }
      (e.act (((pre ++ (name ++ [58] ++ [32])) ++ value) ++ ys)
        ((pre ++ (name ++ [58] ++ [32])) ++ value).length .writeValue) := by
  obtain ⟨⟨hdata, herr, hthrew⟩, hstart, hlen⟩ := h
  have hname : slice (((pre ++ (name ++ [58] ++ [32])) ++ value) ++ ys) e.fieldStart e.fieldLen =
      name := by
    rw [hstart, hlen]
    simp only [List.append_assoc]
    exact slice_between pre name _
  rw [RequestParser.act, RequestParser.onRequestHttpField, hname, marked_token hmark]
  exact ⟨by rw [hdata], herr, hthrew⟩

/-- The text of a field, with the carriage return behind it. -/
theorem fills_value {name value : List UInt8} (h : FieldText value) :
    Leads (m := OriginForm.scanner) RequestParser.act requestHandlers.breaks (Named d pre name) .value0
      (pre ++ (name ++ [58] ++ [32])) (value ++ [13]) .cr
      (Holds { d with headers := d.headers.add name value }) := by
  cases value with
  | nil =>
    refine Leads.one [.startValue, .writeValue] rfl rfl fun ys e he => ?_
    have hw := writeValue_holds [] (13 :: ys)
      (e := e.act ((pre ++ (name ++ [58] ++ [32])) ++ 13 :: ys)
        (pre ++ (name ++ [58] ++ [32])).length .startValue) he rfl
    rw [List.append_nil] at hw
    exact hw
  | cons c cs =>
    have h1 : Leads (m := OriginForm.scanner) RequestParser.act requestHandlers.breaks
        (Named d pre name) .value0 (pre ++ (name ++ [58] ++ [32])) [c] .value
        fun e => Named d pre name e ∧ e.mark = (pre ++ (name ++ [58] ++ [32])).length :=
      Leads.one [.startValue]
        (next_value0 (h.bytes c (List.mem_cons_self ..)) (h.front c rfl)) rfl fun ys e he => ⟨he, rfl⟩
    refine (h1.trans (Leads.loop fun x hx => next_value (h.bytes x (List.mem_cons_of_mem _ hx)))).trans
      (Leads.one [.writeValue] rfl rfl fun ys e he => ?_)
    exact writeValue_holds _ _ he.1 he.2

/-- A line of the header section. -/
theorem fills_field {h : List UInt8 × List UInt8} (hf : Field h) :
    Fills d .fields pre (fieldLine h) .fields { d with headers := d.headers.add h.1 h.2 } := by
  have hlf : Leads (m := OriginForm.scanner) RequestParser.act requestHandlers.breaks
      (Holds { d with headers := d.headers.add h.1 h.2 }) .cr
      (pre ++ (h.1 ++ [58] ++ [32] ++ (h.2 ++ [13]))) [10] .fields
      (Holds { d with headers := d.headers.add h.1 h.2 }) :=
    Leads.one [] rfl rfl fun _ _ => id
  have hline : fieldLine h = h.1 ++ [58] ++ [32] ++ (h.2 ++ [13]) ++ [10] := by
    simp only [fieldLine, crlf, List.append_assoc]
    rfl
  rw [hline]
  exact ((fills_name hf.ne_nil hf.token).trans (fills_value hf.text)).trans hlf

theorem fills_fields {fs : MapType} (h : ∀ f ∈ fs, Field f) :
    Fills d .fields pre (fs.flatMap fieldLine) .fields
      { d with headers := fs.foldl (fun m f => m.add f.1 f.2) d.headers } := by
  induction fs generalizing d pre with
  | nil => exact Leads.nil fun _ => id
  | cons f fs ih =>
    rw [List.flatMap_cons]
    exact (fills_field (h f (List.mem_cons_self ..))).trans
      (ih fun g hg => h g (List.mem_cons_of_mem _ hg))

end

/-! ## The header section as a whole -/

section
variable {r : HttpRequest}

/-- The part of a request that its first line holds. -/
def firstLine (r : HttpRequest) : HttpRequest :=
  { method := r.method, version := r.version, path := r.path, query := r.query,
    fragment := r.fragment }

theorem fills_requestLine (h : Plain r) :
    Fills {} .start [] (r.requestLine ++ crlf) .fields (firstLine r) := by
  obtain ⟨tail, hpath, htail⟩ := h.path
  have hversion : ∃ x, versionText r.version = ascii "1." ++ [x] ∧
      ((x = 49 ∧ r.version = 0x11) ∨ (x = 48 ∧ r.version = 0x10)) := by
    rcases h.version with hv | hv <;> rw [hv]
    · exact ⟨49, by decide, .inl ⟨rfl, rfl⟩⟩
    · exact ⟨48, by decide, .inr ⟨rfl, rfl⟩⟩
  obtain ⟨x, htext, hx⟩ := hversion
  have hm := fills_method h.method
  have hpathTo : ∀ c s as, OriginForm.next .path c = some (s, .requestPath :: as) →
      as = [] ∨ as = [.requestUri] →
      Fills {} .start [] (httpMethodToString r.method ++ [32] ++ (47 :: tail ++ [c])) s
        { method := r.method, path := 47 :: tail } :=
    fun c s as hlast has => hm.trans (fills_path htail hlast has)
  have hline : r.requestLine ++ crlf = httpMethodToString r.method ++ [32] ++ (47 :: tail) ++
      (if r.query = [] then [] else [63] ++ r.query) ++
      (if r.fragment = [] then [] else [35] ++ r.fragment) ++ [32] ++
        (ascii "HTTP/1." ++ [x] ++ crlf) := by
    unfold HttpRequest.requestLine
    rw [hpath, htext]
    by_cases hq : r.query = [] <;> by_cases hf : r.fragment = [] <;> simp [hq, hf, ascii]
  unfold firstLine
  rw [hline, hpath]
  by_cases hq : r.query = [] <;> by_cases hf : r.fragment = []
  · rw [if_pos hq, if_pos hf, hq, hf]
    have hall := (hpathTo 32 .version0 _ rfl (.inr rfl)).trans (fills_version hx)
    simpa only [List.append_assoc, List.append_nil, List.nil_append] using hall
  · rw [if_pos hq, if_neg hf, hq]
    have hall := ((hpathTo 35 .fragment0 _ rfl (.inr rfl)).trans
      (fills_fragment hf h.fragment)).trans (fills_version hx)
    simpa only [List.append_assoc, List.append_nil, List.nil_append] using hall
  · rw [if_neg hq, if_pos hf, hf]
    have hall := ((hpathTo 63 .query0 _ rfl (.inl rfl)).trans
      (fills_query hq h.query (show OriginForm.next .query 32 = some (.version0, _) from rfl))).trans (fills_version hx)
    simpa only [List.append_assoc, List.append_nil, List.nil_append] using hall
  · rw [if_neg hq, if_neg hf]
    have hall := (((hpathTo 63 .query0 _ rfl (.inl rfl)).trans
      (fills_query hq h.query (show OriginForm.next .query 35 = some (.fragment0, _) from rfl))).trans
        (fills_fragment hf h.fragment)).trans (fills_version hx)
    simpa only [List.append_assoc, List.append_nil, List.nil_append] using hall

end

end CoroutineScheduler.Http
