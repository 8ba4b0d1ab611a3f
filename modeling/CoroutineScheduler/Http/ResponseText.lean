import CoroutineScheduler.Http.RequestDelivery
import CoroutineScheduler.Http.Connection
import CoroutineScheduler.Http.ResponseForm

/-!
# A response as it is sent and received

What `HttpResponse::dump` writes is led through the machine on responses with a length: the status
line, and one line for each header. A line `Connection: close` leaves the machine in a state of its
own, from which the next line starts.
-/

open Scan Splice Lines

namespace CoroutineScheduler.Http

open Uri (decimal digits_decimal digitsValue_decimal)

open ResponseForm (lower digit token space protocolTail firstByte)

/-! ## Responses that can be sent -/

/-- A header of a response: a name of token bytes that has no special transitions but those of
`Connection` and `Content-Length`, a text without line ends and without a space in front, which is not
empty for these two. -/
structure Header (h : List UInt8 × List UInt8) : Prop where
  ne_nil : h.1 ≠ []
  token : ∀ b ∈ h.1, token b = true
  plain : lower h.1 ≠ ascii "transfer-encoding"
  bytes : ∀ b ∈ h.2, b ≠ 10 ∧ b ≠ 13
  front : ∀ b ∈ h.2.head?, space b = false
  value : lower h.1 = ascii "connection" ∨ lower h.1 = ascii "content-length" → h.2 ≠ []

/-- The reason as `dump` writes it. -/
def reasonText (r : HttpResponse) : List UInt8 :=
  if r.reason = [] then httpStatusToString r.status else r.reason

/-- A response whose parts are made of the bytes that the grammar has for them. -/
structure Regular (r : HttpResponse) : Prop where
  websocket : r.websocket = false
  status : 0 ≤ r.status ∧ r.status < 2 ^ 31
  version : r.version = 0x11 ∨ r.version = 0x10
  reason : ∀ b ∈ r.reason, b ≠ 10 ∧ b ≠ 13
  headers : ∀ h ∈ r.headers, Header h ∧ folded h.1 ≠ folded (ascii "content-length")
  cookies : ∀ c ∈ r.cookies, Header (ascii "Set-Cookie", c)

/-- The headers as `dump` writes them. -/
def writtenFields (r : HttpResponse) : MapType :=
  (r.headers.filter fun i => folded i.1 ≠ folded (ascii "connection")) ++
    r.cookies.map (fun c => (ascii "Set-Cookie", c)) ++
    [(ascii "connection", ascii (if r.close then "close" else "keep-alive"))] ++
    if r.body ≠ [] then [(ascii "content-length", decimal r.body.length)] else []

/-- The header map that they give. -/
def writtenHeaders (r : HttpResponse) : MapType :=
  (writtenFields r).foldl (fun m h => m.add h.1 h.2) []

/-- The header section. -/
def responseHead (r : HttpResponse) : List UInt8 :=
  r.statusLine ++ crlf ++ (writtenFields r).flatMap fieldLine ++ crlf

/-- `dump` is the header section and the body. -/
theorem responseDump_eq {r : HttpResponse} (hw : r.websocket = false) :
    r.dump = responseHead r ++ r.body := by
  have hlines : ∀ m : MapType, unlines (m.map fun i => i.1 ++ ascii ": " ++ i.2) =
      m.flatMap fieldLine := by
    intro m
    unfold unlines
    rw [List.flatMap_map]
    rfl
  have hcookies : unlines (r.cookies.map (ascii "Set-Cookie: " ++ ·)) =
      (r.cookies.map fun c => (ascii "Set-Cookie", c)).flatMap fieldLine := by
    rw [← hlines, List.map_map]
    rfl
  have hconn : unlines (connectionLine false r.close) =
      fieldLine (ascii "connection", ascii (if r.close then "close" else "keep-alive")) := by
    rw [connectionLine, Bool.not_false, if_pos rfl, unlines_cons]
    show _ ++ (crlf ++ []) = _
    rw [List.append_nil]
    rfl
  have hbody : bodyText r.body = (if r.body ≠ [] then
      [(ascii "content-length", decimal r.body.length)] else []).flatMap fieldLine ++ crlf ++ r.body := by
    unfold bodyText
    by_cases hb : r.body = []
    · simp [hb]
    · simp only [ne_eq, hb, not_false_eq_true, if_true, List.flatMap_singleton, fieldLine,
        List.append_assoc]
      rfl
  have hheaders : headerLines false r.headers =
      (r.headers.filter fun i => folded i.1 ≠ folded (ascii "connection")).map
        fun i => i.1 ++ ascii ": " ++ i.2 := by
    simp only [headerLines, Bool.not_false, Bool.true_and, decide_not]
  rw [HttpResponse.dump, hw, unlines_append, unlines_append, unlines_cons, hheaders,
    hlines, hcookies, hconn, hbody, responseHead, writtenFields, List.flatMap_append,
    List.flatMap_append, List.flatMap_append, List.flatMap_singleton]
  simp only [List.append_assoc]

/-! ## The machine on a header line -/

/-- The response that has been read so far, without an error and without a sign of chunks. -/
def Got (d : HttpResponse) (e : ResponseParser) : Prop :=
  e.data = d ∧ e.error = 0 ∧ e.chunked = false

/-- A text behind `pre` leads from one place and knowledge of the parser to another. -/
abbrev Turns (P : ResponseParser → Prop) (s : ResponseForm.State) (pre xs : List UInt8)
    (s' : ResponseForm.State) (Q : ResponseParser → Prop) : Prop :=
  Leads (m := ResponseForm.scanner) ResponseParser.act responseHandlers.breaks P s pre xs s' Q

/-- A line that closes the connection. -/
def Closing (name value : List UInt8) : Prop :=
  lower name = ascii "connection" ∧ lower value = ascii "close"

instance (name value : List UInt8) : Decidable (Closing name value) := by
  unfold Closing
  infer_instance

/-- The place behind a part of the text of a field. -/
def valueState (name part : List UInt8) : ResponseForm.State :=
  if lower name = ascii "connection" ∧ lower part <+: ascii "close" then .connection part
  else if lower name = ascii "content-length" ∧ part.all digit = true then .length
  else .value

/-- The place behind a line. -/
def lineState (h : List UInt8 × List UInt8) : ResponseForm.State :=
  if Closing h.1 h.2 then .closeFields else .fields

section
variable {d d' : HttpResponse} {s : ResponseForm.State} {pre name value part xs ys : List UInt8}
  {b c : UInt8} {h : List UInt8 × List UInt8}

theorem lower_append (xs ys : List UInt8) : lower (xs ++ ys) = lower xs ++ lower ys :=
  List.map_append

theorem space_ne (hb : b ≠ 10 ∧ b ≠ 13) (hs : space b = false) : ¬(b = 10 ∨ b = 13) := by
  rintro (rfl | rfl)
  · exact hb.1 rfl
  · exact hb.2 rfl

theorem names_ne (hc : lower name = ascii "connection") : lower name ≠ ascii "content-length" := by
  rw [hc]
  decide

theorem valueState_connection (h : lower name = ascii "connection") : valueState name part =
    if lower part <+: ascii "close" then .connection part else .value := by
  unfold valueState
  by_cases hpart : lower part <+: ascii "close"
  · rw [if_pos ⟨h, hpart⟩, if_pos hpart]
  · rw [if_neg fun hc => hpart hc.2, if_neg fun hc => names_ne h hc.1, if_neg hpart]

theorem valueState_length (h : lower name = ascii "content-length") : valueState name part =
    if part.all digit = true then .length else .value := by
  have hconn : lower name ≠ ascii "connection" := fun hc => names_ne hc h
  unfold valueState
  by_cases hpart : part.all digit = true
  · rw [if_neg fun hc => hconn hc.1, if_pos ⟨h, hpart⟩, if_pos hpart]
  · rw [if_neg fun hc => hconn hc.1, if_neg fun hc => hpart hc.2, if_neg hpart]

theorem valueState_other (hconn : lower name ≠ ascii "connection")
    (hlen : lower name ≠ ascii "content-length") : valueState name part = .value := by
  unfold valueState
  rw [if_neg fun hc => hconn hc.1, if_neg fun hc => hlen hc.1]

theorem firstByte_eq (name : List UInt8) (hs : space b = false) :
    firstByte name b = some (valueState name [b], [.startValue]) := by
  unfold firstByte
  rw [hs, if_neg Bool.false_ne_true]
  by_cases hconn : lower name = ascii "connection"
  · have hc : lower [b] <+: ascii "close" ↔ tolower b = 99 := by
      show [tolower b] <+: 99 :: ascii "lose" ↔ _
      rw [List.cons_prefix_cons]
      exact and_iff_left List.nil_prefix
    rw [valueState_connection hconn]
    by_cases hb : tolower b = 99
    · rw [if_pos ⟨hconn, hb⟩, if_pos (hc.2 hb)]
    · rw [if_neg fun h => hb h.2, if_neg fun h => names_ne hconn h.1, if_neg fun h => hb (hc.1 h)]
  · rw [if_neg fun h => hconn h.1]
    by_cases hlen : lower name = ascii "content-length"
    · rw [valueState_length hlen, List.all_cons, List.all_nil, Bool.and_true]
      by_cases hb : digit b = true
      · rw [if_pos ⟨hlen, hb⟩, if_pos hb]
      · rw [if_neg fun h => hb h.2, if_neg hb]
    · rw [if_neg fun h => hlen h.1, valueState_other hconn hlen]

theorem next_valueState (name part : List UInt8) (hb : b ≠ 10 ∧ b ≠ 13) :
    ResponseForm.next (valueState name part) b = some (valueState name (part ++ [b]), []) := by
  by_cases hconn : lower name = ascii "connection"
  · rw [valueState_connection hconn, valueState_connection hconn]
    by_cases hpart : lower part <+: ascii "close"
    · rw [if_pos hpart, ResponseForm.next, if_neg hb.1, if_neg hb.2]
    · have hmore : ¬lower (part ++ [b]) <+: ascii "close" := by
        rw [lower_append]
        exact fun hpre => hpart ((List.prefix_append _ _).trans hpre)
      rw [if_neg hpart, if_neg hmore, ResponseForm.next, if_neg hb.1, if_neg hb.2]
  · by_cases hlen : lower name = ascii "content-length"
    · rw [valueState_length hlen, valueState_length hlen, List.all_append, List.all_cons, List.all_nil,
        Bool.and_true]
      by_cases hpart : part.all digit = true
      · rw [if_pos hpart, ResponseForm.next, if_neg hb.1, if_neg hb.2, hpart, Bool.true_and]
      · rw [if_neg hpart, Bool.eq_false_iff.2 hpart, Bool.false_and, if_neg Bool.false_ne_true,
          ResponseForm.next, if_neg hb.1, if_neg hb.2]
    · rw [valueState_other hconn hlen, valueState_other hconn hlen, ResponseForm.next, if_neg hb.1,
        if_neg hb.2]

/-- The actions at the end of a text. -/
theorem next_valueEnd (name value : List UInt8) : ∃ as,
    (as = [ResponseAction.writeValue] ∨ as = [ResponseAction.writeContentLen, .writeValue]) ∧
    ResponseForm.next (valueState name value) 13 =
      some (if Closing name value then .closeCr else .cr, as) := by
  by_cases hconn : lower name = ascii "connection"
  · have hclosing : Closing name value ↔ lower value = ascii "close" := and_iff_right hconn
    rw [valueState_connection hconn]
    refine ⟨_, .inl rfl, ?_⟩
    by_cases hpart : lower value <+: ascii "close"
    · rw [if_pos hpart]
      by_cases hc : lower value = ascii "close"
      · rw [if_pos (hclosing.2 hc), ResponseForm.next, if_neg (by decide), if_pos rfl, if_pos hc]
      · rw [if_neg fun h => hc (hclosing.1 h), ResponseForm.next, if_neg (by decide), if_pos rfl,
          if_neg hc]
    · have hc : lower value ≠ ascii "close" := fun he => hpart (he ▸ List.prefix_refl _)
      rw [if_neg hpart, if_neg fun h => hc (hclosing.1 h)]
      rfl
  · rw [if_neg (show ¬Closing name value from fun h => hconn h.1)]
    by_cases hlen : lower name = ascii "content-length"
    · rw [valueState_length hlen]
      split_ifs
      · exact ⟨_, .inr rfl, rfl⟩
      · exact ⟨_, .inl rfl, rfl⟩
    · rw [valueState_other hconn hlen]
      exact ⟨_, .inl rfl, rfl⟩

theorem next_name (hb : token b = true) :
    ResponseForm.next (.field name) b = some (.field (name ++ [b]), []) := by
  rw [ResponseForm.next, if_neg (ne_of_class hb (by decide)), if_pos hb]

/-- The first byte of a name, behind any line. -/
theorem next_line (hs : s = .fields ∨ s = .closeFields) (hb : token b = true) : ∃ as,
    (as = [ResponseAction.startField] ∨ as = [ResponseAction.writeConnectionClose, .startField]) ∧
    ResponseForm.next s b = some (.field [b], as) := by
  rcases hs with rfl | rfl
  · refine ⟨_, .inl rfl, ?_⟩
    rw [ResponseForm.next, if_neg (ne_of_class hb (by decide)), if_neg (ne_of_class hb (by decide)),
      if_pos hb]
  · refine ⟨_, .inr rfl, ?_⟩
    rw [ResponseForm.next, if_neg (ne_of_class hb (by decide)), if_neg (ne_of_class hb (by decide)),
      if_pos hb]

theorem space_twenty : firstByte name 32 = some (.value0 name, [.startValue]) := rfl

/-- Behind the name of a field that starts behind `pre`. -/
def Labelled (d : HttpResponse) (pre name : List UInt8) (e : ResponseParser) : Prop :=
  Got d e ∧ e.fieldStart = pre.length ∧ e.fieldLen = name.length

/-- A field name, with the colon and the space behind it. -/
theorem turns_name (hs : s = .fields ∨ s = .closeFields) (hh : Header h) :
    Turns (Got d) s pre (h.1 ++ [58] ++ [32]) (.value0 h.1) (Labelled d pre h.1) := by
  obtain ⟨name, value⟩ := h
  obtain ⟨hne, htoken, hplain, -, -, -⟩ := hh
  dsimp only at hne htoken hplain ⊢
  cases name with
  | nil => exact absurd rfl hne
  | cons b xs =>
    obtain ⟨as, has, hnext⟩ := next_line hs (htoken b (List.mem_cons_self ..))
    have h1 : Turns (Got d) s pre [b] (.field [b]) fun e => Got d e ∧ e.fieldStart = pre.length := by
      refine Leads.one as hnext ?_ ?_
      · rcases has with rfl | rfl <;> rfl
      · rintro ys e ⟨hdata, herr, hchunked⟩
        rcases has with rfl | rfl <;> exact ⟨⟨hdata, herr, hchunked⟩, rfl⟩
    have h2 : Turns (fun e => Got d e ∧ e.fieldStart = pre.length) (.field [b]) (pre ++ [b]) xs
        (.field (b :: xs)) fun e => Got d e ∧ e.fieldStart = pre.length := by
      have hsteps : Turns (fun e => Got d e ∧ e.fieldStart = pre.length) (.field (b :: xs.take 0))
          (pre ++ [b]) xs (.field (b :: xs.take xs.length))
          fun e => Got d e ∧ e.fieldStart = pre.length := by
        refine Leads.steps (m := ResponseForm.scanner) (fun i => .field (b :: xs.take i)) fun i c hc => ?_
        have hmem := List.mem_cons_of_mem b (List.mem_of_getElem? hc)
        have htake : b :: xs.take (i + 1) = (b :: xs.take i) ++ [c] := by
          rw [List.take_add_one, hc]
          rfl
        rw [htake]
        exact next_name (htoken c hmem)
      rwa [List.take_zero, List.take_length] at hsteps
    have hcolon : ResponseForm.next (.field (b :: xs)) 58 = some (.value0 (b :: xs), [.writeField]) := by
      rw [ResponseForm.next, if_pos rfl, if_neg hplain]
    refine Leads.trans (Q := Labelled d pre (b :: xs))
      ((h1.trans h2).trans (Leads.one [.writeField] hcolon rfl fun ys e he => ⟨he.1, he.2, ?_⟩))
      (Leads.one [.startValue] rfl rfl fun ys e he => he)
    show (pre ++ ([b] ++ xs)).length - e.fieldStart = _
    rw [he.2, List.length_append, Nat.add_sub_cancel_left]
    rfl

theorem responseMarked_token {e : ResponseParser} (hmark : e.mark = pre.length) :
    e.marked ((pre ++ xs) ++ ys) (pre ++ xs).length = xs := by
  unfold ResponseParser.marked
  rw [hmark, List.length_append, Nat.add_sub_cancel_left, List.append_assoc, slice_between]

/-- At the end of a value the field goes into the map. -/
theorem writeValue_got {as : List ResponseAction} (value ys : List UInt8) {e : ResponseParser}
    (has : as = [ResponseAction.writeValue] ∨ as = [ResponseAction.writeContentLen, .writeValue])
    (he : Labelled d pre name e) (hmark : e.mark = (pre ++ (name ++ [58] ++ [32])).length) :
    Got { d with headers := d.headers.add name value }
      (as.foldl (fun e a => e.act (((pre ++ (name ++ [58] ++ [32])) ++ value) ++ ys)
        ((pre ++ (name ++ [58] ++ [32])) ++ value).length a) e) := by
  have hwrite : ∀ e : ResponseParser, Labelled d pre name e →
      e.mark = (pre ++ (name ++ [58] ++ [32])).length →
      Got { d with headers := d.headers.add name value }
        (e.act (((pre ++ (name ++ [58] ++ [32])) ++ value) ++ ys)
          ((pre ++ (name ++ [58] ++ [32])) ++ value).length .writeValue) := by
    rintro e ⟨⟨hdata, herr, hchunked⟩, hstart, hlen⟩ hmark
    have hname : slice (((pre ++ (name ++ [58] ++ [32])) ++ value) ++ ys) e.fieldStart e.fieldLen =
        name := by
      rw [hstart, hlen]
      simp only [List.append_assoc]
      exact slice_between pre name _
    rw [ResponseParser.act, ResponseParser.onResponseHttpField, hname, responseMarked_token hmark]
    exact ⟨by rw [hdata], herr, hchunked⟩
  rcases has with rfl | rfl
  · exact hwrite e he hmark
  · exact hwrite (e.act (((pre ++ (name ++ [58] ++ [32])) ++ value) ++ ys)
      ((pre ++ (name ++ [58] ++ [32])) ++ value).length .writeContentLen) he hmark

/-- The text of a field, with the carriage return behind it. -/
theorem turns_value (hh : Header h) : Turns (Labelled d pre h.1) (.value0 h.1)
    (pre ++ (h.1 ++ [58] ++ [32])) (h.2 ++ [13]) (if Closing h.1 h.2 then .closeCr else .cr)
    (Got { d with headers := d.headers.add h.1 h.2 }) := by
  obtain ⟨name, value⟩ := h
  obtain ⟨-, -, -, hbytes, hfront, hvalue⟩ := hh
  dsimp only at hbytes hfront hvalue ⊢
  cases value with
  | nil =>
    have hnames : ¬(lower name = ascii "connection" ∨ lower name = ascii "content-length") :=
      fun hspecial => hvalue hspecial rfl
    have hnext : ResponseForm.next (.value0 name) 13 = some (.cr, [.startValue, .writeValue]) := by
      rw [ResponseForm.next, if_pos (.inr rfl), if_neg hnames, if_neg (by decide)]
    rw [if_neg (show ¬Closing name [] from fun hc => hnames (.inl hc.1))]
    refine Leads.one _ hnext rfl fun ys e he => ?_
    have hw := writeValue_got (d := d) [] (13 :: ys) (e := e.act
      ((pre ++ (name ++ [58] ++ [32])) ++ 13 :: ys) (pre ++ (name ++ [58] ++ [32])).length .startValue)
      (.inl rfl) he rfl
    rw [List.append_nil] at hw
    exact hw
  | cons c cs =>
    have hfirst : ResponseForm.next (.value0 name) c = some (valueState name [c], [.startValue]) := by
      rw [ResponseForm.next, if_neg (space_ne (hbytes c (List.mem_cons_self ..)) (hfront c rfl))]
      exact firstByte_eq name (hfront c rfl)
    have h1 : Turns (Labelled d pre name) (.value0 name) (pre ++ (name ++ [58] ++ [32])) [c]
        (valueState name [c]) fun e => Labelled d pre name e ∧
          e.mark = (pre ++ (name ++ [58] ++ [32])).length :=
      Leads.one [.startValue] hfirst rfl fun ys e he => ⟨he, rfl⟩
    have h2 : Turns (fun e => Labelled d pre name e ∧
          e.mark = (pre ++ (name ++ [58] ++ [32])).length) (valueState name [c])
        (pre ++ (name ++ [58] ++ [32]) ++ [c]) cs (valueState name (c :: cs)) fun e =>
          Labelled d pre name e ∧ e.mark = (pre ++ (name ++ [58] ++ [32])).length := by
      have hsteps : Turns (fun e => Labelled d pre name e ∧
            e.mark = (pre ++ (name ++ [58] ++ [32])).length) (valueState name (c :: cs.take 0))
          (pre ++ (name ++ [58] ++ [32]) ++ [c]) cs (valueState name (c :: cs.take cs.length))
          fun e => Labelled d pre name e ∧ e.mark = (pre ++ (name ++ [58] ++ [32])).length := by
        refine Leads.steps (m := ResponseForm.scanner) (fun i => valueState name (c :: cs.take i))
          fun i x hx => ?_
        have hmem := List.mem_cons_of_mem c (List.mem_of_getElem? hx)
        have htake : c :: cs.take (i + 1) = (c :: cs.take i) ++ [x] := by
          rw [List.take_add_one, hx]
          rfl
        rw [htake]
        exact next_valueState name _ (hbytes x hmem)
      rwa [List.take_zero, List.take_length] at hsteps
    obtain ⟨as, has, hend⟩ := next_valueEnd name (c :: cs)
    refine (h1.trans h2).trans (Leads.one as hend ?_ fun ys e he => ?_)
    · rcases has with rfl | rfl <;> rfl
    · exact writeValue_got _ _ has he.1 he.2

/-- A line of the header section. -/
theorem turns_field (hs : s = .fields ∨ s = .closeFields) (hh : Header h) :
    Turns (Got d) s pre (fieldLine h) (lineState h)
      (Got { d with headers := d.headers.add h.1 h.2 }) := by
  have hlf : Turns (Got { d with headers := d.headers.add h.1 h.2 })
      (if Closing h.1 h.2 then .closeCr else .cr) (pre ++ (h.1 ++ [58] ++ [32] ++ (h.2 ++ [13]))) [10]
      (lineState h) (Got { d with headers := d.headers.add h.1 h.2 }) := by
    unfold lineState
    split_ifs
    · exact Leads.one [] rfl rfl fun _ _ => id
    · exact Leads.one [] rfl rfl fun _ _ => id
  have hline : fieldLine h = h.1 ++ [58] ++ [32] ++ (h.2 ++ [13]) ++ [10] := by
    simp only [fieldLine, crlf, List.append_assoc]
    rfl
  rw [hline]
  exact ((turns_name hs hh).trans (turns_value hh)).trans hlf

theorem lineState_eq (h : List UInt8 × List UInt8) :
    lineState h = .fields ∨ lineState h = .closeFields := by
  unfold lineState
  split_ifs
  · exact .inr rfl
  · exact .inl rfl

theorem turns_fields {fs : MapType} (hs : s = .fields ∨ s = .closeFields) (hf : ∀ f ∈ fs, Header f) :
    ∃ s', (s' = .fields ∨ s' = .closeFields) ∧ Turns (Got d) s pre (fs.flatMap fieldLine) s'
      (Got { d with headers := fs.foldl (fun m f => m.add f.1 f.2) d.headers }) := by
  induction fs generalizing d pre s with
  | nil => exact ⟨s, hs, Leads.nil fun _ => id⟩
  | cons f fs ih =>
    have hline : Turns (Got d) s pre (fieldLine f) (lineState f)
        (Got { d with headers := d.headers.add f.1 f.2 }) := turns_field hs (hf f (List.mem_cons_self ..))
    obtain ⟨s', hs', hrest⟩ := ih (lineState_eq f) fun g hg => hf g (List.mem_cons_of_mem _ hg)
    refine ⟨s', hs', ?_⟩
    rw [List.flatMap_cons]
    exact hline.trans hrest

end

/-! ## The status line -/

section
variable {d : HttpResponse} {pre xs ys : List UInt8} {r : HttpResponse}

/-- `strtol` on a number with a space behind it. -/
theorem strtol_decimal (n : ℕ) (tail : List UInt8) :
    strtol 10 (decimal n ++ 32 :: tail) = min (2 ^ 63 - 1) (n : ℤ) := by
  have hall : ∀ b ∈ decimal n, decide (digitValue b < 10) = true := fun b hb =>
    Uri.digit_iff b ▸ digits_decimal n b hb
  have hvalue : digitsValue 10 (decimal n ++ 32 :: tail) = n := by
    have hn := digitsValue_decimal n
    rw [digitsValue, List.takeWhile_eq_self_iff.2 hall] at hn
    rw [digitsValue, List.takeWhile_append_of_pos hall, List.takeWhile_cons_of_neg (by decide),
      List.append_nil, hn]
  obtain ⟨c, cs, hcons⟩ := List.exists_cons_of_ne_nil (decimal_ne_nil n)
  obtain ⟨hspace, hminus, hplus⟩ := Uri.digit_front c (digits_decimal n c (hcons ▸ List.mem_cons_self ..))
  have hfront : ∀ x, c ≠ x → (decimal n ++ 32 :: tail).head? ≠ some x := by
    intro x hx hhead
    rw [hcons] at hhead
    exact hx (Option.some.inj hhead)
  have hdrop : (decimal n ++ 32 :: tail).dropWhile isspace = decimal n ++ 32 :: tail := by
    rw [hcons, List.cons_append, List.dropWhile_cons, hspace]
    rfl
  simp only [strtol, hdrop, if_neg (hfront 45 hminus), if_neg (hfront 43 hplus)]
  rw [stripHex, if_neg fun h => absurd h.1 (by decide), hvalue]

/-- The version, up to the space behind it. -/
theorem turns_version {x v : UInt8} (hx : (x = 49 ∧ v = 0x11) ∨ (x = 48 ∧ v = 0x10)) :
    Turns (Got {}) .start [] (ascii "HTTP/1." ++ [x] ++ [32]) .status0 (Got { version := v }) := by
  let S : ℕ → ResponseForm.State := fun i =>
    if i < 4 then .protocol i else if i = 4 then .major0 else if i = 5 then .major
    else if i = 6 then .minor0 else .minor
  have hsteps : ∀ i b, (ascii "TTP/1." ++ [x])[i]? = some b →
      ResponseForm.next (S i) b = some (S (i + 1), []) := by
    intro i b hb
    have hi : i < 7 := (List.getElem?_eq_some_iff.1 hb).1
    rcases hx with ⟨rfl, -⟩ | ⟨rfl, -⟩ <;> interval_cases i <;> cases hb <;> rfl
  have htext : versionOf (ascii "HTTP/1." ++ [x]) = some v := by
    rcases hx with ⟨rfl, rfl⟩ | ⟨rfl, rfl⟩ <;> decide
  have h1 : Turns (Got {}) .start [] [72] (.protocol 0) fun e => Got {} e ∧ e.mark = 0 :=
    Leads.one [.mark] rfl rfl fun ys e he => ⟨he, rfl⟩
  have h2 : Turns (fun e => Got {} e ∧ e.mark = 0) (.protocol 0) [72] (ascii "TTP/1." ++ [x]) .minor
      fun e => Got {} e ∧ e.mark = 0 := Leads.steps (m := ResponseForm.scanner) S hsteps
  refine (h1.trans h2).trans (Leads.one [.httpVersion] rfl rfl fun ys e he => ?_)
  obtain ⟨⟨hdata, herr, hchunked⟩, hmark⟩ := he
  show Got _ (e.onResponseVersion (e.marked (([] ++ (ascii "HTTP/1." ++ [x])) ++ 32 :: ys)
    ([] ++ (ascii "HTTP/1." ++ [x])).length))
  rw [responseMarked_token hmark, ResponseParser.onResponseVersion, htext]
  exact ⟨by rw [hdata], herr, hchunked⟩

/-- The code, with the space behind it. -/
theorem turns_status {n : ℕ} (hn : n < 2 ^ 31) : Turns (Got d) .status0 pre (decimal n ++ [32]) .reason0
    (Got { d with status := n }) := by
  have hdigit : ∀ b ∈ decimal n, digit b = true := digits_decimal n
  cases hcons : decimal n with
  | nil => exact absurd hcons (decimal_ne_nil n)
  | cons b xs =>
    rw [hcons] at hdigit
    have hnext : ∀ c, digit c = true → ResponseForm.next .status c = some (.status, []) := by
      intro c hc
      rw [ResponseForm.next, if_neg (ne_of_class hc (by decide)), if_pos hc]
    have h1 : Turns (Got d) .status0 pre [b] .status fun e => Got d e ∧ e.mark = pre.length :=
      Leads.one [.mark] (if_pos (hdigit b (List.mem_cons_self ..))) rfl fun ys e he => ⟨he, rfl⟩
    have h2 : Turns (fun e => Got d e ∧ e.mark = pre.length) .status (pre ++ [b]) xs .status
        fun e => Got d e ∧ e.mark = pre.length :=
      Leads.loop fun c hc => hnext c (hdigit c (List.mem_cons_of_mem _ hc))
    refine (h1.trans h2).trans (Leads.one [.statusCode] rfl rfl fun ys e he => ?_)
    obtain ⟨⟨hdata, herr, hchunked⟩, hmark⟩ := he
    have hdrop : ((pre ++ ([b] ++ xs)) ++ 32 :: ys).drop e.mark = decimal n ++ 32 :: ys := by
      rw [hmark, hcons, List.append_assoc, List.drop_left]
      rfl
    have hstatus : longToInt (strtol 10 (((pre ++ ([b] ++ xs)) ++ 32 :: ys).drop e.mark)) = n := by
      rw [hdrop, strtol_decimal, min_eq_right (by omega)]
      exact Int.bmod_eq_of_le (by norm_num) (by norm_num; omega)
    refine ⟨?_, herr, hchunked⟩
    show { e.data with status := longToInt (strtol 10 (((pre ++ ([b] ++ xs)) ++ 32 :: ys).drop e.mark)) } = _
    rw [hstatus, hdata]

/-- The reason, with the end of the line. -/
theorem turns_reason {reason : List UInt8} (hne : reason ≠ []) (hbytes : ∀ b ∈ reason, b ≠ 10 ∧ b ≠ 13) :
    Turns (Got d) .reason0 pre (reason ++ [13] ++ [10]) .fields (Got { d with reason := reason }) := by
  cases reason with
  | nil => exact absurd rfl hne
  | cons b xs =>
    have h1 : Turns (Got d) .reason0 pre [b] .reason fun e => Got d e ∧ e.mark = pre.length :=
      Leads.one [.mark] (if_neg (hbytes b (List.mem_cons_self ..)).1) rfl fun ys e he => ⟨he, rfl⟩
    have h2 : Turns (fun e => Got d e ∧ e.mark = pre.length) .reason (pre ++ [b]) xs .reason
        fun e => Got d e ∧ e.mark = pre.length := by
      refine Leads.loop fun c hc => ?_
      obtain ⟨h10, h13⟩ := hbytes c (List.mem_cons_of_mem _ hc)
      exact (if_neg h10).trans (if_neg h13)
    have h3 : Turns (fun e => Got d e ∧ e.mark = pre.length) .reason (pre ++ ([b] ++ xs)) [13] .cr
        (Got { d with reason := b :: xs }) := by
      refine Leads.one [.reasonPhrase] rfl rfl fun ys e he => ?_
      obtain ⟨⟨hdata, herr, hchunked⟩, hmark⟩ := he
      refine ⟨?_, herr, hchunked⟩
      have hreason : e.marked ((pre ++ ([b] ++ xs)) ++ 13 :: ys) (pre ++ ([b] ++ xs)).length = b :: xs :=
        responseMarked_token hmark
      simp only [List.foldl_cons, List.foldl_nil, ResponseParser.act, hreason, hdata]
    exact ((h1.trans h2).trans h3).trans (Leads.one [] rfl rfl fun _ _ => id)

theorem httpStatusToString_text (status : ℤ) : httpStatusToString status ≠ [] ∧
    ∀ b ∈ httpStatusToString status, b ≠ 10 ∧ b ≠ 13 := by
  have htable : httpStatusMap.all (fun e => decide (ascii e.2 ≠ []) &&
      (ascii e.2).all fun b => decide (b ≠ 10 ∧ b ≠ 13)) = true := by decide +kernel
  have htext : ∀ text : String, (decide (ascii text ≠ []) &&
      (ascii text).all fun b => decide (b ≠ 10 ∧ b ≠ 13)) = true →
      ascii text ≠ [] ∧ ∀ b ∈ ascii text, b ≠ 10 ∧ b ≠ 13 := by
    intro text h
    rw [Bool.and_eq_true, decide_eq_true_eq, List.all_eq_true] at h
    exact ⟨h.1, fun b hb => of_decide_eq_true (h.2 b hb)⟩
  unfold httpStatusToString
  cases hfind : httpStatusMap.find? fun e => e.1 = status with
  | none => exact htext "<unknown>" (by decide)
  | some e => exact htext e.2 (List.all_eq_true.1 htable e (List.mem_of_find?_eq_some hfind))

/-- The part of a response that its first line holds. -/
def statusPart (r : HttpResponse) : HttpResponse :=
  { status := r.status, version := r.version, reason := reasonText r }

theorem turns_statusLine (h : Regular r) :
    Turns (Got {}) .start [] (r.statusLine ++ crlf) .fields (Got (statusPart r)) := by
  obtain ⟨hpos, hlt⟩ := h.status
  have hversion : ∃ x, versionText r.version = ascii "1." ++ [x] ∧
      ((x = 49 ∧ r.version = 0x11) ∨ (x = 48 ∧ r.version = 0x10)) := by
    rcases h.version with hv | hv <;> rw [hv]
    · exact ⟨49, by decide, .inl ⟨rfl, rfl⟩⟩
    · exact ⟨48, by decide, .inr ⟨rfl, rfl⟩⟩
  obtain ⟨x, htext, hx⟩ := hversion
  obtain ⟨n, hn⟩ := Int.eq_ofNat_of_zero_le hpos
  have hstatus : (r.status % 2 ^ 32).toNat = n := by omega
  have hreason : reasonText r ≠ [] ∧ ∀ b ∈ reasonText r, b ≠ 10 ∧ b ≠ 13 := by
    unfold reasonText
    split_ifs with hr
    · exact httpStatusToString_text r.status
    · exact ⟨hr, h.reason⟩
  have hline : r.statusLine ++ crlf = ascii "HTTP/1." ++ [x] ++ [32] ++ (decimal n ++ [32]) ++
      (reasonText r ++ [13] ++ [10]) := by
    rw [HttpResponse.statusLine, htext, hstatus]
    simp only [reasonText, crlf, List.append_assoc]
    rfl
  have hnumber : n < 2 ^ 31 := by omega
  have hall := ((turns_version hx).trans (turns_status hnumber)).trans
    (turns_reason hreason.1 hreason.2)
  rw [hline]
  refine hall.imp (fun _ => id) fun e he => ?_
  unfold statusPart
  rw [hn]
  exact he

end

end CoroutineScheduler.Http
