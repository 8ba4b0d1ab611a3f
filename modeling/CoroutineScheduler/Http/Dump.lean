import CoroutineScheduler.Lib.Lines
import CoroutineScheduler.Http.Response
import CoroutineScheduler.Uri.RoundTrip

/-!
# What a message looks like on the wire

`dump` writes a start line, the headers of the message beside a `connection` line of its own, and the
body behind a `content-length` line of its own. Of the headers in the map it leaves out `connection`,
but not `content-length`, and it looks at no text for line ends.

A peer reads the lines up to the first empty one, takes the length of the body from the
`content-length` line among them and then reads so many bytes (`Frames`). `dump_frames_iff` says of
which messages the peer gets all, and no more.
-/

namespace CoroutineScheduler.Http

open Lines

open Uri (decimal digit digits_decimal digitsValue_decimal)

/-! ## The text -/

/-- `HttpMethodToString`. -/
def httpMethodToString (method : HttpMethod) : List UInt8 :=
  ascii (((httpMethodMap.find? fun e => e.1 = method).map Prod.snd).getD "<unknown>")

/-- `HTTP_STATUS_MAP`: the codes with their texts. -/
def httpStatusMap : List (ℤ × String) :=
  [(100, "Continue"), (101, "Switching Protocols"), (102, "Processing"),
    (200, "OK"), (201, "Created"), (202, "Accepted"), (203, "Non-Authoritative Information"),
    (204, "No Content"), (205, "Reset Content"), (206, "Partial Content"), (207, "Multi-Status"),
    (208, "Already Reported"), (226, "IM Used"),
    (300, "Multiple Choices"), (301, "Moved Permanently"), (302, "Found"), (303, "See Other"),
    (304, "Not Modified"), (305, "Use Proxy"), (307, "Temporary Redirect"),
    (308, "Permanent Redirect"),
    (400, "Bad Request"), (401, "Unauthorized"), (402, "Payment Required"), (403, "Forbidden"),
    (404, "Not Found"), (405, "Method Not Allowed"), (406, "Not Acceptable"),
    (407, "Proxy Authentication Required"), (408, "Request Timeout"), (409, "Conflict"),
    (410, "Gone"), (411, "Length Required"), (412, "Precondition Failed"),
    (413, "Payload Too Large"), (414, "URI Too Long"), (415, "Unsupported Media Type"),
    (416, "Range Not Satisfiable"), (417, "Expectation Failed"), (421, "Misdirected Request"),
    (422, "Unprocessable Entity"), (423, "Locked"), (424, "Failed Dependency"),
    (426, "Upgrade Required"), (428, "Precondition Required"), (429, "Too Many Requests"),
    (431, "Request Header Fields Too Large"), (451, "Unavailable For Legal Reasons"),
    (500, "Internal Server Error"), (501, "Not Implemented"), (502, "Bad Gateway"),
    (503, "Service Unavailable"), (504, "Gateway Timeout"), (505, "HTTP Version Not Supported"),
    (506, "Variant Also Negotiates"), (507, "Insufficient Storage"), (508, "Loop Detected"),
    (510, "Not Extended"), (511, "Network Authentication Required")]

/-- `HttpStatusToString`. -/
def httpStatusToString (status : ℤ) : List UInt8 :=
  ascii (((httpStatusMap.find? fun e => e.1 = status).map Prod.snd).getD "<unknown>")

/-- The major and the minor number. -/
def versionText (version : UInt8) : List UInt8 :=
  decimal (version >>> 4).toNat ++ ascii "." ++ decimal (version &&& 0x0F).toNat

/-- The line `connection`, unless the message is one of the websocket. -/
def connectionLine (websocket close : Bool) : List (List UInt8) :=
  if !websocket then [ascii "connection: " ++ ascii (if close then "close" else "keep-alive")] else []

/-- The lines of the map. -/
def headerLines (websocket : Bool) (headers : MapType) : List (List UInt8) :=
  (headers.filter fun i => !(!websocket && folded i.1 = folded (ascii "connection"))).map fun i =>
    i.1 ++ ascii ": " ++ i.2

/-- The end of the header section, and the body. -/
def bodyText (body : List UInt8) : List UInt8 :=
  if body ≠ [] then ascii "content-length: " ++ decimal body.length ++ crlf ++ crlf ++ body else crlf

namespace HttpRequest

def requestLine (r : HttpRequest) : List UInt8 :=
  httpMethodToString r.method ++ ascii " " ++ r.path ++
    (if r.query = [] then [] else ascii "?") ++ r.query ++
    (if r.fragment = [] then [] else ascii "#") ++ r.fragment ++ ascii " HTTP/" ++
    versionText r.version

/-- `HttpRequest::dump`. -/
def dump (r : HttpRequest) : List UInt8 :=
  unlines (r.requestLine :: connectionLine r.websocket r.close ++ headerLines r.websocket r.headers) ++
    bodyText r.body

end HttpRequest

namespace HttpResponse

/-- The status is printed as a `uint32_t`. -/
def statusLine (r : HttpResponse) : List UInt8 :=
  ascii "HTTP/" ++ versionText r.version ++ ascii " " ++ decimal (r.status % 2 ^ 32).toNat ++
    ascii " " ++ (if r.reason = [] then httpStatusToString r.status else r.reason)

/-- `HttpResponse::dump`. -/
def dump (r : HttpResponse) : List UInt8 :=
  unlines (r.statusLine :: headerLines r.websocket r.headers ++
    r.cookies.map (ascii "Set-Cookie: " ++ ·) ++ connectionLine r.websocket r.close) ++ bodyText r.body

end HttpResponse

/-! ## What a peer reads -/

/-- The header field of this name, in any case. -/
def named (name : List UInt8) (line : List UInt8) : Bool :=
  line.contains 58 && (line.takeWhile (· ≠ 58)).map tolower = name

/-- A space or a tab. -/
def blank (b : UInt8) : Bool := b = 32 || b = 9

/-- The number behind the colon. -/
def lengthValue (line : List UInt8) : Option ℕ :=
  let value := (((line.dropWhile (· ≠ 58)).tail.dropWhile blank).reverse.dropWhile blank).reverse
  if value ≠ [] ∧ value.all digit then some (digitsValue 10 value) else none

/-- The values of the lines `content-length`. -/
def lengths (fields : List (List UInt8)) : List (Option ℕ) :=
  (fields.filter (named (ascii "content-length"))).map lengthValue

/-- The lines `connection`. -/
def connections (fields : List (List UInt8)) : List (List UInt8) :=
  fields.filter (named (ascii "connection"))

/-- The header section has at most one line `content-length`, and it gives the number of bytes behind
the section; without one there are none. It has at most one line `connection`, unless `websocket`. -/
def Frames (websocket : Bool) (text : List UInt8) : Prop :=
  ∃ start fields rest, head text = some (start :: fields, rest) ∧
    (lengths fields = [] ∧ rest = [] ∨ lengths fields = [some rest.length]) ∧
    (websocket = false → (connections fields).length ≤ 1)

/-! ## The condition -/

theorem lawfulBEq_line : LawfulBEq (List UInt8) := inferInstance

attribute [local instance] lawfulBEq_line

/-- `made` are the lines that the texts of a message make, the start line first and without the line
`content-length` of `dump`. -/
def Sound (websocket : Bool) (made : List (List UInt8)) (body : List UInt8) : Prop :=
  let fields := (made.takeWhile (· ≠ [])).tail
  (websocket = false → (connections fields).length ≤ 1) ∧
    if [] ∈ made then
      -- the section ends early
      lengths fields = [some (unlines (made.dropWhile (· ≠ [])).tail ++ bodyText body).length]
    else if body = [] then lengths fields = [] ∨ lengths fields = [some 0]
    else lengths fields = []

instance (websocket : Bool) (made : List (List UInt8)) (body : List UInt8) :
    Decidable (Sound websocket made body) := by
  unfold Sound
  infer_instance

/-- The lines that the texts of a request make. -/
def HttpRequest.lines (r : HttpRequest) : List (List UInt8) :=
  (r.requestLine :: connectionLine r.websocket r.close ++ headerLines r.websocket r.headers).flatMap
    pieces

/-- The lines that the texts of a response make. -/
def HttpResponse.lines (r : HttpResponse) : List (List UInt8) :=
  (r.statusLine :: headerLines r.websocket r.headers ++
    r.cookies.map (ascii "Set-Cookie: " ++ ·) ++ connectionLine r.websocket r.close).flatMap pieces

/-! ## The line `content-length` of `dump` -/

/-- The line `content-length` that `dump` adds. -/
def lengthLine (n : ℕ) : List UInt8 := ascii "content-length: " ++ decimal n

section
variable {n : ℕ} {name t : List UInt8}

theorem takeWhile_name (h : 58 ∉ name) : (name ++ 58 :: t).takeWhile (· ≠ 58) = name := by
  have hall : ∀ b ∈ name, decide (b ≠ 58) = true := fun b hb =>
    decide_eq_true fun heq => h (heq ▸ hb)
  rw [List.takeWhile_append_of_pos hall, List.takeWhile_cons_of_neg (by decide), List.append_nil]

theorem dropWhile_name (h : 58 ∉ name) : (name ++ 58 :: t).dropWhile (· ≠ 58) = 58 :: t := by
  have hall : ∀ b ∈ name, decide (b ≠ 58) = true := fun b hb =>
    decide_eq_true fun heq => h (heq ▸ hb)
  rw [List.dropWhile_append_of_pos hall, List.dropWhile_cons_of_neg (by decide)]

theorem lengthLine_eq (n : ℕ) : lengthLine n = ascii "content-length" ++ 58 :: 32 :: decimal n := by
  have hname : ascii "content-length: " = ascii "content-length" ++ [58, 32] := by decide +kernel
  rw [lengthLine, hname, List.append_assoc, List.cons_append, List.singleton_append]

theorem not_blank_of_digit : ∀ c, digit c = true → blank c = false :=
  Wire.forall_byte (by decide +kernel)

theorem decimal_ne_nil (n : ℕ) : decimal n ≠ [] := by
  intro h
  have hvalue := digitsValue_decimal n
  rw [h] at hvalue
  obtain rfl : n = 0 := hvalue.symm
  cases h

theorem dropWhile_blank {ds : List UInt8} (h : ∀ d ∈ ds, digit d = true) :
    ds.dropWhile blank = ds := by
  cases ds with
  | nil => rfl
  | cons d ds =>
    rw [List.dropWhile_cons, not_blank_of_digit d (h d List.mem_cons_self)]
    rfl

theorem lengthValue_lengthLine (n : ℕ) : lengthValue (lengthLine n) = some n := by
  have hdigits := digits_decimal n
  have hrev : ∀ d ∈ (decimal n).reverse, digit d = true := fun d hd =>
    hdigits d (List.mem_reverse.1 hd)
  have hspace : (32 :: decimal n).dropWhile blank = decimal n := by
    rw [List.dropWhile_cons_of_pos (by decide), dropWhile_blank hdigits]
  rw [lengthValue, lengthLine_eq, dropWhile_name (by decide), List.tail_cons]
  simp only [hspace, dropWhile_blank hrev, List.reverse_reverse]
  rw [if_pos ⟨decimal_ne_nil n, List.all_eq_true.2 hdigits⟩, digitsValue_decimal]

theorem named_lengthLine (n : ℕ) : named name (lengthLine n) = decide (ascii "content-length" = name) := by
  have hmem : (lengthLine n).contains 58 = true := by
    rw [lengthLine_eq]
    simp
  have hlower : (ascii "content-length").map tolower = ascii "content-length" := by decide
  rw [named, hmem, lengthLine_eq, takeWhile_name (by decide), hlower, Bool.true_and]

theorem cut_lengthLine (n : ℕ) : cut (lengthLine n) = none := by
  apply cut_of_not_mem
  rw [lengthLine, List.mem_append, not_or]
  refine ⟨by decide, fun hmem => ?_⟩
  cases digits_decimal n 13 hmem

theorem head_bodyText (body : List UInt8) :
    head (bodyText body) = some (if body = [] then [] else [lengthLine body.length], body) := by
  rw [bodyText]
  by_cases hbody : body = []
  · subst hbody
    exact head_nil (t := [])
  · rw [if_pos hbody, if_neg hbody, List.append_assoc, List.append_assoc, ← lengthLine,
      head_cons (cut_lengthLine _) (by simp [lengthLine_eq]), head_nil]
    rfl

/-! ## The whole text -/

theorem lengths_append (l m : List (List UInt8)) : lengths (l ++ m) = lengths l ++ lengths m := by
  rw [lengths, List.filter_append, List.map_append]
  rfl

theorem lengths_lengthLine (n : ℕ) : lengths [lengthLine n] = [some n] := by
  rw [lengths, List.filter_cons, named_lengthLine, decide_eq_true rfl]
  simp [lengthValue_lengthLine]

theorem connections_append_lengthLine (l : List (List UInt8)) (n : ℕ) :
    connections (l ++ [lengthLine n]) = connections l := by
  rw [connections, List.filter_append, List.filter_cons, named_lengthLine,
    decide_eq_false (by decide)]
  simp [connections]

theorem bodyText_ne_nil (body : List UInt8) : bodyText body ≠ [] := by
  intro h
  have hhead := head_bodyText body
  rw [h, head] at hhead
  cases hhead

/-- What the peer makes of a header section that it has read. -/
theorem frames_of_head {websocket : Bool} {text start rest : List UInt8} {fields : List (List UInt8)}
    (hhead : head text = some (start :: fields, rest)) :
    Frames websocket text ↔ (websocket = false → (connections fields).length ≤ 1) ∧
      (lengths fields = [] ∧ rest = [] ∨ lengths fields = [some rest.length]) := by
  constructor
  · rintro ⟨start', fields', rest', hhead', hlen, hconn⟩
    rw [hhead] at hhead'
    cases hhead'
    exact ⟨hconn, hlen⟩
  · rintro ⟨hconn, hlen⟩
    exact ⟨start, fields, rest, hhead, hlen, hconn⟩

/-- A text with lines of its own and a body is framed exactly when its lines are sound. -/
theorem frames_iff {websocket : Bool} {made : List (List UInt8)} {body : List UInt8}
    (hcut : ∀ l ∈ made, cut l = none) (hne : made ≠ []) :
    Frames websocket (unlines made ++ bodyText body) ↔ Sound websocket made body := by
  rw [Sound]
  by_cases hearly : [] ∈ made
  · have hhead := head_unlines (t := bodyText body) hcut
    rw [if_pos hearly] at hhead
    rw [if_pos hearly]
    cases htake : made.takeWhile (· ≠ []) with
    | nil =>
      -- the first line is empty: there is no start line
      rw [htake] at hhead
      refine iff_of_false ?_ ?_
      · rintro ⟨start, fields, rest, hhead', -⟩
        rw [hhead] at hhead'
        cases hhead'
      · rintro ⟨-, hlen⟩
        cases hlen
    | cons start fields =>
      rw [htake] at hhead
      rw [frames_of_head hhead, List.tail_cons]
      have hrest : unlines (made.dropWhile (· ≠ [])).tail ++ bodyText body ≠ [] := by
        simp [bodyText_ne_nil]
      simp only [hrest, and_false, false_or]
  · have hhead := head_unlines (t := bodyText body) hcut
    rw [if_neg hearly, head_bodyText] at hhead
    have htake : made.takeWhile (· ≠ []) = made :=
      List.takeWhile_eq_self_iff.2 fun l hl => decide_eq_true fun h0 => hearly (h0 ▸ hl)
    obtain ⟨start, fields, rfl⟩ := List.exists_cons_of_ne_nil hne
    rw [if_neg hearly, htake, List.tail_cons]
    by_cases hbody : body = []
    · subst hbody
      simp only [if_true, Option.map_some, List.append_nil] at hhead
      rw [if_pos rfl, frames_of_head hhead]
      simp
    · simp only [if_neg hbody, Option.map_some, List.cons_append] at hhead
      rw [if_neg hbody, frames_of_head hhead, connections_append_lengthLine, lengths_append,
        lengths_lengthLine]
      simp

end

/-- The lines that the texts of a message make. -/
theorem frames_flatMap_iff {websocket : Bool} {start : List UInt8} {ls : List (List UInt8)}
    {body : List UInt8} : Frames websocket (unlines (start :: ls) ++ bodyText body) ↔
      Sound websocket ((start :: ls).flatMap pieces) body := by
  rw [← unlines_flatMap_pieces]
  apply frames_iff
  · intro p hp
    obtain ⟨l, -, hl⟩ := List.mem_flatMap.1 hp
    exact cut_of_mem_pieces l p hl
  · rw [List.flatMap_cons]
    exact List.append_ne_nil_of_left_ne_nil (pieces_ne_nil start) _

/-- A response with a header, a cookie and a body. -/
example : Frames false (HttpResponse.dump
    { headers := [(ascii "Server", ascii "bin")], cookies := [ascii "a=b"], body := ascii "hi" }) :=
  frames_flatMap_iff.2 (by decide +kernel)

end CoroutineScheduler.Http
