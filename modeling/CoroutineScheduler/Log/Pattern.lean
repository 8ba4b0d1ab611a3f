import CoroutineScheduler.Http.Request

/-!
# The pattern of a log formatter

`LogFormatter::init` cuts the pattern into texts and letters, and makes an item of each. The
scanner is modelled on the rest of the pattern: `parseLoop` is the loop over `i`, `scanName` and
`scanFmt` are the loop over `n` with `fmt_status` 0 and 1.

1. `parseLoop_text`, `parseLoop_spec`, `parseLoop_spec_fmt`: a text goes to `nstr`, a letter makes
   one piece.
2. `parseLoop_run`: a run of `%` keeps one `%` too many, and its last one starts a letter.
3. `parsedRight_iff`: a pattern is read as it was written when it has no `%%`, and no `}` directly
   behind a letter without a format.
-/

namespace CoroutineScheduler.Log

open Http (ascii)

/-! ## Items -/

/-- `isalpha` in the `C` locale. -/
def isalpha (b : UInt8) : Bool := (65 ≤ b && b ≤ 90) || (97 ≤ b && b ≤ 122)

/-- The classes that `s_format_items` makes. -/
inductive ItemClass
  | messageFormatItem | levelFormatItem | elapseFormatItem | nameFormatItem | threadIdFormatItem
  | newLineFormatItem | dateTimeFormatItem | fileNameFormatItem | lineFormatItem | tabFormatItem
  | fiberIdFormatItem | threadNameFormatItem
  deriving DecidableEq, Repr

/-- A `FormatItem`: a `StringFormatItem`, or what `new C(fmt)` makes. -/
inductive FormatItem
  | stringFormatItem (string : List UInt8)
  | new (cls : ItemClass) (fmt : List UInt8)
  deriving DecidableEq, Repr

/-- `s_format_items`. -/
def sFormatItems : List (List UInt8 × ItemClass) :=
  [(ascii "m", .messageFormatItem), (ascii "p", .levelFormatItem), (ascii "r", .elapseFormatItem),
   (ascii "c", .nameFormatItem), (ascii "t", .threadIdFormatItem), (ascii "n", .newLineFormatItem),
   (ascii "d", .dateTimeFormatItem), (ascii "f", .fileNameFormatItem), (ascii "l", .lineFormatItem),
   (ascii "T", .tabFormatItem), (ascii "F", .fiberIdFormatItem), (ascii "N", .threadNameFormatItem)]

/-- An element of `vec`: string, format, and whether it names an item. -/
structure Piece where
  str : List UInt8
  fmt : List UInt8
  type : Bool
  deriving DecidableEq, Repr

/-- Whether the last loop leaves `m_error` alone. -/
def Piece.known (p : Piece) : Bool := !p.type || (sFormatItems.lookup p.str).isSome

/-- The item that the last loop pushes. -/
def Piece.item (p : Piece) : FormatItem :=
  if p.type then
    match sFormatItems.lookup p.str with
    | some cls => .new cls p.fmt
    | none => .stringFormatItem (ascii "<<error_format %" ++ p.str ++ ascii ">>")
  else .stringFormatItem p.str

/-! ## The scanner -/

/-- The inner loop with `fmt_status == 1`, `read` standing behind the opening brace: `str`, `fmt` and
the rest, `none` where `fmt_status` stays 1. -/
def scanFmt (str read : List UInt8) : List UInt8 → Option (List UInt8 × List UInt8 × List UInt8)
  | [] => none
  | b :: rest => if b = 125 then some (str, read, rest) else scanFmt str (read ++ [b]) rest

/-- The inner loop with `fmt_status == 0`, `read` standing behind the `%`. -/
def scanName (read : List UInt8) : List UInt8 → Option (List UInt8 × List UInt8 × List UInt8)
  | [] => some (read, [], [])
  | b :: rest =>
    if !isalpha b && b != 123 && b != 125 then some (read, [], b :: rest)
    else if b = 123 then scanFmt read [] rest
    -- a closing brace goes to the name
    else scanName (read ++ [b]) rest

theorem scanFmt_length {str read rest s f r : List UInt8}
    (h : scanFmt str read rest = some (s, f, r)) : r.length ≤ rest.length := by
  induction rest generalizing read with
  | nil => simp [scanFmt] at h
  | cons b rest ih =>
    unfold scanFmt at h
    split_ifs at h with hb
    · simp only [Option.some.injEq, Prod.mk.injEq] at h
      simp [h]
    · exact (ih h).trans (by simp)

theorem scanName_length {read rest s f r : List UInt8} (h : scanName read rest = some (s, f, r)) :
    r.length ≤ rest.length := by
  induction rest generalizing read with
  | nil => simp_all [scanName]
  | cons b rest ih =>
    unfold scanName at h
    split_ifs at h with hb ho
    · simp only [Option.some.injEq, Prod.mk.injEq] at h
      simp [← h.2.2]
    · exact (scanFmt_length h).trans (by simp)
    · exact (ih h).trans (by simp)

/-- The piece that is pushed for `nstr`. -/
def flush (nstr : List UInt8) : List Piece := if nstr = [] then [] else [⟨nstr, [], false⟩]

/-- The outer loop: `m_error` and `vec`. -/
def parseLoop (nstr : List UInt8) : List UInt8 → Bool × List Piece
  | [] => (false, flush nstr)
  | b :: rest =>
    if b ≠ 37 then parseLoop (nstr ++ [b]) rest
    -- only one of the two characters is passed over
    else if rest.head? = some 37 then parseLoop (nstr ++ [37]) rest
    else
      match _h : scanName [] rest with
      | some (str, fmt, rest') =>
        let (err, vec) := parseLoop [] rest'
        (err, flush nstr ++ ⟨str, fmt, true⟩ :: vec)
      | none =>
        let (_, vec) := parseLoop nstr rest
        (true, ⟨ascii "<<pattern_error>>", [], false⟩ :: vec)
termination_by rest => rest.length
decreasing_by
  all_goals simp only [List.length_cons]
  · omega
  · omega
  · have := scanName_length _h
    omega
  · omega

/-- What `init` leaves: `m_error` and `mLF_FI_items`. -/
structure LogFormatter where
  error : Bool
  items : List FormatItem
  deriving DecidableEq, Repr

/-- `LogFormatter::init`. -/
def LogFormatter.init (pattern : List UInt8) : LogFormatter :=
  let (err, vec) := parseLoop [] pattern
  ⟨err || !vec.all Piece.known, vec.map Piece.item⟩

/-! ## What was written -/

/-- A token of a pattern. -/
inductive Token
  | text (t : List UInt8)
  | percent
  | spec (cls : ItemClass) (fmt : Option (List UInt8))
  deriving DecidableEq, Repr

/-- The letter of a class. -/
def letter : ItemClass → UInt8
  | .messageFormatItem => 109
  | .levelFormatItem => 112
  | .elapseFormatItem => 114
  | .nameFormatItem => 99
  | .threadIdFormatItem => 116
  | .newLineFormatItem => 110
  | .dateTimeFormatItem => 100
  | .fileNameFormatItem => 102
  | .lineFormatItem => 108
  | .tabFormatItem => 84
  | .fiberIdFormatItem => 70
  | .threadNameFormatItem => 78

def Token.render : Token → List UInt8
  | .text t => t
  | .percent => [37, 37]
  | .spec cls none => [37, letter cls]
  | .spec cls (some fmt) => [37, letter cls, 123] ++ fmt ++ [125]

/-- The pattern. -/
def render (ts : List Token) : List UInt8 := ts.flatMap Token.render

/-- The texts have no `%`, the formats no closing brace, and behind a letter without a format stands
neither a letter nor an opening brace. -/
def WellFormed : List Token → Prop
  | [] => True
  | .text t :: ts => 37 ∉ t ∧ WellFormed ts
  | .percent :: ts => WellFormed ts
  | .spec _ none :: ts => (∀ b ∈ (render ts).head?, isalpha b = false ∧ b ≠ 123) ∧ WellFormed ts
  | .spec _ (some fmt) :: ts => 125 ∉ fmt ∧ WellFormed ts

/-- The items of the tokens behind a text: one for each letter, and one for the text between two. -/
def itemsFrom (lead : List UInt8) : List Token → List FormatItem
  | [] => if lead = [] then [] else [.stringFormatItem lead]
  | .text t :: ts => itemsFrom (lead ++ t) ts
  | .percent :: ts => itemsFrom (lead ++ [37]) ts
  | .spec cls fmt :: ts =>
    (if lead = [] then [] else [.stringFormatItem lead]) ++
      .new cls (fmt.getD []) :: itemsFrom [] ts

/-- The formatter built from the pattern has the items of the tokens, and no error. -/
def ParsedRight (ts : List Token) : Prop := LogFormatter.init (render ts) = ⟨false, itemsFrom [] ts⟩

/-- No `%%`, and no closing brace directly behind a letter without a format. -/
def Plain : List Token → Prop
  | [] => True
  | .text _ :: ts => Plain ts
  | .percent :: _ => False
  | .spec _ none :: ts => (render ts).head? ≠ some 125 ∧ Plain ts
  | .spec _ (some _) :: ts => Plain ts

/-! ## Texts and letters -/

section
variable {nstr text rest read str fmt name : List UInt8} {b : UInt8} {cls : ItemClass}

@[simp] theorem render_cons (t : Token) (ts : List Token) :
    render (t :: ts) = t.render ++ render ts := rfl

theorem letter_alpha (cls : ItemClass) : isalpha (letter cls) = true := by cases cls <;> rfl

theorem lookup_letter (cls : ItemClass) : sFormatItems.lookup [letter cls] = some cls := by
  cases cls <;> rfl

theorem lookup_length {name : List UInt8} {cls : ItemClass}
    (h : sFormatItems.lookup name = some cls) : name.length = 1 := by
  have hall : ∀ e ∈ sFormatItems, e.1.length = 1 := by decide
  obtain ⟨l₁, l₂, heq, -⟩ := List.lookup_eq_some_iff.mp h
  exact hall (name, cls) (heq ▸ by simp)

theorem parseLoop_text (h : 37 ∉ text) (nstr rest : List UInt8) :
    parseLoop nstr (text ++ rest) = parseLoop (nstr ++ text) rest := by
  induction text generalizing nstr with
  | nil => simp
  | cons b text ih =>
    obtain ⟨hb, ht⟩ := not_or.mp (List.mem_cons.not.mp h)
    rw [List.cons_append, parseLoop, if_pos (Ne.symm hb), ih ht]
    simp

theorem parseLoop_percent (nstr rest : List UInt8) :
    parseLoop nstr (37 :: 37 :: rest) = parseLoop (nstr ++ [37]) (37 :: rest) := by
  rw [parseLoop, if_neg (by simp), if_pos (by simp)]

/-- A `%` whose letters are read. -/
theorem parseLoop_name (h : text.head? ≠ some 37) (hs : scanName [] text = some (str, fmt, rest)) :
    parseLoop nstr (37 :: text) =
      ((parseLoop [] rest).1, flush nstr ++ ⟨str, fmt, true⟩ :: (parseLoop [] rest).2) := by
  rw [parseLoop, if_neg (by simp), if_neg h]
  split <;> simp_all

theorem parseLoop_open (h : text.head? ≠ some 37) (hs : scanName [] text = none) :
    parseLoop nstr (37 :: text) =
      (true, ⟨ascii "<<pattern_error>>", [], false⟩ :: (parseLoop nstr text).2) := by
  rw [parseLoop, if_neg (by simp), if_neg h]
  split <;> simp_all

theorem scanFmt_append (h : 125 ∉ fmt) (str read rest : List UInt8) :
    scanFmt str read (fmt ++ 125 :: rest) = some (str, read ++ fmt, rest) := by
  induction fmt generalizing read with
  | nil => simp [scanFmt]
  | cons b fmt ih =>
    obtain ⟨hb, hf⟩ := not_or.mp (List.mem_cons.not.mp h)
    rw [List.cons_append, scanFmt, if_neg (Ne.symm hb), ih hf]
    simp

theorem scanName_letter (h : isalpha b = true) (read rest : List UInt8) :
    scanName read (b :: rest) =
      if b = 123 then scanFmt read [] rest else scanName (read ++ [b]) rest := by
  rw [scanName, if_neg (by simp [h])]

theorem letter_ne (cls : ItemClass) : letter cls ≠ 37 ∧ letter cls ≠ 123 := by cases cls <;> decide

/-- A letter with a format makes one piece. -/
theorem parseLoop_spec_fmt (h : 125 ∉ fmt) (cls : ItemClass) (nstr rest : List UInt8) :
    parseLoop nstr ((Token.spec cls (some fmt)).render ++ rest) =
      ((parseLoop [] rest).1, flush nstr ++ ⟨[letter cls], fmt, true⟩ :: (parseLoop [] rest).2) := by
  have hs : scanName [] (letter cls :: 123 :: (fmt ++ 125 :: rest)) =
      some ([letter cls], fmt, rest) := by
    rw [scanName_letter (letter_alpha cls), if_neg (letter_ne cls).2, scanName,
      if_neg (by decide), if_pos rfl, scanFmt_append h]
    simp
  have hr : (Token.spec cls (some fmt)).render ++ rest =
      37 :: letter cls :: 123 :: (fmt ++ 125 :: rest) := by simp [Token.render]
  rw [hr, parseLoop_name (by simp [(letter_ne cls).1]) hs]

/-- A letter without a format makes one piece. -/
theorem parseLoop_spec (h : ∀ b ∈ rest.head?, isalpha b = false ∧ b ≠ 123)
    (hc : rest.head? ≠ some 125) (cls : ItemClass) (nstr : List UInt8) :
    parseLoop nstr ((Token.spec cls none).render ++ rest) =
      ((parseLoop [] rest).1, flush nstr ++ ⟨[letter cls], [], true⟩ :: (parseLoop [] rest).2) := by
  have hs : scanName [] (letter cls :: rest) = some ([letter cls], [], rest) := by
    rw [scanName_letter (letter_alpha cls), if_neg (letter_ne cls).2]
    cases rest with
    | nil => rfl
    | cons b rest =>
      obtain ⟨ha, ho⟩ := h b rfl
      rw [scanName, if_pos (by simp_all)]
      rfl
  exact parseLoop_name (by simp [(letter_ne cls).1]) hs

/-! ## Names with a closing brace -/

theorem scanFmt_str (h : scanFmt str read rest = some (name, fmt, text)) : name = str := by
  induction rest generalizing read with
  | nil => simp [scanFmt] at h
  | cons b rest ih =>
    unfold scanFmt at h
    split_ifs at h
    · simp_all
    · exact ih h

/-- The name that is read starts with what was read. -/
theorem prefix_scanName (h : scanName read rest = some (name, fmt, text)) : read <+: name := by
  induction rest generalizing read with
  | nil => simp_all [scanName]
  | cons b rest ih =>
    unfold scanName at h
    split_ifs at h
    · simp_all
    · exact scanFmt_str h ▸ List.prefix_rfl
    · exact (List.prefix_append _ _).trans (ih h)

/-- A closing brace behind a letter without a format goes to the name, which is no item's then. -/
theorem parseLoop_brace (cls : ItemClass) (nstr rest : List UInt8) :
    let r := parseLoop nstr ((Token.spec cls none).render ++ 125 :: rest)
    r.1 = true ∨ r.2.all Piece.known = false := by
  have hscan : scanName [] (letter cls :: 125 :: rest) = scanName [letter cls, 125] rest := by
    rw [scanName_letter (letter_alpha cls), if_neg (letter_ne cls).2, scanName,
      if_neg (by decide), if_neg (by decide)]
    rfl
  have hr : (Token.spec cls none).render ++ 125 :: rest = 37 :: letter cls :: 125 :: rest := rfl
  have hh : (letter cls :: 125 :: rest).head? ≠ some 37 := by simp [(letter_ne cls).1]
  rw [hr]
  cases hs : scanName [letter cls, 125] rest with
  | none =>
    rw [parseLoop_open hh (hscan.trans hs)]
    exact .inl rfl
  | some r =>
    obtain ⟨name, fmt, rest'⟩ := r
    rw [parseLoop_name hh (hscan.trans hs)]
    refine .inr ?_
    have hlen : 2 ≤ name.length := (prefix_scanName hs).length_le
    have hl : sFormatItems.lookup name = none := by
      rw [Option.eq_none_iff_forall_not_mem]
      intro cls' h
      have := lookup_length h
      omega
    simp [Piece.known, hl]

end

/-! ## Runs of percent signs -/

/-- The number of `%` in front. -/
def runLength (text : List UInt8) : ℕ := (text.takeWhile (· = 37)).length

theorem runLength_cons (rest : List UInt8) : runLength (37 :: rest) = runLength rest + 1 := by
  simp [runLength]

/-- Of a run of `%` all but the last go to `nstr`, and the last one starts a letter. -/
theorem parseLoop_run (rest : List UInt8) {nstr : List UInt8} (hn : nstr ≠ []) :
    let r := parseLoop nstr (37 :: rest)
    r.1 = true ∨
      ∃ p vec, r.2 = ⟨nstr ++ List.replicate (runLength rest) 37, [], false⟩ :: p :: vec := by
  induction rest generalizing nstr with
  | nil =>
    refine .inr ⟨⟨[], [], true⟩, [], ?_⟩
    rw [parseLoop_name (by simp) (by rfl : scanName [] [] = some ([], [], [])), flush, if_neg hn,
      parseLoop]
    simp [runLength, flush]
  | cons b rest ih =>
    by_cases hb : b = 37
    · subst hb
      have happ : nstr ++ List.replicate (runLength rest + 1) 37 =
          nstr ++ [37] ++ List.replicate (runLength rest) 37 := by
        rw [List.replicate_succ, List.append_assoc, List.singleton_append]
      rw [parseLoop_percent, runLength_cons, happ]
      exact ih (by simp : nstr ++ [37] ≠ [])
    · have hh : (b :: rest).head? ≠ some 37 := by simp [hb]
      cases hs : scanName [] (b :: rest) with
      | none =>
        rw [parseLoop_open hh hs]
        exact .inl rfl
      | some r =>
        obtain ⟨name, fmt, rest'⟩ := r
        rw [parseLoop_name hh hs, flush, if_neg hn]
        refine .inr ⟨⟨name, fmt, true⟩, (parseLoop [] rest').2, ?_⟩
        simp [runLength, hb]

theorem itemsFrom_head (ts : List Token) {lead : List UInt8} (hl : lead ≠ []) :
    ∃ text items, itemsFrom lead ts = .stringFormatItem (lead ++ text) :: items := by
  induction ts generalizing lead with
  | nil => exact ⟨[], [], by simp [itemsFrom, hl]⟩
  | cons t ts ih =>
    cases t with
    | text t =>
      obtain ⟨text, items, h⟩ := ih (by simp [hl] : lead ++ t ≠ [])
      exact ⟨t ++ text, items, by rw [itemsFrom, h, List.append_assoc]⟩
    | percent =>
      obtain ⟨text, items, h⟩ := ih (by simp : lead ++ [37] ≠ [])
      exact ⟨[37] ++ text, items, by rw [itemsFrom, h, List.append_assoc]⟩
    | spec cls fmt => exact ⟨[], _, by rw [itemsFrom, if_neg hl]; simp; rfl⟩

/-- Tokens whose first text goes on with at least as many `%` as the pattern are all empty. -/
theorem itemsFrom_run {ts : List Token} (hw : WellFormed ts) {lead : List UInt8} {m : ℕ}
    {items : List FormatItem} (hl : lead ≠ []) (hm : runLength (render ts) ≤ m)
    (h : itemsFrom lead ts = .stringFormatItem (lead ++ List.replicate m 37) :: items) :
    items = [] := by
  induction ts generalizing lead m with
  | nil =>
    rw [itemsFrom, if_neg hl] at h
    exact (List.cons.inj h).2.symm
  | cons t ts ih =>
    cases t with
    | text t =>
      cases t with
      | nil => exact ih hw.2 hl hm (by simpa [itemsFrom] using h)
      | cons b t =>
        obtain ⟨text, items', hi⟩ := itemsFrom_head ts (by simp : lead ++ b :: t ≠ [])
        rw [itemsFrom, hi, List.cons.injEq, FormatItem.stringFormatItem.injEq,
          List.append_assoc, List.append_cancel_left_eq] at h
        have hb : b ∈ List.replicate m 37 := h.1 ▸ by simp
        exact absurd (List.mem_cons.2 (.inl (List.eq_of_mem_replicate hb).symm)) hw.1
    | percent =>
      have hrun : runLength (render (.percent :: ts)) = runLength (render ts) + 2 := by
        rw [render_cons, Token.render, List.cons_append, runLength_cons, List.cons_append,
          runLength_cons, List.nil_append]
      obtain ⟨m, rfl⟩ : ∃ k, m = k + 1 := ⟨m - 1, by omega⟩
      refine ih hw (by simp : lead ++ [37] ≠ []) (by omega : runLength (render ts) ≤ m) ?_
      rw [itemsFrom] at h
      rw [h, List.replicate_succ, List.append_assoc, List.singleton_append]
    | spec cls fmt =>
      have hpos : 0 < runLength (render (.spec cls fmt :: ts)) := by
        cases fmt <;> simp [Token.render, runLength_cons]
      rw [itemsFrom, if_neg hl, List.singleton_append, List.cons.injEq,
        FormatItem.stringFormatItem.injEq, List.self_eq_append_right,
        List.replicate_eq_nil_iff] at h
      omega

/-! ## What is read -/

/-- From `nstr` on, the scanner makes the items of the tokens. -/
def ReadRight (nstr : List UInt8) (ts : List Token) : Prop :=
  (parseLoop nstr (render ts)).1 = false ∧
    (parseLoop nstr (render ts)).2.all Piece.known = true ∧
    (parseLoop nstr (render ts)).2.map Piece.item = itemsFrom nstr ts

theorem parsedRight_iff_readRight (ts : List Token) : ParsedRight ts ↔ ReadRight [] ts := by
  simp [ParsedRight, ReadRight, LogFormatter.init, and_assoc]

theorem flush_item (nstr : List UInt8) :
    (flush nstr).all Piece.known = true ∧
      (flush nstr).map Piece.item = if nstr = [] then [] else [.stringFormatItem nstr] := by
  unfold flush
  split_ifs <;> simp [Piece.known, Piece.item]

/-- A letter that makes one piece is read right if what is behind it is. -/
theorem readRight_spec {cls : ItemClass} {fmt : Option (List UInt8)} {ts : List Token}
    {nstr : List UInt8}
    (h : parseLoop nstr (render (.spec cls fmt :: ts)) = ((parseLoop [] (render ts)).1,
      flush nstr ++ ⟨[letter cls], fmt.getD [], true⟩ :: (parseLoop [] (render ts)).2)) :
    ReadRight nstr (.spec cls fmt :: ts) ↔ ReadRight [] ts := by
  have hk : Piece.known ⟨[letter cls], fmt.getD [], true⟩ = true := by
    simp [Piece.known, lookup_letter]
  have hi : Piece.item ⟨[letter cls], fmt.getD [], true⟩ = .new cls (fmt.getD []) := by
    simp [Piece.item, lookup_letter]
  unfold ReadRight
  rw [h, itemsFrom, List.map_append, (flush_item nstr).2, List.map_cons, hi, List.all_append,
    (flush_item nstr).1, List.all_cons, hk, List.append_cancel_left_eq, List.cons.injEq]
  simp

theorem not_readRight_percent {ts : List Token} (hw : WellFormed (.percent :: ts))
    (nstr : List UInt8) : ¬ ReadRight nstr (.percent :: ts) := by
  rintro ⟨herr, -, hitems⟩
  have hr : render (.percent :: ts) = 37 :: 37 :: render ts := rfl
  rw [hr, parseLoop_percent] at herr hitems
  rcases parseLoop_run (render ts) (by simp : nstr ++ [37] ≠ []) with hbad | ⟨p, vec, hvec⟩
  · simp [hbad] at herr
  · rw [hvec, itemsFrom] at hitems
    have hts : WellFormed ts := hw
    have hnil := itemsFrom_run hts (by simp : nstr ++ [37] ≠ []) le_rfl hitems.symm
    simp at hnil

theorem readRight_iff {ts : List Token} (hw : WellFormed ts) (nstr : List UInt8) :
    ReadRight nstr ts ↔ Plain ts := by
  induction ts generalizing nstr with
  | nil => simp [ReadRight, Plain, itemsFrom, render, parseLoop, flush_item]
  | cons t ts ih =>
    cases t with
    | text t =>
      have hloop := parseLoop_text hw.1 nstr (render ts)
      rw [Plain, ← ih hw.2 (nstr ++ t), ReadRight, ReadRight, itemsFrom, render_cons, Token.render,
        hloop]
    | percent => exact iff_of_false (not_readRight_percent hw nstr) id
    | spec cls fmt =>
      cases fmt with
      | some fmt => exact (readRight_spec (parseLoop_spec_fmt hw.1 cls nstr _)).trans (ih hw.2 [])
      | none =>
        by_cases hc : (render ts).head? = some 125
        · refine iff_of_false ?_ fun hp => hp.1 hc
          rintro ⟨herr, hknown, -⟩
          obtain ⟨rest, hrest⟩ : ∃ rest, render ts = 125 :: rest :=
            ⟨(render ts).tail, (List.cons_head?_tail hc).symm⟩
          rw [render_cons, hrest] at herr hknown
          rcases parseLoop_brace cls nstr rest with h | h
          · rw [h] at herr
            exact absurd herr (by simp)
          · rw [h] at hknown
            exact absurd hknown (by simp)
        · exact (readRight_spec (parseLoop_spec hw.1 hc cls nstr)).trans
            ((ih hw.2 []).trans (and_iff_right hc).symm)

/-- A pattern is read as it was written exactly when it has no `%%`, and no closing brace directly
behind a letter without a format. -/
theorem parsedRight_iff {ts : List Token} (hw : WellFormed ts) : ParsedRight ts ↔ Plain ts :=
  (parsedRight_iff_readRight ts).trans (readRight_iff hw [])

theorem parsedRight_iff_rate :
    ParsedRight [.spec .messageFormatItem none, .percent] ↔
      Plain [.spec .messageFormatItem none, .percent] :=
  parsedRight_iff ⟨by simp [render, Token.render, isalpha], trivial⟩

/-- Of the pattern `%%` the second sign is a letter that no item has. -/
theorem not_parsedRight_percent :
    WellFormed [.percent] ∧
      LogFormatter.init (render [.percent]) = ⟨true, [.stringFormatItem (ascii "%"),
        .stringFormatItem (ascii "<<error_format %>>")]⟩ ∧
      ¬ ParsedRight [.percent] := by
  have hinit : LogFormatter.init (render [.percent]) = ⟨true, [.stringFormatItem (ascii "%"),
      .stringFormatItem (ascii "<<error_format %>>")]⟩ := by
    have hr : render [.percent] = [37, 37] := rfl
    rw [hr, LogFormatter.init, parseLoop_percent, parseLoop_name (by simp) (by rfl : scanName [] [] = _),
      parseLoop]
    rfl
  refine ⟨trivial, hinit, fun h => ?_⟩
  have herr := congrArg LogFormatter.error (hinit.symm.trans h)
  exact Bool.noConfusion herr

end CoroutineScheduler.Log
