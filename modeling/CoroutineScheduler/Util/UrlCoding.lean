import CoroutineScheduler.Util.Url

/-!
# Percent encoding as the source builds it

`StringUtil::UrlEncode` and `UrlDecode` with their two tables and the string `ss`, which they make at
the first byte that changes. `urlEncodeLazy_eq` and `urlDecodeLazy_eq` say that nothing depends on
when it is made.

The bytes that the line above `UrlEncode` lists are `Unreserved`; the table has a `1` for one more,
the `=`.
-/

namespace CoroutineScheduler.StringUtil

open Wire (forall_byte)

/-! ## The tables -/

/-- `uri_chars`. -/
def uriTable : List ℕ :=
  [0, 0, 0, 0, 0, 0, 0, 0, 0, 0, 0, 0, 0, 0, 0, 0, 0, 0, 0, 0, 0, 0, 0, 0, 0, 0, 0, 0, 0, 0, 0, 0,
    0, 0, 0, 0, 0, 0, 0, 0, 0, 0, 0, 0, 0, 1, 1, 0, 1, 1, 1, 1, 1, 1, 1, 1, 1, 1, 0, 0, 0, 1, 0, 0,
    0, 1, 1, 1, 1, 1, 1, 1, 1, 1, 1, 1, 1, 1, 1, 1, 1, 1, 1, 1, 1, 1, 1, 1, 1, 1, 1, 0, 0, 0, 0, 1,
    0, 1, 1, 1, 1, 1, 1, 1, 1, 1, 1, 1, 1, 1, 1, 1, 1, 1, 1, 1, 1, 1, 1, 1, 1, 1, 1, 0, 0, 0, 1, 0,
    0, 0, 0, 0, 0, 0, 0, 0, 0, 0, 0, 0, 0, 0, 0, 0, 0, 0, 0, 0, 0, 0, 0, 0, 0, 0, 0, 0, 0, 0, 0, 0,
    0, 0, 0, 0, 0, 0, 0, 0, 0, 0, 0, 0, 0, 0, 0, 0, 0, 0, 0, 0, 0, 0, 0, 0, 0, 0, 0, 0, 0, 0, 0, 0,
    0, 0, 0, 0, 0, 0, 0, 0, 0, 0, 0, 0, 0, 0, 0, 0, 0, 0, 0, 0, 0, 0, 0, 0, 0, 0, 0, 0, 0, 0, 0, 0,
    0, 0, 0, 0, 0, 0, 0, 0, 0, 0, 0, 0, 0, 0, 0, 0, 0, 0, 0, 0, 0, 0, 0, 0, 0, 0, 0, 0, 0, 0, 0, 0]

/-- `xdigit_chars`. -/
def xdigitTable : List ℕ :=
  [0, 0, 0, 0, 0, 0, 0, 0, 0, 0, 0, 0, 0, 0, 0, 0, 0, 0, 0, 0, 0, 0, 0, 0, 0, 0, 0, 0, 0, 0, 0, 0,
    0, 0, 0, 0, 0, 0, 0, 0, 0, 0, 0, 0, 0, 0, 0, 0, 0, 1, 2, 3, 4, 5, 6, 7, 8, 9, 0, 0, 0, 0, 0, 0,
    0, 10, 11, 12, 13, 14, 15, 0, 0, 0, 0, 0, 0, 0, 0, 0, 0, 0, 0, 0, 0, 0, 0, 0, 0, 0, 0, 0, 0, 0, 0, 0,
    0, 10, 11, 12, 13, 14, 15, 0, 0, 0, 0, 0, 0, 0, 0, 0, 0, 0, 0, 0, 0, 0, 0, 0, 0, 0, 0, 0, 0, 0, 0, 0,
    0, 0, 0, 0, 0, 0, 0, 0, 0, 0, 0, 0, 0, 0, 0, 0, 0, 0, 0, 0, 0, 0, 0, 0, 0, 0, 0, 0, 0, 0, 0, 0,
    0, 0, 0, 0, 0, 0, 0, 0, 0, 0, 0, 0, 0, 0, 0, 0, 0, 0, 0, 0, 0, 0, 0, 0, 0, 0, 0, 0, 0, 0, 0, 0,
    0, 0, 0, 0, 0, 0, 0, 0, 0, 0, 0, 0, 0, 0, 0, 0, 0, 0, 0, 0, 0, 0, 0, 0, 0, 0, 0, 0, 0, 0, 0, 0,
    0, 0, 0, 0, 0, 0, 0, 0, 0, 0, 0, 0, 0, 0, 0, 0, 0, 0, 0, 0, 0, 0, 0, 0, 0, 0, 0, 0, 0, 0, 0, 0]

/-- `CHAR_IS_UNRESERVED(c)`. -/
def charIsUnreserved (c : UInt8) : Bool := uriTable.getD c.toNat 0 ≠ 0

/-- `xdigit_chars[c]`. -/
def xdigitAt (c : UInt8) : UInt8 := UInt8.ofNat (xdigitTable.getD c.toNat 0)

theorem uriTable_eq :
    uriTable = (List.range 256).map fun n => (uriChars (UInt8.ofNat n)).toNat := by decide +kernel

theorem xdigitTable_eq :
    xdigitTable = (List.range 256).map fun n => (xdigitChars (UInt8.ofNat n)).toNat := by
  decide +kernel

theorem getD_table (f : UInt8 → ℕ) (c : UInt8) :
    ((List.range 256).map fun n => f (UInt8.ofNat n)).getD c.toNat 0 = f c := by
  have hc := c.toNat_lt
  rw [List.getD_eq_getElem?_getD, List.getElem?_map, List.getElem?_range hc, Option.map_some,
    Option.getD_some, UInt8.ofNat_toNat]

theorem charIsUnreserved_eq (c : UInt8) : charIsUnreserved c = uriChars c := by
  unfold charIsUnreserved
  rw [uriTable_eq, getD_table fun c => (uriChars c).toNat]
  cases uriChars c <;> rfl

theorem xdigitAt_eq (c : UInt8) : xdigitAt c = xdigitChars c := by
  unfold xdigitAt
  rw [xdigitTable_eq, getD_table fun c => (xdigitChars c).toNat, UInt8.ofNat_toNat]

/-! ## The loops -/

section
variable (spaceAsPlus : Bool)

/-- The loop of `UrlEncode`: the bytes in front of `c`, `ss`, and the bytes from `c` on. -/
def encodeLoop (front : List UInt8) (ss : Option (List UInt8)) : List UInt8 → List UInt8
  | [] => ss.getD front
  | c :: str =>
    if ¬ charIsUnreserved c then
      let s := ss.getD front
      encodeLoop (front ++ [c])
        (some (s ++ if c = 32 ∧ spaceAsPlus then [43]
          else [37, hexdigits (c >>> 4), hexdigits (c &&& 0xf)])) str
    else encodeLoop (front ++ [c]) (ss.map (· ++ [c])) str

/-- `UrlEncode`. -/
def urlEncodeLazy (str : List UInt8) : List UInt8 := encodeLoop spaceAsPlus [] none str

/-- The loop of `UrlDecode`. -/
def decodeLoop (front : List UInt8) (ss : Option (List UInt8)) : List UInt8 → List UInt8
  | c :: h :: l :: str =>
    if c = 43 ∧ spaceAsPlus then
      decodeLoop (front ++ [c]) (some (ss.getD front ++ [32])) (h :: l :: str)
    else if c = 37 ∧ isxdigit h ∧ isxdigit l then
      decodeLoop (front ++ [c, h, l]) (some (ss.getD front ++ [xdigitAt h <<< 4 ||| xdigitAt l])) str
    else decodeLoop (front ++ [c]) (ss.map (· ++ [c])) (h :: l :: str)
  | c :: str =>
    if c = 43 ∧ spaceAsPlus then decodeLoop (front ++ [c]) (some (ss.getD front ++ [32])) str
    else decodeLoop (front ++ [c]) (ss.map (· ++ [c])) str
  | [] => ss.getD front

/-- `UrlDecode`. -/
def urlDecodeLazy (str : List UInt8) : List UInt8 := decodeLoop spaceAsPlus [] none str

end

section
variable {p : Bool} {c : UInt8} {front s : List UInt8} {ss : Option (List UInt8)}

/-- A byte that stays as it is, with or without `ss`. -/
theorem map_getD (ss : Option (List UInt8)) (front bs : List UInt8) :
    (ss.map (· ++ bs)).getD (front ++ bs) = ss.getD front ++ bs := by
  cases ss <;> rfl

theorem encodeLoop_eq (str : List UInt8) :
    encodeLoop p front ss str = ss.getD front ++ urlEncode p str := by
  induction str generalizing front ss with
  | nil => exact (List.append_nil _).symm
  | cons c str ih =>
    unfold encodeLoop
    rw [urlEncode, List.flatMap_cons, encodeByte, charIsUnreserved_eq, ih, ih, map_getD,
      Option.getD_some, ← urlEncode]
    cases hc : uriChars c <;> simp

theorem urlEncodeLazy_eq (p : Bool) (s : List UInt8) : urlEncodeLazy p s = urlEncode p s :=
  encodeLoop_eq s

theorem decodeLoop_eq (str : List UInt8) :
    decodeLoop p front ss str = ss.getD front ++ urlDecode p str := by
  fun_induction decodeLoop p front ss str with
  | case1 front ss c h l str hc ih =>
    obtain ⟨rfl, hp⟩ := hc
    rw [ih, hp, urlDecode_plus, Option.getD_some, List.append_assoc]
    rfl
  | case2 front ss c h l str hc hx ih =>
    rw [ih, Option.getD_some, xdigitAt_eq, xdigitAt_eq, urlDecode, if_neg hc, if_pos hx,
      List.append_assoc]
    rfl
  | case3 front ss c h l str hc hx ih =>
    rw [ih, map_getD, urlDecode, if_neg hc, if_neg hx, List.append_assoc]
    rfl
  | case4 front ss c str hlen hc ih =>
    obtain ⟨rfl, hp⟩ := hc
    rw [ih, hp, urlDecode_plus, Option.getD_some, List.append_assoc]
    rfl
  | case5 front ss c str hlen hc ih =>
    rw [ih, map_getD, List.append_assoc]
    rcases str with _ | ⟨d, _ | ⟨e, str⟩⟩
    · simp [urlDecode, hc]
    · simp [urlDecode, hc]
    · exact absurd rfl (hlen d e str)
  | case6 front ss => exact (List.append_nil _).symm

theorem urlDecodeLazy_eq (p : Bool) (s : List UInt8) : urlDecodeLazy p s = urlDecode p s :=
  decodeLoop_eq s

end

/-! ## What is written -/

/-- The bytes in the line above `UrlEncode`. -/
def unreserved : List UInt8 :=
  "-.0123456789ABCDEFGHIJKLMNOPQRSTUVWXYZ_abcdefghijklmnopqrstuvwxyz~".toList.map fun c =>
    UInt8.ofNat c.toNat

/-- A byte that the encoding of some text should hold. -/
def Coded (p : Bool) (c : UInt8) : Prop :=
  c ∈ unreserved ∨ c = 37 ∨ isxdigit c = true ∨ p = true ∧ c = 43

instance (p : Bool) : DecidablePred (Coded p) := fun c => by
  unfold Coded
  infer_instance

/-- Coding is undone by decoding, with and without `+`, and writes the bytes it should. -/
def CodedRight (p : Bool) (s : List UInt8) : Prop :=
  urlDecodeLazy p (urlEncodeLazy p s) = s ∧ urlDecodeLazy true (urlEncodeLazy false s) = s ∧
    ∀ c ∈ urlEncodeLazy p s, Coded p c

theorem unreserved_eq :
    unreserved = ((List.range 256).map UInt8.ofNat).filter fun c => uriChars c && c != 61 := by
  decide +kernel

theorem mem_unreserved {c : UInt8} : c ∈ unreserved ↔ uriChars c = true ∧ c ≠ 61 := by
  have hmem : c ∈ (List.range 256).map UInt8.ofNat :=
    List.mem_map.2 ⟨c.toNat, List.mem_range.2 c.toNat_lt, UInt8.ofNat_toNat⟩
  rw [unreserved_eq, List.mem_filter, Bool.and_eq_true, bne_iff_ne]
  exact and_iff_right hmem

theorem not_coded_equals (p : Bool) : ¬ Coded p 61 := by
  rintro (h | h | h | ⟨-, h⟩)
  · exact (mem_unreserved.1 h).2 rfl
  · exact absurd h (by decide)
  · exact absurd h (by decide)
  · exact absurd h (by decide)

/-- The encoding of a byte holds the bytes it should, unless the byte is `=`. -/
theorem coded_encodeByte (p : Bool) (c : UInt8) :
    (∀ d ∈ encodeByte p c, Coded p d) ↔ c ≠ 61 := by
  unfold encodeByte
  split_ifs with hc hp
  · rw [List.forall_mem_singleton]
    refine ⟨fun h h61 => not_coded_equals p (h61 ▸ h), fun hne => .inl (mem_unreserved.2 ⟨hc, hne⟩)⟩
  · obtain ⟨rfl, hp⟩ := hp
    rw [List.forall_mem_singleton]
    exact iff_of_true (.inr (.inr (.inr ⟨hp, rfl⟩))) (by decide)
  · obtain ⟨hh, hl, -⟩ := digits_of_byte c
    refine iff_of_true ?_ fun h61 => hc (h61 ▸ by decide)
    exact List.forall_mem_cons.2 ⟨.inr (.inl rfl), List.forall_mem_cons.2
      ⟨.inr (.inr (.inl hh)), List.forall_mem_singleton.2 (.inr (.inr (.inl hl)))⟩⟩

/-- A text is coded right just if it has no `=`. -/
theorem codedRight_iff (p : Bool) (s : List UInt8) : CodedRight p s ↔ 61 ∉ s := by
  have hback : urlDecode true (urlEncode false s) = s := urlDecode_urlEncode_of (fun _ => rfl) s
  unfold CodedRight
  rw [urlEncodeLazy_eq, urlEncodeLazy_eq, urlDecodeLazy_eq, urlDecodeLazy_eq,
    urlDecode_urlEncode, hback, urlEncode, List.forall_mem_flatMap,
    and_iff_right rfl, and_iff_right rfl]
  refine ⟨fun h hmem => (coded_encodeByte p 61).1 (h 61 hmem) rfl, fun h c hc =>
    (coded_encodeByte p c).2 fun h61 => h (h61 ▸ hc)⟩

theorem not_codedRight_equals : ¬ CodedRight false [61] := fun h =>
  not_coded_equals false (h.2.2 61 (by decide))

end CoroutineScheduler.StringUtil
