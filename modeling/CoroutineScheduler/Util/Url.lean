import CoroutineScheduler.Lib.Wire

/-!
# Percent encoding, trimming and searching

`std::string::find` for a byte, and `StringUtil::UrlEncode`, `UrlDecode` and `Trim` of `util.cc`. The
table of the bytes that stay as they are has a `1` for `=`, which the line above the encoder does not
list. What is encoded is decoded to the same bytes (`urlDecode_urlEncode`).
-/

namespace CoroutineScheduler.StringUtil

open Wire (forall_byte)

/-! ## Searching -/

/-- `str.find(c, pos)`, `none` for `npos`. -/
def findFrom (str : List UInt8) (c : UInt8) (pos : ℕ) : Option ℕ :=
  ((str.drop pos).idxOf? c).map (pos + ·)

theorem lt_of_findFrom {str : List UInt8} {c : UInt8} {pos i : ℕ} (h : findFrom str c pos = some i) :
    pos ≤ i ∧ i < str.length := by
  obtain ⟨j, hj, rfl⟩ := Option.map_eq_some_iff.1 h
  obtain ⟨hlt, -⟩ := List.idxOf?_eq_some_iff.1 hj
  rw [List.length_drop] at hlt
  omega

section
variable {str l r : List UInt8} {c : UInt8} {pos : ℕ}

theorem idxOf?_append_cons (h : c ∉ l) : (l ++ c :: r).idxOf? c = some l.length := by
  rw [List.idxOf?, List.findIdx?_append, List.findIdx?_eq_none_iff.2, List.findIdx?_cons]
  · simp
  · intro b hb
    exact beq_eq_false_iff_ne.2 fun he => h (he ▸ hb)

theorem findFrom_eq_none (hs : str.drop pos = l) (h : c ∉ l) : findFrom str c pos = none := by
  rw [findFrom, hs, List.idxOf?_eq_none_iff.2 h]
  rfl

theorem findFrom_eq_some (hs : str.drop pos = l ++ c :: r) (h : c ∉ l) :
    findFrom str c pos = some (pos + l.length) := by
  rw [findFrom, hs, idxOf?_append_cons h]
  rfl

end

/-! ## Encoding -/

/-- `CHAR_IS_UNRESERVED`: the bytes with a `1` in `uri_chars`. -/
def uriChars (c : UInt8) : Bool :=
  c = 45 || c = 46 || (48 ≤ c && c ≤ 57) || c = 61 || (65 ≤ c && c ≤ 90) || c = 95 ||
    (97 ≤ c && c ≤ 122) || c = 126

/-- `hexdigits`. -/
def hexdigits (n : UInt8) : UInt8 := if n < 10 then 48 + n else 55 + n

/-- `isxdigit`. -/
def isxdigit (c : UInt8) : Bool :=
  (48 ≤ c && c ≤ 57) || (65 ≤ c && c ≤ 70) || (97 ≤ c && c ≤ 102)

/-- `xdigit_chars`. -/
def xdigitChars (c : UInt8) : UInt8 :=
  if 48 ≤ c ∧ c ≤ 57 then c - 48
  else if 65 ≤ c ∧ c ≤ 70 then c - 55
  else if 97 ≤ c ∧ c ≤ 102 then c - 87
  else 0

/-- The bytes that `UrlEncode` appends for one byte. -/
def encodeByte (spaceAsPlus : Bool) (c : UInt8) : List UInt8 :=
  if uriChars c then [c]
  else if c = 32 ∧ spaceAsPlus then [43]
  else [37, hexdigits (c >>> 4), hexdigits (c &&& 0xf)]

/-- `UrlEncode`. -/
def urlEncode (spaceAsPlus : Bool) (str : List UInt8) : List UInt8 :=
  str.flatMap (encodeByte spaceAsPlus)

/-- `UrlDecode`; a `%` with fewer than two bytes behind it is kept. -/
def urlDecode (spaceAsPlus : Bool) : List UInt8 → List UInt8
  | c :: h :: l :: str =>
    if c = 43 ∧ spaceAsPlus then 32 :: urlDecode spaceAsPlus (h :: l :: str)
    else if c = 37 ∧ isxdigit h ∧ isxdigit l then
      (xdigitChars h <<< 4 ||| xdigitChars l) :: urlDecode spaceAsPlus str
    else c :: urlDecode spaceAsPlus (h :: l :: str)
  | c :: str => (if c = 43 ∧ spaceAsPlus then 32 else c) :: urlDecode spaceAsPlus str
  | [] => []

/-- The default delimiters of `Trim`: space, tab, CR and LF. -/
def delimit (c : UInt8) : Bool := c = 32 || c = 9 || c = 13 || c = 10

/-- `Trim`: from the first byte that is no delimiter to the last one. -/
def trim (str : List UInt8) : List UInt8 :=
  ((str.dropWhile delimit).reverse.dropWhile delimit).reverse

section
variable {p q : Bool} {c : UInt8} {s t : List UInt8}

theorem urlDecode_plus : urlDecode true (43 :: s) = 32 :: urlDecode true s := by
  match s with
  | [] | [_] | _ :: _ :: _ => simp [urlDecode]

theorem urlDecode_other (hp : c ≠ 43) (hc : c ≠ 37) :
    urlDecode p (c :: s) = c :: urlDecode p s := by
  match s with
  | [] | [_] | _ :: _ :: _ => simp [urlDecode, hp, hc]

theorem uriChars_ne : ∀ c, uriChars c = true → c ≠ 43 ∧ c ≠ 37 ∧ c ≠ 38 ∧ c ≠ 32 :=
  forall_byte (by decide +kernel)

/-- The two digits of a byte give the byte back. -/
theorem digits_of_byte : ∀ c : UInt8, isxdigit (hexdigits (c >>> 4)) = true ∧
    isxdigit (hexdigits (c &&& 0xf)) = true ∧
    xdigitChars (hexdigits (c >>> 4)) <<< 4 ||| xdigitChars (hexdigits (c &&& 0xf)) = c :=
  forall_byte (by decide +kernel)

/-- A decoder that takes `+` for a space reads what either encoder writes. -/
theorem urlDecode_encodeByte (hq : p = true → q = true) (s : List UInt8) :
    urlDecode q (encodeByte p c ++ s) = c :: urlDecode q s := by
  unfold encodeByte
  split_ifs with hc hp
  · obtain ⟨hne, hne', -⟩ := uriChars_ne c hc
    exact urlDecode_other hne hne'
  · obtain ⟨rfl, hp⟩ := hp
    rw [hq hp]
    exact urlDecode_plus
  · obtain ⟨hh, hl, hd⟩ := digits_of_byte c
    simp [urlDecode, hh, hl, hd]

theorem urlDecode_urlEncode_of (hq : p = true → q = true) (s : List UInt8) :
    urlDecode q (urlEncode p s) = s := by
  induction s with
  | nil => rfl
  | cons c s ih =>
    rw [urlEncode, List.flatMap_cons, urlDecode_encodeByte hq]
    exact congrArg _ ih

/-- What is encoded is decoded to the same bytes. -/
theorem urlDecode_urlEncode (p : Bool) (s : List UInt8) : urlDecode p (urlEncode p s) = s :=
  urlDecode_urlEncode_of id s

theorem trim_mem (h : c ∈ s) (hc : delimit c = false) : c ∈ trim s := by
  have hmem : ∀ {l : List UInt8}, c ∈ l → c ∈ l.dropWhile delimit := fun {l} hl => by
    induction l with
    | nil => cases hl
    | cons b l ih =>
      rw [List.dropWhile_cons]
      split_ifs with hb
      · rcases List.mem_cons.1 hl with rfl | hl
        · rw [hc] at hb
          cases hb
        · exact ih hl
      · exact hl
  exact List.mem_reverse.2 (hmem (List.mem_reverse.2 (hmem h)))

theorem mem_of_mem_trim (h : c ∈ trim s) : c ∈ s := by
  have h' := List.dropWhile_subset _ (List.mem_reverse.1 h)
  exact List.dropWhile_subset _ (List.mem_reverse.1 h')

end

end CoroutineScheduler.StringUtil
