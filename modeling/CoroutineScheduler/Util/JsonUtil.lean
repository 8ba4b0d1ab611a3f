import CoroutineScheduler.Lib.Wire

/-!
# Escaping for JSON

`JsonUtil::NeedEscape` and `Escape`. `Escape` resizes its result to the size that it has counted and
appends the characters behind that, so a text with something to escape comes out behind as many NULs
(`escape_eq`).
-/

namespace CoroutineScheduler.JsonUtil

open Wire (forall_byte)

/-! ## The three switches -/

/-- The cases of the `switch` in `NeedEscape`: `\f`, `\t`, `\r`, `\n`, `\b`, `"` and `\`. -/
def isEscaped (c : UInt8) : Bool :=
  c = 12 || c = 9 || c = 13 || c = 10 || c = 8 || c = 34 || c = 92

/-- `NeedEscape`. -/
def needEscape : List UInt8 → Bool
  | [] => false
  | c :: v => if isEscaped c then true else needEscape v

/-- The loop of `Escape` that counts. -/
def escapeSize (size : ℕ) : List UInt8 → ℕ
  | [] => size
  | c :: v => escapeSize (size + if isEscaped c then 2 else 1) v

/-- What `Escape` appends for a character. -/
def escapeChar (c : UInt8) : List UInt8 :=
  if c = 12 then [92, 102]
  else if c = 9 then [92, 116]
  else if c = 13 then [92, 114]
  else if c = 10 then [92, 110]
  else if c = 8 then [92, 98]
  else if c = 34 then [92, 34]
  else if c = 92 then [92, 92]
  else [c]

/-- The loop of `Escape` that appends. -/
def escapeLoop (rt : List UInt8) : List UInt8 → List UInt8
  | [] => rt
  | c :: v => escapeLoop (rt ++ escapeChar c) v

/-- `Escape`. -/
def escape (v : List UInt8) : List UInt8 :=
  let size := escapeSize 0 v
  if size = v.length then v else escapeLoop (List.replicate size 0) v

/-! ## What is escaped, and back -/

/-- The text with every character escaped. -/
def escaped (v : List UInt8) : List UInt8 := v.flatMap escapeChar

/-- The character behind a backslash stands for this one. -/
def unescapeChar (c : UInt8) : Option UInt8 :=
  if c = 102 then some 12
  else if c = 116 then some 9
  else if c = 114 then some 13
  else if c = 110 then some 10
  else if c = 98 then some 8
  else if c = 34 then some 34
  else if c = 92 then some 92
  else none

/-- A text with its escapes taken back; any other backslash stays. -/
def unescape : List UInt8 → List UInt8
  | [] => []
  | [c] => [c]
  | c :: d :: v =>
    if c = 92 then
      match unescapeChar d with
      | some e => e :: unescape v
      | none => c :: unescape (d :: v)
    else c :: unescape (d :: v)

/-- What `Escape` is to do with a text. -/
structure EscapeRight (v : List UInt8) : Prop where
  text : escape v = escaped v
  back : unescape (escape v) = v
  same : escape v = v ↔ needEscape v = false

/-- A character is as it was, or a backslash and a character that stands for it. -/
theorem escapeChar_cases : ∀ c,
    (isEscaped c = false ∧ escapeChar c = [c] ∧ c ≠ 92) ∨
      (isEscaped c = true ∧ escapeChar c = [92, (escapeChar c).getD 1 0] ∧
        unescapeChar ((escapeChar c).getD 1 0) = some c) :=
  forall_byte (by decide +kernel)

theorem length_escapeChar (c : UInt8) : (escapeChar c).length = if isEscaped c then 2 else 1 := by
  rcases escapeChar_cases c with ⟨hc, hself, -⟩ | ⟨hc, htwo, -⟩
  · rw [hc, hself]
    rfl
  · rw [hc, htwo]
    rfl

theorem escapeChar_eq_self (c : UInt8) (h : isEscaped c = false) : escapeChar c = [c] := by
  rcases escapeChar_cases c with ⟨-, hself, -⟩ | ⟨hc, -, -⟩
  · exact hself
  · rw [h] at hc
    cases hc

theorem escapeSize_eq (size : ℕ) (v : List UInt8) :
    escapeSize size v = size + (escaped v).length := by
  induction v generalizing size with
  | nil => rfl
  | cons c v ih =>
    rw [escapeSize, ih, escaped, escaped, List.flatMap_cons, List.length_append, length_escapeChar,
      Nat.add_assoc]

theorem escapeLoop_eq (rt v : List UInt8) : escapeLoop rt v = rt ++ escaped v := by
  induction v generalizing rt with
  | nil => exact (List.append_nil rt).symm
  | cons c v ih => rw [escapeLoop, ih, escaped, escaped, List.flatMap_cons, List.append_assoc]

theorem needEscape_cons (c : UInt8) (v : List UInt8) :
    needEscape (c :: v) = false ↔ isEscaped c = false ∧ needEscape v = false := by
  rw [needEscape]
  cases isEscaped c <;> simp

theorem escaped_eq_self {v : List UInt8} (h : needEscape v = false) : escaped v = v := by
  induction v with
  | nil => rfl
  | cons c v ih =>
    obtain ⟨hc, hv⟩ := (needEscape_cons c v).1 h
    rw [escaped, List.flatMap_cons, escapeChar_eq_self c hc]
    exact congrArg (c :: ·) (ih hv)

theorem length_le_escaped (v : List UInt8) : v.length ≤ (escaped v).length := by
  induction v with
  | nil => exact le_rfl
  | cons c v ih =>
    have hc := length_escapeChar c
    rw [escaped, List.flatMap_cons, List.length_append, List.length_cons]
    unfold escaped at ih
    split_ifs at hc <;> omega

theorem length_escaped (v : List UInt8) :
    (escaped v).length = v.length ↔ needEscape v = false := by
  refine ⟨fun h => ?_, fun h => by rw [escaped_eq_self h]⟩
  induction v with
  | nil => rfl
  | cons c v ih =>
    have hc := length_escapeChar c
    have hle := length_le_escaped v
    rw [escaped, List.flatMap_cons, List.length_append, List.length_cons] at h
    unfold escaped at hle ih
    refine (needEscape_cons c v).2 ⟨?_, ih ?_⟩
    · by_contra hne
      rw [if_pos (Bool.not_eq_false _ ▸ hne)] at hc
      omega
    · split_ifs at hc <;> omega

/-- What `Escape` returns when there is something to escape. -/
theorem escape_eq {v : List UInt8} (h : needEscape v = true) :
    escape v = List.replicate (escaped v).length 0 ++ escaped v := by
  have hne : ¬ (escaped v).length = v.length := fun hlen => by
    rw [(length_escaped v).1 hlen] at h
    cases h
  unfold escape
  rw [escapeSize_eq, Nat.zero_add]
  exact (if_neg hne).trans (escapeLoop_eq _ _)

theorem escape_eq_self {v : List UInt8} (h : needEscape v = false) : escape v = v := by
  unfold escape
  rw [escapeSize_eq, Nat.zero_add]
  exact if_pos ((length_escaped v).2 h)

/-- `Escape` leaves a text alone if and only if nothing in it needs an escape. -/
theorem escape_eq_self_iff (v : List UInt8) : escape v = v ↔ needEscape v = false := by
  refine ⟨fun h => ?_, escape_eq_self⟩
  cases hneed : needEscape v with
  | false => rfl
  | true =>
    have hlen := congrArg List.length h
    have hle := length_le_escaped v
    have hne := mt (length_escaped v).1 (by rw [hneed]; decide)
    rw [escape_eq hneed, List.length_append, List.length_replicate] at hlen
    omega

theorem unescape_escapeChar (c : UInt8) (v : List UInt8) :
    unescape (escapeChar c ++ v) = c :: unescape v := by
  rcases escapeChar_cases c with ⟨-, hc, hne⟩ | ⟨-, hc, hd⟩
  · rw [hc]
    cases v with
    | nil => rfl
    | cons d v =>
      show unescape (c :: d :: v) = _
      rw [unescape, if_neg hne]
  · generalize (escapeChar c).getD 1 0 = d at hc hd
    rw [hc]
    show unescape (92 :: d :: v) = _
    rw [unescape, if_pos rfl, hd]

/-- The escaped text is read back. -/
theorem unescape_escaped (v : List UInt8) : unescape (escaped v) = v := by
  induction v with
  | nil => rfl
  | cons c v ih =>
    rw [escaped, List.flatMap_cons, unescape_escapeChar]
    exact congrArg (c :: ·) ih

/-- `Escape` does what it is for if and only if it has nothing to do. -/
theorem escapeRight_iff (v : List UInt8) : EscapeRight v ↔ needEscape v = false := by
  constructor
  · intro h
    by_contra hneed
    have hlen := congrArg List.length h.text
    have hle := length_le_escaped v
    have hne := mt (length_escaped v).1 hneed
    rw [escape_eq (Bool.not_eq_false _ ▸ hneed), List.length_append, List.length_replicate] at hlen
    omega
  · intro h
    have hself := escaped_eq_self h
    refine ⟨(escape_eq_self h).trans hself.symm, ?_, escape_eq_self_iff v⟩
    rw [escape_eq_self h]
    exact (congrArg unescape hself.symm).trans (unescape_escaped v)

/-- A single quotation mark: two NULs come in front of its escape. -/
theorem not_escapeRight_quote : escape [34] = [0, 0, 92, 34] ∧ ¬ EscapeRight [34] :=
  ⟨by decide, fun h => absurd h.text (by decide)⟩

end CoroutineScheduler.JsonUtil
