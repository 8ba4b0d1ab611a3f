import CoroutineScheduler.Http.Request
import CoroutineScheduler.Util.Base64
import CoroutineScheduler.Util.Url

/-!
# Hexadecimal texts

`hexstring_from_data` and `data_from_hexstring` of `hash_util.cc`. Both store through a pointer into a
string that the caller has made long enough; a store outside of it, and a read behind the text, is
`none`. The decoder throws `std::invalid_argument`, which is an `error` with its text.
-/

namespace CoroutineScheduler.HashUtil

open Wire (forall_byte)
open StringUtil (isxdigit)
open Http (tolower)

/-! ## The two loops -/

/-- The character of a nibble. -/
def hexChar (c : UInt8) : UInt8 := if c > 9 then c + 97 - 10 else c + 48

/-- The loop of `hexstring_from_data` over the bytes that are left. -/
def hexLoop (w : Writing) : List UInt8 → Option Writing
  | [] => some w
  | b :: buf =>
    (w.put (hexChar (b >>> 4 &&& 0xf)).toNat).bind fun w =>
      (w.put (hexChar (b &&& 0xf)).toNat).bind fun w => hexLoop w buf

/-- `hexstring_from_data`. -/
def hexstringFromData (data : List UInt8) : Option (List UInt8) :=
  if data = [] then some []
  else (hexLoop ⟨List.replicate (data.length * 2) 0, 0⟩ data).map Writing.result

/-- The digit that a `switch` finds, `none` for its `default`. -/
def hexValue (c : UInt8) : Option UInt8 :=
  if 97 ≤ c ∧ c ≤ 102 then some (c - 97 + 10)
  else if 65 ≤ c ∧ c ≤ 70 then some (c - 65 + 10)
  else if 48 ≤ c ∧ c ≤ 57 then some (c - 48)
  else none

def oddLength : String := "data_from_hexstring length % 2 != 0"

def invalidHexstring : String := "data_from_hexstring invalid hexstring"

/-- The loop of `data_from_hexstring` over the characters that are left. -/
def dataLoop (w : Writing) : List UInt8 → Option (Except String Writing)
  | [] => some (.ok w)
  | h :: rest =>
    match hexValue h with
    | none => some (.error invalidHexstring)
    | some high =>
      match rest with
      | [] => none
      | l :: rest =>
        match hexValue l with
        | none => some (.error invalidHexstring)
        | some low => (w.put (high <<< 4 ||| low).toNat).bind fun w => dataLoop w rest

/-- `data_from_hexstring(hexstring, length, output)`. -/
def dataFromHexstringTo (w : Writing) (hexstring : List UInt8) : Option (Except String Writing) :=
  if hexstring.length % 2 ≠ 0 then some (.error oddLength) else dataLoop w hexstring

/-- `data_from_hexstring`. -/
def dataFromHexstring (hexstring : List UInt8) : Option (Except String (List UInt8)) :=
  if hexstring.length % 2 ≠ 0 then some (.error oddLength)
  else if hexstring = [] then some (.ok [])
  else
    (dataFromHexstringTo ⟨List.replicate (hexstring.length / 2) 0, 0⟩ hexstring).map
      (Except.map Writing.result)

/-! ## One byte -/

/-- The two characters of a byte. -/
def hexText (b : UInt8) : List UInt8 := [hexChar (b >>> 4 &&& 0xf), hexChar (b &&& 0xf)]

theorem put_byte {back : List UInt8} (front : List UInt8) (x b : UInt8) :
    (written front (x :: back)).put b.toNat = some (written (front ++ [b]) back) := by
  have hb : UInt8.ofNat (b.toNat &&& 0xff) = b := by
    rw [Nat.and_two_pow_sub_one_eq_mod _ 8, Nat.mod_eq_of_lt b.toNat_lt, UInt8.ofNat_toNat]
  have hpos : 0 < (x :: back).length := Nat.succ_pos _
  have hput := put_written front b.toNat hpos
  rwa [List.drop_zero, hb] at hput

/-- What the switch and the table have for each byte. -/
theorem byte_facts : ∀ c : UInt8, (hexValue c).isSome = isxdigit c ∧
    (hexValue c).all (fun v => v < 16 && hexChar v == tolower c) = true ∧
    (hexText c).all (fun d => isxdigit d && tolower d == d) = true ∧
    hexValue (hexChar (c >>> 4 &&& 0xf)) = some (c >>> 4) ∧
    hexValue (hexChar (c &&& 0xf)) = some (c &&& 0xf) ∧ c >>> 4 <<< 4 ||| c &&& 0xf = c :=
  forall_byte (by decide +kernel)

theorem hexValue_isSome (c : UInt8) : (hexValue c).isSome = isxdigit c := (byte_facts c).1

theorem hexValue_eq_none {c : UInt8} : hexValue c = none ↔ isxdigit c = false := by
  rw [← hexValue_isSome, Option.isSome_eq_false_iff, Option.isNone_iff_eq_none]

/-- The digits of a byte are read back. -/
theorem hexValue_hexText (b : UInt8) : ∃ high low,
    hexValue (hexChar (b >>> 4 &&& 0xf)) = some high ∧ hexValue (hexChar (b &&& 0xf)) = some low ∧
      high <<< 4 ||| low = b :=
  ⟨_, _, (byte_facts b).2.2.2⟩

/-- A digit is below sixteen, and its character is the one that was read, in lower case. -/
theorem hexChar_of_hexValue {c v : UInt8} (h : hexValue c = some v) :
    v < 16 ∧ hexChar v = tolower c := by
  have hc := (byte_facts c).2.1
  rw [h, Option.all_some, Bool.and_eq_true] at hc
  exact ⟨of_decide_eq_true hc.1, eq_of_beq hc.2⟩

/-- Two digits are the nibbles of their byte. -/
theorem nibbles {high low : UInt8} (hh : high < 16) (hl : low < 16) :
    (high <<< 4 ||| low) >>> 4 &&& 0xf = high ∧ (high <<< 4 ||| low) &&& 0xf = low := by
  have hall : ∀ h < 16, ∀ l < 16,
      (UInt8.ofNat h <<< 4 ||| UInt8.ofNat l) >>> 4 &&& 0xf = UInt8.ofNat h ∧
        (UInt8.ofNat h <<< 4 ||| UInt8.ofNat l) &&& 0xf = UInt8.ofNat l := by decide +kernel
  have := hall high.toNat hh low.toNat hl
  rwa [UInt8.ofNat_toNat, UInt8.ofNat_toNat] at this

theorem hexText_of_hexValue {h l high low : UInt8} (hh : hexValue h = some high)
    (hl : hexValue l = some low) : hexText (high <<< 4 ||| low) = [tolower h, tolower l] := by
  obtain ⟨hlt, hchar⟩ := hexChar_of_hexValue hh
  obtain ⟨hlt', hchar'⟩ := hexChar_of_hexValue hl
  obtain ⟨hn, hn'⟩ := nibbles hlt hlt'
  unfold hexText
  rw [hn, hn', hchar, hchar']

/-! ## A whole text -/

theorem hexLoop_written (s front back : List UInt8) (h : back.length = s.length * 2) :
    hexLoop (written front back) s = some (written (front ++ s.flatMap hexText) []) := by
  induction s generalizing front back with
  | nil =>
    obtain rfl := List.length_eq_zero_iff.1 h
    rw [List.flatMap_nil, List.append_nil]
    rfl
  | cons b s ih =>
    match back, h with
    | [], h | [_], h =>
      simp only [List.length_nil, List.length_cons] at h
      omega
    | x :: y :: back, h =>
      simp only [List.length_cons] at h
      rw [hexLoop, put_byte, Option.bind_some, put_byte, Option.bind_some, ih _ _ (by omega),
        List.flatMap_cons, List.append_assoc, List.append_assoc]
      rfl

theorem hexstringFromData_eq (s : List UInt8) : hexstringFromData s = some (s.flatMap hexText) := by
  unfold hexstringFromData
  split_ifs with hs
  · rw [hs]
    rfl
  · have hloop := hexLoop_written s [] (List.replicate (s.length * 2) 0) (List.length_replicate ..)
    have hstart : written [] (List.replicate (s.length * 2) 0) =
        ⟨List.replicate (s.length * 2) 0, 0⟩ := rfl
    rw [← hstart, hloop, Option.map_some]
    exact congrArg some (List.append_nil _)

theorem dataLoop_high {w : Writing} {h : UInt8} (t : List UInt8) (hh : hexValue h = none) :
    dataLoop w (h :: t) = some (.error invalidHexstring) := by
  rw [dataLoop, hh]

theorem dataLoop_low {w : Writing} {h l high : UInt8} (t : List UInt8) (hh : hexValue h = some high)
    (hl : hexValue l = none) : dataLoop w (h :: l :: t) = some (.error invalidHexstring) := by
  rw [dataLoop, hh]
  simp only [hl]

theorem dataLoop_pair {h l high low : UInt8} (t front back : List UInt8) (x : UInt8)
    (hh : hexValue h = some high) (hl : hexValue l = some low) :
    dataLoop (written front (x :: back)) (h :: l :: t) =
      dataLoop (written (front ++ [high <<< 4 ||| low]) back) t := by
  rw [dataLoop, hh]
  simp only [hl, put_byte, Option.bind_some]

/-- The decoder on a text of digits. -/
theorem dataLoop_digits : ∀ (t front back : List UInt8), t.length = back.length * 2 →
    (∀ c ∈ t, isxdigit c = true) → ∃ s, dataLoop (written front back) t =
      some (.ok (written (front ++ s) [])) ∧ s.flatMap hexText = t.map tolower
  | [], front, back, hlen, _ => by
    obtain rfl : back = [] := List.length_eq_zero_iff.1 (by simpa using hlen.symm)
    exact ⟨[], by rw [List.append_nil]; rfl, rfl⟩
  | [_], _, back, hlen, _ => by
    rw [List.length_singleton] at hlen
    omega
  | h :: l :: t, front, back, hlen, hall => by
    match back, hlen with
    | x :: back, hlen =>
      simp only [List.length_cons] at hlen
      obtain ⟨high, hhigh⟩ := Option.isSome_iff_exists.1
        ((hexValue_isSome h).trans (hall h (List.mem_cons_self ..)))
      obtain ⟨low, hlow⟩ := Option.isSome_iff_exists.1
        ((hexValue_isSome l).trans (hall l (List.mem_cons_of_mem _ (List.mem_cons_self ..))))
      obtain ⟨s, hs, htext⟩ := dataLoop_digits t (front ++ [high <<< 4 ||| low]) back (by omega)
        fun c hc => hall c (List.mem_cons_of_mem _ (List.mem_cons_of_mem _ hc))
      refine ⟨(high <<< 4 ||| low) :: s, ?_, ?_⟩
      · rw [dataLoop_pair t front back x hhigh hlow, hs, List.append_assoc, List.singleton_append]
      · rw [List.flatMap_cons, hexText_of_hexValue hhigh hlow, htext]
        rfl

/-- The decoder on a text with a character that is no digit. -/
theorem dataLoop_invalid : ∀ (t front back : List UInt8), t.length = back.length * 2 →
    (∃ c ∈ t, isxdigit c = false) → dataLoop (written front back) t = some (.error invalidHexstring)
  | [], _, _, _, ⟨_, hc, _⟩ => by cases hc
  | [_], _, back, hlen, _ => by
    rw [List.length_singleton] at hlen
    omega
  | h :: l :: t, front, back, hlen, ⟨c, hc, hbad⟩ => by
    match back, hlen with
    | x :: back, hlen =>
      simp only [List.length_cons] at hlen
      cases hhigh : hexValue h with
      | none => exact dataLoop_high _ hhigh
      | some high =>
        cases hlow : hexValue l with
        | none => exact dataLoop_low t hhigh hlow
        | some low =>
          have hmem : c ∈ t := by
            rcases List.mem_cons.1 hc with rfl | hc
            · rw [hexValue_eq_none.2 hbad] at hhigh
              cases hhigh
            · rcases List.mem_cons.1 hc with rfl | hc
              · rw [hexValue_eq_none.2 hbad] at hlow
                cases hlow
              · exact hc
          rw [dataLoop_pair t front back x hhigh hlow]
          exact dataLoop_invalid t _ back (by omega) ⟨c, hmem, hbad⟩

/-- The decoder on a text of an even length is its loop. -/
theorem dataFromHexstring_even {t : List UInt8} (h : t.length % 2 = 0) :
    dataFromHexstring t = (dataLoop (written [] (List.replicate (t.length / 2) 0)) t).map
      (Except.map Writing.result) := by
  unfold dataFromHexstring dataFromHexstringTo
  rw [if_neg (not_not.2 h), if_neg (not_not.2 h)]
  split_ifs with ht
  · rw [ht]
    rfl
  · rfl

/-- What becomes of a text in the decoder. -/
theorem dataFromHexstring_cases (t : List UInt8) :
    ((t.length % 2 = 1 ∨ ∃ c ∈ t, isxdigit c = false) ∧ ∃ e, dataFromHexstring t = some (.error e)) ∨
      ((t.length % 2 = 0 ∧ ∀ c ∈ t, isxdigit c = true) ∧
        ∃ s, dataFromHexstring t = some (.ok s) ∧ s.flatMap hexText = t.map tolower) := by
  rcases Nat.mod_two_eq_zero_or_one t.length with hmod | hmod
  · have hlen : t.length = (List.replicate (t.length / 2) (0 : UInt8)).length * 2 := by
      rw [List.length_replicate]
      omega
    rw [dataFromHexstring_even hmod]
    by_cases hall : ∀ c ∈ t, isxdigit c = true
    · obtain ⟨s, hs, htext⟩ := dataLoop_digits t [] _ hlen hall
      rw [hs]
      exact .inr ⟨⟨hmod, hall⟩, s, congrArg (some ∘ Except.ok) (List.append_nil _), htext⟩
    · simp only [not_forall, Bool.not_eq_true] at hall
      obtain ⟨c, hc, hbad⟩ := hall
      rw [dataLoop_invalid t [] _ hlen ⟨c, hc, hbad⟩]
      exact .inl ⟨.inr ⟨c, hc, hbad⟩, _, rfl⟩
  · refine .inl ⟨.inl hmod, oddLength, ?_⟩
    unfold dataFromHexstring
    rw [if_pos (by omega)]

theorem hexText_injective : Function.Injective hexText := fun a b h => by
  obtain ⟨high, low, hh, hl, hab⟩ := hexValue_hexText a
  obtain ⟨high', low', hh', hl', hb⟩ := hexValue_hexText b
  obtain ⟨h1, h2⟩ := List.cons_eq_cons.1 h
  rw [h1] at hh
  rw [(List.cons_eq_cons.1 h2).1] at hl
  obtain rfl := Option.some.inj (hh.symm.trans hh')
  obtain rfl := Option.some.inj (hl.symm.trans hl')
  exact hab.symm.trans hb

theorem flatMap_hexText_inj : ∀ {s t : List UInt8}, s.flatMap hexText = t.flatMap hexText → s = t
  | [], [], _ => rfl
  | [], _ :: _, h | _ :: _, [], h => by cases h
  | a :: s, b :: t, h => by
    rw [List.flatMap_cons, List.flatMap_cons] at h
    obtain ⟨hab, hst⟩ := List.append_inj h rfl
    rw [hexText_injective hab, flatMap_hexText_inj hst]

theorem length_flatMap_hexText (s : List UInt8) : (s.flatMap hexText).length = s.length * 2 := by
  induction s with
  | nil => rfl
  | cons b s ih =>
    rw [List.flatMap_cons, List.length_append, ih, List.length_cons, Nat.succ_mul, Nat.add_comm]
    rfl

/-- The characters of a byte are digits, and in lower case. -/
theorem hexText_facts (b c : UInt8) (hc : c ∈ hexText b) : isxdigit c = true ∧ tolower c = c := by
  have hc' := List.all_eq_true.1 (byte_facts b).2.2.1 c hc
  rw [Bool.and_eq_true] at hc'
  exact ⟨hc'.1, eq_of_beq hc'.2⟩

/-- What is encoded is decoded to the same bytes. A text is refused if and only if its length is odd
or it has a character that is no digit; the bytes of any other are encoded to the text in lower
case. -/
theorem hex_right (s t : List UInt8) :
    (hexstringFromData s).bind dataFromHexstring = some (.ok s) ∧
      ((∃ e, dataFromHexstring t = some (.error e)) ↔
        t.length % 2 = 1 ∨ ∃ c ∈ t, isxdigit c = false) ∧
      ((∃ e, dataFromHexstring t = some (.error e)) ∨
        ∃ d, dataFromHexstring t = some (.ok d) ∧ hexstringFromData d = some (t.map tolower)) := by
  refine ⟨?_, ?_, ?_⟩
  · rw [hexstringFromData_eq, Option.bind_some]
    rcases dataFromHexstring_cases (s.flatMap hexText) with ⟨hbad, -⟩ | ⟨-, d, hd, htext⟩
    · rcases hbad with hodd | ⟨c, hc, hbad⟩
      · have hlen := length_flatMap_hexText s
        omega
      · obtain ⟨b, -, hcb⟩ := List.mem_flatMap.1 hc
        rw [(hexText_facts b c hcb).1] at hbad
        cases hbad
    · have hlower : (s.flatMap hexText).map tolower = s.flatMap hexText := by
        refine List.map_congr_left (fun c hc => ?_) |>.trans (List.map_id _)
        obtain ⟨b, -, hcb⟩ := List.mem_flatMap.1 hc
        exact (hexText_facts b c hcb).2
      rw [hlower] at htext
      rw [hd, flatMap_hexText_inj htext]
  · rcases dataFromHexstring_cases t with ⟨hbad, herr⟩ | ⟨⟨hmod, hall⟩, d, hd, -⟩
    · exact ⟨fun _ => hbad, fun _ => herr⟩
    · constructor
      · rintro ⟨e, he⟩
        rw [hd] at he
        cases he
      · rintro (hodd | ⟨c, hc, hbad⟩)
        · omega
        · rw [hall c hc] at hbad
          cases hbad
  · rcases dataFromHexstring_cases t with ⟨-, herr⟩ | ⟨-, d, hd, htext⟩
    · exact .inl herr
    · exact .inr ⟨d, hd, (hexstringFromData_eq d).trans (congrArg some htext)⟩

end CoroutineScheduler.HashUtil
