import Mathlib.Data.List.TakeWhile
import CoroutineScheduler.Http.Segments

/-!
# Method names

`StringToHttpMethod` compares the whole text with the names of `HTTP_METHOD_MAP`, `CharsToHttpMethod`
only as many bytes as the name has. `onRequestMethod_exact_iff` says for which tokens a request is
parsed with the method that the token names.
-/

namespace CoroutineScheduler.Http

/-- `StringToHttpMethod`: `strcmp` compares up to the first NUL. -/
def stringToHttpMethod (method : List UInt8) : HttpMethod :=
  ((httpMethodMap.find? fun e => ascii e.2 = method.takeWhile (· ≠ 0)).map Prod.fst).getD
    .INVALID_METHOD

/-- The method with this name. -/
def methodNamed (token : List UInt8) : Option HttpMethod :=
  (httpMethodMap.find? fun e => ascii e.2 = token).map Prod.fst

/-- A method token: 1 to 20 upper-case letters or digits. -/
structure MethodToken (token : List UInt8) : Prop where
  length_pos : 0 < token.length
  length_le : token.length ≤ 20
  chars : ∀ c ∈ token, (65 ≤ c ∧ c ≤ 90) ∨ (48 ≤ c ∧ c ≤ 57)

theorem methodToken_of_all {token : List UInt8} (hpos : 0 < token.length) (hle : token.length ≤ 20)
    (hall : (token.all fun c => decide ((65 ≤ c ∧ c ≤ 90) ∨ (48 ≤ c ∧ c ≤ 57))) = true) :
    MethodToken token := ⟨hpos, hle, fun c hc => of_decide_eq_true (List.all_eq_true.1 hall c hc)⟩

/-- What the parser does for a method, and for none. -/
def RequestParser.withMethod : Option HttpMethod → RequestParser → RequestParser
  | none, e => { e with error := 1000 }
  | some m, e => { e with data := { e.data with method := m } }

/-- `on_request_method` takes the token for the method that it names, and for none otherwise; so do both
conversions. -/
def MethodExact (token rest : List UInt8) : Prop :=
  (∀ e : RequestParser, e.onRequestMethod (token ++ 32 :: rest) = e.withMethod (methodNamed token)) ∧
  (charsToHttpMethod (token ++ 32 :: rest)).getD .INVALID_METHOD = stringToHttpMethod token

section
variable {token rest : List UInt8} {e : HttpMethod × String}

/-- No name is the front of another one. -/
theorem names_prefix_free : ∀ e ∈ httpMethodMap, ∀ d ∈ httpMethodMap,
    ascii e.2 <+: ascii d.2 → e = d := by
  decide +kernel

theorem names_no_space : ∀ e ∈ httpMethodMap, 32 ∉ ascii e.2 := by decide

/-- A name is found in the buffer when it is a front of the token. -/
theorem isPrefixOf_buffer (he : e ∈ httpMethodMap) :
    (ascii e.2).isPrefixOf (token ++ 32 :: rest) = true ↔ ascii e.2 <+: token := by
  have hspace := names_no_space e he
  rw [List.isPrefixOf_iff_prefix]
  constructor
  · intro h
    rcases Nat.le_total (ascii e.2).length token.length with hle | hle
    · exact List.prefix_of_prefix_length_le h (List.prefix_append token _) hle
    · rcases Nat.eq_or_lt_of_le hle with heq | hlt
      · exact List.prefix_of_prefix_length_le h (List.prefix_append token _) heq.ge
      · -- a longer name would contain the space
        have hlong : token ++ [32] <+: token ++ 32 :: rest := ⟨rest, by simp⟩
        have hfront : token ++ [32] <+: ascii e.2 :=
          List.prefix_of_prefix_length_le hlong h (by simpa using hlt)
        exact absurd (hfront.subset (by simp)) hspace
  · exact fun h => h.trans (List.prefix_append _ _)

theorem methodNamed_eq_some (he : e ∈ httpMethodMap) (ht : ascii e.2 = token) :
    methodNamed token = some e.1 := by
  cases hf : httpMethodMap.find? fun e => ascii e.2 = token with
  | none => exact absurd ht (by simpa using List.find?_eq_none.1 hf e he)
  | some d =>
    have hd : ascii d.2 = token := by simpa using List.find?_some hf
    have heq : d = e := names_prefix_free d (List.mem_of_find?_eq_some hf) e he (by rw [hd, ht])
    rw [methodNamed, hf, heq]
    rfl

theorem charsToHttpMethod_eq_some (rest : List UInt8) (he : e ∈ httpMethodMap) (ht : ascii e.2 <+: token) :
    ∃ d ∈ httpMethodMap, ascii d.2 <+: token ∧ charsToHttpMethod (token ++ 32 :: rest) = some d.1 := by
  cases hf : httpMethodMap.find? fun e => (ascii e.2).isPrefixOf (token ++ 32 :: rest) with
  | none => exact absurd ((isPrefixOf_buffer he).2 ht) (List.find?_eq_none.1 hf e he)
  | some d =>
    have hd := List.mem_of_find?_eq_some hf
    have hpre : (ascii d.2).isPrefixOf (token ++ 32 :: rest) = true := by simpa using List.find?_some hf
    refine ⟨d, hd, (isPrefixOf_buffer hd).1 hpre, ?_⟩
    rw [charsToHttpMethod, hf]
    rfl

/-- The buffer is read as the token when no name is a proper front of the token. -/
theorem charsToHttpMethod_eq_iff (rest : List UInt8) :
    charsToHttpMethod (token ++ 32 :: rest) = methodNamed token ↔
      ∀ e ∈ httpMethodMap, ascii e.2 <+: token → ascii e.2 = token := by
  constructor
  · intro h e he ht
    by_contra hne
    obtain ⟨d, hd, hpre, hchars⟩ := charsToHttpMethod_eq_some rest he ht
    rw [hchars] at h
    obtain ⟨f, hf, -⟩ := Option.map_eq_some_iff.1 h.symm
    have htoken : ascii f.2 = token := by simpa using List.find?_some hf
    have heq : e = f := names_prefix_free e he f (List.mem_of_find?_eq_some hf) (by rw [htoken]; exact ht)
    exact hne (heq ▸ htoken)
  · intro h
    by_cases hany : ∃ e ∈ httpMethodMap, ascii e.2 <+: token
    · obtain ⟨e, he, ht⟩ := hany
      obtain ⟨d, hd, hpre, hchars⟩ := charsToHttpMethod_eq_some rest he ht
      rw [hchars, methodNamed_eq_some hd (h d hd hpre)]
    · have hchars : charsToHttpMethod (token ++ 32 :: rest) = none := by
        rw [charsToHttpMethod, List.find?_eq_none.2]
        · rfl
        · exact fun e he hpre => hany ⟨e, he, (isPrefixOf_buffer he).1 hpre⟩
      have hnamed : methodNamed token = none := by
        rw [methodNamed, List.find?_eq_none.2]
        · rfl
        · exact fun e he heq => hany ⟨e, he, by simp_all⟩
      rw [hchars, hnamed]

theorem stringToHttpMethod_eq (h : MethodToken token) :
    stringToHttpMethod token = (methodNamed token).getD .INVALID_METHOD := by
  have hnul : token.takeWhile (· ≠ 0) = token := by
    rw [List.takeWhile_eq_self_iff]
    intro c hc
    have hne : c ≠ 0 := by
      rintro rfl
      exact absurd (h.chars 0 hc) (by decide)
    simpa using hne
  rw [stringToHttpMethod, hnul]
  rfl

theorem onRequestMethod_eq (text : List UInt8) (e : RequestParser) :
    e.onRequestMethod text = e.withMethod (charsToHttpMethod text) := by
  unfold RequestParser.onRequestMethod
  cases charsToHttpMethod text <;> rfl

theorem withMethod_inj {m m' : Option HttpMethod}
    (h : RequestParser.withMethod m {} = RequestParser.withMethod m' {}) : m = m' := by
  have herror := congrArg RequestParser.error h
  have hmethod := congrArg (fun e => e.data.method) h
  cases m with
  | none =>
    cases m' with
    | none => rfl
    | some _ => cases herror
  | some _ =>
    cases m' with
    | none => cases herror
    | some _ => exact congrArg some hmethod

/-- A method token is read exactly when no name is a proper front of it. -/
theorem onRequestMethod_exact_iff {token : List UInt8} (h : MethodToken token) (rest : List UInt8) :
    MethodExact token rest ↔ ∀ e ∈ httpMethodMap, ascii e.2 <+: token → ascii e.2 = token := by
  rw [← charsToHttpMethod_eq_iff rest]
  constructor
  · rintro ⟨hparser, -⟩
    have hdefault := hparser {}
    rw [onRequestMethod_eq] at hdefault
    exact withMethod_inj hdefault
  · intro heq
    refine ⟨fun e => ?_, ?_⟩
    · rw [onRequestMethod_eq, heq]
    · rw [heq, stringToHttpMethod_eq h]

theorem onRequestMethod_exact_iff_post :
    MethodExact (ascii "POST") (ascii "/ HTTP/1.1") ↔
      ∀ e ∈ httpMethodMap, ascii e.2 <+: ascii "POST" → ascii e.2 = ascii "POST" :=
  onRequestMethod_exact_iff (methodToken_of_all (by decide) (by decide) (by decide)) _

/-- `GETX` is taken for `GET`. -/
theorem onRequestMethod_getx :
    ¬∀ token rest, MethodToken token → MethodExact token rest := by
  intro h
  have htoken : MethodToken (ascii "GETX") :=
    methodToken_of_all (by decide) (by decide) (by decide)
  have hexact := (h (ascii "GETX") [] htoken).1 {}
  exact absurd (congrArg RequestParser.error hexact) (by decide)

end

end CoroutineScheduler.Http
