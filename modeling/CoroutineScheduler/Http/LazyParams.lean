import CoroutineScheduler.Http.Params

/-!
# Parameters and cookies that are parsed late

The accessors of the parameters and cookies of `HttpRequest`. `getParam` and `hasParam` parse the query
and the form body when they have not been parsed yet, `setParam`, `delParam` and `getParams` do not, and
the same goes for the cookies. `results_eq` says which calls may come before the parsing.
-/

namespace CoroutineScheduler.Http

open StringUtil OrderedMap

/-- `HttpRequest` with the members of the parameters and cookies. -/
structure ParamRequest extends HttpRequest where
  params : ParamMap := ∅
  cookies : ParamMap := ∅
  parserParamFlag : UInt8 := 0

/-- `strcasestr(haystack, needle) != nullptr`. -/
def strcasestr (haystack needle : List UInt8) : Bool := folded needle <:+: folded haystack

/-- The two maps. -/
inductive Store
  | params | cookies
  deriving DecidableEq, Repr

namespace ParamRequest

/-- The body is a form. -/
def isForm (r : ParamRequest) : Bool :=
  strcasestr (r.getHeader "content-type") (ascii "application/x-www-form-urlencoded")

def initQueryParam (r : ParamRequest) : ParamRequest :=
  if r.parserParamFlag &&& 0x1 ≠ 0 then r
  else
    { r with
      params := parseParam ParamText.query.flag ParamText.query.trim r.query 0 r.params
      parserParamFlag := r.parserParamFlag ||| 0x1 }

def initBodyParam (r : ParamRequest) : ParamRequest :=
  if r.parserParamFlag &&& 0x2 ≠ 0 then r
  else if !r.isForm then { r with parserParamFlag := r.parserParamFlag ||| 0x2 }
  else
    { r with
      params := parseParam ParamText.body.flag ParamText.body.trim r.body 0 r.params
      parserParamFlag := r.parserParamFlag ||| 0x2 }

def initCookies (r : ParamRequest) : ParamRequest :=
  if r.parserParamFlag &&& 0x4 ≠ 0 then r
  else if r.getHeader "cookie" = [] then { r with parserParamFlag := r.parserParamFlag ||| 0x4 }
  else
    { r with
      cookies :=
        parseParam ParamText.cookies.flag ParamText.cookies.trim (r.getHeader "cookie") 0 r.cookies
      parserParamFlag := r.parserParamFlag ||| 0x4 }

def initParam (r : ParamRequest) : ParamRequest := r.initQueryParam.initBodyParam.initCookies

/-- What an accessor of the map does first when it parses. -/
def load : Store → ParamRequest → ParamRequest
  | .params, r => r.initQueryParam.initBodyParam
  | .cookies, r => r.initCookies

/-- The map as it is. -/
def map : Store → ParamRequest → ParamMap
  | .params, r => r.params
  | .cookies, r => r.cookies

def setMap : Store → ParamMap → ParamRequest → ParamRequest
  | .params, m, r => { r with params := m }
  | .cookies, m, r => { r with cookies := m }

/-- `getParam` and `getCookie`: the value, or the default. -/
def get (s : Store) (key default : List UInt8) (r : ParamRequest) : List UInt8 × ParamRequest :=
  (((r.load s).map s |>.find key).getD default, r.load s)

/-- `hasParam` and `hasCookie`: whether the key is there, with the value that is stored to `val`. -/
def has (s : Store) (key : List UInt8) (r : ParamRequest) : Option (List UInt8) × ParamRequest :=
  ((r.load s).map s |>.find key, r.load s)

theorem isPreorder_byte : Std.IsPreorder UInt8 := inferInstance

attribute [local instance] isPreorder_byte

/-- `setParam` and `setCookie`. -/
def set (s : Store) (key val : List UInt8) (r : ParamRequest) : ParamRequest :=
  r.setMap s ((r.map s).set key val)

/-- `delParam` and `delCookie`. -/
def del (s : Store) (key : List UInt8) (r : ParamRequest) : ParamRequest :=
  r.setMap s ((r.map s).erase key)

def getParam := get .params
def getCookie := get .cookies
def hasParam := has .params
def hasCookie := has .cookies
def setParam := set .params
def setCookie := set .cookies
def delParam := del .params
def delCookie := del .cookies
def getParams := map .params
def getCookies := map .cookies

end ParamRequest

/-- A call of an accessor. -/
inductive ParamCall
  | getParam (key default : List UInt8) | getCookie (key default : List UInt8)
  | hasParam (key : List UInt8) | hasCookie (key : List UInt8)
  | setParam (key val : List UInt8) | setCookie (key val : List UInt8)
  | delParam (key : List UInt8) | delCookie (key : List UInt8)
  | getParams | getCookies
  deriving DecidableEq, Repr

/-- What a call returns. -/
inductive ParamResult
  | text (value : List UInt8)
  | found (value : Option (List UInt8))
  | done
  | all (m : ParamMap)
  deriving DecidableEq

namespace ParamRequest

/-- A call: its result and the request afterwards. -/
def call (r : ParamRequest) : ParamCall → ParamResult × ParamRequest
  | .getParam key default => (r.getParam key default).map .text id
  | .getCookie key default => (r.getCookie key default).map .text id
  | .hasParam key => (r.hasParam key).map .found id
  | .hasCookie key => (r.hasCookie key).map .found id
  | .setParam key val => (.done, r.setParam key val)
  | .setCookie key val => (.done, r.setCookie key val)
  | .delParam key => (.done, r.delParam key)
  | .delCookie key => (.done, r.delCookie key)
  | .getParams => (.all r.getParams, r)
  | .getCookies => (.all r.getCookies, r)

/-- The results of a sequence of calls. -/
def results : List ParamCall → ParamRequest → List ParamResult
  | [], _ => []
  | c :: cs, r => (r.call c).1 :: results cs (r.call c).2

/-! ## What is not parsed yet -/

/-- The entries that the query still has to give. -/
def queryPending (r : ParamRequest) : List (List UInt8 × List UInt8) :=
  if r.parserParamFlag &&& 0x1 ≠ 0 then []
  else (ParamText.query.bindings r.query).map (Binding.read .query)

/-- The entries that the body still has to give. -/
def bodyPending (r : ParamRequest) : List (List UInt8 × List UInt8) :=
  if r.parserParamFlag &&& 0x2 ≠ 0 then []
  else if !r.isForm then []
  else (ParamText.body.bindings r.body).map (Binding.read .body)

/-- The entries that the header `cookie` still has to give. -/
def cookiePending (r : ParamRequest) : List (List UInt8 × List UInt8) :=
  if r.parserParamFlag &&& 0x4 ≠ 0 then []
  else if r.getHeader "cookie" = [] then []
  else (ParamText.cookies.bindings (r.getHeader "cookie")).map (Binding.read .cookies)

/-- The entries that a map still has to get. -/
def pending : Store → ParamRequest → List (List UInt8 × List UInt8)
  | .params, r => r.queryPending ++ r.bodyPending
  | .cookies, r => r.cookiePending

/-- Nothing that is still to be parsed has another spelling of a key that is set for the first time. -/
def SetHarmless (r : ParamRequest) (s : Store) (key : List UInt8) : Prop :=
  ((r.map s).find key).isSome ∨ ∀ e, first folded (folded key) (r.pending s) = some e → e.1 = key

/-- Nothing that is still to be parsed has the key. -/
def DelHarmless (r : ParamRequest) (s : Store) (key : List UInt8) : Prop :=
  ∀ e ∈ r.pending s, folded e.1 ≠ folded key

/-- Every key that is still to be parsed is in the map. -/
def AllHarmless (r : ParamRequest) (s : Store) : Prop :=
  ∀ e ∈ r.pending s, ((r.map s).find e.1).isSome

/-- A call that may come now. -/
def Harmless (r : ParamRequest) : ParamCall → Prop
  | .getParam .. | .hasParam _ | .getCookie .. | .hasCookie _ => True
  | .setParam key _ => r.SetHarmless .params key
  | .setCookie key _ => r.SetHarmless .cookies key
  | .delParam key => r.DelHarmless .params key
  | .delCookie key => r.DelHarmless .cookies key
  | .getParams => r.AllHarmless .params
  | .getCookies => r.AllHarmless .cookies

/-- Every call of the sequence may come when it comes. -/
def HarmlessRun : List ParamCall → ParamRequest → Prop
  | [], _ => True
  | c :: cs, r => r.Harmless c ∧ HarmlessRun cs (r.call c).2

section
variable {r e : ParamRequest} {s t : Store} {key val : List UInt8} {m : ParamMap}

theorem flag_bits : ∀ f : UInt8, (f &&& 1 ≠ 0 → f ||| 1 = f) ∧ (f &&& 2 ≠ 0 → f ||| 2 = f) ∧
    (f &&& 4 ≠ 0 → f ||| 4 = f) ∧ (f ||| 1) &&& 1 ≠ 0 ∧ (f ||| 2) &&& 2 ≠ 0 ∧ (f ||| 4) &&& 4 ≠ 0 ∧
    (f ||| 1) &&& 2 = f &&& 2 ∧ (f ||| 2) &&& 1 = f &&& 1 ∧ (f ||| 1 ||| 2) &&& 4 = f &&& 4 ∧
    (f ||| 4) &&& 1 = f &&& 1 ∧ (f ||| 4) &&& 2 = f &&& 2 :=
  Wire.forall_byte (by decide +kernel)

/-- What is still to be parsed depends on the flag and on the members that no accessor changes. -/
theorem pending_congr (h : e.toHttpRequest = r.toHttpRequest) :
    (e.parserParamFlag &&& 1 = r.parserParamFlag &&& 1 → e.queryPending = r.queryPending) ∧
    (e.parserParamFlag &&& 2 = r.parserParamFlag &&& 2 → e.bodyPending = r.bodyPending) ∧
    (e.parserParamFlag &&& 4 = r.parserParamFlag &&& 4 → e.cookiePending = r.cookiePending) := by
  refine ⟨fun hf => ?_, fun hf => ?_, fun hf => ?_⟩
  · rw [queryPending, hf, h]
    rfl
  · rw [bodyPending, isForm, hf, h]
    rfl
  · rw [cookiePending, hf, h]
    rfl

theorem initQueryParam_eq (r : ParamRequest) : r.initQueryParam =
    { r with
      params := r.params.insertAll r.queryPending
      parserParamFlag := r.parserParamFlag ||| 1 } := by
  unfold initQueryParam queryPending
  split_ifs with hf
  · rw [(flag_bits _).1 hf]
    rfl
  · rw [parseParam_eq]

theorem initBodyParam_eq (r : ParamRequest) : r.initBodyParam =
    { r with
      params := r.params.insertAll r.bodyPending
      parserParamFlag := r.parserParamFlag ||| 2 } := by
  unfold initBodyParam bodyPending
  split_ifs with hf hform
  · rw [(flag_bits _).2.1 hf]
    rfl
  · rfl
  · rw [parseParam_eq]

theorem initCookies_eq (r : ParamRequest) : r.initCookies =
    { r with
      cookies := r.cookies.insertAll r.cookiePending
      parserParamFlag := r.parserParamFlag ||| 4 } := by
  unfold initCookies cookiePending
  split_ifs with hf hc
  · rw [(flag_bits _).2.2.1 hf]
    rfl
  · rfl
  · rw [parseParam_eq]

theorem insertAll_append (l₁ l₂ : List (List UInt8 × List UInt8)) :
    m.insertAll (l₁ ++ l₂) = (m.insertAll l₁).insertAll l₂ := List.foldl_append

theorem load_params (r : ParamRequest) : r.load .params =
    { r with
      params := r.params.insertAll (r.pending .params)
      parserParamFlag := r.parserParamFlag ||| 1 ||| 2 } := by
  have hbody : bodyPending { r with
      params := r.params.insertAll r.queryPending
      parserParamFlag := r.parserParamFlag ||| 1 } = r.bodyPending :=
    (pending_congr (by rfl)).2.1 (flag_bits _).2.2.2.2.2.2.1
  rw [load, initQueryParam_eq, initBodyParam_eq, hbody, pending, insertAll_append]

theorem map_load (s : Store) (r : ParamRequest) :
    (r.load s).map s = (r.map s).insertAll (r.pending s) := by
  cases s with
  | params => rw [load_params]; rfl
  | cookies => rw [load, initCookies_eq]; rfl

theorem map_load_of_ne (h : t ≠ s) : (r.load s).map t = r.map t := by
  cases s with
  | params =>
    cases t with
    | params => exact absurd rfl h
    | cookies => rw [load_params]; rfl
  | cookies =>
    cases t with
    | params => rw [load, initCookies_eq]; rfl
    | cookies => exact absurd rfl h

theorem pending_load (s : Store) (r : ParamRequest) : (r.load s).pending s = [] := by
  cases s with
  | params =>
    obtain ⟨-, -, -, h1, h2, -, -, h3, -⟩ := flag_bits (r.parserParamFlag ||| 1)
    have h1' : (r.parserParamFlag ||| 1 ||| 2) &&& 1 ≠ 0 := by
      rw [h3]
      exact (flag_bits _).2.2.2.1
    rw [load_params, pending, queryPending, if_pos h1', bodyPending, if_pos h2]
    rfl
  | cookies =>
    rw [load, initCookies_eq, pending, cookiePending, if_pos (flag_bits _).2.2.2.2.2.1]

theorem pending_load_of_ne (h : t ≠ s) : (r.load s).pending t = r.pending t := by
  cases s with
  | params =>
    cases t with
    | params => exact absurd rfl h
    | cookies =>
      rw [load_params]
      exact (pending_congr (by rfl)).2.2 (flag_bits _).2.2.2.2.2.2.2.2.1
  | cookies =>
    cases t with
    | params =>
      obtain ⟨-, -, -, -, -, -, -, -, -, h1, h2⟩ := flag_bits r.parserParamFlag
      rw [load, initCookies_eq, pending, (pending_congr (by rfl)).1 h1,
        (pending_congr (by rfl)).2.1 h2]
      rfl
    | cookies => exact absurd rfl h

@[simp] theorem map_setMap : (r.setMap s m).map s = m := by cases s <;> rfl

theorem map_setMap_of_ne (h : t ≠ s) : (r.setMap s m).map t = r.map t := by
  cases s <;> cases t <;> first | rfl | exact absurd rfl h

@[simp] theorem pending_setMap : (r.setMap s m).pending t = r.pending t := by
  cases s <;> cases t <;> rfl

/-! ## The late and the early parsing -/

/-- `e` has in its maps what `r` has in its own and still to parse. -/
structure Agree (r e : ParamRequest) : Prop where
  map_eq : ∀ s, e.map s = (r.map s).insertAll (r.pending s)
  parsed : ∀ s, e.pending s = []

theorem pending_initParam (s : Store) (r : ParamRequest) : r.initParam.pending s = [] := by
  have heq : r.initParam = (r.load .params).load .cookies := rfl
  cases s with
  | params => rw [heq, pending_load_of_ne (by decide), pending_load]
  | cookies => rw [heq, pending_load]

theorem map_initParam (s : Store) (r : ParamRequest) :
    r.initParam.map s = (r.map s).insertAll (r.pending s) := by
  have heq : r.initParam = (r.load .params).load .cookies := rfl
  cases s with
  | params => rw [heq, map_load_of_ne (by decide), map_load]
  | cookies => rw [heq, map_load, map_load_of_ne (by decide), pending_load_of_ne (by decide)]

theorem agree_initParam (r : ParamRequest) : Agree r r.initParam :=
  ⟨fun s => map_initParam s r, fun s => pending_initParam s r⟩

namespace Agree

/-- The calls that parse see the same map. -/
theorem map_load_eq (h : Agree r e) : (e.load s).map s = (r.load s).map s := by
  rw [map_load, map_load, h.parsed, h.map_eq]
  rfl

theorem load (h : Agree r e) (s : Store) : Agree (r.load s) (e.load s) := by
  constructor
  · intro t
    by_cases hts : t = s
    · subst hts
      rw [h.map_load_eq, pending_load]
      rfl
    · rw [map_load_of_ne hts, map_load_of_ne hts, pending_load_of_ne hts, h.map_eq]
  · intro t
    by_cases hts : t = s
    · rw [hts, pending_load]
    · rw [pending_load_of_ne hts, h.parsed]

theorem setMap (h : Agree r e) {m' : ParamMap} (hm : m' = m.insertAll (r.pending s)) :
    Agree (r.setMap s m) (e.setMap s m') := by
  constructor
  · intro t
    by_cases hts : t = s
    · subst hts
      rw [map_setMap, map_setMap, pending_setMap, hm]
    · rw [map_setMap_of_ne hts, map_setMap_of_ne hts, pending_setMap, h.map_eq]
  · intro t
    rw [pending_setMap, h.parsed]

theorem set (h : Agree r e) (hs : r.SetHarmless s key) : Agree (r.set s key val) (e.set s key val) :=
  h.setMap (by rw [h.map_eq, set_insertAll _ (hs.imp_left fun hf => by simpa [OrderedMap.find] using hf)])

theorem del (h : Agree r e) (hd : r.DelHarmless s key) : Agree (r.del s key) (e.del s key) :=
  h.setMap (by rw [h.map_eq, erase_insertAll hd])

theorem map_of_all (h : Agree r e) (ha : r.AllHarmless s) : e.map s = r.map s := by
  rw [h.map_eq, insertAll_eq_self_iff]
  exact fun d hd => by simpa [OrderedMap.find] using ha d hd

/-- A call that may come now returns the same, and leaves requests that agree. -/
theorem call (h : Agree r e) {c : ParamCall} (hc : r.Harmless c) :
    (e.call c).1 = (r.call c).1 ∧ Agree (r.call c).2 (e.call c).2 := by
  have hget : ∀ s key default, e.get s key default = ((r.get s key default).1, e.load s) :=
    fun s key default => by rw [get, get, h.map_load_eq]
  have hhas : ∀ s key, e.has s key = ((r.has s key).1, e.load s) :=
    fun s key => by rw [has, has, h.map_load_eq]
  cases c with
  | getParam key default =>
    rw [ParamRequest.call, ParamRequest.call, getParam, hget]
    exact ⟨rfl, h.load .params⟩
  | getCookie key default =>
    rw [ParamRequest.call, ParamRequest.call, getCookie, hget]
    exact ⟨rfl, h.load .cookies⟩
  | hasParam key =>
    rw [ParamRequest.call, ParamRequest.call, hasParam, hhas]
    exact ⟨rfl, h.load .params⟩
  | hasCookie key =>
    rw [ParamRequest.call, ParamRequest.call, hasCookie, hhas]
    exact ⟨rfl, h.load .cookies⟩
  | setParam key val => exact ⟨rfl, h.set hc⟩
  | setCookie key val => exact ⟨rfl, h.set hc⟩
  | delParam key => exact ⟨rfl, h.del hc⟩
  | delCookie key => exact ⟨rfl, h.del hc⟩
  | getParams => exact ⟨congrArg ParamResult.all (h.map_of_all hc), h⟩
  | getCookies => exact ⟨congrArg ParamResult.all (h.map_of_all hc), h⟩

theorem results_eq (h : Agree r e) {calls : List ParamCall} (hc : HarmlessRun calls r) :
    results calls e = results calls r := by
  induction calls generalizing r e with
  | nil => rfl
  | cons c calls ih =>
    obtain ⟨hres, hstep⟩ := h.call hc.1
    rw [results, results, hres, ih hstep hc.2]

end Agree

/-- A sequence of calls, each of which may come when it comes, returns what it returns after the
parsing. -/
theorem results_eq_initParam (r : ParamRequest) (calls : List ParamCall) (h : HarmlessRun calls r) :
    results calls r = results calls r.initParam :=
  ((agree_initParam r).results_eq h).symm

/-- A key that is looked up before it is deleted stays deleted. -/
theorem results_eq_initParam_deleted :
    HarmlessRun [.hasParam (ascii "a"), .delParam (ascii "a"), .hasParam (ascii "a")]
        { query := ascii "a=1" } ∧
      results [.hasParam (ascii "a"), .delParam (ascii "a"), .hasParam (ascii "a")]
          { query := ascii "a=1" } =
        results [.hasParam (ascii "a"), .delParam (ascii "a"), .hasParam (ascii "a")]
          (initParam { query := ascii "a=1" }) := by
  have hrun : HarmlessRun [.hasParam (ascii "a"), .delParam (ascii "a"), .hasParam (ascii "a")]
      { query := ascii "a=1" } := by
    refine ⟨trivial, fun e he => ?_, trivial, trivial⟩
    have he' : e ∈ (load .params { query := ascii "a=1" }).pending .params := he
    rw [pending_load] at he'
    cases he'
  exact ⟨hrun, results_eq_initParam _ _ hrun⟩

/-! ## A call that may not come now is told apart later -/

theorem has_del_late (h : ¬r.DelHarmless s key) : ((r.del s key).has s key).1.isSome := by
  have hmem : ∃ e ∈ r.pending s, folded e.1 = folded key := by
    simpa only [DelHarmless, not_forall, not_not, exists_prop] using h
  obtain ⟨e, he, hview⟩ := hmem
  have hfirst := first_isSome_of_mem (f := folded) he
  rw [has, del, map_load, map_setMap, pending_setMap, OrderedMap.find, entry_insertAll,
    Option.isSome_map, Option.isSome_or, ← hview, hfirst, Bool.or_true]

theorem has_del_early (s : Store) (key : List UInt8) (r : ParamRequest) :
    ((r.initParam.del s key).has s key).1 = none := by
  rw [has, del, map_load, map_setMap, pending_setMap, pending_initParam, OrderedMap.find,
    entry_insertAll, entry_erase, if_pos rfl]
  rfl

/-- The spelling of a new key is the one that came first. -/
theorem map_set_ne (val : List UInt8) (h : ¬r.SetHarmless s key) :
    ((r.set s key val).load s).map s ≠ ((r.initParam.set s key val).load s).map s := by
  rw [SetHarmless, not_or] at h
  obtain ⟨hm, hfirst⟩ := h
  have hnone : (r.map s).entry (folded key) = none := by
    simpa [OrderedMap.find] using hm
  simp only [not_forall, exists_prop] at hfirst
  obtain ⟨e, he, hne⟩ := hfirst
  intro heq
  have hentry := congrArg (entry (folded key)) heq
  rw [set, set, map_load, map_load, map_setMap, map_setMap, pending_setMap, pending_setMap,
    pending_initParam, map_initParam, entry_insertAll, entry_insertAll, entry_set, entry_set,
    entry_insertAll, if_pos rfl, if_pos rfl, hnone, he] at hentry
  simp only [Option.map_none, Option.getD_none, Option.some_or, Option.none_or, Option.map_some,
    Option.getD_some, Option.some.injEq, Prod.mk.injEq] at hentry
  exact hne hentry.1.symm

theorem results_del_ne (h : ¬r.DelHarmless .params key) :
    results [.delParam key, .hasParam key] r ≠
      results [.delParam key, .hasParam key] r.initParam := by
  intro heq
  have hfound := ParamResult.found.inj (List.cons.inj (List.cons.inj heq).2).1
  have hnone : ((r.del .params key).has .params key).1 = none :=
    hfound.trans (has_del_early .params key r)
  have hsome := has_del_late h
  rw [hnone] at hsome
  cases hsome

theorem results_delCookie_ne (h : ¬r.DelHarmless .cookies key) :
    results [.delCookie key, .hasCookie key] r ≠
      results [.delCookie key, .hasCookie key] r.initParam := by
  intro heq
  have hfound := ParamResult.found.inj (List.cons.inj (List.cons.inj heq).2).1
  have hnone : ((r.del .cookies key).has .cookies key).1 = none :=
    hfound.trans (has_del_early .cookies key r)
  have hsome := has_del_late h
  rw [hnone] at hsome
  cases hsome

/-- When a call comes too early, some continuation returns something else. -/
theorem exists_results_ne {c : ParamCall} (h : ¬r.Harmless c) :
    ∃ calls, results (c :: calls) r ≠ results (c :: calls) r.initParam := by
  have hlist : ∀ s, ¬r.AllHarmless s → r.map s ≠ r.initParam.map s := fun s hs heq => by
    refine hs fun e he => ?_
    rw [map_initParam] at heq
    have hsome := insertAll_eq_self_iff.1 heq.symm e he
    simpa [OrderedMap.find] using hsome
  cases c with
  | getParam | getCookie | hasParam | hasCookie => exact absurd trivial h
  | setParam key val =>
    refine ⟨[.hasParam key, .getParams], fun heq => map_set_ne val h ?_⟩
    exact ParamResult.all.inj (List.cons.inj (List.cons.inj (List.cons.inj heq).2).2).1
  | setCookie key val =>
    refine ⟨[.hasCookie key, .getCookies], fun heq => map_set_ne val h ?_⟩
    exact ParamResult.all.inj (List.cons.inj (List.cons.inj (List.cons.inj heq).2).2).1
  | delParam key => exact ⟨_, results_del_ne h⟩
  | delCookie key => exact ⟨_, results_delCookie_ne h⟩
  | getParams =>
    exact ⟨[], fun heq => hlist _ h (ParamResult.all.inj (List.cons.inj heq).1)⟩
  | getCookies =>
    exact ⟨[], fun heq => hlist _ h (ParamResult.all.inj (List.cons.inj heq).1)⟩

/-- A parameter of the query that is deleted first comes back. -/
theorem results_ne_deleted : ¬∀ r calls, results calls r = results calls r.initParam := by
  intro h
  have hpending : ¬DelHarmless { query := ascii "a=1" } .params (ascii "a") := fun hd =>
    hd (ascii "a", ascii "1") (by decide) rfl
  exact results_del_ne hpending (h _ _)

end

end ParamRequest

end CoroutineScheduler.Http
