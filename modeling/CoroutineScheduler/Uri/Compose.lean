import CoroutineScheduler.Uri.Authority

/-!
# Composed URIs

`Parts` are the components of a URI reference, with the grammar that `uri.rl` has for each of them,
and `compose` writes them one behind the other. `create_compose` is what `Uri::Create` makes of the
text: every component is saved, apart from the front of some `userinfo`s and from the path behind
anything but a scheme and an authority.
-/

namespace CoroutineScheduler.Uri

open Http Words
open Wire (forall_byte)

/-! ## Numbers -/

/-- The number in a field `port`, as an `int`. -/
def portValue (ds : List UInt8) : ℤ := longToInt (min (2 ^ 63 - 1) (digitsValue 10 ds))

theorem digit_iff : ∀ c, digit c = decide (digitValue c < 10) := forall_byte (by decide +kernel)

theorem digit_front : ∀ c, digit c = true → isspace c = false ∧ c ≠ 45 ∧ c ≠ 43 :=
  forall_byte (by decide +kernel)

theorem plain_of_digit : ∀ c, digit c = true → plain c = true := fun _ =>
  plain_of_class (by decide)

/-- `atoi` reads the digits it points to. -/
theorem atoi_digits {ds r : List UInt8} (hne : ds ≠ []) (hds : ∀ d ∈ ds, digit d = true)
    (hr : ∀ c ∈ r.head?, digit c = false) : atoi (ds ++ r) = portValue ds := by
  have hvalue : digitsValue 10 (ds ++ r) = digitsValue 10 ds := by
    have hall : ∀ d ∈ ds, decide (digitValue d < 10) = true := fun d hd => digit_iff d ▸ hds d hd
    have hstop : r.takeWhile (fun b => decide (digitValue b < 10)) = [] := by
      cases r with
      | nil => rfl
      | cons c r =>
        have hc := hr c rfl
        rw [digit_iff] at hc
        rw [List.takeWhile_cons, hc]
        rfl
    rw [digitsValue, digitsValue, List.takeWhile_append_of_pos hall, hstop, List.append_nil,
      List.takeWhile_eq_self_iff.2 hall]
  obtain ⟨d, ds, rfl⟩ := List.exists_cons_of_ne_nil hne
  obtain ⟨hspace, hminus, hplus⟩ := digit_front d (hds d List.mem_cons_self)
  have hdrop : (d :: ds ++ r).dropWhile isspace = d :: ds ++ r := by
    rw [List.cons_append, List.dropWhile_cons, hspace]
    rfl
  have hhead : (d :: ds ++ r).head? = some d := rfl
  have hhex : ∀ t, stripHex 10 t = t := fun t => if_neg (by rintro ⟨h, -⟩; cases h)
  rw [atoi, portValue, strtol]
  simp only [hdrop, hhead, Option.some.injEq, hminus, hplus, if_false, hhex, hvalue]

/-! ## Behind an authority -/

section
variable {a : Authority} {saved : Bool} {e : Env} {h ds r p : List UInt8} {u : Uri}
  {query fragment : Option (List UInt8)}

open Authority

theorem Authority.Fresh.leaves_host (ha : Fresh a) (hh : IsHost h) :
    (a.read h).leaves = some ((if h = [] then [.mark] else []) ++ [.saveHost]) := by
  rw [Authority.leaves, if_pos (ha.isHost_read.2 hh)]
  cases h with
  | nil =>
    rw [show (a.read []).new = true from ha.new]
    simp
  | cons c h =>
    rw [first_read (List.cons_ne_nil c h), new_read (List.cons_ne_nil c h)]
    rfl

theorem Authority.Fresh.leaves_port (ha : Fresh a) (hh : IsHost h)
    (hds : ∀ d ∈ ds, digit d = true) : (a.read (h ++ 58 :: ds)).leaves =
      some ((if ds = [] then [.mark] else []) ++ [.savePort]) := by
  have hport := ha.port_read.2 ⟨h, ds, rfl, hh, hds, rfl⟩
  rw [Authority.leaves, if_neg fun hh' => (ha.isHost_read.1 hh').not_front hh, hport]
  cases ds with
  | nil => rfl
  | cons d ds => rfl

/-- A host, a colon and a port: `mark` points to the port, if there is a digit. -/
theorem run_hostPort (ha : Fresh a) (hh : IsHost h) (hds : ∀ d ∈ ds, digit d = true) :
    run (.authority saved a) e (h ++ 58 :: (ds ++ r)) =
      run (.authority saved (a.read (h ++ 58 :: ds)))
        ⟨{ e.uri with host := h }, some (if ds = [] then h ++ 58 :: r else ds ++ r)⟩ r := by
  rw [run_hostColon ha hh]
  cases ds with
  | nil => rfl
  | cons d ds =>
    obtain ⟨hd, hds'⟩ := List.forall_mem_cons.1 hds
    have hport : ∀ x, (∀ c ∈ x, digit c = true) →
        (a.read (h ++ 58 :: x)).port = some (!x.isEmpty) := fun x hx =>
      ha.port_read.2 ⟨h, x, rfl, hh, hx, rfl⟩
    have hcolon : ∀ c, digit c = true → c ≠ 58 := by
      rintro c hc rfl
      cases hc
    have hacts : (a.read (h ++ [58])).acts d = [.mark] := by
      rw [acts_read (by simp), hport [] (List.forall_mem_nil _), if_neg fun h => hcolon d hd h.1,
        if_pos ⟨hd, rfl⟩]
      rfl
    have hread : ∀ x, ((a.read (h ++ [58])).advance d).read x = a.read (h ++ 58 :: d :: x) := by
      intro x
      rw [← read_concat, ← read_append]
      simp
    rw [List.cons_append, run_plain (plain_of_digit d hd), hacts]
    simp only [perform_one, act, Option.elim_some, List.cons_ne_nil, if_false]
    rw [run_quiet (fun c hc => plain_of_digit c (hds' c hc)), hread]
    rintro x c z rfl
    obtain ⟨hx, hc⟩ := List.forall_mem_append.1 hds'
    rw [hread, acts_read (by simp), hport (d :: x) (List.forall_mem_cons.2 ⟨hd, hx⟩),
      if_neg fun h => hcolon c (hc c List.mem_cons_self) h.1, if_neg (by simp)]
    rfl

/-- The actions of an authority at its end, with those of the path behind it, store `u`. -/
structure Leaving (r : Ptr) (as : List Action) (e : Env) (u : Uri) : Prop where
  stays : ∃ m, perform r as e = some ⟨u, m⟩
  slash : perform r (as ++ [.mark]) e = some ⟨u, some r⟩
  empty : perform r (as ++ [.mark, .savePath]) e = some ⟨{ u with path := [] }, none⟩

theorem leaving_host (he : h ≠ [] → e.mark = some (h ++ r)) :
    Leaving r ((if h = [] then [.mark] else []) ++ [.saveHost]) e { e.uri with host := h } := by
  by_cases hh : h = []
  · subst hh
    rw [if_pos rfl, List.singleton_append]
    refine ⟨⟨some r, ?_⟩, ?_, ?_⟩
    · rw [perform_eq [.mark, .saveHost] rfl]
      simp [act]
    · rw [perform_eq [.mark, .saveHost] rfl]
      simp [act]
    · rw [perform_eq [.mark, .saveHost, .savePath] rfl]
      simp [act]
  · rw [if_neg hh, List.nil_append]
    refine ⟨⟨some (h ++ r), ?_⟩, ?_, ?_⟩
    · simp [act, he hh]
    · rw [perform_eq [.saveHost, .mark] rfl]
      simp [act, he hh]
    · rw [perform_eq [.saveHost, .mark, .savePath] rfl]
      simp [act, he hh]

theorem leaving_port (hne : ds ≠ []) (hds : ∀ d ∈ ds, digit d = true)
    (hr : ∀ c ∈ r.head?, digit c = false) :
    Leaving r [.savePort] ⟨u, some (ds ++ r)⟩ { u with port := portValue ds } := by
  have hne' : r ≠ ds ++ r := by
    intro h
    exact hne (List.self_eq_append_left.1 h)
  have hact : act r ⟨u, some (ds ++ r)⟩ .savePort = some ⟨{ u with port := portValue ds }, none⟩ := by
    rw [act, Option.map_some, if_pos hne', atoi_digits hne hds hr]
  refine ⟨⟨none, ?_⟩, ?_, ?_⟩
  · rw [perform_one, hact]
  · rw [perform_eq [.savePort, .mark] rfl, List.foldlM_cons, hact]
    rfl
  · rw [perform_eq [.savePort, .mark, .savePath] rfl, List.foldlM_cons, hact]
    simp [act]

theorem run_leaving {as : List Action} (has : a.leaves = some as)
    (L : Leaving (p ++ tailText query fragment) as e u) (hp : IsAbempty p)
    (hq : ∀ q ∈ query, Text queryChar q) (hf : ∀ f ∈ fragment, Text queryChar f) :
    run (.authority saved a) e (p ++ tailText query fragment) = .returned { u with
      path := if saved then p else u.path
      query := query.getD u.query
      fragment := fragment.getD u.fragment } := by
  have hnext : ∀ c, c = 63 ∨ c = 35 →
      (State.authority saved a).next c = (State.authority saved a).tail c := by
    rintro c (rfl | rfl)
    · rfl
    · rfl
  obtain ⟨m, hstays⟩ := L.stays
  obtain rfl | ⟨v, rfl, hv⟩ := hp
  · rw [List.nil_append] at hstays ⊢
    cases saved with
    | false =>
      have hleaves : (State.authority false a).leaves = some as := by
        rw [State.leaves, has]
        simp
      exact run_tail hleaves hnext hq hf hstays
    | true =>
      have hleaves : (State.authority true a).leaves = some (as ++ [.mark, .savePath]) := by
        rw [State.leaves, has]
        rfl
      exact run_tail hleaves hnext hq hf L.empty
  · have hrun := (Pct.run_text (by decide)).2 hv
    rw [List.cons_append, run, State.next, if_pos rfl, has, Option.map_some]
    cases saved with
    | false =>
      simp only [Bool.false_eq_true, if_false, List.append_nil]
      rw [← List.cons_append, hstays]
      exact run_path_end hrun hq hf _
    | true =>
      simp only [if_true]
      rw [← List.cons_append, L.slash, Option.elim_some, run_path_text true hrun]
      have hsave : perform (tailText query fragment) [.savePath]
          ⟨u, some (47 :: v ++ tailText query fragment)⟩ = some ⟨{ u with path := 47 :: v }, none⟩ := by
        simp only [perform_one, act, Option.map_some, between_append]
      exact run_tail rfl (fun c => tail_path true) hq hf hsave

/-- Behind a port without digits `mark` is `NULL` where the path is saved. -/
theorem run_leaving_threw (has : a.leaves = some [.mark, .savePort]) (hp : IsAbempty p) :
    run (.authority true a) e (p ++ tailText query fragment) = .threw := by
  have hport : ∀ r, perform r [.mark, .savePort, .mark] e = some ⟨e.uri, none⟩ := by
    intro r
    rw [perform_eq [.mark, .savePort] rfl]
    simp [act]
  obtain rfl | ⟨v, rfl, hv⟩ := hp
  · have hnext : ∀ c, c = 63 ∨ c = 35 →
        (State.authority true a).next c = (State.authority true a).tail c := by
      rintro c (rfl | rfl)
      · rfl
      · rfl
    have hleaves : (State.authority true a).leaves =
        some [.mark, .savePort, .mark, .savePath] := by
      rw [State.leaves, has]
      rfl
    refine run_tail_threw hleaves hnext ?_
    rw [perform_eq [.mark, .savePort, .savePath] rfl]
    simp [act]
  · rw [List.cons_append, run, State.next, if_pos rfl, has, Option.map_some]
    simp only [if_true, List.cons_append, List.nil_append, hport, Option.elim_some]
    rw [run_path_text true ((Pct.run_text (by decide)).2 hv)]
    exact run_tail_threw rfl (fun c => tail_path true) rfl

end

/-! ## Authorities -/

/-- `[ userinfo "@" ] host [ ":" port ]`. -/
structure AuthorityParts where
  userinfo : Option (List UInt8) := none
  host : List UInt8
  port : Option (List UInt8) := none
  userinfo_text : ∀ u ∈ userinfo, Text userChar u
  host_isHost : IsHost host
  port_digits : ∀ ds ∈ port, ∀ d ∈ ds, digit d = true

def AuthorityParts.text (A : AuthorityParts) : List UInt8 :=
  A.userinfo.elim [] (· ++ [64]) ++ (A.host ++ A.port.elim [] (58 :: ·))

section
variable {a : Authority} {saved : Bool} {e : Env} {p : List UInt8} {query fragment : Option (List UInt8)}

open Authority

theorem head_not_digit (hp : IsAbempty p) :
    ∀ c ∈ (p ++ tailText query fragment).head?, digit c = false := by
  intro c hc
  obtain rfl | ⟨v, rfl, -⟩ := hp
  · cases query with
    | some q =>
      cases hc
      rfl
    | none =>
      cases fragment with
      | some f =>
        cases hc
        rfl
      | none => cases hc
  · cases hc
    rfl

/-- A host and a port, with a path behind it. -/
theorem run_hostAndPort (A : AuthorityParts) (ha : Fresh a) (hport : A.port ≠ some [])
    (hp : IsAbempty p) (hq : ∀ q ∈ query, Text queryChar q)
    (hf : ∀ f ∈ fragment, Text queryChar f) :
    run (.authority saved a) e
        (A.host ++ A.port.elim [] (58 :: ·) ++ (p ++ tailText query fragment)) =
      .returned { e.uri with
        host := A.host
        port := A.port.elim e.uri.port portValue
        path := if saved then p else e.uri.path
        query := query.getD e.uri.query
        fragment := fragment.getD e.uri.fragment } := by
  obtain ⟨_, host, port, _, hhost, hds⟩ := A
  cases port with
  | none =>
    simp only [Option.elim_none, List.append_nil]
    cases host with
    | nil => exact run_leaving (ha.leaves_host hhost) (leaving_host fun h => absurd rfl h) hp hq hf
    | cons c h =>
      rw [run_host ha hhost]
      exact run_leaving (ha.leaves_host hhost) (leaving_host fun _ => rfl) hp hq hf
  | some ds =>
    have hne : ds ≠ [] := fun h => hport (congrArg some h)
    simp only [Option.elim_some]
    rw [List.append_assoc, List.cons_append, run_hostPort ha hhost (hds ds rfl), if_neg hne]
    have hleaves := ha.leaves_port hhost (hds ds rfl)
    rw [if_neg hne] at hleaves
    exact run_leaving hleaves (leaving_port hne (hds ds rfl) (head_not_digit hp)) hp hq hf

/-- A host and a port without digits behind a scheme. -/
theorem run_hostAndPort_threw (A : AuthorityParts) (ha : Fresh a) (hport : A.port = some [])
    (hp : IsAbempty p) : run (.authority true a) e
        (A.host ++ A.port.elim [] (58 :: ·) ++ (p ++ tailText query fragment)) = .threw := by
  have hleaves : (a.read (A.host ++ [58])).leaves = some [.mark, .savePort] :=
    ha.leaves_port A.host_isHost (List.forall_mem_nil _)
  rw [hport, Option.elim_some, List.append_assoc, List.cons_append,
    run_hostPort ha A.host_isHost (List.forall_mem_nil _)]
  exact run_leaving_threw hleaves hp

/-- An authority, with a path behind it. -/
theorem run_authority (A : AuthorityParts) (hport : A.port ≠ some []) (hp : IsAbempty p)
    (hq : ∀ q ∈ query, Text queryChar q) (hf : ∀ f ∈ fragment, Text queryChar f) :
    run (.authority saved {}) e (A.text ++ (p ++ tailText query fragment)) =
      .returned { e.uri with
        userinfo := A.userinfo.elim e.uri.userinfo storedUserinfo
        host := A.host
        port := A.port.elim e.uri.port portValue
        path := if saved then p else e.uri.path
        query := query.getD e.uri.query
        fragment := fragment.getD e.uri.fragment } := by
  cases hu : A.userinfo with
  | none =>
    rw [AuthorityParts.text, hu]
    exact run_hostAndPort A fresh_default hport hp hq hf
  | some u =>
    obtain ⟨host, hrun⟩ := run_userinfo (A.userinfo_text u hu)
    rw [AuthorityParts.text, hu, Option.elim_some, List.append_assoc, List.append_assoc,
      List.singleton_append, hrun]
    exact run_hostAndPort A ⟨rfl, rfl, rfl, rfl⟩ hport hp hq hf

/-- An authority with a port without digits behind a scheme. -/
theorem run_authority_threw (A : AuthorityParts) (hport : A.port = some []) (hp : IsAbempty p) :
    run (.authority true {}) e (A.text ++ (p ++ tailText query fragment)) = .threw := by
  cases hu : A.userinfo with
  | none =>
    rw [AuthorityParts.text, hu]
    exact run_hostAndPort_threw A fresh_default hport hp
  | some u =>
    obtain ⟨host, hrun⟩ := run_userinfo (A.userinfo_text u hu)
    rw [AuthorityParts.text, hu, Option.elim_some, List.append_assoc, List.append_assoc,
      List.singleton_append, hrun]
    exact run_hostAndPort_threw A ⟨rfl, rfl, rfl, rfl⟩ hport hp

end

/-! ## URI references -/

/-- The paths of the grammar, by what stands in front of them. -/
def IsPath (scheme authority : Bool) (w : List UInt8) : Prop :=
  if authority then IsAbempty w
  else w = [] ∨ IsAbsolute w ∨ if scheme then IsRootless w else IsNoscheme w

/-- The components of a URI reference, `none` for one that is absent. -/
structure Parts where
  scheme : Option (List UInt8) := none
  authority : Option AuthorityParts := none
  path : List UInt8 := []
  query : Option (List UInt8) := none
  fragment : Option (List UInt8) := none
  scheme_isScheme : ∀ s ∈ scheme, IsScheme s
  path_isPath : IsPath scheme.isSome authority.isSome path
  query_text : ∀ q ∈ query, Text queryChar q
  fragment_text : ∀ f ∈ fragment, Text queryChar f

namespace Parts

def userinfo (p : Parts) : Option (List UInt8) := p.authority.bind AuthorityParts.userinfo

def host (p : Parts) : Option (List UInt8) := p.authority.map AuthorityParts.host

def port (p : Parts) : Option (List UInt8) := p.authority.bind AuthorityParts.port

/-- The text of a URI reference. -/
def compose (p : Parts) : List UInt8 :=
  p.scheme.elim [] (· ++ [58]) ++ (p.authority.elim [] (47 :: 47 :: ·.text) ++
    (p.path ++ tailText p.query p.fragment))

/-- What `Uri::Create` makes of the text. -/
def stored (p : Parts) : Uri where
  scheme := p.scheme.getD []
  userinfo := p.userinfo.elim [] storedUserinfo
  host := p.host.getD []
  path := if p.scheme.isSome ∧ p.authority.isSome then p.path else []
  query := p.query.getD []
  fragment := p.fragment.getD []
  port := p.port.elim 0 portValue

theorem create_compose (p : Parts) (hport : p.port ≠ some []) :
    create p.compose = .returned p.stored := by
  obtain ⟨scheme, authority, path, query, fragment, hs, hp, hq, hf⟩ := p
  cases scheme with
  | none =>
    cases authority with
    | none => exact run_relative hp hq hf {}
    | some A => exact run_authority A hport hp hq hf
  | some s =>
    have hrun : ∀ r, create (s ++ [58] ++ r) = run .colon ⟨{ scheme := s }, none⟩ r := by
      intro r
      rw [List.append_assoc, List.singleton_append]
      exact run_scheme (hs s rfl) {} r
    cases authority with
    | none => exact (hrun _).trans (run_colon hp hq hf _)
    | some A => exact (hrun _).trans (run_authority A hport hp hq hf)

/-- A port without digits behind a scheme makes `save_path` read a `mark` that is `NULL`. -/
theorem create_compose_threw (p : Parts) (hs : p.scheme.isSome) (hport : p.port = some []) :
    create p.compose = .threw := by
  obtain ⟨scheme, authority, path, query, fragment, hscheme, hp, _, _⟩ := p
  cases scheme with
  | none => cases hs
  | some s =>
    cases authority with
    | none => cases hport
    | some A =>
      have hrun := run_scheme (hscheme s rfl) {}
        (47 :: 47 :: (A.text ++ (path ++ tailText query fragment)))
      rw [compose, Option.elim_some, List.append_assoc, List.singleton_append]
      exact hrun.trans (run_authority_threw A hport hp)

end Parts

end CoroutineScheduler.Uri
