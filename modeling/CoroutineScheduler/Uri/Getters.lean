import CoroutineScheduler.Uri.Compose

/-!
# The getters

`Extracted` says that the getters of the object for a composed text return the components. They do if
no digit follows the first colon of the `userinfo` directly, and the path is behind a scheme and an
authority or is the one that `getPath` returns anyway (`extracted_iff`).
-/

namespace CoroutineScheduler.Uri

open Http Words

/-- A digit follows the first colon directly. -/
def ColonDigit (u : List UInt8) : Prop :=
  ∃ x d w, u = x ++ 58 :: d :: w ∧ 58 ∉ x ∧ digit d = true

theorem storedUserinfo_eq_iff {u : List UInt8} : storedUserinfo u = u ↔ ¬ ColonDigit u := by
  constructor
  · rintro hu ⟨x, d, w, rfl, hx, hd⟩
    rw [storedUserinfo_colon hx, if_pos (by simpa using hd)] at hu
    have hlen := congrArg List.length hu
    simp only [List.length_append, List.length_cons] at hlen
    omega
  · intro h
    by_cases hu : 58 ∈ u
    · obtain ⟨x, v, rfl, hx⟩ := List.eq_append_cons_of_mem hu
      rw [storedUserinfo_colon hx, if_neg]
      intro hv
      cases v with
      | nil => cases hv
      | cons d w => exact h ⟨x, d, w, rfl, hx, hv⟩
    · exact storedUserinfo_of_not_mem hu

/-- The default port of a scheme. -/
def defaultPort (scheme : List UInt8) : ℤ :=
  if scheme = ascii "http" ∨ scheme = ascii "ws" then 80
  else if scheme = ascii "https" ∨ scheme = ascii "wss" then 443
  else 0

theorem getPort_eq (u : Uri) : u.getPort = if u.port = 0 then defaultPort u.scheme else u.port := by
  by_cases hport : u.port = 0
  · rw [getPort, if_neg (not_not.2 hport), if_pos hport, defaultPort, hport]
  · rw [getPort, if_pos hport, if_neg hport]

theorem portValue_eq {ds : List UInt8} (h : digitsValue 10 ds < 2 ^ 31) :
    portValue ds = digitsValue 10 ds := by
  rw [portValue, min_eq_right (by omega)]
  exact Int.bmod_eq_of_le (by norm_num) (by norm_num; omega)

namespace Parts

/-- The getters return the components: the path `/` for an empty one, and the default port of the
scheme for a port that is absent or 0. -/
def Extracted (p : Parts) : Prop := ∃ u, create p.compose = .returned u ∧
  u.scheme = p.scheme.getD [] ∧ u.userinfo = p.userinfo.getD [] ∧ u.host = p.host.getD [] ∧
  u.getPort = (let n := p.port.elim 0 (digitsValue 10)
    if n = 0 then defaultPort (p.scheme.getD []) else n) ∧
  u.getPath = (if p.path = [] then ascii "/" else p.path) ∧
  u.query = p.query.getD [] ∧ u.fragment = p.fragment.getD []

theorem stored_userinfo_iff (p : Parts) :
    p.stored.userinfo = p.userinfo.getD [] ↔ ∀ u ∈ p.userinfo, ¬ ColonDigit u := by
  rw [stored]
  cases p.userinfo with
  | none => simp
  | some u => simp [storedUserinfo_eq_iff]

theorem stored_getPort (p : Parts) (hport : ∀ ds ∈ p.port, digitsValue 10 ds ≤ 65535) :
    p.stored.getPort = (let n := p.port.elim 0 (digitsValue 10)
      if n = 0 then defaultPort (p.scheme.getD []) else n) := by
  rw [getPort_eq, stored]
  cases hds : p.port with
  | none => rfl
  | some ds =>
    have hle := hport ds hds
    have hvalue : portValue ds = digitsValue 10 ds := portValue_eq (by omega)
    simp only [Option.elim_some, hvalue, Nat.cast_eq_zero]
    rfl

theorem stored_getPath_iff (p : Parts) :
    p.stored.getPath = (if p.path = [] then ascii "/" else p.path) ↔
      (p.scheme.isSome ∧ p.authority.isSome ∨ p.path = [] ∨ p.path = ascii "/") := by
  rw [getPath, stored]
  by_cases hsaved : p.scheme.isSome ∧ p.authority.isSome
  · simp [hsaved]
  · by_cases hpath : p.path = []
    · simp [hpath]
    · simp only [hsaved, hpath, false_or]
      exact eq_comm

theorem extracted_iff (p : Parts)
    (hport : ∀ ds ∈ p.port, ds ≠ [] ∧ digitsValue 10 ds ≤ 65535) :
    p.Extracted ↔ (∀ u ∈ p.userinfo, ¬ ColonDigit u) ∧
      (p.scheme.isSome ∧ p.authority.isSome ∨ p.path = [] ∨ p.path = ascii "/") := by
  have hcreate := p.create_compose fun h => (hport [] h).1 rfl
  have hgetPort := p.stored_getPort fun ds hds => (hport ds hds).2
  rw [← stored_userinfo_iff, ← stored_getPath_iff]
  constructor
  · rintro ⟨u, hu, -, huser, -, -, hpath, -, -⟩
    rw [hcreate] at hu
    cases hu
    exact ⟨huser, hpath⟩
  · rintro ⟨huser, hpath⟩
    exact ⟨p.stored, hcreate, rfl, huser, rfl, hgetPort, hpath, rfl, rfl⟩

/-- `http://bin@h:8080/a?b`. -/
def sample : Parts where
  scheme := ascii "http"
  authority := some
    { userinfo := ascii "bin"
      host := ascii "h"
      port := ascii "8080"
      userinfo_text := by
        rintro _ ⟨⟩
        exact (Pct.run_text rfl).1 rfl
      host_isHost := Or.inl ((Pct.run_text rfl).1 rfl)
      port_digits := by
        rintro _ ⟨⟩
        exact List.all_eq_true.1 (by decide) }
  path := ascii "/a"
  query := ascii "b"
  scheme_isScheme := by
    rintro _ ⟨⟩
    exact ⟨rfl, List.all_eq_true.1 (by decide)⟩
  path_isPath := Or.inr ⟨ascii "a", rfl, (Pct.run_text rfl).1 rfl⟩
  query_text := by
    rintro _ ⟨⟩
    exact (Pct.run_text rfl).1 rfl
  fragment_text := by rintro _ ⟨⟩

theorem extracted_sample : sample.compose = ascii "http://bin@h:8080/a?b" ∧ sample.Extracted := by
  have hport : ∀ ds ∈ sample.port, ds ≠ [] ∧ digitsValue 10 ds ≤ 65535 := by
    rintro _ ⟨⟩
    decide
  have huser : ∀ u ∈ sample.userinfo, ¬ ColonDigit u := by
    rintro _ ⟨⟩
    exact storedUserinfo_eq_iff.1 (by decide)
  exact ⟨by decide, (extracted_iff sample hport).2 ⟨huser, Or.inl ⟨rfl, rfl⟩⟩⟩

/-- `http://user:123@h/`. -/
def password : Parts where
  scheme := ascii "http"
  authority := some
    { userinfo := ascii "user:123"
      host := ascii "h"
      userinfo_text := by
        rintro _ ⟨⟩
        exact (Pct.run_text rfl).1 rfl
      host_isHost := Or.inl ((Pct.run_text rfl).1 rfl)
      port_digits := by rintro _ ⟨⟩ }
  path := ascii "/"
  scheme_isScheme := by
    rintro _ ⟨⟩
    exact ⟨rfl, List.all_eq_true.1 (by decide)⟩
  path_isPath := Or.inr ⟨[], rfl, .nil⟩
  query_text := by rintro _ ⟨⟩
  fragment_text := by rintro _ ⟨⟩

/-- `mailto:abc`. -/
def mailbox : Parts where
  scheme := ascii "mailto"
  authority := none
  path := ascii "abc"
  scheme_isScheme := by
    rintro _ ⟨⟩
    exact ⟨rfl, List.all_eq_true.1 (by decide)⟩
  path_isPath := Or.inr (Or.inr ⟨by decide, (Pct.run_text rfl).1 rfl, by decide⟩)
  query_text := by rintro _ ⟨⟩
  fragment_text := by rintro _ ⟨⟩

theorem not_extracted : password.compose = ascii "http://user:123@h/" ∧ ¬ password.Extracted ∧
    mailbox.compose = ascii "mailto:abc" ∧ ¬ mailbox.Extracted := by
  have huser : create (ascii "http://user:123@h/") = .returned
      { scheme := ascii "http", userinfo := ascii "123", host := ascii "h", path := ascii "/" } := by
    decide +kernel
  have hmail : create (ascii "mailto:abc") = .returned { scheme := ascii "mailto" } := by
    decide +kernel
  have hpassword : password.compose = ascii "http://user:123@h/" := by decide
  have hmailbox : mailbox.compose = ascii "mailto:abc" := by decide
  refine ⟨hpassword, ?_, hmailbox, ?_⟩
  · rintro ⟨u, hu, -, hcut, -⟩
    rw [hpassword, huser] at hu
    cases hu
    revert hcut
    decide
  · rintro ⟨u, hu, -, -, -, -, hpath, -⟩
    rw [hmailbox, hmail] at hu
    cases hu
    revert hpath
    decide

end Parts

end CoroutineScheduler.Uri
