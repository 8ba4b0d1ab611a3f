import CoroutineScheduler.Uri.Compose

/-!
# Accepted texts

A run that returns has read the text of components: the transition function is followed backwards
from the end of the text. Behind a scheme and `//` these are the components of an authority, a path,
a query and a fragment (`exists_of_returned`).
-/

namespace CoroutineScheduler.Uri

open Http Words

section
variable {s : State} {e : Env} {c : UInt8} {w : List UInt8} {u : Uri}

theorem leaves_of_returned (h : run s e [] = .returned u) : ∃ as, s.leaves = some as := by
  rw [run] at h
  cases hs : s.leaves with
  | none =>
    rw [hs] at h
    cases h
  | some as => exact ⟨as, rfl⟩

theorem next_of_returned (h : run s e (c :: w) = .returned u) :
    ∃ as s' e', s.next c = some (as, s') ∧ run s' e' w = .returned u := by
  rw [run] at h
  cases hs : s.next c with
  | none =>
    rw [hs] at h
    cases h
  | some r =>
    obtain ⟨as, s'⟩ := r
    rw [hs] at h
    cases he : perform (c :: w) as e with
    | none =>
      simp only [he, Option.elim_none] at h
      cases h
    | some e' =>
      simp only [he, Option.elim_some] at h
      exact ⟨as, s', e', rfl, h⟩

theorem tail_eq_some {as : List Action} {s' : State} (h : s.tail c = some (as, s')) :
    s.leaves = some as ∧ (c = 63 ∧ s' = .query true .text ∨ c = 35 ∧ s' = .fragment true .text) := by
  rw [State.tail] at h
  split_ifs at h with hq hf
  · obtain ⟨as', has, heq⟩ := Option.map_eq_some_iff.1 h
    cases heq
    exact ⟨has, Or.inl ⟨hq, rfl⟩⟩
  · obtain ⟨as', has, heq⟩ := Option.map_eq_some_iff.1 h
    cases heq
    exact ⟨has, Or.inr ⟨hf, rfl⟩⟩

/-! ## Queries, fragments and paths -/

variable {k : Pct} {new saved : Bool}

theorem fragment_of_returned (h : run (.fragment new k) e w = .returned u) :
    Pct.run queryChar (some k) w = some .text := by
  induction w generalizing new k e with
  | nil =>
    obtain ⟨as, has⟩ := leaves_of_returned h
    cases k <;> first | rfl | cases has
  | cons c w ih =>
    obtain ⟨as, s', e', hnext, hrun⟩ := next_of_returned h
    obtain ⟨k', hk, heq⟩ := Option.map_eq_some_iff.1 hnext
    cases heq
    rw [Pct.run_cons, Option.bind_some, hk]
    exact ih hrun

theorem query_of_returned (h : run (.query new k) e w = .returned u) :
    ∃ q f, w = q ++ Option.elim f [] (35 :: ·) ∧ Pct.run queryChar (some k) q = some .text ∧
      ∀ x ∈ f, Text queryChar x := by
  induction w generalizing new k e with
  | nil =>
    obtain ⟨as, has⟩ := leaves_of_returned h
    refine ⟨[], none, rfl, ?_, by rintro _ ⟨⟩⟩
    cases k <;> first | rfl | cases has
  | cons c w ih =>
    obtain ⟨as, s', e', hnext, hrun⟩ := next_of_returned h
    rw [State.next] at hnext
    cases hk : Pct.step queryChar k c with
    | some k' =>
      rw [hk] at hnext
      cases hnext
      obtain ⟨q, f, rfl, hq, hf⟩ := ih hrun
      refine ⟨c :: q, f, rfl, ?_, hf⟩
      rw [Pct.run_cons, Option.bind_some, hk, hq]
    | none =>
      rw [hk] at hnext
      obtain ⟨hleaves, ⟨rfl, rfl⟩ | ⟨rfl, rfl⟩⟩ := tail_eq_some hnext
      · cases k with
        | text => cases hk
        | percent => cases hleaves
        | hex => cases hleaves
      · refine ⟨[], some w, rfl, ?_, ?_⟩
        · cases k <;> first | rfl | cases hleaves
        · rintro _ ⟨⟩
          exact (Pct.run_text rfl).1 (fragment_of_returned hrun)

/-- What may stand behind a path. -/
def IsTail (w : List UInt8) : Prop := ∃ q f, w = tailText q f ∧ (∀ x ∈ q, Text queryChar x) ∧
  ∀ x ∈ f, Text queryChar x

theorem isTail_nil : IsTail [] := ⟨none, none, rfl, by rintro _ ⟨⟩, by rintro _ ⟨⟩⟩

/-- Behind a state that leaves to a query or a fragment. -/
theorem isTail_of_returned {as : List Action} {s' : State} (hs : s.tail c = some (as, s'))
    (h : run s' e w = .returned u) : IsTail (c :: w) := by
  obtain ⟨-, ⟨rfl, rfl⟩ | ⟨rfl, rfl⟩⟩ := tail_eq_some hs
  · obtain ⟨q, f, rfl, hq, hf⟩ := query_of_returned h
    refine ⟨some q, f, rfl, ?_, hf⟩
    rintro _ ⟨⟩
    exact (Pct.run_text rfl).1 hq
  · refine ⟨none, some w, rfl, by rintro _ ⟨⟩, ?_⟩
    rintro _ ⟨⟩
    exact (Pct.run_text rfl).1 (fragment_of_returned h)

theorem path_of_returned (h : run (.path saved k) e w = .returned u) :
    ∃ p t, w = p ++ t ∧ Pct.run pathChar (some k) p = some .text ∧ IsTail t := by
  induction w generalizing k e with
  | nil =>
    obtain ⟨as, has⟩ := leaves_of_returned h
    refine ⟨[], [], rfl, ?_, isTail_nil⟩
    cases k <;> first | rfl | cases has
  | cons c w ih =>
    obtain ⟨as, s', e', hnext, hrun⟩ := next_of_returned h
    rw [State.next] at hnext
    cases hk : Pct.step pathChar k c with
    | some k' =>
      rw [hk] at hnext
      cases hnext
      obtain ⟨p, t, rfl, hp, ht⟩ := ih hrun
      refine ⟨c :: p, t, rfl, ?_, ht⟩
      rw [Pct.run_cons, Option.bind_some, hk, hp]
    | none =>
      rw [hk] at hnext
      refine ⟨[], c :: w, rfl, ?_, isTail_of_returned hnext hrun⟩
      have hleaves := (tail_eq_some hnext).1
      cases k <;> first | rfl | cases hleaves

end

/-! ## Authorities -/

section
variable {a : Authority} {saved : Bool} {e : Env} {w x : List UInt8} {u : Uri}

open Authority

/-- A run from an authority on: to a path behind it, or to the end of a `userinfo`. -/
theorem authority_of_returned (h : run (.authority saved a) e w = .returned u) :
    ∃ x r, w = x ++ r ∧
      ((∃ as, (a.read x).leaves = some as) ∧ (∃ p t, r = p ++ t ∧ IsAbempty p ∧ IsTail t) ∨
        (a.read x).user = some .text ∧ ∃ r' e', r = 64 :: r' ∧
          run (.authority saved { first := false, user := none }) e' r' = .returned u) := by
  induction w generalizing a e with
  | nil =>
    obtain ⟨as, has⟩ := leaves_of_returned h
    obtain ⟨as', has', -⟩ := Option.map_eq_some_iff.1 has
    exact ⟨[], [], rfl, Or.inl ⟨⟨as', has'⟩, [], [], rfl, Or.inl rfl, isTail_nil⟩⟩
  | cons c w ih =>
    obtain ⟨as, s', e', hnext, hrun⟩ := next_of_returned h
    rw [State.next] at hnext
    by_cases hpath : c = 47
    · subst hpath
      rw [if_pos rfl] at hnext
      obtain ⟨as', has', heq⟩ := Option.map_eq_some_iff.1 hnext
      cases heq
      obtain ⟨p, t, rfl, hp, ht⟩ := path_of_returned hrun
      refine ⟨[], _, rfl, Or.inl ⟨⟨as', has'⟩, 47 :: p, t, rfl, Or.inr ⟨p, rfl, ?_⟩, ht⟩⟩
      exact (Pct.run_text rfl).1 hp
    rw [if_neg hpath] at hnext
    by_cases htail : c = 63 ∨ c = 35
    · rw [if_pos htail] at hnext
      obtain ⟨as', has', -⟩ := Option.map_eq_some_iff.1 (tail_eq_some hnext).1
      exact ⟨[], _, rfl, Or.inl ⟨⟨as', has'⟩, [], _, rfl, Or.inl rfl,
        isTail_of_returned hnext hrun⟩⟩
    rw [if_neg htail] at hnext
    by_cases hat : c = 64
    · subst hat
      rw [Authority.step, if_pos rfl] at hnext
      by_cases huser : a.user = some .text
      · rw [if_pos huser] at hnext
        cases hnext
        exact ⟨[], _, rfl, Or.inr ⟨huser, w, e', rfl, hrun⟩⟩
      · rw [if_neg huser] at hnext
        cases hnext
    · rw [step_of_ne hat] at hnext
      cases hnext
      obtain ⟨x, r, rfl, hx⟩ := ih hrun
      exact ⟨c :: x, r, rfl, hx⟩

/-- The readings that may end: a host, and a port behind it. -/
theorem Authority.Fresh.of_leaves (ha : Fresh a) {as : List Action}
    (h : (a.read x).leaves = some as) : ∃ h port, x = h ++ Option.elim port [] (58 :: ·) ∧
      IsHost h ∧ ∀ ds ∈ port, ∀ d ∈ ds, digit d = true := by
  by_cases hhost : (a.read x).isHost = true
  · exact ⟨x, none, (List.append_nil x).symm, ha.isHost_read.1 hhost, by rintro _ ⟨⟩⟩
  · rw [Authority.leaves, if_neg hhost] at h
    obtain ⟨b, hb, -⟩ := Option.map_eq_some_iff.1 h
    obtain ⟨host, ds, rfl, hh, hds, -⟩ := ha.port_read.1 hb
    refine ⟨host, some ds, rfl, hh, ?_⟩
    rintro _ ⟨⟩
    exact hds

/-- What a run from the start of an authority on has read, if it returns. -/
theorem exists_of_returned (h : run (.authority saved {}) e w = .returned u) :
    ∃ A : AuthorityParts, ∃ p t, w = A.text ++ (p ++ t) ∧ IsAbempty p ∧ IsTail t := by
  obtain ⟨x, r, rfl, ⟨⟨as, has⟩, p, t, rfl, hp, ht⟩ | ⟨huser, r, e', rfl, hrun⟩⟩ :=
    authority_of_returned h
  · obtain ⟨host, port, rfl, hh, hport⟩ := fresh_default.of_leaves has
    exact ⟨⟨none, host, port, by rintro _ ⟨⟩, hh, hport⟩, p, t, rfl, hp, ht⟩
  · rw [user_read] at huser
    have hx : Text userChar x := (Pct.run_text rfl).1 huser
    obtain ⟨y, r, rfl, ⟨⟨as, has⟩, p, t, rfl, hp, ht⟩ | ⟨hnone, -⟩⟩ := authority_of_returned hrun
    · have hfresh : Fresh { first := false, user := none } := ⟨rfl, rfl, rfl, rfl⟩
      obtain ⟨host, port, rfl, hh, hport⟩ := hfresh.of_leaves has
      refine ⟨⟨some x, host, port, ?_, hh, hport⟩, p, t, ?_, hp, ht⟩
      · rintro _ ⟨⟩
        exact hx
      · simp [AuthorityParts.text]
    · rw [user_read, Pct.run_none] at hnone
      cases hnone

/-- A text with a scheme and `//` behind it that `Uri::Create` accepts is composed. -/
theorem Parts.exists_compose {s r : List UInt8} (hs : IsScheme s)
    (h : create (s ++ 58 :: 47 :: 47 :: r) = .returned u) :
    ∃ p : Parts, ∃ A, p.compose = s ++ 58 :: 47 :: 47 :: r ∧ p.scheme = some s ∧
      p.authority = some A := by
  have hrun : run (.authority true {}) ⟨{ scheme := s }, none⟩ r = .returned u :=
    (run_scheme hs {} _).symm.trans h
  obtain ⟨A, p, t, rfl, hp, q, f, rfl, hq, hf⟩ := exists_of_returned hrun
  refine ⟨⟨some s, some A, p, q, f, ?_, hp, hq, hf⟩, A, ?_, rfl, rfl⟩
  · rintro _ ⟨⟩
    exact hs
  · simp [Parts.compose]

end

end CoroutineScheduler.Uri
