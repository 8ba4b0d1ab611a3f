import Mathlib.Data.Nat.Digits.Lemmas
import CoroutineScheduler.Uri.Accepted
import CoroutineScheduler.Uri.Getters

/-!
# Printing and parsing

`toString` prints the components of an object again, so what it prints is composed as well
(`exists_printed`), unless the port is negative: `atoi` makes such ports of numbers that do not fit
into an `int`, and the machine takes no sign. The `userinfo` is cut once more.
-/

namespace CoroutineScheduler.Uri

open Http Words

/-! ## Numbers -/

/-- The `int` that `atoi` makes of the number is not negative. -/
def FitsInt (ds : List UInt8) : Prop :=
  digitsValue 10 ds < 2 ^ 63 ∧ digitsValue 10 ds % 2 ^ 32 < 2 ^ 31

instance (ds : List UInt8) : Decidable (FitsInt ds) := inferInstanceAs (Decidable (_ ∧ _))

theorem portValue_nonneg_iff {ds : List UInt8} : 0 ≤ portValue ds ↔ FitsInt ds := by
  rw [portValue, longToInt, FitsInt]
  generalize digitsValue 10 ds = n
  rw [Int.bmod_def]
  norm_num
  split_ifs with h
  · omega
  · omega

theorem portValue_lt (ds : List UInt8) : portValue ds < 2 ^ 31 := by
  have h := @Int.bmod_lt (min (2 ^ 63 - 1) (digitsValue 10 ds)) (2 ^ 32) (by norm_num)
  rw [portValue, longToInt]
  norm_num at h ⊢
  exact h

theorem digitValue_ofDigit : ∀ d < 10, digitValue (48 + d).toUInt8 = d := by decide

theorem digit_ofDigit : ∀ d < 10, digit (48 + d).toUInt8 = true := by decide

theorem digits_decimal (n : ℕ) : ∀ d ∈ decimal n, digit d = true := by
  rw [decimal]
  split_ifs with hn
  · exact List.forall_mem_singleton.2 rfl
  · intro d hd
    obtain ⟨k, hk, rfl⟩ := List.mem_map.1 (List.mem_reverse.1 hd)
    exact digit_ofDigit k (Nat.digits_lt_base (by decide) hk)

theorem digitsValue_decimal (n : ℕ) : digitsValue 10 (decimal n) = n := by
  have hall : ∀ d ∈ decimal n, decide (digitValue d < 10) = true := fun d hd =>
    digit_iff d ▸ digits_decimal n d hd
  rw [digitsValue, List.takeWhile_eq_self_iff.2 hall, decimal]
  split_ifs with hn
  · rw [hn]
    rfl
  · have hfold : ∀ l : List ℕ, (∀ d ∈ l, d < 10) →
        (l.map fun d => (48 + d).toUInt8).reverse.foldl (fun v b => 10 * v + digitValue b) 0 =
          Nat.ofDigits 10 l := by
      intro l hl
      induction l with
      | nil => rfl
      | cons d l ih =>
        obtain ⟨hd, hl⟩ := List.forall_mem_cons.1 hl
        rw [List.map_cons, List.reverse_cons, List.foldl_append, ih hl, Nat.ofDigits_cons,
          List.foldl_cons, List.foldl_nil, digitValue_ofDigit d hd, add_comm]
    rw [hfold _ fun d hd => Nat.digits_lt_base (by decide) hd, Nat.ofDigits_digits]

/-! ## Components -/

/-- A digit follows the first colon directly, and one the second colon. -/
def ColonDigitTwice (u : List UInt8) : Prop :=
  ∃ x d w, u = x ++ 58 :: d :: w ∧ 58 ∉ x ∧ digit d = true ∧ ColonDigit w

theorem colonDigit_cons {d : UInt8} {w : List UInt8} (hd : digit d = true) :
    ColonDigit (d :: w) ↔ ColonDigit w := by
  have hne : d ≠ 58 := by
    rintro rfl
    cases hd
  constructor
  · rintro ⟨x, d', w', heq, hx, hd'⟩
    cases x with
    | nil => exact absurd (List.cons.inj heq).1 hne
    | cons c x =>
      obtain ⟨rfl, hw⟩ := List.cons.inj heq
      exact ⟨x, d', w', hw, fun h => hx (List.mem_cons_of_mem _ h), hd'⟩
  · rintro ⟨x, d', w', rfl, hx, hd'⟩
    refine ⟨d :: x, d', w', rfl, ?_, hd'⟩
    rintro (_ | ⟨_, h⟩)
    · exact hne rfl
    · exact hx h

theorem colonDigit_stored {u : List UInt8} : ColonDigit (storedUserinfo u) ↔ ColonDigitTwice u := by
  have hcut : ∀ x d w, 58 ∉ x → digit d = true →
      storedUserinfo (x ++ 58 :: d :: w) = d :: w := by
    intro x d w hx hd
    rw [storedUserinfo_colon hx, if_pos (by simpa using hd)]
  constructor
  · intro h
    by_cases hu : ColonDigit u
    · obtain ⟨x, d, w, rfl, hx, hd⟩ := hu
      rw [hcut x d w hx hd, colonDigit_cons hd] at h
      exact ⟨x, d, w, rfl, hx, hd, h⟩
    · rw [storedUserinfo_eq_iff.2 hu] at h
      exact absurd h hu
  · rintro ⟨x, d, w, rfl, hx, hd, hw⟩
    rw [hcut x d w hx hd, colonDigit_cons hd]
    exact hw

theorem text_stored {u : List UInt8} (hu : Text userChar u) : Text userChar (storedUserinfo u) := by
  by_cases hmem : 58 ∈ u
  · obtain ⟨x, v, rfl, hx⟩ := List.eq_append_cons_of_mem hmem
    rw [storedUserinfo_colon hx]
    split_ifs with hv
    · exact (hu.of_append (by decide) rfl).2
    · exact hu
  · rw [storedUserinfo_of_not_mem hmem]
    exact hu

theorem isDefaultPort_iff (u : Uri) :
    u.isDefaultPort = true ↔ u.port = 0 ∨ u.port = defaultPort u.scheme := by
  rw [isDefaultPort, defaultPort]
  split_ifs with hport <;> simp [hport]

/-- A component that is printed if it is not empty. -/
def optional (w : List UInt8) : Option (List UInt8) := if w = [] then none else some w

@[simp] theorem optional_getD (w : List UInt8) : (optional w).getD [] = w := by
  rw [optional]
  split_ifs with hw
  · exact hw.symm
  · rfl

theorem optional_elim (w : List UInt8) (f : List UInt8 → List UInt8) :
    (optional w).elim [] f = if w = [] then [] else f w := by
  rw [optional]
  split_ifs with hw
  · rfl
  · rfl

theorem optional_forall {w : List UInt8} {p : List UInt8 → Prop} (hw : p w) :
    ∀ x ∈ optional w, p x := by
  intro x hx
  rw [optional] at hx
  split_ifs at hx with h
  · cases hx
  · cases hx
    exact hw

/-! ## What is printed -/

/-- The getters of two objects return the same. -/
def SameGetters (u v : Uri) : Prop := u.scheme = v.scheme ∧ u.userinfo = v.userinfo ∧
  u.host = v.host ∧ u.getPort = v.getPort ∧ u.getPath = v.getPath ∧ u.query = v.query ∧
  u.fragment = v.fragment

/-- `Uri::Create` on what is printed makes the same object. -/
def RoundTrips (u : Uri) : Prop := ∃ v, create u.toString = .returned v ∧ SameGetters u v

/-- The fields of an object are components, and the port is an `int`. -/
structure Printable (u : Uri) : Prop where
  scheme : IsScheme u.scheme
  userinfo : Text userChar u.userinfo
  host : IsHost u.host
  path : IsAbempty u.path
  query : Text queryChar u.query
  fragment : Text queryChar u.fragment
  port : u.port < 2 ^ 31

namespace Printable

variable {u : Uri}

theorem abempty_getPath (h : Printable u) : IsAbempty u.getPath := by
  rw [getPath]
  split_ifs with hp
  · exact Or.inr ⟨[], rfl, .nil⟩
  · exact h.path

/-- The components that are printed. -/
def printed (h : Printable u) : Parts where
  scheme := some u.scheme
  authority := some
    { userinfo := optional u.userinfo
      host := u.host
      port := if u.isDefaultPort then none else some (decimal u.port.natAbs)
      userinfo_text := optional_forall h.userinfo
      host_isHost := h.host
      port_digits := by
        intro ds hds
        split_ifs at hds with hdefault
        · cases hds
        · cases hds
          exact digits_decimal _ }
  path := u.getPath
  query := optional u.query
  fragment := optional u.fragment
  scheme_isScheme := by
    rintro _ ⟨⟩
    exact h.scheme
  path_isPath := h.abempty_getPath
  query_text := optional_forall h.query
  fragment_text := optional_forall h.fragment

theorem compose_printed (h : Printable u) (hn : 0 ≤ u.port) :
    h.printed.compose = u.toString := by
  have hstart : ∀ w, (optional w).elim [] (· ++ [64]) = w ++ if w = [] then [] else ascii "@" := by
    intro w
    rw [optional_elim]
    split_ifs with hw
    · rw [hw]
      rfl
    · rfl
  have hend : ∀ (c : UInt8) w, (optional w).elim [] (c :: ·) = (if w = [] then [] else [c]) ++ w := by
    intro c w
    rw [optional_elim]
    split_ifs with hw
    · rw [hw]
      rfl
    · rfl
  have hport : Option.elim (if u.isDefaultPort then none else some (decimal u.port.natAbs)) []
      (58 :: ·) = if u.isDefaultPort then [] else ascii ":" ++ intToString u.port := by
    split_ifs with hdefault
    · rfl
    · rw [intToString, if_neg (not_lt.2 hn)]
      rfl
  simp only [Parts.compose, printed, AuthorityParts.text, tailText, Option.elim_some, hstart, hend,
    hport, Uri.toString]
  simp only [List.append_assoc, List.cons_append, List.nil_append]
  rfl

theorem stored_printed (h : Printable u) (hn : 0 ≤ u.port) : h.printed.stored = { u with
    userinfo := storedUserinfo u.userinfo
    path := u.getPath
    port := if u.isDefaultPort then 0 else u.port } := by
  have huser : (optional u.userinfo).elim [] storedUserinfo = storedUserinfo u.userinfo := by
    rw [optional_elim]
    split_ifs with hw
    · rw [hw]
      rfl
    · rfl
  have hport : Option.elim (if u.isDefaultPort then none else some (decimal u.port.natAbs)) 0
      portValue = if u.isDefaultPort then 0 else u.port := by
    split_ifs with hdefault
    · rfl
    · have hlt := h.port
      rw [Option.elim_some, portValue_eq, digitsValue_decimal]
      · omega
      · rw [digitsValue_decimal]
        omega
  simp [Parts.stored, printed, Parts.userinfo, Parts.host, Parts.port, huser, hport]

theorem create_toString (h : Printable u) (hn : 0 ≤ u.port) : create u.toString = .returned { u with
    userinfo := storedUserinfo u.userinfo
    path := u.getPath
    port := if u.isDefaultPort then 0 else u.port } := by
  have hport : h.printed.port ≠ some [] := by
    intro hnil
    have hnil : (if u.isDefaultPort then none else some (decimal u.port.natAbs)) = some [] := hnil
    split_ifs at hnil with hdefault
    have hzero := digitsValue_decimal u.port.natAbs
    rw [Option.some.inj hnil] at hzero
    exact hdefault ((isDefaultPort_iff u).2 (Or.inl (Int.natAbs_eq_zero.1 hzero.symm)))
  rw [← h.compose_printed hn, h.printed.create_compose hport, h.stored_printed hn]

/-- The printed text gives the object again, if its `userinfo` is not cut. -/
theorem roundTrips_iff (h : Printable u) (hn : 0 ≤ u.port) :
    RoundTrips u ↔ ¬ ColonDigit u.userinfo := by
  rw [← storedUserinfo_eq_iff]
  constructor
  · rintro ⟨v, hv, -, huser, -⟩
    rw [h.create_toString hn] at hv
    cases hv
    exact huser.symm
  · intro huser
    refine ⟨_, h.create_toString hn, rfl, huser.symm, rfl, ?_, ?_, rfl, rfl⟩
    · rw [getPort_eq, getPort_eq]
      by_cases hdefault : u.isDefaultPort = true
      · simp only [if_pos hdefault]
        obtain hzero | hport := (isDefaultPort_iff u).1 hdefault
        · rw [if_pos hzero]
          rfl
        · rw [hport, ite_self]
          rfl
      · simp only [if_neg hdefault]
    · have hne : u.getPath ≠ [] := by
        rw [getPath]
        split_ifs with hp
        · decide
        · exact hp
      rw [getPath.eq_def { u with
        userinfo := storedUserinfo u.userinfo
        path := u.getPath
        port := if u.isDefaultPort then 0 else u.port }, if_neg hne]

end Printable

/-! ## Negative ports -/

section
variable {a : Authority} {e : Env} {saved : Bool} {h r x z : List UInt8} {u : Uri}

open Authority

theorem run_plainText (hx : ∀ c ∈ x, plain c = true)
    (hrun : run (.authority saved a) e (x ++ r) = .returned u) :
    ∃ e', run (.authority saved (a.read x)) e' r = .returned u := by
  induction x generalizing a e with
  | nil => exact ⟨e, hrun⟩
  | cons c x ih =>
    obtain ⟨hc, hx⟩ := List.forall_mem_cons.1 hx
    rw [List.cons_append, run_plain hc] at hrun
    cases hp : perform (c :: (x ++ r)) (a.acts c) e with
    | none =>
      rw [hp] at hrun
      cases hrun
    | some e' =>
      rw [hp] at hrun
      exact ih hx hrun

/-- No port has a sign. -/
theorem not_returned_minus (ha : Fresh a) (hh : IsHost h) (hz : ∀ c ∈ z, plain c = true) :
    run (.authority saved a) e (h ++ 58 :: 45 :: z ++ 47 :: r) ≠ .returned u := by
  intro hrun
  have hplain : ∀ c ∈ h ++ 58 :: 45 :: z, plain c = true := by
    refine List.forall_mem_append.2 ⟨hh.plain, List.forall_mem_cons.2 ⟨rfl, ?_⟩⟩
    exact List.forall_mem_cons.2 ⟨rfl, hz⟩
  obtain ⟨e', hrun⟩ := run_plainText hplain hrun
  obtain ⟨as, s', e'', hnext, -⟩ := next_of_returned hrun
  rw [State.next, if_pos rfl] at hnext
  obtain ⟨as, has, -⟩ := Option.map_eq_some_iff.1 hnext
  obtain ⟨h', port, heq, hh', hport⟩ := ha.of_leaves has
  cases port with
  | none =>
    rw [Option.elim_none, List.append_nil] at heq
    rw [← heq] at hh'
    exact hh'.not_front hh
  | some ds =>
    rw [Option.elim_some] at heq
    obtain ⟨y, rfl, hy⟩ | ⟨y, rfl, hy⟩ := List.append_eq_append_iff.1 heq
    · cases y with
      | nil => cases (hport ds rfl 45 (by rw [← (List.cons.inj hy).2]; simp))
      | cons c y =>
        obtain ⟨rfl, -⟩ := List.cons.inj hy
        exact hh'.not_front hh
    · cases y with
      | nil => cases (hport ds rfl 45 (by rw [(List.cons.inj hy).2]; simp))
      | cons c y =>
        obtain ⟨rfl, -⟩ := List.cons.inj hy
        exact hh.not_front hh'

theorem Printable.not_roundTrips (h : Printable u) (hn : u.port < 0) : ¬ RoundTrips u := by
  rintro ⟨v, hv, -⟩
  have hdefault : ¬ u.isDefaultPort = true := by
    rw [isDefaultPort_iff, defaultPort]
    split_ifs <;> omega
  have hpath : ∃ w, u.getPath = 47 :: w := by
    rw [getPath]
    split_ifs with hp
    · exact ⟨[], rfl⟩
    · obtain hnil | ⟨w, hw, -⟩ := h.path
      · exact absurd hnil hp
      · exact ⟨w, hw⟩
  obtain ⟨w, hw⟩ := hpath
  have htext : ∃ r, u.toString = u.scheme ++ 58 :: 47 :: 47 :: ((u.userinfo ++
      if u.userinfo = [] then [] else [64]) ++
        (u.host ++ 58 :: 45 :: decimal u.port.natAbs ++ 47 :: r)) := by
    refine ⟨w ++ ((if u.query = [] then [] else ascii "?") ++ (u.query ++
      ((if u.fragment = [] then [] else ascii "#") ++ u.fragment))), ?_⟩
    rw [Uri.toString, if_neg hdefault, intToString, if_pos hn, hw]
    simp only [List.append_assoc, List.cons_append, List.nil_append]
    rfl
  obtain ⟨r, htext⟩ := htext
  have hdigits : ∀ c ∈ decimal u.port.natAbs, plain c = true := fun c hc =>
    plain_of_digit c (digits_decimal _ c hc)
  have hrun : ∀ t, create (u.scheme ++ 58 :: 47 :: 47 :: t) =
      run (.authority true {}) ⟨{ scheme := u.scheme }, none⟩ t := fun t => run_scheme h.scheme {} _
  rw [htext, hrun] at hv
  by_cases huser : u.userinfo = []
  · rw [if_pos huser, huser] at hv
    exact not_returned_minus fresh_default h.host hdigits hv
  · obtain ⟨host, hat⟩ := run_userinfo h.userinfo
    rw [if_neg huser, List.append_assoc, List.singleton_append, hat] at hv
    exact not_returned_minus ⟨rfl, rfl, rfl, rfl⟩ h.host hdigits hv

end

/-! ## Round trips -/

namespace Parts

/-- A scheme and an authority are there. -/
def Absolute (p : Parts) : Prop := p.scheme.isSome = true ∧ p.authority.isSome = true

variable {p : Parts}

theorem Absolute.printable (hp : p.Absolute) : Printable p.stored := by
  obtain ⟨hs, hA⟩ := hp
  obtain ⟨scheme, authority, path, query, fragment, hscheme, hpath, hq, hf⟩ := p
  obtain ⟨s, rfl⟩ := Option.isSome_iff_exists.1 hs
  obtain ⟨A, rfl⟩ := Option.isSome_iff_exists.1 hA
  have huser : Text userChar (A.userinfo.elim [] storedUserinfo) := by
    cases hu : A.userinfo with
    | none => exact .nil
    | some x => exact text_stored (A.userinfo_text x hu)
  have hport : A.port.elim 0 portValue < 2 ^ 31 := by
    cases A.port with
    | none => norm_num
    | some ds => exact portValue_lt ds
  have htext : ∀ w : Option (List UInt8), (∀ x ∈ w, Text queryChar x) →
      Text queryChar (w.getD []) := by
    intro w hw
    cases w with
    | none => exact .nil
    | some x => exact hw x rfl
  exact ⟨hscheme s rfl, huser, A.host_isHost, hpath, htext query hq, htext fragment hf, hport⟩

theorem not_colonDigit_stored :
    ¬ ColonDigit p.stored.userinfo ↔ ∀ x ∈ p.userinfo, ¬ ColonDigitTwice x := by
  rw [stored]
  cases p.userinfo with
  | none =>
    constructor
    · rintro - _ ⟨⟩
    · exact fun _ => storedUserinfo_eq_iff.1 rfl
  | some x => simp [colonDigit_stored]

theorem port_stored_nonneg : 0 ≤ p.stored.port ↔ ∀ ds ∈ p.port, FitsInt ds := by
  rw [stored]
  cases p.port with
  | none => simp
  | some ds => simp [portValue_nonneg_iff]

theorem Absolute.roundTrips_iff (hp : p.Absolute) : RoundTrips p.stored ↔
    (∀ x ∈ p.userinfo, ¬ ColonDigitTwice x) ∧ ∀ ds ∈ p.port, FitsInt ds := by
  rw [← not_colonDigit_stored, ← port_stored_nonneg]
  constructor
  · intro htrip
    have hn : 0 ≤ p.stored.port := by
      by_contra hn
      exact hp.printable.not_roundTrips (not_le.1 hn) htrip
    exact ⟨(hp.printable.roundTrips_iff hn).1 htrip, hn⟩
  · rintro ⟨huser, hn⟩
    exact (hp.printable.roundTrips_iff hn).2 huser

/-- An accepted text with a scheme and an authority is composed, and gives the same object again if
not two colons of its `userinfo` are followed by digits and its port fits into an `int`. -/
theorem roundTrips_iff_parts {s r : List UInt8} {u : Uri} (hs : IsScheme s)
    (h : create (s ++ ascii "://" ++ r) = .returned u) :
    (∃ p : Parts, p.Absolute ∧ p.compose = s ++ ascii "://" ++ r) ∧
      ∀ p : Parts, p.Absolute → p.compose = s ++ ascii "://" ++ r →
        (RoundTrips u ↔
          (∀ x ∈ p.userinfo, ¬ ColonDigitTwice x) ∧ ∀ ds ∈ p.port, FitsInt ds) := by
  constructor
  · have hassoc : s ++ ascii "://" ++ r = s ++ 58 :: 47 :: 47 :: r := by
      rw [List.append_assoc]
      rfl
    rw [hassoc] at h ⊢
    obtain ⟨p, A, hp, hscheme, hA⟩ := exists_compose hs h
    exact ⟨p, ⟨Option.isSome_of_eq_some hscheme, Option.isSome_of_eq_some hA⟩, hp⟩
  · intro p hp hcompose
    have hport : p.port ≠ some [] := by
      intro hport
      have hthrew := p.create_compose_threw hp.1 hport
      rw [hcompose, h] at hthrew
      cases hthrew
    have hstored := p.create_compose hport
    rw [hcompose, h] at hstored
    cases hstored
    exact hp.roundTrips_iff

theorem roundTrips_sample : RoundTrips
    { scheme := ascii "http", userinfo := ascii "bin", host := ascii "h", path := ascii "/a",
      query := ascii "b", port := 8080 } := by
  have hs : IsScheme (ascii "http") := ⟨rfl, List.all_eq_true.1 (by decide)⟩
  have hcreate : create (ascii "http" ++ ascii "://" ++ ascii "bin@h:8080/a?b") = .returned
      { scheme := ascii "http", userinfo := ascii "bin", host := ascii "h", path := ascii "/a",
        query := ascii "b", port := 8080 } := by
    decide +kernel
  refine ((roundTrips_iff_parts hs hcreate).2 sample ⟨rfl, rfl⟩ (by decide)).2 ⟨?_, ?_⟩
  · rintro _ ⟨⟩
    exact fun htwice => storedUserinfo_eq_iff.1 (by decide) (colonDigit_stored.2 htwice)
  · rintro _ ⟨⟩
    decide +kernel

theorem not_roundTrips_twice :
    create (ascii "http" ++ ascii "://" ++ ascii "a:1:2@h/") = .returned
      { scheme := ascii "http", userinfo := ascii "1:2", host := ascii "h", path := ascii "/" } ∧
    ¬ RoundTrips
      { scheme := ascii "http", userinfo := ascii "1:2", host := ascii "h", path := ascii "/" } ∧
    create (ascii "http" ++ ascii "://" ++ ascii "h:4294967295/") = .returned
      { scheme := ascii "http", host := ascii "h", path := ascii "/", port := -1 } ∧
    ¬ RoundTrips { scheme := ascii "http", host := ascii "h", path := ascii "/", port := -1 } := by
  refine ⟨by decide +kernel, ?_, by decide +kernel, ?_⟩
  · have hcreate : create (toString
        { scheme := ascii "http", userinfo := ascii "1:2", host := ascii "h", path := ascii "/" }) =
        .returned
          { scheme := ascii "http", userinfo := ascii "2", host := ascii "h", path := ascii "/" } := by
      decide +kernel
    rintro ⟨v, hv, -, huser, -⟩
    rw [hcreate] at hv
    cases hv
    revert huser
    decide
  · have hcreate : create (toString
        { scheme := ascii "http", host := ascii "h", path := ascii "/", port := -1 }) = .null := by
      decide +kernel
    rintro ⟨v, hv, -⟩
    rw [hcreate] at hv
    cases hv

end Parts

end CoroutineScheduler.Uri
