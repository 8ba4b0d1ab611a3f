import CoroutineScheduler.Uri.Accepted

/-!
# IPv6 addresses in brackets

The rule `IPv6address` of the comment at the top of `uri.rl`, and the expression that the machine has
for it. They differ in two places: in front of `::` the machine takes the largest number of groups or
none, and the octets from 200 to 249 start with the byte 2 instead of the digit.
-/

namespace CoroutineScheduler.Uri

open Http Words
open Wire (forall_byte)

/-! ## The rule and the machine -/

/-- `dec-octet`. -/
def rfcOctet : RegularExpression UInt8 :=
  let d := oneOf (ascii "0123456789")
  d + oneOf (ascii "123456789") * d + lit "1" * (d * d) + lit "2" * (oneOf (ascii "01234") * d) +
    lit "25" * oneOf (ascii "012345")

/-- `[ *n( h16 ":" ) h16 ]`. -/
def rfcFront (n : ℕ) : RegularExpression UInt8 := opt (upTo h16Colon n * h16)

/-- `dec-octet` without the numbers from 200 to 249. -/
def plainOctet : RegularExpression UInt8 :=
  let d := oneOf (ascii "0123456789")
  d + oneOf (ascii "123456789") * d + lit "1" * (d * d) + lit "25" * oneOf (ascii "012345")

section
variable {p : UInt8 → Prop} {octet octet' : RegularExpression UInt8}

theorem within_ls32 (h : Within p octet octet') : Within p (ls32 octet) (ls32 octet') := by
  have hdot : Within p (lit ".") (lit ".") := .refl _
  exact .add (.refl _) (h.mul (hdot.mul (h.mul (hdot.mul (h.mul (hdot.mul h))))))

theorem within_ipv6address {front front' : ℕ → RegularExpression UInt8}
    (hoctet : Within p octet octet') (hfront : ∀ n, Within p (front n) (front' n)) :
    Within p (ipv6address octet front) (ipv6address octet' front') := by
  have hgroups : ∀ n, Within p (h16Colon ^ n * ls32 octet) (h16Colon ^ n * ls32 octet') := fun n =>
    (Within.refl _).mul (within_ls32 hoctet)
  have hgap : ∀ {r t}, Within p r t → Within p (lit "::" * r) (lit "::" * t) := fun h =>
    (Within.refl _).mul h
  refine ((((((((hgroups 6).add ?_).add ?_).add ?_).add ?_).add ?_).add ?_).add ?_).add ?_
  · exact hgap (hgroups 5)
  · exact (hfront 0).mul (hgap (hgroups 4))
  · exact (hfront 1).mul (hgap (hgroups 3))
  · exact (hfront 2).mul (hgap (hgroups 2))
  · exact (hfront 3).mul (hgap (hgroups 1))
  · exact (hfront 4).mul (hgap (within_ls32 hoctet))
  · exact (hfront 5).mul (hgap (.refl _))
  · exact (hfront 6).mul (.refl _)

theorem within_rfcFront (n : ℕ) : Within p (front n) (rfcFront n) :=
  .add (.mul (.upTo h16Colon n) (.refl _)) (.refl _)

theorem within_plain_rfc : Within p plainOctet rfcOctet := .add (.inl (.refl _)) (.refl _)

theorem within_plain_dec : Within p plainOctet decOctet := .add (.inl (.refl _)) (.refl _)

theorem within_dec_plain : Within (· ≠ 2) decOctet plainOctet := by
  refine .add (.drop (.refl _) ?_) (.refl _)
  intro w hw
  obtain ⟨a, ha, b, -, rfl⟩ := mem_mul.1 hw
  obtain ⟨c, hc, rfl⟩ := mem_oneOf.1 ha
  exact ⟨c, List.mem_append_left b List.mem_cons_self, not_not.2 (List.mem_singleton.1 hc)⟩

end

/-- The addresses of the rule `IPv6address`. -/
def IsIpv6 (v : List UInt8) : Prop := v ∈ (ipv6address rfcOctet rfcFront).matches'

/-- The addresses that the machine takes. -/
def IsTaken (v : List UInt8) : Prop := v ∈ (ipv6address decOctet front).matches'

/-- The addresses with no octet from 200 to 249, and with no group in front of `::` or as many as
there can be. -/
def IsPlain (v : List UInt8) : Prop := v ∈ (ipv6address plainOctet front).matches'

def IsFuture (v : List UInt8) : Prop := v ∈ ipvFuture.matches'

section
variable {v : List UInt8}

theorem IsPlain.isIpv6 (hv : IsPlain v) : IsIpv6 v :=
  within_ipv6address (p := fun _ => True) within_plain_rfc within_rfcFront v hv fun _ _ => trivial

theorem IsPlain.isTaken (hv : IsPlain v) : IsTaken v :=
  within_ipv6address (p := fun _ => True) within_plain_dec (fun _ => .refl _) v hv
    fun _ _ => trivial

theorem IsTaken.isPlain (hv : IsTaken v) (h2 : 2 ∉ v) : IsPlain v :=
  within_ipv6address within_dec_plain (fun _ => .refl _) v hv fun _ hc h => h2 (h ▸ hc)

/-- A byte of an IPv6 address. -/
def addressByte (c : UInt8) : Bool := xdigit c || c == 58 || c == 46

theorem only_rfcOctet : Only (addressByte · = true) rfcOctet := by
  have hd : Only (addressByte · = true) (oneOf (ascii "0123456789")) :=
    .oneOf (List.all_eq_true.1 (by decide))
  refine ((((hd.add (.mul (.oneOf ?_) hd)).add (.mul (.word ?_) (hd.mul hd))).add
    (.mul (.word ?_) (.mul (.oneOf ?_) hd))).add (.mul (.word ?_) (.oneOf ?_)))
  all_goals exact List.all_eq_true.1 (by decide)

theorem IsIpv6.forall_mem (hv : IsIpv6 v) : ∀ c ∈ v, addressByte c = true := by
  have hx : ∀ c, xdigit c = true → addressByte c = true := fun c hc => by
    rw [addressByte, hc, Bool.true_or, Bool.true_or]
  have hfront : ∀ n, Only (addressByte · = true) (rfcFront n) := fun n =>
    (((only_h16Colon hx rfl).upTo n).mul (only_h16 hx)).add .one
  exact only_ipv6address only_rfcOctet hfront hx rfl rfl v hv

theorem IsIpv6.not_isFuture (hv : IsIpv6 v) : ¬ IsFuture v := by
  intro hf
  obtain ⟨a, ha, b, -, rfl⟩ := mem_mul.1 hf
  rw [mem_word.1 ha] at hv
  exact Bool.false_ne_true (hv.forall_mem 118 (List.mem_append_left b List.mem_cons_self))

theorem IsIpv6.not_mem_two (hv : IsIpv6 v) : 2 ∉ v := fun h =>
  Bool.false_ne_true (hv.forall_mem 2 h)

theorem IsFuture.not_mem_two (hv : IsFuture v) : 2 ∉ v := by
  intro h
  have hall : ∀ c ∈ v, userChar c = true :=
    only_ipvFuture (forall_byte (by decide +kernel)) (fun c hc => hc) v hv
  exact Bool.false_ne_true (hall 2 h)

end

/-! ## What is accepted -/

/-- `http://[v]/`. -/
def bracketed (v : List UInt8) : List UInt8 := ascii "http://[" ++ v ++ ascii "]/"

section
variable {v : List UInt8} {u : Uri}

theorem create_bracketed (hv : IsTaken v ∨ IsFuture v) : create (bracketed v) = .returned
    { scheme := ascii "http", host := ascii "[" ++ v ++ ascii "]", path := ascii "/" } := by
  have hhost : IsHost (91 :: (v ++ [93])) := Or.inr (mem_literals_of_bracket (mem_add.2 hv))
  have hs : IsScheme (ascii "http") := ⟨rfl, List.all_eq_true.1 (by decide)⟩
  let p : Parts :=
    { scheme := ascii "http"
      authority := some ⟨none, 91 :: (v ++ [93]), none, by rintro _ ⟨⟩, hhost, by rintro _ ⟨⟩⟩
      path := ascii "/"
      scheme_isScheme := by
        rintro _ ⟨⟩
        exact hs
      path_isPath := Or.inr ⟨[], rfl, .nil⟩
      query_text := by rintro _ ⟨⟩
      fragment_text := by rintro _ ⟨⟩ }
  have htext : p.compose = bracketed v := by
    simp [p, Parts.compose, AuthorityParts.text, tailText, bracketed, ascii]
  rw [← htext]
  exact p.create_compose (by rintro ⟨⟩)

/-- No bracket stands in a port, a path, a query or a fragment. -/
def bracket (c : UInt8) : Bool := c == 91 || c == 93

theorem bracket_class : ∀ c, bracket c = true → c ≠ 58 ∧ c ≠ 47 ∧ c ≠ 63 ∧ c ≠ 35 ∧ c ≠ 37 ∧
    digit c = false ∧ xdigit c = false ∧ pathChar c = false ∧ queryChar c = false :=
  forall_byte (by decide +kernel)

theorem bracket_not_mem {c : UInt8} (hc : bracket c = true) (A : AuthorityParts) {p t : List UInt8}
    (hp : IsAbempty p) (ht : IsTail t) : c ∉ A.port.elim [] (58 :: ·) ++ (p ++ t) := by
  obtain ⟨h58, h47, h63, h35, h37, hdigit, hx, hpath, hquery⟩ := bracket_class c hc
  have hport : c ∉ A.port.elim [] (58 :: ·) := by
    cases hA : A.port with
    | none => exact List.not_mem_nil
    | some ds =>
      intro hmem
      obtain h | h := List.mem_cons.1 hmem
      · exact h58 h
      · rw [A.port_digits ds hA c h] at hdigit
        cases hdigit
  have hp : c ∉ p := by
    obtain rfl | ⟨w, rfl, hw⟩ := hp
    · exact List.not_mem_nil
    · exact List.not_mem_cons_of_ne_of_not_mem h47 (not_mem_of_text hw hpath h37 hx)
  have ht : c ∉ t := by
    obtain ⟨q, f, rfl, hq, hf⟩ := ht
    have hpart : ∀ (b : UInt8) (w : Option (List UInt8)), c ≠ b → (∀ x ∈ w, Text queryChar x) →
        c ∉ w.elim [] (b :: ·) := by
      intro b w hb hw
      cases w with
      | none => exact List.not_mem_nil
      | some w =>
        exact List.not_mem_cons_of_ne_of_not_mem hb (not_mem_of_text (hw w rfl) hquery h37 hx)
    exact List.not_mem_append (hpart 63 q h63 hq) (hpart 35 f h35 hf)
  exact List.not_mem_append hport (List.not_mem_append hp ht)

/-- A host in brackets, with no bracket behind it. -/
theorem bracketed_inj {w r : List UInt8} (hw : 93 ∉ w) (hr : 93 ∉ r)
    (h : w ++ 93 :: r = v ++ [93, 47]) : w = v := by
  obtain ⟨a, rfl, ha⟩ | ⟨a, rfl, ha⟩ := List.append_eq_append_iff.1 h
  · cases a with
    | nil => exact (List.append_nil w).symm
    | cons c a =>
      rw [(List.cons.inj ha).2] at hr
      exact absurd (List.mem_append_right a List.mem_cons_self) hr
  · cases a with
    | nil => exact List.append_nil v
    | cons c a =>
      rw [← (List.cons.inj ha).1] at hw
      exact absurd (List.mem_append_right v List.mem_cons_self) hw

theorem taken_of_create (h : create (bracketed v) = .returned u) : IsTaken v ∨ IsFuture v := by
  have hs : IsScheme (ascii "http") := ⟨rfl, List.all_eq_true.1 (by decide)⟩
  have hrun : run (.authority true {}) ⟨{ scheme := ascii "http" }, none⟩ (91 :: (v ++ [93, 47])) =
      .returned u :=
    (run_scheme hs {} (47 :: 47 :: 91 :: (v ++ [93, 47]))).symm.trans h
  obtain ⟨A, p, t, htext, hp, ht⟩ := exists_of_returned hrun
  have hrest : ∀ c, bracket c = true → c ∉ A.port.elim [] (58 :: ·) ++ (p ++ t) := fun c hc =>
    bracket_not_mem hc A hp ht
  have huser : A.userinfo = none := by
    cases hu : A.userinfo with
    | none => rfl
    | some x =>
      rw [AuthorityParts.text, hu, Option.elim_some] at htext
      cases x with
      | nil => cases htext
      | cons c x =>
        obtain ⟨rfl, -⟩ := List.cons.inj htext
        exact absurd List.mem_cons_self
          (not_mem_of_text (A.userinfo_text _ hu) rfl (by decide) rfl)
  rw [AuthorityParts.text, huser, Option.elim_none, List.nil_append, List.append_assoc] at htext
  have hhost := A.host_isHost
  cases hA : A.host with
  | nil =>
    rw [hA, List.nil_append] at htext
    exact absurd (htext ▸ List.mem_cons_self) (hrest 91 rfl)
  | cons c y =>
    rw [hA] at htext hhost
    obtain ⟨rfl, hinner⟩ := List.cons.inj htext
    obtain hhost | hhost := hhost
    · exact absurd List.mem_cons_self (not_mem_of_text hhost rfl (by decide) rfl)
    obtain ⟨w, heq, hbytes, hw⟩ | hhost := literals_cases hhost
    · have hclose : 93 ∉ w := fun h => Bool.false_ne_true (hbytes 93 h)
      have hinner' : w ++ 93 :: (A.port.elim [] (58 :: ·) ++ (p ++ t)) = v ++ [93, 47] := by
        rw [hinner, (List.cons.inj heq).2]
        exact (List.append_assoc w [93] _).symm
      rw [← bracketed_inj hclose (hrest 93 rfl) hinner']
      exact mem_add.1 hw
    · exact absurd (hhost 91 List.mem_cons_self) Bool.false_ne_true

/-- The machine takes every address of the rule between brackets, and nothing but these and the
ones of `IPvFuture`. -/
def Follows (v : List UInt8) : Prop :=
  (IsIpv6 v → ∃ u, create (bracketed v) = .returned u ∧ u.host = ascii "[" ++ v ++ ascii "]") ∧
    ((∃ u, create (bracketed v) = .returned u) → IsIpv6 v ∨ IsFuture v)

theorem follows_iff (v : List UInt8) :
    Follows v ↔ (IsIpv6 v → IsPlain v) ∧ (2 ∈ v → ¬ IsTaken v) := by
  constructor
  · rintro ⟨hrule, honly⟩
    constructor
    · intro hv
      obtain ⟨u, hu, -⟩ := hrule hv
      obtain htaken | hfuture := taken_of_create hu
      · exact htaken.isPlain hv.not_mem_two
      · exact absurd hfuture hv.not_isFuture
    · intro h2 htaken
      obtain hv | hv := honly ⟨_, create_bracketed (Or.inl htaken)⟩
      · exact hv.not_mem_two h2
      · exact hv.not_mem_two h2
  · rintro ⟨hplain, htwo⟩
    constructor
    · intro hv
      exact ⟨_, create_bracketed (Or.inl (hplain hv).isTaken), rfl⟩
    · rintro ⟨u, hu⟩
      obtain htaken | hfuture := taken_of_create hu
      · have h2 : 2 ∉ v := fun h => htwo h htaken
        exact Or.inl (htaken.isPlain h2).isIpv6
      · exact Or.inr hfuture

/-- `1::8`, `::200.0.0.1`, and the second one with the byte 2 for its first digit. -/
theorem not_follows : ¬ Follows (ascii "1::8") ∧ ¬ Follows (ascii "::200.0.0.1") ∧
    ¬ Follows (ascii "::" ++ [2] ++ ascii "00.0.0.1") := by
  have hfail : ∀ v, (ipv6address rfcOctet rfcFront).rmatch v = true →
      create (bracketed v) = .null → ¬ Follows v := by
    rintro v hv hcreate ⟨hrule, -⟩
    obtain ⟨u, hu, -⟩ := hrule ((RegularExpression.rmatch_iff_matches' _ _).1 hv)
    rw [hcreate] at hu
    cases hu
  refine ⟨hfail _ (by decide +kernel) (by decide +kernel),
    hfail _ (by decide +kernel) (by decide +kernel), ?_⟩
  rintro ⟨-, honly⟩
  have htaken : IsTaken (ascii "::" ++ [2] ++ ascii "00.0.0.1") :=
    (RegularExpression.rmatch_iff_matches' _ _).1 (by decide +kernel)
  have h2 : 2 ∈ ascii "::" ++ [2] ++ ascii "00.0.0.1" := by decide
  obtain hv | hv := honly ⟨_, create_bracketed (Or.inl htaken)⟩
  · exact hv.not_mem_two h2
  · exact hv.not_mem_two h2

end

end CoroutineScheduler.Uri
