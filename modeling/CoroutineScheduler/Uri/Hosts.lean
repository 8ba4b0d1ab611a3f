import CoroutineScheduler.Uri.Runs

/-!
# Hosts

A host is a `reg_name` or one of the `literals`. A literal in brackets has no bracket inside, and the
other ones have digits, dots and the byte 2 (`literals_cases`); so no front of a host that a colon
follows is a host itself (`IsHost.not_front`), and `save_host` runs once.
-/

namespace CoroutineScheduler.Uri

open Http Words
open Wire (forall_byte)

/-- A host of the grammar. -/
def IsHost (h : List UInt8) : Prop := Text regChar h ∨ h ∈ literals.matches'

/-! ## The bytes of the literals -/

section
variable {p : UInt8 → Prop} {octet : RegularExpression UInt8}

theorem only_h16 (hx : ∀ c, xdigit c = true → p c) : Only p h16 := by
  have hbyte : Only p (oneOf (bytes xdigit)) := .oneOf fun c hc => hx c (List.mem_filter.1 hc).2
  exact ((hbyte.add (hbyte.pow 2)).add (hbyte.pow 3)).add (hbyte.pow 4)

theorem only_h16Colon (hx : ∀ c, xdigit c = true → p c) (hcolon : p 58) : Only p h16Colon :=
  (only_h16 hx).mul (.word (List.forall_mem_singleton.2 hcolon))

theorem only_ipv4address (hoctet : Only p octet) (hdot : p 46) : Only p (ipv4address octet) := by
  have hlit : Only p (lit ".") := .word (List.forall_mem_singleton.2 hdot)
  exact hoctet.mul (hlit.mul (hoctet.mul (hlit.mul (hoctet.mul (hlit.mul hoctet)))))

theorem only_ls32 (hoctet : Only p octet) (hx : ∀ c, xdigit c = true → p c) (hcolon : p 58)
    (hdot : p 46) : Only p (ls32 octet) := by
  have hlit : Only p (lit ":") := .word (List.forall_mem_singleton.2 hcolon)
  exact ((only_h16 hx).mul (hlit.mul (only_h16 hx))).add (only_ipv4address hoctet hdot)

theorem only_ipv6address {front : ℕ → RegularExpression UInt8} (hoctet : Only p octet)
    (hfront : ∀ n, Only p (front n)) (hx : ∀ c, xdigit c = true → p c) (hcolon : p 58)
    (hdot : p 46) : Only p (ipv6address octet front) := by
  have hgap : Only p (lit "::") := .word (List.forall_mem_cons.2
    ⟨hcolon, List.forall_mem_singleton.2 hcolon⟩)
  have hls := only_ls32 hoctet hx hcolon hdot
  have hgroups : ∀ n, Only p (h16Colon ^ n * ls32 octet) := fun n =>
    ((only_h16Colon hx hcolon).pow n).mul hls
  refine ((((((((hgroups 6).add ?_).add ?_).add ?_).add ?_).add ?_).add ?_).add ?_).add ?_
  · exact hgap.mul (hgroups 5)
  · exact (hfront 0).mul (hgap.mul (hgroups 4))
  · exact (hfront 1).mul (hgap.mul (hgroups 3))
  · exact (hfront 2).mul (hgap.mul (hgroups 2))
  · exact (hfront 3).mul (hgap.mul (hgroups 1))
  · exact (hfront 4).mul (hgap.mul hls)
  · exact (hfront 5).mul (hgap.mul (only_h16 hx))
  · exact (hfront 6).mul hgap

theorem only_front (hx : ∀ c, xdigit c = true → p c) (hcolon : p 58) (n : ℕ) : Only p (front n) :=
  (((only_h16Colon hx hcolon).pow n).mul (only_h16 hx)).add .one

theorem only_ipvFuture (hx : ∀ c, xdigit c = true → p c) (hu : ∀ c, userChar c = true → p c) :
    Only p ipvFuture := by
  have hbyte : Only p (oneOf (bytes xdigit)) := .oneOf fun c hc => hx c (List.mem_filter.1 hc).2
  have hchar : Only p (oneOf (bytes userChar)) := .oneOf fun c hc => hu c (List.mem_filter.1 hc).2
  have hv : Only p (lit "v") := .word (List.forall_mem_singleton.2 (hu _ (by decide)))
  have hdot : Only p (lit ".") := .word (List.forall_mem_singleton.2 (hu _ (by decide)))
  exact hv.mul (hbyte.mul (hbyte.star.mul (hdot.mul (hchar.mul hchar.star))))

end

/-- A byte of a dotted address: also the byte 2 that stands for the digit in `decOctet`. -/
def octetByte (c : UInt8) : Bool := digit c || c == 46 || c == 2

/-- A byte between the brackets of a literal. -/
def literalByte (c : UInt8) : Bool := userChar c || c == 2

theorem only_decOctet : Only (octetByte · = true) decOctet := by
  have hd : Only (octetByte · = true) (oneOf (ascii "0123456789")) :=
    .oneOf (List.all_eq_true.1 (by decide))
  refine ((((hd.add (.mul (.oneOf ?_) hd)).add (.mul (.word ?_) (hd.mul hd))).add
    (.mul (.oneOf ?_) (.mul (.oneOf ?_) hd))).add (.mul (.word ?_) (.oneOf ?_)))
  all_goals exact List.all_eq_true.1 (by decide)

theorem literalByte_of_xdigit : ∀ c, xdigit c = true → literalByte c = true :=
  forall_byte (by decide +kernel)

theorem literalByte_of_octetByte : ∀ c, octetByte c = true → literalByte c = true :=
  forall_byte (by decide +kernel)

/-- The two kinds of literals. -/
theorem literals_cases {h : List UInt8} (hh : h ∈ literals.matches') :
    (∃ v, h = 91 :: (v ++ [93]) ∧ (∀ c ∈ v, literalByte c = true) ∧
      v ∈ (ipv6address decOctet front + ipvFuture).matches') ∨ ∀ c ∈ h, octetByte c = true := by
  obtain hh | hh := mem_add.1 hh
  · left
    obtain ⟨a, ha, b, hb, rfl⟩ := mem_mul.1 hh
    obtain ⟨v, hv, d, hd, rfl⟩ := mem_mul.1 hb
    rw [mem_word.1 ha, mem_word.1 hd]
    refine ⟨v, rfl, ?_, hv⟩
    have hoctet : Only (literalByte · = true) decOctet := fun w hw c hc =>
      literalByte_of_octetByte c (only_decOctet w hw c hc)
    have h6 := only_ipv6address hoctet (only_front literalByte_of_xdigit (by decide))
      literalByte_of_xdigit (by decide) (by decide)
    have hfuture : Only (literalByte · = true) ipvFuture :=
      only_ipvFuture literalByte_of_xdigit fun c hc => by rw [literalByte, hc, Bool.true_or]
    exact (h6.add hfuture) v hv
  · right
    exact only_ipv4address only_decOctet (by decide) h hh

theorem mem_literals_of_bracket {v : List UInt8}
    (hv : v ∈ (ipv6address decOctet front + ipvFuture).matches') :
    91 :: (v ++ [93]) ∈ literals.matches' :=
  mem_add.2 (Or.inl (mem_mul.2 ⟨[91], mem_word.2 rfl, v ++ [93],
    mem_mul.2 ⟨v, hv, [93], mem_word.2 rfl, rfl⟩, rfl⟩))

/-! ## Fronts of a host -/

section
variable {h x z : List UInt8}

theorem not_mem_of_text {ok : UInt8 → Bool} {c : UInt8} (hw : Text ok h) (hok : ok c = false)
    (hpct : c ≠ 37) (hx : xdigit c = false) : c ∉ h := by
  intro hc
  obtain hc | hc | hc := hw.forall_mem c hc
  · rw [hok] at hc
    cases hc
  · exact hpct hc
  · rw [hx] at hc
    cases hc

/-- A host with a colon is in brackets, and the colon is inside of them. -/
theorem IsHost.of_colon (hh : IsHost (x ++ 58 :: z)) : ∃ y, x = 91 :: y ∧ 93 ∉ y := by
  have hmem : (58 : UInt8) ∈ x ++ 58 :: z := List.mem_append_right x List.mem_cons_self
  obtain hh | hh := hh
  · exact absurd hmem (not_mem_of_text hh rfl (by decide) rfl)
  obtain ⟨v, heq, hv, -⟩ | hh := literals_cases hh
  · cases x with
    | nil => cases heq
    | cons c y =>
      obtain ⟨rfl, hinner⟩ := List.cons.inj heq
      refine ⟨y, rfl, ?_⟩
      intro h93
      obtain ⟨a, rfl, -⟩ | ⟨b, rfl, hb⟩ := List.append_eq_append_iff.1 hinner
      · exact Bool.false_ne_true (hv 93 (List.mem_append_left a h93))
      · cases b with
        | nil => cases hb
        | cons c b =>
          have hlen := congrArg List.length hb
          simp at hlen
  · cases hh 58 hmem

/-- No front of a host that a colon follows is a host. -/
theorem IsHost.not_front (hh : IsHost (x ++ 58 :: z)) : ¬ IsHost x := by
  obtain ⟨y, rfl, h93⟩ := hh.of_colon
  rintro (hx | hx)
  · exact not_mem_of_text hx rfl (by decide) rfl List.mem_cons_self
  obtain ⟨v, heq, -⟩ | hx := literals_cases hx
  · rw [(List.cons.inj heq).2] at h93
    exact h93 (List.mem_append_right v List.mem_cons_self)
  · cases hx 91 List.mem_cons_self

end

end CoroutineScheduler.Uri
