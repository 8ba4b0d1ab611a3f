import Mathlib.Computability.RegularExpressions

/-!
# The words of a regular expression

`oneOf`, `word` and `upTo` are expressions for one letter, for one word and for a bounded repetition. `Only p r` says that the words of
`r` have letters of a class only, and `Within p r t` that the words of `r` with such letters are words
of `t`; both are proved along the expression. `residual r x` is the expression for what may follow `x`.
-/

namespace Words

open RegularExpression

section
variable {α : Type*}

/-- One of some letters. -/
def oneOf (cs : List α) : RegularExpression α := (cs.map char).foldr (· + ·) 0

/-- One word. -/
def word (cs : List α) : RegularExpression α := (cs.map char).foldr (· * ·) 1

variable {p : α → Prop} {r r' t t' : RegularExpression α} {w : List α}

theorem mem_mul : w ∈ (r * t).matches' ↔ ∃ a ∈ r.matches', ∃ b ∈ t.matches', a ++ b = w := by
  rw [matches'_mul, Language.mem_mul]

theorem mem_add : w ∈ (r + t).matches' ↔ w ∈ r.matches' ∨ w ∈ t.matches' := by
  rw [matches'_add, Language.mem_add]

theorem mem_oneOf {cs : List α} : w ∈ (oneOf cs).matches' ↔ ∃ c ∈ cs, w = [c] := by
  induction cs with
  | nil =>
    rw [oneOf, List.map_nil, List.foldr_nil, matches'_zero]
    simp
  | cons c cs ih =>
    have hcons : oneOf (c :: cs) = char c + oneOf cs := rfl
    rw [hcons, mem_add, ih, List.exists_mem_cons_iff]
    exact Iff.rfl

theorem mem_word {cs : List α} : w ∈ (word cs).matches' ↔ w = cs := by
  induction cs generalizing w with
  | nil => exact Language.mem_one w
  | cons c cs ih =>
    have hcons : word (c :: cs) = char c * word cs := rfl
    rw [hcons, mem_mul]
    constructor
    · rintro ⟨a, ha, b, hb, rfl⟩
      rw [ih.1 hb, show a = [c] from ha]
      rfl
    · rintro rfl
      exact ⟨[c], rfl, cs, ih.2 rfl, rfl⟩

/-- At most `n` words. -/
def upTo (r : RegularExpression α) : ℕ → RegularExpression α
  | 0 => 1
  | n + 1 => upTo r n + r ^ (n + 1)

/-! ## Letters -/

/-- The words have letters of a class only. -/
def Only (p : α → Prop) (r : RegularExpression α) : Prop := ∀ w ∈ r.matches', ∀ c ∈ w, p c

theorem Only.oneOf {cs : List α} (h : ∀ c ∈ cs, p c) : Only p (oneOf cs) := by
  intro w hw
  obtain ⟨c, hc, rfl⟩ := mem_oneOf.1 hw
  exact List.forall_mem_singleton.2 (h c hc)

theorem Only.word {cs : List α} (h : ∀ c ∈ cs, p c) : Only p (word cs) := by
  intro w hw
  rw [mem_word.1 hw]
  exact h

theorem Only.one : Only p 1 := by
  intro w hw
  rw [(Language.mem_one w).1 hw]
  exact List.forall_mem_nil _

theorem Only.add (hr : Only p r) (ht : Only p t) : Only p (r + t) := by
  intro w hw
  exact (mem_add.1 hw).elim (hr w) (ht w)

theorem Only.mul (hr : Only p r) (ht : Only p t) : Only p (r * t) := by
  intro w hw
  obtain ⟨a, ha, b, hb, rfl⟩ := mem_mul.1 hw
  exact List.forall_mem_append.2 ⟨hr a ha, ht b hb⟩

theorem Only.pow (hr : Only p r) (n : ℕ) : Only p (r ^ n) := by
  induction n with
  | zero => exact Only.one
  | succ n ih => exact Only.mul ih hr

theorem Only.upTo (hr : Only p r) (n : ℕ) : Only p (upTo r n) := by
  induction n with
  | zero => exact Only.one
  | succ n ih => exact Only.add ih (hr.pow (n + 1))

theorem Only.star (hr : Only p r) : Only p r.star := by
  intro w hw
  obtain ⟨L, rfl, hL⟩ := Language.mem_kstar.1 hw
  intro c hc
  obtain ⟨w, hw, hc⟩ := List.mem_flatten.1 hc
  exact hr w (hL w hw) c hc

/-! ## Inclusion -/

/-- The words with letters of a class are words of another expression. -/
def Within (p : α → Prop) (r t : RegularExpression α) : Prop :=
  ∀ w ∈ r.matches', (∀ c ∈ w, p c) → w ∈ t.matches'

theorem Within.refl (r : RegularExpression α) : Within p r r := fun _ hw _ => hw

theorem Within.add (hr : Within p r r') (ht : Within p t t') : Within p (r + t) (r' + t') := by
  intro w hw hp
  exact mem_add.2 ((mem_add.1 hw).imp (hr w · hp) (ht w · hp))

theorem Within.mul (hr : Within p r r') (ht : Within p t t') : Within p (r * t) (r' * t') := by
  intro w hw hp
  obtain ⟨a, ha, b, hb, rfl⟩ := mem_mul.1 hw
  obtain ⟨hpa, hpb⟩ := List.forall_mem_append.1 hp
  exact mem_mul.2 ⟨a, hr a ha hpa, b, ht b hb hpb, rfl⟩

theorem Within.inl (h : Within p r t) : Within p r (t + t') := fun w hw hp =>
  mem_add.2 (Or.inl (h w hw hp))

theorem Within.inr (h : Within p r t) : Within p r (t' + t) := fun w hw hp =>
  mem_add.2 (Or.inr (h w hw hp))

theorem Within.upTo (r : RegularExpression α) (n : ℕ) : Within p (r ^ n) (upTo r n) := by
  cases n with
  | zero => exact .refl 1
  | succ n => exact .inr (.refl _)

/-- A sum of two, where the words of the second have letters outside of the class. -/
theorem Within.drop (hr : Within p r r') (ht : ∀ w ∈ t.matches', ∃ c ∈ w, ¬ p c) :
    Within p (r + t) r' := by
  intro w hw hp
  obtain hw | hw := mem_add.1 hw
  · exact hr w hw hp
  · obtain ⟨c, hc, hnot⟩ := ht w hw
    exact absurd (hp c hc) hnot

/-! ## Residuals -/

variable [DecidableEq α]

/-- What may follow a word. -/
def residual (r : RegularExpression α) (x : List α) : RegularExpression α := x.foldl deriv r

theorem rmatch_residual (r : RegularExpression α) (x y : List α) :
    (residual r x).rmatch y = r.rmatch (x ++ y) := by
  induction x generalizing r with
  | nil => rfl
  | cons c x ih => exact ih (r.deriv c)

theorem matchEpsilon_residual (r : RegularExpression α) (x : List α) :
    (residual r x).matchEpsilon = true ↔ x ∈ r.matches' := by
  have h := rmatch_residual r x []
  rw [List.append_nil] at h
  rw [← rmatch_iff_matches', ← h]
  exact Iff.rfl

end

end Words
