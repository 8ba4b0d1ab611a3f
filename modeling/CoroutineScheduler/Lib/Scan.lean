import Mathlib.Tactic

/-!
# Scanners with actions

A scanner is a finite automaton whose transitions carry actions. `exec` runs it over a buffer: the
actions of each transition are performed on an environment, with the position of the byte, and the
run stops at the end of the buffer, at a transition that is not there, or behind an action that
breaks.

1. `exec_append_out`, `exec_append_stop`: a run over a buffer goes on where a run over its front
   ended, or ends where that one stopped.
2. `exec_rel`: runs of the same bytes on two environments stay related when the actions keep the
   relation, also when the positions are shifted.
-/

namespace Scan

/-- An automaton over bytes with actions in `α`; a missing transition is the error state. -/
structure Scanner (α : Type) where
  State : Type
  start : State
  next : State → UInt8 → Option (State × List α)
  final : State → Bool

/-- Why a run stopped. -/
inductive Stop
  | out | broke | failed
  deriving DecidableEq, Repr

/-- The end of a run: the state and the environment reached, and the bytes it went over. -/
structure Halt (α σ : Type) (m : Scanner α) where
  cs : m.State
  env : σ
  pos : ℕ
  stop : Stop

section
variable {α σ τ : Type} {m : Scanner α}

/-- The run over `bs` from position `p` on. -/
def exec (m : Scanner α) (act : ℕ → α → σ → σ) (breaks : α → Bool) :
    ℕ → List UInt8 → m.State → σ → Halt α σ m
  | p, [], cs, e => ⟨cs, e, p, .out⟩
  | p, b :: bs, cs, e =>
    match m.next cs b with
    | none => ⟨cs, e, p, .failed⟩
    | some (cs', as) =>
      let e' := as.foldl (fun e a => act p a e) e
      if as.any breaks then ⟨cs', e', p + 1, .broke⟩ else exec m act breaks (p + 1) bs cs' e'

variable {act : ℕ → α → σ → σ} {breaks : α → Bool} {p : ℕ} {xs ys : List UInt8} {cs : m.State}
  {e : σ}

/-- A run to the end of the bytes goes over all of them. -/
theorem exec_pos_out (h : (exec m act breaks p xs cs e).stop = .out) :
    (exec m act breaks p xs cs e).pos = p + xs.length := by
  induction xs generalizing p cs e with
  | nil => rfl
  | cons b xs ih =>
    simp only [exec] at h ⊢
    split
    · next hnone => simp [hnone] at h
    · next cs' as hsome =>
      simp only [hsome] at h
      split_ifs at h ⊢
      rw [ih h, List.length_cons]
      omega

theorem exec_pos_le : (exec m act breaks p xs cs e).pos ≤ p + xs.length := by
  induction xs generalizing p cs e with
  | nil => exact le_rfl
  | cons b xs ih =>
    simp only [exec, List.length_cons]
    split
    · exact Nat.le_add_right _ _
    · split_ifs
      · show p + 1 ≤ p + (xs.length + 1)
        omega
      · exact ih.trans (by omega)

/-- A run that breaks has gone over at least one byte. -/
theorem exec_pos_broke (h : (exec m act breaks p xs cs e).stop = .broke) :
    p < (exec m act breaks p xs cs e).pos := by
  induction xs generalizing p cs e with
  | nil => simp [exec] at h
  | cons b xs ih =>
    simp only [exec] at h ⊢
    split
    · next hnone => simp [hnone] at h
    · next cs' as hsome =>
      simp only [hsome] at h
      split_ifs at h ⊢
      · exact Nat.lt_succ_self p
      · exact (Nat.lt_succ_self p).trans (ih h)

theorem exec_append_out (h : (exec m act breaks p xs cs e).stop = .out) :
    exec m act breaks p (xs ++ ys) cs e =
      exec m act breaks (p + xs.length) ys (exec m act breaks p xs cs e).cs
        (exec m act breaks p xs cs e).env := by
  induction xs generalizing p cs e with
  | nil => rfl
  | cons b xs ih =>
    rw [List.cons_append, exec]
    simp only [exec] at h ⊢
    split
    · next hnone => simp [hnone] at h
    · next cs' as hsome =>
      simp only [hsome] at h
      split_ifs at h ⊢
      rw [ih h, List.length_cons, show p + 1 + xs.length = p + (xs.length + 1) by omega]

theorem exec_append_stop (h : (exec m act breaks p xs cs e).stop ≠ .out) :
    exec m act breaks p (xs ++ ys) cs e = exec m act breaks p xs cs e := by
  induction xs generalizing p cs e with
  | nil => exact absurd rfl h
  | cons b xs ih =>
    rw [List.cons_append, exec]
    simp only [exec] at h ⊢
    split
    · rfl
    · next cs' as hsome =>
      simp only [hsome] at h
      split_ifs at h ⊢
      · rfl
      · exact ih h

/-- What every transition keeps, of the state and the environment, is kept by a run. -/
theorem exec_invariant {I : m.State → σ → Prop}
    (hstep : ∀ {s b s' as q e}, m.next s b = some (s', as) → I s e →
      I s' (as.foldl (fun e a => act q a e) e))
    (h : I cs e) : I (exec m act breaks p xs cs e).cs (exec m act breaks p xs cs e).env := by
  induction xs generalizing p cs e with
  | nil => exact h
  | cons b xs ih =>
    simp only [exec]
    split
    · exact h
    · next cs' as hsome =>
      split_ifs
      · exact hstep hsome h
      · exact ih (hstep hsome h)

/-- What every action keeps is kept by a run. -/
theorem exec_keeps {P : σ → Prop} (hact : ∀ q a e, P e → P (act q a e)) (h : P e) :
    P (exec m act breaks p xs cs e).env :=
  exec_invariant (I := fun _ => P)
    (fun _ he => List.foldlRecOn _ _ he fun e he a _ => hact _ a e he) h

theorem exec_append_keeps {P : σ → Prop} (hact : ∀ q a e, P e → P (act q a e))
    (h : P (exec m act breaks p xs cs e).env) : P (exec m act breaks p (xs ++ ys) cs e).env := by
  by_cases hstop : (exec m act breaks p xs cs e).stop = .out
  · rw [exec_append_out hstop]
    exact exec_keeps hact h
  · rw [exec_append_stop hstop]
    exact h

/-- Where final states are only entered with a break, a run that ends in one has broken. -/
theorem exec_final_broke
    (hfinal : ∀ {s b s' as}, m.next s b = some (s', as) → m.final s' = true →
      as.any breaks = true)
    (hcs : m.final cs = false) (h : m.final (exec m act breaks p xs cs e).cs = true) :
    (exec m act breaks p xs cs e).stop = .broke := by
  induction xs generalizing p cs e with
  | nil => exact absurd (hcs.symm.trans h) (by decide)
  | cons b xs ih =>
    simp only [exec] at h ⊢
    split
    · next hnone =>
      simp only [hnone] at h
      exact absurd (hcs.symm.trans h) (by decide)
    · next cs' as hsome =>
      simp only [hsome] at h
      split_ifs at h ⊢ with hbreak
      · rfl
      · exact ih (Bool.eq_false_iff.2 fun hcon => hbreak (hfinal hsome hcon)) h

/-- Where a break enters a final state, a run that breaks ends in one. -/
theorem exec_broke_final
    (hfinal : ∀ {s b s' as}, m.next s b = some (s', as) → as.any breaks = true →
      m.final s' = true)
    (h : (exec m act breaks p xs cs e).stop = .broke) :
    m.final (exec m act breaks p xs cs e).cs = true := by
  induction xs generalizing p cs e with
  | nil => simp [exec] at h
  | cons b xs ih =>
    simp only [exec] at h ⊢
    split
    · next hnone => simp [hnone] at h
    · next cs' as hsome =>
      simp only [hsome] at h
      split_ifs at h ⊢ with hbreak
      · exact hfinal hsome hbreak
      · exact ih h

/-- The action `a` stands on a transition over the byte `b`. -/
def Emits (m : Scanner α) (b : UInt8) (a : α) : Prop :=
  ∃ s s' as, m.next s b = some (s', as) ∧ a ∈ as

/-- Runs over the same bytes, `c` positions apart, on environments related at the position. -/
structure Rel (R : ℕ → σ → τ → Prop) (c : ℕ) (h : Halt α σ m) (h' : Halt α τ m) : Prop where
  cs_eq : h'.cs = h.cs
  pos_eq : h'.pos = c + h.pos
  stop_eq : h'.stop = h.stop
  env : R h.pos h.env h'.env

/-- Two runs stay related when each action keeps the relation at its position and the relation is
kept from a position to the next. -/
theorem exec_rel {R : ℕ → σ → τ → Prop} {act' : ℕ → α → τ → τ} {e' : τ} (c : ℕ)
    (hact : ∀ q b a e e', p ≤ q → xs[q - p]? = some b → Emits m b a → R q e e' →
      R q (act q a e) (act' (c + q) a e'))
    (hnext : ∀ q e e', R q e e' → R (q + 1) e e')
    (h : R p e e') :
    Rel R c (exec m act breaks p xs cs e) (exec m act' breaks (c + p) xs cs e') := by
  induction xs generalizing p cs e e' with
  | nil => exact ⟨rfl, rfl, rfl, h⟩
  | cons b xs ih =>
    simp only [exec]
    split
    · exact ⟨rfl, rfl, rfl, h⟩
    · next cs' as hsome =>
      have hfold : R p (as.foldl (fun e a => act p a e) e)
          (as.foldl (fun e a => act' (c + p) a e) e') :=
        List.foldl_rel h fun a ha e e' =>
          hact p b a e e' le_rfl (by rw [Nat.sub_self]; rfl) ⟨cs, cs', as, hsome, ha⟩
      split_ifs
      · exact ⟨rfl, rfl, rfl, hnext _ _ _ hfold⟩
      · refine ih (fun q b a e e' hle hget => hact q b a e e' (by omega) ?_) (hnext _ _ _ hfold)
        rw [show q - p = (q - (p + 1)) + 1 by omega]
        exact hget

/-- A run on a pair of environments is the pair of the runs. -/
theorem exec_prod (act : ℕ → α → σ → σ) (act' : ℕ → α → τ → τ) (e : σ) (e' : τ) :
    exec m (fun q a (d : σ × τ) => (act q a d.1, act' q a d.2)) breaks p xs cs (e, e') =
      ⟨(exec m act breaks p xs cs e).cs,
        ((exec m act breaks p xs cs e).env, (exec m act' breaks p xs cs e').env),
        (exec m act breaks p xs cs e).pos, (exec m act breaks p xs cs e).stop⟩ := by
  induction xs generalizing p cs e e' with
  | nil => rfl
  | cons b xs ih =>
    simp only [exec]
    split
    · rfl
    · next cs' as hsome =>
      have hfold : as.foldl (fun (d : σ × τ) a => (act p a d.1, act' p a d.2)) (e, e') =
          (as.foldl (fun e a => act p a e) e, as.foldl (fun e a => act' p a e) e') :=
        List.foldl_hom₂ as Prod.mk _ _ _ e e' fun _ _ _ => rfl
      split_ifs
      · rw [hfold]
      · rw [hfold, ih]

/-- Two runs with a ghost beside the first one: they stay related as long as the ghost is not spoilt,
and a spoilt ghost stays so. -/
theorem exec_ghost {γ : Type} {R : ℕ → σ → γ → τ → Prop} {act' : ℕ → α → τ → τ} {e' : τ} {g : γ}
    (c : ℕ) (note : α → γ → γ) (spoilt : γ → Bool)
    (hspoilt : ∀ a g, spoilt (note a g) = false → spoilt g = false)
    (hact : ∀ q b a e g e', p ≤ q → xs[q - p]? = some b → Emits m b a → R q e g e' →
      spoilt (note a g) = false → R q (act q a e) (note a g) (act' (c + q) a e'))
    (hnext : ∀ q e g e', R q e g e' → R (q + 1) e g e') (h : R p e g e')
    (hok : spoilt (exec m (fun _ a g => note a g) breaks p xs cs g).env = false) :
    ∃ g', Rel (fun q e e' => R q e g' e') c (exec m act breaks p xs cs e)
      (exec m act' breaks (c + p) xs cs e') := by
  have hrel : Rel (fun q (d : σ × γ) e' => spoilt d.2 = false → R q d.1 d.2 e') c
      (exec m (fun q a (d : σ × γ) => (act q a d.1, note a d.2)) breaks p xs cs (e, g))
      (exec m act' breaks (c + p) xs cs e') := by
    refine exec_rel c ?_ (fun q d e' hd hg => hnext _ _ _ _ (hd hg)) fun _ => h
    intro q b a d e' hle hb hemit hd hg
    exact hact q b a d.1 d.2 e' hle hb hemit (hd (hspoilt a d.2 hg)) hg
  rw [exec_prod act (fun _ a (g : γ) => note a g)] at hrel
  exact ⟨_, hrel.cs_eq, hrel.pos_eq, hrel.stop_eq, hrel.env hok⟩

end

end Scan
