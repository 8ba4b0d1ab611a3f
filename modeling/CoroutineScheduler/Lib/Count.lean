import Mathlib.Algebra.BigOperators.Ring.Finset
import Mathlib.Algebra.BigOperators.Group.Finset.Basic
import Mathlib.Algebra.Order.BigOperators.Group.Finset
import Mathlib.Data.Fintype.Basic
import Mathlib.Tactic.Ring

/-!
# Counting the components of a family

`tally p f` is the number of indices `i` at which `p (f i)` holds, as an integer, and `total g f` the
sum of the values `g (f i)`. A step of a concurrent program changes one component of the family;
`tally_update` and `total_update` say what that does to the count and the sum.
-/

namespace Count

variable {ι β : Type*} [Fintype ι]

/-- The number of indices whose component satisfies `p`. -/
def tally (p : β → Bool) (f : ι → β) : ℤ := ∑ i, (p (f i)).toNat

theorem tally_nonneg (p : β → Bool) (f : ι → β) : 0 ≤ tally p f :=
  Finset.sum_nonneg fun _ _ => Int.natCast_nonneg _

theorem tally_eq_card (p : β → Bool) (f : ι → β) :
    tally p f = (Finset.univ.filter fun i => p (f i) = true).card := by
  rw [Finset.card_filter, tally, Nat.cast_sum]
  refine Finset.sum_congr rfl fun i _ => ?_
  cases p (f i) <;> rfl

/-- The sum of the values of the components. -/
def total (g : β → ℤ) (f : ι → β) : ℤ := ∑ i, g (f i)

theorem total_update [DecidableEq ι] (g : β → ℤ) (f : ι → β) (i : ι) (b : β) :
    total g (Function.update f i b) = total g f - g (f i) + g b := by
  have h1 : total g (Function.update f i b) = g b + ∑ j ∈ Finset.univ.erase i, g (f j) := by
    rw [total, ← Finset.add_sum_erase _ _ (Finset.mem_univ i), Function.update_self]
    congr 1
    refine Finset.sum_congr rfl fun j hj => ?_
    rw [Function.update_of_ne (Finset.ne_of_mem_erase hj)]
  have h2 : total g f = g (f i) + ∑ j ∈ Finset.univ.erase i, g (f j) := by
    rw [total, ← Finset.add_sum_erase _ _ (Finset.mem_univ i)]
  rw [h1, h2]
  ring

/-- No component has more than all of them. -/
theorem le_total {g : β → ℤ} (hg : ∀ b, 0 ≤ g b) (f : ι → β) (i : ι) : g (f i) ≤ total g f :=
  Finset.single_le_sum (fun j _ => hg (f j)) (Finset.mem_univ i)

theorem tally_update [DecidableEq ι] (p : β → Bool) (f : ι → β) (i : ι) (b : β) :
    tally p (Function.update f i b) = tally p f - (p (f i)).toNat + (p b).toNat :=
  total_update (fun b => ((p b).toNat : ℤ)) f i b

theorem tally_eq_zero_iff (p : β → Bool) (f : ι → β) : tally p f = 0 ↔ ∀ i, p (f i) = false := by
  rw [tally, Finset.sum_eq_zero_iff_of_nonneg fun _ _ => Int.natCast_nonneg _]
  refine ⟨fun h i => ?_, fun h i _ => by rw [h i]; rfl⟩
  have := h i (Finset.mem_univ i)
  cases hp : p (f i)
  · rfl
  · rw [hp] at this
    exact absurd this (by decide)

/-- A component that satisfies `p` is counted. -/
theorem one_le_tally {p : β → Bool} {f : ι → β} {i : ι} (h : p (f i) = true) : 1 ≤ tally p f := by
  rcases (tally_nonneg p f).eq_or_lt with h0 | h0
  · rw [(tally_eq_zero_iff p f).1 h0.symm i] at h
    exact absurd h (by decide)
  · exact h0

/-- Two components that satisfy `p` are counted twice. -/
theorem eq_of_tally_le_one {p : β → Bool} {f : ι → β} (h : tally p f ≤ 1) {i j : ι}
    (hi : p (f i) = true) (hj : p (f j) = true) : i = j := by
  rw [tally_eq_card] at h
  have hc : (Finset.univ.filter fun i => p (f i) = true).card ≤ 1 := by exact_mod_cast h
  exact Finset.card_le_one.1 hc i (by simp [hi]) j (by simp [hj])

end Count
