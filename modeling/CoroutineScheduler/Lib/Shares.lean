import Mathlib.Algebra.BigOperators.Group.List.Basic
import Mathlib.Algebra.Order.BigOperators.Group.List
import Mathlib.Data.Nat.Periodic
import Mathlib.Order.Interval.Finset.Nat
import Mathlib.Tactic

/-!
# Shares in proportion to weights

The running totals of a list of weights cut the numbers below the total into intervals, one for each
weight and as long as it. `place w d` is the interval of `d`, found as the first running total above
`d`.

1. `place_eq_iff`: which numbers have a place.
2. `card_place`: how many numbers below the total have it.
3. `card_place_mod`: how many have it among as many successive numbers as the total, wherever they
   begin, when each is taken modulo the total.
-/

namespace Shares

variable {M : Type*}

section
variable [AddCommMonoid M] {a x : M} {w : List M}

/-- The running totals of `w`, begun at `a`. -/
def sums (a : M) : List M → List M
  | [] => []
  | x :: w => (a + x) :: sums (a + x) w

@[simp] theorem length_sums : (sums a w).length = w.length := by
  induction w generalizing a with
  | nil => rfl
  | cons x w ih => exact congrArg (· + 1) ih

theorem sums_eq_map : sums a w = (List.range w.length).map fun i => a + (w.take (i + 1)).sum := by
  induction w generalizing a with
  | nil => rfl
  | cons x w ih =>
    rw [sums, ih, List.length_cons, List.range_succ_eq_map, List.map_cons, List.map_map]
    refine congrArg₂ _ (by simp) (List.map_congr_left fun i _ => ?_)
    simp [add_assoc]

theorem getLast?_sums (h : w ≠ []) : (sums a w).getLast? = some (a + w.sum) := by
  induction w generalizing a with
  | nil => exact absurd rfl h
  | cons x w ih =>
    rcases eq_or_ne w [] with rfl | hw
    · simp [sums]
    · rw [sums, List.getLast?_cons, ih hw, List.sum_cons, add_assoc]
      rfl

end

section
variable [AddCommMonoid M] [LinearOrder M] [IsOrderedCancelAddMonoid M] {a d : M} {w : List M} {i : ℕ}

theorem sums_pairwise (h : ∀ x ∈ w, 0 < x) : (sums a w).Pairwise (· < ·) ∧ ∀ s ∈ sums a w, a < s := by
  induction w generalizing a with
  | nil => exact ⟨List.Pairwise.nil, nofun⟩
  | cons x w ih =>
    obtain ⟨hx, hw⟩ := List.forall_mem_cons.1 h
    obtain ⟨hpair, hgt⟩ := ih (a := a + x) hw
    have hax : a < a + x := lt_add_of_pos_right a hx
    refine ⟨List.pairwise_cons.2 ⟨hgt, hpair⟩, ?_⟩
    intro s hs
    rcases List.mem_cons.1 hs with rfl | hs
    · exact hax
    · exact hax.trans (hgt s hs)

/-- The first running total above `d`. -/
def place (w : List M) (d : M) : ℕ := (sums 0 w).findIdx (d < ·)

theorem findIdx_sums (hw : ∀ x ∈ w, 0 ≤ x) (hd : a ≤ d) (hi : i < w.length) :
    (sums a w).findIdx (d < ·) = i ↔ a + (w.take i).sum ≤ d ∧ d < a + (w.take (i + 1)).sum := by
  induction w generalizing a i with
  | nil => exact absurd hi (Nat.not_lt_zero i)
  | cons x w ih =>
    obtain ⟨hx, hw⟩ := List.forall_mem_cons.1 hw
    rw [sums, List.findIdx_cons]
    cases i with
    | zero =>
      by_cases hlt : d < a + x
      · simp [hlt, hd]
      · simp [hlt]
    | succ i =>
      rw [List.take_succ_cons, List.take_succ_cons, List.sum_cons, List.sum_cons, ← add_assoc,
        ← add_assoc]
      by_cases hlt : d < a + x
      · have hsum : 0 ≤ (w.take i).sum := List.sum_nonneg fun y hy => hw y (List.mem_of_mem_take hy)
        have hle : a + x ≤ a + x + (w.take i).sum := le_add_of_nonneg_right hsum
        have hgt : d < a + x + (w.take i).sum := hlt.trans_le hle
        simp [hlt, hgt]
      · have hrest := ih (a := a + x) (i := i) hw (not_lt.1 hlt) (Nat.lt_of_succ_lt_succ hi)
        simpa [hlt] using hrest

/-- The numbers with a place are those between two running totals. -/
theorem place_eq_iff (hw : ∀ x ∈ w, 0 ≤ x) (hd : 0 ≤ d) (hi : i < w.length) :
    place w d = i ↔ (w.take i).sum ≤ d ∧ d < (w.take (i + 1)).sum := by
  have h := findIdx_sums hw hd hi
  rwa [zero_add, zero_add] at h

omit [IsOrderedCancelAddMonoid M] in
theorem place_lt (hw : w ≠ []) (hd : d < w.sum) : place w d < w.length := by
  rw [place, ← length_sums (a := 0), List.findIdx_lt_length]
  have hlast := getLast?_sums (a := (0 : M)) hw
  rw [zero_add] at hlast
  exact ⟨w.sum, List.mem_of_getLast? hlast, by simpa using hd⟩

end

/-! ## Natural weights -/

variable {w : List ℕ} {i : ℕ}

/-- As many numbers below the total have a place as its weight says. -/
theorem card_place (hi : i < w.length) :
    ((Finset.range w.sum).filter fun d => place w d = i).card = w[i] := by
  have hset : ((Finset.range w.sum).filter fun d => place w d = i) =
      Finset.Ico (w.take i).sum (w.take (i + 1)).sum := by
    ext d
    have htake : (w.take (i + 1)).sum ≤ w.sum := by
      rw [← List.sum_take_add_sum_drop w (i + 1)]
      exact Nat.le_add_right _ _
    rw [Finset.mem_filter, Finset.mem_range, Finset.mem_Ico,
      place_eq_iff (fun _ _ => Nat.zero_le _) (Nat.zero_le d) hi]
    exact ⟨fun h => h.2, fun h => ⟨h.2.trans_le htake, h⟩⟩
  rw [hset, Nat.card_Ico, List.sum_take_succ w i hi, Nat.add_sub_cancel_left]

/-- The same for any successive numbers, as many as the total. -/
theorem card_place_mod (a : ℕ) (hi : i < w.length) :
    ((Finset.Ico a (a + w.sum)).filter fun v => place w (v % w.sum) = i).card = w[i] := by
  have hperiod : Function.Periodic (fun v => place w (v % w.sum) = i) w.sum := by
    intro v
    simp only [Nat.add_mod_right]
  rw [Nat.filter_Ico_card_eq_of_periodic _ _ _ hperiod, Nat.count_eq_card_filter_range,
    ← card_place hi]
  congr 1
  refine Finset.filter_congr fun d hd => ?_
  rw [Nat.mod_eq_of_lt (Finset.mem_range.1 hd)]

end Shares
