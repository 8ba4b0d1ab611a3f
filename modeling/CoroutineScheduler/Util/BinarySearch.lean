import Mathlib.Tactic
import Mathlib.Data.List.OfFn

/-!
# Binary search

`BinarySearch` of `util.h`, with a check for each sum and each read: a sum that is no `int`, and a
read outside of the array, end it with an error.

The interval of the search moves to the right for as long as it ends at the last element: behind `j`
such turns it begins at `length - length / 2 ^ j`. Once it ends in front of a midpoint below `2 ^ 30`,
no sum is too large any more (`binarySearchLoop_correct`). So the sum `begin + end` overflows exactly
in the searches that turn right until the next midpoint is `2 ^ 30` or more
(`binarySearch_correct_iff`).
-/

namespace CoroutineScheduler.Util

/-! ## The function -/

/-- How a search goes wrong. -/
inductive SearchError
  /-- a sum is no `int` -/
  | overflow
  /-- `arr[m]` is no element -/
  | outside
  deriving DecidableEq, Repr

/-- The values of an `int`. -/
def IsInt (x : ℤ) : Prop := -2 ^ 31 ≤ x ∧ x < 2 ^ 31

instance : DecidablePred IsInt := fun x => by unfold IsInt; infer_instance

/-- `(begin + end) / 2`, once the sum is known. -/
def midpoint (first last : ℤ) : ℤ := (first + last).tdiv 2

theorem midpoint_bounds (first last : ℤ) :
    first + last - 1 ≤ 2 * midpoint first last ∧ 2 * midpoint first last ≤ first + last + 1 := by
  have hs : Int.sign 2 = 1 := rfl
  rw [midpoint, Int.tdiv_eq_ediv]
  split_ifs <;> omega

theorem midpoint_eq {first last : ℤ} (h : 0 ≤ first + last) :
    midpoint first last = (first + last) / 2 :=
  Int.tdiv_eq_ediv_of_nonneg h

section
variable {α : Type*} [LT α] [DecidableLT α] {length : ℕ}

/-- The loop, from the values of `begin` and `end`. -/
def binarySearchLoop (arr : Fin length → α) (v : α) (first last : ℤ) : Except SearchError ℤ :=
  if hle : first ≤ last then
    if IsInt (first + last) then
      if hm : 0 ≤ midpoint first last ∧ midpoint first last < length then
        if v < arr ⟨(midpoint first last).toNat, by omega⟩ then
          if IsInt (midpoint first last - 1) then
            binarySearchLoop arr v first (midpoint first last - 1)
          else .error .overflow
        else if arr ⟨(midpoint first last).toNat, by omega⟩ < v then
          if IsInt (midpoint first last + 1) then
            binarySearchLoop arr v (midpoint first last + 1) last
          else .error .overflow
        else .ok (midpoint first last)
      else .error .outside
    else .error .overflow
  else if IsInt (-first) ∧ IsInt (-first - 1) then .ok (-first - 1)
  else .error .overflow
termination_by (last + 1 - first).toNat
decreasing_by
  all_goals
    have hmid := midpoint_bounds first last
    omega

/-- `BinarySearch`. -/
def binarySearch (arr : Fin length → α) (v : α) : Except SearchError ℤ :=
  binarySearchLoop arr v 0 (length - 1)

end

/-! ## What it should return -/

section
variable {α : Type*} [Preorder α] {length : ℕ}

/-- Neither is less than the other. -/
def Equivalent (a b : α) : Prop := ¬a < b ∧ ¬b < a

/-- The array with `v` put in at `i`. -/
def inserted (arr : Fin length → α) (v : α) (i : ℕ) : List α :=
  (List.ofFn arr).take i ++ v :: (List.ofFn arr).drop i

/-- The place of an element that is equivalent to `v`, or `-(i + 1)` when there is none, where `i` is
a place for `v` that keeps the array sorted. -/
def SearchResult (arr : Fin length → α) (v : α) : Except SearchError ℤ → Prop
  | .ok r =>
    (∃ m : Fin length, r = m ∧ Equivalent (arr m) v) ∨
      ((∀ m, ¬Equivalent (arr m) v) ∧
        ∃ i ≤ length, r = -((i : ℤ) + 1) ∧ (inserted arr v i).Pairwise (· ≤ ·))
  | .error _ => False

/-- Wherever the search would go on to a midpoint of `2 ^ 30` or more, behind `j` turns to the right,
not all elements in front of the interval are less than `v`. -/
def StaysLow (arr : Fin length → α) (v : α) : Prop :=
  ∀ j, 2 ^ 30 < length - length / 2 ^ (j + 1) →
    ∃ i : Fin length, (i : ℕ) < length - length / 2 ^ j ∧ ¬arr i < v

/-! ## The interval -/

/-- What the loop knows of the elements outside of its interval. -/
structure Bracket (arr : Fin length → α) (v : α) (first last : ℤ) : Prop where
  nonneg : 0 ≤ first
  le : first ≤ last + 1
  lt : last < length
  below : ∀ i : Fin length, (i : ℤ) < first → arr i < v
  above : ∀ i : Fin length, last < (i : ℤ) → v < arr i

variable {arr : Fin length → α} {v : α} {first last : ℤ} {m : Fin length}

theorem Bracket.start (arr : Fin length → α) (v : α) : Bracket arr v 0 (length - 1) where
  nonneg := le_rfl
  le := by omega
  lt := by omega
  below i hi := by omega
  above i hi := by omega

/-- The midpoint is greater than `v`, and with it all that is behind it. -/
theorem Bracket.left (h : Bracket arr v first last) (harr : Monotone arr) (hm : first ≤ m)
    (hv : v < arr m) : Bracket arr v first (m - 1) where
  nonneg := h.nonneg
  le := by omega
  lt := by omega
  below := h.below
  above i hi := hv.trans_le (harr (Fin.le_def.2 (by omega)))

/-- The midpoint is less than `v`, and with it all that is in front of it. -/
theorem Bracket.right (h : Bracket arr v first last) (harr : Monotone arr) (hm : (m : ℤ) ≤ last)
    (hv : arr m < v) : Bracket arr v (m + 1) last where
  nonneg := by have := h.nonneg; omega
  le := by omega
  lt := h.lt
  below i hi := (harr (Fin.le_def.2 (by omega))).trans_lt hv
  above := h.above

/-- A list that is sorted stays sorted when `v` is put in behind what is not greater and in front of
what is not less. -/
theorem pairwise_inserted (harr : Monotone arr) {i : ℕ} (hbelow : ∀ k : Fin length, (k : ℕ) < i → arr k ≤ v)
    (habove : ∀ k : Fin length, i ≤ (k : ℕ) → v ≤ arr k) :
    (inserted arr v i).Pairwise (· ≤ ·) := by
  have hsorted : (List.ofFn arr).Pairwise (· ≤ ·) :=
    List.pairwise_ofFn.2 fun _ _ hij => harr hij.le
  have htake : ∀ a ∈ (List.ofFn arr).take i, a ≤ v := by
    intro a ha
    obtain ⟨k, hk, rfl⟩ := List.mem_take_iff_getElem.1 ha
    rw [List.getElem_ofFn]
    exact hbelow _ (lt_of_lt_of_le hk (min_le_left _ _))
  have hdrop : ∀ a ∈ (List.ofFn arr).drop i, v ≤ a := by
    intro a ha
    obtain ⟨k, hk, rfl⟩ := List.mem_drop_iff_getElem.1 ha
    rw [List.getElem_ofFn]
    exact habove _ (Nat.le_add_right i k)
  refine List.pairwise_append.2 ⟨hsorted.take, List.pairwise_cons.2 ⟨hdrop, hsorted.drop⟩, ?_⟩
  intro a ha b hb
  rcases List.mem_cons.1 hb with rfl | hb
  · exact htake a ha
  · exact (htake a ha).trans (hdrop b hb)

/-- An empty interval is at the place for `v`. -/
theorem Bracket.miss (h : Bracket arr v first last) (harr : Monotone arr) (hlt : last < first) :
    SearchResult arr v (.ok (-first - 1)) := by
  obtain ⟨i, rfl⟩ := Int.eq_ofNat_of_zero_le h.nonneg
  have hle := h.le
  have hlast := h.lt
  refine Or.inr ⟨fun m hm => ?_, i, by omega, by omega, ?_⟩
  · rcases lt_or_ge (m : ℕ) i with hmi | hmi
    · exact hm.1 (h.below m (by omega))
    · exact hm.2 (h.above m (by omega))
  · apply pairwise_inserted harr
    · intro k hk
      exact (h.below k (by omega)).le
    · intro k hk
      exact (h.above k (by omega)).le

/-! ## The loop -/

/-- An array of up to `2 ^ 30` elements has no midpoint from there on. -/
theorem staysLow_of_length_le (h : length ≤ 2 ^ 30) (arr : Fin length → α) (v : α) :
    StaysLow arr v :=
  fun _ hlarge => absurd (hlarge.trans_le (Nat.sub_le ..)) (not_lt.2 h)

variable [DecidableLT α]

theorem binarySearchLoop_empty (hfirst : 0 ≤ first) (hint : first < 2 ^ 31) (hlt : last < first) :
    binarySearchLoop arr v first last = .ok (-first - 1) := by
  rw [binarySearchLoop, dif_neg (by omega), if_pos ⟨⟨by omega, by omega⟩, by omega, by omega⟩]

theorem binarySearchLoop_overflow (hle : first ≤ last) (hint : 2 ^ 31 ≤ first + last) :
    binarySearchLoop arr v first last = .error .overflow := by
  rw [binarySearchLoop, dif_pos hle, if_neg fun h => absurd h.2 (by omega)]

/-- A round whose sum is an `int`. -/
theorem binarySearchLoop_step (hlength : length < 2 ^ 31) (hle : first ≤ last)
    (hfirst : 0 ≤ first) (hint : first + last < 2 ^ 31) (hm : (m : ℤ) = (first + last) / 2) :
    binarySearchLoop arr v first last =
      if v < arr m then binarySearchLoop arr v first (m - 1)
      else if arr m < v then binarySearchLoop arr v (m + 1) last
      else .ok m := by
  have hmid : midpoint first last = m := (midpoint_eq (add_nonneg hfirst (hfirst.trans hle))).trans hm.symm
  have hlt := m.isLt
  have hread : (⟨(midpoint first last).toNat, by omega⟩ : Fin length) = m := by
    apply Fin.ext
    show (midpoint first last).toNat = m
    omega
  have hleft : IsInt (midpoint first last - 1) := ⟨by omega, by omega⟩
  have hright : IsInt (midpoint first last + 1) := ⟨by omega, by omega⟩
  rw [binarySearchLoop, dif_pos hle, if_pos ⟨by omega, hint⟩, dif_pos (by omega), hread,
    if_pos hleft, if_pos hright, hmid]

/-- With an end below `2 ^ 30` no sum is too large. -/
theorem binarySearchLoop_correct (hlength : length < 2 ^ 31) (harr : Monotone arr)
    (h : Bracket arr v first last) (hlast : last < 2 ^ 30) :
    SearchResult arr v (binarySearchLoop arr v first last) := by
  induction hn : (last + 1 - first).toNat using Nat.strong_induction_on generalizing first last with
  | h n ih =>
    have hfirst := h.nonneg
    have hle := h.le
    have hlt := h.lt
    by_cases hempty : last < first
    · rw [binarySearchLoop_empty hfirst (by omega) hempty]
      exact h.miss harr hempty
    · obtain ⟨k, hk⟩ := Int.eq_ofNat_of_zero_le (show 0 ≤ (first + last) / 2 by omega)
      let m : Fin length := ⟨k, by omega⟩
      have hm : (m : ℤ) = (first + last) / 2 := hk.symm
      rw [binarySearchLoop_step hlength (not_lt.1 hempty) hfirst (by omega) hm]
      split_ifs with hv hv'
      · exact ih _ (by omega) (h.left harr (by omega) hv) (by omega) rfl
      · exact ih _ (by omega) (h.right harr (by omega) hv') hlast rfl
      · exact Or.inl ⟨m, rfl, hv', hv⟩

/-- The loop behind `j` turns to the right. -/
theorem binarySearchLoop_correct_iff (hlength : length < 2 ^ 31) (harr : Monotone arr) {j : ℕ}
    (h : Bracket arr v (length - length / 2 ^ j : ℕ) (length - 1))
    (hlow : length - length / 2 ^ j ≤ 2 ^ 30) :
    SearchResult arr v (binarySearchLoop arr v (length - length / 2 ^ j : ℕ) (length - 1)) ↔
      ∀ k ≥ j, 2 ^ 30 < length - length / 2 ^ (k + 1) →
        ∃ i : Fin length, (i : ℕ) < length - length / 2 ^ k ∧ ¬arr i < v := by
  induction hn : length / 2 ^ j using Nat.strong_induction_on generalizing j with
  | h n ih =>
    subst hn
    have hle : length / 2 ^ j ≤ length := Nat.div_le_self ..
    have hhalf : length / 2 ^ (j + 1) = length / 2 ^ j / 2 := by rw [pow_succ, Nat.div_div_eq_div_mul]
    rcases Nat.eq_zero_or_pos (length / 2 ^ j) with h0 | hpos
    · -- the interval is empty, and the array is short
      refine iff_of_true ?_ fun k _ hk => absurd (hk.trans_le (Nat.sub_le ..)) (by omega)
      rw [binarySearchLoop_empty (by omega) (by omega) (by omega)]
      exact h.miss harr (by omega)
    by_cases hover : 2 ^ 30 < length - length / 2 ^ (j + 1)
    · refine iff_of_false ?_ fun hall => ?_
      · rw [binarySearchLoop_overflow (by omega) (by omega)]
        exact id
      · obtain ⟨i, hi, hiv⟩ := hall j le_rfl hover
        exact hiv (h.below i (by omega))
    let m : Fin length := ⟨length - length / 2 ^ (j + 1) - 1, by omega⟩
    have hm : ((m : ℕ) : ℤ) = ((length - length / 2 ^ j : ℕ) + (length - 1 : ℤ)) / 2 := by
      show ((length - length / 2 ^ (j + 1) - 1 : ℕ) : ℤ) = _
      omega
    -- an element at the midpoint that is not less than `v` is in front of all later turns
    have hlater : ¬arr m < v → ∀ k ≥ j, 2 ^ 30 < length - length / 2 ^ (k + 1) →
        ∃ i : Fin length, (i : ℕ) < length - length / 2 ^ k ∧ ¬arr i < v := by
      intro hv k hk hlarge
      have hne : k ≠ j := by
        rintro rfl
        exact hover hlarge
      have hmono : length / 2 ^ k ≤ length / 2 ^ (j + 1) :=
        Nat.div_le_div_left (Nat.pow_le_pow_right two_pos (by omega)) (by positivity)
      refine ⟨m, ?_, hv⟩
      show length - length / 2 ^ (j + 1) - 1 < _
      omega
    rw [binarySearchLoop_step hlength (by omega) (by omega) (by omega) hm]
    split_ifs with hv hv'
    · refine iff_of_true ?_ (hlater hv.not_gt)
      exact binarySearchLoop_correct hlength harr (h.left harr (by omega) hv) (by omega)
    · have hturn : ((m : ℕ) : ℤ) + 1 = (length - length / 2 ^ (j + 1) : ℕ) := by
        show ((length - length / 2 ^ (j + 1) - 1 : ℕ) : ℤ) + 1 = _
        omega
      have hright := h.right harr (by omega) hv'
      rw [hturn] at hright ⊢
      rw [ih _ (by omega) hright (by omega) rfl]
      refine ⟨fun hall k hk hlarge => ?_, fun hall k hk => hall k (by omega)⟩
      rcases Nat.eq_or_lt_of_le hk with rfl | hk
      · exact absurd hlarge hover
      · exact hall k hk hlarge
    · exact iff_of_true (Or.inl ⟨m, rfl, hv', hv⟩) (hlater hv')

/-- The whole search. -/
theorem binarySearch_correct_iff_forall (hlength : length < 2 ^ 31) (harr : Monotone arr) (v : α) :
    SearchResult arr v (binarySearch arr v) ↔
      ∀ k ≥ 0, 2 ^ 30 < length - length / 2 ^ (k + 1) →
        ∃ i : Fin length, (i : ℕ) < length - length / 2 ^ k ∧ ¬arr i < v := by
  have h0 : length - length / 2 ^ 0 = 0 := by rw [pow_zero, Nat.div_one, Nat.sub_self]
  have h := binarySearchLoop_correct_iff (j := 0) (v := v) hlength harr
    (by rw [h0]; exact Bracket.start arr v) (by omega)
  rw [h0] at h
  exact h

/-- **Binary search.** For every sorted array and every `v` the search returns what it should,
without an overflow and a read outside of the array, exactly when it stays low. -/
theorem binarySearch_correct_iff (hlength : length < 2 ^ 31) (harr : Monotone arr) (v : α) :
    SearchResult arr v (binarySearch arr v) ↔ StaysLow arr v := by
  rw [binarySearch_correct_iff_forall hlength harr v]
  exact ⟨fun h k => h k (Nat.zero_le k), fun h k _ => h k⟩

/-- A value that is not there. -/
theorem binarySearch_correct_three : SearchResult ![2, 4, 6] 5 (binarySearch ![2, 4, 6] 5) :=
  (binarySearch_correct_iff (by decide) (by unfold Monotone; decide) 5).2
    (staysLow_of_length_le (by decide) _ _)

/-- `2 ^ 30 + 1` elements, all less than `v`: in the last round `begin` and `end` are both `2 ^ 30`. -/
theorem not_binarySearch_correct : ¬∀ (length : ℕ) (arr : Fin length → ℤ), length < 2 ^ 31 →
    Monotone arr → ∀ v, SearchResult arr v (binarySearch arr v) := by
  intro h
  have hresult := h (2 ^ 30 + 1) (fun _ => 0) (by norm_num) monotone_const 1
  rw [binarySearch_correct_iff_forall (by norm_num) monotone_const] at hresult
  obtain ⟨i, -, hi⟩ := hresult 30 (Nat.zero_le _) (by norm_num)
  exact hi one_pos

end

end CoroutineScheduler.Util
