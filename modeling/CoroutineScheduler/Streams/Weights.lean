import CoroutineScheduler.Lib.Shares
import CoroutineScheduler.Streams.LoadBalance

/-!
# Selection by weight

`WeightLoadBalance::initNolock` and `getIdx`. An `int64_t` is an integer here, with a check for the
sum; `total` and the elements of `m_weights` meet `v` as `uint64_t`, and the place that is found goes
through the `int32_t` that `getIdx` returns.

`getIdx_eq`: the place of `v` modulo the total among the shares of the weights, as an `int32_t`.
`getIdx_proportional`: selection is proportional for up to `2 ^ 31` items.
-/

namespace CoroutineScheduler.Streams

open Shares

/-! ## The functions -/

/-- What `WeightLoadBalance` has in addition to `LoadBalance`. -/
structure WeightLoadBalance where
  items : List LoadBalanceItem
  weights : List ℤ

/-- The loop of `initNolock`; `none` when `total` overflows. -/
def weightsLoop (total : ℤ) : List Int32 → Option (List ℤ)
  | [] => some []
  | w :: ws =>
    if -2 ^ 63 ≤ total + w.toInt ∧ total + w.toInt < 2 ^ 63 then
      (weightsLoop (total + w.toInt) ws).map ((total + w.toInt) :: ·)
    else none

/-- `initNolock`, for the items of `m_datas` in their order. -/
def initNolock (isValid : LoadBalanceItem → Bool) (getWeight : LoadBalanceItem → Int32)
    (datas : List LoadBalanceItem) : Option WeightLoadBalance :=
  (weightsLoop 0 ((datas.filter isValid).map getWeight)).map fun weights =>
    ⟨datas.filter isValid, weights⟩

/-- `(uint64_t)x`. -/
def toUInt64 (x : ℤ) : ℕ := (x % 2 ^ 64).toNat

/-- `(int32_t)x`. -/
def toInt32 (x : ℕ) : ℤ := Int.bmod x (2 ^ 32)

/-- `std::upper_bound`: the first element that is greater. -/
def upperBound (weights : List ℤ) (dis : ℕ) : ℕ := weights.findIdx fun w => dis < toUInt64 w

/-- `getIdx`; `none` when the total is zero and for a failed assertion. -/
def WeightLoadBalance.getIdx (lb : WeightLoadBalance) (rand v : ℕ) : Option ℤ :=
  match lb.weights.getLast? with
  | none => some (-1)
  | some total =>
    if toUInt64 total = 0 then none
    else
      let dis := (if v = 2 ^ 64 - 1 then rand else v) % toUInt64 total
      let it := upperBound lb.weights dis
      if it = lb.weights.length then none else some (toInt32 it)

/-! ## What it should do -/

/-- The weights as natural numbers. -/
def naturals (ws : List Int32) : List ℕ := ws.map Int32.toNatClampNeg

/-- `m_weights` is strictly increasing and holds the prefix sums of the weights `ws`; every `v` but the
last number has an item; and among as many successive `v` as the total, each item has as many as its
weight says. -/
structure Proportional (ws : List Int32) (lb : WeightLoadBalance) : Prop where
  increasing : lb.weights.Pairwise (· < ·)
  sums : lb.weights = (List.range ws.length).map fun i => ((ws.take (i + 1)).map Int32.toInt).sum
  index : ∀ rand v, v < 2 ^ 64 - 1 → ∃ i < ws.length, lb.getIdx rand v = some (i : ℤ)
  share : ∀ rand a, a + (naturals ws).sum ≤ 2 ^ 64 - 1 → ∀ (i : ℕ) (hi : i < ws.length),
    (((Finset.Ico a (a + (naturals ws).sum)).filter fun v =>
      lb.getIdx rand v = some (i : ℤ)).card : ℤ) = ws[i].toInt

/-! ## The running totals -/

section
variable {ws : List Int32}

theorem length_naturals (ws : List Int32) : (naturals ws).length = ws.length := List.length_map _

theorem cast_toNatClampNeg {w : Int32} (h : 0 < w) : (w.toNatClampNeg : ℤ) = w.toInt := by
  have h0 : (0 : ℤ) < w.toInt := by
    have h := Int32.lt_iff_toInt_lt.1 h
    exact h
  exact Int.toNat_of_nonneg h0.le

/-- The loop overflows when the last total is too large. -/
theorem weightsLoop_eq (hpos : ∀ w ∈ ws, 0 < w) {a : ℕ} (ha : a < 2 ^ 63) :
    weightsLoop a ws =
      if a + (naturals ws).sum < 2 ^ 63 then
        some ((Shares.sums a (naturals ws)).map fun s : ℕ => (s : ℤ))
      else none := by
  induction ws generalizing a with
  | nil => rw [weightsLoop, naturals, List.map_nil, List.sum_nil, add_zero, if_pos ha]; rfl
  | cons w ws ih =>
    obtain ⟨hw, hws⟩ := List.forall_mem_cons.1 hpos
    have hcast : (a : ℤ) + w.toInt = (a + w.toNatClampNeg : ℕ) := by
      rw [Nat.cast_add, cast_toNatClampNeg hw]
    have hcons : naturals (w :: ws) = w.toNatClampNeg :: naturals ws := rfl
    rw [weightsLoop, hcast, hcons, List.sum_cons, Shares.sums, ← add_assoc]
    by_cases hint : a + w.toNatClampNeg < 2 ^ 63
    · rw [if_pos ⟨by omega, by omega⟩, ih hws hint]
      split_ifs <;> rfl
    · rw [if_neg fun h => hint (by omega), if_neg (by omega)]

/-- Up to `2 ^ 31` weights have a total that is an `int64_t`. -/
theorem sum_naturals_lt (hlen : ws.length ≤ 2 ^ 31) : (naturals ws).sum < 2 ^ 63 := by
  have hle : ∀ n ∈ naturals ws, n ≤ 2 ^ 31 - 1 := by
    intro n hn
    obtain ⟨w, -, rfl⟩ := List.mem_map.1 hn
    have hlt := w.toNatClampNeg_lt
    omega
  calc (naturals ws).sum ≤ (naturals ws).length • (2 ^ 31 - 1) := List.sum_le_card_nsmul _ _ hle
    _ = ws.length * (2 ^ 31 - 1) := by rw [length_naturals, smul_eq_mul]
    _ ≤ 2 ^ 31 * (2 ^ 31 - 1) := Nat.mul_le_mul_right _ hlen
    _ < 2 ^ 63 := by norm_num

theorem naturals_pos (hpos : ∀ w ∈ ws, 0 < w) : ∀ n ∈ naturals ws, 0 < n := by
  intro n hn
  obtain ⟨w, hw, rfl⟩ := List.mem_map.1 hn
  have hcast := cast_toNatClampNeg (hpos w hw)
  have h0 : (0 : ℤ) < w.toInt := Int32.lt_iff_toInt_lt.1 (hpos w hw)
  omega

theorem cast_sum_naturals (hpos : ∀ w ∈ ws, 0 < w) :
    ((naturals ws).sum : ℤ) = (ws.map Int32.toInt).sum := by
  rw [Nat.cast_list_sum, naturals, List.map_map]
  exact congrArg List.sum (List.map_congr_left fun w hw => cast_toNatClampNeg (hpos w hw))

/-! ## Selection -/

variable {lb : WeightLoadBalance} {rand v : ℕ}

theorem toUInt64_natCast {n : ℕ} (h : n < 2 ^ 64) : toUInt64 n = n := by
  rw [toUInt64]
  omega

theorem findIdx_congr {β : Type*} {p q : β → Bool} {l : List β} (h : ∀ x ∈ l, p x = q x) :
    l.findIdx p = l.findIdx q := by
  induction l with
  | nil => rfl
  | cons x l ih =>
    obtain ⟨hx, hl⟩ := List.forall_mem_cons.1 h
    rw [List.findIdx_cons, List.findIdx_cons, hx, ih hl]

/-- The place of `v` among the shares, as an `int32_t`. -/
theorem getIdx_eq (hpos : ∀ n ∈ naturals ws, 0 < n) (hne : ws ≠ []) (hsum : (naturals ws).sum < 2 ^ 63)
    (hlb : lb.weights = (Shares.sums 0 (naturals ws)).map fun s : ℕ => (s : ℤ))
    (hv : v < 2 ^ 64 - 1) :
    lb.getIdx rand v = some (toInt32 (place (naturals ws) (v % (naturals ws).sum))) := by
  have hnat : naturals ws ≠ [] := fun h => hne (List.map_eq_nil_iff.1 h)
  have htotal : 0 < (naturals ws).sum := List.sum_pos _ hpos hnat
  have hlast : lb.weights.getLast? = some ((naturals ws).sum : ℤ) := by
    rw [hlb, List.getLast?_map, getLast?_sums hnat, zero_add]
    rfl
  have hle : ∀ s ∈ Shares.sums 0 (naturals ws), s ≤ (naturals ws).sum := by
    intro s hs
    rw [sums_eq_map] at hs
    obtain ⟨i, -, rfl⟩ := List.mem_map.1 hs
    rw [zero_add, ← List.sum_take_add_sum_drop (naturals ws) (i + 1)]
    exact Nat.le_add_right _ _
  have hbound : upperBound lb.weights (v % (naturals ws).sum) =
      place (naturals ws) (v % (naturals ws).sum) := by
    rw [upperBound, hlb, List.findIdx_map, place]
    refine findIdx_congr fun s hs => ?_
    rw [Function.comp_apply, toUInt64_natCast ((hle s hs).trans_lt (by omega))]
  have hlt := place_lt hnat (Nat.mod_lt v htotal)
  have hlen : lb.weights.length = (naturals ws).length := by rw [hlb, List.length_map, length_sums]
  rw [WeightLoadBalance.getIdx, hlast]
  simp only [toUInt64_natCast (show (naturals ws).sum < 2 ^ 64 by omega), if_neg htotal.ne',
    if_neg hv.ne, hbound, hlen, if_neg hlt.ne]

theorem toInt32_of_lt {n : ℕ} (h : n < 2 ^ 31) : toInt32 n = n :=
  Int.bmod_eq_of_le (by omega) (by omega)

/-- What `initNolock` leaves when no total overflows. -/
theorem initNolock_eq {isValid : LoadBalanceItem → Bool} {getWeight : LoadBalanceItem → Int32}
    {datas : List LoadBalanceItem} (hws : ws = (datas.filter isValid).map getWeight)
    (hpos : ∀ w ∈ ws, 0 < w) :
    initNolock isValid getWeight datas =
      if (naturals ws).sum < 2 ^ 63 then
        some ⟨datas.filter isValid, (Shares.sums 0 (naturals ws)).map fun s : ℕ => (s : ℤ)⟩
      else none := by
  have h := weightsLoop_eq hpos (a := 0) (by norm_num)
  rw [Nat.cast_zero, zero_add] at h
  rw [initNolock, ← hws, h]
  split_ifs <;> rfl

/-- Selection with the shares as running totals, while a place is an `int32_t`. -/
theorem proportional_of_sums (hpos : ∀ w ∈ ws, 0 < w) (hne : ws ≠ []) (hlen : ws.length ≤ 2 ^ 31)
    (hlb : lb.weights = (Shares.sums 0 (naturals ws)).map fun s : ℕ => (s : ℤ)) :
    Proportional ws lb where
  increasing := by
    rw [hlb, List.pairwise_map]
    exact (sums_pairwise (naturals_pos hpos)).1.imp fun h => Int.ofNat_lt.2 h
  sums := by
    rw [hlb, sums_eq_map, List.map_map, length_naturals]
    refine List.map_congr_left fun i _ => ?_
    have htake : (naturals ws).take (i + 1) = naturals (ws.take (i + 1)) := (List.map_take ..).symm
    rw [Function.comp_apply, zero_add, htake,
      cast_sum_naturals fun w hw => hpos w (List.mem_of_mem_take hw)]
  index rand v hv := by
    have hnat : naturals ws ≠ [] := fun h => hne (List.map_eq_nil_iff.1 h)
    have hlt := place_lt hnat (Nat.mod_lt v (List.sum_pos _ (naturals_pos hpos) hnat))
    rw [length_naturals] at hlt
    refine ⟨_, hlt, ?_⟩
    rw [getIdx_eq (naturals_pos hpos) hne (sum_naturals_lt hlen) hlb hv,
      toInt32_of_lt (hlt.trans_le hlen)]
  share rand a ha i hi := by
    have hi' : i < (naturals ws).length := by rwa [length_naturals]
    have hshare := card_place_mod a hi'
    have hget : (naturals ws)[i] = ws[i].toNatClampNeg := List.getElem_map _
    rw [hget] at hshare
    rw [← cast_toNatClampNeg (hpos _ (List.getElem_mem hi)), ← hshare]
    congr 2
    refine Finset.filter_congr fun v hv => ?_
    have hnat : naturals ws ≠ [] := fun h => hne (List.map_eq_nil_iff.1 h)
    have hlt := place_lt hnat (Nat.mod_lt v (List.sum_pos _ (naturals_pos hpos) hnat))
    rw [length_naturals] at hlt
    have hv' : v < 2 ^ 64 - 1 := (Finset.mem_Ico.1 hv).2.trans_le ha
    rw [getIdx_eq (naturals_pos hpos) hne (sum_naturals_lt hlen) hlb hv',
      toInt32_of_lt (hlt.trans_le hlen), Option.some_inj, Nat.cast_inj]

end

section
variable {isValid : LoadBalanceItem → Bool} {getWeight : LoadBalanceItem → Int32}
  {datas : List LoadBalanceItem}

theorem map_pos (hpos : ∀ item ∈ datas.filter isValid, 0 < getWeight item) :
    ∀ w ∈ (datas.filter isValid).map getWeight, 0 < w := by
  intro w hw
  obtain ⟨item, hitem, rfl⟩ := List.mem_map.1 hw
  exact hpos item hitem

/-- **Weighted selection is proportional**, for up to `2 ^ 31` valid items with positive weights. -/
theorem getIdx_proportional (hpos : ∀ item ∈ datas.filter isValid, 0 < getWeight item)
    (hne : datas.filter isValid ≠ []) (hlen : (datas.filter isValid).length ≤ 2 ^ 31) :
    ∃ lb, initNolock isValid getWeight datas = some lb ∧ lb.items = datas.filter isValid ∧
      Proportional ((datas.filter isValid).map getWeight) lb := by
  have hlen' : ((datas.filter isValid).map getWeight).length ≤ 2 ^ 31 := by rwa [List.length_map]
  refine ⟨_, (initNolock_eq rfl (map_pos hpos)).trans (if_pos (sum_naturals_lt hlen')), rfl, ?_⟩
  exact proportional_of_sums (map_pos hpos) (fun h => hne (List.map_eq_nil_iff.1 h)) hlen' rfl

/-- Three items. -/
theorem getIdx_proportional_three : ∃ lb, initNolock (fun _ => true) (·.weight)
    [⟨true, 1, 1, 1⟩, ⟨true, 2, 2, 5⟩, ⟨true, 3, 3, 10000⟩] = some lb ∧
      lb.items = [⟨true, 1, 1, 1⟩, ⟨true, 2, 2, 5⟩, ⟨true, 3, 3, 10000⟩] ∧
      Proportional [1, 5, 10000] lb :=
  @getIdx_proportional (fun _ => true) (fun item => item.weight)
    [⟨true, 1, 1, 1⟩, ⟨true, 2, 2, 5⟩, ⟨true, 3, 3, 10000⟩] (by decide) (by decide) (by decide)

/-- With more items, the place after the first `2 ^ 31` of them is a negative `int32_t`. -/
theorem not_proportional (hpos : ∀ item ∈ datas.filter isValid, 0 < getWeight item)
    (hlen : 2 ^ 31 < (datas.filter isValid).length) :
    ¬∃ lb, initNolock isValid getWeight datas = some lb ∧
      Proportional ((datas.filter isValid).map getWeight) lb := by
  rintro ⟨lb, hlb, hprop⟩
  have hpos' := map_pos hpos
  obtain ⟨ws, hws⟩ : ∃ ws, ws = (datas.filter isValid).map getWeight := ⟨_, rfl⟩
  rw [← hws] at hpos' hprop
  have hlen' : 2 ^ 31 < (naturals ws).length := by rwa [length_naturals, hws, List.length_map]
  rw [initNolock_eq hws hpos'] at hlb
  split_ifs at hlb with hsum
  obtain rfl := Option.some.inj hlb
  have hnat := naturals_pos hpos'
  -- the first number that belongs to the item there
  obtain ⟨v, hv⟩ : ∃ v, v = ((naturals ws).take (2 ^ 31)).sum := ⟨_, rfl⟩
  have hnext : ((naturals ws).take (2 ^ 31 + 1)).sum = v + (naturals ws)[2 ^ 31] := by
    rw [hv, List.sum_take_succ _ _ hlen']
  have hone := hnat _ (List.getElem_mem hlen')
  have hle : ((naturals ws).take (2 ^ 31 + 1)).sum ≤ (naturals ws).sum := by
    rw [← List.sum_take_add_sum_drop (naturals ws) (2 ^ 31 + 1)]
    exact Nat.le_add_right _ _
  have hplace : place (naturals ws) v = 2 ^ 31 :=
    (place_eq_iff (fun _ _ => Nat.zero_le _) (Nat.zero_le v) hlen').2 ⟨hv.ge, by omega⟩
  obtain ⟨i, -, hi⟩ := hprop.index 0 v (by omega)
  have hne : ws ≠ [] := by
    rintro rfl
    exact absurd hlen' (Nat.not_lt_zero _)
  rw [getIdx_eq hnat hne hsum rfl (by omega), Nat.mod_eq_of_lt (by omega), hplace] at hi
  have hneg : toInt32 (2 ^ 31) = -2 ^ 31 := by decide
  rw [hneg] at hi
  have := Option.some.inj hi
  omega

end

/-- `2 ^ 31 + 1` items of weight 1. -/
theorem not_getIdx_proportional : ¬∀ (isValid : LoadBalanceItem → Bool)
    (getWeight : LoadBalanceItem → Int32) (datas : List LoadBalanceItem),
    (∀ item ∈ datas.filter isValid, 0 < getWeight item) → datas.filter isValid ≠ [] →
      ∃ lb, initNolock isValid getWeight datas = some lb ∧
        Proportional ((datas.filter isValid).map getWeight) lb := by
  intro h
  obtain ⟨n, hn⟩ : ∃ n, n = 2 ^ 31 + 1 := ⟨_, rfl⟩
  have hlen : ((List.replicate n (⟨true, 1, 1, 1⟩ : LoadBalanceItem)).filter fun _ => true).length = n := by
    rw [List.filter_true, List.length_replicate]
  have hpos : ∀ item ∈ (List.replicate n (⟨true, 1, 1, 1⟩ : LoadBalanceItem)).filter fun _ => true,
      (0 : Int32) < 1 := fun _ _ => by decide
  refine @not_proportional (fun _ => true) (fun _ => 1) _ hpos (by omega) (h _ _ _ hpos fun h0 => ?_)
  rw [h0, List.length_nil] at hlen
  omega

end CoroutineScheduler.Streams
