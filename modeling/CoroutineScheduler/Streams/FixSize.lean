import CoroutineScheduler.Http.Stream

/-!
# Transfers of a fixed size

The four functions `readFixSize` and `writeFixSize` of `Stream`, over any results of `read` and
`write`. `left` is `length` as an `int64_t`, and `length` is returned as an `int`.

A transfer is the place of its first byte and the number of its bytes. The place is `offset` for a
buffer; for a `ByteArray`, which `read` and `write` advance themselves, it is the way that the
position has come.

`fixLoop_spec`: the transfers follow one on the other, and the loop ends with all bytes or with the
result of a call that failed. `fixSize_correct_iff`: when the value returned says the same.
-/

namespace CoroutineScheduler.Streams

open Http (toInt)

/-! ## The functions -/

/-- The bytes of one call. -/
structure Transfer where
  place : ℕ
  count : ℕ
  deriving DecidableEq, Repr

/-- The loop: call `k` is the next one. At the end of the loop there is no result that failed. -/
def fixLoop (result : ℕ → ℤ) (k place : ℕ) (left : ℤ) : List Transfer × Option ℤ :=
  if 0 < left then
    if result k ≤ 0 then ([], some (result k))
    else
      let r := fixLoop result (k + 1) (place + (result k).toNat) (left - result k)
      (⟨place, (result k).toNat⟩ :: r.1, r.2)
  else ([], none)
termination_by left.toNat

/-- `(int64_t)length`. -/
def toInt64 (length : ℕ) : ℤ := Int.bmod length (2 ^ 64)

/-- The transfers and the value returned. -/
def fixSize (result : ℕ → ℤ) (length : ℕ) : List Transfer × ℤ :=
  let r := fixLoop result 0 0 (toInt64 length)
  (r.1, r.2.getD (toInt length))

/-- `readFixSize(buffer, length)`. -/
def readFixSize (result : ℕ → ℤ) (length : ℕ) : List Transfer × ℤ := fixSize result length

/-- `readFixSize(ba, length)`. -/
def readFixSizeBa (result : ℕ → ℤ) (length : ℕ) : List Transfer × ℤ := fixSize result length

/-- `writeFixSize(buffer, length)`. -/
def writeFixSize (result : ℕ → ℤ) (length : ℕ) : List Transfer × ℤ := fixSize result length

/-- `writeFixSize(ba, length)`. -/
def writeFixSizeBa (result : ℕ → ℤ) (length : ℕ) : List Transfer × ℤ := fixSize result length

/-! ## What they should do -/

/-- The sum of the results in front of call `k`. -/
def before (result : ℕ → ℤ) (k : ℕ) : ℤ := ∑ j ∈ Finset.range k, result j

/-- Call `k` takes place: those in front of it have transferred something, and not yet all. -/
def Called (result : ℕ → ℤ) (length k : ℕ) : Prop :=
  (∀ j < k, 0 < result j) ∧ before result k < length

/-- A result is at most what was asked for. -/
def Granted (result : ℕ → ℤ) (length : ℕ) : Prop :=
  ∀ k, Called result length k → result k ≤ length - before result k

/-- A call fails. -/
def Breaks (result : ℕ → ℤ) (length : ℕ) : Prop := ∃ k, Called result length k ∧ result k ≤ 0

/-- The places of the bytes, in the order in which they are transferred. -/
def places (ts : List Transfer) : List ℕ := ts.flatMap fun t => List.range' t.place t.count

/-- The bytes are transferred in order, without gap or overlap; the value is positive exactly for a
complete transfer, where there is something to transfer, and for every complete transfer. -/
structure Complete (length : ℕ) (r : List Transfer × ℤ) : Prop where
  inOrder : places r.1 = List.range (places r.1).length
  positive_iff : 0 < length → (0 < r.2 ↔ (places r.1).length = length)
  positive : (places r.1).length = length → 0 < r.2

/-- The `int` that is returned does not contradict the transfer. -/
def Tells (result : ℕ → ℤ) (length : ℕ) : Prop :=
  0 < length ∧
    if length < 2 ^ 63 then 0 < toInt length ∨ Breaks result length else toInt length ≤ 0

/-! ## The loop -/

section
variable {result : ℕ → ℤ} {length k : ℕ}

@[simp] theorem before_zero : before result 0 = 0 := rfl

theorem before_succ : before result (k + 1) = before result k + result k :=
  Finset.sum_range_succ ..

/-- The loop from call `k`, which takes place or finds that all is transferred: the places of the bytes
follow those before, and the last result is that of a call that fails. -/
theorem fixLoop_spec (h : Granted result length) (hpos : ∀ j < k, 0 < result j)
    (hle : before result k ≤ length) {place : ℕ} (hplace : (place : ℤ) = before result k) :
    ∃ n, places (fixLoop result k place (length - before result k)).1 = List.range' place n ∧
      (((fixLoop result k place (length - before result k)).2 = none ∧ place + n = length ∧
          ∃ m, (∀ j < m, 0 < result j) ∧ before result m = length) ∨
        ∃ e ≤ 0, (fixLoop result k place (length - before result k)).2 = some e ∧
          place + n < length ∧ Breaks result length) := by
  induction hn : (length - before result k).toNat using Nat.strong_induction_on
    generalizing k place with
  | h m ih =>
    rw [fixLoop]
    by_cases hleft : 0 < length - before result k
    · have hcall : Called result length k := ⟨hpos, by omega⟩
      rw [if_pos hleft]
      by_cases hfail : result k ≤ 0
      · rw [if_pos hfail]
        exact ⟨0, rfl, Or.inr ⟨_, hfail, rfl, by omega, k, hcall, hfail⟩⟩
      · rw [if_neg hfail]
        have hle' := h k hcall
        have hsucc : before result (k + 1) = before result k + result k := before_succ
        have hpos' : ∀ j < k + 1, 0 < result j := by
          intro j hj
          rcases Nat.lt_succ_iff_lt_or_eq.1 hj with hj | rfl
          · exact hpos j hj
          · exact not_le.1 hfail
        have hplace' : ((place + (result k).toNat : ℕ) : ℤ) = before result (k + 1) := by omega
        obtain ⟨n, hrange, hend⟩ := ih _ (by omega) hpos' (by omega) hplace' rfl
        rw [hsucc, ← sub_sub] at hrange hend
        refine ⟨(result k).toNat + n, ?_, ?_⟩
        · rw [places, List.flatMap_cons, ← places, hrange, List.range'_append_1]
        · rw [← add_assoc]
          exact hend
    · rw [if_neg hleft]
      exact ⟨0, rfl, Or.inl ⟨rfl, by omega, k, hpos, by omega⟩⟩

theorem before_le {m : ℕ} (hpos : ∀ j < m, 0 < result j) (hk : k ≤ m) :
    before result k ≤ before result m :=
  Finset.sum_le_sum_of_subset_of_nonneg (Finset.range_subset_range.2 hk) fun j hj _ =>
    (hpos j (Finset.mem_range.1 hj)).le

/-- No call fails once all bytes are transferred. -/
theorem not_breaks {m : ℕ} (hpos : ∀ j < m, 0 < result j) (hall : before result m = length) :
    ¬Breaks result length := by
  rintro ⟨k, ⟨hk, hlt⟩, hfail⟩
  rcases lt_or_ge k m with hkm | hkm
  · exact absurd (hpos k hkm) (not_lt.2 hfail)
  · exact absurd (before_le hk hkm) (by omega)

/-! ## The value -/

theorem complete_of_range {ts : List Transfer} {n : ℕ} {value : ℤ}
    (hrange : places ts = List.range' 0 n) (hiff : 0 < length → (0 < value ↔ n = length))
    (hpos : n = length → 0 < value) : Complete length (ts, value) := by
  have hcount : (places ts).length = n := by rw [hrange, List.length_range']
  exact ⟨by rw [hcount, hrange, List.range_eq_range'], by rwa [hcount], by rwa [hcount]⟩

theorem Complete.of_range {ts : List Transfer} {n : ℕ} {value : ℤ} (h : Complete length (ts, value))
    (hrange : places ts = List.range' 0 n) :
    (0 < length → (0 < value ↔ n = length)) ∧ (n = length → 0 < value) := by
  have hcount : (places ts).length = n := by rw [hrange, List.length_range']
  have hiff := h.positive_iff
  have hpos := h.positive
  rw [hcount] at hiff hpos
  exact ⟨hiff, hpos⟩

theorem toInt64_def (n : ℕ) :
    toInt64 n = if (n : ℤ) % 18446744073709551616 < 9223372036854775808 then
      (n : ℤ) % 18446744073709551616 else (n : ℤ) % 18446744073709551616 - 18446744073709551616 :=
  Int.bmod_def ..

theorem fixSize_eq : fixSize result length =
    ((fixLoop result 0 0 (toInt64 length)).1,
      (fixLoop result 0 0 (toInt64 length)).2.getD (toInt length)) := rfl

theorem fixSize_complete_iff (hlength : length < 2 ^ 64) (h : Granted result length) :
    Complete length (fixSize result length) ↔ Tells result length := by
  rcases Nat.eq_zero_or_pos length with rfl | hpos
  · -- nothing to transfer, and zero is returned
    have hloop : fixLoop result 0 0 (toInt64 0) = ([], none) := by
      rw [fixLoop]
      rfl
    refine iff_of_false (fun hc => ?_) fun ht => lt_irrefl 0 ht.1
    rw [fixSize_eq, hloop] at hc
    exact absurd (hc.positive rfl) (by decide)
  have hdef := toInt64_def length
  by_cases hsmall : length < 2 ^ 63
  · have hleft : toInt64 length = length - before result 0 := by
      rw [before_zero]
      omega
    obtain ⟨n, hrange, hend⟩ := fixLoop_spec (k := 0) h (fun j hj => absurd hj (Nat.not_lt_zero j))
      (by rw [before_zero]; omega) (Nat.cast_zero (R := ℤ))
    rw [Tells, if_pos hsmall, fixSize_eq, hleft]
    rcases hend with ⟨hnone, hn, m, hm, hall⟩ | ⟨e, he, hsome, hn, hbreak⟩
    · rw [hnone, Option.getD_none]
      constructor
      · intro hc
        exact ⟨hpos, Or.inl ((hc.of_range hrange).2 (by omega))⟩
      · rintro ⟨-, hint | hbreak⟩
        · exact complete_of_range hrange (fun _ => ⟨fun _ => by omega, fun _ => hint⟩) fun _ => hint
        · exact absurd hbreak (not_breaks hm hall)
    · rw [hsome, Option.getD_some]
      refine iff_of_true ?_ ⟨hpos, Or.inr hbreak⟩
      refine complete_of_range hrange (fun _ => ⟨fun hlt => absurd hlt (not_lt.2 he), ?_⟩) ?_
      · intro hn'
        omega
      · intro hn'
        omega
  · -- `left` is negative
    have hloop : fixLoop result 0 0 (toInt64 length) = ([], none) := by
      rw [fixLoop, if_neg (by omega)]
    rw [Tells, if_neg hsmall, fixSize_eq, hloop, Option.getD_none]
    constructor
    · intro hc
      refine ⟨hpos, not_lt.1 fun hint => ?_⟩
      have := ((hc.of_range (n := 0) rfl).1 hpos).1 hint
      omega
    · rintro ⟨-, hint⟩
      refine complete_of_range (n := 0) rfl (fun _ => ⟨fun hlt => ?_, fun h0 => ?_⟩) fun h0 => ?_
      · exact absurd hlt (not_lt.2 hint)
      · omega
      · omega

/-- **Transfers of a fixed size**: each of the four functions transfers the bytes in order and tells
whether it has transferred all of them, exactly when the `int` that it returns does not contradict. -/
theorem fixSize_correct_iff (hlength : length < 2 ^ 64) (h : Granted result length) :
    (Complete length (readFixSize result length) ↔ Tells result length) ∧
      (Complete length (readFixSizeBa result length) ↔ Tells result length) ∧
      (Complete length (writeFixSize result length) ↔ Tells result length) ∧
      (Complete length (writeFixSizeBa result length) ↔ Tells result length) :=
  have hiff := fixSize_complete_iff hlength h
  ⟨hiff, hiff, hiff, hiff⟩

/-- Three bytes, one by one. -/
theorem fixSize_correct_three : Complete 3 (readFixSize (fun _ => 1) 3) ∧
    Complete 3 (readFixSizeBa (fun _ => 1) 3) ∧ Complete 3 (writeFixSize (fun _ => 1) 3) ∧
    Complete 3 (writeFixSizeBa (fun _ => 1) 3) := by
  have hgranted : Granted (fun _ => 1) 3 := by
    rintro k ⟨-, hlt⟩
    simp only [before, Finset.sum_const, Finset.card_range, nsmul_one] at hlt ⊢
    push_cast at hlt ⊢
    omega
  have htells : Tells (fun _ => 1) 3 := ⟨by decide, Or.inl (by decide)⟩
  obtain ⟨h₁, h₂, h₃, h₄⟩ := fixSize_correct_iff (by norm_num) hgranted
  exact ⟨h₁.2 htells, h₂.2 htells, h₃.2 htells, h₄.2 htells⟩

/-- Nothing to transfer: zero is returned. -/
theorem not_fixSize_correct : ¬∀ (result : ℕ → ℤ) (length : ℕ), length < 2 ^ 64 →
    Granted result length → Complete length (readFixSize result length) ∧
      Complete length (readFixSizeBa result length) ∧
      Complete length (writeFixSize result length) ∧
      Complete length (writeFixSizeBa result length) := by
  intro h
  have hgranted : Granted (fun _ => 0) 0 := by
    rintro k ⟨-, hlt⟩
    simp [before] at hlt
  obtain ⟨hread, -⟩ := h (fun _ => 0) 0 (by norm_num) hgranted
  exact lt_irrefl 0 ((fixSize_complete_iff (by norm_num) hgranted).1 hread).1

end

end CoroutineScheduler.Streams
