import Mathlib.Tactic

/-!
# Numbers as bytes

1. `leBytes k n`: the `k` low bytes of `n`, the lowest first. `ofLeBytes` reads them back.
2. `varint room n`: groups of seven bits, the lowest first, every byte but the last with its high
   bit set, in a buffer of `room` bytes.
3. `zigzag`: signed numbers on unsigned ones, small absolute values on small numbers.
-/

namespace Wire

/-- A fact about every byte, from the 256 cases. -/
theorem forall_byte {p : UInt8 → Prop} (h : ∀ n : Fin 256, p (UInt8.ofFin n)) (c : UInt8) : p c :=
  h c.toFin

/-! ## Bytes of a word -/

/-- The `k` low bytes of `n`, the lowest first. -/
def leBytes : ℕ → ℕ → List UInt8
  | 0, _ => []
  | k + 1, n => UInt8.ofNat n :: leBytes k (n / 256)

/-- The number with these bytes, the lowest first. -/
def ofLeBytes : List UInt8 → ℕ
  | [] => 0
  | b :: bs => b.toNat + 256 * ofLeBytes bs

@[simp] theorem length_leBytes (k n : ℕ) : (leBytes k n).length = k := by
  induction k generalizing n with
  | zero => rfl
  | succ k ih => simp [leBytes, ih]

theorem ofLeBytes_lt (bs : List UInt8) : ofLeBytes bs < 256 ^ bs.length := by
  induction bs with
  | nil => simp [ofLeBytes]
  | cons b bs ih =>
    have hb := b.toNat_lt
    rw [ofLeBytes, List.length_cons, Nat.pow_succ]
    omega

theorem ofLeBytes_leBytes {k n : ℕ} (h : n < 256 ^ k) : ofLeBytes (leBytes k n) = n := by
  induction k generalizing n with
  | zero =>
    rw [Nat.pow_zero] at h
    simp only [leBytes, ofLeBytes]
    omega
  | succ k ih =>
    rw [Nat.pow_succ] at h
    have hbyte : (UInt8.ofNat n).toNat = n % 256 := UInt8.toNat_ofNat'
    rw [leBytes, ofLeBytes, ih (by omega), hbyte]
    omega

theorem leBytes_ofLeBytes (bs : List UInt8) : leBytes bs.length (ofLeBytes bs) = bs := by
  induction bs with
  | nil => rfl
  | cons b bs ih =>
    have hb := b.toNat_lt
    have hlow : UInt8.ofNat (ofLeBytes (b :: bs)) = b := by
      apply UInt8.toNat_inj.1
      rw [UInt8.toNat_ofNat', ofLeBytes]
      omega
    have hhigh : ofLeBytes (b :: bs) / 256 = ofLeBytes bs := by
      rw [ofLeBytes]
      omega
    rw [List.length_cons, leBytes, hlow, hhigh, ih]

theorem getElem?_leBytes {k i : ℕ} (n : ℕ) (h : i < k) :
    (leBytes k n)[i]? = some (UInt8.ofNat (n / 256 ^ i)) := by
  induction k generalizing n i with
  | zero => omega
  | succ k ih =>
    cases i with
    | zero => simp [leBytes]
    | succ i =>
      rw [leBytes, List.getElem?_cons_succ, ih (n / 256) (Nat.lt_of_succ_lt_succ h),
        Nat.div_div_eq_div_mul, Nat.pow_succ']

/-- A bit of the number is a bit of one of its bytes. -/
theorem testBit_ofLeBytes (bs : List UInt8) (i : ℕ) :
    (ofLeBytes bs).testBit i = ((bs[i / 8]?).getD 0).toNat.testBit (i % 8) := by
  induction bs generalizing i with
  | nil => simp [ofLeBytes]
  | cons b bs ih =>
    have hsum : ofLeBytes (b :: bs) = 2 ^ 8 * ofLeBytes bs + b.toNat := by
      rw [ofLeBytes]
      omega
    rw [hsum, Nat.testBit_two_pow_mul_add _ b.toNat_lt]
    split_ifs with hi
    · rw [Nat.div_eq_of_lt hi, Nat.mod_eq_of_lt hi]
      rfl
    · rw [ih, show i / 8 = (i - 8) / 8 + 1 by omega, show i % 8 = (i - 8) % 8 by omega]
      rfl

/-! ## Groups of seven bits -/

/-- The varint of `n` in a buffer with `room` bytes left, `none` when it does not fit. -/
def varint : ℕ → ℕ → Option (List UInt8)
  | 0, _ => none
  | room + 1, n =>
    if n ≥ 0x80 then (varint room (n >>> 7)).map (UInt8.ofNat ((n &&& 0x7F) ||| 0x80) :: ·)
    else some [UInt8.ofNat n]

theorem and_7F (n : ℕ) : n &&& 0x7F = n % 128 := Nat.and_two_pow_sub_one_eq_mod n 7

theorem or_80 {n : ℕ} (h : n < 128) : n ||| 0x80 = n + 128 := by
  have hor : 128 + n = 128 ||| n := Nat.two_pow_add_eq_or_of_lt (show n < 2 ^ 7 from h) 1
  rw [Nat.or_comm]
  omega

/-- The bytes of a varint: a last group, or a group with the high bit and the varint of the
rest. -/
theorem varint_eq {room n : ℕ} {bs : List UInt8} (h : varint (room + 1) n = some bs) :
    n < 128 ∧ bs = [UInt8.ofNat n] ∨
      128 ≤ n ∧ ∃ rest, bs = UInt8.ofNat (n % 128 + 128) :: rest ∧ varint room (n / 128) = some rest := by
  rw [varint] at h
  by_cases hn : n ≥ 0x80
  · rw [if_pos hn, Option.map_eq_some_iff] at h
    obtain ⟨rest, hrest, rfl⟩ := h
    refine .inr ⟨hn, rest, ?_, ?_⟩
    · rw [and_7F, or_80 (Nat.mod_lt n (by decide))]
    · rw [← hrest, Nat.shiftRight_eq_div_pow]
  · rw [if_neg hn, Option.some.injEq] at h
    exact .inl ⟨by omega, h.symm⟩

/-- A number of `7 * room` bits fits. -/
theorem varint_fits {room n : ℕ} (h : n < 128 ^ room) (hroom : 0 < room) :
    ∃ bs, varint room n = some bs := by
  induction room generalizing n with
  | zero => omega
  | succ room ih =>
    rw [varint]
    by_cases hn : n ≥ 0x80
    · rw [Nat.pow_succ] at h
      have hpos : 0 < room := by
        apply Nat.pos_of_ne_zero
        rintro rfl
        omega
      obtain ⟨bs, hbs⟩ := ih (n := n / 128) (by omega) hpos
      rw [if_pos hn, Nat.shiftRight_eq_div_pow, hbs]
      exact ⟨_, rfl⟩
    · exact ⟨_, if_neg hn⟩

/-! ## Signed on unsigned -/

section
variable {w : ℕ}

/-- `2 v` for `0 ≤ v` and `-2 v - 1` for `v < 0`. -/
def zigzag (v : BitVec w) : BitVec w := if v.slt 0#w then -v * 2#w - 1#w else v * 2#w

def unzigzag (v : BitVec w) : BitVec w := (v >>> 1) ^^^ -(v &&& 1#w)

theorem toNat_and_one (hw : 1 ≤ w) (v : BitVec w) : (v &&& 1#w).toNat = v.toNat % 2 := by
  have hone : (1#w).toNat = 1 :=
    (BitVec.toNat_ofNat 1 w).trans (Nat.mod_eq_of_lt (Nat.one_lt_two_pow (by omega)))
  rw [BitVec.toNat_and, hone, Nat.and_one_is_mod]

theorem unzigzag_even (hw : 1 ≤ w) {v x : BitVec w} (h : v.toNat = 2 * x.toNat) :
    unzigzag v = x := by
  have hbit : v &&& 1#w = 0#w := by
    apply BitVec.eq_of_toNat_eq
    rw [toNat_and_one hw, h, Nat.mul_mod_right]
    simp
  have hhalf : v >>> 1 = x := by
    apply BitVec.eq_of_toNat_eq
    rw [BitVec.toNat_ushiftRight, Nat.shiftRight_eq_div_pow, h]
    omega
  rw [unzigzag, hbit, hhalf]
  simp

theorem unzigzag_odd (hw : 1 ≤ w) {v x : BitVec w} (h : v.toNat = 2 * x.toNat + 1) :
    unzigzag v = ~~~x := by
  have hbit : v &&& 1#w = 1#w := by
    apply BitVec.eq_of_toNat_eq
    rw [toNat_and_one hw, h, BitVec.toNat_ofNat, Nat.mod_eq_of_lt (Nat.one_lt_two_pow (by omega))]
    omega
  have hhalf : v >>> 1 = x := by
    apply BitVec.eq_of_toNat_eq
    rw [BitVec.toNat_ushiftRight, Nat.shiftRight_eq_div_pow, h]
    omega
  rw [unzigzag, hbit, hhalf, BitVec.neg_one_eq_allOnes, BitVec.xor_allOnes]

/-- Also for the least value, whose negation is itself. -/
theorem unzigzag_zigzag (hw : 2 ≤ w) (v : BitVec w) : unzigzag (zigzag v) = v := by
  have hpow : 2 ^ w = 2 * 2 ^ (w - 1) := by
    rw [← Nat.pow_succ', Nat.succ_eq_add_one, Nat.sub_add_cancel (by omega)]
  have hone : (1#w).toNat = 1 :=
    (BitVec.toNat_ofNat 1 w).trans (Nat.mod_eq_of_lt (Nat.one_lt_two_pow (by omega)))
  have htwo : (2#w).toNat = 2 := by
    refine (BitVec.toNat_ofNat 2 w).trans (Nat.mod_eq_of_lt ?_)
    calc 2 < 2 ^ 2 := by decide
      _ ≤ 2 ^ w := Nat.pow_le_pow_right (by decide) hw
  rw [zigzag]
  by_cases hneg : v.slt 0#w
  · have hmsb : 2 ^ (w - 1) ≤ v.toNat := by
      rw [BitVec.slt_zero_eq_msb, BitVec.msb_eq_decide] at hneg
      exact of_decide_eq_true hneg
    have hv := v.isLt
    have hnot : (~~~v).toNat = 2 ^ w - 1 - v.toNat := BitVec.toNat_not
    -- `-v = ~v + 1`, so nothing overflows in `2 (~v) + 1`
    have hring : ∀ x : BitVec w, (x + 1) * 2 - 1 = x * 2 + 1 := fun x => by grind
    have hshape : -v * 2#w - 1#w = ~~~v * 2#w + 1#w := by
      rw [BitVec.neg_eq_not_add]
      exact hring (~~~v)
    rw [if_pos hneg, hshape, unzigzag_odd (by omega) (x := ~~~v), BitVec.not_not]
    rw [BitVec.toNat_add, BitVec.toNat_mul, hone, htwo, hnot, Nat.mod_eq_of_lt, Nat.mod_eq_of_lt]
    · omega
    · omega
    · rw [Nat.mod_eq_of_lt (by omega)]
      omega
  · have hmsb : v.toNat < 2 ^ (w - 1) := by
      rw [BitVec.slt_zero_eq_msb, BitVec.msb_eq_decide] at hneg
      exact not_le.1 (of_decide_eq_false (Bool.eq_false_iff.2 hneg))
    rw [if_neg hneg, unzigzag_even (by omega) (x := v)]
    rw [BitVec.toNat_mul, htwo, Nat.mod_eq_of_lt (by omega), Nat.mul_comm]

end

end Wire
