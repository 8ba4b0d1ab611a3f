import Mathlib.Tactic
import CoroutineScheduler.ByteArray.Positional
import CoroutineScheduler.ByteArray.Strings

/-!
# Reads that fail

`read` throws before it copies anything, so the readers of a fixed size leave the array as it was. The
others are made of several reads: a varint is read byte by byte, and a string after its length. When
the data ends behind the first of these reads, the exception leaves a cursor that has moved; and the
length of a string goes to `resize` before anyone looks whether so many bytes are there.

`reads_atomic_iff` says for each reader on which unread bytes it is atomic.
-/

namespace CoroutineScheduler.ByteArray

open Splice Wire

/-- `n` bytes of `b` were read. -/
structure Took (b c : ByteArray) (n : ℕ) : Prop where
  valid : Valid c
  endian_eq : c.endian = b.endian
  capacity_eq : c.capacity = b.capacity
  size_eq : c.size = b.size
  bytes_eq : c.bytes = b.bytes
  position_eq : c.position = b.position + n
  within : c.position ≤ b.size

/-- The reader returns a value and has moved the cursor over bytes in `[m_position, m_size)`, or it
throws `std::out_of_range` and the array is as it was. -/
def Atomic {α : Type} (m : M α) (b : ByteArray) : Prop :=
  (∃ a c n, m b = .ok a c ∧ Took b c n) ∨ ∃ what, m b = .error (.outOfRange what) b

/-! ## What the bytes say -/

/-- The number in the first `n` bytes. -/
def wordAt (e : Endian) (n : ℕ) (r : List UInt8) : ℕ :=
  ofLeBytes (match e with | .little => r.take n | .big => (r.take n).reverse)

/-- A varint of at most `rounds` bytes in front: its length and its groups of seven bits as a number,
`none` when the bytes end before it does. -/
def varintAt : ℕ → List UInt8 → Option (ℕ × ℕ)
  | 0, _ => some (0, 0)
  | _ + 1, [] => none
  | rounds + 1, x :: r =>
    if x < 0x80 then some (1, x.toNat)
    else (varintAt rounds r).map fun v => (v.1 + 1, x.toNat % 128 + 128 * v.2)

/-- The bytes end in the middle of a varint. -/
def Cut (rounds : ℕ) (r : List UInt8) : Prop :=
  r ≠ [] ∧ r.length < rounds ∧ ∀ x ∈ r, 0x80 ≤ x

instance (rounds : ℕ) (r : List UInt8) : Decidable (Cut rounds r) := by
  unfold Cut
  haveI : Decidable (∀ x ∈ r, 0x80 ≤ x) := List.decidableBAll _ _
  infer_instance

/-- The bytes of the length prefix, and the length. -/
def Format.lengthAt (e : Endian) (r : List UInt8) : Format → Option (ℕ × ℕ)
  | .f16 => if r.length < 2 then none else some (2, wordAt e 2 r)
  | .f32 => if r.length < 4 then none else some (4, wordAt e 4 r)
  | .f64 => if r.length < 8 then none else some (8, wordAt e 8 r)
  | .vint => (varintAt 10 r).map fun v => (v.1, v.2 % 2 ^ 64)

/-- Unread bytes on which the reader of a number is atomic. -/
def Kind.Good (r : List UInt8) : Kind → Prop
  | .int32 | .uint32 => ¬Cut 5 r
  | .int64 | .uint64 => ¬Cut 10 r
  | _ => True

/-- Unread bytes on which the reader of a string is atomic: a whole string, and a node behind its
prefix, or no prefix, and not a part of a varint. `room` is `m_capacity - m_position`. -/
def Format.Good (e : Endian) (maxSize room : ℕ) (r : List UInt8) (f : Format) : Prop :=
  match f.lengthAt e r with
  | none => f = .vint → r = []
  | some (n, len) => n + len ≤ r.length ∧ len ≤ maxSize ∧ n < room

instance (r : List UInt8) (c : Kind) : Decidable (c.Good r) := by
  cases c <;> unfold Kind.Good <;> infer_instance

instance (e : Endian) (maxSize room : ℕ) (r : List UInt8) (f : Format) :
    Decidable (f.Good e maxSize room r) := by
  unfold Format.Good
  split <;> infer_instance

/-! ## Steps -/

section
variable {α β : Type} {m : M α} {b c d : ByteArray} {n k : ℕ}

theorem Took.refl (h : Valid b) : Took b b 0 := ⟨h, rfl, rfl, rfl, rfl, rfl, h.position_le⟩

theorem Took.trans (h₁ : Took b c n) (h₂ : Took c d k) : Took b d (n + k) where
  valid := h₂.valid
  endian_eq := h₂.endian_eq.trans h₁.endian_eq
  capacity_eq := h₂.capacity_eq.trans h₁.capacity_eq
  size_eq := h₂.size_eq.trans h₁.size_eq
  bytes_eq := h₂.bytes_eq.trans h₁.bytes_eq
  position_eq := by rw [h₂.position_eq, h₁.position_eq, Nat.add_assoc]
  within := h₂.within.trans h₁.size_eq.le

theorem Took.unread_eq (h : Took b c n) : c.unread = b.unread.drop n := by
  rw [unread, unread, getReadSize, getReadSize, h.bytes_eq, h.position_eq, h.size_eq, slice, slice,
    List.drop_take, List.drop_drop, Nat.sub_add_eq]

theorem Valid.length_unread (h : Valid b) : b.unread.length = b.getReadSize := by
  have hle := h.position_le
  have hsize := h.size_le
  apply length_slice
  rw [h.length_bytes, getReadSize]
  omega

/-- A read that has the bytes. -/
theorem Valid.read_took (h : Valid b) (hn : n ≤ b.unread.length) (hcur : b.position < b.capacity) :
    ∃ c, ByteArray.read n b = .ok (b.unread.take n) c ∧ Took b c n := by
  have hle := h.position_le
  have hroom : b.position + n ≤ b.size := by
    rw [h.length_unread, getReadSize] at hn
    omega
  obtain ⟨c, hrun, hm⟩ := h.read hroom hcur
  have hslice := take_unread (hn.trans_eq h.length_unread)
  refine ⟨c, hslice ▸ hrun, hm.valid, hm.endian_eq, hm.capacity_eq, ?_, hm.bytes_eq, hm.position_eq,
    hm.position_eq ▸ hroom⟩
  rw [hm.size_eq, max_eq_left hroom]

/-- A read that has them not. -/
theorem Valid.read_short (h : Valid b) (hn : b.unread.length < n) :
    ByteArray.read n b = .error (.outOfRange "not enough len") b := by
  rw [h.length_unread] at hn
  exact if_pos hn

theorem Valid.cur_of_unread (h : Valid b) (hr : b.unread ≠ []) : b.position < b.capacity := by
  have hpos := List.length_pos_of_ne_nil hr
  have hsize := h.size_le
  rw [h.length_unread, getReadSize] at hpos
  omega

theorem map_ok {f : α → β} {a : α} (h : m b = .ok a c) : (f <$> m) b = .ok (f a) c := by
  show EStateM.map f m b = _
  simp only [EStateM.map, h]

theorem map_error {f : α → β} {e : Fault} (h : m b = .error e c) : (f <$> m) b = .error e c := by
  show EStateM.map f m b = _
  simp only [EStateM.map, h]

theorem atomic_map (f : α → β) : Atomic (f <$> m) b ↔ Atomic m b := by
  cases hm : m b with
  | ok a c => simp [Atomic, map_ok (f := f) hm, hm]
  | error e c => simp [Atomic, map_error (f := f) hm, hm]

/-- An exception that leaves the cursor elsewhere. -/
theorem not_atomic {e : Fault} (hm : m b = .error e c) (ht : Took b c n) (hn : 0 < n) :
    ¬Atomic m b := by
  rintro (⟨a, d, k, hok, -⟩ | ⟨what, herr⟩)
  · rw [hm] at hok
    cases hok
  · rw [hm] at herr
    cases herr
    have := ht.position_eq
    omega

end

/-! ## Numbers -/

section
variable {b : ByteArray} {n v : ℕ} {r : List UInt8} (host : Endian)

theorem Valid.readFuint8_cons (h : Valid b) {x : UInt8} (hr : b.unread = x :: r) :
    ∃ c, readFuint8 host b = .ok x c ∧ Took b c 1 := by
  have hcur := h.cur_of_unread (hr ▸ List.cons_ne_nil x r)
  obtain ⟨c, hrun, ht⟩ := h.read_took (n := 1) (by rw [hr, List.length_cons]; omega) hcur
  refine ⟨c, ?_, ht⟩
  have hmem : memBytes host 1 x.toBitVec = [x] := memBytes_one x.toBitVec
  rw [hr, List.take_succ_cons, List.take_zero, ← hmem] at hrun
  rw [readFuint8, bind_ok hrun, ofMem_memBytes]
  rfl

theorem Valid.readFuint8_nil (h : Valid b) (hr : b.unread = []) :
    readFuint8 host b = .error (.outOfRange "not enough len") b :=
  bind_error (h.read_short (by rw [hr, List.length_nil]; exact Nat.one_pos))

/-- A group of seven bits above the ones that are there; what does not fit is lost. -/
theorem or_shift_eq {w i g : ℕ} {x : BitVec w} (hx : x.toNat < 2 ^ i) (hi : i ≤ w) :
    x ||| (BitVec.ofNat w g <<< i) = BitVec.ofNat w (x.toNat + 2 ^ i * g) := by
  have hpow : 2 ^ w = 2 ^ i * 2 ^ (w - i) := by
    rw [← Nat.pow_add, Nat.add_sub_cancel' hi]
  have hshift : (BitVec.ofNat w g <<< i).toNat = 2 ^ i * (g % 2 ^ (w - i)) := by
    rw [BitVec.toNat_shiftLeft, BitVec.toNat_ofNat, Nat.shiftLeft_eq, Nat.mul_comm, hpow,
      Nat.mul_mod_mul_left, Nat.mod_mod_of_dvd _ (Nat.dvd_mul_left ..)]
  apply BitVec.eq_of_toNat_eq
  rw [BitVec.toNat_or, hshift, Nat.or_comm, ← Nat.two_pow_add_eq_or_of_lt hx, BitVec.toNat_ofNat, hpow,
    Nat.mod_mul, Nat.add_mul_mod_self_left, Nat.mod_eq_of_lt hx,
    Nat.add_mul_div_left _ _ (Nat.two_pow_pos i), Nat.div_eq_of_lt hx, Nat.zero_add, Nat.add_comm]

/-- The loop reads the varint in front, or throws at the end of the bytes. -/
theorem Valid.readVarint {w : ℕ} (rounds i : ℕ) (result : BitVec w) (h : Valid b)
    (hres : result.toNat < 2 ^ i) (hi : i + 7 * rounds ≤ w + 7) :
    (∀ n v, varintAt rounds b.unread = some (n, v) → ∃ c,
      ByteArray.readVarint host rounds i result b = .ok (BitVec.ofNat w (result.toNat + 2 ^ i * v)) c ∧
        Took b c n) ∧
    (varintAt rounds b.unread = none → ∃ c,
      ByteArray.readVarint host rounds i result b = .error (.outOfRange "not enough len") c ∧
        Took b c b.unread.length) := by
  induction rounds generalizing b i result with
  | zero =>
    constructor
    · intro n v hv
      cases hv
      refine ⟨b, ?_, .refl h⟩
      rw [Nat.mul_zero, Nat.add_zero, BitVec.ofNat_toNat, BitVec.setWidth_eq]
      rfl
    · nofun
  | succ rounds ih =>
    cases hr : b.unread with
    | nil =>
      constructor
      · nofun
      · intro _
        exact ⟨b, bind_error (h.readFuint8_nil host hr), .refl h⟩
    | cons x r =>
      obtain ⟨c, hrun, ht⟩ := h.readFuint8_cons host hr
      have hrest : c.unread = r := by rw [ht.unread_eq, hr, List.drop_one, List.tail_cons]
      have hbyte := x.toNat_lt
      rw [ByteArray.readVarint, bind_ok hrun]
      by_cases hx : x < 0x80
      · have hsome : varintAt (rounds + 1) (x :: r) = some (1, x.toNat) := if_pos hx
        rw [if_pos hx, hsome]
        constructor
        · intro n v hv
          cases hv
          refine ⟨c, ?_, ht⟩
          rw [or_shift_eq hres (by omega)]
          rfl
        · nofun
      · have hgroup : (x &&& 0x7f).toNat = x.toNat % 128 := by
          rw [UInt8.toNat_and]
          exact and_7F _
        have hnext : varintAt (rounds + 1) (x :: r) =
            (varintAt rounds r).map fun v => (v.1 + 1, x.toNat % 128 + 128 * v.2) := if_neg hx
        have hpow : 2 ^ (i + 7) = 2 ^ i * 128 := Nat.pow_add 2 i 7
        have hmul : 2 ^ i * (x.toNat % 128) ≤ 2 ^ i * 127 :=
          Nat.mul_le_mul_left _ (Nat.le_of_lt_succ (Nat.mod_lt _ (by decide)))
        rw [if_neg hx, hnext, hgroup, or_shift_eq hres (by omega)]
        have hlt : (BitVec.ofNat w (result.toNat + 2 ^ i * (x.toNat % 128))).toNat < 2 ^ (i + 7) := by
          rw [BitVec.toNat_ofNat]
          have := Nat.mod_le (result.toNat + 2 ^ i * (x.toNat % 128)) (2 ^ w)
          omega
        obtain ⟨hgood, hbad⟩ := ih (i + 7) _ ht.valid hlt (by omega)
        rw [hrest] at hgood hbad
        constructor
        · intro n v hmap
          obtain ⟨⟨n, v⟩, hv, heq⟩ := Option.map_eq_some_iff.1 hmap
          cases heq
          obtain ⟨d, hrund, htd⟩ := hgood n v hv
          refine ⟨d, ?_, Nat.add_comm 1 n ▸ ht.trans htd⟩
          rw [hrund]
          congr 1
          apply BitVec.eq_of_toNat_eq
          rw [BitVec.toNat_ofNat, BitVec.toNat_ofNat, BitVec.toNat_ofNat, Nat.mod_add_mod, hpow]
          congr 1
          ring
        · intro hv
          obtain ⟨d, hrund, htd⟩ := hbad (Option.map_eq_none_iff.1 hv)
          refine ⟨d, hrund, ?_⟩
          rw [List.length_cons, Nat.add_comm]
          exact ht.trans htd

theorem varintAt_eq_none {rounds : ℕ} :
    varintAt rounds r = none ↔ r.length < rounds ∧ ∀ x ∈ r, 0x80 ≤ x := by
  induction rounds generalizing r with
  | zero => simp [varintAt]
  | succ rounds ih =>
    cases r with
    | nil => simp [varintAt]
    | cons x r =>
      rw [varintAt]
      by_cases hx : x < 0x80
      · simp [hx]
      · rw [if_neg hx, Option.map_eq_none_iff, ih, List.length_cons, List.forall_mem_cons,
          Nat.add_lt_add_iff_right]
        have hge : 0x80 ≤ x := UInt8.not_lt.1 hx
        simp [hge]

theorem varintAt_pos {rounds : ℕ} (h : varintAt (rounds + 1) r = some (n, v)) : 0 < n := by
  cases r with
  | nil => cases h
  | cons x r =>
    rw [varintAt] at h
    by_cases hx : x < 0x80
    · rw [if_pos hx] at h
      cases h
      exact Nat.one_pos
    · rw [if_neg hx] at h
      obtain ⟨p, -, hp⟩ := Option.map_eq_some_iff.1 h
      cases hp
      exact Nat.succ_pos _

theorem cut_iff {rounds : ℕ} : Cut rounds r ↔ r ≠ [] ∧ varintAt rounds r = none := by
  rw [varintAt_eq_none]
  rfl

theorem Valid.readVarint_atomic {w rounds : ℕ} (h : Valid b) (hw : 7 * rounds ≤ w + 7) :
    Atomic (ByteArray.readVarint host rounds 0 0#w) b ↔ ¬Cut rounds b.unread := by
  obtain ⟨hgood, hbad⟩ := h.readVarint host rounds 0 0#w (by simp) (by omega)
  rw [cut_iff]
  cases hv : varintAt rounds b.unread with
  | none =>
    obtain ⟨c, hrun, ht⟩ := hbad hv
    by_cases hr : b.unread = []
    · cases rounds with
      | zero => cases hv
      | succ rounds =>
        simp only [ne_eq, hr, not_true, false_and, not_false_eq_true, iff_true]
        exact .inr ⟨_, bind_error (h.readFuint8_nil host hr)⟩
    · simp only [ne_eq, hr, not_false_eq_true, and_self, not_true, iff_false]
      exact not_atomic hrun ht (List.length_pos_of_ne_nil hr)
  | some p =>
    obtain ⟨c, hrun, ht⟩ := hgood p.1 p.2 hv
    simp only [reduceCtorEq, and_false, not_false_eq_true, iff_true]
    exact .inl ⟨_, c, _, hrun, ht⟩

theorem toNat_byteswap {k : ℕ} {bs : List UInt8} (h : bs.length = k) :
    (byteswap (BitVec.ofNat (8 * k) (ofLeBytes bs))).toNat = ofLeBytes bs.reverse := by
  have hback : leBytes k (ofLeBytes bs) = bs := h ▸ leBytes_ofLeBytes bs
  rw [byteswap, ofLeBytes_toNat h, hback, ofLeBytes_toNat (by rwa [List.length_reverse])]

/-- The word in these bytes, in the byte order of the array, is the same on either host. -/
theorem toNat_word {k : ℕ} {bs : List UInt8} (h : bs.length = k) (e : Endian) :
    (if e = host then ofMem host k bs else byteswap (ofMem host k bs)).toNat =
      ofLeBytes (match e with | .little => bs | .big => bs.reverse) := by
  have hrev : bs.reverse.length = k := by rwa [List.length_reverse]
  cases e with
  | little =>
    cases host with
    | little => exact ofLeBytes_toNat h
    | big =>
      have hswap := toNat_byteswap hrev
      rwa [List.reverse_reverse] at hswap
  | big =>
    cases host with
    | little => exact toNat_byteswap h
    | big => exact ofLeBytes_toNat hrev

theorem Valid.readFixed {k : ℕ} (h : Valid b) (hk : 0 < k) (hlen : k ≤ b.unread.length) :
    ∃ v c, ByteArray.readFixed host k b = .ok v c ∧ v.toNat = wordAt b.endian k b.unread ∧
      Took b c k := by
  have hcur := h.cur_of_unread (List.ne_nil_of_length_pos (by omega))
  obtain ⟨c, hrun, ht⟩ := h.read_took hlen hcur
  have htake : (b.unread.take k).length = k := by
    rw [List.length_take]
    omega
  refine ⟨if c.endian = host then ofMem host k (b.unread.take k)
    else byteswap (ofMem host k (b.unread.take k)), c, ?_, ?_, ht⟩
  · refine (bind_ok hrun).trans ((bind_ok rfl).trans ?_)
    split_ifs <;> rfl
  · rw [toNat_word host htake, ht.endian_eq]
    rfl

theorem Valid.readFixed_short {k : ℕ} (h : Valid b) (hlen : b.unread.length < k) :
    ByteArray.readFixed host k b = .error (.outOfRange "not enough len") b :=
  bind_error (h.read_short hlen)

theorem Valid.readFixed_atomic {k : ℕ} (h : Valid b) (hk : 0 < k) :
    Atomic (ByteArray.readFixed host k) b := by
  by_cases hlen : k ≤ b.unread.length
  · obtain ⟨v, c, hrun, -, ht⟩ := h.readFixed host hk hlen
    exact .inl ⟨v, c, k, hrun, ht⟩
  · exact .inr ⟨_, h.readFixed_short host (not_le.1 hlen)⟩

/-- The reader of each kind of number. -/
theorem Valid.kind_atomic (h : Valid b) (c : Kind) : Atomic (c.read host) b ↔ c.Good b.unread := by
  have hbyte : ∀ {α : Type} (f : BitVec 8 → α),
      Atomic (do return f (ofMem host 1 (← ByteArray.read 1))) b := by
    intro α f
    by_cases hlen : 1 ≤ b.unread.length
    · have hcur := h.cur_of_unread (List.ne_nil_of_length_pos hlen)
      obtain ⟨c, hrun, ht⟩ := h.read_took hlen hcur
      exact .inl ⟨_, c, 1, bind_ok hrun, ht⟩
    · exact .inr ⟨_, bind_error (h.read_short (not_le.1 hlen))⟩
  have hfixed : ∀ {α : Type} (k : ℕ) (f : BitVec (8 * k) → α), 0 < k →
      Atomic (f <$> ByteArray.readFixed host k) b := fun k f hk =>
    (atomic_map f).2 (h.readFixed_atomic host hk)
  have h32 : Atomic (readUint32 host) b ↔ ¬Cut 5 b.unread :=
    (atomic_map _).trans (h.readVarint_atomic host (by decide))
  have h64 : Atomic (readUint64 host) b ↔ ¬Cut 10 b.unread :=
    (atomic_map _).trans (h.readVarint_atomic host (by decide))
  cases c with
  | fint8 => exact iff_of_true ((atomic_map _).2 (hbyte _)) trivial
  | fuint8 => exact iff_of_true ((atomic_map _).2 (hbyte _)) trivial
  | fint16 => exact iff_of_true ((atomic_map _).2 (hfixed 2 Int16.ofBitVec (by decide))) trivial
  | fuint16 => exact iff_of_true ((atomic_map _).2 (hfixed 2 UInt16.ofBitVec (by decide))) trivial
  | fint32 => exact iff_of_true ((atomic_map _).2 (hfixed 4 Int32.ofBitVec (by decide))) trivial
  | fuint32 | float =>
    exact iff_of_true ((atomic_map _).2 (hfixed 4 UInt32.ofBitVec (by decide))) trivial
  | fint64 => exact iff_of_true ((atomic_map _).2 (hfixed 8 Int64.ofBitVec (by decide))) trivial
  | fuint64 | double =>
    exact iff_of_true ((atomic_map _).2 (hfixed 8 UInt64.ofBitVec (by decide))) trivial
  | int32 => exact (atomic_map _).trans ((atomic_map _).trans h32)
  | uint32 => exact (atomic_map _).trans h32
  | int64 => exact (atomic_map _).trans ((atomic_map _).trans h64)
  | uint64 => exact (atomic_map _).trans h64

/-! ## Strings -/

/-- A length that was read, and the bytes it announces. -/
theorem Valid.readBuff_atomic {α : Type} {m : M α} {g : α → ℕ} {a : α} {c : ByteArray} {maxSize : ℕ}
    (h : Valid b) (ht : Took b c n) (hn : 0 < n) (hm : m b = .ok a c) :
    Atomic (m >>= fun len => readBuff maxSize (g len)) b ↔
      n + g a ≤ b.unread.length ∧ g a ≤ maxSize ∧ n < b.capacity - b.position := by
  have hcap := ht.valid.size_le
  have hpos := ht.position_eq
  have hle := ht.within
  rw [ht.capacity_eq, ht.size_eq] at hcap
  have hrest : n + c.unread.length = b.unread.length := by
    rw [ht.valid.length_unread, h.length_unread, getReadSize, getReadSize, ht.size_eq]
    omega
  have hbad : ∀ {e : Fault}, readBuff maxSize (g a) c = .error e c →
      ¬Atomic (m >>= fun len => readBuff maxSize (g len)) b := fun herr =>
    not_atomic ((bind_ok hm).trans herr) ht hn
  by_cases hmax : g a ≤ maxSize
  · rw [readBuff_eq hmax] at hbad
    by_cases hlen : g a ≤ c.unread.length
    · by_cases hcur : c.position < c.capacity
      · obtain ⟨d, hrun, htd⟩ := ht.valid.read_took hlen hcur
        rw [ht.capacity_eq] at hcur
        have hall : (m >>= fun len => readBuff maxSize (g len)) b = .ok (c.unread.take (g a)) d := by
          rw [bind_ok hm, readBuff_eq hmax, hrun]
        exact iff_of_true (.inl ⟨_, d, _, hall, ht.trans htd⟩) ⟨by omega, hmax, by omega⟩
      · have hnull := ht.valid.read_null (hlen.trans_eq ht.valid.length_unread) hcur
        rw [ht.capacity_eq] at hcur
        exact iff_of_false (hbad hnull) fun hgood => by omega
    · exact iff_of_false (hbad (ht.valid.read_short (not_le.1 hlen))) fun hgood => by omega
  · refine iff_of_false (hbad (e := .lengthError) ?_) fun hgood => hmax hgood.2.1
    rw [readBuff, if_pos (not_le.1 hmax)]
    rfl

theorem Valid.fixed_string_atomic {α : Type} {k maxSize : ℕ} {f : BitVec (8 * k) → α} {g : α → ℕ}
    (h : Valid b) (hk : 0 < k) (hg : ∀ v, g (f v) = v.toNat) :
    Atomic (f <$> ByteArray.readFixed host k >>= fun len => readBuff maxSize (g len)) b ↔
      (b.unread.length < k ∨
        k + wordAt b.endian k b.unread ≤ b.unread.length ∧ wordAt b.endian k b.unread ≤ maxSize ∧
          k < b.capacity - b.position) := by
  by_cases hlen : k ≤ b.unread.length
  · obtain ⟨v, c, hrun, hv, ht⟩ := h.readFixed host hk hlen
    rw [h.readBuff_atomic ht hk (map_ok hrun), hg, hv]
    exact (or_iff_right (not_lt.2 hlen)).symm
  · exact iff_of_true (.inr ⟨_, bind_error (map_error (h.readFixed_short host (not_le.1 hlen)))⟩)
      (.inl (not_le.1 hlen))

theorem Format.good_fixed {f : Format} {e : Endian} {k maxSize room : ℕ} (hf : f ≠ .vint)
    (hat : f.lengthAt e r = if r.length < k then none else some (k, wordAt e k r)) :
    f.Good e maxSize room r ↔ (r.length < k ∨
      k + wordAt e k r ≤ r.length ∧ wordAt e k r ≤ maxSize ∧ k < room) := by
  rw [Format.Good, hat]
  by_cases hlen : r.length < k
  · simp [hlen, hf]
  · simp [hlen]

/-- The reader of each format of strings. -/
theorem Valid.format_atomic (h : Valid b) {maxSize : ℕ} (f : Format) :
    Atomic (f.read host maxSize) b ↔
      f.Good b.endian maxSize (b.capacity - b.position) b.unread := by
  cases f with
  | f16 =>
    rw [Format.good_fixed (k := 2) (by decide) rfl]
    exact h.fixed_string_atomic host (k := 2) (f := UInt16.ofBitVec) (g := UInt16.toNat) (by decide)
      fun _ => rfl
  | f32 =>
    rw [Format.good_fixed (k := 4) (by decide) rfl]
    exact h.fixed_string_atomic host (k := 4) (f := UInt32.ofBitVec) (g := UInt32.toNat) (by decide)
      fun _ => rfl
  | f64 =>
    rw [Format.good_fixed (k := 8) (by decide) rfl]
    exact h.fixed_string_atomic host (k := 8) (f := UInt64.ofBitVec) (g := UInt64.toNat) (by decide)
      fun _ => rfl
  | vint =>
    obtain ⟨hgood, hbad⟩ := h.readVarint host 10 0 0#64 (by decide) (by decide)
    cases hv : varintAt 10 b.unread with
    | none =>
      have hat : Format.vint.lengthAt b.endian b.unread = none := by rw [Format.lengthAt, hv]; rfl
      rw [Format.Good, hat]
      obtain ⟨c, hrun, ht⟩ := hbad hv
      have hall : Format.vint.read host maxSize b = .error (.outOfRange "not enough len") c :=
        bind_error (map_error hrun)
      by_cases hr : b.unread = []
      · refine iff_of_true (.inr ⟨_, bind_error (map_error (bind_error (h.readFuint8_nil host hr)))⟩)
          fun _ => hr
      · exact iff_of_false (not_atomic hall ht (List.length_pos_of_ne_nil hr)) fun hc => hr (hc rfl)
    | some p =>
      obtain ⟨n, v⟩ := p
      have hat : Format.vint.lengthAt b.endian b.unread = some (n, v % 2 ^ 64) := by
        rw [Format.lengthAt, hv]
        rfl
      obtain ⟨c, hrun, ht⟩ := hgood n v hv
      have hval : (UInt64.ofBitVec (BitVec.ofNat 64 ((0#64).toNat + 2 ^ 0 * v))).toNat = v % 2 ^ 64 := by
        rw [UInt64.toNat_ofBitVec, BitVec.toNat_ofNat, Nat.pow_zero, Nat.one_mul]
        simp
      rw [Format.Good, hat, ← hval]
      exact h.readBuff_atomic ht (varintAt_pos hv) (map_ok hrun)

end

/-- **Atomic reads**: which unread bytes each reader needs to be atomic. -/
theorem reads_atomic_iff {b : ByteArray} (h : Valid b) (host : Endian) (maxSize : ℕ) :
    (∀ c : Kind, Atomic (c.read host) b ↔ c.Good b.unread) ∧
      ∀ f : Format, Atomic (f.read host maxSize) b ↔
        f.Good b.endian maxSize (b.capacity - b.position) b.unread :=
  ⟨h.kind_atomic host, h.format_atomic host⟩

/-- A short word, a string that is there and one that is not, in nodes of three bytes. -/
theorem reads_atomic_pages : ∃ b, Reachable 3 (fun _ => 0) b ∧
    b.unread = [0, 2, 7, 7] ∧ Atomic (Kind.fuint64.read .little) b ∧
    Atomic (Format.f16.read .little (2 ^ 63 - 1)) b ∧
    ¬Atomic (Format.f32.read .little (2 ^ 63 - 1)) b := by
  have hb : Reachable 3 (fun _ => 0) _ := .exec (.setPosition 0)
    (.exec (.write [0, 2, 7, 7]) .new trivial) trivial
  obtain ⟨hkind, hformat⟩ := reads_atomic_iff (hb.valid (by decide)) .little (2 ^ 63 - 1)
  exact ⟨_, hb, rfl, (hkind .fuint64).2 (by decide), (hformat .f16).2 (by decide),
    fun ha => absurd ((hformat .f32).1 ha) (by decide)⟩

/-- A length of `2 ^ 64 - 1` in front of no data: `resize` throws behind the prefix. -/
theorem reads_atomic_wrong : ¬∀ b, Reachable 4 (fun _ => 0) b →
    (∀ c : Kind, Atomic (c.read .little) b) ∧
      ∀ f : Format, Atomic (f.read .little (2 ^ 63 - 1)) b := by
  intro hall
  have hb : Reachable 4 (fun _ => 0) _ := .exec (.setPosition 0)
    (.exec (.write (List.replicate 8 0xff)) .new trivial) trivial
  have hgood := ((hb.valid (by decide)).format_atomic .little .f64).1 ((hall _ hb).2 .f64)
  exact absurd hgood (by decide)

end CoroutineScheduler.ByteArray
