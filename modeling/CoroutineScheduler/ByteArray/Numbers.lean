import Mathlib.Tactic
import CoroutineScheduler.Lib.Wire
import CoroutineScheduler.ByteArray.Serial

/-!
# Numbers in the byte array

The fixed-size writers copy a value as it lies in memory, swapped when the byte order of the array
is not that of the host (`BIN_BYTE_ORDER`, the parameter `host`). The others write varints, signed
values after the zigzag transform. A `float` or a `double` is its bit pattern.

Every writer emits an encoding that the reader of its kind parses (`emits_encode`,
`parses_encode`), so a list of numbers of any kinds is read back as it was written.
-/

namespace CoroutineScheduler.ByteArray

open Splice Wire

/-! ## Words in memory -/

/-- The bytes of a variable of `k` bytes, in the order of their addresses. -/
def memBytes (host : Endian) (k : ℕ) (v : BitVec (8 * k)) : List UInt8 :=
  match host with
  | .little => leBytes k v.toNat
  | .big => (leBytes k v.toNat).reverse

/-- The variable with these bytes. -/
def ofMem (host : Endian) (k : ℕ) (bs : List UInt8) : BitVec (8 * k) :=
  match host with
  | .little => BitVec.ofNat _ (ofLeBytes bs)
  | .big => BitVec.ofNat _ (ofLeBytes bs.reverse)

/-- `byteswap`: `bswap_16`, `bswap_32` and `bswap_64` reverse the bytes of a word. -/
def byteswap {k : ℕ} (v : BitVec (8 * k)) : BitVec (8 * k) :=
  BitVec.ofNat _ (ofLeBytes (leBytes k v.toNat).reverse)

section
variable {k : ℕ} (host : Endian) (v : BitVec (8 * k))

theorem pow_256 (k : ℕ) : 256 ^ k = 2 ^ (8 * k) := by
  rw [Nat.pow_mul]

@[simp] theorem length_memBytes : (memBytes host k v).length = k := by
  cases host <;> simp [memBytes]

theorem ofLeBytes_toNat {bs : List UInt8} (h : bs.length = k) :
    (BitVec.ofNat (8 * k) (ofLeBytes bs)).toNat = ofLeBytes bs := by
  have hlt := ofLeBytes_lt bs
  rw [h, pow_256] at hlt
  rw [BitVec.toNat_ofNat, Nat.mod_eq_of_lt hlt]

theorem ofNat_leBytes : BitVec.ofNat (8 * k) (ofLeBytes (leBytes k v.toNat)) = v := by
  have hlt : v.toNat < 256 ^ k := by
    rw [pow_256]
    exact v.isLt
  rw [ofLeBytes_leBytes hlt, BitVec.ofNat_toNat, BitVec.setWidth_eq]

theorem ofMem_memBytes : ofMem host k (memBytes host k v) = v := by
  cases host with
  | little => exact ofNat_leBytes v
  | big => simp only [ofMem, memBytes, List.reverse_reverse, ofNat_leBytes]

theorem byteswap_byteswap : byteswap (byteswap v) = v := by
  have hlen : (leBytes k v.toNat).reverse.length = k := by simp
  have hback : leBytes k (ofLeBytes (leBytes k v.toNat).reverse) = (leBytes k v.toNat).reverse := by
    conv_rhs => rw [← leBytes_ofLeBytes (leBytes k v.toNat).reverse, hlen]
  rw [byteswap, byteswap, ofLeBytes_toNat hlen, hback, List.reverse_reverse, ofNat_leBytes]

end

/-! ## Fixed size -/

section
variable (host : Endian)

/-- The writers of 16, 32 and 64 bits. -/
def writeFixed (k : ℕ) (value : BitVec (8 * k)) : M Unit := do
  let b ← get
  write (memBytes host k (if b.endian ≠ host then byteswap value else value))

/-- The readers of 16, 32 and 64 bits. -/
def readFixed (k : ℕ) : M (BitVec (8 * k)) := do
  let bs ← read k
  let b ← get
  if b.endian = host then return ofMem host k bs else return byteswap (ofMem host k bs)

def writeFint8 (value : Int8) : M Unit := write (memBytes host 1 value.toBitVec)

def writeFuint8 (value : UInt8) : M Unit := write (memBytes host 1 value.toBitVec)

def writeFint16 (value : Int16) : M Unit := writeFixed host 2 value.toBitVec

def writeFuint16 (value : UInt16) : M Unit := writeFixed host 2 value.toBitVec

def writeFint32 (value : Int32) : M Unit := writeFixed host 4 value.toBitVec

def writeFuint32 (value : UInt32) : M Unit := writeFixed host 4 value.toBitVec

def writeFint64 (value : Int64) : M Unit := writeFixed host 8 value.toBitVec

def writeFuint64 (value : UInt64) : M Unit := writeFixed host 8 value.toBitVec

def readFint8 : M Int8 := do return Int8.ofBitVec (ofMem host 1 (← read 1))

def readFuint8 : M UInt8 := do return UInt8.ofBitVec (ofMem host 1 (← read 1))

def readFint16 : M Int16 := Int16.ofBitVec <$> readFixed host 2

def readFuint16 : M UInt16 := UInt16.ofBitVec <$> readFixed host 2

def readFint32 : M Int32 := Int32.ofBitVec <$> readFixed host 4

def readFuint32 : M UInt32 := UInt32.ofBitVec <$> readFixed host 4

def readFint64 : M Int64 := Int64.ofBitVec <$> readFixed host 8

def readFuint64 : M UInt64 := UInt64.ofBitVec <$> readFixed host 8

/-- `memcpy` to a `uint32_t`. -/
def writeFloat (bits : UInt32) : M Unit := writeFuint32 host bits

def writeDouble (bits : UInt64) : M Unit := writeFuint64 host bits

def readFloat : M UInt32 := readFuint32 host

def readDouble : M UInt64 := readFuint64 host

/-! ## Variable size -/

/-- The loop that fills `tmp`, and the `write` of its bytes. -/
def writeVarint (room value : ℕ) : M Unit :=
  match varint room value with
  | some tmp => write tmp
  | none => throw .overrun

/-- The loop over `i`, with the rounds that are left while `i` is below the width. -/
def readVarint {w : ℕ} : ℕ → ℕ → BitVec w → M (BitVec w)
  | 0, _, result => pure result
  | rounds + 1, i, result => do
    let b ← readFuint8 host
    if b < 0x80 then return result ||| (BitVec.ofNat w b.toNat <<< i)
    else readVarint rounds (i + 7) (result ||| (BitVec.ofNat w (b &&& 0x7f).toNat <<< i))

/-- `uint8_t tmp[5]`. -/
def writeUint32 (value : UInt32) : M Unit := writeVarint 5 value.toNat

/-- `uint8_t tmp[10]`. -/
def writeUint64 (value : UInt64) : M Unit := writeVarint 10 value.toNat

def encodeZigzag32 (v : Int32) : UInt32 := UInt32.ofBitVec (zigzag v.toBitVec)

def encodeZigzag64 (v : Int64) : UInt64 := UInt64.ofBitVec (zigzag v.toBitVec)

def decodeZigzag32 (v : UInt32) : Int32 := Int32.ofBitVec (unzigzag v.toBitVec)

def decodeZigzag64 (v : UInt64) : Int64 := Int64.ofBitVec (unzigzag v.toBitVec)

def writeInt32 (value : Int32) : M Unit := writeUint32 (encodeZigzag32 value)

def writeInt64 (value : Int64) : M Unit := writeUint64 (encodeZigzag64 value)

/-- `i = 0, 7, 14, 21, 28`. -/
def readUint32 : M UInt32 := UInt32.ofBitVec <$> readVarint host 5 0 0#32

/-- `i = 0, 7, ..., 63`. -/
def readUint64 : M UInt64 := UInt64.ofBitVec <$> readVarint host 10 0 0#64

def readInt32 : M Int32 := decodeZigzag32 <$> readUint32 host

def readInt64 : M Int64 := decodeZigzag64 <$> readUint64 host

end

/-! ## Each kind reads what it wrote -/

section
variable {n : ℕ} {host e : Endian}

/-- A word on the wire: in the byte order of the array. -/
def fixedBytes (host e : Endian) (k : ℕ) (v : BitVec (8 * k)) : List UInt8 :=
  memBytes host k (if e ≠ host then byteswap v else v)

theorem emits_writeFixed {k : ℕ} (v : BitVec (8 * k)) :
    Emits n e (writeFixed host k v) (fixedBytes host e k v) := by
  apply Emits.get
  rintro b rfl
  exact emits_write _

theorem parses_readFixed {k : ℕ} (hk : 0 < k) (v : BitVec (8 * k)) :
    Parses n e (readFixed host k) (fixedBytes host e k v) v := by
  have hlen : (fixedBytes host e k v).length = k := length_memBytes host _
  have hread := parses_read (k := n) (e := e) (hlen.symm ▸ hk)
  rw [hlen] at hread
  rw [← List.append_nil (fixedBytes host e k v)]
  refine hread.bind (Parses.get ?_)
  rintro b rfl
  by_cases hsame : b.endian = host
  · simp only [fixedBytes, ne_eq, hsame, not_true, if_false, ofMem_memBytes]
    exact parses_pure v
  · simp only [fixedBytes, ne_eq, hsame, not_false_eq_true, if_true, ofMem_memBytes,
      byteswap_byteswap]
    exact parses_pure v

theorem memBytes_one (v : BitVec 8) : memBytes host 1 v = [UInt8.ofBitVec v] := by
  have hbyte : UInt8.ofNat v.toNat = UInt8.ofBitVec v := by
    apply UInt8.toNat_inj.1
    rw [UInt8.toNat_ofNat', Nat.mod_eq_of_lt v.isLt]
    rfl
  cases host with
  | little => exact congrArg (· :: []) hbyte
  | big => exact congrArg (· :: []) hbyte

theorem parses_byte {α : Type} (f : BitVec 8 → α) (v : BitVec 8) :
    Parses n e (do return f (ofMem host 1 (← read 1))) (memBytes host 1 v) (f v) := by
  have hread := parses_read (k := n) (e := e) (show 0 < (memBytes host 1 v).length by simp)
  rw [length_memBytes] at hread
  rw [← List.append_nil (memBytes host 1 v)]
  refine hread.bind ?_
  rw [ofMem_memBytes]
  exact parses_pure (f v)

theorem parses_readFuint8 (b : UInt8) : Parses n e (readFuint8 host) [b] b := by
  have h : Parses n e (readFuint8 host) (memBytes host 1 b.toBitVec) b :=
    parses_byte UInt8.ofBitVec b.toBitVec
  rwa [memBytes_one] at h

theorem emits_writeVarint {room value : ℕ} {bs : List UInt8} (h : varint room value = some bs) :
    Emits n e (writeVarint room value) bs := by
  rw [writeVarint, h]
  exact emits_write bs

theorem toNat_or_shift {w i g : ℕ} {x : BitVec w} (hx : x.toNat < 2 ^ i) (hg : 2 ^ i * g < 2 ^ w) :
    (x ||| (BitVec.ofNat w g <<< i)).toNat = x.toNat + 2 ^ i * g := by
  have hle : g ≤ 2 ^ i * g := Nat.le_mul_of_pos_left g (Nat.two_pow_pos i)
  have hshift : (BitVec.ofNat w g <<< i).toNat = 2 ^ i * g := by
    rw [BitVec.toNat_shiftLeft, BitVec.toNat_ofNat, Nat.mod_eq_of_lt (hle.trans_lt hg),
      Nat.shiftLeft_eq, Nat.mul_comm, Nat.mod_eq_of_lt hg]
  rw [BitVec.toNat_or, hshift, Nat.or_comm, ← Nat.two_pow_add_eq_or_of_lt hx, Nat.add_comm]

/-- The loop of the reader, with the groups below `i` already in `result`. -/
theorem parses_readVarint {w V : ℕ} (hV : V < 2 ^ w) {room i : ℕ} {result : BitVec w}
    {bs : List UInt8} (hbs : varint room (V / 2 ^ i) = some bs) (hres : result.toNat = V % 2 ^ i) :
    Parses n e (readVarint host room i result) bs (BitVec.ofNat w V) := by
  induction room generalizing i result bs with
  | zero => simp [varint] at hbs
  | succ room ih =>
    have hdm := Nat.div_add_mod V (2 ^ i)
    have hlow : result.toNat < 2 ^ i := hres ▸ Nat.mod_lt V (Nat.two_pow_pos i)
    rcases varint_eq hbs with ⟨hsmall, rfl⟩ | ⟨hbig, rest, rfl, hrest⟩
    · have hbyte : (UInt8.ofNat (V / 2 ^ i)).toNat = V / 2 ^ i := by
        rw [UInt8.toNat_ofNat', Nat.mod_eq_of_lt (by omega)]
      have hlt : UInt8.ofNat (V / 2 ^ i) < 0x80 := by
        rw [UInt8.lt_iff_toNat_lt, hbyte]
        exact hsmall
      have hval : result ||| (BitVec.ofNat w (UInt8.ofNat (V / 2 ^ i)).toNat <<< i) =
          BitVec.ofNat w V := by
        apply BitVec.eq_of_toNat_eq
        rw [hbyte, toNat_or_shift hlow (by omega), hres, BitVec.toNat_ofNat, Nat.mod_eq_of_lt hV]
        omega
      rw [← List.append_nil [_]]
      refine (parses_readFuint8 _).bind ?_
      rw [if_pos hlt, hval]
      exact parses_pure _
    · have hbyte : (UInt8.ofNat (V / 2 ^ i % 128 + 128)).toNat = V / 2 ^ i % 128 + 128 := by
        rw [UInt8.toNat_ofNat', Nat.mod_eq_of_lt (by omega)]
      have hge : ¬ UInt8.ofNat (V / 2 ^ i % 128 + 128) < 0x80 := by
        rw [UInt8.lt_iff_toNat_lt, hbyte]
        exact not_lt.2 (Nat.le_add_left _ _)
      have hgroup : (UInt8.ofNat (V / 2 ^ i % 128 + 128) &&& 0x7f).toNat = V / 2 ^ i % 128 := by
        rw [UInt8.toNat_and, hbyte]
        refine (and_7F _).trans ?_
        omega
      have hle : 2 ^ i * (V / 2 ^ i % 128) ≤ 2 ^ i * (V / 2 ^ i) :=
        Nat.mul_le_mul_left _ (Nat.mod_le _ _)
      have hpow : 2 ^ (i + 7) = 2 ^ i * 128 := Nat.pow_add 2 i 7
      rw [← List.singleton_append]
      refine (parses_readFuint8 _).bind ?_
      rw [if_neg hge]
      apply ih
      · rwa [hpow, ← Nat.div_div_eq_div_mul]
      · rw [hgroup, toNat_or_shift hlow (by omega), hres, hpow, Nat.mod_mul]

end

/-! ## Lists of numbers -/

/-- A value of any numeric kind. -/
inductive Number
  | fint8 (v : Int8) | fuint8 (v : UInt8)
  | fint16 (v : Int16) | fuint16 (v : UInt16)
  | fint32 (v : Int32) | fuint32 (v : UInt32)
  | fint64 (v : Int64) | fuint64 (v : UInt64)
  | int32 (v : Int32) | uint32 (v : UInt32)
  | int64 (v : Int64) | uint64 (v : UInt64)
  | float (bits : UInt32) | double (bits : UInt64)
  deriving DecidableEq

inductive Kind
  | fint8 | fuint8 | fint16 | fuint16 | fint32 | fuint32 | fint64 | fuint64
  | int32 | uint32 | int64 | uint64 | float | double
  deriving DecidableEq, Repr

def Number.kind : Number → Kind
  | .fint8 _ => .fint8 | .fuint8 _ => .fuint8
  | .fint16 _ => .fint16 | .fuint16 _ => .fuint16
  | .fint32 _ => .fint32 | .fuint32 _ => .fuint32
  | .fint64 _ => .fint64 | .fuint64 _ => .fuint64
  | .int32 _ => .int32 | .uint32 _ => .uint32
  | .int64 _ => .int64 | .uint64 _ => .uint64
  | .float _ => .float | .double _ => .double

section
variable (host : Endian)

/-- The matching writer. -/
def Number.write : Number → M Unit
  | .fint8 v => writeFint8 host v
  | .fuint8 v => writeFuint8 host v
  | .fint16 v => writeFint16 host v
  | .fuint16 v => writeFuint16 host v
  | .fint32 v => writeFint32 host v
  | .fuint32 v => writeFuint32 host v
  | .fint64 v => writeFint64 host v
  | .fuint64 v => writeFuint64 host v
  | .int32 v => writeInt32 v
  | .uint32 v => writeUint32 v
  | .int64 v => writeInt64 v
  | .uint64 v => writeUint64 v
  | .float bits => writeFloat host bits
  | .double bits => writeDouble host bits

/-- The matching reader. -/
def Kind.read : Kind → M Number
  | .fint8 => .fint8 <$> readFint8 host
  | .fuint8 => .fuint8 <$> readFuint8 host
  | .fint16 => .fint16 <$> readFint16 host
  | .fuint16 => .fuint16 <$> readFuint16 host
  | .fint32 => .fint32 <$> readFint32 host
  | .fuint32 => .fuint32 <$> readFuint32 host
  | .fint64 => .fint64 <$> readFint64 host
  | .fuint64 => .fuint64 <$> readFuint64 host
  | .int32 => .int32 <$> readInt32 host
  | .uint32 => .uint32 <$> readUint32 host
  | .int64 => .int64 <$> readInt64 host
  | .uint64 => .uint64 <$> readUint64 host
  | .float => .float <$> readFloat host
  | .double => .double <$> readDouble host

def writeAll : List Number → M Unit
  | [] => pure ()
  | v :: vs => do
    v.write host
    writeAll vs

def readAll : List Kind → M (List Number)
  | [] => pure []
  | c :: cs => do
    let v ← c.read host
    let vs ← readAll cs
    return v :: vs

end

section
variable {n : ℕ} {e : Endian} (host : Endian)

theorem parses_varint {w room V : ℕ} {bs : List UInt8} (hV : V < 2 ^ w)
    (hbs : varint room V = some bs) :
    Parses n e (readVarint host room 0 0#w) bs (BitVec.ofNat w V) := by
  apply parses_readVarint hV
  · rwa [Nat.pow_zero, Nat.div_one]
  · rw [Nat.pow_zero, Nat.mod_one, BitVec.toNat_ofNat, Nat.zero_mod]

theorem parses_readUint32 {v : UInt32} {bs : List UInt8} (hbs : varint 5 v.toNat = some bs) :
    Parses n e (readUint32 host) bs v := by
  have h := parses_varint (n := n) (e := e) host v.toBitVec.isLt hbs
  rw [BitVec.ofNat_toNat, BitVec.setWidth_eq] at h
  exact h.map UInt32.ofBitVec

theorem parses_readUint64 {v : UInt64} {bs : List UInt8} (hbs : varint 10 v.toNat = some bs) :
    Parses n e (readUint64 host) bs v := by
  have h := parses_varint (n := n) (e := e) host v.toBitVec.isLt hbs
  rw [BitVec.ofNat_toNat, BitVec.setWidth_eq] at h
  exact h.map UInt64.ofBitVec

theorem uint32_codec (v : UInt32) : Codec n e (writeUint32 v) (readUint32 host) v := by
  obtain ⟨bs, hbs⟩ := varint_fits (v.toNat_lt.trans (by decide)) (show 0 < 5 by decide)
  exact ⟨bs, emits_writeVarint hbs, parses_readUint32 host hbs⟩

theorem uint64_codec (v : UInt64) : Codec n e (writeUint64 v) (readUint64 host) v := by
  obtain ⟨bs, hbs⟩ := varint_fits (v.toNat_lt.trans (by decide)) (show 0 < 10 by decide)
  exact ⟨bs, emits_writeVarint hbs, parses_readUint64 host hbs⟩

theorem int32_codec (v : Int32) : Codec n e (writeInt32 v) (readInt32 host) v := by
  have hdec : decodeZigzag32 (encodeZigzag32 v) = v :=
    congrArg Int32.ofBitVec (unzigzag_zigzag (by decide) v.toBitVec)
  have h := (uint32_codec (n := n) (e := e) host (encodeZigzag32 v)).map decodeZigzag32
  rwa [hdec] at h

theorem int64_codec (v : Int64) : Codec n e (writeInt64 v) (readInt64 host) v := by
  have hdec : decodeZigzag64 (encodeZigzag64 v) = v :=
    congrArg Int64.ofBitVec (unzigzag_zigzag (by decide) v.toBitVec)
  have h := (uint64_codec (n := n) (e := e) host (encodeZigzag64 v)).map decodeZigzag64
  rwa [hdec] at h

theorem fixed_codec {α : Type} {k : ℕ} (hk : 0 < k) (f : BitVec (8 * k) → α)
    (v : BitVec (8 * k)) : Codec n e (writeFixed host k v) (f <$> readFixed host k) (f v) :=
  ⟨_, emits_writeFixed v, (parses_readFixed hk v).map f⟩

theorem byte_codec {α : Type} (f : BitVec 8 → α) (v : BitVec 8) :
    Codec n e (write (memBytes host 1 v)) (do return f (ofMem host 1 (← read 1))) (f v) :=
  ⟨_, emits_write _, parses_byte f v⟩

/-- The reader of its kind gives back a number. -/
theorem number_codec (v : Number) : Codec n e (v.write host) (v.kind.read host) v := by
  cases v with
  | fint8 v => exact (byte_codec host Int8.ofBitVec v.toBitVec).map Number.fint8
  | fuint8 v => exact (byte_codec host UInt8.ofBitVec v.toBitVec).map Number.fuint8
  | fint16 v => exact (fixed_codec host (k := 2) (by decide) Int16.ofBitVec v.toBitVec).map Number.fint16
  | fuint16 v =>
    exact (fixed_codec host (k := 2) (by decide) UInt16.ofBitVec v.toBitVec).map Number.fuint16
  | fint32 v => exact (fixed_codec host (k := 4) (by decide) Int32.ofBitVec v.toBitVec).map Number.fint32
  | fuint32 v =>
    exact (fixed_codec host (k := 4) (by decide) UInt32.ofBitVec v.toBitVec).map Number.fuint32
  | fint64 v => exact (fixed_codec host (k := 8) (by decide) Int64.ofBitVec v.toBitVec).map Number.fint64
  | fuint64 v =>
    exact (fixed_codec host (k := 8) (by decide) UInt64.ofBitVec v.toBitVec).map Number.fuint64
  | int32 v => exact (int32_codec host v).map Number.int32
  | uint32 v => exact (uint32_codec host v).map Number.uint32
  | int64 v => exact (int64_codec host v).map Number.int64
  | uint64 v => exact (uint64_codec host v).map Number.uint64
  | float bits =>
    exact (fixed_codec host (k := 4) (by decide) UInt32.ofBitVec bits.toBitVec).map Number.float
  | double bits =>
    exact (fixed_codec host (k := 8) (by decide) UInt64.ofBitVec bits.toBitVec).map Number.double

theorem numbers_codec (vs : List Number) :
    Codec n e (writeAll host vs) (readAll host (vs.map Number.kind)) vs := by
  induction vs with
  | nil => exact ⟨[], emits_pure, parses_pure []⟩
  | cons v vs ih =>
    obtain ⟨xs, hw, hr⟩ := number_codec (n := n) (e := e) host v
    obtain ⟨ys, hws, hrs⟩ := ih
    refine ⟨xs ++ ys, hw.seq hws, hr.bind ?_⟩
    rw [← List.append_nil ys]
    exact hrs.bind (parses_pure _)

end

/-- Numbers of any kinds, written to an empty array in either byte order on either host, are read
back from the start, and nothing is left to read. -/
theorem numbers_round_trip (host : Endian) (little : Bool) {base : ℕ} (hbase : 1 ≤ base)
    (heap : ℕ → UInt8) (vs : List Number) :
    ∃ b', (do
        writeAll host vs
        setPosition 0
        readAll host (vs.map Number.kind)) ((new base heap).setIsLittleEndian little) = .ok vs b' ∧
      b'.getReadSize = 0 := by
  obtain ⟨bs, hw, hr⟩ := numbers_codec (n := base) (e := if little then .little else .big) host vs
  obtain ⟨b₁, hrun₁, h₁⟩ := hw _ [] (holds_new hbase heap little)
  obtain ⟨b₂, hrun₂, h₂⟩ := h₁.setPosition_zero
  obtain ⟨b₃, hrun₃, h₃⟩ := hr b₂ [] [] (by simpa using h₂)
  refine ⟨b₃, (bind_ok hrun₁).trans ((bind_ok hrun₂).trans hrun₃), ?_⟩
  rw [getReadSize, h₃.size_eq, h₃.position_eq]
  simp

/-- Nodes of three bytes, so that every value crosses a boundary; the least `int32_t` among them. -/
theorem numbers_round_trip_mixed : ∃ b', (do
      writeAll .little [.int32 (-2147483648), .uint64 300, .fint16 (-2), .float 0x3f800000]
      setPosition 0
      readAll .little [.int32, .uint64, .fint16, .float])
        ((new 3 fun _ => 0).setIsLittleEndian false) =
      .ok [.int32 (-2147483648), .uint64 300, .fint16 (-2), .float 0x3f800000] b' ∧
    b'.getReadSize = 0 :=
  numbers_round_trip .little false (by decide) _ _

end CoroutineScheduler.ByteArray
