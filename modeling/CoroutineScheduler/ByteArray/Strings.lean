import Mathlib.Tactic
import CoroutineScheduler.ByteArray.Numbers

/-!
# Strings in the byte array

A string is written as its length, in one of four formats, and its bytes. The readers copy the
bytes with `read(&buff[0], len)`, which looks at `m_cur->size` before it looks at `len`. For an
empty string whose length prefix ends at the last byte of the last node, `m_cur` is null there.
This happens to an empty last string of a stream that fills its nodes, and to no other
(`strings_round_trip_iff`).
-/

namespace CoroutineScheduler.ByteArray

open Splice Wire

/-! ## Writers and readers -/

section
variable (host : Endian)

def writeStringF16 (value : List UInt8) : M Unit := do
  writeFuint16 host (UInt16.ofNat value.length)
  write value

def writeStringF32 (value : List UInt8) : M Unit := do
  writeFuint32 host (UInt32.ofNat value.length)
  write value

def writeStringF64 (value : List UInt8) : M Unit := do
  writeFuint64 host (UInt64.ofNat value.length)
  write value

def writeStringVint (value : List UInt8) : M Unit := do
  writeUint64 (UInt64.ofNat value.length)
  write value

/-- `buff.resize(len)` and `read(&buff[0], len)`. A string has at most `maxSize` bytes, that is
`max_size()`, or less where the memory for it is not there; `resize` throws beyond. -/
def readBuff (maxSize len : ℕ) : M (List UInt8) := do
  if len > maxSize then throw .lengthError
  read len

def readStringF16 (maxSize : ℕ) : M (List UInt8) := do
  let len ← readFuint16 host
  readBuff maxSize len.toNat

def readStringF32 (maxSize : ℕ) : M (List UInt8) := do
  let len ← readFuint32 host
  readBuff maxSize len.toNat

def readStringF64 (maxSize : ℕ) : M (List UInt8) := do
  let len ← readFuint64 host
  readBuff maxSize len.toNat

def readStringVint (maxSize : ℕ) : M (List UInt8) := do
  let len ← readUint64 host
  readBuff maxSize len.toNat

end

/-- How the length is written. -/
inductive Format
  | f16 | f32 | f64 | vint
  deriving DecidableEq, Repr

/-- The lengths a format is used for: those its prefix can hold. `size()` is a `size_t`. -/
def Format.limit : Format → ℕ
  | .f16 => 2 ^ 16
  | .f32 => 2 ^ 32
  | .f64 | .vint => 2 ^ 64

/-- A string and the format it is written in. -/
structure Text where
  format : Format
  bytes : List UInt8
  fits : bytes.length < format.limit

/-- The bytes of the length prefix. -/
def Text.prefixLength (t : Text) : ℕ :=
  match t.format with
  | .f16 => 2
  | .f32 => 4
  | .f64 => 8
  | .vint => ((varint 10 t.bytes.length).getD []).length

/-- The bytes that the writer of a string appends. -/
def Text.wireLength (t : Text) : ℕ := t.prefixLength + t.bytes.length

section
variable (host : Endian)

def Text.write (t : Text) : M Unit :=
  match t.format with
  | .f16 => writeStringF16 host t.bytes
  | .f32 => writeStringF32 host t.bytes
  | .f64 => writeStringF64 host t.bytes
  | .vint => writeStringVint t.bytes

def Format.read (maxSize : ℕ) : Format → M (List UInt8)
  | .f16 => readStringF16 host maxSize
  | .f32 => readStringF32 host maxSize
  | .f64 => readStringF64 host maxSize
  | .vint => readStringVint host maxSize

def writeTexts : List Text → M Unit
  | [] => pure ()
  | t :: ts => do
    t.write host
    writeTexts ts

def readTexts (maxSize : ℕ) : List Format → M (List (List UInt8))
  | [] => pure []
  | f :: fs => do
    let s ← f.read host maxSize
    let ss ← readTexts maxSize fs
    return s :: ss

end

theorem readBuff_eq {maxSize len : ℕ} (h : len ≤ maxSize) : readBuff maxSize len = read len := by
  rw [readBuff, if_neg (by omega)]

/-! ## One string -/

section
variable {k : ℕ} {e : Endian} {α : Type}

/-- The prefix `p` is what the writer of a text puts before its bytes, and what the reader takes
the length from. -/
structure Framed (k : ℕ) (e : Endian) (host : Endian) (t : Text) (p : List UInt8) : Prop where
  emits : Emits k e (t.write host) (p ++ t.bytes)
  length_eq : p.length = t.prefixLength
  pos : 0 < p.length
  reads : ∃ (α : Type) (m : M α) (g : α → ℕ) (a : α),
    (∀ maxSize, t.format.read host maxSize = (m >>= fun len => readBuff maxSize (g len))) ∧
      Parses k e m p a ∧ g a = t.bytes.length

theorem framed_fixed {host : Endian} {t : Text} {n : ℕ} {v : BitVec (8 * n)} {f : BitVec (8 * n) → α}
    {g : α → ℕ} (hn : 0 < n) (hlen : t.prefixLength = n) (hval : g (f v) = t.bytes.length)
    (hw : t.write host = (writeFixed host n v >>= fun _ => write t.bytes))
    (hr : ∀ maxSize, t.format.read host maxSize =
      (f <$> readFixed host n >>= fun len => readBuff maxSize (g len))) :
    Framed k e host t (fixedBytes host e n v) := by
  have hp : (fixedBytes host e n v).length = n := length_memBytes host _
  refine ⟨?_, hp.trans hlen.symm, hp.symm ▸ hn,
    ⟨α, _, g, f v, hr, (parses_readFixed hn v).map f, hval⟩⟩
  rw [hw]
  exact (emits_writeFixed v).seq (emits_write t.bytes)

theorem exists_framed (host : Endian) (t : Text) : ∃ p, Framed k e host t p := by
  obtain ⟨format, s, hfits⟩ := t
  cases format with
  | f16 =>
    exact ⟨_, framed_fixed (n := 2) (v := (UInt16.ofNat s.length).toBitVec) (f := UInt16.ofBitVec)
      (g := UInt16.toNat) (by decide) rfl (UInt16.toNat_ofNat_of_lt' hfits) rfl fun _ => rfl⟩
  | f32 =>
    exact ⟨_, framed_fixed (n := 4) (v := (UInt32.ofNat s.length).toBitVec) (f := UInt32.ofBitVec)
      (g := UInt32.toNat) (by decide) rfl (UInt32.toNat_ofNat_of_lt' hfits) rfl fun _ => rfl⟩
  | f64 =>
    exact ⟨_, framed_fixed (n := 8) (v := (UInt64.ofNat s.length).toBitVec) (f := UInt64.ofBitVec)
      (g := UInt64.toNat) (by decide) rfl (UInt64.toNat_ofNat_of_lt' hfits) rfl fun _ => rfl⟩
  | vint =>
    have hval : (UInt64.ofNat s.length).toNat = s.length := UInt64.toNat_ofNat_of_lt' hfits
    obtain ⟨p, hp⟩ := varint_fits ((UInt64.ofNat s.length).toNat_lt.trans (by decide))
      (show 0 < 10 by decide)
    have hpos : 0 < p.length := by
      rcases varint_eq hp with ⟨-, rfl⟩ | ⟨-, rest, rfl, -⟩ <;> simp
    refine ⟨p, (emits_writeVarint hp).seq (emits_write s), ?_, hpos,
      ⟨UInt64, _, UInt64.toNat, _, fun _ => rfl, parses_readUint64 host hp, hval⟩⟩
    rw [hval] at hp
    simp [Text.prefixLength, hp]

variable {host : Endian} {t : Text} {p : List UInt8} {b : ByteArray} {pre post : List UInt8}
  {maxSize : ℕ}

/-- A text is read if it is not empty or the cursor still has a node behind the prefix. -/
theorem Framed.read (hf : Framed k e host t p) (hmax : t.bytes.length ≤ maxSize)
    (h : Holds k e b (pre ++ ((p ++ t.bytes) ++ post)) pre.length)
    (hcur : t.bytes = [] → (pre ++ p).length < k * pages k (pre ++ ((p ++ t.bytes) ++ post)).length) :
    ∃ b', t.format.read host maxSize b = .ok t.bytes b' ∧
      Holds k e b' (pre ++ ((p ++ t.bytes) ++ post)) (pre ++ (p ++ t.bytes)).length := by
  obtain ⟨α, m, g, a, hread, hparse, hlen⟩ := hf.reads
  rw [List.append_assoc p] at h hcur ⊢
  obtain ⟨b₁, hrun₁, h₁⟩ := hparse b pre (t.bytes ++ post) h
  rw [← List.append_assoc pre] at h₁
  have hnode : (pre ++ p).length < k * pages k ((pre ++ p) ++ (t.bytes ++ post)).length := by
    by_cases hempty : t.bytes = []
    · rw [List.append_assoc]
      exact hcur hempty
    · refine lt_of_lt_of_le ?_ (le_mul_pages (h.base_eq ▸ h.valid.base_pos))
      have hne := List.length_pos_of_ne_nil hempty
      simp only [List.length_append]
      omega
  obtain ⟨b₂, hrun₂, h₂⟩ := h₁.read hnode
  refine ⟨b₂, ?_, ?_⟩
  · rw [hread, bind_ok hrun₁, hlen, readBuff_eq hmax, hrun₂]
  · simpa only [List.append_assoc] using h₂

/-- An empty text at the end of the last node: `m_cur` is null behind its prefix. -/
theorem Framed.read_null (hf : Framed k e host t p) (ht : t.bytes = [])
    (h : Holds k e b (pre ++ p) pre.length)
    (hfull : k * pages k (pre ++ p).length = (pre ++ p).length) :
    ∃ b', t.format.read host maxSize b = .error .nullNode b' := by
  obtain ⟨α, m, g, a, hread, hparse, hlen⟩ := hf.reads
  obtain ⟨b₁, hrun₁, h₁⟩ := hparse b pre [] (by simpa using h)
  rw [List.append_nil] at h₁
  have hcur : ¬b₁.position < b₁.capacity := by
    rw [h₁.position_eq, h₁.capacity_eq, hfull]
    exact lt_irrefl _
  refine ⟨b₁, ?_⟩
  rw [hread, bind_ok hrun₁, hlen, ht, List.length_nil, readBuff_eq (Nat.zero_le _),
    h₁.valid.read_null (Nat.zero_le _) hcur]

end

/-! ## Lists of strings -/

/-- The last string is empty. -/
def LastEmpty (ts : List Text) : Prop := ∃ t, ts.getLast? = some t ∧ t.bytes = []

/-- The bytes that the writers append. -/
def wireLength (ts : List Text) : ℕ := (ts.map Text.wireLength).sum

section
variable {k : ℕ} {e host : Endian} {maxSize : ℕ}

/-- The texts with the prefixes their writers make. -/
inductive AllFramed (k : ℕ) (e host : Endian) : List Text → List UInt8 → Prop
  | nil : AllFramed k e host [] []
  | cons {t : Text} {ts : List Text} {p bs : List UInt8} (h : Framed k e host t p)
      (hs : AllFramed k e host ts bs) : AllFramed k e host (t :: ts) ((p ++ t.bytes) ++ bs)

theorem exists_allFramed (ts : List Text) : ∃ bs, AllFramed k e host ts bs := by
  induction ts with
  | nil => exact ⟨[], .nil⟩
  | cons t ts ih =>
    obtain ⟨p, hp⟩ := exists_framed (k := k) (e := e) host t
    obtain ⟨bs, hbs⟩ := ih
    exact ⟨_, .cons hp hbs⟩

theorem AllFramed.emits {ts : List Text} {bs : List UInt8} (h : AllFramed k e host ts bs) :
    Emits k e (writeTexts host ts) bs := by
  induction h with
  | nil => exact emits_pure
  | cons h _ ih => exact h.emits.seq ih

theorem AllFramed.length_eq {ts : List Text} {bs : List UInt8} (h : AllFramed k e host ts bs) :
    bs.length = wireLength ts := by
  induction h with
  | nil => rfl
  | cons h _ ih =>
    simp only [List.length_append, h.length_eq, ih, wireLength, List.map_cons, List.sum_cons,
      Text.wireLength]

theorem AllFramed.length_pos {ts : List Text} {bs : List UInt8} (h : AllFramed k e host ts bs)
    (hts : ts ≠ []) : 0 < bs.length := by
  cases h with
  | nil => exact absurd rfl hts
  | cons h _ =>
    have := h.pos
    simp only [List.length_append]
    omega

theorem lastEmpty_cons {t : Text} {ts : List Text} (hts : ts ≠ []) :
    LastEmpty (t :: ts) ↔ LastEmpty ts := by
  obtain ⟨u, us, rfl⟩ := List.exists_cons_of_ne_nil hts
  simp only [LastEmpty, List.getLast?_cons_cons]

theorem lastEmpty_singleton {t : Text} : LastEmpty [t] ↔ t.bytes = [] := by simp [LastEmpty]

/-- All texts are read, unless the last one is empty and its prefix fills the last node. -/
theorem AllFramed.reads {ts : List Text} {bs : List UInt8} (h : AllFramed k e host ts bs)
    {b : ByteArray} {pre : List UInt8} (hb : Holds k e b (pre ++ bs) pre.length)
    (hmax : ∀ t ∈ ts, t.bytes.length ≤ maxSize)
    (hok : ¬ (LastEmpty ts ∧ (pre ++ bs).length % k = 0)) :
    ∃ b', readTexts host maxSize (ts.map Text.format) b = .ok (ts.map Text.bytes) b' ∧
      Holds k e b' (pre ++ bs) (pre ++ bs).length := by
  have hk : 0 < k := hb.base_eq ▸ hb.valid.base_pos
  induction h generalizing b pre with
  | nil => exact ⟨b, rfl, by simpa using hb⟩
  | @cons t ts p bs hf hs ih =>
    have hnode : t.bytes = [] →
        (pre ++ p).length < k * pages k (pre ++ ((p ++ t.bytes) ++ bs)).length := by
      intro hempty
      have hle := le_mul_pages (n := (pre ++ ((p ++ t.bytes) ++ bs)).length) hk
      by_cases hts : ts = []
      · -- the last text: its prefix does not end a node
        subst hts
        cases hs
        have hrem : (pre ++ ((p ++ t.bytes) ++ [])).length % k ≠ 0 := fun h0 =>
          hok ⟨lastEmpty_singleton.2 hempty, h0⟩
        have hpos : 0 < (pre ++ ((p ++ t.bytes) ++ [])).length := by
          apply Nat.pos_of_ne_zero
          intro h0
          rw [h0] at hrem
          exact hrem (Nat.zero_mod k)
        have hne := mt (mul_pages_eq_iff hk hpos).1 hrem
        simp only [hempty, List.append_nil] at hle hne ⊢
        omega
      · have hmore := hs.length_pos hts
        refine lt_of_lt_of_le ?_ hle
        simp only [List.length_append]
        omega
    obtain ⟨b₁, hrun₁, h₁⟩ := hf.read (hmax t (List.mem_cons_self ..)) hb hnode
    rw [← List.append_assoc pre] at h₁ hok ⊢
    have hok' : ¬ (LastEmpty ts ∧ ((pre ++ (p ++ t.bytes)) ++ bs).length % k = 0) := by
      rintro ⟨hlast, h0⟩
      have hts : ts ≠ [] := by
        rintro rfl
        simp [LastEmpty] at hlast
      exact hok ⟨(lastEmpty_cons hts).2 hlast, h0⟩
    obtain ⟨b₂, hrun₂, h₂⟩ := ih h₁ (fun u hu => hmax u (List.mem_cons_of_mem _ hu)) hok'
    refine ⟨b₂, ?_, h₂⟩
    exact (bind_ok hrun₁).trans ((bind_ok hrun₂).trans rfl)

/-- The prefix of the empty last text fills the last node: reading it dereferences null. -/
theorem AllFramed.read_null {ts : List Text} {bs : List UInt8} (h : AllFramed k e host ts bs)
    {b : ByteArray} {pre : List UInt8} (hb : Holds k e b (pre ++ bs) pre.length)
    (hmax : ∀ t ∈ ts, t.bytes.length ≤ maxSize)
    (hlast : LastEmpty ts) (hfull : (pre ++ bs).length % k = 0) :
    ∃ b', readTexts host maxSize (ts.map Text.format) b = .error .nullNode b' := by
  have hk : 0 < k := hb.base_eq ▸ hb.valid.base_pos
  induction h generalizing b pre with
  | nil => simp [LastEmpty] at hlast
  | @cons t ts p bs hf hs ih =>
    by_cases hts : ts = []
    · subst hts
      cases hs
      have hempty := lastEmpty_singleton.1 hlast
      have hpos := hf.pos
      simp only [hempty, List.append_nil] at hb hfull
      have hend := (mul_pages_eq_iff hk (by rw [List.length_append]; omega)).2 hfull
      obtain ⟨b', hrun⟩ := hf.read_null hempty hb hend
      exact ⟨b', bind_error hrun⟩
    · have hmore := hs.length_pos hts
      obtain ⟨b₁, hrun₁, h₁⟩ := hf.read (hmax t (List.mem_cons_self ..)) hb fun _ => by
        refine lt_of_lt_of_le ?_ (le_mul_pages hk)
        simp only [List.length_append]
        omega
      rw [← List.append_assoc pre] at h₁ hfull
      obtain ⟨b₂, hrun₂⟩ := ih h₁ (fun u hu => hmax u (List.mem_cons_of_mem _ hu))
        ((lastEmpty_cons hts).1 hlast) hfull
      exact ⟨b₂, (bind_ok hrun₁).trans (bind_error hrun₂)⟩

end

/-- Write the texts, go back to the start, read them. -/
def textsThere (host : Endian) (maxSize : ℕ) (ts : List Text) : M (List (List UInt8)) := do
  writeTexts host ts
  setPosition 0
  readTexts host maxSize (ts.map Text.format)

/-- The strings, which are no longer than a string can be, come back, with nothing left to read,
exactly when the stream does not end in an empty string that fills the last node. -/
theorem strings_round_trip_iff (host : Endian) (little : Bool) {base : ℕ} (hbase : 1 ≤ base)
    (heap : ℕ → UInt8) {maxSize : ℕ} {ts : List Text} (hmax : ∀ t ∈ ts, t.bytes.length ≤ maxSize) :
    (∃ b', textsThere host maxSize ts ((new base heap).setIsLittleEndian little) =
        .ok (ts.map Text.bytes) b' ∧ b'.getReadSize = 0) ↔
      ¬ (LastEmpty ts ∧ wireLength ts % base = 0) := by
  obtain ⟨bs, hbs⟩ := exists_allFramed (k := base) (e := if little then .little else .big) ts
  obtain ⟨b₁, hrun₁, h₁⟩ := hbs.emits _ [] (holds_new hbase heap little)
  obtain ⟨b₂, hrun₂, h₂⟩ := h₁.setPosition_zero
  have hread : Holds base (if little then .little else .big) b₂ ([] ++ bs) ([] : List UInt8).length :=
    h₂
  have hstart : ∀ {r}, readTexts host maxSize (ts.map Text.format) b₂ = r →
      textsThere host maxSize ts ((new base heap).setIsLittleEndian little) = r := fun hr =>
    (bind_ok hrun₁).trans ((bind_ok hrun₂).trans hr)
  rw [← hbs.length_eq]
  constructor
  · rintro ⟨b', hrun, -⟩ ⟨hlast, hfull⟩
    obtain ⟨c, hnull⟩ := hbs.read_null hread hmax hlast hfull
    rw [hstart hnull] at hrun
    nomatch hrun
  · intro hok
    obtain ⟨b₃, hrun₃, h₃⟩ := hbs.reads hread hmax hok
    refine ⟨b₃, hstart hrun₃, ?_⟩
    rw [getReadSize, h₃.size_eq, h₃.position_eq, Nat.sub_self]

/-- An empty string in front of another one is read. -/
theorem strings_round_trip_empty : ∃ b',
    textsThere .little (2 ^ 63 - 1) [⟨.f16, [], by decide⟩, ⟨.vint, [7, 7], by decide⟩]
        ((new 2 fun _ => 0).setIsLittleEndian false) = .ok [[], [7, 7]] b' ∧ b'.getReadSize = 0 := by
  refine (strings_round_trip_iff .little false (by decide) (fun _ => 0) (by decide)).2 ?_
  rintro ⟨-, hfull⟩
  exact absurd hfull (by decide)

/-- One empty string in an array with nodes of two bytes: its prefix fills the only node. -/
theorem empty_string_null : ¬ ∃ b',
    textsThere .little (2 ^ 63 - 1) [⟨.f16, [], by decide⟩] ((new 2 fun _ => 0).setIsLittleEndian false) =
      .ok [[]] b' ∧ b'.getReadSize = 0 := by
  rintro ⟨b', hrun, -⟩
  nomatch hrun

end CoroutineScheduler.ByteArray
