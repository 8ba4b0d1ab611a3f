import Mathlib.Tactic
import CoroutineScheduler.ByteArray.Flat

/-!
# Writers and readers of a stream of bytes

`Holds k e b data p` says that the array `b`, of base size `k` and byte order `e`, contains the
bytes `data` and that its cursor stands at `p`. A writer at the end of the data appends its bytes
(`Emits`), and a reader in front of the bytes it expects consumes them (`Parses`). Both compose
along the bytes.

An array that was only appended to has the least number of nodes for its data (`pages`). This
decides whether its last byte is the last byte of a node.
-/

namespace CoroutineScheduler.ByteArray

open Splice

/-- The nodes of an array that was filled up to `n` bytes. -/
def pages (k n : ℕ) : ℕ := max 1 ((n + k - 1) / k)

section
variable {k n m : ℕ}

theorem le_mul_ceil (hk : 0 < k) (n : ℕ) : n ≤ k * ((n + k - 1) / k) := by
  have hdm := Nat.div_add_mod (n + k - 1) k
  have hlt := Nat.mod_lt (n + k - 1) hk
  omega

theorem le_mul_pages (hk : 0 < k) : n ≤ k * pages k n :=
  (le_mul_ceil hk n).trans (Nat.mul_le_mul_left k (le_max_right _ _))

/-- Filled nodes are full when the data is a multiple of the node size. -/
theorem mul_pages_eq_iff (hk : 0 < k) (hn : 0 < n) : k * pages k n = n ↔ n % k = 0 := by
  constructor
  · intro h
    rw [← h, Nat.mul_mod_right]
  · intro h
    obtain ⟨q, rfl⟩ := Nat.dvd_of_mod_eq_zero h
    have hq : 0 < q := Nat.pos_of_mul_pos_left hn
    have hceil : (k * q + k - 1) / k = q := by
      rw [Nat.add_sub_assoc hk, Nat.mul_add_div hk, Nat.div_eq_of_lt (by omega), Nat.add_zero]
    rw [pages, hceil, max_eq_right hq]

/-- Appending `m` bytes adds what takes the least number of nodes for `n` bytes to the least number
for `n + m`. -/
theorem pages_add (hk : 0 < k) :
    k * pages k n + extra k (k * pages k n - n) m = k * pages k (n + m) := by
  have hn := le_mul_pages (n := n) hk
  by_cases hfit : m ≤ k * pages k n - n
  · rw [extra_of_le hk hfit, Nat.add_zero]
    congr 1
    apply le_antisymm
    · exact max_le_max le_rfl (Nat.div_le_div_right (by omega))
    · refine max_le (le_max_left _ _) ?_
      rw [Nat.div_le_iff_le_mul_add_pred hk]
      omega
  · have hbig : 1 ≤ (n + m + k - 1) / k := Nat.div_pos (by omega) hk
    have hpages : pages k (n + m) = (n + m + k - 1) / k := max_eq_right hbig
    rw [extra, ← Nat.mul_add, hpages]
    congr 1
    rw [Nat.add_comm, ← Nat.add_mul_div_left _ _ hk]
    congr 1
    omega

end

/-- The array seen as a flat buffer. -/
def Valid.flat {b : ByteArray} (h : Valid b) : Flat where
  base := b.baseSize
  bytes := b.bytes
  position := b.position
  size := b.size
  heap := b.heap
  base_pos := h.base_pos
  position_le := h.position_le
  size_le := h.size_le.trans h.length_bytes.ge

theorem Valid.sim {b : ByteArray} (h : Valid b) : Sim b h.flat := ⟨h, rfl, rfl, rfl, rfl, rfl⟩

/-- `buf` was written at the cursor of `b`. -/
structure Wrote (b b' : ByteArray) (buf : List UInt8) : Prop where
  valid : Valid b'
  base_eq : b'.baseSize = b.baseSize
  endian_eq : b'.endian = b.endian
  position_eq : b'.position = b.position + buf.length
  size_eq : b'.size = max b.size (b.position + buf.length)
  capacity_eq : b'.capacity = b.capacity + extra b.baseSize (b.capacity - b.position) buf.length
  bytes_eq : b'.bytes =
    patch (b.bytes ++ fresh (extra b.baseSize (b.capacity - b.position) buf.length) b.heap)
      b.position buf

/-- The cursor of `b` went to `p`. -/
structure Moved (b b' : ByteArray) (p : ℕ) : Prop where
  valid : Valid b'
  base_eq : b'.baseSize = b.baseSize
  endian_eq : b'.endian = b.endian
  position_eq : b'.position = p
  size_eq : b'.size = max b.size p
  capacity_eq : b'.capacity = b.capacity
  bytes_eq : b'.bytes = b.bytes

section
variable {b : ByteArray}

theorem Valid.write (h : Valid b) (buf : List UInt8) :
    ∃ b', ByteArray.write buf b = .ok () b' ∧ Wrote b b' buf := by
  obtain ⟨b', hrun, hs, hend⟩ := h.sim.write buf
  have hroom := h.flat.reserve_room buf.length
  have hbytes : (h.flat.reserve buf.length).bytes =
      b.bytes ++ fresh (extra b.baseSize (b.capacity - b.position) buf.length) b.heap := by
    rw [← h.length_bytes]
    rfl
  refine ⟨b', hrun, hs.valid, hs.base_eq, hend, hs.position_eq, hs.size_eq, ?_, ?_⟩
  · rw [hs.capacity_eq]
    refine (length_patch hroom).trans ?_
    rw [hbytes, List.length_append, length_fresh, h.length_bytes]
  · rw [hs.bytes_eq, ← hbytes]
    rfl

theorem Valid.moved {b' : ByteArray} {f : Flat} {p : ℕ} (h : Valid b) (hs : Sim b' f)
    (hend : b'.endian = b.endian) (hbase : f.base = b.baseSize) (hbytes : f.bytes = b.bytes)
    (hpos : f.position = p) (hsize : f.size = max b.size p) : Moved b b' p where
  valid := hs.valid
  base_eq := hs.base_eq.trans hbase
  endian_eq := hend
  position_eq := hs.position_eq.trans hpos
  size_eq := hs.size_eq.trans hsize
  capacity_eq := by rw [hs.capacity_eq, hbytes, h.length_bytes]
  bytes_eq := hs.bytes_eq.trans hbytes

/-- A read within the size, with a node at the cursor. -/
theorem Valid.read (h : Valid b) {n : ℕ} (hn : b.position + n ≤ b.size)
    (hcur : b.position < b.capacity) :
    ∃ b', ByteArray.read n b = .ok (slice b.bytes b.position n) b' ∧
      Moved b b' (b.position + n) := by
  have hread : n ≤ h.flat.size - h.flat.position := Nat.le_sub_of_add_le' hn
  have hlt : h.flat.position < h.flat.bytes.length := hcur.trans_eq h.length_bytes.symm
  obtain ⟨b', hrun, hs, hend⟩ := h.sim.read hread hlt
  exact ⟨b', hrun, h.moved hs hend rfl rfl rfl rfl⟩

/-- A read with no node at the cursor, which can only be one of no bytes. -/
theorem Valid.read_null (h : Valid b) {n : ℕ} (hn : n ≤ b.getReadSize)
    (hcur : ¬b.position < b.capacity) : ByteArray.read n b = .error .nullNode b := by
  unfold ByteArray.read
  rw [if_neg (not_lt.2 hn), h.cur_none hcur]

theorem Valid.setPosition (h : Valid b) {val : ℕ} (hval : val ≤ b.capacity) :
    ∃ b', ByteArray.setPosition val b = .ok () b' ∧ Moved b b' val := by
  have hlen : val ≤ h.flat.bytes.length := hval.trans_eq h.length_bytes.symm
  obtain ⟨b', hrun, hs, hend⟩ := h.sim.setPosition hlen
  exact ⟨b', hrun, h.moved hs hend rfl rfl rfl rfl⟩

end

/-- The array contains `data`, filled node after node, and its cursor stands at `p`. -/
structure Holds (k : ℕ) (e : Endian) (b : ByteArray) (data : List UInt8) (p : ℕ) : Prop where
  valid : Valid b
  base_eq : b.baseSize = k
  endian_eq : b.endian = e
  contents : b.bytes.take b.size = data
  position_eq : b.position = p
  capacity_eq : b.capacity = k * pages k data.length

section
variable {k p : ℕ} {e : Endian} {b : ByteArray} {data : List UInt8}

theorem Holds.size_eq (h : Holds k e b data p) : b.size = data.length := by
  rw [← h.contents, List.length_take, h.valid.length_bytes, min_eq_left h.valid.size_le]

theorem holds_new (hk : 0 < k) (heap : ℕ → UInt8) (little : Bool) :
    Holds k (if little then .little else .big) ((new k heap).setIsLittleEndian little) [] 0 := by
  have hv := valid_new hk heap
  refine ⟨⟨hv.base_pos, hv.uniform, hv.nodes_pos, hv.capacity_eq, hv.position_le, hv.size_le,
    hv.cur_eq⟩, rfl, rfl, rfl, rfl, ?_⟩
  show k = k * max 1 ((0 + k - 1) / k)
  rw [Nat.div_eq_of_lt (by omega), max_eq_left (by omega), Nat.mul_one]

/-- `write` at the end of the data appends. -/
theorem Holds.write (h : Holds k e b data data.length) (buf : List UInt8) :
    ∃ b', ByteArray.write buf b = .ok () b' ∧
      Holds k e b' (data ++ buf) (data ++ buf).length := by
  obtain ⟨b', hrun, hw⟩ := h.valid.write buf
  have hpos : b.position ≤ b.bytes.length := by
    rw [h.valid.length_bytes]
    exact h.valid.position_le.trans h.valid.size_le
  have hfront : b.bytes.take b.position = data := by
    rw [h.position_eq, ← h.size_eq, h.contents]
  have hsize : b'.size = b.position + buf.length := by
    rw [hw.size_eq, h.size_eq, h.position_eq]
    omega
  refine ⟨b', hrun, hw.valid, hw.base_eq.trans h.base_eq, hw.endian_eq.trans h.endian_eq, ?_, ?_, ?_⟩
  · rw [hsize, hw.bytes_eq, take_patch_end, List.take_append_of_le_length hpos, hfront]
    rw [List.length_append]
    exact hpos.trans (Nat.le_add_right _ _)
  · rw [hw.position_eq, h.position_eq, List.length_append]
  · rw [hw.capacity_eq, h.capacity_eq, h.base_eq, h.position_eq,
      pages_add (h.base_eq ▸ h.valid.base_pos), List.length_append]

theorem Holds.moved {b' : ByteArray} {q : ℕ} (h : Holds k e b data p) (hm : Moved b b' q)
    (hq : q ≤ data.length) : Holds k e b' data q := by
  have hsize : b'.size = b.size := by
    rw [hm.size_eq, h.size_eq, max_eq_left hq]
  refine ⟨hm.valid, hm.base_eq.trans h.base_eq, hm.endian_eq.trans h.endian_eq, ?_, hm.position_eq,
    hm.capacity_eq.trans h.capacity_eq⟩
  rw [hsize, hm.bytes_eq, h.contents]

/-- `read` in front of `bs` returns them, if there is a node at the cursor. -/
theorem Holds.read {pre bs post : List UInt8} (h : Holds k e b (pre ++ (bs ++ post)) pre.length)
    (hcur : pre.length < k * pages k (pre ++ (bs ++ post)).length) :
    ∃ b', ByteArray.read bs.length b = .ok bs b' ∧
      Holds k e b' (pre ++ (bs ++ post)) (pre ++ bs).length := by
  have hsize : b.position + bs.length ≤ b.size := by
    rw [h.size_eq, h.position_eq]
    simp only [List.length_append]
    omega
  obtain ⟨b', hrun, hm⟩ := h.valid.read hsize (by rwa [h.position_eq, h.capacity_eq])
  have hslice : slice b.bytes b.position bs.length = bs := by
    rw [← slice_take hsize, h.contents, h.position_eq, ← Nat.add_zero pre.length, slice_right,
      slice_left (by omega), slice_all rfl]
  rw [hslice] at hrun
  rw [h.position_eq, ← List.length_append] at hm
  exact ⟨b', hrun, h.moved hm (by simp)⟩

theorem Holds.setPosition_zero (h : Holds k e b data p) :
    ∃ b', ByteArray.setPosition 0 b = .ok () b' ∧ Holds k e b' data 0 := by
  obtain ⟨b', hrun, hm⟩ := h.valid.setPosition (Nat.zero_le _)
  exact ⟨b', hrun, h.moved hm (Nat.zero_le _)⟩

end

/-! ## Composition -/

/-- At the end of the data, `m` appends `bs`. -/
def Emits (k : ℕ) (e : Endian) (m : M Unit) (bs : List UInt8) : Prop :=
  ∀ b data, Holds k e b data data.length →
    ∃ b', m b = .ok () b' ∧ Holds k e b' (data ++ bs) (data ++ bs).length

/-- In front of the bytes `bs`, `m` consumes them and returns `a`. -/
def Parses (k : ℕ) (e : Endian) {α : Type} (m : M α) (bs : List UInt8) (a : α) : Prop :=
  ∀ b pre post, Holds k e b (pre ++ (bs ++ post)) pre.length →
    ∃ b', m b = .ok a b' ∧ Holds k e b' (pre ++ (bs ++ post)) (pre ++ bs).length

section
variable {k : ℕ} {e : Endian} {α β : Type}

theorem bind_ok {m : M α} {g : α → M β} {b b' : ByteArray} {a : α} (h : m b = .ok a b') :
    (m >>= g) b = g a b' := by
  show EStateM.bind m g b = g a b'
  simp only [EStateM.bind, h]

theorem bind_error {m : M α} {g : α → M β} {b c : ByteArray} {e : Fault} (h : m b = .error e c) :
    (m >>= g) b = .error e c := by
  show EStateM.bind m g b = _
  simp only [EStateM.bind, h]

theorem emits_write (bs : List UInt8) : Emits k e (write bs) bs := fun _ _ h => h.write bs

theorem emits_pure : Emits k e (pure ()) [] := fun b data h => ⟨b, rfl, by simpa using h⟩

theorem Emits.seq {m₁ m₂ : M Unit} {xs ys : List UInt8} (h₁ : Emits k e m₁ xs)
    (h₂ : Emits k e m₂ ys) : Emits k e (m₁ >>= fun _ => m₂) (xs ++ ys) := by
  intro b data h
  obtain ⟨b₁, hrun₁, h'⟩ := h₁ b data h
  obtain ⟨b₂, hrun₂, h''⟩ := h₂ b₁ _ h'
  refine ⟨b₂, (bind_ok hrun₁).trans hrun₂, ?_⟩
  rwa [List.append_assoc] at h''

/-- The byte order does not change while a stream is written. -/
theorem Emits.get {m : ByteArray → M Unit} {bs : List UInt8}
    (h : ∀ b, b.endian = e → Emits k e (m b) bs) : Emits k e (get >>= m) bs := fun b data hb =>
  h b hb.endian_eq b data hb

theorem parses_read {bs : List UInt8} (hbs : 0 < bs.length) :
    Parses k e (read bs.length) bs bs := by
  intro b pre post h
  apply h.read
  refine lt_of_lt_of_le ?_ (le_mul_pages (h.base_eq ▸ h.valid.base_pos))
  simp only [List.length_append]
  omega

theorem parses_pure (a : α) : Parses k e (pure a) [] a :=
  fun b pre post h => ⟨b, rfl, by simpa using h⟩

theorem Parses.bind {m : M α} {g : α → M β} {xs ys : List UInt8} {a : α} {c : β}
    (h₁ : Parses k e m xs a) (h₂ : Parses k e (g a) ys c) :
    Parses k e (m >>= g) (xs ++ ys) c := by
  intro b pre post h
  rw [List.append_assoc] at h
  obtain ⟨b₁, hrun₁, h'⟩ := h₁ b pre (ys ++ post) h
  rw [← List.append_assoc] at h'
  obtain ⟨b₂, hrun₂, h''⟩ := h₂ b₁ (pre ++ xs) post h'
  refine ⟨b₂, (bind_ok hrun₁).trans hrun₂, ?_⟩
  simpa only [List.append_assoc] using h''

theorem Parses.get {m : ByteArray → M α} {bs : List UInt8} {a : α}
    (h : ∀ b, b.endian = e → Parses k e (m b) bs a) : Parses k e (get >>= m) bs a :=
  fun b pre post hb => h b hb.endian_eq b pre post hb

theorem Parses.map {m : M α} {bs : List UInt8} {a : α} (f : α → β) (h : Parses k e m bs a) :
    Parses k e (f <$> m) bs (f a) := by
  intro b pre post hb
  obtain ⟨b', hrun, h'⟩ := h b pre post hb
  refine ⟨b', ?_, h'⟩
  show EStateM.map f m b = .ok (f a) b'
  simp only [EStateM.map, hrun]

/-- The reader `r` gives back the value `a` that the writer `w` wrote. -/
def Codec (k : ℕ) (e : Endian) (w : M Unit) (r : M α) (a : α) : Prop :=
  ∃ bs, Emits k e w bs ∧ Parses k e r bs a

theorem Codec.map {w : M Unit} {r : M α} {a : α} (f : α → β) (h : Codec k e w r a) :
    Codec k e w (f <$> r) (f a) := by
  obtain ⟨bs, hw, hr⟩ := h
  exact ⟨bs, hw, hr.map f⟩

end

end CoroutineScheduler.ByteArray
