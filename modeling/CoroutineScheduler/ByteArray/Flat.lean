import Mathlib.Tactic
import CoroutineScheduler.ByteArray.Basic

/-!
# The byte array as a flat buffer

`Flat` is what the byte array is for: one buffer, a cursor and a size. `Valid` is the invariant of
the paged list: the nodes all have the base size, the counters are ordered, and `m_cur` is the
node of `m_position`, or null at the end. Each operation of a valid array is the operation of the
flat buffer on the bytes of its nodes in a row (`Sim`).

1. `writeLoop_spec`, `readLoop_spec`, `seek_spec`: what each loop does to the nodes.
2. `Valid.addCapacity`: there is room, and `m_cur` is a node again.
3. `sim_exec`: one operation; `refines_flat`: every sequence of them.
-/

namespace CoroutineScheduler.ByteArray

open Splice

/-! ## The loops -/

section
variable {k : ℕ}

theorem writeLoop_spec {nodes : List (List UInt8)} {npos : ℕ} {buf : List UInt8}
    (hu : Uniform k nodes) (hpos : npos < k) (hbuf : 0 < buf.length)
    (hroom : npos + buf.length ≤ k * nodes.length) :
    ∃ ns, writeLoop nodes npos buf = some (ns, (npos + buf.length) / k) ∧
      ns.flatten = patch nodes.flatten npos buf ∧ Uniform k ns ∧ ns.length = nodes.length := by
  induction nodes generalizing npos buf with
  | nil =>
    simp only [List.length_nil, Nat.mul_zero] at hroom
    omega
  | cons node nodes ih =>
    obtain ⟨hnode, hnodes⟩ := uniform_cons.1 hu
    rw [List.length_cons, Nat.mul_succ] at hroom
    rw [writeLoop, if_neg (by omega)]
    by_cases hfit : node.length - npos ≥ buf.length
    · rw [if_pos hfit]
      have hin : npos + buf.length ≤ node.length := by omega
      refine ⟨patch node npos buf :: nodes, ?_, ?_, ?_, by simp⟩
      · -- the node is left only when the copy ends at its last byte
        by_cases hend : node.length = npos + buf.length
        · rw [if_pos hend, ← hend, hnode, Nat.div_self (by omega)]
        · rw [if_neg hend, Nat.div_eq_of_lt (by omega)]
      · rw [List.flatten_cons, List.flatten_cons, patch_left hin]
      · exact uniform_cons.2 ⟨by rw [length_patch hin, hnode], hnodes⟩
    · rw [if_neg hfit]
      have htake : (buf.take (node.length - npos)).length = node.length - npos := by
        rw [List.length_take]
        omega
      have hdrop : (buf.drop (node.length - npos)).length = npos + buf.length - k := by
        rw [List.length_drop]
        omega
      obtain ⟨ns, hrun, hflat, hns, hlen⟩ := ih hnodes (show 0 < k by omega)
        (show 0 < (buf.drop (node.length - npos)).length by omega) (by omega)
      have hin : npos + (buf.take (node.length - npos)).length ≤ node.length := by omega
      refine ⟨patch node npos (buf.take (node.length - npos)) :: ns, ?_, ?_, ?_, by simp [hlen]⟩
      · have hdiv : (npos + buf.length) / k = (npos + buf.length - k) / k + 1 := by
          rw [← Nat.add_div_right _ (by omega), Nat.sub_add_cancel (by omega)]
        rw [hrun, hdrop, Nat.zero_add, hdiv]
        rfl
      · have hwhole : npos + (buf.take (node.length - npos) ++
            buf.drop (node.length - npos)).length ≤ (node ++ nodes.flatten).length := by
          rw [List.take_append_drop, List.length_append, hnodes.length_flatten]
          omega
        have hsplit := patch_append hwhole
        rw [List.take_append_drop, patch_left hin] at hsplit
        have hoff : npos + (buf.take (node.length - npos)).length =
            (patch node npos (buf.take (node.length - npos))).length + 0 := by
          rw [length_patch hin]
          omega
        rw [List.flatten_cons, List.flatten_cons, hsplit, hoff, patch_right, hflat]
      · exact uniform_cons.2 ⟨by rw [length_patch hin, hnode], hns⟩

theorem readLoop_spec {nodes : List (List UInt8)} {npos n : ℕ} (hu : Uniform k nodes)
    (hpos : npos < k) (hne : 0 < nodes.length) (hroom : npos + n ≤ k * nodes.length) :
    readLoop nodes npos n = some (slice nodes.flatten npos n, (npos + n) / k) := by
  induction nodes generalizing npos n with
  | nil => simp at hne
  | cons node nodes ih =>
    obtain ⟨hnode, hnodes⟩ := uniform_cons.1 hu
    rw [List.length_cons, Nat.mul_succ] at hroom
    rw [readLoop]
    by_cases hn : n = 0
    · rw [if_pos hn, hn, slice_zero, Nat.add_zero, Nat.div_eq_of_lt hpos]
    rw [if_neg hn, List.flatten_cons]
    by_cases hfit : node.length - npos ≥ n
    · rw [if_pos hfit, slice_left (by omega)]
      by_cases hend : node.length = npos + n
      · rw [if_pos hend, ← hend, hnode, Nat.div_self (by omega)]
      · rw [if_neg hend, Nat.div_eq_of_lt (by omega)]
    · rw [if_neg hfit]
      have hrest : 0 < nodes.length := by
        apply Nat.pos_of_ne_zero
        intro h0
        rw [h0] at hroom
        omega
      rw [ih hnodes (by omega) hrest (by omega)]
      have hdiv : (npos + n) / k = (0 + (n - (node.length - npos))) / k + 1 := by
        rw [← Nat.add_div_right _ (by omega)]
        congr 1
        omega
      have hsplit : slice (node ++ nodes.flatten) npos n =
          slice node npos (node.length - npos) ++
            slice nodes.flatten 0 (n - (node.length - npos)) := by
        conv_lhs => rw [show n = (node.length - npos) + (n - (node.length - npos)) by omega]
        rw [slice_add, slice_left (by omega), show npos + (node.length - npos) = node.length + 0
          by omega, slice_right]
      rw [hsplit, hdiv]
      rfl

theorem seek_spec {nodes : List (List UInt8)} {val : ℕ} (hk : 0 < k) (hu : Uniform k nodes)
    (hne : 0 < nodes.length) (hval : val ≤ k * nodes.length) : seek nodes val = some (val / k) := by
  induction nodes generalizing val with
  | nil => simp at hne
  | cons node nodes ih =>
    obtain ⟨hnode, hnodes⟩ := uniform_cons.1 hu
    rw [List.length_cons, Nat.mul_succ] at hval
    rw [seek, hnode]
    by_cases hgt : val > k
    · have hrest : 0 < nodes.length := by
        apply Nat.pos_of_ne_zero
        intro h0
        rw [h0] at hval
        omega
      rw [if_pos hgt, ih hnodes hrest (by omega), Option.map_some, ← Nat.add_div_right _ hk,
        Nat.sub_add_cancel hgt.le]
    · rw [if_neg hgt]
      by_cases heq : val = k
      · rw [if_pos heq, heq, Nat.div_self hk]
      · rw [if_neg heq, Nat.div_eq_of_lt (by omega)]

/-- The iovecs lie inside nodes of `k` bytes and cover the `n` bytes at position `p` of the whole,
one after the other and without a gap. -/
def Spans (k : ℕ) : ℕ → ℕ → List Iovec → Prop
  | _, n, [] => n = 0
  | p, n, v :: vs =>
    (0 < v.len ∧ v.offset + v.len ≤ k ∧ k * v.node + v.offset = p) ∧ v.len ≤ n ∧
      Spans k (p + v.len) (n - v.len) vs

theorem iovLoop_spec {nodes : List (List UInt8)} {i npos len : ℕ} (hu : Uniform k nodes)
    (hpos : npos < k) (hne : 0 < nodes.length) (hroom : npos + len ≤ k * nodes.length) :
    ∃ vs, iovLoop i nodes npos len = some vs ∧ Spans k (k * i + npos) len vs := by
  induction nodes generalizing i npos len with
  | nil => simp at hne
  | cons node nodes ih =>
    obtain ⟨hnode, hnodes⟩ := uniform_cons.1 hu
    rw [List.length_cons, Nat.mul_succ] at hroom
    rw [iovLoop]
    by_cases hlen : len = 0
    · exact ⟨[], by rw [if_pos hlen], hlen⟩
    rw [if_neg hlen]
    by_cases hfit : node.length - npos ≥ len
    · refine ⟨[⟨i, npos, len⟩], by rw [if_pos hfit], ⟨Nat.pos_of_ne_zero hlen, ?_, rfl⟩, le_rfl,
        Nat.sub_self len⟩
      show npos + len ≤ k
      omega
    · have hrest : 0 < nodes.length := by
        apply Nat.pos_of_ne_zero
        intro h0
        rw [h0] at hroom
        omega
      obtain ⟨vs, hrun, hspan⟩ := ih hnodes (show 0 < k by omega) hrest
        (show 0 + (len - (node.length - npos)) ≤ k * nodes.length by omega)
      refine ⟨⟨i, npos, node.length - npos⟩ :: vs, by rw [if_neg hfit, hrun, Option.map_some],
        ⟨?_, ?_, rfl⟩, ?_, ?_⟩
      · show 0 < node.length - npos
        omega
      · show npos + (node.length - npos) ≤ k
        omega
      · show node.length - npos ≤ len
        omega
      · show Spans k (k * i + npos + (node.length - npos)) (len - (node.length - npos)) vs
        rwa [show k * i + npos + (node.length - npos) = k * (i + 1) + 0 by
          rw [Nat.mul_succ]
          omega]

end

/-! ## The invariant -/

/-- The invariant of the paged list. -/
structure Valid (b : ByteArray) : Prop where
  base_pos : 0 < b.baseSize
  uniform : Uniform b.baseSize b.nodes
  nodes_pos : 0 < b.nodes.length
  capacity_eq : b.capacity = b.baseSize * b.nodes.length
  position_le : b.position ≤ b.size
  size_le : b.size ≤ b.capacity
  cur_eq : b.cur = if b.position = b.capacity then none else some (b.position / b.baseSize)

section
variable {b : ByteArray}

theorem Valid.length_bytes (h : Valid b) : b.bytes.length = b.capacity := by
  rw [bytes, h.uniform.length_flatten, h.capacity_eq]

theorem Valid.cur_some (h : Valid b) (hlt : b.position < b.capacity) :
    b.cur = some (b.position / b.baseSize) := by
  rw [h.cur_eq, if_neg hlt.ne]

theorem Valid.cur_none (h : Valid b) (hge : ¬b.position < b.capacity) : b.cur = none := by
  have := h.position_le
  have := h.size_le
  rw [h.cur_eq, if_pos (by omega)]

/-- The node a position lies in, and what is left of the array from that node on. -/
theorem Valid.at_node (h : Valid b) (hlt : b.position < b.capacity) :
    b.position / b.baseSize < b.nodes.length ∧
      b.position % b.baseSize + (b.capacity - b.position) =
        b.baseSize * (b.nodes.drop (b.position / b.baseSize)).length := by
  have hdm := Nat.div_add_mod b.position b.baseSize
  have hnode : b.position / b.baseSize < b.nodes.length := by
    rw [Nat.div_lt_iff_lt_mul h.base_pos, Nat.mul_comm, ← h.capacity_eq]
    exact hlt
  refine ⟨hnode, ?_⟩
  rw [List.length_drop, Nat.mul_sub, ← h.capacity_eq]
  omega

/-- The pointer to the node of a position. -/
theorem Valid.pointer_div (h : Valid b) {val : ℕ} (hval : val ≤ b.capacity) :
    b.pointer (val / b.baseSize) = if val = b.capacity then none else some (val / b.baseSize) := by
  rw [h.capacity_eq] at hval ⊢
  rw [pointer]
  by_cases hend : val = b.baseSize * b.nodes.length
  · rw [if_pos hend, hend, Nat.mul_div_cancel_left _ h.base_pos, if_neg (lt_irrefl _)]
  · rw [if_neg hend, if_pos]
    rw [Nat.div_lt_iff_lt_mul h.base_pos, Nat.mul_comm]
    omega

/-- Where a walk over `n` bytes from the cursor ends. -/
theorem Valid.div_add (h : Valid b) (n : ℕ) :
    b.position / b.baseSize + (b.position % b.baseSize + n) / b.baseSize =
      (b.position + n) / b.baseSize := by
  conv_rhs => rw [← Nat.div_add_mod b.position b.baseSize, Nat.add_assoc,
    Nat.mul_add_div h.base_pos]

theorem valid_new {base : ℕ} (hbase : 0 < base) (heap : ℕ → UInt8) : Valid (new base heap) where
  base_pos := hbase
  uniform := by
    intro p hp
    rw [List.mem_singleton.1 hp, fresh, List.length_map, List.length_range]
    rfl
  nodes_pos := Nat.one_pos
  capacity_eq := (Nat.mul_one base).symm
  position_le := le_rfl
  size_le := Nat.zero_le _
  cur_eq := by
    show some 0 = if 0 = base then none else some (0 / base)
    rw [if_neg hbase.ne, Nat.zero_div]

end

/-! ## New nodes -/

theorem length_fresh (n : ℕ) (heap : ℕ → UInt8) : (fresh n heap).length = n := by simp [fresh]

theorem fresh_add (m n : ℕ) (heap : ℕ → UInt8) :
    fresh (m + n) heap = fresh m heap ++ fresh n fun k => heap (m + k) := by
  simp [fresh, List.range_add]

/-- The nodes that `addNodes` appends. -/
def newNodes (base : ℕ) : ℕ → (ℕ → UInt8) → List (List UInt8)
  | 0, _ => []
  | count + 1, heap => fresh base heap :: newNodes base count fun k => heap (base + k)

theorem uniform_newNodes (base count : ℕ) (heap : ℕ → UInt8) :
    Uniform base (newNodes base count heap) := by
  induction count generalizing heap with
  | zero => simp [newNodes, Uniform]
  | succ count ih => exact uniform_cons.2 ⟨length_fresh base heap, ih _⟩

theorem length_newNodes (base count : ℕ) (heap : ℕ → UInt8) :
    (newNodes base count heap).length = count := by
  induction count generalizing heap with
  | zero => rfl
  | succ count ih => simp [newNodes, ih]

theorem flatten_newNodes (base count : ℕ) (heap : ℕ → UInt8) :
    (newNodes base count heap).flatten = fresh (base * count) heap := by
  induction count generalizing heap with
  | zero => simp [newNodes, fresh]
  | succ count ih =>
    rw [newNodes, List.flatten_cons, ih, Nat.mul_succ, Nat.add_comm, fresh_add]

theorem addNodes_eq (count : ℕ) (b : ByteArray) :
    b.addNodes count =
      { b with
        nodes := b.nodes ++ newNodes b.baseSize count b.heap
        capacity := b.capacity + b.baseSize * count
        heap := fun k => b.heap (b.baseSize * count + k) } := by
  induction count generalizing b with
  | zero => simp [addNodes, newNodes]
  | succ count ih =>
    rw [addNodes, ih]
    simp only [newNodes, List.append_assoc, List.singleton_append, mk.injEq, true_and]
    refine ⟨by ring, ?_⟩
    funext k
    congr 1
    ring

/-- The bytes that `addCapacity(n)` adds. -/
def extra (base free n : ℕ) : ℕ := base * ((n - free + base - 1) / base)

theorem extra_of_le {base free n : ℕ} (hbase : 0 < base) (h : n ≤ free) : extra base free n = 0 := by
  rw [extra, Nat.sub_eq_zero_of_le h, Nat.div_eq_of_lt (by omega), Nat.mul_zero]

/-- The added nodes hold what did not fit. -/
theorem le_extra {base free n : ℕ} (hbase : 0 < base) : n ≤ free + extra base free n := by
  have hdm := Nat.div_add_mod (n - free + base - 1) base
  have hlt := Nat.mod_lt (n - free + base - 1) hbase
  unfold extra
  omega

/-- What `addCapacity(n)` does to a valid array. -/
structure Grown (b b' : ByteArray) (n : ℕ) : Prop where
  valid : Valid b'
  bytes_eq : b'.bytes = b.bytes ++ fresh (extra b.baseSize b.getCapacity n) b.heap
  heap_eq : b'.heap = fun k => b.heap (extra b.baseSize b.getCapacity n + k)
  base_eq : b'.baseSize = b.baseSize
  position_eq : b'.position = b.position
  size_eq : b'.size = b.size
  endian_eq : b'.endian = b.endian
  room : b.position + n ≤ b'.capacity

theorem Valid.addCapacity {b : ByteArray} (h : Valid b) (n : ℕ) : Grown b (b.addCapacity n) n := by
  have hpos : b.position ≤ b.capacity := h.position_le.trans h.size_le
  by_cases hfit : n ≤ b.getCapacity
  · have hsame : b.addCapacity n = b := by
      unfold ByteArray.addCapacity
      by_cases h0 : n = 0
      · rw [if_pos h0]
      · rw [if_neg h0, if_pos hfit]
    have hextra := extra_of_le h.base_pos hfit
    rw [hsame]
    refine ⟨h, by simp [hextra, fresh], by simp [hextra], rfl, rfl, rfl, rfl, ?_⟩
    unfold getCapacity at hfit
    omega
  · have hn : n ≠ 0 := by omega
    have hcount : 0 < (n - b.getCapacity + b.baseSize - 1) / b.baseSize :=
      Nat.div_pos (by omega) h.base_pos
    have hroom : n ≤ b.getCapacity + extra b.baseSize b.getCapacity n := le_extra h.base_pos
    -- the old cursor is null exactly when nothing was left
    have hcur : (b.addCapacity n) =
        { b.addNodes ((n - b.getCapacity + b.baseSize - 1) / b.baseSize) with
          cur := some (b.position / b.baseSize) } := by
      unfold ByteArray.addCapacity
      rw [if_neg hn, if_neg hfit]
      simp only [if_pos hcount]
      by_cases hfull : b.getCapacity = 0
      · have hend : b.position = b.baseSize * b.nodes.length := by
          rw [← h.capacity_eq]
          unfold getCapacity at hfull
          omega
        rw [if_pos hfull, hend, Nat.mul_div_cancel_left _ h.base_pos]
      · have hlt : b.position < b.capacity := by
          unfold getCapacity at hfull
          omega
        rw [if_neg hfull, ← h.cur_some hlt, addNodes_eq]
    have hcap : b.position + n ≤ b.capacity + extra b.baseSize b.getCapacity n := by
      have : b.getCapacity = b.capacity - b.position := rfl
      omega
    rw [hcur, addNodes_eq]
    refine ⟨⟨h.base_pos, h.uniform.append (uniform_newNodes _ _ _), ?_, ?_, h.position_le, ?_, ?_⟩,
      ?_, rfl, rfl, rfl, rfl, rfl, hcap⟩
    · exact lt_of_lt_of_le h.nodes_pos (by simp)
    · simp only [List.length_append, length_newNodes, h.capacity_eq]
      ring
    · exact h.size_le.trans (Nat.le_add_right _ _)
    · rw [if_neg]
      unfold extra at hcap
      simp only
      omega
    · simp only [bytes, List.flatten_append, flatten_newNodes]
      rfl

/-! ## The flat buffer -/

/-- One buffer of bytes with a cursor and a size. It grows by whole pages of `base` bytes, and
`heap` is what these will contain. -/
structure Flat where
  base : ℕ
  bytes : List UInt8
  position : ℕ
  size : ℕ
  heap : ℕ → UInt8
  base_pos : 0 < base
  position_le : position ≤ size
  size_le : size ≤ bytes.length

namespace Flat

/-- An empty buffer of one page. -/
def new (base : ℕ) (heap : ℕ → UInt8) (hbase : 0 < base) : Flat where
  base := base
  bytes := fresh base heap
  position := 0
  size := 0
  heap := fun k => heap (base + k)
  base_pos := hbase
  position_le := le_rfl
  size_le := Nat.zero_le _

/-- Pages are added until `n` bytes fit behind the cursor. -/
def reserve (f : Flat) (n : ℕ) : Flat where
  base := f.base
  bytes := f.bytes ++ fresh (extra f.base (f.bytes.length - f.position) n) f.heap
  position := f.position
  size := f.size
  heap := fun k => f.heap (extra f.base (f.bytes.length - f.position) n + k)
  base_pos := f.base_pos
  position_le := f.position_le
  size_le := by
    rw [List.length_append]
    exact f.size_le.trans (Nat.le_add_right _ _)

theorem reserve_room (f : Flat) (n : ℕ) : f.position + n ≤ (f.reserve n).bytes.length := by
  have hroom : n ≤ _ + extra f.base (f.bytes.length - f.position) n := le_extra f.base_pos
  have hpos := f.position_le.trans f.size_le
  simp only [reserve, List.length_append, length_fresh]
  omega

/-- The bytes `buf` replace those at the cursor, which moves behind them. -/
def write (f : Flat) (buf : List UInt8) : Flat where
  base := f.base
  bytes := patch (f.reserve buf.length).bytes f.position buf
  position := f.position + buf.length
  size := max f.size (f.position + buf.length)
  heap := (f.reserve buf.length).heap
  base_pos := f.base_pos
  position_le := le_max_right _ _
  size_le := by
    rw [length_patch (f.reserve_room _)]
    exact max_le (f.reserve buf.length).size_le (f.reserve_room _)

/-- The cursor moves to `val`, and the size with it. -/
def seek (f : Flat) (val : ℕ) (h : val ≤ f.bytes.length) : Flat where
  base := f.base
  bytes := f.bytes
  position := val
  size := max f.size val
  heap := f.heap
  base_pos := f.base_pos
  position_le := le_max_right _ _
  size_le := max_le f.size_le h

/-- The first page is kept. -/
def clear (f : Flat) : Flat where
  base := f.base
  bytes := f.bytes.take f.base
  position := 0
  size := 0
  heap := f.heap
  base_pos := f.base_pos
  position_le := le_rfl
  size_le := Nat.zero_le _

theorem read_room (f : Flat) {n : ℕ} (h : n ≤ f.size - f.position) :
    f.position + n ≤ f.bytes.length := by
  have := f.position_le
  have := f.size_le
  omega

end Flat

/-! ## Operations -/

/-- The operations of a sequence. -/
inductive Op
  | write (buf : List UInt8)
  | read (n : ℕ)
  | setPosition (val : ℕ)
  | clear
  | getWriteBuffers (len : ℕ)
  deriving DecidableEq, Repr

/-- What an operation returns. -/
inductive Reply
  | done
  | bytes (bs : List UInt8)
  | count (n : ℕ)
  deriving DecidableEq, Repr

/-- A read asks for at least one byte. -/
def Op.Proper : Op → Prop
  | .read n => 1 ≤ n
  | _ => True

instance : DecidablePred Op.Proper := fun op => by
  cases op <;> unfold Op.Proper <;> infer_instance

def Op.exec : Op → M Reply
  | .write buf => do
    ByteArray.write buf
    return .done
  | .read n => do
    let bs ← ByteArray.read n
    return .bytes bs
  | .setPosition val => do
    ByteArray.setPosition val
    return .done
  | .clear => do
    modify ByteArray.clear
    return .done
  | .getWriteBuffers len => do
    let _ ← ByteArray.getWriteBuffers len
    return .count len

/-- The same operation on a flat buffer. -/
def Flat.exec (f : Flat) : Op → Except Fault Reply × Flat
  | .write buf => (.ok .done, f.write buf)
  | .read n =>
    if h : n ≤ f.size - f.position then
      (.ok (.bytes (slice f.bytes f.position n)), f.seek (f.position + n) (f.read_room h))
    else (.error (.outOfRange "not enough len"), f)
  | .setPosition val =>
    if h : val ≤ f.bytes.length then (.ok .done, f.seek val h)
    else (.error (.outOfRange "set_position out of range"), f)
  | .clear => (.ok .done, f.clear)
  | .getWriteBuffers len => (.ok (.count len), f.reserve len)

/-- The replies to a sequence of operations, and the array afterwards. A caught `out_of_range`
does not end the sequence, any other fault does. -/
def run : List Op → ByteArray → List (Except Fault Reply) × ByteArray
  | [], b => ([], b)
  | op :: ops, b =>
    match op.exec b with
    | .ok r b' => (.ok r :: (run ops b').1, (run ops b').2)
    | .error (.outOfRange what) b' =>
      (.error (.outOfRange what) :: (run ops b').1, (run ops b').2)
    | .error e b' => ([.error e], b')

def Flat.run : List Op → Flat → List (Except Fault Reply) × Flat
  | [], f => ([], f)
  | op :: ops, f => ((f.exec op).1 :: (Flat.run ops (f.exec op).2).1, (Flat.run ops (f.exec op).2).2)

/-! ## The refinement -/

/-- The array is valid and its nodes in a row are the flat buffer. -/
structure Sim (b : ByteArray) (f : Flat) : Prop where
  valid : Valid b
  base_eq : b.baseSize = f.base
  bytes_eq : b.bytes = f.bytes
  position_eq : b.position = f.position
  size_eq : b.size = f.size
  heap_eq : b.heap = f.heap

section
variable {b : ByteArray} {f : Flat}

theorem Sim.capacity_eq (h : Sim b f) : b.capacity = f.bytes.length := by
  rw [← h.bytes_eq, h.valid.length_bytes]

theorem sim_new {base : ℕ} (hbase : 0 < base) (heap : ℕ → UInt8) :
    Sim (new base heap) (Flat.new base heap hbase) :=
  ⟨valid_new hbase heap, rfl, by simp [bytes, new, Flat.new], rfl, rfl, rfl⟩

theorem Sim.addCapacity (h : Sim b f) (n : ℕ) : Sim (b.addCapacity n) (f.reserve n) := by
  have hg := h.valid.addCapacity n
  have hextra : extra b.baseSize b.getCapacity n =
      extra f.base (f.bytes.length - f.position) n := by
    rw [h.base_eq, getCapacity, h.capacity_eq, h.position_eq]
  refine ⟨hg.valid, hg.base_eq.trans h.base_eq, ?_, hg.position_eq.trans h.position_eq,
    hg.size_eq.trans h.size_eq, ?_⟩
  · rw [hg.bytes_eq, hextra, h.bytes_eq, h.heap_eq]
    rfl
  · rw [hg.heap_eq, hextra, h.heap_eq]
    rfl

end

theorem Flat.write_nil (f : Flat) : f.write [] = f := by
  have hextra : extra f.base (f.bytes.length - f.position) 0 = 0 :=
    extra_of_le f.base_pos (Nat.zero_le _)
  have hsize : max f.size f.position = f.size := max_eq_left f.position_le
  cases f
  simp_all [Flat.write, Flat.reserve, fresh]

section
variable {b : ByteArray} {f : Flat}

theorem ite_gt_eq_max (m n : ℕ) : (if n > m then n else m) = max m n := by
  split_ifs with hgt
  · exact (max_eq_right hgt.le).symm
  · exact (max_eq_left (not_lt.1 hgt)).symm

theorem ite_gt_eq_min (m n : ℕ) : (if n > m then m else n) = min n m := by
  split_ifs with hgt
  · exact (min_eq_right hgt.le).symm
  · exact (min_eq_left (not_lt.1 hgt)).symm

/-- The bytes from node `position / baseSize` on, as a part of the whole. -/
theorem Valid.split (h : Valid b) (hlt : b.position < b.capacity) :
    b.bytes = (b.nodes.take (b.position / b.baseSize)).flatten ++
        (b.nodes.drop (b.position / b.baseSize)).flatten ∧
      b.position = (b.nodes.take (b.position / b.baseSize)).flatten.length +
        b.position % b.baseSize := by
  obtain ⟨hflat, hlen⟩ := h.uniform.split (h.at_node hlt).1.le
  exact ⟨hflat, by rw [hlen, Nat.div_add_mod]⟩

theorem Sim.write (h : Sim b f) (buf : List UInt8) :
    ∃ b', ByteArray.write buf b = .ok () b' ∧ Sim b' (f.write buf) ∧ b'.endian = b.endian := by
  by_cases h0 : buf.length = 0
  · obtain rfl := List.length_eq_zero_iff.1 h0
    exact ⟨b, rfl, f.write_nil.symm ▸ h, rfl⟩
  have hg := h.valid.addCapacity buf.length
  have hs := h.addCapacity buf.length
  generalize hc : b.addCapacity buf.length = c at hg hs
  have hroom : c.position + buf.length ≤ c.capacity := by
    rw [hg.position_eq]
    exact hg.room
  have hlt : c.position < c.capacity := by omega
  have hv := hs.valid
  obtain ⟨hnode, hrest⟩ := hv.at_node hlt
  obtain ⟨hsplit, hoff⟩ := hv.split hlt
  obtain ⟨ns, hloop, hflat, hns, hlen⟩ := writeLoop_spec
    (hv.uniform.drop (c.position / c.baseSize)) (Nat.mod_lt c.position hv.base_pos)
    (Nat.pos_of_ne_zero h0) (by omega)
  have hnodes : (c.nodes.take (c.position / c.baseSize) ++ ns).length = c.nodes.length := by
    rw [List.length_append, hlen, ← List.length_append, List.take_append_drop]
  have hbytes : (c.nodes.take (c.position / c.baseSize) ++ ns).flatten =
      patch c.bytes c.position buf := by
    rw [List.flatten_append, hflat, hsplit, ← patch_right, ← hoff]
  have hrun : ByteArray.write buf b = .ok ()
      { c with
        nodes := c.nodes.take (c.position / c.baseSize) ++ ns
        cur := c.pointer ((c.position + buf.length) / c.baseSize)
        position := c.position + buf.length
        size := max c.size (c.position + buf.length) } := by
    unfold ByteArray.write
    rw [if_neg h0]
    simp only [hc, hv.cur_some hlt, hloop, hv.div_add, ite_gt_eq_max]
  refine ⟨_, hrun, ⟨⟨hv.base_pos, (hv.uniform.take _).append hns, ?_, ?_, le_max_right _ _,
    max_le hv.size_le hroom, hv.pointer_div hroom⟩, hs.base_eq, ?_, ?_, ?_, hs.heap_eq⟩,
    hg.endian_eq⟩
  · exact hnodes ▸ hv.nodes_pos
  · exact hv.capacity_eq.trans (by rw [hnodes])
  · exact hbytes.trans (by rw [hs.bytes_eq, hs.position_eq]; rfl)
  · exact congrArg (· + buf.length) hs.position_eq
  · show max c.size (c.position + buf.length) = max f.size (f.position + buf.length)
    rw [hg.size_eq, h.size_eq, hg.position_eq, h.position_eq]

/-- A read within the size returns the bytes at the cursor, if the cursor has a node. -/
theorem Sim.read (h : Sim b f) {n : ℕ} (hn : n ≤ f.size - f.position)
    (hcur : f.position < f.bytes.length) :
    ∃ b', ByteArray.read n b = .ok (slice f.bytes f.position n) b' ∧
      Sim b' (f.seek (f.position + n) (f.read_room hn)) ∧ b'.endian = b.endian := by
  have hv := h.valid
  have hlt : b.position < b.capacity := by rwa [h.position_eq, h.capacity_eq]
  have hread : ¬ n > b.getReadSize := by
    rw [getReadSize, h.size_eq, h.position_eq]
    omega
  have hroom : b.position + n ≤ b.capacity := by
    rw [h.position_eq, h.capacity_eq]
    exact f.read_room hn
  obtain ⟨hnode, hrest⟩ := hv.at_node hlt
  obtain ⟨hsplit, hoff⟩ := hv.split hlt
  have hdrop : 0 < (b.nodes.drop (b.position / b.baseSize)).length := by
    rw [List.length_drop]
    omega
  have hloop := readLoop_spec (hv.uniform.drop (b.position / b.baseSize))
    (Nat.mod_lt b.position hv.base_pos) hdrop (show b.position % b.baseSize + n ≤ _ by omega)
  have hrun : ByteArray.read n b = .ok (slice f.bytes f.position n)
      { b with
        cur := b.pointer ((b.position + n) / b.baseSize)
        position := b.position + n } := by
    unfold ByteArray.read
    rw [if_neg hread]
    simp only [hv.cur_some hlt, hloop, hv.div_add]
    rw [← slice_right, ← hoff, ← hsplit, h.bytes_eq, h.position_eq]
  have hsize : b.position + n ≤ b.size := by
    have := hv.position_le
    unfold getReadSize at hread
    omega
  refine ⟨_, hrun, ⟨⟨hv.base_pos, hv.uniform, hv.nodes_pos, hv.capacity_eq, hsize, hv.size_le,
    hv.pointer_div hroom⟩, h.base_eq, h.bytes_eq, congrArg (· + n) h.position_eq, ?_, h.heap_eq⟩,
    rfl⟩
  show b.size = max f.size (f.position + n)
  rw [max_eq_left (by have := f.position_le; omega), h.size_eq]

theorem Sim.read_error (h : Sim b f) {n : ℕ} (hn : ¬ n ≤ f.size - f.position) :
    ByteArray.read n b = .error (.outOfRange "not enough len") b := by
  unfold ByteArray.read
  rw [if_pos]
  rw [getReadSize, h.size_eq, h.position_eq]
  omega

theorem Sim.setPosition (h : Sim b f) {val : ℕ} (hval : val ≤ f.bytes.length) :
    ∃ b', ByteArray.setPosition val b = .ok () b' ∧ Sim b' (f.seek val hval) ∧
      b'.endian = b.endian := by
  have hv := h.valid
  have hcap : val ≤ b.capacity := by rwa [h.capacity_eq]
  have hseek := seek_spec hv.base_pos hv.uniform hv.nodes_pos (hv.capacity_eq ▸ hcap)
  have hrun : ByteArray.setPosition val b = .ok ()
      { b with
        position := val
        size := max b.size val
        cur := b.pointer (val / b.baseSize) } := by
    unfold ByteArray.setPosition
    rw [if_neg (by omega)]
    simp only [hseek, ite_gt_eq_max]
    rfl
  exact ⟨_, hrun, ⟨⟨hv.base_pos, hv.uniform, hv.nodes_pos, hv.capacity_eq, le_max_right _ _,
    max_le hv.size_le hcap, hv.pointer_div hcap⟩, h.base_eq, h.bytes_eq, rfl,
    congrArg (max · val) h.size_eq, h.heap_eq⟩, rfl⟩

end

section
variable {b : ByteArray} {f : Flat}

theorem Sim.clear (h : Sim b f) : Sim b.clear f.clear := by
  have hv := h.valid
  have hlen : (b.nodes.take 1).length = 1 := by
    rw [List.length_take]
    exact min_eq_left hv.nodes_pos
  refine ⟨⟨hv.base_pos, hv.uniform.take 1, hlen ▸ Nat.one_pos, ?_, le_rfl, Nat.zero_le _, ?_⟩,
    h.base_eq, ?_, rfl, rfl, h.heap_eq⟩
  · show b.baseSize = b.baseSize * (b.nodes.take 1).length
    rw [hlen, Nat.mul_one]
  · show some 0 = if 0 = b.baseSize then none else some (0 / b.baseSize)
    rw [if_neg hv.base_pos.ne, Nat.zero_div]
  · obtain ⟨hsplit, hone⟩ := hv.uniform.split hv.nodes_pos
    show (b.nodes.take 1).flatten = f.bytes.take f.base
    rw [← h.bytes_eq, bytes, hsplit, List.take_left']
    rw [hone, Nat.mul_one, h.base_eq]

/-- The iovecs from the cursor on cover the next `len` bytes of the array. -/
theorem Valid.iovecs (h : Valid b) {len : ℕ} (hlen : 0 < len)
    (hroom : b.position + len ≤ b.capacity) :
    ∃ vs, b.iovecs len = .ok vs b ∧ Spans b.baseSize b.position len vs := by
  have hlt : b.position < b.capacity := by omega
  obtain ⟨hnode, hrest⟩ := h.at_node hlt
  have hdrop : 0 < (b.nodes.drop (b.position / b.baseSize)).length := by
    rw [List.length_drop]
    omega
  obtain ⟨vs, hloop, hspan⟩ := iovLoop_spec
    (i := b.position / b.baseSize) (h.uniform.drop (b.position / b.baseSize)) (Nat.mod_lt b.position h.base_pos) hdrop
    (show b.position % b.baseSize + len ≤ _ by omega)
  refine ⟨vs, ?_, by rwa [Nat.div_add_mod] at hspan⟩
  simp only [ByteArray.iovecs, h.cur_some hlt, Option.bind_some, hloop]

theorem Valid.getWriteBuffers (h : Valid b) (len : ℕ) :
    ∃ vs, ByteArray.getWriteBuffers len b = .ok vs (b.addCapacity len) ∧
      Spans b.baseSize b.position len vs := by
  unfold ByteArray.getWriteBuffers
  by_cases hlen : len = 0
  · subst hlen
    exact ⟨[], rfl, rfl⟩
  · have hg := h.addCapacity len
    have hroom : (b.addCapacity len).position + len ≤ (b.addCapacity len).capacity := by
      rw [hg.position_eq]
      exact hg.room
    obtain ⟨vs, hrun, hspan⟩ := hg.valid.iovecs (Nat.pos_of_ne_zero hlen) hroom
    rw [hg.base_eq, hg.position_eq] at hspan
    exact ⟨vs, by rw [if_neg hlen, hrun], hspan⟩

end

/-- The outcome of an operation and the array afterwards. -/
def outcome {α : Type} : EStateM.Result Fault ByteArray α → Except Fault α × ByteArray
  | .ok a b => (.ok a, b)
  | .error e b => (.error e, b)

/-- One operation on the array is the same operation on the flat buffer. -/
theorem sim_exec {b : ByteArray} {f : Flat} (h : Sim b f) {op : Op} (hop : op.Proper) :
    (outcome (op.exec b)).1 = (f.exec op).1 ∧ Sim (outcome (op.exec b)).2 (f.exec op).2 := by
  cases op with
  | write buf =>
    obtain ⟨b', hrun, hsim, -⟩ := h.write buf
    have hexec : Op.exec (.write buf) b = .ok .done b' := by
      simp only [Op.exec, bind, EStateM.bind, hrun]
      rfl
    rw [hexec]
    exact ⟨rfl, hsim⟩
  | read n =>
    simp only [Flat.exec]
    by_cases hn : n ≤ f.size - f.position
    · have hcur : f.position < f.bytes.length := by
        have := f.size_le
        have : 1 ≤ n := hop
        omega
      obtain ⟨b', hrun, hsim, -⟩ := h.read hn hcur
      have hexec : Op.exec (.read n) b = .ok (.bytes (slice f.bytes f.position n)) b' := by
        simp only [Op.exec, bind, EStateM.bind, hrun]
        rfl
      rw [hexec, dif_pos hn]
      exact ⟨rfl, hsim⟩
    · have hexec : Op.exec (.read n) b = .error (.outOfRange "not enough len") b := by
        simp only [Op.exec, bind, EStateM.bind, h.read_error hn]
      rw [hexec, dif_neg hn]
      exact ⟨rfl, h⟩
  | setPosition val =>
    simp only [Flat.exec]
    by_cases hval : val ≤ f.bytes.length
    · obtain ⟨b', hrun, hsim, -⟩ := h.setPosition hval
      have hexec : Op.exec (.setPosition val) b = .ok .done b' := by
        simp only [Op.exec, bind, EStateM.bind, hrun]
        rfl
      rw [hexec, dif_pos hval]
      exact ⟨rfl, hsim⟩
    · have hrun : ByteArray.setPosition val b =
          .error (.outOfRange "set_position out of range") b := by
        unfold ByteArray.setPosition
        rw [if_pos (by rw [h.capacity_eq]; omega)]
      have hexec : Op.exec (.setPosition val) b =
          .error (.outOfRange "set_position out of range") b := by
        simp only [Op.exec, bind, EStateM.bind, hrun]
      rw [hexec, dif_neg hval]
      exact ⟨rfl, h⟩
  | clear => exact ⟨rfl, h.clear⟩
  | getWriteBuffers len =>
    obtain ⟨vs, hrun, -⟩ := h.valid.getWriteBuffers len
    have hexec : Op.exec (.getWriteBuffers len) b = .ok (.count len) (b.addCapacity len) := by
      simp only [Op.exec, bind, EStateM.bind, hrun]
      rfl
    rw [hexec]
    exact ⟨rfl, h.addCapacity len⟩

/-- A reply, or a `std::out_of_range` that the caller may catch. -/
def Clean : Except Fault Reply → Prop
  | .ok _ | .error (.outOfRange _) => True
  | .error _ => False

theorem Flat.exec_clean (f : Flat) (op : Op) : Clean (f.exec op).1 := by
  cases op with
  | read n | setPosition val =>
    simp only [Flat.exec]
    split_ifs <;> trivial
  | write buf | clear | getWriteBuffers len => trivial

theorem run_cons {b : ByteArray} {op : Op} {ops : List Op}
    (h : Clean (outcome (op.exec b)).1) :
    run (op :: ops) b = ((outcome (op.exec b)).1 :: (run ops (outcome (op.exec b)).2).1,
      (run ops (outcome (op.exec b)).2).2) := by
  rw [run]
  cases hx : op.exec b with
  | ok a c => rfl
  | error e c =>
    rw [hx] at h
    cases e with
    | nullNode | overrun | lengthError => exact h.elim
    | outOfRange what => rfl

/-- Every sequence of operations gives the replies of the flat buffer, never dereferences a null
node, and leaves a valid array over the bytes of the flat buffer. -/
theorem refines_flat {base : ℕ} (hbase : 1 ≤ base) (heap : ℕ → UInt8) {ops : List Op}
    (hops : ∀ op ∈ ops, op.Proper) :
    (run ops (new base heap)).1 = (Flat.run ops (Flat.new base heap hbase)).1 ∧
      (∀ r ∈ (run ops (new base heap)).1, Clean r) ∧
      Sim (run ops (new base heap)).2 (Flat.run ops (Flat.new base heap hbase)).2 := by
  have key : ∀ (b : ByteArray) (f : Flat), Sim b f →
      (run ops b).1 = (Flat.run ops f).1 ∧ (∀ r ∈ (run ops b).1, Clean r) ∧
        Sim (run ops b).2 (Flat.run ops f).2 := by
    induction ops with
    | nil => exact fun b f h => ⟨rfl, nofun, h⟩
    | cons op ops ih =>
      intro b f h
      obtain ⟨hout, hsim⟩ := sim_exec h (hops op (List.mem_cons_self ..))
      have hclean : Clean (outcome (op.exec b)).1 := hout ▸ f.exec_clean op
      obtain ⟨hreplies, hsafe, hend⟩ := ih (fun o ho => hops o (List.mem_cons_of_mem _ ho)) _ _ hsim
      rw [run_cons hclean, Flat.run, hout, hreplies]
      refine ⟨rfl, ?_, hend⟩
      intro r hr
      rcases List.mem_cons.1 hr with rfl | hr
      · exact f.exec_clean op
      · exact hsafe r (hreplies ▸ hr)
  exact key _ _ (sim_new hbase heap)

/-- Pages of three bytes: two writes, one of them over old bytes, a read across a page boundary, a
read past the size and a cursor at the end. -/
theorem refines_flat_pages :
    (run [.write [1, 2, 3, 4], .setPosition 2, .write [9, 8], .setPosition 1, .read 3, .read 1,
        .getWriteBuffers 4, .setPosition 9, .read 1] (new 3 fun _ => 0)).1 =
      [.ok .done, .ok .done, .ok .done, .ok .done, .ok (.bytes [2, 9, 8]),
        .error (.outOfRange "not enough len"), .ok (.count 4), .ok .done,
        .error (.outOfRange "not enough len")] ∧
      Sim (run [.write [1, 2, 3, 4], .setPosition 2, .write [9, 8], .setPosition 1, .read 3, .read 1,
        .getWriteBuffers 4, .setPosition 9, .read 1] (new 3 fun _ => 0)).2
        (Flat.run [.write [1, 2, 3, 4], .setPosition 2, .write [9, 8], .setPosition 1, .read 3,
          .read 1, .getWriteBuffers 4, .setPosition 9, .read 1]
          (Flat.new 3 (fun _ => 0) (by decide))).2 :=
  ⟨rfl, (refines_flat (by decide) _ (by decide)).2.2⟩

end CoroutineScheduler.ByteArray
