import Mathlib.Tactic
import CoroutineScheduler.ByteArray.Serial

/-!
# Reading and writing without a copy

`getWriteBuffers` and `getReadBuffers` give out iovecs into the nodes, and `SocketStream` lets the
socket fill or drain them and then moves the cursor with `setPosition`. The iovecs cover the bytes
behind the cursor one after the other (`Spans`), so filling them is a `patch` of the flat bytes
(`flatten_scatter`) and draining them a `slice` (`gather_eq`): the same as `write` and `read`.
-/

namespace CoroutineScheduler.ByteArray

open Splice

/-- The bytes `bs` stored into the iovecs in order, as many as there are. -/
def scatter : List (List UInt8) → List Iovec → List UInt8 → List (List UInt8)
  | nodes, [], _ => nodes
  | nodes, v :: vs, bs =>
    scatter (nodes.modify v.node fun node => patch node v.offset (bs.take v.len)) vs (bs.drop v.len)

/-- The bytes of the iovecs in order. -/
def gather (nodes : List (List UInt8)) (vs : List Iovec) : List UInt8 :=
  vs.flatMap fun v => slice (nodes.getD v.node []) v.offset v.len

/-- The socket stores `bs` into the iovecs. -/
def store (b : ByteArray) (vs : List Iovec) (bs : List UInt8) : ByteArray :=
  { b with nodes := scatter b.nodes vs bs }

/-- What `m_socket->recv(iovs)` returns: the bytes it stored, or a result `rt <= 0`. -/
inductive Received
  | bytes (bs : List UInt8)
  | failed (rt : ℤ)

/-- `SocketStream::read(ba, length)` on a connected socket. -/
def socketRead (length : ℕ) (recv : List Iovec → Received) : M ℤ := do
  let iovs ← getWriteBuffers length
  match recv iovs with
  | .bytes bs =>
    modify fun b => b.store iovs bs
    let b ← get
    setPosition (b.position + bs.length)
    return bs.length
  | .failed rt => return rt

/-- `SocketStream::write(ba, length)` on a connected socket, with `rt` the result of
`m_socket->send(iovs)`. -/
def socketWrite (length : ℕ) (send : List Iovec → ℤ) : M ℤ := do
  let iovs ← getReadBuffers length
  let rt := send iovs
  if rt > 0 then
    let b ← get
    setPosition (b.position + rt.toNat)
  return rt

/-! ## One node -/

section
variable {k i o n : ℕ} {nodes : List (List UInt8)} {xs : List UInt8}

/-- The nodes before, at and after number `i`, in a row. -/
theorem flatten_at (hu : Uniform k nodes) (hi : i < nodes.length) :
    nodes.flatten = (nodes.take i).flatten ++ (nodes[i] ++ (nodes.drop (i + 1)).flatten) ∧
      (nodes.take i).flatten.length = k * i := by
  obtain ⟨hsplit, hlen⟩ := hu.split hi.le
  refine ⟨?_, hlen⟩
  rw [hsplit, List.drop_eq_getElem_cons hi, List.flatten_cons]

theorem slice_node (hu : Uniform k nodes) (hi : i < nodes.length) (ho : o + n ≤ k) :
    slice (nodes.getD i []) o n = slice nodes.flatten (k * i + o) n := by
  obtain ⟨hsplit, hlen⟩ := flatten_at hu hi
  have hnode : nodes[i].length = k := hu _ (List.getElem_mem hi)
  have hget : nodes.getD i [] = nodes[i] := by
    rw [List.getD_eq_getElem?_getD, List.getElem?_eq_getElem hi, Option.getD_some]
  rw [hget, hsplit, ← hlen, slice_right, slice_left (by omega)]

theorem flatten_modify (hu : Uniform k nodes) (hi : i < nodes.length) (ho : o + xs.length ≤ k) :
    (nodes.modify i fun node => patch node o xs).flatten = patch nodes.flatten (k * i + o) xs ∧
      Uniform k (nodes.modify i fun node => patch node o xs) := by
  obtain ⟨hsplit, hlen⟩ := flatten_at hu hi
  have hnode : nodes[i].length = k := hu _ (List.getElem_mem hi)
  have hin : o + xs.length ≤ nodes[i].length := by omega
  rw [List.modify_eq_take_cons_drop hi]
  constructor
  · rw [List.flatten_append, List.flatten_cons, hsplit, ← hlen, patch_right, patch_left hin]
  · exact (hu.take i).append (uniform_cons.2 ⟨by rw [length_patch hin, hnode], hu.drop (i + 1)⟩)

end

/-! ## All iovecs -/

section
variable {k p n : ℕ} {vs : List Iovec} {nodes : List (List UInt8)}

theorem Spans.node_lt {v : Iovec} (hlen : 0 < v.len) (hpos : k * v.node + v.offset = p)
    (hle : v.len ≤ n) (hroom : p + n ≤ k * nodes.length) : v.node < nodes.length := by
  apply Nat.lt_of_mul_lt_mul_left (a := k)
  omega

theorem gather_eq (hu : Uniform k nodes) (h : Spans k p n vs)
    (hroom : p + n ≤ k * nodes.length) : gather nodes vs = slice nodes.flatten p n := by
  induction vs generalizing p n with
  | nil =>
    obtain rfl : n = 0 := h
    rw [slice_zero]
    rfl
  | cons v vs ih =>
    obtain ⟨⟨hlen, hin, hpos⟩, hle, hrest⟩ := h
    have hnode := Spans.node_lt hlen hpos hle hroom
    have htail := ih hrest (by omega)
    have hn : n = v.len + (n - v.len) := by omega
    rw [gather, List.flatMap_cons, slice_node hu hnode hin, hpos]
    conv_rhs => rw [hn, slice_add, ← htail]
    rfl

theorem flatten_scatter (hu : Uniform k nodes) (h : Spans k p n vs)
    (hroom : p + n ≤ k * nodes.length) {bs : List UInt8} (hbs : bs.length ≤ n) :
    (scatter nodes vs bs).flatten = patch nodes.flatten p bs ∧
      Uniform k (scatter nodes vs bs) ∧ (scatter nodes vs bs).length = nodes.length := by
  induction vs generalizing p n nodes bs with
  | nil =>
    obtain rfl : n = 0 := h
    obtain rfl := List.length_eq_zero_iff.1 (Nat.le_zero.1 hbs)
    exact ⟨patch_nil.symm, hu, rfl⟩
  | cons v vs ih =>
    obtain ⟨⟨hlen, hin, hpos⟩, hle, hrest⟩ := h
    have hnode := Spans.node_lt hlen hpos hle hroom
    have htake : v.offset + (bs.take v.len).length ≤ k := by
      rw [List.length_take]
      omega
    obtain ⟨hflat, hu'⟩ := flatten_modify hu hnode htake
    have hlen' : (nodes.modify v.node fun node => patch node v.offset (bs.take v.len)).length =
        nodes.length := List.length_modify ..
    have hdrop : (bs.drop v.len).length ≤ n - v.len := by
      rw [List.length_drop]
      omega
    obtain ⟨hres, huni, hsame⟩ := ih hu' hrest (by rw [hlen']; omega) hdrop
    refine ⟨?_, huni, hsame.trans hlen'⟩
    have hwhole : p + (bs.take v.len ++ bs.drop v.len).length ≤ nodes.flatten.length := by
      rw [List.take_append_drop, hu.length_flatten]
      omega
    have hsplit := patch_append hwhole
    rw [List.take_append_drop] at hsplit
    show (scatter _ vs (bs.drop v.len)).flatten = _
    rw [hres, hflat, hpos, hsplit]
    by_cases hfull : v.len ≤ bs.length
    · rw [List.length_take, min_eq_left hfull]
    · -- the bytes ended inside this iovec, nothing is left for the rest
      rw [List.drop_eq_nil_of_le (by omega), patch_nil, patch_nil]

theorem Spans.sum_len (h : Spans k p n vs) : (vs.map Iovec.len).sum = n := by
  induction vs generalizing p n with
  | nil => exact Eq.symm h
  | cons v vs ih =>
    obtain ⟨-, hle, hrest⟩ := h
    rw [List.map_cons, List.sum_cons, ih hrest]
    omega

/-- Two iovecs share no byte. -/
def Iovec.Apart (v w : Iovec) : Prop :=
  v.node ≠ w.node ∨ v.offset + v.len ≤ w.offset ∨ w.offset + w.len ≤ v.offset

theorem Spans.le_of_mem (h : Spans k p n vs) {w : Iovec} (hw : w ∈ vs) :
    p ≤ k * w.node + w.offset := by
  induction vs generalizing p n with
  | nil => simp at hw
  | cons v vs ih =>
    obtain ⟨⟨hlen, -, hpos⟩, -, hrest⟩ := h
    rcases List.mem_cons.1 hw with rfl | hw
    · exact hpos.ge
    · have := ih hrest hw
      omega

theorem Spans.apart (h : Spans k p n vs) : vs.Pairwise Iovec.Apart := by
  induction vs generalizing p n with
  | nil => exact List.Pairwise.nil
  | cons v vs ih =>
    obtain ⟨⟨-, -, hpos⟩, -, hrest⟩ := h
    refine List.pairwise_cons.2 ⟨fun w hw => ?_, ih hrest⟩
    have hafter := hrest.le_of_mem hw
    by_cases hsame : v.node = w.node
    · rw [← hsame] at hafter
      exact .inr (.inl (by omega))
    · exact .inl hsame

end

/-! ## Reachable arrays -/

/-- The arrays that the operations lead to, short of a null dereference. Besides those of `Op`,
the byte order may be set, and bytes may be stored through the iovecs of `getWriteBuffers`. -/
inductive Reachable (base : ℕ) (heap : ℕ → UInt8) : ByteArray → Prop
  | new : Reachable base heap (new base heap)
  | exec {b : ByteArray} (op : Op) (h : Reachable base heap b)
      (hclean : Clean (outcome (op.exec b)).1) : Reachable base heap (outcome (op.exec b)).2
  | setIsLittleEndian {b : ByteArray} (val : Bool) (h : Reachable base heap b) :
      Reachable base heap (b.setIsLittleEndian val)
  | store {b c : ByteArray} {len : ℕ} {vs : List Iovec} {bs : List UInt8}
      (h : Reachable base heap b) (hvs : getWriteBuffers len b = .ok vs c)
      (hbs : bs.length ≤ len) : Reachable base heap (c.store vs bs)

section
variable {b : ByteArray}

/-- Storing through iovecs that lie in the array writes to its bytes and to nothing else. -/
theorem Valid.store (h : Valid b) {p n : ℕ} {vs : List Iovec} (hvs : Spans b.baseSize p n vs)
    (hroom : p + n ≤ b.capacity) {bs : List UInt8} (hbs : bs.length ≤ n) :
    Valid (b.store vs bs) ∧ (b.store vs bs).bytes = patch b.bytes p bs := by
  rw [h.capacity_eq] at hroom
  obtain ⟨hflat, hu, hlen⟩ := flatten_scatter h.uniform hvs hroom hbs
  refine ⟨⟨h.base_pos, hu, hlen.symm ▸ h.nodes_pos, ?_, h.position_le, h.size_le, h.cur_eq⟩, hflat⟩
  rw [ByteArray.store, hlen]
  exact h.capacity_eq

/-- The iovecs of `getWriteBuffers` after a `store`. -/
theorem Valid.getWriteBuffers_store (h : Valid b) {len : ℕ} {c : ByteArray} {vs : List Iovec}
    (hrun : ByteArray.getWriteBuffers len b = .ok vs c) {bs : List UInt8} (hbs : bs.length ≤ len) :
    Valid (c.store vs bs) := by
  obtain ⟨vs', hrun', hspan⟩ := h.getWriteBuffers len
  rw [hrun'] at hrun
  cases hrun
  have hg := h.addCapacity len
  rw [← hg.base_eq] at hspan
  exact (hg.valid.store hspan hg.room hbs).1

theorem Reachable.valid {base : ℕ} (hbase : 1 ≤ base) {heap : ℕ → UInt8}
    (h : Reachable base heap b) : Valid b := by
  induction h with
  | new => exact valid_new hbase heap
  | @exec b op _ hclean ih =>
    by_cases hop : op.Proper
    · exact (sim_exec ih.sim hop).2.valid
    · -- only a read of no bytes is left, and it dereferences `m_cur`
      cases op with
      | read n =>
        obtain rfl : n = 0 := by
          simp only [Op.Proper] at hop
          omega
        by_cases hcur : b.position < b.capacity
        · obtain ⟨b', hrun, hm⟩ := ih.read (n := 0) ih.position_le hcur
          have hexec : Op.exec (.read 0) b = .ok (.bytes (slice b.bytes b.position 0)) b' :=
            (bind_ok hrun).trans rfl
          rw [hexec]
          exact hm.valid
        · have hexec : Op.exec (.read 0) b = .error .nullNode b :=
            bind_error (ih.read_null (Nat.zero_le _) hcur)
          rw [hexec] at hclean
          exact hclean.elim
      | write buf | setPosition val | clear | getWriteBuffers len => exact absurd trivial hop
  | setIsLittleEndian val _ ih =>
    exact ⟨ih.base_pos, ih.uniform, ih.nodes_pos, ih.capacity_eq, ih.position_le, ih.size_le,
      ih.cur_eq⟩
  | store _ hvs hbs ih => exact ih.getWriteBuffers_store hvs hbs

end

/-! ## Zero copy -/

/-- The bytes `[0, size)`. -/
def contents (b : ByteArray) : List UInt8 := b.bytes.take b.size

/-- The bytes `[position, size)`. -/
def unread (b : ByteArray) : List UInt8 := slice b.bytes b.position b.getReadSize

/-- The bytes that a read of `n` bytes copies. -/
theorem take_unread {b : ByteArray} {n : ℕ} (h : n ≤ b.getReadSize) :
    b.unread.take n = slice b.bytes b.position n := by
  rw [unread, slice, List.take_take, min_eq_left h]
  rfl

/-- Bytes behind the written ones do not matter up to the size. -/
theorem take_patch_append {l xs : List UInt8} {p s : ℕ} (junk : List UInt8) (hp : p ≤ l.length)
    (hs : s ≤ l.length) :
    (patch (l ++ junk) p xs).take (max s (p + xs.length)) =
      (l.take p ++ (xs ++ l.drop (p + xs.length))).take (max s (p + xs.length)) := by
  by_cases hin : p + xs.length ≤ l.length
  · rw [patch_left hin, List.take_append_of_le_length (by rw [length_patch hin]; omega)]
    rfl
  · have hmax : max s (p + xs.length) = p + xs.length := by omega
    rw [hmax, take_patch_end (by rw [List.length_append]; omega),
      List.take_append_of_le_length hp, List.drop_eq_nil_of_le (by omega), List.append_nil]
    refine (List.take_of_length_le ?_).symm
    rw [List.length_append, List.length_take]
    omega

section
variable {b : ByteArray}

theorem Valid.position_le_length (h : Valid b) : b.position ≤ b.bytes.length := by
  rw [h.length_bytes]
  exact h.position_le.trans h.size_le

/-- Receiving `bs` into the iovecs leaves what `write` of `bs` leaves. -/
theorem Valid.socketRead (h : Valid b) {len : ℕ} {bs : List UInt8} (hle : bs.length ≤ len) :
    ∃ vs c d w, ByteArray.getWriteBuffers len b = .ok vs c ∧ Spans b.baseSize b.position len vs ∧
      ByteArray.setPosition (c.position + bs.length) (c.store vs bs) = .ok () d ∧
      ByteArray.socketRead len (fun _ => .bytes bs) b = .ok bs.length d ∧
      ByteArray.write bs b = .ok () w ∧ d.position = w.position ∧ d.size = w.size ∧
      d.contents = w.contents := by
  obtain ⟨vs, hvs, hspan⟩ := h.getWriteBuffers len
  obtain ⟨w, hrunw, hw⟩ := h.write bs
  have hg := h.addCapacity len
  obtain ⟨hvalid, hbytes⟩ := hg.valid.store (hg.base_eq.symm ▸ hspan) hg.room hle
  have hcap : b.position + bs.length ≤ ((b.addCapacity len).store vs bs).capacity :=
    le_trans (Nat.add_le_add_left hle _) hg.room
  obtain ⟨d, hrund, hd⟩ := hvalid.setPosition hcap
  rw [← hg.position_eq] at hrund
  have hread : ByteArray.socketRead len (fun _ => .bytes bs) b = .ok (bs.length : ℤ) d :=
    (bind_ok hvs).trans ((bind_ok rfl).trans ((bind_ok rfl).trans ((bind_ok hrund).trans rfl)))
  have hsize : d.size = w.size := by
    rw [hd.size_eq, hw.size_eq]
    exact congrArg (max · _) hg.size_eq
  refine ⟨vs, _, d, w, hvs, hspan, hrund, hread, hrunw, hd.position_eq.trans hw.position_eq.symm,
    hsize, ?_⟩
  have hs : b.size ≤ b.bytes.length := h.size_le.trans h.length_bytes.ge
  rw [contents, contents, hsize, hw.size_eq, hd.bytes_eq, hbytes, hg.bytes_eq, hw.bytes_eq,
    take_patch_append _ h.position_le_length hs,
    take_patch_append _ h.position_le_length hs]

theorem Valid.getReadBuffers_spans (h : Valid b) (len : ℕ) :
    ∃ vs, ByteArray.getReadBuffers len b = .ok vs b ∧
      Spans b.baseSize b.position (min len b.getReadSize) vs ∧
      b.position + min len b.getReadSize ≤ b.capacity := by
  have hroom : b.position + min len b.getReadSize ≤ b.capacity := by
    have hle : min len b.getReadSize ≤ b.size - b.position := min_le_right _ _
    have := h.position_le
    have := h.size_le
    omega
  simp only [ByteArray.getReadBuffers, ite_gt_eq_min]
  by_cases hlen : min len b.getReadSize = 0
  · exact ⟨[], if_pos hlen, hlen, hroom⟩
  · obtain ⟨vs, hrun, hspan⟩ := h.iovecs (Nat.pos_of_ne_zero hlen) hroom
    exact ⟨vs, (if_neg hlen).trans hrun, hspan, hroom⟩

/-- The iovecs of `getReadBuffers` hold the bytes that `read` would copy. -/
theorem Valid.getReadBuffers (h : Valid b) (len : ℕ) :
    ∃ vs, ByteArray.getReadBuffers len b = .ok vs b ∧
      gather b.nodes vs = b.unread.take (min len b.getReadSize) := by
  obtain ⟨vs, hrun, hspan, hroom⟩ := h.getReadBuffers_spans len
  refine ⟨vs, hrun, ?_⟩
  rw [take_unread (min_le_right _ _)]
  exact gather_eq h.uniform hspan (h.capacity_eq ▸ hroom)

/-- Sending `rt` of the bytes leaves the rest of them to be read. -/
theorem Valid.socketWrite (h : Valid b) {len : ℕ} {rt : ℤ} (hrt : rt ≤ min len b.getReadSize) :
    ∃ d, ByteArray.socketWrite len (fun _ => rt) b = .ok rt d ∧ d.unread = b.unread.drop rt.toNat ∧
      d.contents = b.contents := by
  obtain ⟨vs, hvs, -⟩ := h.getReadBuffers len
  by_cases hpos : rt > 0
  · have hle : b.position + rt.toNat ≤ b.size := by
      have := h.position_le
      have hsz : (b.getReadSize : ℤ) = b.size - b.position := by
        rw [getReadSize, Nat.cast_sub h.position_le]
      have hmin : (min len b.getReadSize : ℤ) ≤ b.getReadSize := min_le_right _ _
      omega
    obtain ⟨d, hrun, hd⟩ := h.setPosition (hle.trans h.size_le)
    have hsize : d.size = b.size := by rw [hd.size_eq, max_eq_left hle]
    refine ⟨d, ?_, ?_, by rw [contents, contents, hsize, hd.bytes_eq]⟩
    · refine (bind_ok hvs).trans ?_
      simp only [if_pos hpos]
      exact (bind_ok rfl).trans ((bind_ok hrun).trans rfl)
    · have hread : d.getReadSize = b.getReadSize - rt.toNat := by
        rw [getReadSize, getReadSize, hsize, hd.position_eq]
        omega
      rw [unread, unread, hread, hd.position_eq, hd.bytes_eq, slice, slice, List.drop_take,
        List.drop_drop]
  · refine ⟨b, ?_, ?_, rfl⟩
    · refine (bind_ok hvs).trans ?_
      simp only [if_neg hpos]
      rfl
    · rw [Int.toNat_of_nonpos (by omega), List.drop_zero]

end

/-- Filling the iovecs of `getWriteBuffers` and moving the cursor is `write`, the iovecs of
`getReadBuffers` are what `read` returns, and a partial send goes on at the first byte not sent. -/
theorem zero_copy {base : ℕ} (hbase : 1 ≤ base) {heap : ℕ → UInt8} {b : ByteArray}
    (h : Reachable base heap b) :
    (∀ len (bs : List UInt8), 0 < bs.length → bs.length ≤ len →
      ∃ vs c d w, getWriteBuffers len b = .ok vs c ∧ (vs.map Iovec.len).sum = len ∧
        vs.Pairwise Iovec.Apart ∧ setPosition (c.position + bs.length) (c.store vs bs) = .ok () d ∧
        socketRead len (fun _ => .bytes bs) b = .ok bs.length d ∧ write bs b = .ok () w ∧
        d.position = w.position ∧ d.size = w.size ∧ d.contents = w.contents) ∧
    (∀ len, ∃ vs, getReadBuffers len b = .ok vs b ∧
      gather b.nodes vs = b.unread.take (min len b.getReadSize) ∧
      (∀ bs b', read (min len b.getReadSize) b = .ok bs b' → bs = gather b.nodes vs) ∧
      (0 < min len b.getReadSize →
        ∃ b', read (min len b.getReadSize) b = .ok (gather b.nodes vs) b') ∧
      ∀ rt : ℤ, rt ≤ min len b.getReadSize → ∃ d, socketWrite len (fun _ => rt) b = .ok rt d ∧
        d.unread = b.unread.drop rt.toNat ∧ d.contents = b.contents) := by
  have hv := h.valid hbase
  refine ⟨fun len bs _ hle => ?_, fun len => ?_⟩
  · obtain ⟨vs, c, d, w, hvs, hspan, hset, hread, hwrite, heq⟩ := hv.socketRead hle
    exact ⟨vs, c, d, w, hvs, hspan.sum_len, hspan.apart, hset, hread, hwrite, heq⟩
  · obtain ⟨vs, hvs, hgather⟩ := hv.getReadBuffers len
    have hread : b.position < b.capacity →
        ∃ b', read (min len b.getReadSize) b = .ok (gather b.nodes vs) b' := by
      intro hcur
      have hle : b.position + min len b.getReadSize ≤ b.size := by
        have hmin : min len b.getReadSize ≤ b.size - b.position := min_le_right _ _
        have := hv.position_le
        omega
      obtain ⟨b', hrun, -⟩ := hv.read hle hcur
      rw [hgather, take_unread (min_le_right _ _)]
      exact ⟨b', hrun⟩
    refine ⟨vs, hvs, hgather, fun bs b' hrun => ?_, fun hpos => ?_, fun rt hrt => hv.socketWrite hrt⟩
    · by_cases hcur : b.position < b.capacity
      · obtain ⟨c, hrun'⟩ := hread hcur
        rw [hrun'] at hrun
        cases hrun
        rfl
      · rw [hv.read_null (min_le_right _ _) hcur] at hrun
        cases hrun
    · apply hread
      have hmin : min len b.getReadSize ≤ b.size - b.position := min_le_right _ _
      have := hv.size_le
      omega

/-- Nodes of two bytes, all full: three bytes are received through two iovecs into nodes that
`getWriteBuffers(4)` adds, the cursor having been null before. -/
theorem zero_copy_full : ∃ b d, Reachable 2 (fun _ => 0) b ∧ b.cur = none ∧
    socketRead 4 (fun _ => .bytes [7, 8, 9]) b = .ok 3 d ∧ d.contents = [1, 2, 7, 8, 9] := by
  have hb : Reachable 2 (fun _ => 0) _ := Reachable.exec (.write [1, 2]) .new trivial
  obtain ⟨vs, c, d, w, -, -, -, -, hread, hwrite, -, -, hcontents⟩ :=
    (zero_copy (by decide) hb).1 4 [7, 8, 9] (by decide) (by decide)
  refine ⟨_, d, hb, rfl, hread, hcontents.trans ?_⟩
  cases hwrite
  rfl

end CoroutineScheduler.ByteArray
