import Mathlib.Tactic
import CoroutineScheduler.ByteArray.Buffers

/-!
# Reads at a position of the caller's

`read(buf, size, position)` and `getReadBuffers(buffers, len, position)` are meant to ignore the
cursor. The first takes the offset in the node from `position` and the node from `m_cur`, and its test
`size > m_size - position` is one of unsigned numbers; the second finds its node itself, but cuts the
length to what is left behind the cursor.

`positional_iff` says for which arguments and cursors they are right all the same, whatever the bytes
in the array are.
-/

namespace CoroutineScheduler.ByteArray

open Splice

/-- `m - p` of two `size_t`. -/
def subSize (m p : ℕ) : ℕ := if p ≤ m then m - p else 2 ^ 64 - (p - m)

/-- `read(buf, size, position)`. The node is dereferenced for every size, also for zero. -/
def readAt (size position : ℕ) : M (List UInt8) := fun b =>
  if size > subSize b.size position then .error (.outOfRange "not enough len") b
  else
    match b.cur.bind fun i => readLoop (b.nodes.drop i) (position % b.baseSize) size with
    | none => .error .nullNode b
    | some (buf, _) => .ok buf b

/-- `getReadBuffers(buffers, len, position)`: the walk from the root goes past `position / m_baseSize`
nodes. -/
def getReadBuffersAt (len position : ℕ) : M (List Iovec) := fun b =>
  let len := if len > b.getReadSize then b.getReadSize else len
  if len = 0 then .ok [] b
  else
    let count := position / b.baseSize
    match iovLoop count (b.nodes.drop count) (position % b.baseSize) len with
    | none => .error .nullNode b
    | some iovs => .ok iovs b

/-- `toString()`. -/
def toString : M (List UInt8) := fun b =>
  if b.getReadSize = 0 then .ok [] b else readAt b.getReadSize b.position b

/-! ## What they are for -/

/-- The bytes `[p, p + n)`, or `std::out_of_range` when these are not all there. -/
def ReadAtRight (b : ByteArray) (n p : ℕ) : Prop :=
  readAt n p b =
    if p ≤ b.size ∧ n ≤ b.size - p then .ok (slice b.bytes p n) b
    else .error (.outOfRange "not enough len") b

/-- Iovecs of the bytes `[p, min (p + n) size)`. -/
def BuffersAtRight (b : ByteArray) (n p : ℕ) : Prop :=
  ∃ vs, getReadBuffersAt n p b = .ok vs b ∧
    gather b.nodes vs = slice b.bytes p (min n (b.size - p))

/-- Two arrays that differ in nothing but their bytes, and in what is of no account to a reader. -/
structure SameShape (b c : ByteArray) : Prop where
  baseSize : c.baseSize = b.baseSize
  position : c.position = b.position
  capacity : c.capacity = b.capacity
  size : c.size = b.size

/-- What `read(buf, n, p)` needs to be right: the test `n > m_size - p` does what it should, and unless
it throws, the cursor has a node, which is that of `p` if anything is read. -/
def ReadsAt (b : ByteArray) (n p : ℕ) : Prop :=
  if p ≤ b.size then
    b.size - p < n ∨
      (b.position < b.capacity ∧ (n = 0 ∨ b.position / b.baseSize = p / b.baseSize))
  else 2 ^ 64 - (p - b.size) < n

instance (b : ByteArray) (n p : ℕ) : Decidable (ReadsAt b n p) := by
  unfold ReadsAt
  infer_instance

section
variable {b : ByteArray} {n p : ℕ}

theorem SameShape.refl (b : ByteArray) : SameShape b b := ⟨rfl, rfl, rfl, rfl⟩

theorem readAt_error (h : n > subSize b.size p) :
    readAt n p b = .error (.outOfRange "not enough len") b := if_pos h

/-! ## The copy -/

theorem Valid.div_lt (h : Valid b) (hp : p < b.capacity) : p / b.baseSize < b.nodes.length := by
  rw [Nat.div_lt_iff_lt_mul h.base_pos, Nat.mul_comm, ← h.capacity_eq]
  exact hp

/-- The walk from the node of `p` copies the bytes at `p`. -/
theorem Valid.readLoop_at (h : Valid b) (hp : p < b.capacity) (hn : p + n ≤ b.capacity) :
    (readLoop (b.nodes.drop (p / b.baseSize)) (p % b.baseSize) n).map Prod.fst =
      some (slice b.bytes p n) := by
  have hdm := Nat.div_add_mod p b.baseSize
  have hnode := h.div_lt hp
  have hlen : (b.nodes.drop (p / b.baseSize)).length = b.nodes.length - p / b.baseSize :=
    List.length_drop
  have hroom : p % b.baseSize + n ≤ b.baseSize * (b.nodes.drop (p / b.baseSize)).length := by
    rw [hlen, Nat.mul_sub, ← h.capacity_eq]
    omega
  obtain ⟨hflat, hoff⟩ := h.uniform.split hnode.le
  have hslice : slice b.bytes p n =
      slice (b.nodes.drop (p / b.baseSize)).flatten (p % b.baseSize) n := by
    have hsplit := slice_right (l := (b.nodes.take (p / b.baseSize)).flatten)
      (m := (b.nodes.drop (p / b.baseSize)).flatten) (i := p % b.baseSize) (n := n)
    rwa [hoff, hdm, ← hflat] at hsplit
  rw [readLoop_spec (h.uniform.drop _) (Nat.mod_lt p h.base_pos) (by omega) hroom, hslice]
  rfl

/-- Nothing is copied, but the node is looked at. -/
theorem readLoop_zero {nodes : List (List UInt8)} {npos : ℕ} (h : nodes ≠ []) :
    readLoop nodes npos 0 = some ([], 0) := by
  obtain ⟨node, nodes, rfl⟩ := List.exists_cons_of_ne_nil h
  rfl

/-- The first byte that is copied is one of the first node. -/
theorem head_of_readLoop {node : List UInt8} {nodes : List (List UInt8)} {npos k : ℕ}
    {buf : List UInt8} (hpos : npos < node.length) (hn : 0 < n)
    (h : readLoop (node :: nodes) npos n = some (buf, k)) : buf.head? = node[npos]? := by
  have hslice : ∀ {m : ℕ}, 0 < m → (slice node npos m).head? = node[npos]? := by
    intro m hm
    rw [slice, List.head?_take, if_neg hm.ne', List.head?_drop]
  unfold readLoop at h
  rw [if_neg hn.ne'] at h
  by_cases hfit : node.length - npos ≥ n
  · rw [if_pos hfit] at h
    cases h
    exact hslice hn
  · rw [if_neg hfit] at h
    obtain ⟨r, -, hr⟩ := Option.map_eq_some_iff.1 h
    cases hr
    have hne : slice node npos (node.length - npos) ≠ [] := by
      intro h0
      have hlen := length_slice (l := node) (i := npos) (n := node.length - npos) (by omega)
      rw [h0, List.length_nil] at hlen
      omega
    rw [List.head?_append_of_ne_nil _ hne]
    exact hslice (by omega)

/-! ## Bytes that tell positions apart -/

/-- Nodes of zeros, but for number `i`, which has ones from `d` on. -/
def marked (base count i d : ℕ) : List (List UInt8) :=
  (List.range count).map fun j =>
    if j = i then List.replicate d 0 ++ List.replicate (base - d) 1 else List.replicate base 0

theorem length_marked (base count i d : ℕ) : (marked base count i d).length = count := by
  simp [marked]

theorem uniform_marked {base d : ℕ} (hd : d ≤ base) (count i : ℕ) :
    Uniform base (marked base count i d) := by
  intro node hnode
  obtain ⟨j, -, rfl⟩ := List.mem_map.1 hnode
  split_ifs
  · rw [List.length_append, List.length_replicate, List.length_replicate]
    omega
  · exact List.length_replicate

theorem drop_marked {base count i j d : ℕ} (hj : j < count) :
    (marked base count i d).drop j =
      (if j = i then List.replicate d 0 ++ List.replicate (base - d) 1 else List.replicate base 0) ::
        (marked base count i d).drop (j + 1) := by
  rw [List.drop_eq_getElem_cons (by rwa [length_marked])]
  simp [marked]

/-- The array with ones from position `p` to the end of its node. -/
def mark (b : ByteArray) (p : ℕ) : ByteArray :=
  { b with nodes := marked b.baseSize b.nodes.length (p / b.baseSize) (p % b.baseSize) }

theorem Valid.mark (h : Valid b) (p : ℕ) : Valid (b.mark p) ∧ SameShape b (b.mark p) := by
  have hlen : (b.mark p).nodes.length = b.nodes.length := length_marked ..
  refine ⟨⟨h.base_pos, uniform_marked (Nat.mod_lt p h.base_pos).le _ _, ?_, ?_, h.position_le,
    h.size_le, h.cur_eq⟩, ⟨rfl, rfl, rfl, rfl⟩⟩
  · rw [hlen]
    exact h.nodes_pos
  · rw [hlen]
    exact h.capacity_eq

/-! ## When they are right -/

theorem Valid.drop_ne_nil (h : Valid b) (hcur : b.position < b.capacity) :
    b.nodes.drop (b.position / b.baseSize) ≠ [] := by
  have hlt := (h.at_node hcur).1
  rw [Ne, List.drop_eq_nil_iff]
  omega

/-- The read is right when the condition holds. -/
theorem ReadsAt.right (h : Valid b) (hc : ReadsAt b n p) : ReadAtRight b n p := by
  unfold ReadAtRight
  unfold ReadsAt at hc
  by_cases hp : p ≤ b.size
  · rw [if_pos hp] at hc
    have hsub : subSize b.size p = b.size - p := if_pos hp
    by_cases hn : n ≤ b.size - p
    · obtain ⟨hcur, hnode⟩ := hc.resolve_left (by omega)
      rw [if_pos ⟨hp, hn⟩, readAt, if_neg (by rw [hsub]; omega), h.cur_some hcur, Option.bind_some]
      by_cases hn0 : n = 0
      · rw [hn0, readLoop_zero (h.drop_ne_nil hcur), slice_zero]
      · have hle := h.size_le
        have hloop := h.readLoop_at (n := n) (p := p) (by omega) (by omega)
        obtain ⟨r, hr, hfst⟩ := Option.map_eq_some_iff.1 hloop
        rw [hnode.resolve_left hn0, hr, ← hfst]
    · rw [if_neg fun hh => hn hh.2]
      exact readAt_error (by rw [hsub]; omega)
  · rw [if_neg hp] at hc
    rw [if_neg fun hh => hp hh.1]
    refine readAt_error ?_
    rw [subSize, if_neg hp]
    exact hc

/-- With the bytes at `p` marked, a copy that starts in another node is seen to be wrong. -/
theorem Valid.not_readAtRight_mark (h : Valid b) (hp : p ≤ b.size) (hn : n ≤ b.size - p)
    (hn0 : 0 < n) (hcur : b.position < b.capacity)
    (hother : b.position / b.baseSize ≠ p / b.baseSize) : ¬ReadAtRight (b.mark p) n p := by
  obtain ⟨hv, hshape⟩ := h.mark p
  have hle := h.size_le
  have hoff := Nat.mod_lt p h.base_pos
  have hnodes : (b.mark p).nodes =
      marked b.baseSize b.nodes.length (p / b.baseSize) (p % b.baseSize) := rfl
  have hsub : ¬n > subSize b.size p := by
    rw [subSize, if_pos hp]
    omega
  intro hright
  unfold ReadAtRight readAt at hright
  rw [hshape.size, if_neg hsub, if_pos ⟨hp, hn⟩, hv.cur_some (b := b.mark p) hcur, Option.bind_some,
    hshape.position, hshape.baseSize, hnodes] at hright
  -- where the copy should start
  have hloop := hv.readLoop_at (n := n) (p := p) (show p < b.capacity by omega)
    (show p + n ≤ b.capacity by omega)
  obtain ⟨⟨good, k⟩, hgood, hfst⟩ := Option.map_eq_some_iff.1 hloop
  rw [hnodes, hshape.baseSize, drop_marked (h.div_lt (by omega)), if_pos rfl] at hgood
  have hone : good.head? = some 1 := by
    rw [head_of_readLoop (by simpa using hoff) hn0 hgood, List.getElem?_append_right (by simp)]
    simp [hoff]
  -- where it starts
  split at hright
  · cases hright
  · next buf k' hbad =>
    rw [drop_marked (h.div_lt hcur), if_neg hother] at hbad
    have hzero := head_of_readLoop (by simpa using hoff) hn0 hbad
    cases hright
    rw [← hfst, hone] at hzero
    simp [hoff] at hzero

/-- Only then is it right for all bytes that the array may hold. -/
theorem readsAt_of_right (h : Valid b)
    (hall : ∀ c, Valid c → SameShape b c → ReadAtRight c n p) : ReadsAt b n p := by
  have hself := hall b h (.refl b)
  unfold ReadAtRight readAt at hself
  unfold ReadsAt
  by_cases hp : p ≤ b.size
  · rw [if_pos hp]
    by_contra hc
    rw [not_or] at hc
    obtain ⟨hn, hc⟩ := hc
    by_cases hcur : b.position < b.capacity
    · have hother : ¬(n = 0 ∨ b.position / b.baseSize = p / b.baseSize) := fun h => hc ⟨hcur, h⟩
      rw [not_or] at hother
      obtain ⟨hv, hshape⟩ := h.mark p
      exact h.not_readAtRight_mark hp (by omega) (Nat.pos_of_ne_zero hother.1) hcur hother.2
        (hall _ hv hshape)
    · -- the cursor is at the end
      have hsub : ¬n > subSize b.size p := by
        rw [subSize, if_pos hp]
        omega
      rw [if_neg hsub, h.cur_none hcur, if_pos ⟨hp, by omega⟩] at hself
      cases hself
  · rw [if_neg hp]
    by_contra hc
    have hsub : ¬n > subSize b.size p := by rwa [subSize, if_neg hp]
    rw [if_neg hsub, if_neg fun hh => hp hh.1] at hself
    split at hself <;> cases hself

/-- `toString` gives the bytes behind the cursor. -/
theorem Valid.toString (h : Valid b) : ByteArray.toString b = .ok b.unread b := by
  unfold ByteArray.toString
  by_cases h0 : b.getReadSize = 0
  · rw [if_pos h0, unread, h0, slice_zero]
  · have hle := h.position_le
    have hsize := h.size_le
    have hread : b.getReadSize = b.size - b.position := rfl
    have hright : ReadAtRight b b.getReadSize b.position := by
      refine ReadsAt.right h ?_
      unfold ReadsAt
      rw [if_pos hle]
      exact .inr ⟨by omega, .inr rfl⟩
    rw [if_neg h0, hright, if_pos ⟨hle, hread.le⟩]
    rfl

/-! ## The iovecs -/

/-- A walk that needs more bytes than there are comes to a null node. -/
theorem iovLoop_none {k i npos len : ℕ} {nodes : List (List UInt8)} (hu : Uniform k nodes)
    (hpos : npos ≤ k) (hlen : 0 < len) (hroom : k * nodes.length < npos + len) :
    iovLoop i nodes npos len = none := by
  induction nodes generalizing i npos len with
  | nil => rfl
  | cons node nodes ih =>
    obtain ⟨hnode, hnodes⟩ := uniform_cons.1 hu
    rw [List.length_cons, Nat.mul_succ] at hroom
    have hshort : ¬node.length - npos ≥ len := by
      rw [hnode]
      have := Nat.zero_le (k * nodes.length)
      omega
    rw [iovLoop, if_neg hlen.ne', if_neg hshort,
      ih hnodes (Nat.zero_le k) (by omega) (by omega), Option.map_none]

/-- The three ways in which the iovecs of a position come out. -/
theorem Valid.getReadBuffersAt (h : Valid b) (n p : ℕ) :
    (min n b.getReadSize = 0 ∧ ByteArray.getReadBuffersAt n p b = .ok [] b) ∨
    (p + min n b.getReadSize ≤ b.capacity ∧ ∃ vs, ByteArray.getReadBuffersAt n p b = .ok vs b ∧
      gather b.nodes vs = slice b.bytes p (min n b.getReadSize)) ∨
    (min n b.getReadSize ≠ 0 ∧ b.capacity < p + min n b.getReadSize ∧
      ByteArray.getReadBuffersAt n p b = .error .nullNode b) := by
  unfold ByteArray.getReadBuffersAt
  simp only [ite_gt_eq_min]
  by_cases hlen : min n b.getReadSize = 0
  · exact .inl ⟨hlen, if_pos hlen⟩
  rw [if_neg hlen]
  have hdm := Nat.div_add_mod p b.baseSize
  have hmod := Nat.mod_lt p h.base_pos
  have hcap := h.capacity_eq
  have hdrop : b.baseSize * (b.nodes.drop (p / b.baseSize)).length =
      b.capacity - b.baseSize * (p / b.baseSize) := by
    rw [List.length_drop, Nat.mul_sub, ← hcap]
  by_cases hroom : p + min n b.getReadSize ≤ b.capacity
  · have hne : 0 < (b.nodes.drop (p / b.baseSize)).length := by
      apply Nat.pos_of_ne_zero
      intro h0
      rw [h0, Nat.mul_zero] at hdrop
      omega
    obtain ⟨vs, hrun, hspan⟩ := iovLoop_spec (i := p / b.baseSize) (h.uniform.drop (p / b.baseSize))
      hmod hne (show p % b.baseSize + min n b.getReadSize ≤ _ by omega)
    rw [hdm] at hspan
    refine .inr (.inl ⟨hroom, vs, ?_, gather_eq h.uniform hspan (hcap ▸ hroom)⟩)
    rw [hrun]
  · refine .inr (.inr ⟨hlen, by omega, ?_⟩)
    rw [iovLoop_none (h.uniform.drop _) hmod.le (Nat.pos_of_ne_zero hlen) (by omega)]

theorem buffersAtRight_iff (h : Valid b) (n p : ℕ) :
    BuffersAtRight b n p ↔ min n (b.size - b.position) = min n (b.size - p) := by
  have hread : b.getReadSize = b.size - b.position := rfl
  have hbytes := h.length_bytes
  have hsize := h.size_le
  have hwant : (slice b.bytes p (min n (b.size - p))).length = min n (b.size - p) := by
    by_cases hp : p ≤ b.size
    · exact length_slice (by omega)
    · rw [Nat.sub_eq_zero_of_le (by omega), Nat.min_zero, slice_zero, List.length_nil]
  unfold BuffersAtRight
  obtain ⟨h0, hrun⟩ | ⟨hroom, vs, hrun, hgather⟩ | ⟨hlen, hroom, hrun⟩ := h.getReadBuffersAt n p
  · rw [hread] at h0
    constructor
    · rintro ⟨vs, hvs, hg⟩
      rw [hrun] at hvs
      cases hvs
      rw [← hg] at hwant
      rw [h0, ← hwant]
      rfl
    · intro heq
      refine ⟨[], hrun, ?_⟩
      rw [← heq, h0, slice_zero]
      rfl
  · rw [hread] at hroom hgather
    constructor
    · rintro ⟨us, hus, hg⟩
      rw [hrun] at hus
      cases hus
      rw [← hg, hgather, length_slice (by omega)] at hwant
      exact hwant
    · intro heq
      exact ⟨vs, hrun, by rw [hgather, heq]⟩
  · rw [hread] at hlen hroom
    constructor
    · rintro ⟨vs, hvs, -⟩
      rw [hrun] at hvs
      cases hvs
    · intro heq
      omega

end

/-- **Positional reads**: `read(buf, n, p)` is right for all bytes that an array of this shape may hold
if and only if `ReadsAt` holds, and the iovecs of `getReadBuffers(buffers, n, p)` are right if and only
if as many of the `n` bytes are left behind the cursor as behind `p`. -/
theorem positional_iff {b : ByteArray} (h : Valid b) (n p : ℕ) :
    ((∀ c, Valid c → SameShape b c → ReadAtRight c n p) ↔ ReadsAt b n p) ∧
      (BuffersAtRight b n p ↔ min n (b.size - b.position) = min n (b.size - p)) := by
  refine ⟨⟨readsAt_of_right h, fun hc c hv hs => ReadsAt.right hv ?_⟩, buffersAtRight_iff h n p⟩
  unfold ReadsAt at hc ⊢
  rwa [hs.size, hs.position, hs.capacity, hs.baseSize]

/-- Nodes of three bytes, and a cursor in the node of the caller's position. -/
theorem positional_near : ∃ b, Reachable 3 (fun _ => 0) b ∧ b.position = 4 ∧ b.size = 6 ∧
    (∀ c, Valid c → SameShape b c → ReadAtRight c 2 3) ∧ BuffersAtRight b 1 3 := by
  have hb : Reachable 3 (fun _ => 0) _ := .exec (.setPosition 4)
    (.exec (.write [1, 2, 3, 4, 5, 6]) .new trivial) trivial
  exact ⟨_, hb, rfl, rfl, (positional_iff (hb.valid (by decide)) 2 3).1.2 (by decide),
    (positional_iff (hb.valid (by decide)) 1 3).2.2 (by decide)⟩

/-- The cursor in the first node and a position in the second: the byte is one of the first. -/
theorem positional_wrong : ¬∀ b, Reachable 2 (fun _ => 0) b → ∀ n p,
    ReadAtRight b n p ∧ BuffersAtRight b n p := by
  intro hall
  have hb : Reachable 2 (fun _ => 0) _ := .exec (.setPosition 0)
    (.exec (.write [1, 2, 3, 4]) .new trivial) trivial
  have hread := (hall _ hb 1 2).1
  have hbyte : (.ok [1] _ : EStateM.Result Fault ByteArray (List UInt8)) = .ok [3] _ := hread
  cases hbyte

end CoroutineScheduler.ByteArray
