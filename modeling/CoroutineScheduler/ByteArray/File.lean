import Mathlib.Tactic
import CoroutineScheduler.ByteArray.Positional

/-!
# Files

`writeToFile` writes one piece for each node from the cursor on, and computes the length of a piece as
`min (rest, m_baseSize) - diff`, where `diff` is the offset in the node. This is the right length when
`diff` is zero, or when at least a whole node's worth of bytes is left; else the loop goes astray
(`file_round_trip_iff`). `readFromFile` appends what is in the file, in pieces of the base size.

A file is the list of its bytes, and the streams do not fail.
-/

namespace CoroutineScheduler.ByteArray

open Splice

/-- `int diff = pos % m_baseSize`. -/
@[irreducible] def nodeDiff (pos baseSize : ℕ) : ℤ := ((pos % baseSize : ℕ) : ℤ).bmod (2 ^ 32)

/-- The loop of `writeToFile`, on the nodes from `cur` on: the bytes that are written. A pointer in
front of the node, or a negative count, is undefined behaviour (`overrun`). -/
def fileLoop (baseSize : ℕ) : List (List UInt8) → ℕ → ℕ → Except Fault (List UInt8)
  | _, _, 0 => .ok []
  | [], _, _ + 1 => .error .nullNode
  | node :: nodes, pos, readSize + 1 =>
    let diff := nodeDiff pos baseSize
    let len : ℤ := (if readSize + 1 > baseSize then baseSize else readSize + 1 : ℕ) - diff
    if diff < 0 ∨ len < 0 then .error .overrun
    else
      (slice node diff.toNat len.toNat ++ ·) <$>
        fileLoop baseSize nodes (pos + len.toNat) (readSize + 1 - len.toNat)

/-- `writeToFile`, with a file that can be opened: the bytes of the file. -/
def writeToFile : M (List UInt8) := fun b =>
  match fileLoop b.baseSize (match b.cur with | some i => b.nodes.drop i | none => []) b.position
    b.getReadSize with
  | .ok file => .ok file b
  | .error e => .error e b

/-- The loop of `readFromFile`: `read` takes `m_baseSize` bytes, or what is left and sets `eof`. -/
def readFileLoop (baseSize : ℕ) (file : List UInt8) : M Unit := do
  write (file.take baseSize)
  if file.length < baseSize ∨ baseSize = 0 then return
  else readFileLoop baseSize (file.drop baseSize)
termination_by file.length
decreasing_by
  rw [List.length_drop]
  omega

/-- `readFromFile`. -/
def readFromFile (file : List UInt8) : M Unit := do
  let b ← get
  readFileLoop b.baseSize file

section
variable {b : ByteArray}

/-! ## Reading a file -/

/-- A write at the end of the contents appends to them. -/
theorem Valid.append (h : Valid b) (hend : b.position = b.size) (buf : List UInt8) :
    ∃ c, ByteArray.write buf b = .ok () c ∧ Valid c ∧ c.position = c.size ∧
      c.baseSize = b.baseSize ∧ c.contents = b.contents ++ buf := by
  obtain ⟨c, hrun, hw⟩ := h.write buf
  have hsize : c.size = b.position + buf.length := by
    rw [hw.size_eq, ← hend]
    omega
  refine ⟨c, hrun, hw.valid, by rw [hw.position_eq, hsize], hw.base_eq, ?_⟩
  have hle := h.position_le_length
  rw [contents, contents, hsize, hw.bytes_eq, take_patch_end, List.take_append_of_le_length hle, hend]
  rw [List.length_append]
  omega

/-- The file is appended, piece by piece. -/
theorem Valid.readFileLoop {base : ℕ} (hbase : 0 < base) (file : List UInt8) {b : ByteArray}
    (h : Valid b) (hend : b.position = b.size) :
    ∃ c, ByteArray.readFileLoop base file b = .ok () c ∧ Valid c ∧
      c.contents = b.contents ++ file := by
  induction hlen : file.length using Nat.strong_induction_on generalizing file b with
  | _ n ih =>
    subst hlen
    obtain ⟨c, hrun, hv, hcend, -, hc⟩ := h.append hend (file.take base)
    rw [ByteArray.readFileLoop, bind_ok hrun]
    by_cases hlast : file.length < base
    · refine ⟨c, by rw [if_pos (.inl hlast)]; rfl, hv, ?_⟩
      rw [hc, List.take_of_length_le hlast.le]
    · have hdrop : (file.drop base).length < file.length := by
        rw [List.length_drop]
        omega
      obtain ⟨d, hrund, hvd, hd⟩ := ih _ hdrop (file.drop base) hv hcend rfl
      refine ⟨d, ?_, hvd, ?_⟩
      · rw [if_neg (by omega)]
        exact hrund
      · rw [hd, hc, List.append_assoc, List.take_append_drop]

/-- A file that is read into an empty array is what `toString` then gives, from the start. -/
theorem Valid.file_back (h : Valid b) (hempty : b.size = 0) (file : List UInt8) :
    ∃ c d, readFromFile file b = .ok () c ∧ ByteArray.setPosition 0 c = .ok () d ∧
      ByteArray.toString d = .ok file d := by
  have hle := h.position_le
  obtain ⟨c, hrun, hv, hc⟩ := Valid.readFileLoop h.base_pos file h (by omega)
  obtain ⟨d, hrund, hm⟩ := hv.setPosition (Nat.zero_le _)
  refine ⟨c, d, hrun, hrund, ?_⟩
  have hsize : d.size = c.size := by rw [hm.size_eq, Nat.max_zero]
  rw [hm.valid.toString, unread, getReadSize, hm.position_eq, hm.bytes_eq, hsize, Nat.sub_zero]
  have hfile : c.contents = file := by
    rw [hc, contents, hempty, List.take_zero, List.nil_append]
  rw [← hfile]
  rfl

/-! ## Writing a file -/

/-- Which arrays are written as they should be: nothing is left to read, or the cursor stands at the
start of a node, or a node's worth of bytes is left (and its offset is an `int`). -/
def Writes (b : ByteArray) : Prop :=
  b.getReadSize = 0 ∨
    (b.position % b.baseSize < 2 ^ 31 ∧
      (b.position % b.baseSize = 0 ∨ b.baseSize ≤ b.getReadSize))

instance (b : ByteArray) : Decidable (Writes b) := by
  unfold Writes
  infer_instance

variable {k pos n : ℕ} {node : List UInt8} {nodes : List (List UInt8)}

/-- An offset that is an `int`. -/
theorem nodeDiff_eq (h : pos % k < 2 ^ 31) : nodeDiff pos k = ((pos % k : ℕ) : ℤ) := by
  have hlt : ((pos % k : ℕ) : ℤ) < 2 ^ 31 := by
    norm_num at h ⊢
    omega
  unfold nodeDiff
  exact Int.bmod_eq_of_le (by omega) (by omega)

/-- An offset that is not an `int` becomes a smaller one. -/
theorem nodeDiff_le (pos k : ℕ) : nodeDiff pos k ≤ ((pos % k : ℕ) : ℤ) ∧ nodeDiff pos k < 2 ^ 31 := by
  have h0 : 0 ≤ ((pos % k : ℕ) : ℤ) := Int.natCast_nonneg _
  unfold nodeDiff
  generalize ((pos % k : ℕ) : ℤ) = x at h0 ⊢
  rw [Int.bmod_def]
  norm_num
  split_ifs <;> omega

/-- One turn of the loop, with an offset that fits. -/
theorem fileLoop_cons (hd : pos % k < 2 ^ 31) (hn : 0 < n) (hlen : pos % k ≤ min n k) :
    fileLoop k (node :: nodes) pos n =
      (slice node (pos % k) (min n k - pos % k) ++ ·) <$>
        fileLoop k nodes (pos + (min n k - pos % k)) (n - (min n k - pos % k)) := by
  obtain ⟨n, rfl⟩ := Nat.exists_eq_succ_of_ne_zero hn.ne'
  have hval : ((min (n + 1) k : ℕ) : ℤ) - ((pos % k : ℕ) : ℤ) =
      ((min (n + 1) k - pos % k : ℕ) : ℤ) := (Nat.cast_sub hlen).symm
  rw [fileLoop]
  simp only [ite_gt_eq_min, nodeDiff_eq hd, hval, Int.toNat_natCast]
  exact if_neg (not_or.2 ⟨(Int.natCast_nonneg _).not_gt, (Int.natCast_nonneg _).not_gt⟩)

/-- From the start of a node on, the nodes are written one after the other. -/
theorem fileLoop_aligned (hk : 0 < k) (hu : Uniform k nodes) (hpos : pos % k = 0)
    (hroom : n ≤ k * nodes.length) : fileLoop k nodes pos n = .ok (slice nodes.flatten 0 n) := by
  induction nodes generalizing pos n with
  | nil =>
    obtain rfl : n = 0 := by simpa using hroom
    rw [fileLoop, slice_zero]
  | cons node nodes ih =>
    by_cases hn : n = 0
    · rw [hn, slice_zero]
      cases nodes <;> rw [fileLoop]
    obtain ⟨hnode, hnodes⟩ := uniform_cons.1 hu
    rw [List.length_cons, Nat.mul_succ] at hroom
    rw [fileLoop_cons (by omega) (Nat.pos_of_ne_zero hn) (by omega), hpos, Nat.sub_zero,
      List.flatten_cons]
    by_cases hlast : n ≤ k
    · rw [min_eq_left hlast, Nat.sub_self, slice_left (by omega)]
      cases nodes <;> simp [fileLoop, Functor.map, Except.map]
    · rw [min_eq_right (by omega), ih hnodes (by rw [Nat.add_mod_right, hpos]) (by omega)]
      have hsplit : slice (node ++ nodes.flatten) 0 n =
          slice node 0 k ++ slice nodes.flatten 0 (n - k) := by
        conv_lhs => rw [show n = k + (n - k) by omega]
        rw [slice_add, slice_left (by omega), show 0 + k = node.length + 0 by omega, slice_right]
      rw [hsplit]
      rfl

/-- A first node that is written to its end, and the rest. -/
theorem fileLoop_whole (hk : 0 < k) (hu : Uniform k (node :: nodes)) (hd : pos % k < 2 ^ 31)
    (hn : k ≤ n) (hroom : pos % k + n ≤ k * (node :: nodes).length) :
    fileLoop k (node :: nodes) pos n = .ok (slice (node :: nodes).flatten (pos % k) n) := by
  obtain ⟨hnode, hnodes⟩ := uniform_cons.1 hu
  have hmod := Nat.mod_lt pos hk
  have hdm := Nat.div_add_mod pos k
  rw [List.length_cons, Nat.mul_succ] at hroom
  have hnext : (pos + (k - pos % k)) % k = 0 := by
    have hmul : pos + (k - pos % k) = k * (pos / k + 1) := by
      rw [Nat.mul_succ]
      omega
    rw [hmul, Nat.mul_mod_right]
  have hsplit : slice (node ++ nodes.flatten) (pos % k) n =
      slice node (pos % k) (k - pos % k) ++ slice nodes.flatten 0 (n - (k - pos % k)) := by
    conv_lhs => rw [show n = (k - pos % k) + (n - (k - pos % k)) by omega]
    rw [slice_add, slice_left (by omega), show pos % k + (k - pos % k) = node.length + 0 by omega,
      slice_right]
  have hmin : min n k = k := min_eq_right hn
  rw [fileLoop_cons hd (by omega) (by omega), hmin, fileLoop_aligned hk hnodes hnext (by omega),
    List.flatten_cons, hsplit]
  rfl

/-- One turn of a loop that comes to its end. -/
theorem fileLoop_ok {out : List UInt8} (hn : 0 < n)
    (h : fileLoop k (node :: nodes) pos n = .ok out) :
    ∃ diff len : ℕ, ∃ rest, nodeDiff pos k = diff ∧ diff + len = min n k ∧
      fileLoop k nodes (pos + len) (n - len) = .ok rest ∧ out = slice node diff len ++ rest := by
  obtain ⟨n, rfl⟩ := Nat.exists_eq_succ_of_ne_zero hn.ne'
  rw [fileLoop] at h
  simp only [ite_gt_eq_min] at h
  split at h
  · cases h
  next hneg =>
    rw [not_or, not_lt, not_lt] at hneg
    obtain ⟨diff, hdiff⟩ := Int.eq_ofNat_of_zero_le hneg.1
    obtain ⟨len, hlen⟩ := Int.eq_ofNat_of_zero_le hneg.2
    rw [hlen, hdiff, Int.toNat_natCast, Int.toNat_natCast] at h
    cases hrest : fileLoop k nodes (pos + len) (n + 1 - len) with
    | error e =>
      rw [hrest] at h
      cases h
    | ok rest =>
      rw [hrest] at h
      cases h
      exact ⟨diff, len, rest, hdiff, by omega, hrest, rfl⟩

/-- Nodes of zeros are written as zeros. -/
theorem fileLoop_zeros {out : List UInt8} (hz : ∀ node ∈ nodes, ∀ x ∈ node, x = 0)
    (h : fileLoop k nodes pos n = .ok out) : ∀ x ∈ out, x = 0 := by
  induction nodes generalizing pos n out with
  | nil =>
    cases n with
    | zero =>
      rw [fileLoop] at h
      cases h
      nofun
    | succ n =>
      rw [fileLoop] at h
      cases h
  | cons node nodes ih =>
    by_cases hn : n = 0
    · rw [hn, fileLoop] at h
      cases h
      nofun
    · obtain ⟨diff, len, rest, -, -, hrest, rfl⟩ := fileLoop_ok (Nat.pos_of_ne_zero hn) h
      intro x hx
      rcases List.mem_append.1 hx with hx | hx
      · exact hz node (List.mem_cons_self ..) x (List.mem_of_mem_drop (List.mem_of_mem_take hx))
      · exact ih (fun m hm => hz m (List.mem_cons_of_mem _ hm)) hrest x hx

/-! ## The round trip -/

/-- The file has the bytes `[m_position, m_size)` and the array is as it was, and these bytes come back
through any other array that is empty. -/
def FileRoundTrip (b : ByteArray) : Prop :=
  writeToFile b = .ok b.unread b ∧
    ∀ b₂, Valid b₂ → b₂.size = 0 → ∃ c d, readFromFile b.unread b₂ = .ok () c ∧
      ByteArray.setPosition 0 c = .ok () d ∧ ByteArray.toString d = .ok b.unread d

theorem writeToFile_empty (h0 : b.getReadSize = 0) : writeToFile b = .ok b.unread b := by
  unfold writeToFile
  rw [unread, h0, slice_zero]
  cases b.cur <;> simp [fileLoop]

/-- The loop and the bytes behind the cursor, from the node of the cursor on. -/
theorem Valid.writeToFile_eq (h : Valid b) (hcur : b.position < b.capacity) :
    ∃ node nodes, b.nodes.drop (b.position / b.baseSize) = node :: nodes ∧
      Uniform b.baseSize (node :: nodes) ∧
      b.unread = slice (node :: nodes).flatten (b.position % b.baseSize) b.getReadSize ∧
      b.position % b.baseSize + b.getReadSize ≤ b.baseSize * (node :: nodes).length ∧
      (writeToFile b = .ok b.unread b ↔
        fileLoop b.baseSize (node :: nodes) b.position b.getReadSize = .ok b.unread) := by
  obtain ⟨hnode, hrest⟩ := h.at_node hcur
  have hsize := h.size_le
  have hread : b.getReadSize = b.size - b.position := rfl
  obtain ⟨node, nodes, hdrop⟩ := List.exists_cons_of_ne_nil (h.drop_ne_nil hcur)
  refine ⟨node, nodes, hdrop, hdrop ▸ h.uniform.drop _, ?_, ?_, ?_⟩
  · obtain ⟨hflat, hoff⟩ := h.uniform.split hnode.le
    have hsplit := slice_right (l := (b.nodes.take (b.position / b.baseSize)).flatten)
      (m := (b.nodes.drop (b.position / b.baseSize)).flatten) (i := b.position % b.baseSize)
      (n := b.getReadSize)
    rwa [hoff, Nat.div_add_mod, ← hflat, hdrop] at hsplit
  · rw [← hdrop]
    omega
  · unfold writeToFile
    rw [h.cur_some hcur]
    simp only [hdrop]
    cases fileLoop b.baseSize (node :: nodes) b.position b.getReadSize with
    | ok file => simp
    | error e => simp

/-- The file is right when the condition holds. -/
theorem Writes.right (h : Valid b) (hw : Writes b) : writeToFile b = .ok b.unread b := by
  by_cases h0 : b.getReadSize = 0
  · exact writeToFile_empty h0
  obtain ⟨hd, hcase⟩ := hw.resolve_left h0
  have hsize := h.size_le
  have hread : b.getReadSize = b.size - b.position := rfl
  obtain ⟨node, nodes, -, hu, hunread, hroom, hiff⟩ := h.writeToFile_eq (by omega)
  rw [hiff, hunread]
  rcases hcase with hzero | hfull
  · rw [fileLoop_aligned h.base_pos hu hzero (by omega), hzero]
  · exact fileLoop_whole h.base_pos hu hd hfull hroom

theorem zero_of_mem_drop_marked {base count i d : ℕ} :
    ∀ node ∈ (marked base count i d).drop (i + 1), ∀ x ∈ node, x = 0 := by
  intro node hnode x hx
  rw [marked, ← List.map_drop] at hnode
  obtain ⟨j, hj, rfl⟩ := List.mem_map.1 hnode
  obtain ⟨m, hm, rfl⟩ := List.mem_drop_iff_getElem.1 hj
  rw [List.getElem_range, if_neg (by omega)] at hx
  exact List.eq_of_mem_replicate hx

/-- A first piece that starts or ends elsewhere than the marked bytes is seen to be wrong. -/
theorem marked_piece {base d n diff len : ℕ} {rest tail : List UInt8} (hd : d < base) (hn : 0 < n)
    (hdiff : diff ≤ d) (hmin : diff + len = min n base) (hzero : ∀ x ∈ rest, x = 0)
    (h : slice ((List.replicate d 0 ++ List.replicate (base - d) 1) ++ tail) d n =
      slice (List.replicate d 0 ++ List.replicate (base - d) 1) diff len ++ rest) :
    diff = d ∧ (d = 0 ∨ base ≤ n) := by
  have hone : ∀ j, j < n → j < base - d →
      (slice (List.replicate d 0 ++ List.replicate (base - d) 1) diff len ++ rest)[j]? =
        some (1 : UInt8) := by
    intro j hj hnode
    rw [← h, getElem?_slice hj, List.append_assoc, List.getElem?_append_right (by simp),
      List.getElem?_append_left (by simpa using hnode), List.getElem?_replicate, if_pos]
    simpa using hnode
  have hrest : ∀ j : ℕ, rest[j]? ≠ some 1 := by
    intro j hj
    have := hzero 1 (List.mem_of_getElem? hj)
    contradiction
  have hlen : (slice (List.replicate d 0 ++ List.replicate (base - d) (1 : UInt8)) diff len).length =
      len := by
    apply length_slice
    simp only [List.length_append, List.length_replicate]
    omega
  have hstart : diff = d := by
    by_contra hne
    have hfirst := hone 0 hn (by omega)
    by_cases h0 : len = 0
    · rw [h0, slice_zero, List.nil_append] at hfirst
      exact hrest 0 hfirst
    · rw [List.getElem?_append_left (by omega), getElem?_slice (by omega),
        List.getElem?_append_left (by simp; omega), List.getElem?_replicate] at hfirst
      simp at hfirst
  refine ⟨hstart, ?_⟩
  by_contra hcase
  have hnext := hone len (by omega) (by omega)
  rw [List.getElem?_append_right (by omega)] at hnext
  exact hrest _ hnext

/-- With the bytes from the cursor to the end of its node marked, every other file is seen to be
wrong. -/
theorem writes_of_right (h : Valid b)
    (hright : writeToFile (b.mark b.position) = .ok (b.mark b.position).unread (b.mark b.position)) :
    Writes b := by
  unfold Writes
  by_cases h0 : b.getReadSize = 0
  · exact .inl h0
  right
  obtain ⟨hv, hshape⟩ := h.mark b.position
  have hsize := h.size_le
  have hread : b.getReadSize = b.size - b.position := rfl
  have hcur : b.position < b.capacity := by omega
  obtain ⟨node, nodes, hdrop, -, hunread, -, hiff⟩ :=
    hv.writeToFile_eq (b := b.mark b.position) hcur
  have hfile := hiff.1 hright
  rw [hshape.baseSize, hshape.position] at hdrop hfile hunread
  have hlen : (b.mark b.position).getReadSize = b.getReadSize := rfl
  rw [hlen] at hfile hunread
  rw [show (b.mark b.position).nodes = marked b.baseSize b.nodes.length (b.position / b.baseSize)
    (b.position % b.baseSize) from rfl, drop_marked (h.div_lt hcur), if_pos rfl] at hdrop
  obtain ⟨rfl, rfl⟩ := List.cons.inj hdrop
  obtain ⟨diff, len, rest, hdiff, hmin, hrest, hout⟩ := fileLoop_ok (Nat.pos_of_ne_zero h0) hfile
  have hzero := fileLoop_zeros zero_of_mem_drop_marked hrest
  obtain ⟨hle, hint⟩ := nodeDiff_le b.position b.baseSize
  rw [hdiff] at hle hint
  rw [hunread, List.flatten_cons] at hout
  obtain ⟨rfl, hcase⟩ := marked_piece (Nat.mod_lt b.position h.base_pos) (Nat.pos_of_ne_zero h0)
    (Int.ofNat_le.1 hle) hmin hzero hout
  exact ⟨by exact_mod_cast hint, hcase⟩

end

/-- **File round trip**: `writeToFile` writes the bytes behind the cursor, and `readFromFile` brings
them back, for all bytes that an array of this shape may hold if and only if `Writes` holds. -/
theorem file_round_trip_iff {b : ByteArray} (h : Valid b) :
    (∀ c, Valid c → SameShape b c → FileRoundTrip c) ↔ Writes b := by
  constructor
  · intro hall
    obtain ⟨hv, hshape⟩ := h.mark b.position
    exact writes_of_right h (hall _ hv hshape).1
  · intro hw c hv hs
    refine ⟨Writes.right hv ?_, fun b₂ hv₂ hempty => hv₂.file_back hempty _⟩
    unfold Writes getReadSize at hw ⊢
    rwa [hs.size, hs.position, hs.baseSize]

/-- Nodes of three bytes, and a cursor in the middle of the first with four bytes behind it. -/
theorem file_round_trip_middle : ∃ b, Reachable 3 (fun _ => 0) b ∧ b.position = 1 ∧ b.size = 5 ∧
    ∀ c, Valid c → SameShape b c → FileRoundTrip c := by
  have hb : Reachable 3 (fun _ => 0) _ := .exec (.setPosition 1)
    (.exec (.write [1, 2, 3, 4, 5]) .new trivial) trivial
  exact ⟨_, hb, rfl, rfl, (file_round_trip_iff (hb.valid (by decide))).2 (by decide)⟩

/-- Two bytes are left in a node of four: the first is written, then a null node is dereferenced. -/
theorem file_round_trip_wrong : ¬∀ b, Reachable 4 (fun _ => 0) b → FileRoundTrip b := by
  intro hall
  have hb : Reachable 4 (fun _ => 0) _ := .exec (.setPosition 1)
    (.exec (.write [1, 2, 3]) .new trivial) trivial
  have hfile := (hall _ hb).1
  have hloop : fileLoop 4 [[1, 2, 3, 0]] 1 2 = .error .nullNode := by
    rw [fileLoop_cons (by decide) (by decide) (by decide)]
    rfl
  change (match fileLoop 4 [[1, 2, 3, 0]] 1 2 with | .ok file => _ | .error e => _) = _ at hfile
  rw [hloop] at hfile
  cases hfile

end CoroutineScheduler.ByteArray
