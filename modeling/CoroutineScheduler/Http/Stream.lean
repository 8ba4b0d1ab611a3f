import Mathlib.Tactic

/-!
# Reading from and writing to a connected socket

The socket is the list of pieces in which the bytes of the peer will arrive. A read returns the
first piece, or as much of it as was asked for; the rest of the piece stays in the socket. When no
piece is left the peer has closed the connection and a read returns zero. The other direction is a
`Sink`: the bytes that went out, and how many bytes the next writes will take.

`readLoop_eq` says which bytes `Stream::readFixSize` copies: they do not depend on the pieces.
`writeLoop_eq` says the same of `Stream::writeFixSize`.
-/

namespace CoroutineScheduler.Http

/-- The bytes in the socket, in the pieces in which they arrive. -/
abbrev Reads := List (List UInt8)

/-- `read(buffer, length)`: the bytes copied, none on a result `<= 0`, and what stays. -/
def recv (length : ℕ) : Reads → List UInt8 × Reads
  | [] => ([], [])
  | c :: rs => (c.take length, if c.length ≤ length then rs else c.drop length :: rs)

/-- The loop of `Stream::readFixSize`: the bytes it copies, `none` when a read returns zero before
`left` is zero. -/
def readLoop : ℕ → Reads → Option (List UInt8) × Reads
  | 0, rs => (some [], rs)
  | _ + 1, [] => (none, [])
  | left + 1, c :: rs =>
    if c.length = 0 then (none, rs)
    else if c.length ≤ left + 1 then
      ((readLoop (left + 1 - c.length) rs).1.map (c ++ ·), (readLoop (left + 1 - c.length) rs).2)
    else (some (c.take (left + 1)), c.drop (left + 1) :: rs)
termination_by structural _ rs => rs

/-- `(int)length`, the value `Stream::readFixSize` returns when it has copied all bytes. -/
def toInt (length : ℕ) : ℤ := Int.bmod length (2 ^ 32)

/-- `Stream::readFixSize(buffer, length)` followed by the test `<= 0` of its callers: the bytes, or
`none` where the callers give up. -/
def readFixSize (length : ℕ) (rs : Reads) : Option (List UInt8) × Reads :=
  let r := readLoop length rs
  (if toInt length ≤ 0 then none else r.1, r.2)

/-- The socket behind its next `n` bytes. -/
def skip : ℕ → Reads → Reads
  | _, [] => []
  | n, c :: rs => if c.length ≤ n then skip (n - c.length) rs else c.drop n :: rs

/-- Every piece has at least one byte. -/
def Solid (rs : Reads) : Prop := ∀ c ∈ rs, c ≠ []

instance : DecidablePred Solid := fun rs => inferInstanceAs (Decidable (∀ c ∈ rs, c ≠ []))

section
variable {rs : Reads} {n : ℕ}

theorem Solid.tail {c : List UInt8} (h : Solid (c :: rs)) : Solid rs :=
  fun d hd => h d (List.mem_cons_of_mem _ hd)

/-- What a read takes and what it leaves are the bytes there were. -/
theorem recv_append (n : ℕ) (rs : Reads) : (recv n rs).1 ++ (recv n rs).2.flatten = rs.flatten := by
  cases rs with
  | nil => rfl
  | cons c rs =>
    simp only [recv]
    split_ifs with h
    · rw [List.take_of_length_le h, List.flatten_cons]
    · rw [List.flatten_cons, List.flatten_cons, ← List.append_assoc, List.take_append_drop]

theorem recv_length_le (n : ℕ) (rs : Reads) : (recv n rs).1.length ≤ n := by
  cases rs with
  | nil => exact Nat.zero_le n
  | cons c rs => exact (List.length_take ..).trans_le (min_le_left _ _)

theorem Solid.recv (h : Solid rs) : Solid (recv n rs).2 := by
  cases rs with
  | nil => exact nofun
  | cons c rs =>
    simp only [Http.recv]
    split_ifs with hle
    · exact h.tail
    · intro d hd
      rcases List.mem_cons.1 hd with rfl | hd
      · intro h0
        have hlen := congrArg List.length h0
        rw [List.length_drop, List.length_nil] at hlen
        omega
      · exact h.tail d hd

/-- A read of some space returns nothing only at the end. -/
theorem Solid.recv_ne_nil (h : Solid rs) (hn : 0 < n) (hrs : rs.flatten ≠ []) :
    (Http.recv n rs).1 ≠ [] := by
  cases rs with
  | nil => exact absurd rfl hrs
  | cons c rs =>
    have hc := List.length_pos_of_ne_nil (h c (List.mem_cons_self ..))
    apply List.ne_nil_of_length_pos
    simp only [Http.recv, List.length_take]
    omega

theorem Solid.readLoop (h : Solid rs) : Solid (readLoop n rs).2 := by
  induction rs generalizing n with
  | nil => cases n <;> exact nofun
  | cons c rs ih =>
    cases n with
    | zero => exact h
    | succ n =>
      simp only [Http.readLoop]
      split_ifs with h0 hle
      · exact h.tail
      · exact ih h.tail
      · have hrest := h.recv (n := n + 1)
        simp only [Http.recv, if_neg hle] at hrest
        exact hrest

/-- The loop copies the next `n` bytes, in whatever pieces they come, and leaves the others. -/
theorem readLoop_eq (h : Solid rs) (hn : n ≤ rs.flatten.length) :
    (readLoop n rs).1 = some (rs.flatten.take n) ∧
      (readLoop n rs).2.flatten = rs.flatten.drop n := by
  induction rs generalizing n with
  | nil =>
    obtain rfl : n = 0 := Nat.le_zero.1 hn
    exact ⟨rfl, rfl⟩
  | cons c rs ih =>
    cases n with
    | zero => exact ⟨rfl, rfl⟩
    | succ n =>
      have hc := List.length_pos_of_ne_nil (h c (List.mem_cons_self ..))
      rw [List.flatten_cons, List.length_append] at hn
      simp only [Http.readLoop, if_neg hc.ne', List.flatten_cons]
      split_ifs with hle
      · obtain ⟨h₁, h₂⟩ := ih (n := n + 1 - c.length) h.tail (by omega)
        rw [h₁, h₂, List.take_append, List.drop_append, List.take_of_length_le hle,
          List.drop_eq_nil_of_le hle]
        exact ⟨rfl, rfl⟩
      · rw [List.take_append_of_le_length (by omega), List.drop_append_of_le_length (by omega)]
        exact ⟨rfl, rfl⟩

theorem readLoop_none (h : Solid rs) (hn : rs.flatten.length < n) : (readLoop n rs).1 = none := by
  induction rs generalizing n with
  | nil =>
    obtain ⟨k, rfl⟩ := Nat.exists_eq_succ_of_ne_zero (Nat.ne_of_gt hn)
    rfl
  | cons c rs ih =>
    obtain ⟨k, rfl⟩ := Nat.exists_eq_succ_of_ne_zero (Nat.ne_of_gt (Nat.zero_lt_of_lt hn))
    have hc := List.length_pos_of_ne_nil (h c (List.mem_cons_self ..))
    rw [List.flatten_cons, List.length_append] at hn
    simp only [Http.readLoop, if_neg hc.ne']
    rw [if_pos (by omega), ih h.tail (by omega)]
    rfl

theorem readFixSize_reads (n : ℕ) (rs : Reads) : (readFixSize n rs).2 = (readLoop n rs).2 := by
  obtain ⟨r, rs', h⟩ : ∃ r rs', readLoop n rs = (r, rs') := ⟨_, _, rfl⟩
  simp only [readFixSize, h]

theorem readFixSize_pos (h : 0 < toInt n) : (readFixSize n rs).1 = (readLoop n rs).1 := by
  simp only [readFixSize, if_neg (not_le.2 h)]

theorem readFixSize_none (h : toInt n ≤ 0 ∨ (readLoop n rs).1 = none) :
    (readFixSize n rs).1 = none := by
  simp only [readFixSize]
  split_ifs with hneg
  · rfl
  · exact h.resolve_left hneg

/-! ## Skipping -/

theorem skip_zero (h : Solid rs) : skip 0 rs = rs := by
  cases rs with
  | nil => rfl
  | cons c rs =>
    have hc := List.length_pos_of_ne_nil (h c (List.mem_cons_self ..))
    rw [skip, if_neg (by omega), List.drop_zero]

theorem flatten_skip (n : ℕ) (rs : Reads) : (skip n rs).flatten = rs.flatten.drop n := by
  induction rs generalizing n with
  | nil => rw [skip, List.flatten_nil, List.drop_nil]
  | cons c rs ih =>
    rw [skip, List.flatten_cons, List.drop_append]
    split_ifs with hle
    · rw [ih, List.drop_eq_nil_of_le hle, List.nil_append]
    · rw [List.flatten_cons, show n - c.length = 0 by omega, List.drop_zero]

theorem Solid.skip (h : Solid rs) : Solid (skip n rs) := by
  induction rs generalizing n with
  | nil => exact nofun
  | cons c rs ih =>
    rw [Http.skip]
    split_ifs with hle
    · exact ih h.tail
    · have hrest := h.recv (n := n)
      simp only [Http.recv, if_neg hle] at hrest
      exact hrest

theorem skip_skip (h : Solid rs) (k : ℕ) : skip k (skip n rs) = skip (n + k) rs := by
  induction rs generalizing n with
  | nil => rfl
  | cons c rs ih =>
    simp only [skip]
    split_ifs with hle hle' hle'
    · rw [ih h.tail, show n - c.length + k = n + k - c.length by omega]
    · omega
    · rw [skip, List.length_drop, if_pos (by omega),
        show k - (c.length - n) = n + k - c.length by omega]
    · rw [skip, List.length_drop, if_neg (by omega), List.drop_drop]

theorem recv_skip (h : Solid rs) (n : ℕ) : (recv n rs).2 = skip (recv n rs).1.length rs := by
  cases rs with
  | nil => rfl
  | cons c rs =>
    simp only [recv, skip, List.length_take]
    split_ifs with hle hle' hle'
    · rw [min_eq_right hle, Nat.sub_self, skip_zero h.tail]
    · omega
    · omega
    · rw [min_eq_left (by omega)]

theorem readLoop_skip (h : Solid rs) (hn : n ≤ rs.flatten.length) :
    (readLoop n rs).2 = skip n rs := by
  induction rs generalizing n with
  | nil =>
    obtain rfl : n = 0 := Nat.le_zero.1 hn
    rfl
  | cons c rs ih =>
    have hc := List.length_pos_of_ne_nil (h c (List.mem_cons_self ..))
    rw [List.flatten_cons, List.length_append] at hn
    cases n with
    | zero => exact (skip_zero h).symm
    | succ n =>
      simp only [readLoop, skip, if_neg hc.ne']
      split_ifs with hle
      · exact ih h.tail (by omega)
      · rfl

end

/-! ## Writing -/

/-- The way out of a socket: the number of bytes that each of the next writes takes at most, zero
for a write that fails; a write behind these takes all. -/
structure Sink where
  room : List ℕ := []
  sent : List UInt8 := []
  deriving DecidableEq, Repr

/-- No write fails. -/
def Sink.Open (k : Sink) : Prop := ∀ n ∈ k.room, n ≠ 0

/-- The loop of `Stream::writeFixSize`, with the room of the writes as a list: whether all bytes
went out. -/
def writeLoop : List ℕ → List UInt8 → List UInt8 → Bool × Sink
  | room, [], sent => (true, ⟨room, sent⟩)
  | [], data, sent => (true, ⟨[], sent ++ data⟩)
  | n :: room, data, sent =>
    if n = 0 then (false, ⟨room, sent⟩)
    else writeLoop room (data.drop n) (sent ++ data.take n)

/-- `Stream::writeFixSize(buffer, length)` followed by the test `<= 0` of its callers. -/
def writeFixSize (data : List UInt8) (k : Sink) : Bool × Sink :=
  let r := writeLoop k.room data k.sent
  (0 < toInt data.length && r.1, r.2)

/-- The two cases of the conversion to `int`. -/
theorem toInt_def (n : ℕ) :
    toInt n = if (n : ℤ) % 4294967296 < 2147483648 then (n : ℤ) % 4294967296
      else (n : ℤ) % 4294967296 - 4294967296 :=
  Int.bmod_def ..

theorem toInt_eq {n : ℕ} (h : n < 2 ^ 31) : toInt n = n := by
  have hdef := toInt_def n
  omega

theorem toInt_neg {n : ℕ} (h : 2 ^ 31 ≤ n) (hlt : n < 2 ^ 32) : toInt n < 0 := by
  have hdef := toInt_def n
  omega

theorem toInt_pos_iff {n : ℕ} (hlt : n < 2 ^ 32) : 0 < toInt n ↔ 0 < n ∧ n < 2 ^ 31 := by
  rcases Nat.lt_or_ge n (2 ^ 31) with h | h
  · rw [toInt_eq h]
    omega
  · have hneg := toInt_neg h hlt
    omega

section
variable {k : Sink}

/-- All bytes go out, however many each write takes. -/
theorem writeLoop_eq {room : List ℕ} (h : ∀ n ∈ room, n ≠ 0) (data sent : List UInt8) :
    ∃ room', (∀ n ∈ room', n ≠ 0) ∧ writeLoop room data sent = (true, ⟨room', sent ++ data⟩) := by
  induction room generalizing data sent with
  | nil =>
    refine ⟨[], h, ?_⟩
    cases data with
    | nil => rw [writeLoop, List.append_nil]
    | cons b bs => rfl
  | cons n room ih =>
    obtain ⟨hn, hroom⟩ := List.forall_mem_cons.1 h
    cases data with
    | nil => exact ⟨n :: room, h, by rw [writeLoop, List.append_nil]⟩
    | cons b bs =>
      obtain ⟨room', hroom', heq⟩ := ih hroom ((b :: bs).drop n) (sent ++ (b :: bs).take n)
      refine ⟨room', hroom', ?_⟩
      rw [writeLoop, if_neg hn, heq, List.append_assoc, List.take_append_drop]
      exact List.cons_ne_nil b bs

theorem writeFixSize_open (h : k.Open) (data : List UInt8) :
    ∃ room, Sink.Open ⟨room, k.sent ++ data⟩ ∧
      writeFixSize data k = (decide (0 < toInt data.length), ⟨room, k.sent ++ data⟩) := by
  obtain ⟨room, hroom, heq⟩ := writeLoop_eq h data k.sent
  refine ⟨room, hroom, ?_⟩
  simp only [writeFixSize, heq, Bool.and_true]

end

end CoroutineScheduler.Http
