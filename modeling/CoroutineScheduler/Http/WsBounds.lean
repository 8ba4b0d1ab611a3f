import CoroutineScheduler.Http.WsFrames
import CoroutineScheduler.Lib.Splice
import CoroutineScheduler.Lib.Trans

/-!
# Where a WebSocket message is stored

`WSRecvMessage` once more, with its string `data` as a buffer: `data.resize`, the bytes that
`readFixSize(&data[cur_len], length)` stores, and the loop that takes the mask off. Each store is
kept with its index and the size that `data` has then. The index may be anything; `length` is a
`uint64_t`, `left` an `int64_t`, and `readFixSize` returns `(int)length`.

1. `readInto_spec`, `unmask_spec`: what the two loops store when the buffer has room.
2. `wsDataMove_wraps`: a length that carries `cur_len + length` over `2^64` ends in a closed stream.
3. `Bounded`, `wsMove_bounded`: what every round of the receiver keeps.
4. `wsTurn_erase`: the rounds are those of `WSRecvMessage` without the buffer.
-/

namespace CoroutineScheduler.Http

open Splice Trans

/-! ## The buffer -/

/-- `data`, and the stores into it: the index and the size of `data`. -/
structure WsBuffer where
  bytes : List UInt8 := []
  stores : List (ℤ × ℕ) := []
  deriving DecidableEq, Repr

namespace WsBuffer

/-- `data[i] = v`. -/
def store (d : WsBuffer) (i : ℤ) (v : UInt8) : WsBuffer :=
  ⟨if 0 ≤ i then d.bytes.set i.toNat v else d.bytes, d.stores ++ [(i, d.bytes.length)]⟩

/-- `data[i]`. -/
def load (d : WsBuffer) (i : ℤ) : UInt8 := if 0 ≤ i then d.bytes.getD i.toNat 0 else 0

/-- Bytes stored one behind the other. -/
def storeAll (d : WsBuffer) (i : ℤ) : List UInt8 → WsBuffer
  | [] => d
  | b :: bs => (d.store i b).storeAll (i + 1) bs

/-- `data.resize(n)`. -/
def resize (d : WsBuffer) (n : ℕ) : WsBuffer :=
  ⟨d.bytes.take n ++ List.replicate (n - d.bytes.length) 0, d.stores⟩

/-- Every store was inside `data`. -/
def Inside (d : WsBuffer) : Prop := ∀ p ∈ d.stores, 0 ≤ p.1 ∧ p.1 < p.2

end WsBuffer

/-- The loop of `readFixSize`, which stores at `i` and behind it: whether it ends with `left` zero. -/
def readIntoLoop : ℕ → ℤ → Reads → WsBuffer → Bool × Reads × WsBuffer
  | 0, _, rs, d => (true, rs, d)
  | _ + 1, _, [], d => (false, [], d)
  | left + 1, i, c :: rs, d =>
    if c.length = 0 then (false, rs, d)
    else if c.length ≤ left + 1 then
      readIntoLoop (left + 1 - c.length) (i + c.length) rs (d.storeAll i c)
    else (true, c.drop (left + 1) :: rs, d.storeAll i (c.take (left + 1)))
termination_by structural _ _ rs => rs

/-- `readFixSize(&data[i], length)`: what it returns, and the stream and the buffer behind it. -/
def readInto (i : ℤ) (length : ℕ) (rs : Reads) (d : WsBuffer) : ℤ × Reads × WsBuffer :=
  let left := Int.bmod length (2 ^ 64)
  let r := readIntoLoop left.toNat i rs d
  (if r.1 then toInt length else 0, r.2)

/-- `data[i + j] ^= mask[j % 4]` for `j` below `n`. -/
def unmask (mask : List UInt8) (i : ℤ) (n : ℕ) (d : WsBuffer) : WsBuffer :=
  (List.range n).foldl (fun d (j : ℕ) => d.store (i + j) (d.load (i + j) ^^^ mask.getD (j % 4) 0)) d

/-! ## The receiver -/

/-- What a round of `WSRecvMessage` finds in the stream: a data frame is its head, its length and
the stream from its mask on. -/
inductive WsArrival
  | closed
  | skipped (reads : Reads) (sink : Sink)
  | frame (head : WSFrameHead) (length : ℕ) (reads : Reads)

/-- The part of a round in front of the limit. -/
def wsArrival (client : Bool) (reads : Reads) (sink : Sink) : WsArrival :=
  let r := readFixSize 2 reads
  match r.1 with
  | none => .closed
  | some bs =>
    let h := WSFrameHead.ofBytes bs
    if h.opcode = WSFrameHead.ping then
      let w := wsPong sink
      if w.1 then .skipped r.2 w.2 else .closed
    else if h.opcode = WSFrameHead.pong then .skipped r.2 sink
    else if h.opcode = WSFrameHead.continueFrame ∨ h.opcode = WSFrameHead.textFrame ∨
        h.opcode = WSFrameHead.binFrame then
      if !client && !h.mask then .closed
      else
        let l := wsLength h.payload r.2
        match l.1 with
        | none => .closed
        | some length => .frame h length l.2
    else .skipped r.2 sink

/-- The variables of `WSRecvMessage`. -/
structure WsVars where
  opcode : ℤ := 0
  data : WsBuffer := {}
  curLen : ℤ := 0
  reads : Reads
  sink : Sink
  deriving DecidableEq

/-- How a round ends. -/
inductive WsMove
  | closed (data : WsBuffer)
  | message (m : WSFrameMessage) (s : WsVars)
  | again (s : WsVars)

/-- The buffer behind a round. -/
def WsMove.data : WsMove → WsBuffer
  | .closed d => d
  | .message _ s => s.data
  | .again s => s.data

section
variable (client : Bool) (maxSize : UInt32)

/-- The data of a frame below the limit, which `data` is resized for. -/
def wsTake (h : WSFrameHead) (length : ℕ) (mask : List UInt8) (size : ℕ) (s : WsVars) (rs : Reads) :
    WsMove :=
  let r := readInto s.curLen length rs (s.data.resize size)
  if r.1 ≤ 0 then .closed r.2.2
  else
    let data := if h.mask then unmask mask s.curLen (toInt length).toNat r.2.2 else r.2.2
    let opcode : ℤ := if s.opcode = 0 ∧ h.opcode ≠ WSFrameHead.continueFrame then h.opcode
      else s.opcode
    -- `cur_len += length` is a sum of `uint64_t`, stored in an `int`
    let s' : WsVars := ⟨opcode, data, Int.bmod (s.curLen + length) (2 ^ 32), r.2.1, s.sink⟩
    if h.fin then .message ⟨opcode, data.bytes⟩ s' else .again s'

/-- The data of a frame of some length. -/
def wsDataMove (h : WSFrameHead) (length : ℕ) (s : WsVars) (rs : Reads) : WsMove :=
  let sum := (s.curLen + length) % 2 ^ 64
  if (maxSize.toNat : ℤ) ≤ sum then .closed s.data
  else
    let m := wsReadMask h.mask rs
    match m.1 with
    | none => .closed s.data
    | some mask => wsTake h length mask sum.toNat s m.2

/-- A round of the loop of `WSRecvMessage`. -/
def wsMove (s : WsVars) : WsMove :=
  match wsArrival client s.reads s.sink with
  | .closed => .closed s.data
  | .skipped rs k => .again { s with reads := rs, sink := k }
  | .frame h length rs => wsDataMove maxSize h length s rs

/-- The rounds that do not end the loop. -/
def wsStep (s : WsVars) (_ : Unit) : Option WsVars :=
  match wsMove client maxSize s with
  | .again s' => some s'
  | _ => none

/-- The states in front of the rounds of a call. -/
def WsReached (rs : Reads) (k : Sink) : WsVars → Prop :=
  Reach (wsStep client maxSize) free { reads := rs, sink := k }

end

/-! ## Stores with room -/

namespace WsBuffer

variable {d : WsBuffer} {i n : ℕ} {bs front : List UInt8}

theorem Inside.store (h : d.Inside) (hi : i < d.bytes.length) (v : UInt8) :
    (d.store i v).Inside := by
  intro p hp
  rcases List.mem_append.1 hp with hp | hp
  · exact h p hp
  · rw [List.mem_singleton.1 hp]
    exact ⟨Int.natCast_nonneg i, Int.ofNat_lt.2 hi⟩

theorem bytes_store (d : WsBuffer) (i : ℕ) (v : UInt8) :
    (d.store i v).bytes = d.bytes.set i v := by
  unfold WsBuffer.store
  rw [if_pos (Int.natCast_nonneg i), Int.toNat_natCast]

theorem load_eq (d : WsBuffer) (i : ℕ) : d.load i = d.bytes.getD i 0 := by
  unfold load
  rw [if_pos (Int.natCast_nonneg i), Int.toNat_natCast]

theorem patch_singleton {l : List UInt8} (h : i < l.length) (v : UInt8) :
    patch l i [v] = l.set i v := by
  rw [patch, List.set_eq_take_append_cons_drop, if_pos h]
  rfl

theorem storeAll_spec (i : ℕ) (bs : List UInt8) (h : d.Inside)
    (hroom : i + bs.length ≤ d.bytes.length) :
    (d.storeAll i bs).Inside ∧ (d.storeAll i bs).bytes = patch d.bytes i bs := by
  induction bs generalizing d i with
  | nil => exact ⟨h, patch_nil.symm⟩
  | cons b bs ih =>
    rw [List.length_cons] at hroom
    have hi : i < d.bytes.length := by omega
    have hlen : (d.store i b).bytes.length = d.bytes.length := by
      rw [bytes_store, List.length_set]
    obtain ⟨hins, hbytes⟩ := ih (i + 1) (h.store hi b) (by rw [hlen]; omega)
    have hsplit : patch d.bytes i ([b] ++ bs) = patch (patch d.bytes i [b]) (i + 1) bs :=
      patch_append (by rw [List.length_append, List.length_singleton]; omega)
    refine ⟨hins, ?_⟩
    calc (d.storeAll i (b :: bs)).bytes = patch (d.bytes.set i b) (i + 1) bs := by
          rw [← bytes_store, ← hbytes]
          rfl
      _ = patch d.bytes i (b :: bs) := by
          rw [← patch_singleton hi]
          exact hsplit.symm

end WsBuffer

/-- The loop stores the bytes that it takes from the stream. -/
theorem readIntoLoop_spec {d : WsBuffer} {left i : ℕ} (rs : Reads) (h : d.Inside)
    (hroom : i + left ≤ d.bytes.length) :
    (readIntoLoop left i rs d).2.2.Inside ∧
      (readIntoLoop left i rs d).1 = (readLoop left rs).1.isSome ∧
      (readIntoLoop left i rs d).2.1 = (readLoop left rs).2 ∧
      ∀ bs, (readLoop left rs).1 = some bs → bs.length = left ∧
        (readIntoLoop left i rs d).2.2.bytes = patch d.bytes i bs := by
  induction rs generalizing left i d with
  | nil =>
    cases left with
    | zero => exact ⟨h, rfl, rfl, fun bs hbs => by cases hbs; exact ⟨rfl, patch_nil.symm⟩⟩
    | succ left => exact ⟨h, rfl, rfl, fun bs hbs => by cases hbs⟩
  | cons c rs ih =>
    cases left with
    | zero => exact ⟨h, rfl, rfl, fun bs hbs => by cases hbs; exact ⟨rfl, patch_nil.symm⟩⟩
    | succ left =>
      simp only [readIntoLoop, readLoop]
      split_ifs with h0 hle
      · exact ⟨h, rfl, rfl, fun bs hbs => by cases hbs⟩
      · obtain ⟨hins, hbytes⟩ := WsBuffer.storeAll_spec i c h (by omega)
        have hlen : (d.storeAll i c).bytes.length = d.bytes.length := by
          rw [hbytes, length_patch (by omega)]
        have hleft : i + c.length + (left + 1 - c.length) ≤ (d.storeAll i c).bytes.length := by
          rw [hlen]
          omega
        obtain ⟨h₁, h₂, h₃, h₄⟩ := ih hins hleft
        push_cast at h₁ h₂ h₃ h₄
        refine ⟨h₁, h₂.trans (by simp), h₃, fun bs hbs => ?_⟩
        obtain ⟨tail, htail, rfl⟩ := Option.map_eq_some_iff.1 hbs
        obtain ⟨htlen, htbytes⟩ := h₄ tail htail
        refine ⟨by rw [List.length_append, htlen]; omega, ?_⟩
        rw [htbytes, hbytes, patch_append (by rw [List.length_append]; omega)]
      · have hlen : (c.take (left + 1)).length = left + 1 :=
          (List.length_take ..).trans (by omega)
        obtain ⟨hins, hbytes⟩ := WsBuffer.storeAll_spec i (c.take (left + 1)) h (by omega)
        exact ⟨hins, rfl, rfl, fun bs hbs => by cases hbs; exact ⟨hlen, hbytes⟩⟩

theorem readIntoLoop_zero (i : ℤ) (rs : Reads) (d : WsBuffer) :
    readIntoLoop 0 i rs d = (true, rs, d) := by
  cases rs <;> rfl

theorem toInt_natCast {n : ℕ} (h : n < 2 ^ 63) : (Int.bmod n (2 ^ 64)).toNat = n := by
  rw [Int.bmod_def]
  omega

theorem readInto_eq {length : ℕ} (h : length < 2 ^ 63) (i : ℤ) (rs : Reads) (d : WsBuffer) :
    readInto i length rs d =
      (if (readIntoLoop length i rs d).1 then toInt length else 0, (readIntoLoop length i rs d).2) := by
  unfold readInto
  dsimp only
  rw [toInt_natCast h]

/-- `readFixSize` into the end of a buffer. -/
theorem readInto_spec {d : WsBuffer} {front : List UInt8} {length : ℕ} (rs : Reads) (h : d.Inside)
    (hd : d.bytes = front ++ List.replicate length 0) (hlen : length < 2 ^ 31) :
    (readInto front.length length rs d).2.2.Inside ∧
      ((readFixSize length rs).1 = none → (readInto front.length length rs d).1 ≤ 0) ∧
      ∀ bs, (readFixSize length rs).1 = some bs → bs.length = length ∧ 0 < length ∧
        (readInto front.length length rs d).1 = length ∧
        (readInto front.length length rs d).2.1 = (readFixSize length rs).2 ∧
        (readInto front.length length rs d).2.2.bytes = front ++ bs := by
  have hroom : front.length + length ≤ d.bytes.length := by simp [hd]
  obtain ⟨h₁, h₂, h₃, h₄⟩ := readIntoLoop_spec rs h hroom
  have hint := toInt_eq hlen
  rw [readInto_eq (by omega), h₂, readFixSize_reads, hint]
  refine ⟨h₁, fun hnone => ?_, fun bs hbs => ?_⟩
  · rcases Nat.eq_zero_or_pos length with h0 | hpos
    · split_ifs
      · exact (Int.natCast_eq_zero.2 h0).le
      · exact le_rfl
    · rw [readFixSize_pos (by omega)] at hnone
      rw [hnone]
      exact le_rfl
  · have hpos : 0 < toInt length := not_le.1 fun hle => by
      rw [readFixSize_none (.inl hle)] at hbs
      cases hbs
    rw [readFixSize_pos hpos] at hbs
    obtain ⟨hbslen, hbytes⟩ := h₄ bs hbs
    rw [hbs, Option.isSome_some, if_pos rfl]
    refine ⟨hbslen, by omega, rfl, h₃, ?_⟩
    rw [hbytes, hd, patch, List.take_left, List.drop_eq_nil_of_le (by simp [hbslen]),
      List.append_nil]

/-- Taking the mask off the end of a buffer. -/
theorem unmask_spec {d : WsBuffer} {front bs : List UInt8} (mask : List UInt8) (h : d.Inside)
    (hd : d.bytes = front ++ bs) :
    (unmask mask front.length bs.length d).Inside ∧
      (unmask mask front.length bs.length d).bytes = front ++ wsMask mask bs := by
  have key : ∀ n ≤ bs.length, (unmask mask front.length n d).Inside ∧
      (unmask mask front.length n d).bytes = front ++ (wsMask mask (bs.take n) ++ bs.drop n) := by
    intro n hn
    induction n with
    | zero => exact ⟨h, hd⟩
    | succ n ih =>
      obtain ⟨hins, hbytes⟩ := ih (Nat.le_of_lt hn)
      have hlen : (wsMask mask (bs.take n)).length = n := by
        rw [length_wsMask, List.length_take, min_eq_left (Nat.le_of_lt hn)]
      have hdrop : bs.drop n = bs[n] :: bs.drop (n + 1) := List.drop_eq_getElem_cons hn
      have htake : bs.take (n + 1) = bs.take n ++ [bs[n]] := by
        rw [List.take_add_one, List.getElem?_eq_getElem hn]
        rfl
      have hindex : ((front.length : ℤ) + n) = ((front.length + n : ℕ) : ℤ) := by push_cast; rfl
      have hstep : unmask mask front.length (n + 1) d =
          (unmask mask front.length n d).store (front.length + n : ℕ)
            ((unmask mask front.length n d).load (front.length + n : ℕ) ^^^ mask.getD (n % 4) 0) := by
        rw [unmask, List.range_succ, List.foldl_append, ← hindex]
        rfl
      have hload : (unmask mask front.length n d).load (front.length + n : ℕ) = bs[n] := by
        rw [WsBuffer.load_eq, hbytes, List.getD_eq_getElem?_getD,
          List.getElem?_append_right (Nat.le_add_right ..), Nat.add_sub_cancel_left,
          List.getElem?_append_right hlen.le, hlen, Nat.sub_self, hdrop]
        rfl
      rw [hstep, hload]
      refine ⟨hins.store (by rw [hbytes]; simp [hlen]; omega) _, ?_⟩
      have hmask : wsMask mask (bs.take n ++ [bs[n]]) =
          wsMask mask (bs.take n) ++ [bs[n] ^^^ mask.getD (n % 4) 0] := by
        rw [wsMask, List.mapIdx_append, List.length_take, min_eq_left (Nat.le_of_lt hn)]
        simp [wsMask]
      rw [WsBuffer.bytes_store, hbytes, hdrop, htake, hmask, List.set_append_right _ _ (by omega),
        Nat.add_sub_cancel_left, List.set_append_right _ _ hlen.le, hlen, Nat.sub_self,
        List.set_cons_zero, List.append_assoc]
      rfl
  have hall := key bs.length le_rfl
  rwa [List.take_length, List.drop_length, List.append_nil] at hall

/-! ## Rounds -/

/-- What holds in front of every round: `data` ends at `cur_len`, below the limit. -/
structure Bounded (maxSize : UInt32) (s : WsVars) : Prop where
  inside : s.data.Inside
  cur : s.curLen = s.data.bytes.length
  small : s.data.bytes.length = 0 ∨ s.data.bytes.length < maxSize.toNat

/-- The variables without the stores. -/
def WsVars.erase (s : WsVars) : WsState := ⟨s.opcode, s.data.bytes, s.curLen, s.reads, s.sink⟩

/-- The end of a round without the stores. -/
def WsMove.erase : WsMove → WsNext
  | .closed _ => .closed
  | .message m s => .message m s.erase
  | .again s => .again s.erase

/-- A round that takes a frame whole. -/
structure Takes (maxSize : UInt32) (h : WSFrameHead) (length : ℕ) (s s' : WsVars) (move : WsMove) :
    Prop where
  length_eq : s'.data.bytes.length = s.data.bytes.length + length
  small : s'.data.bytes.length < maxSize.toNat
  inside : s'.data.Inside
  cur : s'.curLen = s'.data.bytes.length
  move_eq : move = if h.fin then .message ⟨s'.opcode, s'.data.bytes⟩ s' else .again s'

section
variable {client : Bool} {maxSize : UInt32} {h : WSFrameHead} {length : ℕ} {s : WsVars}
  {rs : Reads}

theorem toInt_wrapped {n m : ℕ} (hn : n < 2 ^ 31) (hm : m < 2 ^ 64) (hw : 2 ^ 64 ≤ n + m) :
    toInt m ≤ 0 := by
  have hdef := toInt_def m
  omega

/-- A length that wraps is negative as an `int64_t` and as an `int`. -/
theorem readInto_wrapped {n : ℕ} (hn : n < 2 ^ 31) (hm : length < 2 ^ 64) (hw : 2 ^ 64 ≤ n + length)
    (i : ℤ) (rs : Reads) (d : WsBuffer) : readInto i length rs d = (toInt length, rs, d) := by
  have hneg : (Int.bmod length (2 ^ 64)).toNat = 0 := by
    rw [Int.bmod_def]
    omega
  unfold readInto
  dsimp only
  rw [hneg, readIntoLoop_zero, if_pos rfl]

/-- The round of `WSRecvMessage` in front of the data of a frame. -/
theorem wsData_closed {s : WsState} (hread : (readFixSize length (wsReadMask h.mask rs).2).1 = none)
    (hcur : ¬ s.curLen < 0) : wsData maxSize h length s rs = .closed := by
  simp only [wsData, hread, if_neg hcur]
  cases (wsReadMask h.mask rs).1 <;> exact ite_self _

theorem wsData_taken {s : WsState} {mask bytes : List UInt8}
    (hlim : ¬ (maxSize.toNat : ℤ) ≤ (s.curLen + length) % 2 ^ 64)
    (hmask : (wsReadMask h.mask rs).1 = some mask)
    (hread : (readFixSize length (wsReadMask h.mask rs).2).1 = some bytes) (hcur : ¬ s.curLen < 0)
    (hsum : ¬ (2 : ℤ) ^ 31 ≤ s.curLen + length - 1) :
    wsData maxSize h length s rs =
      let s' := s.add h (if h.mask then wsMask mask bytes else bytes)
        (readFixSize length (wsReadMask h.mask rs).2).2
      if h.fin then .message ⟨s'.opcode, s'.data⟩ s' else .again s' := by
  have hmsum : ¬ (h.mask = true ∧ (2 : ℤ) ^ 31 ≤ s.curLen + length - 1) := fun hm => hsum hm.2
  simp only [wsData, if_neg hlim, hmask, if_neg hcur, hread, if_neg hmsum]

variable (maxSize h length s rs) in
/-- A frame that is refused in front of its data, for its length or for its mask. -/
theorem wsDataMove_refused
    (hno : (maxSize.toNat : ℤ) ≤ (s.curLen + length) % 2 ^ 64 ∨ (wsReadMask h.mask rs).1 = none) :
    wsDataMove maxSize h length s rs = .closed s.data ∧
      wsData maxSize h length s.erase rs = .closed := by
  rcases hno with hlim | hmask
  · exact ⟨if_pos hlim, if_pos hlim⟩
  · simp only [wsDataMove, wsData, hmask, ite_self, and_self]

theorem wsDataMove_take {mask : List UInt8}
    (hlim : ¬ (maxSize.toNat : ℤ) ≤ (s.curLen + length) % 2 ^ 64)
    (hmask : (wsReadMask h.mask rs).1 = some mask) :
    wsDataMove maxSize h length s rs =
      wsTake h length mask ((s.curLen + length) % 2 ^ 64).toNat s (wsReadMask h.mask rs).2 := by
  simp only [wsDataMove, if_neg hlim, hmask]

variable (h rs) in
/-- A length that carries `cur_len + length` over `2^64` closes the stream and stores nothing. -/
theorem wsDataMove_wraps (hmax : maxSize.toNat ≤ 2 ^ 31) (hs : Bounded maxSize s)
    (hlen : length < 2 ^ 64) (hw : 2 ^ 64 ≤ s.data.bytes.length + length) :
    (∃ d, wsDataMove maxSize h length s rs = .closed d ∧ d.stores = s.data.stores) ∧
      wsData maxSize h length s.erase rs = .closed := by
  have hcur : s.data.bytes.length < 2 ^ 31 := by
    have hsmall := hs.small
    omega
  have hint := toInt_wrapped hcur hlen hw
  have hnonneg : ¬ s.erase.curLen < 0 := by
    change ¬ s.curLen < 0
    rw [hs.cur]
    omega
  refine ⟨?_, wsData_closed (readFixSize_none (.inl hint)) hnonneg⟩
  by_cases hlim : (maxSize.toNat : ℤ) ≤ (s.curLen + length) % 2 ^ 64
  · exact ⟨s.data, (wsDataMove_refused maxSize h length s rs (.inl hlim)).1, rfl⟩
  cases hmask : (wsReadMask h.mask rs).1 with
  | none => exact ⟨s.data, (wsDataMove_refused maxSize h length s rs (.inr hmask)).1, rfl⟩
  | some mask =>
    refine ⟨s.data.resize ((s.curLen + length) % 2 ^ 64).toNat, ?_, rfl⟩
    rw [wsDataMove_take hlim hmask]
    simp only [wsTake, readInto_wrapped hcur hlen hw, if_pos hint]

/-- The mask is taken off the bytes that a frame has added. -/
theorem unmasked {d : WsBuffer} {front bs : List UInt8} (masked : Bool) (mask : List UInt8)
    (hins : d.Inside) (hd : d.bytes = front ++ bs) (hlen : bs.length < 2 ^ 31) :
    (if masked then unmask mask front.length (toInt bs.length).toNat d else d).Inside ∧
      (if masked then unmask mask front.length (toInt bs.length).toNat d else d).bytes =
        front ++ if masked then wsMask mask bs else bs := by
  cases masked with
  | false => exact ⟨hins, hd⟩
  | true =>
    simp only [if_true, toInt_eq hlen, Int.toNat_natCast]
    exact unmask_spec mask hins hd

variable (h rs) in
/-- A round with a length that does not wrap. -/
theorem wsDataMove_cases (hmax : maxSize.toNat ≤ 2 ^ 31) (hs : Bounded maxSize s)
    (hw : s.data.bytes.length + length < 2 ^ 64) :
    (∃ d, wsDataMove maxSize h length s rs = .closed d ∧ d.Inside ∧
        wsData maxSize h length s.erase rs = .closed) ∨
      ∃ s', Takes maxSize h length s s' (wsDataMove maxSize h length s rs) ∧
        (wsDataMove maxSize h length s rs).erase = wsData maxSize h length s.erase rs := by
  have hcur := hs.cur
  have hsum : (s.curLen + length) % 2 ^ 64 = (s.data.bytes.length + length : ℕ) := by
    rw [hcur]
    push_cast
    exact Int.emod_eq_of_lt (by omega) (by omega)
  have hnonneg : ¬ s.erase.curLen < 0 := by
    change ¬ s.curLen < 0
    omega
  by_cases hlim : (maxSize.toNat : ℤ) ≤ (s.curLen + length) % 2 ^ 64
  · obtain ⟨hmove, hdata⟩ := wsDataMove_refused maxSize h length s rs (.inl hlim)
    exact .inl ⟨s.data, hmove, hs.inside, hdata⟩
  cases hmask : (wsReadMask h.mask rs).1 with
  | none =>
    obtain ⟨hmove, hdata⟩ := wsDataMove_refused maxSize h length s rs (.inr hmask)
    exact .inl ⟨s.data, hmove, hs.inside, hdata⟩
  | some mask =>
    have hmove := wsDataMove_take hlim hmask
    rw [hsum, Int.toNat_natCast] at hmove
    have hlim' := hlim
    rw [hsum] at hlim'
    have hres : (s.data.resize (s.data.bytes.length + length)).bytes =
        s.data.bytes ++ List.replicate length 0 := by
      unfold WsBuffer.resize
      rw [List.take_of_length_le (by omega), Nat.add_sub_cancel_left]
    obtain ⟨hins, hfail, hread⟩ := readInto_spec (wsReadMask h.mask rs).2 (d := s.data.resize _)
      hs.inside hres (by omega)
    simp only [hmove, wsTake, hcur]
    generalize readInto (s.data.bytes.length : ℤ) length (wsReadMask h.mask rs).2
      (s.data.resize (s.data.bytes.length + length)) = r at hins hfail hread ⊢
    obtain ⟨ret, rs', d⟩ := r
    cases hfix : (readFixSize length (wsReadMask h.mask rs).2).1 with
    | none => exact .inl ⟨d, if_pos (hfail hfix), hins, wsData_closed hfix hnonneg⟩
    | some bytes =>
      obtain ⟨rfl, hpos, hret, hrest, hbytes⟩ := hread bytes hfix
      right
      obtain ⟨hins', hbytes'⟩ := unmasked h.mask mask hins hbytes (by omega)
      have hlength : (if h.mask then wsMask mask bytes else bytes).length = bytes.length := by
        split_ifs
        · exact length_wsMask _ _
        · rfl
      have hdata := wsData_taken (s := s.erase) hlim hmask hfix hnonneg
        (by change ¬ (2 : ℤ) ^ 31 ≤ s.curLen + bytes.length - 1; omega)
      have hret' : ¬ ret ≤ 0 := by
        simp only at hret
        omega
      have hbmod : Int.bmod (s.data.bytes.length + bytes.length) (2 ^ 32) =
          (s.data.bytes.length + bytes.length : ℕ) := by
        rw [Int.bmod_def]
        omega
      simp only [if_neg hret', hbmod]
      refine ⟨_, ⟨?_, ?_, hins', ?_, rfl⟩, ?_⟩
      · simp only [hbytes', List.length_append, hlength]
      · simp only [hbytes', List.length_append, hlength]
        omega
      · simp only [hbytes', List.length_append, hlength]
      · rw [hdata]
        simp only [WsState.add, WsVars.erase, hcur, hlength, hbmod, ← hrest, ← hbytes']
        split_ifs <;> rfl

theorem wsLength_lt {payload n : ℕ} (hp : payload < 128) (hn : (wsLength payload rs).1 = some n) :
    n < 2 ^ 64 := by
  unfold wsLength at hn
  split_ifs at hn
  · obtain ⟨bs, -, rfl⟩ := Option.map_eq_some_iff.1 hn
    exact (ofSwappedBytes 2 bs).isLt.trans (by decide)
  · obtain ⟨bs, -, rfl⟩ := Option.map_eq_some_iff.1 hn
    exact (ofSwappedBytes 8 bs).isLt
  · cases hn
    omega

theorem wsArrival_length {k : Sink} {rs' : Reads}
    (harr : wsArrival client rs k = .frame h length rs') : length < 2 ^ 64 := by
  unfold wsArrival at harr
  dsimp only at harr
  split at harr
  · cases harr
  · split_ifs at harr
    split at harr
    · cases harr
    · rename_i n hn
      cases harr
      exact wsLength_lt (Fin.isLt _) hn

theorem wsTurn_arrival (client : Bool) (maxSize : UInt32) (s : WsState) :
    wsTurn client maxSize s =
      match wsArrival client s.reads s.sink with
      | .closed => .closed
      | .skipped rs k => .again { s with reads := rs, sink := k }
      | .frame h length rs => wsData maxSize h length s rs := by
  unfold wsTurn wsArrival
  dsimp only
  cases (readFixSize 2 s.reads).1 with
  | none => rfl
  | some bs =>
    dsimp only
    split_ifs <;> first | rfl | skip
    cases (wsLength (WSFrameHead.ofBytes bs).payload (readFixSize 2 s.reads).2).1 <;> rfl

/-- What a round does to a bounded state. -/
structure MoveSpec (client : Bool) (maxSize : UInt32) (s : WsVars) : Prop where
  inside : (wsMove client maxSize s).data.Inside
  again : ∀ s', wsMove client maxSize s = .again s' → Bounded maxSize s'
  message : ∀ m s', wsMove client maxSize s = .message m s' →
    m.data = s'.data.bytes ∧ m.data.length < maxSize.toNat ∧ s'.curLen = m.data.length
  erase : (wsMove client maxSize s).erase = wsTurn client maxSize s.erase

theorem wsMove_spec (client : Bool) (hmax : maxSize.toNat ≤ 2 ^ 31) (hs : Bounded maxSize s) :
    MoveSpec client maxSize s := by
  have hturn := wsTurn_arrival client maxSize s.erase
  have harr : wsArrival client s.erase.reads s.erase.sink = wsArrival client s.reads s.sink := rfl
  rw [harr] at hturn
  cases hfront : wsArrival client s.reads s.sink with
  | closed =>
    have hmove : wsMove client maxSize s = .closed s.data := by rw [wsMove, hfront]
    rw [hfront] at hturn
    constructor <;> rw [hmove]
    · exact hs.inside
    · exact nofun
    · exact nofun
    · exact hturn.symm
  | skipped rs k =>
    have hmove : wsMove client maxSize s = .again { s with reads := rs, sink := k } := by
      rw [wsMove, hfront]
    rw [hfront] at hturn
    constructor <;> rw [hmove]
    · exact hs.inside
    · intro s' he
      cases he
      exact ⟨hs.inside, hs.cur, hs.small⟩
    · exact nofun
    · exact hturn.symm
  | frame h length rs =>
    have hmove : wsMove client maxSize s = wsDataMove maxSize h length s rs := by
      rw [wsMove, hfront]
    rw [hfront] at hturn
    rcases Nat.lt_or_ge (s.data.bytes.length + length) (2 ^ 64) with hlt | hge
    · rcases wsDataMove_cases h rs hmax hs hlt with
        ⟨d, hclosed, hins, hdata⟩ | ⟨s', htakes, hdata⟩
      · constructor <;> rw [hmove, hclosed]
        · exact hins
        · exact nofun
        · exact nofun
        · exact (hturn.trans hdata).symm
      · have hbounded : Bounded maxSize s' := ⟨htakes.inside, htakes.cur, .inr htakes.small⟩
        refine ⟨?_, fun t ht => ?_, fun m t ht => ?_, by rw [hmove, hdata, hturn]⟩
        · rw [hmove, htakes.move_eq]
          split_ifs <;> exact htakes.inside
        · rw [hmove, htakes.move_eq] at ht
          split_ifs at ht
          cases ht
          exact hbounded
        · rw [hmove, htakes.move_eq] at ht
          split_ifs at ht
          cases ht
          exact ⟨rfl, htakes.small, htakes.cur⟩
    · obtain ⟨⟨d, hclosed, hstores⟩, hdata⟩ := wsDataMove_wraps h rs hmax hs
        (wsArrival_length hfront) hge
      constructor <;> rw [hmove, hclosed]
      · exact fun _ hp => hs.inside _ (hstores ▸ hp)
      · exact nofun
      · exact nofun
      · exact (hturn.trans hdata).symm

end

/-! ## Runs -/

section
variable {client : Bool} {maxSize : UInt32} {rs : Reads} {k : Sink} {s : WsVars}

theorem wsStep_eq_some {s' : WsVars} {u : Unit} (h : wsStep client maxSize s u = some s') :
    wsMove client maxSize s = .again s' := by
  unfold wsStep at h
  split at h
  · rename_i t ht
    cases h
    exact ht
  · cases h

theorem bounded_of_reached (hmax : maxSize.toNat ≤ 2 ^ 31) (h : WsReached client maxSize rs k s) :
    Bounded maxSize s :=
  h.invariant ⟨fun _ hp => absurd hp List.not_mem_nil, rfl, .inl rfl⟩ fun _ _ s' hs _ hstep =>
    (wsMove_spec client hmax hs).again s' (wsStep_eq_some hstep)

/-- The loop of `WSRecvMessage` runs through these states. -/
theorem wsLoop_reached (hmax : maxSize.toNat ≤ 2 ^ 31) (fuel : ℕ)
    (h : WsReached client maxSize rs k s) :
    wsLoop client maxSize fuel s.erase = .closed ∨
      ∃ t m s', WsReached client maxSize rs k t ∧ wsMove client maxSize t = .message m s' ∧
        wsLoop client maxSize fuel s.erase = .message m s'.reads s'.sink := by
  induction fuel generalizing s with
  | zero => exact .inl rfl
  | succ fuel ih =>
    have hturn := (wsMove_spec client hmax (bounded_of_reached hmax h)).erase
    rw [wsLoop, ← hturn]
    cases hmove : wsMove client maxSize s with
    | closed d => exact .inl rfl
    | message m s' => exact .inr ⟨s, m, s', h, hmove, rfl⟩
    | again s' => exact ih (h.tail trivial (a := ()) (by rw [wsStep, hmove]))

theorem wsRecvMessage_reached (hmax : maxSize.toNat ≤ 2 ^ 31) :
    wsRecvMessage client maxSize rs k = .closed ∨
      ∃ t m s', WsReached client maxSize rs k t ∧ wsMove client maxSize t = .message m s' ∧
        wsRecvMessage client maxSize rs k = .message m s'.reads s'.sink :=
  wsLoop_reached hmax _ .refl

/-- Every store of a call is inside `data`, `cur_len` and the message stay below the limit, and a
length that wraps closes the stream with no store. -/
theorem ws_bounded (client : Bool) (maxSize : UInt32) (hmax : maxSize.toNat ≤ 2 ^ 31) (rs : Reads)
    (k : Sink) (s : WsVars) (hs : WsReached client maxSize rs k s) :
    (wsMove client maxSize s).data.Inside ∧
      (0 ≤ s.curLen ∧ s.curLen ≤ max ((maxSize.toNat : ℤ) - 1) 0) ∧
      (∀ m s', wsMove client maxSize s = .message m s' →
        m.data.length < maxSize.toNat ∧ 0 ≤ s'.curLen ∧ s'.curLen ≤ (maxSize.toNat : ℤ) - 1) ∧
      ∀ h length rs', wsArrival client s.reads s.sink = .frame h length rs' →
        2 ^ 64 ≤ s.curLen + length →
          ∃ d, wsMove client maxSize s = .closed d ∧ d.stores = s.data.stores := by
  have hb := bounded_of_reached hmax hs
  have hspec := wsMove_spec client hmax hb
  have hcur := hb.cur
  have hsmall := hb.small
  refine ⟨hspec.inside, ⟨by omega, by omega⟩, fun m s' hm => ?_, fun h length rs' harr hw => ?_⟩
  · obtain ⟨-, hlt, hcur'⟩ := hspec.message m s' hm
    exact ⟨hlt, by omega, by omega⟩
  · obtain ⟨hclosed, -⟩ := wsDataMove_wraps h rs' hmax hb (wsArrival_length harr)
      (by omega)
    rwa [wsMove, harr]

/-- Two bytes, and then a frame whose length is `2 ^ 64 - 1`. -/
def wsHostile : Reads :=
  [[1, 130, 1, 2, 3, 4, 105, 107], [128, 255, 255, 255, 255, 255, 255, 255, 255, 255, 0, 0, 0, 0, 7]]

/-- The variables behind the first frame. -/
def wsHostileVars : WsVars where
  opcode := 1
  data := ⟨[104, 105], [(0, 2), (1, 2), (0, 2), (1, 2)]⟩
  curLen := 2
  reads := [[128, 255, 255, 255, 255, 255, 255, 255, 255, 255, 0, 0, 0, 0, 7]]
  sink := {}

theorem ws_bounded_hostile :
    (wsMove false 64 wsHostileVars).data.Inside ∧
      (0 ≤ wsHostileVars.curLen ∧
        wsHostileVars.curLen ≤ max (((64 : UInt32).toNat : ℤ) - 1) 0) ∧
      (∀ m s', wsMove false 64 wsHostileVars = .message m s' →
        m.data.length < (64 : UInt32).toNat ∧ 0 ≤ s'.curLen ∧
          s'.curLen ≤ ((64 : UInt32).toNat : ℤ) - 1) ∧
      ∀ h length rs', wsArrival false wsHostileVars.reads wsHostileVars.sink =
          .frame h length rs' →
        2 ^ 64 ≤ wsHostileVars.curLen + length →
          ∃ d, wsMove false 64 wsHostileVars = .closed d ∧ d.stores = wsHostileVars.data.stores :=
  ws_bounded false 64 (by decide) wsHostile {} wsHostileVars
    (Reach.refl.tail (a := ()) trivial (by decide +kernel))

/-- With a limit of zero `cur_len` is zero too, which is more than the limit less one. -/
theorem not_below_zero : ¬ ∀ (client : Bool) (maxSize : UInt32), maxSize.toNat ≤ 2 ^ 31 →
    ∀ (rs : Reads) (k : Sink) (s : WsVars), WsReached client maxSize rs k s →
      s.curLen ≤ (maxSize.toNat : ℤ) - 1 := fun h =>
  absurd (h false 0 (by decide) [] {} _ .refl) (by decide)

end

end CoroutineScheduler.Http
