import CoroutineScheduler.ByteArray.Buffers

/-!
# Scatter and gather over SSL

`SSLSocket::send` and `SSLSocket::recv` over iovecs call `SSL_write` or `SSL_read` for one buffer after
the other, and `SocketStream` moves the cursor of the byte array by what they return. A call that fails
ends the loop with its own result, so the bytes of the buffers before it are not counted:
`transferred_iff` says for which results of the calls nothing is lost. There the loop does what one
transfer does: `read` leaves what `write` of the bytes leaves (`read_eq_write`), and a partial send goes
on at the first byte not sent (`write_unread`).
-/

namespace CoroutineScheduler

open CoroutineScheduler.ByteArray

/-- A call of `SSL_write` or `SSL_read`: the result, and the bytes that it transferred. -/
structure SslCall where
  tmp : ℤ
  data : List UInt8
  length_data : data.length = tmp.toNat

/-- A call that transfers `bs`. -/
def SslCall.ofBytes (bs : List UInt8) : SslCall := ⟨bs.length, bs, (Int.toNat_natCast _).symm⟩

/-- A call that fails. -/
def SslCall.ofFailure (rt : ℤ) (h : rt ≤ 0) : SslCall := ⟨rt, [], (Int.toNat_of_nonpos h).symm⟩

/-- The calls that are made on an `SSL` for the buffers from the first one on. -/
structure SSL where
  write : ℕ → SslCall
  read : ℕ → SslCall

structure SSLSocket where
  isConnected : Bool
  ssl : Option SSL

/-- What a `send` or a `recv` returns, `none` where `total += tmp` overflows, and the bytes that were
transferred for each buffer. -/
structure Transfer where
  rt : Option ℤ
  moved : List (List UInt8)

/-- The loop over the buffers, of the lengths `iov_len`; `call 0` is the call for the first one. -/
def sslLoop : List ℕ → (ℕ → SslCall) → ℤ → Transfer
  | [], _, total => ⟨some total, []⟩
  | iovLen :: lens, call, total =>
    let tmp := (call 0).tmp
    if tmp ≤ 0 then ⟨some tmp, []⟩
    else if total + tmp ≥ 2 ^ 31 then ⟨none, [(call 0).data]⟩
    -- `(int)iov_len`
    else if tmp ≠ Int.bmod iovLen (2 ^ 32) then ⟨some (total + tmp), [(call 0).data]⟩
    else
      let t := sslLoop lens (fun i => call (i + 1)) (total + tmp)
      ⟨t.rt, (call 0).data :: t.moved⟩

namespace SSLSocket

/-- The body of `send` and `recv`, which differ in the call. -/
def overBuffers (calls : SSL → ℕ → SslCall) (sock : SSLSocket) (buffers : List ℕ) : Transfer :=
  match sock.ssl with
  | none => ⟨some (-1), []⟩
  | some ssl => sslLoop buffers (calls ssl) 0

/-- `SSLSocket::send(buffers, length, flags)`. -/
def send : SSLSocket → List ℕ → Transfer := overBuffers SSL.write

/-- `SSLSocket::recv(buffers, length, flags)`. -/
def recv : SSLSocket → List ℕ → Transfer := overBuffers SSL.read

end SSLSocket

/-! ## The stream -/

/-- Each call stores its bytes into its own buffer. -/
def ByteArray.storeEach : ByteArray → List Iovec → List (List UInt8) → ByteArray
  | b, v :: vs, bs :: moved => (b.store [v] bs).storeEach vs moved
  | b, _, _ => b

namespace SocketStream

/-- `if(rt > 0) ba->setPosition(ba->getPosition() + rt)`. -/
def advance (rt : Option ℤ) : M Unit := do
  match rt with
  | some rt =>
    if rt > 0 then
      let b ← get
      setPosition (b.position + rt.toNat)
  | none => return

/-- `SocketStream::read(ba, length)` on an `SSLSocket`. -/
def read (sock : SSLSocket) (length : ℕ) : M Transfer := do
  if !sock.isConnected then return ⟨some (-1), []⟩
  let iovs ← getWriteBuffers length
  let t := sock.recv (iovs.map Iovec.len)
  modify fun b => b.storeEach iovs t.moved
  advance t.rt
  return t

/-- `SocketStream::write(ba, length)` on an `SSLSocket`. -/
def write (sock : SSLSocket) (length : ℕ) : M Transfer := do
  if !sock.isConnected then return ⟨some (-1), []⟩
  let iovs ← getReadBuffers length
  let t := sock.send (iovs.map Iovec.len)
  advance t.rt
  return t

end SocketStream

/-! ## What is meant -/

/-- The number of bytes that were transferred. -/
def Transfer.count (t : Transfer) : ℕ := t.moved.flatten.length

/-- Behind `total` bytes of the buffers before: the number of all bytes is returned, and a result that
is not positive where there are none. -/
def Transfer.Right (total : ℤ) (t : Transfer) : Prop :=
  (0 < total + t.count → t.rt = some (total + t.count)) ∧
    (total + t.count = 0 → ∃ rt ≤ 0, t.rt = some rt)

namespace SSLSocket

/-- The stream moves the cursor by the number of bytes that were transferred. -/
def Advances (run : M Transfer) (b : ByteArray) : Prop :=
  ∃ t d, run b = .ok t d ∧ t.rt.isSome ∧ d.position = b.position + t.count

/-- A call transfers the requested length at most. -/
def Fits (lens : List ℕ) (call : ℕ → SslCall) : Prop :=
  ∀ i < lens.length, (call i).tmp ≤ lens.getD i 0

/-- The loop goes on behind buffer `i`. -/
def Full (lens : List ℕ) (call : ℕ → SslCall) (i : ℕ) : Prop :=
  0 < (call i).tmp ∧ (call i).tmp = Int.bmod (lens.getD i 0) (2 ^ 32)

/-- No call behind full buffers fails once there are bytes transferred, `total` of them for the buffers
before, and the number of bytes is an `int`. -/
def Unbroken (total : ℤ) (lens : List ℕ) (call : ℕ → SslCall) : Prop :=
  ∀ i < lens.length, (∀ j < i, Full lens call j) →
    (0 < total + ∑ j ∈ Finset.range i, (call j).tmp → 0 < (call i).tmp) ∧
      total + ∑ j ∈ Finset.range (i + 1), (call j).tmp < 2 ^ 31

instance (lens : List ℕ) (call : ℕ → SslCall) : Decidable (Fits lens call) :=
  inferInstanceAs (Decidable (∀ i < lens.length, _))

instance (lens : List ℕ) (call : ℕ → SslCall) (i : ℕ) : Decidable (Full lens call i) :=
  inferInstanceAs (Decidable (_ ∧ _))

instance (total : ℤ) (lens : List ℕ) (call : ℕ → SslCall) : Decidable (Unbroken total lens call) :=
  inferInstanceAs (Decidable (∀ i < lens.length, _))

/-! ## The loop -/

section
variable {total : ℤ} {len : ℕ} {lens : List ℕ} {call : ℕ → SslCall}

theorem forall_full_succ {i : ℕ} : (∀ j < i + 1, Full (len :: lens) call j) ↔
    Full (len :: lens) call 0 ∧ ∀ j < i, Full lens (fun i => call (i + 1)) j := by
  constructor
  · exact fun h => ⟨h 0 (Nat.succ_pos i), fun j hj => h (j + 1) (Nat.succ_lt_succ hj)⟩
  · rintro ⟨hfirst, hrest⟩ j hj
    cases j with
    | zero => exact hfirst
    | succ j => exact hrest j (Nat.lt_of_succ_lt_succ hj)

theorem sum_range_succ_add (n : ℕ) : total + ∑ j ∈ Finset.range (n + 1), (call j).tmp =
    total + (call 0).tmp + ∑ j ∈ Finset.range n, (call (j + 1)).tmp := by
  rw [Finset.sum_range_succ']
  ring

/-- The first buffer and the ones behind it. -/
theorem unbroken_cons : Unbroken total (len :: lens) call ↔
    (0 < total → 0 < (call 0).tmp) ∧ total + (call 0).tmp < 2 ^ 31 ∧
      (Full (len :: lens) call 0 →
        Unbroken (total + (call 0).tmp) lens fun i => call (i + 1)) := by
  constructor
  · intro h
    obtain ⟨hfails, hint⟩ := h 0 (Nat.succ_pos _) fun j hj => absurd hj (Nat.not_lt_zero j)
    rw [Finset.sum_range_zero, add_zero] at hfails
    rw [sum_range_succ_add, Finset.sum_range_zero, add_zero] at hint
    refine ⟨hfails, hint, fun hfull i hi hbefore => ?_⟩
    have hstep := h (i + 1) (Nat.succ_lt_succ hi) (forall_full_succ.2 ⟨hfull, hbefore⟩)
    rwa [sum_range_succ_add, sum_range_succ_add] at hstep
  · rintro ⟨hfails, hint, hrest⟩ i hi hbefore
    cases i with
    | zero =>
      rw [sum_range_succ_add, Finset.sum_range_zero, Finset.sum_range_zero, add_zero, add_zero]
      exact ⟨hfails, hint⟩
    | succ i =>
      obtain ⟨hfull, hbefore⟩ := forall_full_succ.1 hbefore
      rw [sum_range_succ_add, sum_range_succ_add]
      exact hrest hfull i (Nat.lt_of_succ_lt_succ hi) hbefore

theorem count_cons (c : SslCall) (h : 0 < c.tmp) (rt : Option ℤ) (moved : List (List UInt8)) :
    ((⟨rt, c.data :: moved⟩ : Transfer).count : ℤ) = c.tmp + (⟨rt, moved⟩ : Transfer).count := by
  have hlen : ((c.data.length : ℕ) : ℤ) = c.tmp := by
    rw [c.length_data, Int.toNat_of_nonneg h.le]
  simp only [Transfer.count, List.flatten_cons, List.length_append, Nat.cast_add, hlen]

/-- The loop is right if and only if no failure comes behind bytes that were transferred. -/
theorem sslLoop_right_iff (htotal : 0 ≤ total) :
    (sslLoop lens call total).Right total ↔ Unbroken total lens call := by
  induction lens generalizing call total with
  | nil =>
    refine iff_of_true ⟨fun _ => ?_, fun h => ⟨total, ?_, rfl⟩⟩ fun i hi => absurd hi (Nat.not_lt_zero i)
    · simp [sslLoop, Transfer.count]
    · simp only [sslLoop, Transfer.count] at h
      simpa using h.le
  | cons len lens ih =>
    rw [unbroken_cons, sslLoop]
    by_cases hfail : (call 0).tmp ≤ 0
    · -- a failure: right if and only if nothing was transferred before
      rw [if_pos hfail]
      have hfull : ¬Full (len :: lens) call 0 := fun h => absurd h.1 (not_lt.2 hfail)
      simp only [Transfer.Right, Transfer.count, List.flatten_nil, List.length_nil, Nat.cast_zero,
        add_zero, Option.some.injEq, exists_eq_right', hfull, false_implies, and_true]
      constructor
      · rintro ⟨hpos, -⟩
        have hzero : ¬0 < total := fun h => by have := hpos h; omega
        exact ⟨fun h => absurd h hzero, by omega⟩
      · rintro ⟨hpos, -⟩
        exact ⟨fun h => absurd (hpos h) (not_lt.2 hfail), fun _ => hfail⟩
    · have hpos : 0 < (call 0).tmp := not_le.1 hfail
      rw [if_neg hfail]
      by_cases hint : total + (call 0).tmp ≥ 2 ^ 31
      · rw [if_pos hint]
        refine iff_of_false (fun h => ?_) fun h => absurd h.2.1 (not_lt.2 hint)
        have hcount := count_cons (call 0) hpos none []
        exact absurd (h.1 (by rw [hcount]; omega)) (by simp)
      · rw [if_neg hint]
        by_cases hfull : (call 0).tmp = Int.bmod len (2 ^ 32)
        · rw [if_neg (not_not.2 hfull)]
          have hrest : (sslLoop lens (fun i => call (i + 1)) (total + (call 0).tmp)).Right _ ↔ _ :=
            ih (by omega)
          simp only [Transfer.Right, count_cons (call 0) hpos, ← add_assoc]
          refine hrest.trans ⟨fun h => ⟨fun _ => hpos, not_le.1 hint, fun _ => h⟩, fun h => ?_⟩
          exact h.2.2 ⟨hpos, hfull⟩
        · rw [if_pos hfull]
          refine iff_of_true ⟨fun _ => ?_, fun h => ?_⟩
            ⟨fun _ => hpos, not_le.1 hint, fun h => absurd h.2 hfull⟩
          · rw [count_cons (call 0) hpos]
            simp [Transfer.count]
          · rw [count_cons (call 0) hpos] at h
            omega

theorem fits_cons : Fits (len :: lens) call ↔ (call 0).tmp ≤ len ∧ Fits lens fun i => call (i + 1) := by
  constructor
  · exact fun h => ⟨h 0 (Nat.succ_pos _), fun i hi => h (i + 1) (Nat.succ_lt_succ hi)⟩
  · rintro ⟨hfirst, hrest⟩ i hi
    cases i with
    | zero => exact hfirst
    | succ i => exact hrest i (Nat.lt_of_succ_lt_succ hi)

theorem count_sslLoop_le (h : Fits lens call) : (sslLoop lens call total).count ≤ lens.sum := by
  induction lens generalizing call total with
  | nil => exact le_rfl
  | cons len lens ih =>
    obtain ⟨hfirst, hrest⟩ := fits_cons.1 h
    have hdata : (call 0).data.length ≤ len := by
      rw [(call 0).length_data]
      omega
    rw [sslLoop, List.sum_cons]
    split_ifs
    · exact Nat.zero_le _
    · simp only [Transfer.count, List.flatten_cons, List.flatten_nil, List.append_nil]
      omega
    · simp only [Transfer.count, List.flatten_cons, List.flatten_nil, List.append_nil]
      omega
    · have htail : (sslLoop lens (fun i => call (i + 1)) (total + (call 0).tmp)).count ≤ lens.sum :=
        ih hrest
      simp only [Transfer.count, List.flatten_cons, List.length_append] at htail ⊢
      omega

end

/-! ## The cursor -/

section
variable {b : ByteArray} {k p n : ℕ} {vs : List Iovec}

/-- What a call stores into its buffer ends with the buffer. -/
theorem store_take (b : ByteArray) (v : Iovec) (bs : List UInt8) :
    b.store [v] (bs.take v.len) = b.store [v] bs := by
  simp only [store, scatter, List.take_take, min_self]

theorem spans_singleton {v : Iovec} (h : Spans k p n (v :: vs)) : Spans k p v.len [v] :=
  ⟨h.1, le_rfl, Nat.sub_self _⟩

theorem storeEach_valid (h : b.Valid) (hvs : Spans b.baseSize p n vs) (hroom : p + n ≤ b.capacity)
    (moved : List (List UInt8)) : (b.storeEach vs moved).Valid ∧
      (b.storeEach vs moved).position = b.position ∧ (b.storeEach vs moved).capacity = b.capacity := by
  induction vs generalizing b p n moved with
  | nil =>
    cases moved <;> exact ⟨h, rfl, rfl⟩
  | cons v vs ih =>
    cases moved with
    | nil => exact ⟨h, rfl, rfl⟩
    | cons bs moved =>
      obtain ⟨-, hle, hrest⟩ := id hvs
      have hstore := h.store (spans_singleton hvs) (by omega) (List.length_take_le v.len bs)
      rw [store_take] at hstore
      exact ih hstore.1 hrest (by show _ ≤ b.capacity; omega) moved

/-- A result is right if it is as many bytes as were transferred, none for a failure. -/
theorem right_iff_toNat {t : Transfer} :
    t.Right 0 ↔ ∃ rt : ℤ, t.rt = some rt ∧ rt.toNat = t.count := by
  simp only [Transfer.Right, zero_add]
  constructor
  · rintro ⟨hpos, hzero⟩
    by_cases h0 : t.count = 0
    · obtain ⟨rt, hle, hrt⟩ := hzero (by omega)
      exact ⟨rt, hrt, by omega⟩
    · exact ⟨t.count, hpos (by omega), Int.toNat_natCast _⟩
  · rintro ⟨rt, hrt, hnat⟩
    exact ⟨fun hpos => by rw [hrt, ← hnat]; congr 1; omega, fun hzero => ⟨rt, by omega, hrt⟩⟩

theorem advance_natCast (hn : 0 < n) :
    SocketStream.advance (some (n : ℤ)) b = setPosition (b.position + n) b := by
  rw [SocketStream.advance, if_pos (Nat.cast_pos.2 hn)]
  exact bind_ok rfl

theorem advance_ok (h : b.Valid) {rt : ℤ} (hle : b.position + rt.toNat ≤ b.capacity) :
    ∃ d, SocketStream.advance (some rt) b = .ok () d ∧ d.position = b.position + rt.toNat := by
  by_cases hpos : rt > 0
  · obtain ⟨d, hrun, hd⟩ := h.setPosition hle
    refine ⟨d, ?_, hd.position_eq⟩
    rw [SocketStream.advance, if_pos hpos]
    exact (bind_ok rfl).trans hrun
  · refine ⟨b, ?_, by rw [Int.toNat_of_nonpos (not_lt.1 hpos), add_zero]⟩
    rw [SocketStream.advance, if_neg hpos]
    rfl

theorem advance_error {rt : ℤ} (hle : ¬b.position + rt.toNat ≤ b.capacity)
    (h : b.position ≤ b.capacity) : ∃ e, SocketStream.advance (some rt) b = .error e b := by
  have hpos : rt > 0 := by
    by_contra hneg
    rw [Int.toNat_of_nonpos (not_lt.1 hneg)] at hle
    exact hle h
  refine ⟨.outOfRange "set_position out of range", ?_⟩
  rw [SocketStream.advance, if_pos hpos]
  exact (bind_ok rfl).trans (if_pos (not_le.1 hle))

/-- The cursor is moved by what was transferred if and only if the result is right. -/
theorem advances_iff (h : b.Valid) {t : Transfer} (hcount : b.position + t.count ≤ b.capacity) :
    Advances (SocketStream.advance t.rt >>= fun _ => pure t) b ↔ t.Right 0 := by
  rw [right_iff_toNat]
  obtain ⟨rt, moved⟩ := t
  constructor
  · rintro ⟨t, d, hrun, hsome, hpos⟩
    cases rt with
    | none =>
      cases hrun
      exact absurd hsome (by simp)
    | some rt =>
      by_cases hle : b.position + rt.toNat ≤ b.capacity
      · obtain ⟨d', hadvance, hd'⟩ := advance_ok h hle
        rw [bind_ok hadvance] at hrun
        cases hrun
        exact ⟨rt, rfl, by omega⟩
      · obtain ⟨e, herror⟩ := advance_error hle (h.position_le.trans h.size_le)
        rw [bind_error herror] at hrun
        cases hrun
  · rintro ⟨rt, rfl, hnat⟩
    have hle : b.position + rt.toNat ≤ b.capacity := hnat ▸ hcount
    obtain ⟨d, hadvance, hd⟩ := advance_ok h hle
    exact ⟨_, d, bind_ok hadvance, rfl, by rw [hd, hnat]⟩

end

/-! ## The socket and the stream -/

section
variable {sock : SSLSocket} {calls : SSL → ℕ → SslCall} {lens : List ℕ} {b c : ByteArray} {length : ℕ}
  {vs : List Iovec}

theorem overBuffers_right_iff : (sock.overBuffers calls lens).Right 0 ↔
    ∀ ssl ∈ sock.ssl, Unbroken 0 lens (calls ssl) := by
  obtain ⟨isConnected, ssl⟩ := sock
  cases ssl with
  | none => exact iff_of_true (right_iff_toNat.2 ⟨-1, rfl, rfl⟩) (by simp)
  | some ssl =>
    simp only [Option.mem_def, Option.some.injEq, forall_eq']
    exact sslLoop_right_iff le_rfl

theorem count_overBuffers_le (h : ∀ ssl ∈ sock.ssl, Fits lens (calls ssl)) :
    (sock.overBuffers calls lens).count ≤ lens.sum := by
  obtain ⟨isConnected, ssl⟩ := sock
  cases ssl with
  | none => exact Nat.zero_le _
  | some ssl => exact count_sslLoop_le (h ssl rfl)

theorem advances_disconnected {run : M Transfer} (h : run b = .ok ⟨some (-1), []⟩ b) :
    Advances run b := ⟨_, b, h, rfl, rfl⟩

theorem advances_congr {run run' : M Transfer} (hrun : run b = run' c) (hpos : c.position = b.position) :
    Advances run b ↔ Advances run' c := by
  simp only [Advances, hrun, hpos]

/-- Buffers for `n` bytes from the cursor on, in the array `c`. -/
structure Given (b c : ByteArray) (n : ℕ) (vs : List Iovec) : Prop where
  valid : c.Valid
  position_eq : c.position = b.position
  spans : Spans c.baseSize c.position n vs
  room : c.position + n ≤ c.capacity

theorem given_getReadBuffers (h : b.Valid) (hrun : getReadBuffers length b = .ok vs c) :
    c = b ∧ Given b b (min length b.getReadSize) vs := by
  obtain ⟨vs', hrun', hspan, hroom⟩ := h.getReadBuffers_spans length
  rw [hrun'] at hrun
  cases hrun
  exact ⟨rfl, h, rfl, hspan, hroom⟩

theorem given_getWriteBuffers (h : b.Valid) (hrun : getWriteBuffers length b = .ok vs c) :
    Given b c length vs := by
  obtain ⟨vs', hrun', hspan⟩ := h.getWriteBuffers length
  rw [hrun'] at hrun
  cases hrun
  have hg := h.addCapacity length
  rw [← hg.base_eq, ← hg.position_eq] at hspan
  exact ⟨hg.valid, hg.position_eq, hspan, hg.position_eq ▸ hg.room⟩

theorem Given.count_le {n : ℕ} (hg : Given b c n vs)
    (h : ∀ ssl ∈ sock.ssl, Fits (vs.map Iovec.len) (calls ssl)) :
    (sock.overBuffers calls (vs.map Iovec.len)).count ≤ n :=
  hg.spans.sum_len ▸ count_overBuffers_le h

theorem write_run (hconn : sock.isConnected) (hrun : getReadBuffers length b = .ok vs c)
    {t : Transfer} (ht : sock.send (vs.map Iovec.len) = t) :
    SocketStream.write sock length b = (SocketStream.advance t.rt >>= fun _ => pure t) c := by
  rw [SocketStream.write, hconn, ← ht]
  exact bind_ok hrun

theorem read_run (hconn : sock.isConnected) (hrun : getWriteBuffers length b = .ok vs c)
    {t : Transfer} (ht : sock.recv (vs.map Iovec.len) = t) : SocketStream.read sock length b =
      (SocketStream.advance t.rt >>= fun _ => pure t) (c.storeEach vs t.moved) := by
  rw [SocketStream.read, hconn, ← ht]
  exact (bind_ok hrun).trans (bind_ok rfl)

theorem write_advances_iff (h : b.Valid) (hrun : getReadBuffers length b = .ok vs c)
    (hfits : ∀ ssl ∈ sock.ssl, Fits (vs.map Iovec.len) ssl.write) :
    Advances (SocketStream.write sock length) b ↔
      (sock.isConnected → ∀ ssl ∈ sock.ssl, Unbroken 0 (vs.map Iovec.len) ssl.write) := by
  by_cases hconn : sock.isConnected
  · obtain ⟨rfl, hg⟩ := given_getReadBuffers h hrun
    have hcount : c.position + (sock.send (vs.map Iovec.len)).count ≤ c.capacity :=
      (Nat.add_le_add_left (hg.count_le hfits) _).trans hg.room
    rw [advances_congr (write_run hconn hrun rfl) rfl, advances_iff h hcount]
    exact overBuffers_right_iff.trans ⟨fun h _ => h, fun h => h hconn⟩
  · refine iff_of_true (advances_disconnected ?_) fun h => absurd h hconn
    rw [SocketStream.write, Bool.eq_false_of_not_eq_true hconn]
    rfl

theorem read_advances_iff (h : b.Valid) (hrun : getWriteBuffers length b = .ok vs c)
    (hfits : ∀ ssl ∈ sock.ssl, Fits (vs.map Iovec.len) ssl.read) :
    Advances (SocketStream.read sock length) b ↔
      (sock.isConnected → ∀ ssl ∈ sock.ssl, Unbroken 0 (vs.map Iovec.len) ssl.read) := by
  by_cases hconn : sock.isConnected
  · have hg := given_getWriteBuffers h hrun
    have hcount : c.position + (sock.recv (vs.map Iovec.len)).count ≤ c.capacity :=
      (Nat.add_le_add_left (hg.count_le hfits) _).trans hg.room
    obtain ⟨hstored, hposition, hcapacity⟩ :=
      storeEach_valid hg.valid hg.spans hg.room (sock.recv (vs.map Iovec.len)).moved
    rw [← hposition, ← hcapacity] at hcount
    rw [advances_congr (read_run hconn hrun rfl) (hposition.trans hg.position_eq),
      advances_iff hstored hcount]
    exact overBuffers_right_iff.trans ⟨fun h _ => h, fun h => h hconn⟩
  · refine iff_of_true (advances_disconnected ?_) fun h => absurd h hconn
    rw [SocketStream.read, Bool.eq_false_of_not_eq_true hconn]
    rfl

/-! ## As one transfer -/

/-- The bytes fill the buffers in order, with no gap. -/
def Packed : List ℕ → List (List UInt8) → Prop
  | _, [] => True
  | [], _ :: _ => False
  | len :: lens, bs :: moved => bs.length ≤ len ∧ (bs.length = len ∨ moved = []) ∧ Packed lens moved

theorem packed_nil (lens : List ℕ) : Packed lens [] := by
  cases lens <;> trivial

theorem bmod_of_lt {len : ℕ} (h : len < 2 ^ 31) : Int.bmod len (2 ^ 32) = len := by
  rw [Int.bmod_eq_of_le] <;> omega

theorem packed_sslLoop {call : ℕ → SslCall} {total : ℤ} (hfits : Fits lens call)
    (hint : ∀ len ∈ lens, len < 2 ^ 31) : Packed lens (sslLoop lens call total).moved := by
  induction lens generalizing call total with
  | nil => trivial
  | cons len lens ih =>
    obtain ⟨hfirst, hrest⟩ := fits_cons.1 hfits
    obtain ⟨hlen, hint⟩ := List.forall_mem_cons.1 hint
    have hdata := (call 0).length_data
    have hle : (call 0).data.length ≤ len := by omega
    rw [sslLoop]
    split_ifs with hfail hover hshort
    · trivial
    · exact ⟨hle, .inr rfl, packed_nil lens⟩
    · exact ⟨hle, .inr rfl, packed_nil lens⟩
    · rw [bmod_of_lt hlen, not_not] at hshort
      exact ⟨hle, .inl (by omega), ih hrest hint⟩

theorem scatter_nil (nodes : List (List UInt8)) (vs : List Iovec) : scatter nodes vs [] = nodes := by
  induction vs generalizing nodes with
  | nil => rfl
  | cons v vs ih =>
    have hsame : (nodes.modify v.node fun node => Splice.patch node v.offset ([].take v.len)) = nodes := by
      simp only [List.take_nil, Splice.patch_nil]
      exact List.modify_id ..
    rw [scatter, hsame, List.drop_nil]
    exact ih nodes

theorem storeEach_eq_store {moved : List (List UInt8)} (h : Packed (vs.map Iovec.len) moved) :
    b.storeEach vs moved = b.store vs moved.flatten := by
  induction vs generalizing b moved with
  | nil =>
    cases moved with
    | nil => rfl
    | cons bs moved => exact h.elim
  | cons v vs ih =>
    cases moved with
    | nil =>
      rw [List.flatten_nil, store, scatter_nil]
      rfl
    | cons bs moved =>
      obtain ⟨hle, hfull, hrest⟩ := h
      have htail := ih (b := b.store [v] bs) hrest
      have htake : (bs ++ moved.flatten).take v.len = bs.take v.len ∧
          (bs ++ moved.flatten).drop v.len = moved.flatten := by
        rcases hfull with hlen | rfl
        · rw [List.take_left' hlen, List.drop_left' hlen, List.take_of_length_le hlen.le]
          exact ⟨rfl, rfl⟩
        · rw [List.flatten_nil, List.append_nil, List.drop_eq_nil_of_le hle]
          exact ⟨rfl, rfl⟩
      rw [List.flatten_cons, store, scatter, htake.1, htake.2]
      exact htail

/-- Behind results that are right, `read` leaves what `write` of the received bytes leaves. -/
theorem read_eq_write (h : b.Valid) (hconn : sock.isConnected)
    (hrun : getWriteBuffers length b = .ok vs c)
    (hfits : ∀ ssl ∈ sock.ssl, Fits (vs.map Iovec.len) ssl.read) (hint : ∀ v ∈ vs, v.len < 2 ^ 31)
    {t : Transfer} (ht : sock.recv (vs.map Iovec.len) = t) (hright : t.Right 0) (hpos : 0 < t.count) :
    ∃ d w, SocketStream.read sock length b = .ok t d ∧
      ByteArray.write t.moved.flatten b = .ok () w ∧
      d.position = w.position ∧ d.size = w.size ∧ d.contents = w.contents := by
  have hcount : t.count ≤ length := ht ▸ (given_getWriteBuffers h hrun).count_le hfits
  have hpacked : Packed (vs.map Iovec.len) t.moved := by
    obtain ⟨isConnected, ssl⟩ := sock
    rw [← ht]
    cases ssl with
    | none => exact packed_nil _
    | some ssl => exact packed_sslLoop (hfits ssl rfl) (by simpa using hint)
  have hrt : t.rt = some (t.count : ℤ) := by
    rw [hright.1 (by omega), zero_add]
  obtain ⟨vs', c', d, w, hrun', -, hset, -, hwrite, hsame⟩ := h.socketRead hcount
  rw [hrun] at hrun'
  cases hrun'
  refine ⟨d, w, ?_, hwrite, hsame⟩
  rw [read_run hconn hrun ht, storeEach_eq_store hpacked, hrt]
  exact bind_ok ((advance_natCast hpos).trans hset)

/-- Behind results that are right, `write` leaves the bytes that were not sent to be read. -/
theorem write_unread (h : b.Valid) (hconn : sock.isConnected)
    (hrun : getReadBuffers length b = .ok vs c)
    (hfits : ∀ ssl ∈ sock.ssl, Fits (vs.map Iovec.len) ssl.write)
    {t : Transfer} (ht : sock.send (vs.map Iovec.len) = t) (hright : t.Right 0) :
    ∃ d, SocketStream.write sock length b = .ok t d ∧ d.unread = b.unread.drop t.count ∧
      d.contents = b.contents := by
  obtain ⟨rfl, hg⟩ := given_getReadBuffers h hrun
  obtain ⟨rt, hrt, hnat⟩ := right_iff_toNat.1 hright
  have hcount : t.count ≤ min length c.getReadSize := ht ▸ hg.count_le hfits
  have hle : rt ≤ min length c.getReadSize := by omega
  obtain ⟨d, hsocket, hunread, hsame⟩ := h.socketWrite hle
  have hadvance : socketWrite length (fun _ => rt) c =
      (SocketStream.advance (some rt) >>= fun _ => pure rt) c := by
    refine (bind_ok hrun).trans ?_
    by_cases hpos : rt > 0
    · simp only [SocketStream.advance, if_pos hpos]
      rfl
    · simp only [SocketStream.advance, if_neg hpos]
      rfl
  rw [hsocket] at hadvance
  refine ⟨d, ?_, hnat ▸ hunread, hsame⟩
  rw [write_run hconn hrun ht, hrt]
  cases hrun' : SocketStream.advance (some rt) c with
  | ok u d' =>
    rw [bind_ok hrun'] at hadvance ⊢
    cases hadvance
    rfl
  | error e d' =>
    rw [bind_error hrun'] at hadvance
    cases hadvance

end

/-- A `send` and a `recv` return the number of bytes that they transferred, and the stream moves the
cursor by it, if and only if no call behind full buffers fails and the number is an `int`. -/
theorem transferred_iff (sock : SSLSocket) {b : ByteArray} (h : b.Valid) (length : ℕ) :
    (∀ buffers, (sock.send buffers).Right 0 ↔ ∀ ssl ∈ sock.ssl, Unbroken 0 buffers ssl.write) ∧
    (∀ buffers, (sock.recv buffers).Right 0 ↔ ∀ ssl ∈ sock.ssl, Unbroken 0 buffers ssl.read) ∧
    (∃ vs c, getWriteBuffers length b = .ok vs c ∧
      ((∀ ssl ∈ sock.ssl, Fits (vs.map Iovec.len) ssl.read) →
        (Advances (SocketStream.read sock length) b ↔
          (sock.isConnected → ∀ ssl ∈ sock.ssl, Unbroken 0 (vs.map Iovec.len) ssl.read)))) ∧
    (∃ vs, getReadBuffers length b = .ok vs b ∧
      ((∀ ssl ∈ sock.ssl, Fits (vs.map Iovec.len) ssl.write) →
        (Advances (SocketStream.write sock length) b ↔
          (sock.isConnected → ∀ ssl ∈ sock.ssl, Unbroken 0 (vs.map Iovec.len) ssl.write)))) := by
  refine ⟨fun _ => overBuffers_right_iff, fun _ => overBuffers_right_iff, ?_, ?_⟩
  · obtain ⟨vs, hrun, -⟩ := h.getWriteBuffers length
    exact ⟨vs, _, hrun, read_advances_iff h hrun⟩
  · obtain ⟨vs, hrun, -⟩ := h.getReadBuffers length
    exact ⟨vs, hrun, write_advances_iff h hrun⟩

/-- A full buffer and a short one. -/
theorem transferred_iff_short :
    let calls : ℕ → SslCall := fun i => if i = 0 then .ofBytes [7, 8] else .ofBytes [9]
    let sock : SSLSocket := ⟨true, some ⟨calls, calls⟩⟩
    (sock.recv [2, 2]).Right 0 ∧ Advances (SocketStream.read sock 4) (new 2 fun _ => 0) := by
  intro calls sock
  have hunbroken : ∀ ssl ∈ sock.ssl, Unbroken 0 [2, 2] ssl.read := by
    rintro ssl ⟨⟩
    decide
  obtain ⟨-, hrecv, ⟨vs, c, hrun, hread⟩, -⟩ :=
    transferred_iff sock (valid_new Nat.two_pos fun _ => 0) 4
  cases hrun
  refine ⟨(hrecv _).2 hunbroken, (hread ?_).2 fun _ => hunbroken⟩
  rintro ssl ⟨⟩
  decide

/-- The second call fails: the byte of the first one is sent and not counted. -/
theorem not_right_second : ¬∀ (sock : SSLSocket) (buffers : List ℕ),
    (∀ ssl ∈ sock.ssl, Fits buffers ssl.write) → (sock.send buffers).Right 0 := by
  intro h
  let calls : ℕ → SslCall := fun i => if i = 0 then .ofBytes [7] else .ofFailure (-1) (by decide)
  have hright := h ⟨true, some ⟨calls, calls⟩⟩ [1, 1] (by rintro ssl ⟨⟩; decide)
  have hrt : some (-1 : ℤ) = some (0 + 1) := hright.1 (by decide)
  exact absurd hrt (by decide)

end SSLSocket

end CoroutineScheduler
