import CoroutineScheduler.Http.WsSession

/-!
# Frames from sender to receiver

1. `wsSendMessage_open`: what goes out, and that the call succeeds unless its length is not an `int`.
2. `wsTurn_frame`, `wsData_frame`: a round of the receiver on a data frame of the sender.
3. `wsTurn_control`: a round on a control frame of two bytes.
4. `wsLoop_parts`: the frames of a message, with control frames between them, arrive as one message
   exactly when the lengths fit an `int` at the places where the source has one.
-/

namespace CoroutineScheduler.Http

open CoroutineScheduler.ByteArray

/-! ## Heads, lengths and masks -/

theorem WSFrameHead.ofBytes_bytes (h : WSFrameHead) : ofBytes h.bytes = h := by
  obtain ⟨⟨opcode, hop⟩, rsv3, rsv2, rsv1, fin, ⟨payload, hpay⟩, mask⟩ := h
  have h3 := rsv3.toNat_lt
  have h2 := rsv2.toNat_lt
  have h1 := rsv1.toNat_lt
  have hf := fin.toNat_lt
  have hm := mask.toNat_lt
  have hbit : ∀ {n : ℕ} {b : Bool}, n = b.toNat → decide (n = 1) = b := by
    rintro n b rfl
    cases b <;> rfl
  have hfirst : opcode + 16 * rsv3.toNat + 32 * rsv2.toNat + 64 * rsv1.toNat + 128 * fin.toNat <
      256 := by omega
  have hsecond : payload + 128 * mask.toNat < 256 := by omega
  simp only [ofBytes, bytes, List.getD_cons_zero, List.getD_cons_succ, UInt8.toNat_ofNat',
    Nat.mod_eq_of_lt hfirst, Nat.mod_eq_of_lt hsecond, WSFrameHead.mk.injEq, Fin.ext_iff,
    Fin.val_ofNat]
  exact ⟨by omega, hbit (by omega), hbit (by omega), hbit (by omega), hbit (by omega), by omega,
    hbit (by omega)⟩

theorem ofSwappedBytes_swappedBytes {k : ℕ} (v : BitVec (8 * k)) :
    ofSwappedBytes k (swappedBytes k v) = v := by
  rw [ofSwappedBytes, swappedBytes, ofMem_memBytes, byteswap_byteswap]

theorem wsMask_wsMask (mask data : List UInt8) : wsMask mask (wsMask mask data) = data := by
  rw [wsMask, wsMask, List.mapIdx_mapIdx]
  have hcancel : (fun (i : ℕ) => (fun b : UInt8 => b ^^^ mask.getD (i % 4) 0) ∘
      fun b => b ^^^ mask.getD (i % 4) 0) = fun _ b => b := by
    funext i b
    rw [Function.comp_apply, UInt8.xor_assoc, UInt8.xor_self, UInt8.xor_zero]
  rw [hcancel]
  exact List.ext_getElem? fun i => by rw [List.getElem?_mapIdx, Option.map_id']

@[simp] theorem length_wsMask (mask data : List UInt8) : (wsMask mask data).length = data.length :=
  List.length_mapIdx

/-- `readFixSize` of the next bytes of a socket. -/
theorem readFixSize_append {rs : Reads} {bs rest : List UInt8} (hs : Solid rs)
    (hbytes : rs.flatten = bs ++ rest) (hlen : 0 < toInt bs.length) :
    ∃ rs', readFixSize bs.length rs = (some bs, rs') ∧ Solid rs' ∧ rs'.flatten = rest := by
  have hle : bs.length ≤ rs.flatten.length := by
    rw [hbytes, List.length_append]
    omega
  obtain ⟨hread, hrest⟩ := readLoop_eq hs hle
  rw [hbytes, List.take_left] at hread
  rw [hbytes, List.drop_left] at hrest
  refine ⟨(readLoop bs.length rs).2, ?_, hs.readLoop, hrest⟩
  exact Prod.ext ((readFixSize_pos hlen).trans hread) (readFixSize_reads _ _)

/-! ## Sending -/

section
variable {k : Sink} {client fin : Bool} {randValue : BitVec (8 * 4)} {msg : WSFrameMessage}

/-- Writes to an open way out: only the last one can have a length that is not an `int`. -/
theorem writeAll_open {ds : List (List UInt8)} (hk : k.Open) (hds : ∀ d ∈ ds, 0 < toInt d.length)
    (d : List UInt8) :
    ∃ room, Sink.Open ⟨room, k.sent ++ (ds ++ [d]).flatten⟩ ∧
      writeAll (ds ++ [d]) k =
        (decide (0 < toInt d.length), ⟨room, k.sent ++ (ds ++ [d]).flatten⟩) := by
  induction ds generalizing k with
  | nil =>
    obtain ⟨room, hroom, hwrite⟩ := writeFixSize_open hk d
    refine ⟨room, ?_, ?_⟩
    · exact hroom
    · simp only [List.nil_append, writeAll, hwrite, List.flatten_cons, List.flatten_nil,
        List.append_nil]
      split_ifs with h
      · rw [h]
      · rw [decide_eq_false (by simpa using h)]
  | cons c ds ih =>
    obtain ⟨hc, hrest⟩ := List.forall_mem_cons.1 hds
    obtain ⟨room, hroom, hwrite⟩ := writeFixSize_open hk c
    obtain ⟨room', hroom', hall⟩ := ih hroom hrest
    refine ⟨room', hroom', ?_⟩
    rw [List.cons_append, writeAll, hwrite, decide_eq_true hc, if_pos rfl, hall, List.flatten_cons,
      List.append_assoc]

@[simp] theorem length_wsBody : (wsBody client randValue msg).length = msg.data.length := by
  rw [wsBody]
  split_ifs
  · exact length_wsMask _ _
  · rfl

theorem toInt_wsFront : ∀ d ∈ wsFront client fin randValue msg, 0 < toInt d.length := by
  have hsmall : ∀ n : ℕ, 0 < n → n ≤ 8 → 0 < toInt n := by
    intro n hpos hle
    rw [toInt_eq (by omega)]
    omega
  have hlength : ∀ d ∈ wsLengthParts msg.data.length, 0 < toInt d.length := by
    rw [wsLengthParts]
    split_ifs
    · simpa [swappedBytes] using hsmall 2 (by decide) (by decide)
    · simpa [swappedBytes] using hsmall 8 (by decide) (by decide)
    · exact List.forall_mem_nil _
  rw [wsFront, List.forall_mem_append, List.forall_mem_append, List.forall_mem_singleton]
  refine ⟨⟨hsmall 2 (by decide) (by decide), hlength⟩, ?_⟩
  split_ifs
  · simpa using hsmall 4 (by decide) (by decide)
  · exact List.forall_mem_nil _

/-- The bytes of a frame. -/
def wsBytes (client fin : Bool) (randValue : BitVec (8 * 4)) (msg : WSFrameMessage) : List UInt8 :=
  (wsFront client fin randValue msg ++ [wsBody client randValue msg]).flatten

theorem length_wsBytes_pos (client fin : Bool) (randValue : BitVec (8 * 4))
    (msg : WSFrameMessage) : 0 < (wsBytes client fin randValue msg).length := by
  rw [wsBytes, wsFront, List.append_assoc, List.append_assoc, List.flatten_append,
    List.length_append]
  exact Nat.add_pos_left (by decide : 0 < 2) _

/-- On an open way out all bytes of a frame are written; the call fails on a length that is not a
positive `int`. -/
theorem wsSendMessage_open (hk : k.Open) (client fin : Bool) (randValue : BitVec (8 * 4))
    (msg : WSFrameMessage) :
    ∃ room, Sink.Open ⟨room, k.sent ++ wsBytes client fin randValue msg⟩ ∧
      wsSendMessage client fin randValue msg k =
        (if 0 < toInt msg.data.length then some (toInt (msg.data.length + 2)) else none,
          ⟨room, k.sent ++ wsBytes client fin randValue msg⟩) := by
  obtain ⟨room, hroom, hwrite⟩ := writeAll_open hk toInt_wsFront (wsBody client randValue msg)
  refine ⟨room, hroom, ?_⟩
  simp only [wsSendMessage, hwrite, length_wsBody, decide_eq_true_eq]
  rfl

end

/-! ## Receiving a frame -/

section
variable {client fin : Bool} {randValue : BitVec (8 * 4)} {maxSize : UInt32} {s : WsState}
  {rest : List UInt8}

/-- The length of a frame, behind its head. -/
theorem wsLength_parts {rs : Reads} {size : ℕ} (hs : Solid rs) (hsize : size < 2 ^ 32)
    (hbytes : rs.flatten = (wsLengthParts size).flatten ++ rest) :
    ∃ rs', wsLength (wsPayload size) rs = (some size, rs') ∧ Solid rs' ∧ rs'.flatten = rest := by
  have hword : ∀ k : ℕ, 0 < k → k ≤ 8 → size < 2 ^ (8 * k) →
      rs.flatten = swappedBytes k (BitVec.ofNat _ size) ++ rest →
      ∃ rs', Prod.map (Option.map fun bs => (ofSwappedBytes k bs).toNat) id (readFixSize k rs) =
        (some size, rs') ∧ Solid rs' ∧ rs'.flatten = rest := by
    intro k hpos hle hlt hrs
    have hlen : (swappedBytes k (BitVec.ofNat (8 * k) size)).length = k := length_memBytes _ _
    obtain ⟨rs', hread, hsolid, hrest⟩ := readFixSize_append hs hrs (by
      rw [hlen, toInt_eq (by omega)]
      omega)
    rw [hlen] at hread
    refine ⟨rs', ?_, hsolid, hrest⟩
    rw [hread, Prod.map, Option.map_some, ofSwappedBytes_swappedBytes, BitVec.toNat_ofNat,
      Nat.mod_eq_of_lt hlt]
    rfl
  rw [wsLengthParts] at hbytes
  rw [wsLength]
  split_ifs at hbytes ⊢ with h126 h127
  · rw [wsPayload] at h126
    split_ifs at h126 with hsmall hmid
    · omega
    · exact hword 2 (by decide) (by decide) (by omega) (by simpa using hbytes)
    · omega
  · exact hword 8 (by decide) (by decide) (by omega) (by simpa using hbytes)
  · have hsmall : wsPayload size = size := by
      rw [wsPayload] at h126 h127 ⊢
      split_ifs at h126 h127 ⊢
      · rfl
      · exact absurd rfl h126
      · exact absurd rfl h127
    exact ⟨rs, by rw [hsmall], hs, hbytes⟩

/-- The part of a frame behind its length. -/
def wsTail (client : Bool) (randValue : BitVec (8 * 4)) (msg : WSFrameMessage) : List UInt8 :=
  (if client then memBytes .little 4 randValue else []) ++ wsBody client randValue msg

/-- A round of the receiver on a data frame comes to its data. -/
theorem wsTurn_frame (maxSize : UInt32) {msg : WSFrameMessage} (hs : Solid s.reads)
    (hop : msg.opcode = 0 ∨ msg.opcode = 1 ∨ msg.opcode = 2) (hsize : msg.data.length < 2 ^ 32)
    (hbytes : s.reads.flatten = wsBytes client fin randValue msg ++ rest) :
    ∃ rs, Solid rs ∧ rs.flatten = wsTail client randValue msg ++ rest ∧
      wsTurn (!client) maxSize s =
        wsData maxSize (wsHead client fin msg) msg.data.length s rs := by
  have hsplit : wsBytes client fin randValue msg ++ rest =
      (wsHead client fin msg).bytes ++ ((wsLengthParts msg.data.length).flatten ++
        (wsTail client randValue msg ++ rest)) := by
    rw [wsBytes, wsFront, wsTail]
    cases client <;> simp
  rw [hsplit] at hbytes
  have htwo : (wsHead client fin msg).bytes.length = 2 := rfl
  obtain ⟨rs, hread, hsolid, hrest⟩ := readFixSize_append hs hbytes (by
    rw [htwo, toInt_eq (by decide)]
    decide)
  rw [htwo] at hread
  obtain ⟨rs', hlength, hsolid', hrest'⟩ := wsLength_parts hsolid hsize hrest
  refine ⟨rs', hsolid', hrest', ?_⟩
  have hkind : (wsHead client fin msg).opcode ≠ WSFrameHead.ping ∧
      (wsHead client fin msg).opcode ≠ WSFrameHead.pong ∧
      ((wsHead client fin msg).opcode = WSFrameHead.continueFrame ∨
        (wsHead client fin msg).opcode = WSFrameHead.textFrame ∨
        (wsHead client fin msg).opcode = WSFrameHead.binFrame) := by
    rcases hop with h | h | h <;> simp only [wsHead, h] <;> decide
  obtain ⟨hping, hpong, hdata⟩ := hkind
  have hmask : ((!!client) && !(wsHead client fin msg).mask) = false := by
    show ((!!client) && !client) = false
    cases client <;> rfl
  have hpayload : ((wsHead client fin msg).payload : ℕ) = wsPayload msg.data.length := rfl
  simp only [wsTurn, hread, WSFrameHead.ofBytes_bytes, if_neg hping, if_neg hpong, if_pos hdata,
    hmask, Bool.false_eq_true, if_false, hpayload, hlength]

/-- The variables in a round: `cur_len` is the length of the data as an `int`. -/
structure Counts (maxSize : UInt32) (s : WsState) (n : ℕ) : Prop where
  curLen : s.curLen = toInt s.data.length
  size : s.data.length + n < maxSize.toNat

/-- The data of a frame behind `n` bytes: its length is a positive `int`, and so are the position of
its first byte and, if it is unmasked there, of its last one. -/
def Taken (client : Bool) (n : ℕ) (data : List UInt8) : Prop :=
  0 < toInt data.length ∧ n < 2 ^ 31 ∧ (client → n + data.length ≤ 2 ^ 31)

theorem wsReadMask_tail {msg : WSFrameMessage} {rs : Reads} (hs : Solid rs)
    (hbytes : rs.flatten = wsTail client randValue msg ++ rest) :
    ∃ mask rs', wsReadMask client rs = (some mask, rs') ∧ Solid rs' ∧
      rs'.flatten = wsBody client randValue msg ++ rest ∧
      (if client then wsMask mask (wsBody client randValue msg) else wsBody client randValue msg) =
        msg.data := by
  cases client with
  | false => exact ⟨_, rs, rfl, hs, hbytes, rfl⟩
  | true =>
    rw [wsTail, if_pos rfl, List.append_assoc] at hbytes
    obtain ⟨rs', hread, hsolid, hrest⟩ := readFixSize_append hs hbytes (by
      rw [length_memBytes, toInt_eq (by decide)]
      decide)
    rw [length_memBytes] at hread
    refine ⟨_, rs', hread, hsolid, hrest, ?_⟩
    rw [wsBody, if_pos rfl, if_pos rfl, wsMask_wsMask]

/-- A data frame is taken where its length and the positions in the string are `int`s, and lost
elsewhere. -/
theorem wsData_frame (fin : Bool) {msg : WSFrameMessage} {rs : Reads} (hs : Solid rs)
    (hbytes : rs.flatten = wsTail client randValue msg ++ rest)
    (hc : Counts maxSize s msg.data.length) :
    (Taken client s.data.length msg.data → ∃ rs', Solid rs' ∧ rs'.flatten = rest ∧
        wsData maxSize (wsHead client fin msg) msg.data.length s rs =
          let s' := s.add (wsHead client fin msg) msg.data rs'
          if fin then .message ⟨s'.opcode, s'.data⟩ s' else .again s') ∧
      (¬ Taken client s.data.length msg.data →
        wsData maxSize (wsHead client fin msg) msg.data.length s rs = .closed ∨
          wsData maxSize (wsHead client fin msg) msg.data.length s rs = .undefined) := by
  obtain ⟨mask, rs₁, hmask, hsolid, hrest, hdata⟩ := wsReadMask_tail hs hbytes
  have hlen : (wsBody client randValue msg).length = msg.data.length := length_wsBody
  have hread : 0 < toInt msg.data.length → ∃ rs', readFixSize msg.data.length rs₁ =
      (some (wsBody client randValue msg), rs') ∧ Solid rs' ∧ rs'.flatten = rest := by
    intro hpos
    rw [← hlen] at hpos ⊢
    exact readFixSize_append hsolid hrest hpos
  have hsize := hc.size
  have hmax := maxSize.toNat_lt
  have hm : (wsHead client fin msg).mask = client := rfl
  have hf : (wsHead client fin msg).fin = fin := rfl
  constructor
  · rintro ⟨hpos, hcur, hlast⟩
    obtain ⟨rs₂, hbody, hsolid', hrest'⟩ := hread hpos
    refine ⟨rs₂, hsolid', hrest', ?_⟩
    have hcurLen : s.curLen = s.data.length := by rw [hc.curLen, toInt_eq hcur]
    have hunder : ¬ (maxSize.toNat : ℤ) ≤ (s.curLen + msg.data.length) % 2 ^ 64 := by
      rw [hcurLen, Int.emod_eq_of_lt (by omega) (by omega)]
      omega
    have hindex : ¬ (client = true ∧ (2 : ℤ) ^ 31 ≤ s.curLen + msg.data.length - 1) := by
      rintro ⟨hclient, hle⟩
      have hsum := hlast hclient
      omega
    simp only [wsData, if_neg hunder, hm, hf, hmask, if_neg (show ¬ s.curLen < 0 by omega), hbody,
      if_neg hindex, hdata]
  · intro h
    by_cases hpos : 0 < toInt msg.data.length
    · obtain ⟨rs₂, hbody, -, -⟩ := hread hpos
      simp only [wsData, hm, hmask, hbody]
      split_ifs with hunder hneg hindex
      · exact Or.inl rfl
      · exact Or.inr rfl
      · exact Or.inr rfl
      all_goals
        have hcur : s.data.length < 2 ^ 31 := by
          by_contra hge
          have hcon := toInt_neg (not_lt.1 hge) (by omega)
          rw [← hc.curLen] at hcon
          exact hneg hcon
        have hcurLen : s.curLen = s.data.length := by rw [hc.curLen, toInt_eq hcur]
        refine absurd ⟨hpos, hcur, fun hclient => ?_⟩ h
        by_contra hgt
        exact hindex ⟨hclient, by omega⟩
    · have hnone : (readFixSize msg.data.length rs₁).1 = none :=
        readFixSize_none (Or.inl (not_lt.1 hpos))
      simp only [wsData, hm, hmask, hnone]
      split_ifs
      · exact Or.inl rfl
      · exact Or.inr rfl
      · exact Or.inl rfl

end

/-! ## Messages in parts -/

/-- A fragment of a message, with the value of `rand()` for its mask. -/
structure Fragment where
  data : List UInt8
  randValue : BitVec (8 * 4)

/-- A `PING` or `PONG` frame. -/
structure Control where
  pong : Bool
  payload : List UInt8
  randValue : BitVec (8 * 4)
  payload_le : payload.length ≤ 125

def Control.bytes (client : Bool) (c : Control) : List UInt8 :=
  wsBytes client true c.randValue ⟨if c.pong then 10 else 9, c.payload⟩

/-- A control frame of two bytes. -/
def Control.Bare (client : Bool) (c : Control) : Prop := client = false ∧ c.payload = []

instance (client : Bool) : DecidablePred (Control.Bare client) :=
  fun c => inferInstanceAs (Decidable (client = false ∧ c.payload = []))

/-- A fragment, with the control frames in front of it. -/
structure Part extends Fragment where
  controls : List Control := []

/-- The bytes of a message: the first part carries the opcode, the last one the `fin` bit. -/
def partBytes (client : Bool) : ℤ → List Part → List UInt8
  | _, [] => []
  | opcode, p :: ps =>
    p.controls.flatMap (Control.bytes client) ++
      (wsBytes client ps.isEmpty p.randValue ⟨opcode, p.data⟩ ++ partBytes client 0 ps)

/-- The number of bytes in some parts. -/
def totalSize (ps : List Part) : ℕ := (ps.map fun p => p.data.length).sum

/-- All parts are taken, behind `n` bytes. -/
def Positions (client : Bool) : ℕ → List Part → Prop
  | _, [] => True
  | n, p :: ps => Taken client n p.data ∧ Positions client (n + p.data.length) ps

theorem totalSize_cons (p : Part) (ps : List Part) :
    totalSize (p :: ps) = p.data.length + totalSize ps := by
  rw [totalSize, totalSize, List.map_cons, List.sum_cons]

theorem positions_iff (client : Bool) {ps : List Part} (hne : ps ≠ []) (n : ℕ) :
    Positions client n ps ↔
      (∀ p ∈ ps, 0 < toInt p.data.length) ∧ n + totalSize ps.dropLast < 2 ^ 31 ∧
        (client → n + totalSize ps ≤ 2 ^ 31) := by
  induction ps generalizing n with
  | nil => exact absurd rfl hne
  | cons p ps ih =>
    cases ps with
    | nil => simp [Positions, Taken, totalSize]
    | cons q ps =>
      have hfront := totalSize_cons p (q :: ps).dropLast
      have hall := totalSize_cons p (q :: ps)
      have hle : q.data.length ≤ totalSize (q :: ps) := by
        rw [totalSize_cons]
        omega
      rw [Positions, ih (List.cons_ne_nil q ps), List.dropLast_cons_cons, hfront, hall,
        ← Nat.add_assoc, ← Nat.add_assoc, List.forall_mem_cons (a := p)]
      constructor
      · rintro ⟨⟨hp, -⟩, hps, hsum⟩
        exact ⟨⟨hp, hps⟩, hsum⟩
      · rintro ⟨⟨hp, hps⟩, hsum, hclient⟩
        refine ⟨⟨hp, by omega, fun h => ?_⟩, hps, hsum, hclient⟩
        have hbound := hclient h
        omega

section
variable {client role : Bool} {maxSize : UInt32} {s : WsState} {rest : List UInt8} {fuel : ℕ}

/-- A control frame of two bytes is skipped, and a `PING` is answered. -/
theorem wsTurn_control (role : Bool) (maxSize : UInt32) {c : Control} (hs : Solid s.reads)
    (hk : s.sink.Open)
    (hbare : c.Bare client) (hbytes : s.reads.flatten = c.bytes client ++ rest) :
    ∃ rs k, Solid rs ∧ rs.flatten = rest ∧ k.Open ∧
      wsTurn role maxSize s = .again { s with reads := rs, sink := k } := by
  obtain ⟨rfl, hpayload⟩ := hbare
  obtain ⟨h, hhead, hop⟩ : ∃ h : WSFrameHead, c.bytes false = h.bytes ∧
      (h.opcode = WSFrameHead.ping ∨
        h.opcode ≠ WSFrameHead.ping ∧ h.opcode = WSFrameHead.pong) := by
    refine ⟨wsHead false true ⟨if c.pong then 10 else 9, []⟩, ?_, ?_⟩
    · rw [Control.bytes, hpayload]
      rfl
    · cases c.pong
      · exact Or.inl rfl
      · exact Or.inr ⟨by decide, rfl⟩
  rw [hhead] at hbytes
  have htwo : h.bytes.length = 2 := rfl
  obtain ⟨rs, hread, hsolid, hrest⟩ := readFixSize_append hs hbytes (by
    rw [htwo, toInt_eq (by decide)]
    decide)
  rw [htwo] at hread
  rcases hop with hping | ⟨hping, hpong⟩
  · obtain ⟨room, hroom, hwrite⟩ := writeFixSize_open hk (controlHead WSFrameHead.pong).bytes
    refine ⟨rs, _, hsolid, hrest, hroom, ?_⟩
    have hpos : 0 < toInt (controlHead WSFrameHead.pong).bytes.length := by
      rw [toInt_eq (by decide)]
      decide
    simp only [wsTurn, hread, WSFrameHead.ofBytes_bytes, if_pos hping, wsPong, hwrite,
      decide_eq_true hpos, if_true]
  · refine ⟨rs, s.sink, hsolid, hrest, hk, ?_⟩
    simp only [wsTurn, hread, WSFrameHead.ofBytes_bytes, if_neg hping, if_pos hpong]

theorem Control.length_bytes_pos (client : Bool) (c : Control) : 0 < (c.bytes client).length :=
  length_wsBytes_pos ..

/-- The control frames in front of a data frame. -/
theorem wsLoop_controls (role : Bool) (maxSize : UInt32) {cs : List Control} (hs : Solid s.reads) (hk : s.sink.Open)
    (hbare : ∀ c ∈ cs, c.Bare client)
    (hbytes : s.reads.flatten = cs.flatMap (Control.bytes client) ++ rest)
    (hfuel : s.reads.flatten.length < fuel) :
    ∃ fuel' rs k, Solid rs ∧ rs.flatten = rest ∧ k.Open ∧ rest.length < fuel' ∧
      wsLoop role maxSize fuel s = wsLoop role maxSize fuel' { s with reads := rs, sink := k } := by
  induction cs generalizing s fuel with
  | nil =>
    rw [hbytes] at hfuel
    exact ⟨fuel, s.reads, s.sink, hs, hbytes, hk, hfuel, rfl⟩
  | cons c cs ih =>
    obtain ⟨hc, hcs⟩ := List.forall_mem_cons.1 hbare
    rw [List.flatMap_cons, List.append_assoc] at hbytes
    obtain ⟨fuel, rfl⟩ := Nat.exists_eq_succ_of_ne_zero (Nat.ne_of_gt (Nat.zero_lt_of_lt hfuel))
    obtain ⟨rs, k, hsolid, hrest, hopen, hturn⟩ := wsTurn_control role maxSize hs hk hc hbytes
    have hless : rs.flatten.length < fuel := by
      have hlen := congrArg List.length hbytes
      have hpart := c.length_bytes_pos client
      rw [List.length_append] at hlen
      rw [hrest]
      omega
    obtain ⟨fuel', rs', k', h⟩ := ih (s := { s with reads := rs, sink := k }) hsolid hopen hcs hrest
      hless
    refine ⟨fuel', rs', k', h.1, h.2.1, h.2.2.1, h.2.2.2.1, ?_⟩
    rw [Nat.succ_eq_add_one, wsLoop, hturn]
    exact h.2.2.2.2

/-- The opcode of a message: that of its first frame that is no continuation. -/
theorem WsState.add_opcode {s : WsState} {msg : WSFrameMessage} {fin : Bool} {bytes : List UInt8}
    {rs : Reads} (hop : msg.opcode = 0 ∨ msg.opcode = 1 ∨ msg.opcode = 2) :
    (s.add (wsHead client fin msg) bytes rs).opcode =
      if s.opcode = 0 then msg.opcode else s.opcode := by
  by_cases hzero : s.opcode = 0
  · rcases hop with h | h | h <;> simp only [WsState.add, wsHead, h, hzero] <;> rfl
  · rw [if_neg hzero, WsState.add, if_neg fun hcon => hzero hcon.1]

theorem Counts.add {maxSize : UInt32} {s : WsState} {n : ℕ} {h : WSFrameHead} {bytes : List UInt8}
    {rs : Reads} (hc : Counts maxSize s (bytes.length + n)) (hcur : s.data.length < 2 ^ 31) :
    Counts maxSize (s.add h bytes rs) n := by
  have hsize := hc.size
  constructor
  · have hsum : s.curLen + bytes.length = ((s.data ++ bytes).length : ℤ) := by
      rw [hc.curLen, toInt_eq hcur, List.length_append, Nat.cast_add]
    exact congrArg (fun v : ℤ => Int.bmod v (2 ^ 32)) hsum
  · rw [WsState.add, List.length_append]
    omega

/-- The receiver on a message in parts, whose control frames have two bytes. -/
theorem wsLoop_parts {ps : List Part} {opcode : ℤ} (hne : ps ≠ []) (hs : Solid s.reads)
    (hk : s.sink.Open) (hbytes : s.reads.flatten = partBytes client opcode ps ++ rest)
    (hop : opcode = 0 ∨ opcode = 1 ∨ opcode = 2)
    (hbare : ∀ p ∈ ps, ∀ c ∈ p.controls, c.Bare client) (hc : Counts maxSize s (totalSize ps))
    (hfuel : s.reads.flatten.length < fuel) :
    (Positions client s.data.length ps →
      ∃ rs k, Solid rs ∧ rs.flatten = rest ∧ k.Open ∧
        wsLoop (!client) maxSize fuel s =
          .message ⟨if s.opcode = 0 then opcode else s.opcode,
            s.data ++ ps.flatMap fun p => p.data⟩ rs k) ∧
      (¬ Positions client s.data.length ps →
        ∀ m rs k, wsLoop (!client) maxSize fuel s ≠ .message m rs k) := by
  induction ps generalizing s opcode fuel with
  | nil => exact absurd rfl hne
  | cons p ps ih =>
    obtain ⟨hp, hps⟩ := List.forall_mem_cons.1 hbare
    rw [partBytes, List.append_assoc, List.append_assoc] at hbytes
    rw [totalSize_cons] at hc
    have hmax := maxSize.toNat_lt
    have hsize := hc.size
    -- the control frames, then a round on the data frame
    obtain ⟨fuel, rs, k, hsolid, hrest, hopen, hfuel, hloop⟩ :=
      wsLoop_controls (!client) maxSize hs hk hp hbytes hfuel
    obtain ⟨fuel, rfl⟩ := Nat.exists_eq_succ_of_ne_zero (Nat.ne_of_gt (Nat.zero_lt_of_lt hfuel))
    obtain ⟨rs₁, hsolid₁, hrest₁, hturn⟩ := wsTurn_frame maxSize
      (s := { s with reads := rs, sink := k }) hsolid hop (show p.data.length < 2 ^ 32 by omega) hrest
    obtain ⟨hok, hlost⟩ := wsData_frame ps.isEmpty (s := { s with reads := rs, sink := k }) hsolid₁
      hrest₁ ⟨hc.curLen, show s.data.length + p.data.length < maxSize.toNat by omega⟩
    rw [hloop, wsLoop, hturn, Positions]
    by_cases htaken : Taken client s.data.length p.data
    · obtain ⟨rs₂, hsolid₂, hrest₂, hadd⟩ := hok htaken
      rw [hadd]
      cases ps with
      | nil =>
        refine ⟨fun _ => ⟨rs₂, k, hsolid₂, hrest₂, hopen, ?_⟩, fun hcon =>
          absurd ⟨htaken, trivial⟩ hcon⟩
        rw [List.isEmpty_nil, if_pos rfl, WsState.add_opcode hop, List.flatMap_singleton]
        rfl
      | cons q ps =>
        have hless : rs₂.flatten.length < fuel := by
          have hlen := congrArg List.length hrest
          have hpart := length_wsBytes_pos client (q :: ps).isEmpty p.randValue ⟨opcode, p.data⟩
          rw [hrest₂]
          rw [List.length_append] at hlen hfuel
          omega
        obtain ⟨hgood, hbad⟩ := ih (s := WsState.add { s with reads := rs, sink := k }
          (wsHead client (q :: ps).isEmpty ⟨opcode, p.data⟩) p.data rs₂) (List.cons_ne_nil q ps)
          hsolid₂ hopen hrest₂ (Or.inl rfl) hps
          (Counts.add (s := { s with reads := rs, sink := k }) ⟨hc.curLen, hc.size⟩ htaken.2.1) hless
        have hcount : (WsState.add { s with reads := rs, sink := k }
            (wsHead client (q :: ps).isEmpty ⟨opcode, p.data⟩) p.data rs₂).data.length =
            s.data.length + p.data.length := List.length_append
        rw [hcount] at hgood hbad
        simp only [List.isEmpty_cons, Bool.false_eq_true, if_false]
        constructor
        · rintro ⟨-, hpositions⟩
          obtain ⟨rs₃, k₃, hsolid₃, hrest₃, hopen₃, hmessage⟩ := hgood hpositions
          refine ⟨rs₃, k₃, hsolid₃, hrest₃, hopen₃, ?_⟩
          have hsame : ∀ o : ℤ, (if o = 0 then 0 else o) = o := by
            intro o
            split_ifs with hzero
            · exact hzero.symm
            · rfl
          have hcat : s.data ++ (p :: q :: ps).flatMap (fun p => p.data) =
              s.data ++ p.data ++ (q :: ps).flatMap fun p => p.data := by
            rw [List.flatMap_cons, List.append_assoc]
          rw [WsState.add_opcode hop, hsame] at hmessage
          rw [hcat]
          exact hmessage
        · intro hcon
          exact hbad fun hpositions => hcon ⟨htaken, hpositions⟩
    · refine ⟨fun hcon => absurd hcon.1 htaken, fun _ m rs' k' => ?_⟩
      rcases hlost htaken with hcase | hcase
      · rw [hcase]
        exact nofun
      · rw [hcase]
        exact nofun

end

end CoroutineScheduler.Http
