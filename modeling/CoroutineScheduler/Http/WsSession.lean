import CoroutineScheduler.Http.Stream
import CoroutineScheduler.ByteArray.Numbers

/-!
# WebSocket messages

`WSSendMessage`, `WSRecvMessage`, `WSPing` and `WSPong`. A message goes out as frames: two bytes of
bit fields, the length in a longer form if it does not fit them, the mask of a client, and the data.
`WSRecvMessage` collects frames until one has its `fin` bit set.

The lengths are those of the source: `cur_len` is an `int` beside a `uint64_t` length and a
`uint32_t` limit, and `readFixSize` and `writeFixSize` return an `int`. A string that is indexed at a
negative `cur_len` and an `int` index that overflows end a call with `undefined`. The bit fields and
the words lie in memory as on a little-endian host.
-/

namespace CoroutineScheduler.Http

open CoroutineScheduler.ByteArray

/-- `WSFrameHead`. -/
structure WSFrameHead where
  opcode : Fin 16
  rsv3 : Bool := false
  rsv2 : Bool := false
  rsv1 : Bool := false
  fin : Bool
  payload : Fin 128
  mask : Bool
  deriving DecidableEq, Repr

namespace WSFrameHead

def continueFrame : Fin 16 := 0

def textFrame : Fin 16 := 1

def binFrame : Fin 16 := 2

def ping : Fin 16 := 9

def pong : Fin 16 := 10

/-- The bit fields in memory, the first one in the low bits. -/
def bytes (h : WSFrameHead) : List UInt8 :=
  [UInt8.ofNat (h.opcode + 16 * h.rsv3.toNat + 32 * h.rsv2.toNat + 64 * h.rsv1.toNat +
      128 * h.fin.toNat),
    UInt8.ofNat (h.payload + 128 * h.mask.toNat)]

/-- The bit fields that lie in some bytes. -/
def ofBytes (bs : List UInt8) : WSFrameHead :=
  let b := (bs.getD 0 0).toNat
  let c := (bs.getD 1 0).toNat
  { opcode := Fin.ofNat 16 b
    rsv3 := b / 16 % 2 = 1
    rsv2 := b / 32 % 2 = 1
    rsv1 := b / 64 % 2 = 1
    fin := b / 128 % 2 = 1
    payload := Fin.ofNat 128 c
    mask := c / 128 % 2 = 1 }

end WSFrameHead

/-- `WSFrameMessage`. -/
structure WSFrameMessage where
  opcode : ℤ := 0
  data : List UInt8 := []
  deriving DecidableEq, Repr

/-- The bytes of `byteswapOnLittleEndian(len)`. -/
def swappedBytes (k : ℕ) (v : BitVec (8 * k)) : List UInt8 := memBytes .little k (byteswap v)

/-- `byteswapOnLittleEndian(len)` of the variable with these bytes. -/
def ofSwappedBytes (k : ℕ) (bs : List UInt8) : BitVec (8 * k) := byteswap (ofMem .little k bs)

/-- `data[i] ^= mask[i % 4]` for all bytes of some data. -/
def wsMask (mask data : List UInt8) : List UInt8 := data.mapIdx fun i b => b ^^^ mask.getD (i % 4) 0

/-! ## Sending -/

/-- Calls of `writeFixSize` up to the first one that fails. -/
def writeAll : List (List UInt8) → Sink → Bool × Sink
  | [], k => (true, k)
  | d :: ds, k =>
    let r := writeFixSize d k
    if r.1 then writeAll ds r.2 else r

/-- The field `payload` for a size. -/
def wsPayload (size : ℕ) : ℕ := if size < 126 then size else if size < 65536 then 126 else 127

theorem wsPayload_lt (size : ℕ) : wsPayload size < 128 := by
  rw [wsPayload]
  split_ifs <;> omega

section
variable (client fin : Bool) (randValue : BitVec (8 * 4)) (msg : WSFrameMessage)

/-- The head of a message. -/
def wsHead : WSFrameHead where
  opcode := Fin.ofNat 16 (msg.opcode % 16).toNat
  fin := fin
  payload := ⟨wsPayload msg.data.length, wsPayload_lt _⟩
  mask := client

/-- The length in the form that a value of `payload` announces. -/
def wsLengthParts (size : ℕ) : List (List UInt8) :=
  if wsPayload size = 126 then [swappedBytes 2 (BitVec.ofNat _ size)]
  else if wsPayload size = 127 then [swappedBytes 8 (BitVec.ofNat _ size)]
  else []

/-- The buffers that `WSSendMessage` writes in front of the data. -/
def wsFront : List (List UInt8) :=
  [(wsHead client fin msg).bytes] ++ wsLengthParts msg.data.length ++
    if client then [memBytes .little 4 randValue] else []

/-- The data as it goes out. -/
def wsBody : List UInt8 :=
  if client then wsMask (memBytes .little 4 randValue) msg.data else msg.data

/-- `WSSendMessage`: the result, `none` for `-1` on a closed stream, and the way out. -/
def wsSendMessage (k : Sink) : Option ℤ × Sink :=
  let r := writeAll (wsFront client fin randValue msg ++ [wsBody client randValue msg]) k
  (if r.1 then some (toInt (msg.data.length + 2)) else none, r.2)

end

/-- A head with no data behind it. -/
def controlHead (opcode : Fin 16) : WSFrameHead := ⟨opcode, false, false, false, true, 0, false⟩

def wsPing (k : Sink) : Bool × Sink := writeFixSize (controlHead WSFrameHead.ping).bytes k

def wsPong (k : Sink) : Bool × Sink := writeFixSize (controlHead WSFrameHead.pong).bytes k

/-! ## Receiving -/

/-- The variables of `WSRecvMessage`, and its stream. -/
structure WsState where
  opcode : ℤ := 0
  data : List UInt8 := []
  curLen : ℤ := 0
  reads : Reads
  sink : Sink

inductive WsNext
  | closed
  | undefined
  | message (m : WSFrameMessage) (s : WsState)
  | again (s : WsState)

section
variable (client : Bool) (maxSize : UInt32)

/-- The length of a frame. -/
def wsLength (payload : ℕ) (rs : Reads) : Option ℕ × Reads :=
  if payload = 126 then
    let r := readFixSize 2 rs
    (r.1.map fun bs => (ofSwappedBytes 2 bs).toNat, r.2)
  else if payload = 127 then
    let r := readFixSize 8 rs
    (r.1.map fun bs => (ofSwappedBytes 8 bs).toNat, r.2)
  else (some payload, rs)

/-- The mask of a frame, zero without one. -/
def wsReadMask (mask : Bool) (rs : Reads) : Option (List UInt8) × Reads :=
  if mask then readFixSize 4 rs else (some [0, 0, 0, 0], rs)

/-- The variables behind a data frame. The string ends at `cur_len`, so the new bytes are behind
it. -/
def WsState.add (s : WsState) (h : WSFrameHead) (bytes : List UInt8) (rs : Reads) : WsState where
  opcode := if s.opcode = 0 ∧ h.opcode ≠ WSFrameHead.continueFrame then h.opcode else s.opcode
  data := s.data ++ bytes
  curLen := Int.bmod (s.curLen + bytes.length) (2 ^ 32)
  reads := rs
  sink := s.sink

/-- The data of a frame of some length. -/
def wsData (h : WSFrameHead) (length : ℕ) (s : WsState) (rs : Reads) : WsNext :=
  -- `cur_len + length` is computed as a `uint64_t`
  if (maxSize.toNat : ℤ) ≤ (s.curLen + length) % 2 ^ 64 then .closed
  else
    let m := wsReadMask h.mask rs
    match m.1 with
    | none => .closed
    | some mask =>
      if s.curLen < 0 then .undefined
      else
        let r := readFixSize length m.2
        match r.1 with
        | none => .closed
        | some bytes =>
          -- the largest `cur_len + i`
          if h.mask ∧ 2 ^ 31 ≤ s.curLen + length - 1 then .undefined
          else
            let s' := s.add h (if h.mask then wsMask mask bytes else bytes) r.2
            if h.fin then .message ⟨s'.opcode, s'.data⟩ s' else .again s'

/-- A round of the loop of `WSRecvMessage`. -/
def wsTurn (s : WsState) : WsNext :=
  let r := readFixSize 2 s.reads
  match r.1 with
  | none => .closed
  | some bs =>
    let h := WSFrameHead.ofBytes bs
    if h.opcode = WSFrameHead.ping then
      let w := wsPong s.sink
      if w.1 then .again { s with reads := r.2, sink := w.2 } else .closed
    else if h.opcode = WSFrameHead.pong then .again { s with reads := r.2 }
    else if h.opcode = WSFrameHead.continueFrame ∨ h.opcode = WSFrameHead.textFrame ∨
        h.opcode = WSFrameHead.binFrame then
      if !client && !h.mask then .closed
      else
        let l := wsLength h.payload r.2
        match l.1 with
        | none => .closed
        | some length => wsData maxSize h length s l.2
    else .again { s with reads := r.2 }

/-- How a call of `WSRecvMessage` ends, with the stream behind a message. -/
inductive WsResult
  | closed
  | undefined
  | message (m : WSFrameMessage) (reads : Reads) (sink : Sink)

/-- The loop, with a bound on its rounds. -/
def wsLoop : ℕ → WsState → WsResult
  | 0, _ => .closed
  | fuel + 1, s =>
    match wsTurn client maxSize s with
    | .closed => .closed
    | .undefined => .undefined
    | .message m s' => .message m s'.reads s'.sink
    | .again s' => wsLoop fuel s'

/-- `WSRecvMessage`: every round reads at least two bytes. -/
def wsRecvMessage (rs : Reads) (k : Sink) : WsResult :=
  wsLoop client maxSize (rs.flatten.length + 1) { reads := rs, sink := k }

end

end CoroutineScheduler.Http
