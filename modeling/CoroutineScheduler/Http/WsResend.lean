import CoroutineScheduler.Http.WsFrames

/-!
# The message object behind a send

`WSSendMessage` once more, with the object it is given: a client takes its mask into the data of the
object itself, as soon as the head and the length of the frame are out. `wsSend_eq` connects this
to `WSSendMessage` without the object.

`unchanged_iff` says when the object is the same behind every call of a sequence of calls on it, and
every call sends the same payload.
-/

namespace CoroutineScheduler.Http

open CoroutineScheduler.ByteArray

/-- A call of `WSSendMessage`: the role, the last flag, what `rand()` returns, and the stream. -/
structure Send where
  client : Bool
  fin : Bool
  randValue : BitVec (8 * 4)
  sink : Sink
  deriving DecidableEq

/-- `mask`. -/
def Send.mask (c : Send) : List UInt8 := memBytes .little 4 c.randValue

/-- The head and the length of the frame. -/
def Send.opening (c : Send) (msg : WSFrameMessage) : List (List UInt8) :=
  [(wsHead c.client c.fin msg).bytes] ++ wsLengthParts msg.data.length

/-- `WSSendMessage`: the result, the message object, and the stream. -/
def wsSend (c : Send) (msg : WSFrameMessage) : Option ℤ × WSFrameMessage × Sink :=
  let size := msg.data.length
  let r := writeAll (c.opening msg) c.sink
  if r.1 then
    let msg := if c.client then { msg with data := wsMask c.mask msg.data } else msg
    let w := writeAll ((if c.client then [c.mask] else []) ++ [msg.data]) r.2
    (if w.1 then some (toInt (size + 2)) else none, msg, w.2)
  else (none, msg, r.2)

/-- The message object behind each of some calls. -/
def messages (msg : WSFrameMessage) : List Send → List WSFrameMessage
  | [] => []
  | c :: cs => (wsSend c msg).2.1 :: messages (wsSend c msg).2.1 cs

/-- The payload that each of the calls sends, with the mask taken off. -/
def payloads (msg : WSFrameMessage) : List Send → List (List UInt8)
  | [] => []
  | c :: cs =>
    let body := wsBody c.client c.randValue msg
    (if c.client then wsMask c.mask body else body) :: payloads (wsSend c msg).2.1 cs

/-- Sending does not change the message, so each call sends the same payload. -/
def Unchanged (msg : WSFrameMessage) (cs : List Send) : Prop :=
  (∀ m ∈ messages msg cs, m = msg) ∧ ∀ p ∈ payloads msg cs, p = msg.data

/-- A call that leaves the message alone: by a server, on a stream that fails in front of the mask,
or with zeros in the bytes of the mask that meet the data. -/
def Send.Keeps (c : Send) (msg : WSFrameMessage) : Prop :=
  c.client = false ∨ (writeAll (c.opening msg) c.sink).1 = false ∨
    ∀ j < 4, j < msg.data.length → c.mask.getD j 0 = 0

instance (c : Send) (msg : WSFrameMessage) : Decidable (c.Keeps msg) := by
  unfold Send.Keeps
  infer_instance

section
variable {c : Send} {msg : WSFrameMessage} {cs : List Send}

theorem writeAll_append (ds es : List (List UInt8)) (k : Sink) :
    writeAll (ds ++ es) k =
      if (writeAll ds k).1 then writeAll es (writeAll ds k).2 else writeAll ds k := by
  induction ds generalizing k with
  | nil => rfl
  | cons d ds ih =>
    rw [List.cons_append, writeAll, writeAll]
    cases hd : (writeFixSize d k).1 with
    | true => exact ih _
    | false =>
      rw [if_neg Bool.false_ne_true, if_neg Bool.false_ne_true, hd]
      rfl

/-- Without the object this is `WSSendMessage`. -/
theorem wsSend_eq (c : Send) (msg : WSFrameMessage) :
    ((wsSend c msg).1, (wsSend c msg).2.2) = wsSendMessage c.client c.fin c.randValue msg c.sink := by
  have hparts : wsFront c.client c.fin c.randValue msg ++ [wsBody c.client c.randValue msg] =
      c.opening msg ++ ((if c.client then [c.mask] else []) ++
        [(if c.client then { msg with data := wsMask c.mask msg.data } else msg).data]) := by
    unfold wsFront wsBody Send.opening Send.mask
    cases c.client <;> simp
  simp only [wsSend, wsSendMessage, hparts, writeAll_append (c.opening msg)]
  cases hopen : (writeAll (c.opening msg) c.sink).1 with
  | true => rw [if_pos rfl, if_pos rfl]
  | false => simp [hopen]

/-- Only zeros in the mask leave a byte alone. -/
theorem wsMask_eq_self {mask data : List UInt8} :
    wsMask mask data = data ↔ ∀ j < 4, j < data.length → mask.getD j 0 = 0 := by
  have hxor : ∀ b m : UInt8, b ^^^ m = b ↔ m = 0 := fun b m =>
    ⟨fun h => by
      have hb := congrArg (b ^^^ ·) h
      rwa [← UInt8.xor_assoc, UInt8.xor_self, UInt8.zero_xor] at hb,
      fun h => by rw [h, UInt8.xor_zero]⟩
  unfold wsMask
  constructor
  · intro h j hj hlen
    have hget := congrArg (·[j]?) h
    simp only [List.getElem?_mapIdx, List.getElem?_eq_getElem hlen, Option.map_some,
      Nat.mod_eq_of_lt hj, Option.some.injEq] at hget
    exact (hxor _ _).1 hget
  · intro h
    apply List.ext_getElem?
    intro i
    rw [List.getElem?_mapIdx]
    rcases Nat.lt_or_ge i data.length with hlen | hlen
    · have hzero := h (i % 4) (Nat.mod_lt _ (by decide)) ((Nat.mod_le i 4).trans_lt hlen)
      rw [List.getElem?_eq_getElem hlen, Option.map_some, hzero, UInt8.xor_zero]
    · rw [List.getElem?_eq_none hlen, Option.map_none]

theorem wsSend_eq_self : (wsSend c msg).2.1 = msg ↔ c.Keeps msg := by
  unfold wsSend Send.Keeps
  dsimp only
  cases hopen : (writeAll (c.opening msg) c.sink).1 with
  | false => simp
  | true =>
    cases hclient : c.client with
    | false => simp
    | true =>
      rw [← wsMask_eq_self]
      simp only [if_true, Bool.true_eq_false, false_or]
      exact ⟨fun h => congrArg WSFrameMessage.data h, fun h => by rw [h]⟩

/-- A call sends the payload that the message has in front of it. -/
theorem payload_eq (c : Send) (msg : WSFrameMessage) :
    (if c.client then wsMask c.mask (wsBody c.client c.randValue msg)
      else wsBody c.client c.randValue msg) = msg.data := by
  unfold wsBody Send.mask
  split_ifs
  · exact wsMask_wsMask _ _
  · rfl

/-- The message is unchanged behind every call just if each of the calls keeps it. -/
theorem unchanged_iff (msg : WSFrameMessage) (cs : List Send) :
    Unchanged msg cs ↔ ∀ c ∈ cs, c.Keeps msg := by
  induction cs with
  | nil => exact iff_of_true ⟨nofun, nofun⟩ nofun
  | cons c cs ih =>
    rw [List.forall_mem_cons, ← ih]
    unfold Unchanged
    simp only [messages, payloads, List.forall_mem_cons, payload_eq]
    constructor
    · rintro ⟨⟨hself, hms⟩, -, hps⟩
      rw [hself] at hms hps
      exact ⟨wsSend_eq_self.1 hself, hms, hps⟩
    · rintro ⟨hkeeps, hms, hps⟩
      have hself := wsSend_eq_self.2 hkeeps
      rw [hself]
      exact ⟨⟨rfl, hms⟩, trivial, hps⟩

/-- A client sends `hi`, and the next call sends the masked bytes. -/
theorem not_unchanged_client :
    ¬ Unchanged ⟨1, [104, 105]⟩ [⟨true, true, 0x201, {}⟩, ⟨false, true, 0, {}⟩] := fun h =>
  absurd (h.2 [105, 107] (by decide +kernel)) (by decide)

end

end CoroutineScheduler.Http
