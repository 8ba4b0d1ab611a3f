import CoroutineScheduler.Http.WsFrames

/-!
# Control frames and empty frames

`WSRecvMessage` reads the head of a `PING` or `PONG` frame and goes on with the next head: the mask
and the payload of the frame stay in the stream. A length of zero is a failure of `readFixSize` and
of `writeFixSize`.

`transparent_iff`: between control frames of two bytes the messages are delivered exactly when all
data frames have data and their lengths fit. `wsSendMessage_empty`: an empty message is never sent.
-/

namespace CoroutineScheduler.Http

/-- A message of a peer, with control frames between its data frames. -/
structure PeerMessage where
  opcode : ℤ
  opcode_kind : opcode = 1 ∨ opcode = 2
  parts : List Part
  parts_ne : parts ≠ []

def PeerMessage.bytes (client : Bool) (m : PeerMessage) : List UInt8 :=
  partBytes client m.opcode m.parts

/-- The message that is to be delivered. -/
def PeerMessage.message (m : PeerMessage) : WSFrameMessage :=
  ⟨m.opcode, m.parts.flatMap fun p => p.data⟩

/-- Calls of `WSRecvMessage`, one after another: the messages, and the stream unless it was
closed. -/
def wsCalls (client : Bool) (maxSize : UInt32) :
    ℕ → Reads → Sink → List WSFrameMessage × Option (Reads × Sink)
  | 0, rs, k => ([], some (rs, k))
  | n + 1, rs, k =>
    match wsRecvMessage client maxSize rs k with
    | .message m rs' k' =>
      let r := wsCalls client maxSize n rs' k'
      (m :: r.1, r.2)
    | _ => ([], none)

/-- The messages of a peer are delivered, the stream is not closed, and what is behind them is left,
in whatever pieces the bytes arrive. -/
def Transparent (client : Bool) (maxSize : UInt32) (msgs : List PeerMessage) : Prop :=
  ∀ rs rest k, Solid rs → k.Open → rs.flatten = msgs.flatMap (PeerMessage.bytes client) ++ rest →
    ∃ rs' k', wsCalls (!client) maxSize msgs.length rs k =
        (msgs.map PeerMessage.message, some (rs', k')) ∧ rs'.flatten = rest

/-- All data frames have data, and the lengths are `int`s where the receiver has one. -/
def PeerMessage.Fits (client : Bool) (m : PeerMessage) : Prop :=
  (∀ p ∈ m.parts, p.data ≠ [] ∧ p.data.length < 2 ^ 31) ∧
    totalSize m.parts.dropLast < 2 ^ 31 ∧ (client → totalSize m.parts ≤ 2 ^ 31)

instance (client : Bool) : DecidablePred (PeerMessage.Fits client) := fun m =>
  inferInstanceAs (Decidable ((∀ p ∈ m.parts, p.data ≠ [] ∧ p.data.length < 2 ^ 31) ∧
    totalSize m.parts.dropLast < 2 ^ 31 ∧ (client → totalSize m.parts ≤ 2 ^ 31)))

section
variable {client : Bool} {maxSize : UInt32}

theorem PeerMessage.fits_iff {m : PeerMessage} (hsize : totalSize m.parts < maxSize.toNat) :
    m.Fits client ↔ Positions client 0 m.parts := by
  have hmax := maxSize.toNat_lt
  rw [positions_iff client m.parts_ne, Nat.zero_add, Nat.zero_add, Fits]
  refine and_congr_left fun _ => forall₂_congr fun p hp => ?_
  have hle : p.data.length ≤ totalSize m.parts :=
    List.single_le_sum (fun _ _ => Nat.zero_le _) _ (List.mem_map_of_mem hp)
  rw [toInt_pos_iff (by omega), List.length_pos_iff]

/-- A call on a message whose control frames have two bytes. -/
theorem wsRecvMessage_peer {m : PeerMessage} {rs : Reads} {k : Sink} {rest : List UInt8}
    (hsize : totalSize m.parts < maxSize.toNat) (hs : Solid rs) (hk : k.Open)
    (hbare : ∀ p ∈ m.parts, ∀ c ∈ p.controls, c.Bare client)
    (hbytes : rs.flatten = m.bytes client ++ rest) :
    (m.Fits client → ∃ rs' k', Solid rs' ∧ rs'.flatten = rest ∧ k'.Open ∧
        wsRecvMessage (!client) maxSize rs k = .message m.message rs' k') ∧
      (¬ m.Fits client → ∀ m' rs' k', wsRecvMessage (!client) maxSize rs k ≠ .message m' rs' k') := by
  have hstart : Counts maxSize { reads := rs, sink := k } (totalSize m.parts) :=
    ⟨(toInt_eq (by decide)).symm, (Nat.zero_add _).trans_lt hsize⟩
  rw [PeerMessage.fits_iff hsize]
  exact wsLoop_parts (s := { reads := rs, sink := k }) m.parts_ne hs hk hbytes (Or.inr m.opcode_kind)
    hbare hstart (Nat.lt_succ_self _)

/-- The calls on several such messages. -/
theorem wsCalls_peer {msgs : List PeerMessage} {rs : Reads} {k : Sink} {rest : List UInt8}
    (hsize : ∀ m ∈ msgs, totalSize m.parts < maxSize.toNat) (hs : Solid rs) (hk : k.Open)
    (hbare : ∀ m ∈ msgs, ∀ p ∈ m.parts, ∀ c ∈ p.controls, c.Bare client)
    (hbytes : rs.flatten = msgs.flatMap (PeerMessage.bytes client) ++ rest) :
    ((∀ m ∈ msgs, m.Fits client) → ∃ rs' k', wsCalls (!client) maxSize msgs.length rs k =
        (msgs.map PeerMessage.message, some (rs', k')) ∧ rs'.flatten = rest) ∧
      (¬ (∀ m ∈ msgs, m.Fits client) → (wsCalls (!client) maxSize msgs.length rs k).2 = none) := by
  induction msgs generalizing rs k with
  | nil =>
    refine ⟨fun _ => ⟨rs, k, rfl, hbytes⟩, fun hcon => ?_⟩
    exact absurd (List.forall_mem_nil _) hcon
  | cons m msgs ih =>
    obtain ⟨hm, hmsgs⟩ := List.forall_mem_cons.1 hsize
    obtain ⟨hc, hcs⟩ := List.forall_mem_cons.1 hbare
    rw [List.flatMap_cons, List.append_assoc] at hbytes
    obtain ⟨hgood, hbad⟩ := wsRecvMessage_peer hm hs hk hc hbytes
    rw [List.forall_mem_cons, List.length_cons, wsCalls]
    by_cases hfits : m.Fits client
    · obtain ⟨rs', k', hsolid, hrest, hopen, hmessage⟩ := hgood hfits
      obtain ⟨hall, hnone⟩ := ih hmsgs hsolid hopen hcs hrest
      rw [hmessage]
      constructor
      · rintro ⟨-, hmore⟩
        obtain ⟨rs₁, k₁, hcalls, hrest₁⟩ := hall hmore
        refine ⟨rs₁, k₁, ?_, hrest₁⟩
        simp only [hcalls, List.map_cons]
      · intro hcon
        exact hnone fun hmore => hcon ⟨hfits, hmore⟩
    · refine ⟨fun hcon => absurd hcon.1 hfits, fun _ => ?_⟩
      cases hcall : wsRecvMessage (!client) maxSize rs k with
      | message m' rs' k' => exact absurd hcall (hbad hfits m' rs' k')
      | closed | undefined => rfl

end

theorem writeAll_empty (ds : List (List UInt8)) (k : Sink) : (writeAll (ds ++ [[]]) k).1 = false := by
  have hzero : ¬ 0 < toInt ([] : List UInt8).length := by
    rw [toInt_eq (by decide)]
    decide
  induction ds generalizing k with
  | nil => simp only [List.nil_append, writeAll, writeFixSize, decide_eq_false hzero, Bool.false_and,
      Bool.false_eq_true, if_false]
  | cons d ds ih =>
    rw [List.cons_append, writeAll]
    split_ifs with h
    · exact ih _
    · simpa using h

/-- An empty message is not sent. -/
theorem wsSendMessage_empty (client fin : Bool) (randValue : BitVec (8 * 4)) (opcode : ℤ)
    (k : Sink) : (wsSendMessage client fin randValue ⟨opcode, []⟩ k).1 = none := by
  have hbody : wsBody client randValue ⟨opcode, []⟩ = [] :=
    List.eq_nil_of_length_eq_zero length_wsBody
  simp only [wsSendMessage, hbody, writeAll_empty, Bool.false_eq_true, if_false]

/-- Between control frames of two bytes the messages of a peer are delivered exactly when all data
frames have data and their lengths fit; and no call sends an empty message. -/
theorem transparent_iff (client : Bool) (maxSize : UInt32) (msgs : List PeerMessage)
    (hsize : ∀ m ∈ msgs, totalSize m.parts < maxSize.toNat)
    (hbare : ∀ m ∈ msgs, ∀ p ∈ m.parts, ∀ c ∈ p.controls, c.Bare client) :
    (Transparent client maxSize msgs ↔ ∀ m ∈ msgs, m.Fits client) ∧
      ∀ fin randValue opcode k, (wsSendMessage client fin randValue ⟨opcode, []⟩ k).1 = none := by
  refine ⟨⟨fun h => ?_, fun h rs rest k hs hk hbytes => ?_⟩, wsSendMessage_empty client⟩
  · -- a byte at a time
    have hsolid : Solid ((msgs.flatMap (PeerMessage.bytes client)).map fun b => [b]) := by
      rw [Solid, List.forall_mem_map]
      exact fun b _ => List.cons_ne_nil b []
    have hflat : ((msgs.flatMap (PeerMessage.bytes client)).map fun b => [b]).flatten =
        msgs.flatMap (PeerMessage.bytes client) ++ [] := by
      rw [← List.flatMap_def, List.flatMap_singleton', List.append_nil]
    have hk : Sink.Open {} := List.forall_mem_nil _
    by_contra hcon
    obtain ⟨rs', k', hcalls, -⟩ := h _ [] {} hsolid hk hflat
    have hnone := (wsCalls_peer hsize hsolid hk hbare hflat).2 hcon
    rw [hcalls] at hnone
    exact absurd hnone (Option.some_ne_none _)
  · exact (wsCalls_peer hsize hs hk hbare hbytes).1 h

/-- A text message of one fragment behind some control frames. -/
def shortMessage (controls : List Control) (data : List UInt8) : PeerMessage :=
  ⟨1, Or.inl rfl, [⟨⟨data, 0x04030201⟩, controls⟩], List.cons_ne_nil _ _⟩

/-- A `PING` and a `PONG` of a server, without payload, in front of a message. -/
theorem transparent_bare :
    Transparent false 33554432
      [shortMessage [⟨false, [], 0, by decide⟩, ⟨true, [], 0, by decide⟩] [104, 105]] :=
  (transparent_iff false 33554432 _ (by decide) (by decide)).1.2 (by decide)

/-- The mask of a client's `PING` is read as two heads, and so is the payload of a server's `PONG`; a
data frame of length zero closes the stream; and an empty message is not sent. -/
theorem control_not_skipped :
    ¬ Transparent true 33554432 [shortMessage [⟨false, [], 0, by decide⟩] [104, 105]] ∧
      ¬ Transparent false 33554432 [shortMessage [⟨true, [129, 0], 0, by decide⟩] [104, 105]] ∧
      ¬ Transparent false 33554432 [shortMessage [] []] ∧
      (wsSendMessage false true 0 ⟨1, []⟩ {}).1 = none := by
  have hlost : ∀ client m, PeerMessage.bytes client m ≠ [] →
      (wsCalls (!client) 33554432 1 [m.bytes client] {}).1 ≠ [m.message] →
      ¬ Transparent client 33554432 [m] := by
    intro client m hne hcalls h
    have hflat : [m.bytes client].flatten = [m].flatMap (PeerMessage.bytes client) ++ [] := by
      rw [List.flatten_cons, List.flatten_nil, List.flatMap_singleton]
    obtain ⟨rs', k', hcon, -⟩ :=
      h _ [] {} (List.forall_mem_singleton.2 hne) (List.forall_mem_nil _) hflat
    exact hcalls (congrArg Prod.fst hcon)
  exact ⟨hlost _ _ (by decide) (by decide +kernel), hlost _ _ (by decide) (by decide +kernel),
    hlost _ _ (by decide) (by decide +kernel), wsSendMessage_empty ..⟩

end CoroutineScheduler.Http
