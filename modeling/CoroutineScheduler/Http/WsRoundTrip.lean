import CoroutineScheduler.Http.WsFrames

/-!
# A fragmented message from sender to receiver

`fragments_iff`: the fragments of a message, sent by `WSSendMessage`, are received as that message
exactly when their lengths fit an `int` at the places where the source has one. The limit
`websocket.message.max_size` is a `uint32_t`, so it does not make sure of that.
-/

namespace CoroutineScheduler.Http

open CoroutineScheduler.ByteArray

/-- A message in fragments: the first one carries the opcode, the last one the `fin` bit. The result
is whether all calls succeeded. -/
def wsSendFragments (client : Bool) : ℤ → List Fragment → Sink → Bool × Sink
  | _, [], k => (true, k)
  | opcode, f :: fs, k =>
    let r := wsSendMessage client fs.isEmpty f.randValue ⟨opcode, f.data⟩ k
    if r.1.isSome then wsSendFragments client 0 fs r.2 else (false, r.2)

/-- Fragments without control frames between them. -/
def plain (fs : List Fragment) : List Part := fs.map fun f => ⟨f, []⟩

theorem plain_eq_nil {fs : List Fragment} : plain fs = [] ↔ fs = [] := List.map_eq_nil_iff

theorem forall_plain {fs : List Fragment} {P : List UInt8 → Prop} :
    (∀ p ∈ plain fs, P p.data) ↔ ∀ f ∈ fs, P f.data := List.forall_mem_map

theorem partBytes_plain_cons (client : Bool) (opcode : ℤ) (f : Fragment) (fs : List Fragment) :
    partBytes client opcode (plain (f :: fs)) =
      wsBytes client fs.isEmpty f.randValue ⟨opcode, f.data⟩ ++ partBytes client 0 (plain fs) := by
  rw [plain, List.map_cons, partBytes, List.isEmpty_map]
  rfl

theorem wsSendFragments_open {k : Sink} (hk : k.Open) (client : Bool) (opcode : ℤ)
    (fs : List Fragment) :
    ((wsSendFragments client opcode fs k).1 = true ↔ ∀ f ∈ fs, 0 < toInt f.data.length) ∧
      ((wsSendFragments client opcode fs k).1 = true →
        (wsSendFragments client opcode fs k).2.sent =
          k.sent ++ partBytes client opcode (plain fs)) := by
  induction fs generalizing opcode k with
  | nil => exact ⟨iff_of_true rfl (List.forall_mem_nil _), fun _ => (List.append_nil _).symm⟩
  | cons f fs ih =>
    obtain ⟨room, hroom, hsend⟩ :=
      wsSendMessage_open hk client fs.isEmpty f.randValue ⟨opcode, f.data⟩
    simp only [wsSendFragments, hsend, List.forall_mem_cons, partBytes_plain_cons]
    by_cases hpos : 0 < toInt f.data.length
    · obtain ⟨hiff, hsent⟩ := ih hroom 0
      rw [if_pos hpos, Option.isSome_some, if_pos rfl, ← List.append_assoc]
      exact ⟨hiff.trans (and_iff_right hpos).symm, hsent⟩
    · rw [if_neg hpos, Option.isSome_none]
      simp [hpos]

/-- A message in fragments arrives: all calls of the sender succeed, and a receiver in the opposite
role returns it from every socket that has its bytes, in whatever pieces, and leaves what is behind
them. -/
def Arrived (client : Bool) (opcode : ℤ) (fs : List Fragment) (maxSize : UInt32) (room : List ℕ) :
    Prop :=
  (wsSendFragments client opcode fs ⟨room, []⟩).1 = true ∧
    ∀ rs rest k, Solid rs → k.Open →
      rs.flatten = (wsSendFragments client opcode fs ⟨room, []⟩).2.sent ++ rest →
      ∃ rs' k', wsRecvMessage (!client) maxSize rs k =
          .message ⟨opcode, fs.flatMap Fragment.data⟩ rs' k' ∧ rs'.flatten = rest

/-- The variables of a call fit the limit at its start. -/
theorem counts_start {maxSize : UInt32} {n : ℕ} (h : n < maxSize.toNat) (rs : Reads) (k : Sink) :
    Counts maxSize { reads := rs, sink := k } n :=
  ⟨(toInt_eq (by decide)).symm, (Nat.zero_add n).trans_lt h⟩

/-- A message in fragments arrives exactly when each fragment is shorter than `2 ^ 31` bytes, those
in front of the last one are so together, and all of them are not longer if they are masked. -/
theorem fragments_iff (client : Bool) (opcode : ℤ) (fs : List Fragment) (maxSize : UInt32)
    (room : List ℕ) (hop : opcode = 1 ∨ opcode = 2) (hne : fs ≠ []) (hdata : ∀ f ∈ fs, f.data ≠ [])
    (hsize : totalSize (plain fs) < maxSize.toNat) (hroom : ∀ n ∈ room, n ≠ 0) :
    Arrived client opcode fs maxSize room ↔
      (∀ f ∈ fs, f.data.length < 2 ^ 31) ∧ totalSize (plain fs).dropLast < 2 ^ 31 ∧
        (client → totalSize (plain fs) ≤ 2 ^ 31) := by
  have hmax := maxSize.toNat_lt
  have hplain : plain fs ≠ [] := mt plain_eq_nil.1 hne
  have hlt : ∀ p ∈ plain fs, p.data.length < 2 ^ 32 := by
    intro p hp
    have hle : p.data.length ≤ totalSize (plain fs) :=
      List.single_le_sum (fun _ _ => Nat.zero_le _) _ (List.mem_map_of_mem hp)
    omega
  have hints : (∀ f ∈ fs, 0 < toInt f.data.length) ↔ ∀ f ∈ fs, f.data.length < 2 ^ 31 := by
    refine forall₂_congr fun f hf => ?_
    rw [toInt_pos_iff (hlt _ (List.mem_map_of_mem hf))]
    exact and_iff_right (List.length_pos_of_ne_nil (hdata f hf))
  have hpositions := positions_iff client hplain 0
  rw [Nat.zero_add, Nat.zero_add, forall_plain (P := fun d => 0 < toInt d.length), hints]
    at hpositions
  have hbare : ∀ p ∈ plain fs, ∀ c ∈ p.controls, c.Bare client := by
    rw [plain, List.forall_mem_map]
    exact fun f _ => List.forall_mem_nil _
  have hbody : ((plain fs).flatMap fun p => p.data) = fs.flatMap Fragment.data := by
    rw [plain, List.flatMap_map]
  have hopen : Sink.Open ⟨room, []⟩ := hroom
  obtain ⟨hall, hsent⟩ := wsSendFragments_open hopen client opcode fs
  rw [hints] at hall
  rw [← hpositions]
  constructor
  · rintro ⟨hsend, hrecv⟩
    rw [hsent hsend, List.nil_append] at hrecv
    by_contra hcon
    have hpiece : Solid [partBytes client opcode (plain fs)] := by
      obtain ⟨f, fs', rfl⟩ := List.exists_cons_of_ne_nil hne
      have hpos := length_wsBytes_pos client fs'.isEmpty f.randValue ⟨opcode, f.data⟩
      refine List.forall_mem_singleton.2 (List.ne_nil_of_length_pos ?_)
      rw [partBytes_plain_cons, List.length_append]
      omega
    have hflat : [partBytes client opcode (plain fs)].flatten =
        partBytes client opcode (plain fs) ++ [] := by
      rw [List.flatten_cons, List.flatten_nil]
    have hk : Sink.Open {} := List.forall_mem_nil _
    obtain ⟨rs', k', hmessage, -⟩ := hrecv _ [] {} hpiece hk hflat
    exact (wsLoop_parts hplain hpiece hk hflat (Or.inr hop) hbare (counts_start hsize _ {})
      (Nat.lt_succ_self _)).2 hcon _ _ _ hmessage
  · intro hpos
    have hsend := hall.2 (hpositions.1 hpos).1
    refine ⟨hsend, fun rs rest k hs hk hbytes => ?_⟩
    rw [hsent hsend, List.nil_append] at hbytes
    obtain ⟨rs', k', -, hrest, -, hmessage⟩ := (wsLoop_parts hplain hs hk hbytes (Or.inr hop) hbare
      (counts_start hsize rs k) (Nat.lt_succ_self _)).1 hpos
    rw [hbody] at hmessage
    exact ⟨rs', k', hmessage, hrest⟩

/-- Two masked fragments, written in three pieces. -/
theorem fragments_hello :
    Arrived true 1 [⟨[104, 101], 0x01020304⟩, ⟨[108, 108, 111], 0xF0F1F2F3⟩] 33554432 [1, 3] :=
  (fragments_iff true 1 _ 33554432 [1, 3] (Or.inl rfl) (by decide) (by decide) (by decide)
    (by decide)).2 ⟨by decide, by decide, fun _ => by decide⟩

/-- The call of the sender fails on a fragment of `2 ^ 31` bytes: their number is negative as an
`int`. -/
theorem not_arrived_large {d : List UInt8} (h : d.length = 2 ^ 31) (maxSize : UInt32) :
    ¬ Arrived false 2 [⟨d, 0⟩] maxSize [] := by
  rintro ⟨hsend, -⟩
  have hopen : Sink.Open ⟨[], []⟩ := List.forall_mem_nil _
  have hall := (wsSendFragments_open hopen false 2 [⟨d, 0⟩]).1.1 hsend
  have hpos : 0 < toInt d.length := hall ⟨d, 0⟩ (List.mem_singleton_self _)
  have hneg : toInt d.length < 0 := toInt_neg (by omega) (by omega)
  omega

theorem totalSize_plain_singleton (d : List UInt8) (v : BitVec (8 * 4)) :
    totalSize (plain [⟨d, v⟩]) = d.length := by
  rw [plain, List.map_singleton, totalSize_cons]
  rfl

/-- A limit above `2 ^ 31` allows a fragment of `2 ^ 31` bytes, which does not arrive. -/
theorem large_fragment_lost :
    totalSize (plain [⟨List.replicate (2 ^ 31) 0, 0⟩]) < (4294967295 : UInt32).toNat ∧
      ¬ Arrived false 2 [⟨List.replicate (2 ^ 31) 0, 0⟩] 4294967295 [] := by
  have hlen : (List.replicate (2 ^ 31) (0 : UInt8)).length = 2 ^ 31 := List.length_replicate
  generalize List.replicate (2 ^ 31) (0 : UInt8) = d at hlen ⊢
  refine ⟨?_, not_arrived_large hlen _⟩
  rw [totalSize_plain_singleton, hlen]
  decide

end CoroutineScheduler.Http
