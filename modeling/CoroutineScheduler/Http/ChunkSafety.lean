import CoroutineScheduler.Http.Connection

/-!
# The arithmetic of the chunk loop

`content_len` is what `strtol` makes of the digits in a size line, cut to an `int`, and `-1` behind a
header section that has no size line. `safe_iff`: the operations on lengths in a call of
`recvResponse` are all in range exactly when in every round the size line in the buffer has a size
that is at least zero and leaves room for the two bytes behind the data.
-/

namespace CoroutineScheduler.Http

open Scan

/-- An operation is in range: a length that is used is not negative, an `int` does not overflow,
`append` takes no more than there is in the buffer, `memmove` and `len` stay inside it, and `resize`
does not go below zero. -/
def ChunkOp.Safe (buffSize : ℕ) : ChunkOp → Prop
  | .use c => 0 ≤ c
  | .int v => -2 ^ 31 ≤ v ∧ v < 2 ^ 31
  | .append n k => 0 ≤ n ∧ n ≤ k
  | .move i n => 0 ≤ i ∧ 0 ≤ n ∧ i + n ≤ buffSize
  | .len v => 0 ≤ v ∧ v ≤ buffSize
  | .size v => 0 ≤ v

instance (buffSize : ℕ) : DecidablePred (ChunkOp.Safe buffSize)
  | .use c => inferInstanceAs (Decidable (0 ≤ c))
  | .int v => inferInstanceAs (Decidable (-2 ^ 31 ≤ v ∧ v < 2 ^ 31))
  | .append n k => inferInstanceAs (Decidable (0 ≤ n ∧ n ≤ k))
  | .move i n => inferInstanceAs (Decidable (0 ≤ i ∧ 0 ≤ n ∧ i + n ≤ buffSize))
  | .len v => inferInstanceAs (Decidable (0 ≤ v ∧ v ≤ buffSize))
  | .size v => inferInstanceAs (Decidable (0 ≤ v))

/-- A size with which the loop can compute. -/
def InRange (c : ℤ) : Prop := 0 ≤ c ∧ c + 2 < 2 ^ 31

/-- What the loops keep: the bytes in the buffer fit it; while data is read directly, what is left
is an `int` above zero, and the body will have the two bytes that are cut off again. -/
def LoopInv (buffSize : ℕ) : Phase → ChunkState → Prop
  | .line _, s => s.buf.length ≤ buffSize
  | .direct left, s =>
    s.buf.length ≤ buffSize ∧ 0 < left ∧ left < 2 ^ 31 ∧ 2 ≤ s.body.length + left

/-- The parser completes a size line in the buffer of a round. -/
def Completes (M : ResponseMachine) (buffSize : ℕ) (first : Bool) (s : ChunkState) : Prop :=
  (lineReads first s → (lineRead buffSize first s).1 ≠ []) ∧
    (lineCall M buffSize first s).env.error = 0 ∧ M.final (lineCall M buffSize first s).cs = true

/-- The size line in the buffer of a round has a size in range. -/
def Phase.Fits (M : ResponseMachine) (buffSize : ℕ) : Phase → ChunkState → Prop
  | .line first, s =>
    Completes M buffSize first s → InRange (lineCall M buffSize first s).env.contentLen
  | .direct _, _ => True

/-- In all rounds of a run the size lines have sizes in range. -/
def SizesFit (M : ResponseMachine) (buffSize : ℕ) : ℕ → Phase → ChunkState → Prop
  | 0, _, _ => True
  | fuel + 1, p, s =>
    p.Fits M buffSize s ∧
      match (chunkStep M buffSize p s).next with
      | .go p' s' => SizesFit M buffSize fuel p' s'
      | _ => True

/-- A step is in range exactly when `P` holds, and then the invariant holds behind it. -/
structure StepSafe (buffSize : ℕ) (P : Prop) (t : ChunkStep) : Prop where
  iff : (∀ op ∈ t.ops, op.Safe buffSize) ↔ P
  next : P → ∀ p s, t.next = .go p s → LoopInv buffSize p s

section
variable {M : ResponseMachine} {buffSize : ℕ} {s : ChunkState}

theorem chunkDone_inv (h : s.buf.length ≤ buffSize) {p : Phase} {s' : ChunkState}
    (hgo : chunkDone s = .go p s') : LoopInv buffSize p s' := by
  simp only [chunkDone] at hgo
  split_ifs at hgo
  cases hgo
  exact h

/-- The test that follows a size line uses the size and adds two to it. -/
theorem StepSafe.ofSize {c : ℤ} {more : List ChunkOp} {next : ChunkNext}
    (hmore : InRange c → ∀ op ∈ more, op.Safe buffSize)
    (hnext : InRange c → ∀ p s, next = .go p s → LoopInv buffSize p s) :
    StepSafe buffSize (InRange c) ⟨.use c :: .int (c + 2) :: more, next⟩ := by
  refine ⟨?_, hnext⟩
  rw [List.forall_mem_cons, List.forall_mem_cons]
  constructor
  · rintro ⟨huse, hint, -⟩
    exact ⟨huse, hint.2⟩
  · intro hc
    refine ⟨hc.1, ⟨?_, hc.2⟩, hmore hc⟩
    have hpos := hc.1
    omega

theorem chunkData_safe (hb : buffSize < 2 ^ 31) (hs : s.buf.length ≤ buffSize) :
    StepSafe buffSize (InRange s.env.contentLen) (chunkData s) := by
  simp only [chunkData, List.cons_append, List.nil_append]
  split_ifs with hover hle hneg
  · refine .ofSize nofun ?_
    exact fun hc => absurd hc.2 (not_lt.2 hover)
  · refine .ofSize ?_ ?_
    · exact fun hc => absurd hc.1 (not_le.2 hneg)
    · exact fun hc => absurd hc.1 (not_le.2 hneg)
  · refine .ofSize ?_ ?_
    · rintro ⟨hpos, hlt⟩
      simp only [List.forall_mem_cons, List.not_mem_nil, false_imp_iff, implies_true, and_true,
        ChunkOp.Safe]
      exact ⟨hpos, ⟨hpos, by omega⟩, hpos, by omega, by omega, by omega, hpos, by omega,
        by omega⟩
    · rintro - p s' hgo
      refine chunkDone_inv ?_ hgo
      rw [List.length_drop]
      omega
  · refine .ofSize ?_ ?_
    · rintro ⟨hpos, hlt⟩
      simp only [List.forall_mem_cons, List.not_mem_nil, false_imp_iff, implies_true, and_true,
        ChunkOp.Safe]
      exact ⟨by omega, hpos, by omega, by omega⟩
    · rintro ⟨hpos, hlt⟩ p s' ⟨rfl, rfl⟩
      simp only [LoopInv, List.length_nil, List.length_append]
      omega

/-- A step in range, under a condition that holds. -/
theorem StepSafe.ofOps {P : Prop} {ops : List ChunkOp} {next : ChunkNext} (hP : P)
    (hops : ∀ op ∈ ops, op.Safe buffSize)
    (hnext : ∀ p s, next = .go p s → LoopInv buffSize p s) : StepSafe buffSize P ⟨ops, next⟩ :=
  ⟨iff_of_true hops hP, fun _ => hnext⟩

theorem StepSafe.closed {P : Prop} {ops : List ChunkOp} (hP : P)
    (hops : ∀ op ∈ ops, op.Safe buffSize) : StepSafe buffSize P ⟨ops, .closed⟩ := by
  refine .ofOps hP hops ?_
  rintro p s ⟨⟩

/-- The buffer behind the read of a round. -/
theorem lineRead_length_le (hs : s.buf.length ≤ buffSize) (first : Bool) :
    (s.buf ++ (lineRead buffSize first s).1).length ≤ buffSize := by
  rw [lineRead]
  split_ifs
  · have hle := recv_length_le (buffSize - s.buf.length) s.reads
    rw [List.length_append]
    omega
  · rwa [List.append_nil]

/-- A call that completes a size line has gone over some bytes and did not fail. -/
theorem Completes.broke {first : Bool} (h : Completes M buffSize first s) :
    (lineCall M buffSize first s).stop = .broke := by
  refine exec_final_broke ?_ M.start_not_final h.2.2
  intro cs b cs' as hnext hfinal
  rw [List.any_eq_true]
  exact ⟨.done, M.final_done hnext hfinal, rfl⟩

theorem lineStep_safe (hb : buffSize < 2 ^ 31) (hs : s.buf.length ≤ buffSize) (first : Bool) :
    StepSafe buffSize (Phase.Fits M buffSize (.line first) s) (lineStep M buffSize first s) := by
  have hlen := lineRead_length_le hs first
  have hrest : ((s.buf ++ (lineRead buffSize first s).1).drop
      (lineCall M buffSize first s).pos).length ≤ buffSize := by
    rw [List.length_drop]
    omega
  have hlens : ∀ op ∈ [ChunkOp.len (s.buf ++ (lineRead buffSize first s).1).length,
      ChunkOp.len ((s.buf ++ (lineRead buffSize first s).1).drop
        (lineCall M buffSize first s).pos).length], op.Safe buffSize := by
    simp only [List.forall_mem_cons, List.not_mem_nil, false_imp_iff, implies_true, and_true,
        ChunkOp.Safe]
    exact ⟨by omega, by omega⟩
  have hfirst := hlens _ (List.mem_cons_self ..)
  simp only [lineStep, Phase.Fits]
  split_ifs with hread hfailed hfull hfinal
  · refine .closed ?_ (List.forall_mem_nil _)
    exact fun hcon => absurd hread.2 (hcon.1 hread.1)
  · refine .closed ?_ (List.forall_mem_singleton.2 hfirst)
    intro hcon
    rcases hfailed with hstop | herror
    · exact absurd (hcon.broke.symm.trans hstop) (by decide)
    · exact absurd hcon.2.1 herror
  · refine .closed ?_ hlens
    intro hcon
    have hpos : 0 < (lineCall M buffSize first s).pos := exec_pos_broke hcon.broke
    have hle : (lineCall M buffSize first s).pos ≤ _ := execute_pos_le
    rw [List.length_drop] at hfull
    omega
  · have hdata := chunkData_safe hb hrest (s := ⟨(s.buf ++ (lineRead buffSize first s).1).drop
      (lineCall M buffSize first s).pos, s.body, (lineCall M buffSize first s).env,
      (lineRead buffSize first s).2⟩)
    have hcomplete : Completes M buffSize first s := by
      refine ⟨fun hr hnil => hread ⟨hr, hnil⟩, ?_, hfinal⟩
      by_contra herror
      exact hfailed (Or.inr herror)
    refine ⟨?_, fun hfits => hdata.next (hfits hcomplete)⟩
    rw [List.forall_mem_append, hdata.iff]
    exact ⟨fun h _ => h.2, fun h => ⟨hlens, h hcomplete⟩⟩
  · refine .ofOps ?_ hlens ?_
    · exact fun hcon => absurd hcon.2.2 hfinal
    · rintro p s' ⟨rfl, rfl⟩
      exact hrest

theorem directStep_safe (left : ℤ) (hb : buffSize < 2 ^ 31)
    (hinv : LoopInv buffSize (.direct left) s) :
    StepSafe buffSize True (directStep buffSize left s) := by
  obtain ⟨hs, hpos, hlt, hsize⟩ := hinv
  have hle := recv_length_le (min left.toNat buffSize) s.reads
  simp only [directStep]
  generalize recv (min left.toNat buffSize) s.reads = r at hle ⊢
  have hread : ∀ op ∈ [ChunkOp.append r.1.length r.1.length, ChunkOp.int (left - r.1.length)],
      op.Safe buffSize := by
    simp only [List.forall_mem_cons, List.not_mem_nil, false_imp_iff, implies_true, and_true,
        ChunkOp.Safe]
    exact ⟨by omega, by omega⟩
  split_ifs with hread' hleft hshort
  · exact .closed trivial (List.forall_mem_nil _)
  · refine .ofOps trivial hread ?_
    rintro p s' ⟨rfl, rfl⟩
    refine ⟨hs, hleft, by omega, ?_⟩
    rw [List.length_append]
    omega
  · rw [List.length_append] at hshort
    omega
  · refine .ofOps trivial ?_ fun p s' hgo => chunkDone_inv (Nat.zero_le _) hgo
    rw [List.forall_mem_append, List.forall_mem_append]
    refine ⟨⟨hread, ?_⟩, ?_⟩
    · simp only [List.forall_mem_singleton, ChunkOp.Safe]
      omega
    · simp only [List.forall_mem_singleton, ChunkOp.Safe]
      omega

theorem chunkStep_safe {p : Phase} (hb : buffSize < 2 ^ 31) (hinv : LoopInv buffSize p s) :
    StepSafe buffSize (p.Fits M buffSize s) (chunkStep M buffSize p s) := by
  cases p with
  | line first => exact lineStep_safe hb hinv first
  | direct left => exact directStep_safe left hb hinv

/-- Along a run: in range as long as the sizes are. -/
theorem chunkRun_safe {p : Phase} {fuel : ℕ} (hb : buffSize < 2 ^ 31)
    (hinv : LoopInv buffSize p s) :
    (∀ op ∈ (chunkRun M buffSize fuel p s).ops, op.Safe buffSize) ↔
      SizesFit M buffSize fuel p s := by
  induction fuel generalizing p s with
  | zero => exact iff_of_true nofun trivial
  | succ fuel ih =>
    have hstep := chunkStep_safe (M := M) hb hinv
    simp only [chunkRun, SizesFit]
    cases hnext : (chunkStep M buffSize p s).next with
    | closed | threw | overflow | done s' => simpa only [and_true] using hstep.iff
    | go p' s' =>
      simp only [List.forall_mem_append, hstep.iff]
      exact and_congr_right fun hfits => ih (hstep.next hfits p' s' hnext)

theorem finishResponse_chunked_ops {cast : List UInt8 → Option UInt64}
    {h : HeadState ResponseAction ResponseParser M.toScanner} :
    (finishResponse M buffSize cast h).ops =
      if h.env.chunked then (recvChunks M buffSize h).ops else [] := by
  simp only [finishResponse]
  split_ifs
  · split <;> rfl
  · split <;> rfl
  · rfl

end

end CoroutineScheduler.Http
