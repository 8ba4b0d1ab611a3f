import CoroutineScheduler.Lib.Scan
import CoroutineScheduler.Http.Stream

/-!
# Receiving a header section

`HttpSession::recvRequest` and `HttpConnection::recvResponse` start with the same loop: read what
fits behind the bytes that are still in the buffer, run the machine over the buffer, move the bytes
it went over out of the buffer, and go on until the machine is in its final state. The loop is
embedded once, over a machine and over the handlers that its actions call; the socket comes back
with what the loop did not read.
-/

namespace CoroutineScheduler.Http

open Scan

/-- What a parser hangs into its machine: the assignments at the start of a call, the actions on
the buffer of the call, the action that breaks, and the two ways to fail. -/
structure Handlers (α σ : Type) where
  reset : σ → σ
  act : List UInt8 → ℕ → α → σ → σ
  breaks : α → Bool
  error : σ → Bool
  threw : σ → Bool

/-- The state of the loop: the `offset` bytes at the front of the buffer, the parser, the number of
bytes it went over so far, and the socket. -/
structure HeadState (α σ : Type) (m : Scanner α) where
  rest : List UInt8
  cs : m.State
  env : σ
  length : ℕ
  reads : Reads

inductive Turn (α σ : Type) (m : Scanner α)
  | closed
  | threw
  | done (s : HeadState α σ m)
  | again (s : HeadState α σ m)

/-- How the header section ended: `close()` with `nullptr`, an exception, or a complete one. -/
inductive Head (α σ : Type) (m : Scanner α)
  | closed
  | threw
  | done (s : HeadState α σ m)

section
variable {α σ : Type} {m : Scanner α} (H : Handlers α σ) (buffSize : ℕ)

/-- `execute(data, len)`. -/
def execute (buffer : List UInt8) (cs : m.State) (e : σ) : Halt α σ m :=
  exec m (H.act buffer) H.breaks 0 buffer cs (H.reset e)

/-- The read of a round: what fits behind the bytes in the buffer. -/
def HeadState.read (s : HeadState α σ m) : List UInt8 × Reads :=
  recv (buffSize - s.rest.length) s.reads

/-- The buffer behind that read. -/
def HeadState.buffer (s : HeadState α σ m) : List UInt8 := s.rest ++ (s.read buffSize).1

/-- The state behind the call of `execute` on that buffer. -/
def HeadState.past (s : HeadState α σ m) : HeadState α σ m :=
  let h := execute H (s.buffer buffSize) s.cs s.env
  ⟨(s.buffer buffSize).drop h.pos, h.cs, h.env, s.length + h.pos, (s.read buffSize).2⟩

/-- One round of the loop. -/
def headTurn (s : HeadState α σ m) : Turn α σ m :=
  let h := execute H (s.buffer buffSize) s.cs s.env
  let s' := s.past H buffSize
  if (s.read buffSize).1 = [] then .closed
  else if H.threw h.env then .threw
  else if h.stop = .failed ∨ H.error h.env then .closed
  else if s'.rest.length = buffSize then .closed
  else if m.final h.cs then .done s'
  else .again s'

/-- The loop, with a bound on its rounds. -/
def headLoop : ℕ → HeadState α σ m → Head α σ m
  | 0, _ => .closed
  | fuel + 1, s =>
    match headTurn H buffSize s with
    | .closed => .closed
    | .threw => .threw
    | .done s' => .done s'
    | .again s' => headLoop fuel s'

/-- The loop on a fresh parser: every round reads at least one byte. -/
def recvHead (m : Scanner α) (e : σ) (rs : Reads) : Head α σ m :=
  headLoop H buffSize (rs.flatten.length + 1) ⟨[], m.start, e, 0, rs⟩

variable {H buffSize} {s s' : HeadState α σ m} {fuel : ℕ}

theorem headTurn_eof (h : (s.read buffSize).1 = []) : headTurn H buffSize s = .closed := by
  simp only [headTurn, h, if_true]

section
variable (hread : (s.read buffSize).1 ≠ [])
  (hthrew : H.threw (execute H (s.buffer buffSize) s.cs s.env).env = false)
include hread hthrew

theorem headTurn_failed (h : (execute H (s.buffer buffSize) s.cs s.env).stop = .failed ∨
    H.error (execute H (s.buffer buffSize) s.cs s.env).env = true) :
    headTurn H buffSize s = .closed := by
  simp only [headTurn, if_neg hread, hthrew, Bool.false_eq_true, if_false, if_pos h]

/-- A round in which the call is fine and leaves some room in the buffer. -/
theorem headTurn_ok (hstop : (execute H (s.buffer buffSize) s.cs s.env).stop ≠ .failed)
    (herror : H.error (execute H (s.buffer buffSize) s.cs s.env).env = false)
    (hroom : (s.past H buffSize).rest.length ≠ buffSize) :
    headTurn H buffSize s =
      if m.final (execute H (s.buffer buffSize) s.cs s.env).cs then .done (s.past H buffSize)
      else .again (s.past H buffSize) := by
  simp only [headTurn, if_neg hread, hthrew, herror, hstop, Bool.false_eq_true, or_self, if_false,
    if_neg hroom]

end

/-- A round that does not fail has read something and is behind the call of `execute`. -/
theorem headTurn_past (h : headTurn H buffSize s = .done s' ∨ headTurn H buffSize s = .again s') :
    (s.read buffSize).1 ≠ [] ∧ s' = s.past H buffSize := by
  simp only [headTurn] at h
  split_ifs at h with hread
  all_goals simp_all

theorem execute_pos_le {buffer : List UInt8} {cs : m.State} {e : σ} :
    (execute H buffer cs e).pos ≤ buffer.length := by
  have h : (execute H buffer cs e).pos ≤ 0 + buffer.length := exec_pos_le
  rwa [Nat.zero_add] at h

/-- What is in the buffer of a round and what its read leaves are the bytes there were. -/
theorem buffer_append (buffSize : ℕ) (s : HeadState α σ m) :
    s.buffer buffSize ++ (s.read buffSize).2.flatten = s.rest ++ s.reads.flatten := by
  rw [HeadState.buffer, List.append_assoc, HeadState.read, recv_append]

theorem headLoop_done (h : headTurn H buffSize s = .done s') :
    headLoop H buffSize (fuel + 1) s = .done s' := by
  rw [headLoop, h]

/-- Between two states of the loop: the bytes the parser went over are gone, the others are in the
buffer or still unread. -/
structure Advances (s s' : HeadState α σ m) : Prop where
  length_le : s.length ≤ s'.length
  bytes : s'.rest ++ s'.reads.flatten = (s.rest ++ s.reads.flatten).drop (s'.length - s.length)
  solid : Solid s.reads → Solid s'.reads

theorem Advances.trans {s'' : HeadState α σ m} (h : Advances s s') (h' : Advances s' s'') :
    Advances s s'' := by
  refine ⟨h.length_le.trans h'.length_le, ?_, h'.solid ∘ h.solid⟩
  have hle := h.length_le
  have hle' := h'.length_le
  rw [h'.bytes, h.bytes, List.drop_drop,
    show s'.length - s.length + (s''.length - s'.length) = s''.length - s.length by omega]

theorem headTurn_advances
    (h : headTurn H buffSize s = .done s' ∨ headTurn H buffSize s = .again s') :
    Advances s s' := by
  obtain ⟨-, rfl⟩ := headTurn_past h
  refine ⟨Nat.le_add_right _ _, ?_, Solid.recv⟩
  have hle : (execute H (s.buffer buffSize) s.cs s.env).pos ≤ (s.buffer buffSize).length :=
    execute_pos_le
  rw [← buffer_append buffSize s]
  show _ = List.drop (s.length + _ - s.length) _
  rw [Nat.add_sub_cancel_left, List.drop_append_of_le_length hle]
  rfl

/-- A round that goes on leaves fewer unread bytes. -/
theorem headTurn_lt (h : headTurn H buffSize s = .again s') :
    s'.reads.flatten.length < s.reads.flatten.length := by
  obtain ⟨hread, rfl⟩ := headTurn_past (Or.inr h)
  have hlen := congrArg List.length (recv_append (buffSize - s.rest.length) s.reads)
  rw [List.length_append] at hlen
  have hpos := List.length_pos_of_ne_nil hread
  show (recv (buffSize - s.rest.length) s.reads).2.flatten.length < _
  rw [HeadState.read] at hpos
  omega

theorem headLoop_advances (h : headLoop H buffSize fuel s = .done s') : Advances s s' := by
  induction fuel generalizing s with
  | zero => cases h
  | succ fuel ih =>
    simp only [headLoop] at h
    split at h
    · cases h
    · cases h
    · next s₁ hturn =>
      cases h
      exact headTurn_advances (Or.inl hturn)
    · next s₁ hturn => exact (headTurn_advances (Or.inr hturn)).trans (ih h)

/-- What the start of a call and every action keep is kept by the loop. -/
theorem headLoop_keeps {P : σ → Prop} (hreset : ∀ e, P e → P (H.reset e))
    (hact : ∀ buffer q a e, P e → P (H.act buffer q a e)) (hs : P s.env)
    (h : headLoop H buffSize fuel s = .done s') : P s'.env := by
  induction fuel generalizing s with
  | zero => cases h
  | succ fuel ih =>
    have hturn : ∀ {s₁}, headTurn H buffSize s = .done s₁ ∨ headTurn H buffSize s = .again s₁ →
        P s₁.env := by
      intro s₁ h₁
      obtain ⟨-, rfl⟩ := headTurn_past h₁
      exact exec_keeps (hact _) (hreset _ hs)
    simp only [headLoop] at h
    split at h
    · cases h
    · cases h
    · next s₁ h₁ =>
      cases h
      exact hturn (Or.inl h₁)
    · next s₁ h₁ => exact ih (hturn (Or.inr h₁)) h

/-- The bytes in the buffer fit it. -/
theorem headLoop_rest_le (hs : s.rest.length ≤ buffSize)
    (h : headLoop H buffSize fuel s = .done s') : s'.rest.length ≤ buffSize := by
  induction fuel generalizing s with
  | zero => cases h
  | succ fuel ih =>
    have hturn : ∀ {s₁}, headTurn H buffSize s = .done s₁ ∨ headTurn H buffSize s = .again s₁ →
        s₁.rest.length ≤ buffSize := by
      intro s₁ h₁
      obtain ⟨-, rfl⟩ := headTurn_past h₁
      have hle := recv_length_le (buffSize - s.rest.length) s.reads
      simp only [HeadState.past, HeadState.buffer, HeadState.read, List.length_drop,
        List.length_append]
      omega
    simp only [headLoop] at h
    split at h
    · cases h
    · cases h
    · next s₁ h₁ =>
      cases h
      exact hturn (Or.inl h₁)
    · next s₁ h₁ => exact ih (hturn (Or.inr h₁)) h

/-- Nothing can be read into a buffer of no size. -/
theorem headLoop_no_buffer : headLoop H 0 fuel s = .closed := by
  cases fuel with
  | zero => rfl
  | succ fuel =>
    have hread : (s.read 0).1 = [] := by
      apply List.eq_nil_of_length_eq_zero
      have hle := recv_length_le (0 - s.rest.length) s.reads
      rw [HeadState.read]
      omega
    rw [headLoop, headTurn_eof hread]

/-! ## The loop and a single call -/

/-- The call of `execute` on all the bytes `pre ++ bytes`, from the byte behind `pre` on. -/
def restOfCall (H : Handlers α σ) (pre bytes : List UInt8) (cs : m.State) (w : σ) : Halt α σ m :=
  exec m (H.act (pre ++ bytes)) H.breaks pre.length bytes cs w

/-- A call that completes a header section. -/
def Complete (H : Handlers α σ) (h : Halt α σ m) : Prop := h.stop = .broke ∧ H.error h.env = false

/-- Every call that the loop makes meets `P`, until the loop ends. -/
def EachCall (H : Handlers α σ) (buffSize : ℕ) (P : List UInt8 → m.State → Prop) :
    ℕ → HeadState α σ m → Prop
  | 0, _ => True
  | fuel + 1, s =>
    P (s.buffer buffSize) s.cs ∧
      match headTurn H buffSize s with
      | .again s' => EachCall H buffSize P fuel s'
      | _ => True

/-- A call on a buffer that meets `P` leaves the parser as a call on all the bytes does, up to the
relation `B`. -/
structure Simulates (m : Scanner α) (H : Handlers α σ) (P : List UInt8 → m.State → Prop)
    (B : σ → σ → Prop) : Prop where
  call : ∀ {buffer cs e w} pre post, B e w → P buffer cs →
    Rel (fun _ => B) pre.length (execute H buffer cs e)
      (exec m (H.act (pre ++ (buffer ++ post))) H.breaks pre.length buffer cs w)
  error : ∀ {e w}, B e w → H.error w = H.error e
  threw : ∀ {e w}, B e w → H.threw e = false
  sticky : ∀ buffer q a e, H.error e = true → H.error (H.act buffer q a e) = true
  final_breaks : ∀ {s b s' as}, m.next s b = some (s', as) → m.final s' = true →
    as.any H.breaks = true

section
variable {P : List UInt8 → m.State → Prop} {B : σ → σ → Prop} {pre : List UInt8} {w : σ}

/-- A round of the loop against the call on all the bytes: both end, or the round goes on where the
call is behind the buffer of the round. -/
inductive Round (H : Handlers α σ) (buffSize : ℕ) (B : σ → σ → Prop) (pre : List UInt8) (w : σ)
    (s : HeadState α σ m) : Prop
  | closed (hturn : headTurn H buffSize s = .closed)
      (hcall : ¬ Complete H (restOfCall H pre s.reads.flatten s.cs w))
  | done (s' : HeadState α σ m) (hturn : headTurn H buffSize s = .done s')
      (hcall : Complete H (restOfCall H pre s.reads.flatten s.cs w))
      (henv : B s'.env (restOfCall H pre s.reads.flatten s.cs w).env)
      (hbytes : s'.rest ++ s'.reads.flatten =
        (pre ++ s.reads.flatten).drop (restOfCall H pre s.reads.flatten s.cs w).pos)
  | again (s' : HeadState α σ m) (w' : σ) (hturn : headTurn H buffSize s = .again s')
      (hrest : s'.rest = []) (hcs : m.final s'.cs = false) (henv : B s'.env w')
      (hbytes : s.reads.flatten = s.buffer buffSize ++ s'.reads.flatten)
      (hcall : restOfCall H pre s.reads.flatten s.cs w =
        restOfCall H (pre ++ s.buffer buffSize) s'.reads.flatten s'.cs w')

theorem headTurn_round (hsim : Simulates m H P B) (hbuf : 0 < buffSize) (hs : Solid s.reads)
    (hrest : s.rest = []) (hcs : m.final s.cs = false) (hP : P (s.buffer buffSize) s.cs)
    (hB : B s.env w)
    (hfinal : (restOfCall H pre s.reads.flatten s.cs w).stop = .broke →
      m.final (restOfCall H pre s.reads.flatten s.cs w).cs = true) :
    Round H buffSize B pre w s := by
  have hsplit : s.reads.flatten = s.buffer buffSize ++ (s.read buffSize).2.flatten := by
    rw [buffer_append, hrest, List.nil_append]
  have hsize : (s.buffer buffSize).length ≤ buffSize := by
    rw [HeadState.buffer, hrest, List.nil_append]
    exact (recv_length_le _ _).trans (Nat.sub_le _ _)
  by_cases hread : (s.read buffSize).1 = []
  · have hnil : s.reads.flatten = [] := by
      by_contra hne
      exact hs.recv_ne_nil (by rw [hrest]; exact hbuf) hne hread
    refine .closed (headTurn_eof hread) fun hcon => ?_
    rw [hnil] at hcon
    have hout : (restOfCall H pre [] s.cs w).stop = .out := rfl
    exact absurd (hout.symm.trans hcon.1) (by decide)
  have hrel := hsim.call pre (s.read buffSize).2.flatten hB hP
  have hthrew := hsim.threw hrel.env
  have hstop := hrel.stop_eq
  have hle : (execute H (s.buffer buffSize) s.cs s.env).pos ≤ (s.buffer buffSize).length :=
    execute_pos_le
  cases herr : H.error (execute H (s.buffer buffSize) s.cs s.env).env with
  | true =>
    refine .closed (headTurn_failed hread hthrew (Or.inr herr)) fun hcon => ?_
    have hsticky : H.error (restOfCall H pre s.reads.flatten s.cs w).env = true := by
      rw [restOfCall, hsplit]
      exact exec_append_keeps (P := fun e => H.error e = true) (hsim.sticky _)
        ((hsim.error hrel.env).trans herr)
    exact absurd (hcon.2.symm.trans hsticky) (by decide)
  | false =>
    cases hcase : (execute H (s.buffer buffSize) s.cs s.env).stop with
    | failed =>
      rw [hcase] at hstop
      refine .closed (headTurn_failed hread hthrew (Or.inl hcase)) fun hcon => ?_
      rw [restOfCall, hsplit, exec_append_stop (by rw [hstop]; exact nofun)] at hcon
      exact absurd (hstop.symm.trans hcon.1) (by decide)
    | broke =>
      rw [hcase] at hstop
      have hcall : restOfCall H pre s.reads.flatten s.cs w =
          exec m (H.act (pre ++ (s.buffer buffSize ++ (s.read buffSize).2.flatten))) H.breaks
            pre.length (s.buffer buffSize) s.cs w := by
        rw [restOfCall, hsplit, exec_append_stop (by rw [hstop]; exact nofun)]
      have hpos : 0 < (execute H (s.buffer buffSize) s.cs s.env).pos := exec_pos_broke hcase
      have hroom : (s.past H buffSize).rest.length ≠ buffSize := by
        simp only [HeadState.past, List.length_drop]
        omega
      have hfin : m.final (execute H (s.buffer buffSize) s.cs s.env).cs = true := by
        rw [← hrel.cs_eq, ← hcall]
        exact hfinal (by rw [hcall, hstop])
      refine .done (s.past H buffSize)
        ((headTurn_ok hread hthrew (by rw [hcase]; exact nofun) herr hroom).trans (if_pos hfin))
        ?_ ?_ ?_
      · rw [hcall]
        exact ⟨hstop, (hsim.error hrel.env).trans herr⟩
      · rw [hcall]
        exact hrel.env
      · rw [hcall, hrel.pos_eq, List.drop_length_add_append, hsplit,
          List.drop_append_of_le_length hle]
        rfl
    | out =>
      rw [hcase] at hstop
      have hpos : (execute H (s.buffer buffSize) s.cs s.env).pos =
          0 + (s.buffer buffSize).length := exec_pos_out hcase
      have hempty : (s.past H buffSize).rest = [] := by
        simp only [HeadState.past, hpos, Nat.zero_add, List.drop_length]
      have hcs' : m.final (execute H (s.buffer buffSize) s.cs s.env).cs = false := by
        refine Bool.eq_false_iff.2 fun hcon => ?_
        have hbroke : (execute H (s.buffer buffSize) s.cs s.env).stop = .broke :=
          exec_final_broke hsim.final_breaks hcs hcon
        exact absurd (hcase.symm.trans hbroke) (by decide)
      refine .again (s.past H buffSize) _ ((headTurn_ok hread hthrew (by rw [hcase]; exact nofun)
        herr ?_).trans (if_neg (by rw [hcs']; exact nofun))) hempty hcs' hrel.env hsplit ?_
      · rw [hempty]
        exact hbuf.ne
      · rw [restOfCall, hsplit, exec_append_out hstop, restOfCall, hrel.cs_eq,
          List.append_assoc, List.length_append]
        rfl

/-- As long as its calls meet `P`, the loop computes what a single call on all the bytes computes. -/
theorem headLoop_oneShot (hsim : Simulates m H P B) (hbuf : 0 < buffSize) (hs : Solid s.reads)
    (hfuel : s.reads.flatten.length < fuel) (hrest : s.rest = []) (hcs : m.final s.cs = false)
    (hP : EachCall H buffSize P fuel s) (hB : B s.env w)
    (hfinal : (restOfCall H pre s.reads.flatten s.cs w).stop = .broke →
      m.final (restOfCall H pre s.reads.flatten s.cs w).cs = true) :
    (Complete H (restOfCall H pre s.reads.flatten s.cs w) →
      ∃ s', headLoop H buffSize fuel s = .done s' ∧
        B s'.env (restOfCall H pre s.reads.flatten s.cs w).env ∧
        s'.rest ++ s'.reads.flatten =
          (pre ++ s.reads.flatten).drop (restOfCall H pre s.reads.flatten s.cs w).pos) ∧
      (¬ Complete H (restOfCall H pre s.reads.flatten s.cs w) →
        headLoop H buffSize fuel s = .closed) := by
  induction fuel generalizing pre w s with
  | zero => exact absurd hfuel (Nat.not_lt_zero _)
  | succ fuel ih =>
    obtain ⟨hcall, hnext⟩ := hP
    cases headTurn_round hsim hbuf hs hrest hcs hcall hB hfinal with
    | closed hturn hnot => exact ⟨fun hcon => absurd hcon hnot, fun _ => by rw [headLoop, hturn]⟩
    | done s' hturn hdone henv hbytes =>
      exact ⟨fun _ => ⟨s', headLoop_done hturn, henv, hbytes⟩, fun hcon => absurd hdone hcon⟩
    | again s' w' hturn hrest' hcs' henv hbytes hsame =>
      have hlt := headTurn_lt hturn
      have hloop : headLoop H buffSize (fuel + 1) s = headLoop H buffSize fuel s' := by
        rw [headLoop, hturn]
      rw [hturn] at hnext
      rw [hsame] at hfinal ⊢
      rw [hloop, hbytes, ← List.append_assoc]
      exact ih ((headTurn_advances (Or.inr hturn)).solid hs) (by omega) hrest' hcs' hnext henv
        hfinal

end

end

end CoroutineScheduler.Http
