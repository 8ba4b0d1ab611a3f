import Mathlib.Data.List.TakeWhile
import CoroutineScheduler.Http.Connection

/-!
# Decoding a chunked response

`HttpResponseParser::execute` initialises its parser anew for every call of the chunk loop, and the
header loop starts every call with its registers at zero. A size line that is not in the buffer as
a whole is therefore read without its front, and so is the version of a response.

1. `execute_sizeLine`: a size line at the front of the buffer.
2. `chunkRun_direct`: data is read directly, in whatever pieces it comes.
3. `recvHead_response`: the header section, in reads that do not cut the version.
4. `chunks_decoded`: with all size lines whole, the body is the concatenation of the chunks.
-/

namespace CoroutineScheduler.Http

open Scan Splice

/-! ## Size lines -/

section
variable {b : UInt8} {digits tail : List UInt8}

theorem not_isspace_of_xdigit (h : xdigit b = true) : isspace b = false := by
  have hne : b ≠ 32 := xdigit_ne h (by decide)
  have hge : 48 ≤ b.toNat := by
    by_contra hlt
    simp only [xdigit, digitValue, decide_eq_true_eq, UInt8.le_iff_toNat_le,
      UInt8.reduceToNat] at h
    split_ifs at h <;> omega
  simp only [isspace, Bool.or_eq_false_iff, beq_eq_false_iff_ne, Bool.and_eq_false_iff,
    decide_eq_false_iff_not, UInt8.le_iff_toNat_le, UInt8.reduceToNat]
  exact ⟨hne, Or.inr (by omega)⟩

/-- Behind a hexadecimal digit there is no `x` of a `0x`, in digits that end with a carriage
return. -/
theorem stripHex_digits {d : UInt8} {ds : List UInt8} (hex : ∀ b ∈ ds, xdigit b = true) :
    stripHex 16 (d :: ds ++ 13 :: tail) = d :: ds ++ 13 :: tail := by
  have hsecond : ∃ x, (d :: ds ++ 13 :: tail)[1]? = some x ∧ x ≠ 120 ∧ x ≠ 88 := by
    cases ds with
    | nil => exact ⟨13, rfl, by decide, by decide⟩
    | cons x ds =>
      have hx := hex x (List.mem_cons_self ..)
      exact ⟨x, rfl, xdigit_ne hx (by decide), xdigit_ne hx (by decide)⟩
  obtain ⟨x, hx, hne, hne'⟩ := hsecond
  rw [stripHex, if_neg]
  rintro ⟨-, -, hcon | hcon, -⟩
  · exact hne (Option.some.inj (hx.symm.trans hcon))
  · exact hne' (Option.some.inj (hx.symm.trans hcon))

/-- `strtol` on the digits of a size line. -/
theorem strtol_hex (hne : digits ≠ []) (hex : ∀ b ∈ digits, xdigit b = true) :
    strtol 16 (digits ++ 13 :: tail) = min (2 ^ 63 - 1) (digitsValue 16 digits : ℤ) := by
  have hvalue : digitsValue 16 (digits ++ 13 :: tail) = digitsValue 16 digits := by
    have hstop : ¬ digitValue 13 < 16 := by decide
    have hall : ∀ b ∈ digits, decide (digitValue b < 16) = true := hex
    rw [digitsValue, digitsValue, List.takeWhile_append_of_pos hall,
      List.takeWhile_cons_of_neg (by simpa using hstop), List.append_nil,
      List.takeWhile_eq_self_iff.2 hall]
  obtain ⟨d, ds, rfl⟩ := List.exists_cons_of_ne_nil hne
  have hd := hex d (List.mem_cons_self ..)
  have hspace : (d :: ds ++ 13 :: tail).dropWhile isspace = d :: ds ++ 13 :: tail := by
    rw [List.cons_append, List.dropWhile_cons, not_isspace_of_xdigit hd]
    rfl
  have hminus : (d :: ds ++ 13 :: tail).head? ≠ some 45 := fun h =>
    xdigit_ne hd (by decide) (Option.some.inj h)
  have hplus : (d :: ds ++ 13 :: tail).head? ≠ some 43 := fun h =>
    xdigit_ne hd (by decide) (Option.some.inj h)
  simp only [strtol, hspace, if_neg hminus, if_neg hplus]
  rw [stripHex_digits fun b hb => hex b (List.mem_cons_of_mem _ hb), hvalue]

theorem longToInt_eq {v : ℤ} (h : 0 ≤ v) (hlt : v < 2 ^ 31) : longToInt v = v :=
  Int.bmod_eq_of_le (by norm_num; omega) (by norm_num; omega)

theorem exec_digits {M : ResponseMachine} {σ : Type} {act : ℕ → ResponseAction → σ → σ}
    {breaks : ResponseAction → Bool} {p : ℕ} {e : σ} (hex : ∀ b ∈ digits, xdigit b = true) :
    exec M.toScanner act breaks p (digits ++ tail) M.size e =
      exec M.toScanner act breaks (p + digits.length) tail M.size e := by
  induction digits generalizing p with
  | nil => rfl
  | cons d ds ih =>
    have hd := hex d (List.mem_cons_self ..)
    rw [List.cons_append, exec, M.size_digit d hd]
    simp only [List.any_nil, Bool.false_eq_true, if_false, List.foldl_nil]
    rw [ih fun b hb => hex b (List.mem_cons_of_mem _ hb), List.length_cons,
      show p + 1 + ds.length = p + (ds.length + 1) by omega]

/-- A size line at the front of the buffer: the parser stops behind it with the size. -/
theorem execute_sizeLine {M : ResponseMachine} {e : ResponseParser} {n : ℕ} (tail : List UInt8)
    (hne : digits ≠ []) (hex : ∀ b ∈ digits, xdigit b = true) (hn : digitsValue 16 digits = n)
    (hlt : n < 2 ^ 31) :
    execute responseHandlers (digits ++ 13 :: 10 :: tail) M.start e =
      ⟨M.sized, { e.reset with chunked := true, contentLen := n, chunksDone := (n : ℤ) ≤ 0 },
        digits.length + 2, .broke⟩ := by
  have hsize : longToInt (strtol 16 (digits ++ 13 :: 10 :: tail)) = n := by
    rw [strtol_hex hne hex, hn, longToInt_eq (by omega) (by omega)]
    omega
  have hcall : ∀ buffer, exec M.toScanner (responseHandlers.act buffer) responseHandlers.breaks 0
      (digits ++ 13 :: 10 :: tail) M.start e.reset =
      ⟨M.sized, { e.reset with
          chunked := true
          contentLen := longToInt (strtol 16 buffer)
          chunksDone := longToInt (strtol 16 buffer) ≤ 0 },
        digits.length + 2, .broke⟩ := by
    intro buffer
    obtain ⟨d, ds, rfl⟩ := List.exists_cons_of_ne_nil hne
    have hd := hex d (List.mem_cons_self ..)
    rw [List.cons_append, exec, M.start_digit d hd]
    simp only [responseHandlers, List.any_cons, List.any_nil, List.foldl_cons, List.foldl_nil,
      reduceCtorEq, decide_false, Bool.or_self, Bool.false_eq_true, if_false]
    rw [exec_digits fun b hb => hex b (List.mem_cons_of_mem _ hb), exec, M.size_cr]
    simp only [List.any_cons, List.any_nil, List.foldl_cons, List.foldl_nil,
      reduceCtorEq, decide_false, Bool.or_self, Bool.false_eq_true, if_false]
    rw [exec, M.size_lf]
    simp only [List.any_cons, List.any_nil, List.foldl_cons, List.foldl_nil, decide_true,
      Bool.or_false, if_true, ResponseParser.act, List.length_cons, List.drop_zero]
    rw [show 0 + 1 + ds.length + 1 + 1 = ds.length + 1 + 2 by omega]
    rfl
  have hexec := hcall (digits ++ 13 :: 10 :: tail)
  rw [hsize] at hexec
  exact hexec

end

/-! ## Runs -/

section
variable {M : ResponseMachine} {buffSize fuel : ℕ} {s : ChunkState}

/-- The bytes that a state still has to go over. -/
def ChunkState.weight (s : ChunkState) : ℕ := s.buf.length + s.reads.flatten.length

/-- How the loops end from a next state on. -/
def chunkRest (M : ResponseMachine) (buffSize fuel : ℕ) : ChunkNext → ChunkEnd
  | .closed => .closed
  | .threw => .threw
  | .overflow => .overflow
  | .done s => .done s
  | .go p s => (chunkRun M buffSize fuel p s).ending

theorem chunkRun_ending {p : Phase} :
    (chunkRun M buffSize (fuel + 1) p s).ending =
      chunkRest M buffSize fuel (chunkStep M buffSize p s).next := by
  rw [chunkRun]
  cases (chunkStep M buffSize p s).next <;> simp only [chunkRest]

/-- Data that is read directly: the body gets the next `left` bytes but the last two. -/
theorem chunkRun_direct {left : ℕ} (hbuf : 0 < buffSize) (hs : Solid s.reads) (hb : s.buf = [])
    (hleft : 0 < left) (hle : left ≤ s.reads.flatten.length) (hsize : 2 ≤ s.body.length + left)
    (hfuel : s.weight < fuel) :
    ∃ fuel', (skip left s.reads).flatten.length < fuel' ∧
      (chunkRun M buffSize fuel (.direct left) s).ending =
        chunkRest M buffSize fuel' (chunkDone { s with
          buf := []
          body := (s.body ++ s.reads.flatten.take left).take (s.body.length + left - 2)
          reads := skip left s.reads }) := by
  induction fuel generalizing s left with
  | zero => exact absurd hfuel (Nat.not_lt_zero _)
  | succ fuel ih =>
    have hne := hs.recv_ne_nil (n := min left buffSize) (by omega)
      (List.ne_nil_of_length_pos (hleft.trans_le hle))
    have hlen := recv_length_le (min left buffSize) s.reads
    have hsplit := recv_append (min left buffSize) s.reads
    have hskip := recv_skip hs (min left buffSize)
    have hsolid : Solid (recv (min left buffSize) s.reads).2 := hs.recv
    rw [chunkRun_ending]
    simp only [chunkStep, directStep, Int.toNat_natCast]
    generalize recv (min left buffSize) s.reads = r at *
    have hpos := List.length_pos_of_ne_nil hne
    have htotal := congrArg List.length hsplit
    rw [List.length_append] at htotal
    rw [if_neg hne]
    by_cases hmore : r.1.length < left
    · -- another round
      have hcast : (left : ℤ) - r.1.length = ((left - r.1.length : ℕ) : ℤ) := by omega
      have hbytes : s.body ++ r.1 ++ r.2.flatten.take (left - r.1.length) =
          s.body ++ s.reads.flatten.take left := by
        rw [← hsplit, List.take_append, List.take_of_length_le hmore.le, List.append_assoc]
      obtain ⟨fuel', hlt, hend⟩ := ih (s := { s with body := s.body ++ r.1, reads := r.2 }) hsolid hb
        (show 0 < left - r.1.length by omega) (show _ ≤ r.2.flatten.length by omega)
        (by rw [List.length_append]; omega)
        (by simp only [ChunkState.weight] at hfuel ⊢; omega)
      simp only [hbytes, List.length_append,
        show s.body.length + r.1.length + (left - r.1.length) - 2 = s.body.length + left - 2 by omega]
        at hlt hend
      have hsame : skip (left - r.1.length) r.2 = skip left s.reads := by
        rw [hskip, skip_skip hs, show r.1.length + (left - r.1.length) = left by omega]
      rw [hsame] at hlt hend
      rw [hcast, if_pos (by omega)]
      exact ⟨fuel', hlt, hend⟩
    · obtain rfl : left = r.1.length := by omega
      have hbytes : s.reads.flatten.take r.1.length = r.1 := by rw [← hsplit, List.take_left]
      refine ⟨fuel, ?_, ?_⟩
      · rw [← hskip]
        simp only [ChunkState.weight] at hfuel
        omega
      · rw [if_neg (by omega), if_neg (by rw [List.length_append]; omega), ← hskip, hbytes,
          List.length_append]

end

/-! ## Chunks -/

/-- A chunk: its size in hexadecimal digits and its data. -/
structure Chunk where
  digits : List UInt8
  data : List UInt8
  digits_ne : digits ≠ []
  digits_hex : ∀ b ∈ digits, xdigit b = true
  digits_value : digitsValue 16 digits = data.length
  size_lt : data.length < 2 ^ 31 - 2

namespace Chunk

def line (c : Chunk) : List UInt8 := c.digits ++ [13, 10]

def bytes (c : Chunk) : List UInt8 := c.line ++ (c.data ++ [13, 10])

/-- The chunk of no data that ends a body. -/
def last : Chunk where
  digits := [48]
  data := []
  digits_ne := by decide
  digits_hex := List.all_eq_true.1 (by decide)
  digits_value := by decide
  size_lt := by decide

end Chunk

/-- The body of a response in chunks. -/
def encode (chunks : List Chunk) : List UInt8 := (chunks ++ [Chunk.last]).flatMap Chunk.bytes

/-- The buffer in which the loop first looks for a size line, and the socket behind it. -/
def refill (buffSize : ℕ) (buf : List UInt8) (rs : Reads) : List UInt8 × Reads :=
  if buf = [] then recv buffSize rs else (buf, rs)

/-- Buffer and socket behind the next `n` bytes. -/
def behind (n : ℕ) (r : List UInt8 × Reads) : List UInt8 × Reads :=
  if n ≤ r.1.length then (r.1.drop n, r.2) else ([], skip (n - r.1.length) r.2)

/-- Every size line is in the buffer as a whole when the loop first looks for it. -/
def LinesWhole (buffSize : ℕ) : List Chunk → List UInt8 × Reads → Prop
  | [], _ => True
  | c :: cs, r =>
    c.line.length ≤ (refill buffSize r.1 r.2).1.length ∧
      LinesWhole buffSize cs (behind c.bytes.length (refill buffSize r.1 r.2))

/-- The parser behind the size line of a chunk. -/
def Chunk.sized (c : Chunk) (e : ResponseParser) : ResponseParser :=
  { e.init with
    chunked := true
    contentLen := c.data.length
    chunksDone := (c.data.length : ℤ) ≤ 0 }

/-- The state of the loop in front of some bytes. -/
structure Ready (buffSize : ℕ) (s : ChunkState) (bytes : List UInt8) : Prop where
  solid : Solid s.reads
  room : s.buf.length ≤ buffSize
  error : s.env.error = 0
  bytes_eq : s.buf ++ s.reads.flatten = bytes

section
variable {M : ResponseMachine} {buffSize fuel : ℕ} {s : ChunkState}

theorem lineRead_refill (buffSize : ℕ) (s : ChunkState) :
    (s.buf ++ (lineRead buffSize true s).1, (lineRead buffSize true s).2) =
      refill buffSize s.buf s.reads := by
  rw [lineRead, refill]
  by_cases hbuf : s.buf = []
  · simp [lineReads, hbuf]
  · simp [lineReads, hbuf]

theorem refill_append (buffSize : ℕ) (buf : List UInt8) (rs : Reads) :
    (refill buffSize buf rs).1 ++ (refill buffSize buf rs).2.flatten = buf ++ rs.flatten := by
  rw [refill]
  split_ifs with hbuf
  · rw [recv_append, hbuf, List.nil_append]
  · rfl

theorem refill_length_le {buf : List UInt8} (rs : Reads) (hb : buf.length ≤ buffSize) :
    (refill buffSize buf rs).1.length ≤ buffSize := by
  rw [refill]
  split_ifs
  · exact recv_length_le buffSize rs
  · exact hb

theorem Solid.refill {buf : List UInt8} {rs : Reads} (h : Solid rs) :
    Solid (refill buffSize buf rs).2 := by
  rw [Http.refill]
  split_ifs
  · exact h.recv
  · exact h

/-- The loop at a size line that is whole: what follows is the copying of its data. -/
theorem lineStep_whole {c : Chunk} {rest : List UInt8} {rs : Reads}
    (hr : refill buffSize s.buf s.reads = (c.line ++ rest, rs))
    (hb : s.buf.length ≤ buffSize) (herror : s.env.error = 0) :
    (lineStep M buffSize true s).next =
      (chunkData ⟨rest, s.body, c.sized s.env, rs⟩).next := by
  have hlen := refill_length_le s.reads hb
  have hread := lineRead_refill buffSize s
  rw [hr] at hlen hread
  obtain ⟨hbuf, hrs⟩ := Prod.mk.injEq .. ▸ hread
  have hsize := c.size_lt
  have hline : c.line ++ rest = c.digits ++ 13 :: 10 :: rest := by
    rw [Chunk.line, List.append_assoc]
    rfl
  have hcount : c.line.length = c.digits.length + 2 := by rw [Chunk.line, List.length_append]; rfl
  have hcall := execute_sizeLine (M := M) (e := s.env.init) rest c.digits_ne c.digits_hex
    c.digits_value (by omega)
  rw [← hline, ← hbuf] at hcall
  change lineCall M buffSize true s = _ at hcall
  have hgot : ¬ (lineReads true s = true ∧ (lineRead buffSize true s).1 = []) := by
    rintro ⟨hempty, hnil⟩
    have hbuf' : s.buf = [] := by simpa [lineReads] using hempty
    rw [hbuf', hnil, List.append_nil] at hbuf
    have hzero := congrArg List.length hbuf
    rw [List.length_append, List.length_nil] at hzero
    omega
  have hdrop : (c.line ++ rest).drop (c.digits.length + 2) = rest := by
    rw [← hcount, List.drop_left]
  have hroom : rest.length ≠ buffSize := by
    rw [List.length_append] at hlen
    omega
  simp only [lineStep, hcall, if_neg hgot, hbuf, hrs, hdrop, if_neg hroom, M.sized_final, if_true]
  rw [if_neg]
  · rfl
  · rintro (hfailed | hcon)
    · exact absurd hfailed (by decide)
    · exact hcon herror

/-- The data of a chunk is in the buffer behind its size line, or the buffer ends in it. -/
theorem chunkData_next {c : Chunk} {rest body : List UInt8} {e : ResponseParser} {rs : Reads} :
    (chunkData ⟨rest, body, c.sized e, rs⟩).next =
      if c.data.length + 2 ≤ rest.length then
        chunkDone ⟨rest.drop (c.data.length + 2), body ++ rest.take c.data.length, c.sized e, rs⟩
      else
        .go (.direct ((c.data.length + 2 - rest.length : ℕ) : ℤ))
          ⟨[], body ++ rest, c.sized e, rs⟩ := by
  have hsize := c.size_lt
  have hlen : (c.sized e).contentLen = c.data.length := rfl
  simp only [chunkData, hlen]
  rw [if_neg (by omega)]
  by_cases hle : c.data.length + 2 ≤ rest.length
  · rw [if_pos (by omega), if_neg (by omega), if_pos hle]
    rfl
  · rw [if_neg (by omega), if_neg hle,
      show (c.data.length : ℤ) - rest.length + 2 = ((c.data.length + 2 - rest.length : ℕ) : ℤ) by
        omega]

/-- A round of the outer loop on a chunk whose size line is whole. -/
theorem chunkRun_chunk {c : Chunk} {more : List UInt8} (h : Ready buffSize s (c.bytes ++ more))
    (hfuel : s.weight < fuel)
    (hwhole : c.line.length ≤ (refill buffSize s.buf s.reads).1.length) :
    ∃ fuel' s', s'.weight < fuel' ∧
      (chunkRun M buffSize fuel (.line true) s).ending = chunkRest M buffSize fuel' (chunkDone s') ∧
      s'.body = s.body ++ c.data ∧ s'.env = c.sized s.env ∧ Ready buffSize s' more ∧
      (s'.buf, s'.reads) = behind c.bytes.length (refill buffSize s.buf s.reads) := by
  obtain ⟨hs, hb, herror, hbytes⟩ := h
  have hsplit := refill_append buffSize s.buf s.reads
  have hlen := refill_length_le s.reads hb
  have hsolid : Solid (refill buffSize s.buf s.reads).2 := hs.refill
  rw [hbytes] at hsplit
  obtain ⟨rest, hrest⟩ : ∃ rest, (refill buffSize s.buf s.reads).1 = c.line ++ rest := by
    have hline : c.line <+: c.bytes ++ more := by
      rw [Chunk.bytes, List.append_assoc]
      exact List.prefix_append _ _
    obtain ⟨rest, h⟩ := List.prefix_of_prefix_length_le hline ⟨_, hsplit⟩ hwhole
    exact ⟨rest, h.symm⟩
  obtain ⟨rs, hrs⟩ : ∃ rs, (refill buffSize s.buf s.reads).2 = rs := ⟨_, rfl⟩
  have hr : refill buffSize s.buf s.reads = (c.line ++ rest, rs) := Prod.ext hrest hrs
  have hcount : c.bytes.length = c.line.length + (c.data.length + 2) := by
    rw [Chunk.bytes, List.length_append, List.length_append]
    rfl
  have hline : 0 < c.line.length := by
    rw [Chunk.line, List.length_append]
    exact Nat.add_pos_right _ (by decide)
  have htotal := congrArg List.length hbytes
  simp only [hrest, hrs, Chunk.bytes, List.append_assoc, List.append_cancel_left_eq] at hsplit
  rw [hr] at hlen hsolid ⊢
  have hweight := congrArg List.length hsplit
  simp only [List.length_append, List.length_cons, List.length_nil, hcount] at hlen hweight htotal
  obtain ⟨fuel, rfl⟩ := Nat.exists_eq_succ_of_ne_zero (Nat.ne_of_gt (Nat.zero_lt_of_lt hfuel))
  rw [ChunkState.weight] at hfuel
  rw [Nat.succ_eq_add_one, chunkRun_ending, chunkStep, lineStep_whole hr hb herror, chunkData_next]
  by_cases hle : c.data.length + 2 ≤ rest.length
  · have htake : rest.take c.data.length = c.data := by
      have hfront : (rest ++ rs.flatten).take c.data.length = rest.take c.data.length :=
        List.take_append_of_le_length (Nat.le_of_add_right_le hle)
      rw [← hfront, hsplit, List.take_left]
    have hdrop : rest.drop (c.data.length + 2) ++ rs.flatten = more := by
      rw [← List.drop_append_of_le_length hle, hsplit, List.drop_length_add_append]
      rfl
    rw [if_pos hle]
    refine ⟨fuel, _, ?_, rfl, ?_, rfl, ⟨hsolid, ?_, herror, hdrop⟩, ?_⟩
    · have hlen' := congrArg List.length hdrop
      rw [List.length_append] at hlen'
      show (rest.drop (c.data.length + 2)).length + rs.flatten.length < fuel
      omega
    · rw [htake]
    · rw [List.length_drop]
      omega
    · rw [behind, if_pos (by rw [List.length_append]; omega), hcount, List.drop_length_add_append]
  · obtain ⟨left, hleft⟩ : ∃ left, c.data.length + 2 = rest.length + left :=
      Nat.exists_eq_add_of_le (by omega)
    have htake : rest ++ rs.flatten.take left = c.data ++ [13, 10] := by
      rw [← List.take_length_add_append, hsplit, ← hleft, ← List.append_assoc]
      exact List.take_left' (by rw [List.length_append]; rfl)
    have hdrop : rs.flatten.drop left = more := by
      rw [← List.drop_length_add_append, hsplit, ← hleft, ← List.append_assoc]
      exact List.drop_left' (by rw [List.length_append]; rfl)
    rw [if_neg hle, hleft, Nat.add_sub_cancel_left]
    have hroom : 0 < buffSize := by omega
    obtain ⟨fuel', hlt, hend⟩ := chunkRun_direct (M := M)
      (s := ⟨[], s.body ++ rest, c.sized s.env, rs⟩) hroom hsolid rfl
      (show 0 < left by omega) (show left ≤ rs.flatten.length by omega)
      (by rw [List.length_append]; omega) (show 0 + rs.flatten.length < fuel by omega)
    refine ⟨fuel', _, ?_, hend, ?_, rfl, ⟨hsolid.skip, Nat.zero_le _, herror, ?_⟩, ?_⟩
    · rw [ChunkState.weight, List.length_nil, Nat.zero_add]
      exact hlt
    · show (s.body ++ rest ++ rs.flatten.take left).take _ = _
      rw [List.append_assoc, htake, List.length_append,
        show s.body.length + rest.length + left - 2 = (s.body ++ c.data).length by
          rw [List.length_append]; omega, ← List.append_assoc, List.take_left]
    · rw [flatten_skip, List.nil_append]
      exact hdrop
    · rw [behind, if_neg (by rw [List.length_append]; omega)]
      simp only [List.length_append]
      rw [show c.bytes.length - (c.line.length + rest.length) = left by omega]

theorem encode_cons (c : Chunk) (cs : List Chunk) : encode (c :: cs) = c.bytes ++ encode cs := by
  rw [encode, encode, List.cons_append, List.flatMap_cons]

/-- The loops on a body whose size lines are whole. -/
theorem chunkRun_decodes {chunks : List Chunk} (hne : ∀ c ∈ chunks, c.data ≠ [])
    (h : Ready buffSize s (encode chunks)) (hfuel : s.weight < fuel)
    (hwhole : LinesWhole buffSize (chunks ++ [Chunk.last]) (s.buf, s.reads)) :
    ∃ t, (chunkRun M buffSize fuel (.line true) s).ending = .done t ∧
      t.body = s.body ++ chunks.flatMap Chunk.data ∧ t.env.data = s.env.data := by
  induction chunks generalizing s fuel with
  | nil =>
    have hlast : Ready buffSize s (Chunk.last.bytes ++ []) := h
    obtain ⟨fuel', s', -, hend, hbody, henv, -, -⟩ :=
      chunkRun_chunk (M := M) hlast hfuel hwhole.1
    refine ⟨s', ?_, hbody, by rw [henv]; rfl⟩
    rw [hend, chunkDone, henv]
    rfl
  | cons c cs ih =>
    rw [encode_cons] at h
    obtain ⟨fuel', s', hlt, hend, hbody, henv, hready, hbehind⟩ :=
      chunkRun_chunk (M := M) h hfuel hwhole.1
    have hpos := List.length_pos_of_ne_nil (hne c (List.mem_cons_self ..))
    have hmore : s'.env.chunksDone = false := by
      rw [henv, Chunk.sized, decide_eq_false_iff_not]
      omega
    have hrest := hwhole.2
    rw [← hbehind] at hrest
    obtain ⟨t, ht, hbody', henv'⟩ :=
      ih (fun d hd => hne d (List.mem_cons_of_mem _ hd)) hready hlt hrest
    refine ⟨t, ?_, ?_, ?_⟩
    · rw [hend, chunkDone, hmore]
      exact ht
    · rw [hbody', hbody, List.flatMap_cons, List.append_assoc]
    · rw [henv', henv]
      rfl

end

/-! ## The header section -/

/-- Whether the mark was set in the running call, and whether a version was read without it. -/
structure Marked where
  mark : Bool := false
  torn : Bool := false
  deriving DecidableEq, Repr

def Marked.note (f : Marked) : ResponseAction → Marked
  | .mark | .startValue => { f with mark := true }
  | .httpVersion => { f with torn := f.torn || !f.mark }
  | _ => f

/-- A call reads a version whose front was in an earlier buffer. -/
def tearsVersion (m : Scanner ResponseAction) (buffer : List UInt8) (cs : m.State) : Bool :=
  (exec m (fun _ a (f : Marked) => f.note a) responseHandlers.breaks 0 buffer cs {}).env.torn

/-- The parser of a call whose buffer starts at position `c`, at its position `q`, beside the parser
of a call on all the bytes. -/
structure HeadAgrees (c q : ℕ) (e : ResponseParser) (f : Marked) (e' : ResponseParser) : Prop where
  error : e'.error = e.error
  chunked : e'.chunked = e.chunked
  mark : f.mark → e'.mark = c + e.mark ∧ e.mark ≤ q

section
variable {pre buffer post : List UInt8} {q : ℕ} {e e' : ResponseParser} {f : Marked}

theorem HeadAgrees.onResponseVersion (h : HeadAgrees pre.length q e f e') (text : List UInt8)
    (t : Bool) :
    HeadAgrees pre.length q (e.onResponseVersion text) { f with torn := t }
      (e'.onResponseVersion text) := by
  simp only [ResponseParser.onResponseVersion]
  split
  · exact ⟨h.error, h.chunked, h.mark⟩
  · exact ⟨rfl, h.chunked, h.mark⟩

theorem HeadAgrees.act {a : ResponseAction} (h : HeadAgrees pre.length q e f e')
    (hq : q < buffer.length) (ht : (f.note a).torn = false) :
    HeadAgrees pre.length q (e.act buffer q a) (f.note a)
      (e'.act (pre ++ (buffer ++ post)) (pre.length + q) a) := by
  cases a with
  | mark | startValue => exact ⟨h.error, h.chunked, fun _ => ⟨rfl, le_rfl⟩⟩
  | chunkSize | transChunked => exact ⟨h.error, rfl, h.mark⟩
  | httpVersion =>
    simp only [Marked.note, Bool.or_eq_false_iff, Bool.not_eq_false'] at ht
    obtain ⟨heq, hle⟩ := h.mark ht.2
    have htext : e'.marked (pre ++ (buffer ++ post)) (pre.length + q) = e.marked buffer q := by
      rw [ResponseParser.marked, ResponseParser.marked, heq,
        show pre.length + q - (pre.length + e.mark) = q - e.mark by omega, slice_right,
        slice_left (by omega)]
    simp only [ResponseParser.act, htext]
    exact h.onResponseVersion _ _
  | _ => exact ⟨h.error, h.chunked, h.mark⟩

theorem HeadAgrees.succ {c : ℕ} (h : HeadAgrees c q e f e') : HeadAgrees c (q + 1) e f e' :=
  ⟨h.error, h.chunked, fun hf => ⟨(h.mark hf).1, (h.mark hf).2.trans (Nat.le_succ q)⟩⟩

theorem Marked.note_torn (f : Marked) (a : ResponseAction) (h : (f.note a).torn = false) :
    f.torn = false := by
  cases a <;> simp_all [Marked.note]

/-- A run in two buffers, from parsers that agree, as long as no version is torn. -/
theorem exec_headAgrees {m : Scanner ResponseAction} {cs : m.State}
    (pre post : List UInt8) (h : HeadAgrees pre.length 0 e f e')
    (ht : (exec m (fun _ a (f : Marked) => f.note a) responseHandlers.breaks 0 buffer cs
      f).env.torn = false) :
    Rel (fun _ e e' => e'.error = e.error ∧ e'.chunked = e.chunked) pre.length
      (exec m (ResponseParser.act buffer) responseHandlers.breaks 0 buffer cs e)
      (exec m (ResponseParser.act (pre ++ (buffer ++ post))) responseHandlers.breaks pre.length
        buffer cs e') := by
  obtain ⟨f', hrel⟩ : ∃ f', Rel (fun q e e' => HeadAgrees pre.length q e f' e') pre.length
      (exec m (ResponseParser.act buffer) responseHandlers.breaks 0 buffer cs e)
      (exec m (ResponseParser.act (pre ++ (buffer ++ post))) responseHandlers.breaks
        (pre.length + 0) buffer cs e') := by
    refine exec_ghost (R := HeadAgrees pre.length) pre.length (fun a f => Marked.note f a)
      Marked.torn (fun a f => f.note_torn a) ?_ (fun q e f e' => HeadAgrees.succ) h ht
    intro q b a e f e' _ hb _ hagree hok
    exact hagree.act (List.getElem?_eq_some_iff.1 hb).1 hok
  exact ⟨hrel.cs_eq, hrel.pos_eq, hrel.stop_eq, hrel.env.error, hrel.env.chunked⟩

end

theorem response_simulates (M : ResponseMachine) :
    Simulates M.toScanner responseHandlers
      (fun buffer cs => tearsVersion M.toScanner buffer cs = false)
      (fun e w => w.error = e.error ∧ w.chunked = e.chunked) where
  call pre post h ht := exec_headAgrees (f := {}) pre post ⟨h.1, h.2, nofun⟩ ht
  error := by
    rintro e w ⟨herror, -⟩
    simp only [responseHandlers, herror]
  threw _ := rfl
  sticky := by
    intro buffer q a e h
    simp only [responseHandlers, ne_eq, decide_eq_true_eq] at h ⊢
    cases a with
    | httpVersion =>
      simp only [ResponseParser.act, ResponseParser.onResponseVersion]
      split
      · exact h
      · exact nofun
    | _ => exact h
  final_breaks h hfinal := by
    rw [List.any_eq_true]
    exact ⟨.done, M.final_done h hfinal, rfl⟩

/-- A header section that the parser accepts, of a response in chunks. -/
structure ChunkedHead (M : ResponseMachine) (head : List UInt8) : Prop where
  broke : (execute (m := M.toScanner) responseHandlers head M.start {}).stop = .broke
  final : M.final (execute (m := M.toScanner) responseHandlers head M.start {}).cs = true
  pos : (execute (m := M.toScanner) responseHandlers head M.start {}).pos = head.length
  error : (execute (m := M.toScanner) responseHandlers head M.start {}).env.error = 0
  chunked : (execute (m := M.toScanner) responseHandlers head M.start {}).env.chunked = true

section
variable {M : ResponseMachine} {buffSize : ℕ} {head more : List UInt8} {rs : Reads}

/-- A call on more bytes ends behind the header section as well. -/
theorem ChunkedHead.oneShot (h : ChunkedHead M head) (more : List UInt8) :
    Rel (fun _ e e' => e'.error = e.error ∧ e'.chunked = e.chunked) 0
      (execute (m := M.toScanner) responseHandlers head M.start {})
      (restOfCall (m := M.toScanner) responseHandlers [] (head ++ more) M.start {}) := by
  have hmarked : ∀ f : Marked, f.mark = true ∧ f.torn = false → ∀ a, (f.note a).mark = true ∧
      (f.note a).torn = false := by
    rintro f ⟨hmark, htorn⟩ a
    cases a <;> simp [Marked.note, hmark, htorn]
  have htorn : (exec M.toScanner (fun _ a (f : Marked) => f.note a) responseHandlers.breaks 0 head
      M.start { mark := true }).env.torn = false := by
    refine (exec_keeps (P := fun f : Marked => f.mark = true ∧ f.torn = false) ?_ ⟨rfl, rfl⟩).2
    exact fun _ a f hf => hmarked f hf a
  have hstart : HeadAgrees 0 0 {} { mark := true } {} := ⟨rfl, rfl, fun _ => ⟨rfl, le_rfl⟩⟩
  have hrel := exec_headAgrees [] more hstart htorn
  have hstop := hrel.stop_eq.trans h.broke
  have hcall : restOfCall (m := M.toScanner) responseHandlers [] (head ++ more) M.start {} = _ :=
    exec_append_stop fun hcon => absurd (hstop.symm.trans hcon) (by decide)
  rw [hcall]
  exact hrel

/-- The header section of a response in chunks, in reads that do not cut the version. -/
theorem recvHead_response (hbuf : 0 < buffSize) (hs : Solid rs) (hhead : ChunkedHead M head)
    (hbytes : rs.flatten = head ++ more)
    (hu : EachCall responseHandlers buffSize
      (fun buffer cs => tearsVersion M.toScanner buffer cs = false) (rs.flatten.length + 1)
      ⟨[], M.start, {}, 0, rs⟩) :
    ∃ s, recvHead responseHandlers buffSize M.toScanner {} rs = .done s ∧
      s.env.chunked = true ∧ s.env.data.body = [] ∧ Ready buffSize s.chunks more := by
  have hrel := hhead.oneShot more
  rw [← hbytes] at hrel
  have hcomplete : Complete responseHandlers
      (restOfCall (m := M.toScanner) responseHandlers [] rs.flatten M.start {}) := by
    refine ⟨hrel.stop_eq.trans hhead.broke, ?_⟩
    rw [responseHandlers, decide_eq_false_iff_not, not_not]
    exact hrel.env.1.trans hhead.error
  obtain ⟨s, hdone, ⟨herror, hchunked⟩, hrest⟩ :=
    (headLoop_oneShot (response_simulates M) hbuf hs (Nat.lt_succ_self _) rfl M.start_not_final hu
      ⟨rfl, rfl⟩ fun _ => by rw [hrel.cs_eq]; exact hhead.final).1 hcomplete
  have hbody : s.env.data.body = [] := by
    refine headLoop_keeps (P := fun e => e.data.body = []) (fun e he => he) ?_ rfl hdone
    intro buffer q a e he
    cases a with
    | httpVersion =>
      simp only [responseHandlers, ResponseParser.act, ResponseParser.onResponseVersion]
      split <;> exact he
    | _ => exact he
  refine ⟨s, hdone, ?_, hbody, (headLoop_advances hdone).solid hs,
    headLoop_rest_le (Nat.zero_le _) hdone, ?_, ?_⟩
  · exact hchunked.symm.trans (hrel.env.2.trans hhead.chunked)
  · exact herror.symm.trans (hrel.env.1.trans hhead.error)
  · refine hrest.trans ?_
    rw [List.nil_append, hrel.pos_eq, hhead.pos, Nat.zero_add, hbytes, List.drop_left]

end

/-- A response is cut so that no read of its header section tears the version and all size lines are
whole. -/
structure CleanResponse (M : ResponseMachine) (cfg : HttpConfig) (chunks : List Chunk)
    (rs : Reads) : Prop where
  room : 0 < cfg.bufferSize
  untorn : EachCall responseHandlers cfg.bufferSize
    (fun buffer cs => tearsVersion M.toScanner buffer cs = false) (rs.flatten.length + 1)
    ⟨[], M.start, {}, 0, rs⟩
  lines : ∀ s, recvHead responseHandlers cfg.bufferSize M.toScanner {} rs = .done s →
    LinesWhole cfg.bufferSize (chunks ++ [Chunk.last]) (s.rest, s.reads)

/-- A response in chunks, cut in this way, is returned with the concatenation of the chunks. -/
theorem chunks_decoded (M : ResponseMachine) (cfg : HttpConfig)
    (lexicalCast : List UInt8 → Option UInt64) (head : List UInt8) (chunks : List Chunk) (rs : Reads)
    (hhead : ChunkedHead M head) (hne : ∀ c ∈ chunks, c.data ≠ []) (hs : Solid rs)
    (hbytes : rs.flatten = head ++ encode chunks) (hcut : CleanResponse M cfg chunks rs) :
    ∃ r, (recvResponse M cfg lexicalCast rs).outcome = .returned r ∧
      r.body = chunks.flatMap Chunk.data := by
  obtain ⟨s, hdone, hchunked, hempty, hready⟩ :=
    recvHead_response hcut.room hs hhead hbytes hcut.untorn
  have hfuel : s.chunks.weight < s.chunks.fuel := by
    rw [ChunkState.weight, ChunkState.fuel, List.length_append]
    exact Nat.lt_succ_self _
  obtain ⟨t, hend, hbody, hdata⟩ :=
    chunkRun_decodes (M := M) hne hready hfuel (hcut.lines s hdone)
  refine ⟨setBody t.env.data t.body, ?_, ?_⟩
  · simp only [recvResponse, hdone, finishResponse, hchunked, if_true, recvChunks, hend]
  · rw [hbody, setBody]
    split_ifs with hnil
    · rw [hdata]
      exact hempty.trans hnil.symm
    · rfl

/-- A header section of a response in chunks. -/
def chunkedHead : List UInt8 := ascii "HTTP/1.1 200 OK\r\nTransfer-Encoding: chunked\r\n\r\n"

theorem chunkedHead_ok : ChunkedHead chunkForm chunkedHead where
  broke := by decide
  final := by decide
  pos := by decide
  error := by decide
  chunked := by decide

/-- A chunk of five bytes. -/
def hello : Chunk :=
  ⟨ascii "5", ascii "hello", by decide, List.all_eq_true.1 (by decide), by decide, by decide⟩

/-- A chunk of sixteen bytes: its size has two digits. -/
def sixteen : Chunk :=
  ⟨ascii "10", ascii "0123456789abcdef", by decide, List.all_eq_true.1 (by decide), by decide,
    by decide⟩

/-- Two chunks in reads that end in the header section, in data and between the two bytes behind
it. -/
theorem chunks_decoded_pieces :
    ∃ r, (recvResponse chunkForm smallConfig decimalCast
        [ascii "HTTP/1.1 200 OK\r\nTransfer-Enc", ascii "oding: chunked\r\n\r\n5\r\nhe",
          ascii "llo\r", ascii "\n", ascii "10\r\n0123456789abcdef\r\n0\r\n\r\n"]).outcome =
          .returned r ∧
      r.body = [hello, sixteen].flatMap Chunk.data := by
  refine chunks_decoded chunkForm smallConfig decimalCast chunkedHead [hello, sixteen] _
    chunkedHead_ok (by decide) (by decide) (by decide) ⟨by decide, ?_, ?_⟩
  · exact ⟨by decide, by decide, trivial⟩
  · rintro s ⟨rfl⟩
    exact ⟨by decide, by decide, by decide, trivial⟩

/-- A size line that is cut by a read loses its front: the chunk of sixteen bytes counts as the last
one, and the body is empty. -/
theorem size_torn :
    let rs := [chunkedHead, ascii "1", ascii "0\r\n0123456789abcdef\r\n0\r\n\r\n"]
    ChunkedHead chunkForm chunkedHead ∧ Solid rs ∧ rs.flatten = chunkedHead ++ encode [sixteen] ∧
      ¬ ∃ r, (recvResponse chunkForm smallConfig decimalCast rs).outcome = .returned r ∧
        r.body = [sixteen].flatMap Chunk.data := by
  refine ⟨chunkedHead_ok, by decide, by decide, ?_⟩
  rintro ⟨r, ⟨rfl⟩, hbody⟩
  exact absurd hbody (by decide)

end CoroutineScheduler.Http
