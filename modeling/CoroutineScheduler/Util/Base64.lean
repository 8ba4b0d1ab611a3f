import CoroutineScheduler.Lib.Wire

/-!
# Base64

`base64encode` and `base64decode` of `hash_util.cc`. The decoder stores its bytes through a pointer
into a string of `src.size() * 3 / 4` bytes; a store outside this string ends the model's decoder
with `none`, and `return ""` is the empty text.

`decodeLoop_spec` says what the decoder makes of every text: the bytes of an `Ending` text, and the
empty string for any other. `decodeLoop_encode` is the way back.
-/

namespace CoroutineScheduler.HashUtil

open Wire (forall_byte)

/-! ## Encoding -/

/-- The alphabet. -/
def base64 : List UInt8 :=
  "ABCDEFGHIJKLMNOPQRSTUVWXYZabcdefghijklmnopqrstuvwxyz0123456789+/".toList.map fun c =>
    UInt8.ofNat c.toNat

/-- The loop over the bytes of a block: `i`, `packed`, and the bytes behind the block. -/
def packBytes (i packed : ℕ) : List UInt8 → ℕ × ℕ × List UInt8
  | [] => (i, packed, [])
  | b :: bs =>
    if i < 3 then packBytes (i + 1) (packed <<< 8 ||| b.toNat) bs else (i, packed, b :: bs)

/-- `base64[i]`. -/
def digit (i : ℕ) : UInt8 := base64.getD i 0

/-- The characters of a block. -/
def blockText (packed padding : ℕ) : List UInt8 :=
  digit (packed >>> 18) :: digit (packed >>> 12 &&& 0x3f) ::
    ((if padding ≠ 2 then [digit (packed >>> 6 &&& 0x3f)] else []) ++
      (if padding = 0 then [digit (packed &&& 0x3f)] else []) ++ List.replicate padding 61)

theorem packBytes_length (i packed : ℕ) (bs : List UInt8) :
    (packBytes i packed bs).2.2.length ≤ bs.length := by
  induction bs generalizing i packed with
  | nil => rfl
  | cons b bs ih =>
    unfold packBytes
    split_ifs
    · exact (ih _ _).trans (Nat.le_succ _)
    · rfl

theorem packBytes_lt {bs : List UInt8} (h : bs ≠ []) :
    (packBytes 0 0 bs).2.2.length < bs.length := by
  cases bs with
  | nil => exact absurd rfl h
  | cons b bs => exact Nat.lt_succ_of_le (packBytes_length _ _ bs)

/-- `base64encode`. -/
def base64encode (data : List UInt8) : List UInt8 :=
  if _h : data = [] then []
  else
    let r := packBytes 0 0 data
    let padding := if r.1 = 2 then 1 else if r.1 = 1 then 2 else 0
    blockText (r.2.1 <<< (8 * (3 - r.1))) padding ++ base64encode r.2.2
termination_by data.length
decreasing_by exact packBytes_lt ‹_›

/-! ## Decoding -/

/-- `val`, the six bits of a character. -/
def val (c : UInt8) : Option ℕ :=
  if 65 ≤ c ∧ c ≤ 90 then some (c.toNat - 65)
  else if 97 ≤ c ∧ c ≤ 122 then some (c.toNat - 97 + 26)
  else if 48 ≤ c ∧ c ≤ 57 then some (c.toNat - 48 + 52)
  else if c = 43 then some 62
  else if c = 47 then some 63
  else none

/-- The variables of the loop over the characters of a block. -/
structure Block where
  i : ℕ := 0
  padding : ℕ := 0
  packed : ℕ := 0

/-- The loop over the characters of a block, `none` for `return ""`. -/
def readBlock (b : Block) : List UInt8 → Option (Block × List UInt8)
  | [] => some (b, [])
  | c :: cs =>
    if b.i < 4 then
      if c = 61 then readBlock ⟨b.i + 1, b.padding + 1, b.packed <<< 6⟩ cs
      else if 0 < b.padding then none
      else
        match val c with
        | none => none
        | some v => readBlock ⟨b.i + 1, b.padding, b.packed <<< 6 ||| v⟩ cs
    else some (b, c :: cs)

theorem readBlock_length {b b' : Block} {cs rest : List UInt8}
    (h : readBlock b cs = some (b', rest)) : rest.length ≤ cs.length := by
  induction cs generalizing b with
  | nil =>
    cases h
    rfl
  | cons c cs ih =>
    unfold readBlock at h
    split_ifs at h
    · exact (ih h).trans (Nat.le_succ _)
    · split at h
      · cases h
      · exact (ih h).trans (Nat.le_succ _)
    · cases h
      rfl

theorem readBlock_lt {b : Block} {cs rest : List UInt8} (hcs : cs ≠ [])
    (h : readBlock {} cs = some (b, rest)) : rest.length < cs.length := by
  cases cs with
  | nil => exact absurd rfl hcs
  | cons c cs =>
    rw [readBlock, if_pos (by decide)] at h
    split_ifs at h
    · exact Nat.lt_succ_of_le (readBlock_length h)
    · split at h
      · cases h
      · exact Nat.lt_succ_of_le (readBlock_length h)

/-- `result`, and how far `writeBuf` is behind its first byte. -/
structure Writing where
  result : List UInt8
  pos : ℕ

/-- `*writeBuf++ = (char)(v & 0xff)`. -/
def Writing.put (v : ℕ) (w : Writing) : Option Writing :=
  if w.pos < w.result.length then
    some ⟨w.result.set w.pos (UInt8.ofNat (v &&& 0xff)), w.pos + 1⟩
  else none

/-- The stores of a block. -/
def writeBlock (b : Block) (w : Writing) : Option Writing :=
  (w.put (b.packed >>> 16)).bind fun w =>
    (if b.padding ≠ 2 then w.put (b.packed >>> 8) else some w).bind fun w =>
      if b.padding = 0 then w.put b.packed else some w

/-- The loop over the blocks. -/
def decodeLoop (ptr : List UInt8) (w : Writing) : Option (List UInt8) :=
  if _h : ptr = [] then some (w.result.take w.pos)
  else
    match _hb : readBlock {} ptr with
    | none => some []
    | some (b, rest) =>
      if b.i ≠ 4 then some []
      else if 0 < b.padding ∧ rest ≠ [] then some []
      else if 2 < b.padding then some []
      else
        match writeBlock b w with
        | none => none
        | some w' => decodeLoop rest w'
termination_by ptr.length
decreasing_by exact readBlock_lt ‹_› ‹_›

/-- `base64decode`. -/
def base64decode (src : List UInt8) : Option (List UInt8) :=
  decodeLoop src ⟨List.replicate (src.length * 3 / 4) 0, 0⟩

/-! ## Characters and bits -/

theorem val_digit : ∀ i < 64, val (digit i) = some i := by decide +kernel

theorem digit_val {c : UInt8} {v : ℕ} (h : val c = some v) : v < 64 ∧ digit v = c := by
  have hall : ∀ c, (val c).all (fun v => v < 64 && digit v == c) = true :=
    forall_byte (by decide +kernel)
  have hc := hall c
  rw [h, Option.all_some, Bool.and_eq_true] at hc
  exact ⟨of_decide_eq_true hc.1, eq_of_beq hc.2⟩

theorem length_base64 : base64.length = 64 := by decide +kernel

theorem val_eq_none (c : UInt8) : val c = none ↔ c ∉ base64 := by
  constructor
  · intro hv hmem
    obtain ⟨i, hi, rfl⟩ := List.mem_iff_getElem.1 hmem
    have hc := val_digit i (hi.trans_eq length_base64)
    rw [digit, List.getD_eq_getElem?_getD, List.getElem?_eq_getElem hi, Option.getD_some, hv] at hc
    cases hc
  · intro hmem
    cases hv : val c with
    | none => rfl
    | some v =>
      obtain ⟨hlt, hd⟩ := digit_val hv
      unfold digit at hd
      rw [List.getD_eq_getElem?_getD, List.getElem?_eq_getElem (by rwa [length_base64]),
        Option.getD_some] at hd
      exact absurd (hd ▸ List.getElem_mem _) hmem

theorem pad_not_mem : (61 : UInt8) ∉ base64 := (val_eq_none 61).1 (by decide)

theorem digit_ne {i : ℕ} (h : i < 64) : digit i ≠ 61 := fun he => by
  have hv := val_digit i h
  rw [he] at hv
  cases hv

/-- Low bits in the place that a shift leaves. -/
theorem shift_or (x : ℕ) {k v : ℕ} (h : v < 2 ^ k) : x <<< k ||| v = x * 2 ^ k + v := by
  rw [← Nat.shiftLeft_add_eq_or_of_lt h, Nat.shiftLeft_eq]

/-- The digits above a place and the digit at this place. -/
theorem digits_or (x k : ℕ) : x >>> (k + 6) <<< 6 ||| (x >>> k &&& 0x3f) = x >>> k := by
  have hand : x >>> k &&& 0x3f = x >>> k % 2 ^ 6 := Nat.and_two_pow_sub_one_eq_mod _ 6
  rw [hand, shift_or _ (Nat.mod_lt _ (by decide)), Nat.shiftRight_add, Nat.shiftRight_eq_div_pow _ 6]
  omega

/-! ## One block of the encoder -/

theorem packBytes_three (packed : ℕ) (bs : List UInt8) :
    packBytes 3 packed bs = (3, packed, bs) := by
  cases bs <;> rfl

theorem encode_nil : base64encode [] = [] := by
  unfold base64encode
  rfl

theorem encode_one (a : UInt8) : base64encode [a] = blockText ((0 <<< 8 ||| a.toNat) <<< 16) 2 := by
  unfold base64encode
  simp [packBytes, encode_nil]

theorem encode_two (a b : UInt8) :
    base64encode [a, b] = blockText (((0 <<< 8 ||| a.toNat) <<< 8 ||| b.toNat) <<< 8) 1 := by
  unfold base64encode
  simp [packBytes, encode_nil]

theorem encode_three (a b c : UInt8) (s : List UInt8) :
    base64encode (a :: b :: c :: s) =
      blockText (((0 <<< 8 ||| a.toNat) <<< 8 ||| b.toNat) <<< 8 ||| c.toNat) 0 ++
        base64encode s := by
  rw [base64encode]
  simp [packBytes, packBytes_three]

/-! ## One block of the decoder -/

/-- A buffer with some bytes in front of `writeBuf` and the others behind it. -/
def written (front back : List UInt8) : Writing := ⟨front ++ back, front.length⟩

theorem put_written {back : List UInt8} {n : ℕ} (front : List UInt8) (v : ℕ)
    (h : n < back.length) :
    (written front (back.drop n)).put v =
      some (written (front ++ [UInt8.ofNat (v &&& 0xff)]) (back.drop (n + 1))) := by
  obtain ⟨x, hx⟩ : ∃ x, back.drop n = x :: back.drop (n + 1) := ⟨_, List.drop_eq_getElem_cons h⟩
  unfold Writing.put written
  rw [hx, if_pos (by simp)]
  simp

/-- The bytes of a block. -/
def blockBytes (b : Block) : List UInt8 :=
  [UInt8.ofNat (b.packed >>> 16 &&& 0xff), UInt8.ofNat (b.packed >>> 8 &&& 0xff),
    UInt8.ofNat (b.packed &&& 0xff)].take (3 - b.padding)

theorem writeBlock_written {b : Block} {back : List UInt8} (front : List UInt8)
    (hpad : b.padding ≤ 2) (h : 3 - b.padding ≤ back.length) :
    writeBlock b (written front back) =
      some (written (front ++ blockBytes b) (back.drop (3 - b.padding))) := by
  have hput := put_written front (b.packed >>> 16) (show 0 < back.length by omega)
  rw [List.drop_zero] at hput
  unfold writeBlock blockBytes
  rw [hput, Option.bind_some]
  rcases Nat.lt_or_ge b.padding 2 with hlt | hge
  · rw [if_pos (by omega), put_written _ _ (by omega), Option.bind_some]
    rcases Nat.eq_zero_or_pos b.padding with h0 | hpos
    · rw [if_pos h0, put_written _ _ (by omega), h0]
      simp
    · obtain h1 : b.padding = 1 := by omega
      rw [if_neg (by omega), h1]
      simp
  · obtain h2 : b.padding = 2 := by omega
    rw [h2]
    simp

/-! ## What is decoded -/

/-- Characters of the alphabet and at most two `=` behind them. -/
def Ending (t : List UInt8) : Prop :=
  ∃ body padding, t = body ++ List.replicate padding 61 ∧ (∀ c ∈ body, c ∈ base64) ∧ padding ≤ 2

theorem ending_nil : Ending [] := ⟨[], 0, rfl, fun c hc => absurd hc List.not_mem_nil, by omega⟩

theorem ending_cons {c : UInt8} {t : List UInt8} :
    Ending (c :: t) ↔ c ∈ base64 ∧ Ending t ∨ c = 61 ∧ (t = [] ∨ t = [61]) := by
  constructor
  · rintro ⟨body, padding, ht, hbody, hpad⟩
    cases body with
    | nil =>
      match padding, hpad with
      | 0, _ => cases ht
      | 1, _ =>
        obtain ⟨rfl, rfl⟩ := List.cons.inj ht
        exact .inr ⟨rfl, .inl rfl⟩
      | 2, _ =>
        obtain ⟨rfl, rfl⟩ := List.cons.inj ht
        exact .inr ⟨rfl, .inr rfl⟩
    | cons b body =>
      obtain ⟨rfl, rfl⟩ := List.cons.inj ht
      obtain ⟨hc, hbody⟩ := List.forall_mem_cons.1 hbody
      exact .inl ⟨hc, body, padding, rfl, hbody, hpad⟩
  · rintro (⟨hc, body, padding, rfl, hbody, hpad⟩ | ⟨rfl, rfl | rfl⟩)
    · exact ⟨c :: body, padding, rfl, List.forall_mem_cons.2 ⟨hc, hbody⟩, hpad⟩
    · exact ⟨[], 1, rfl, fun c hc => absurd hc List.not_mem_nil, by omega⟩
    · exact ⟨[], 2, rfl, fun c hc => absurd hc List.not_mem_nil, le_rfl⟩

theorem ending_append {body t : List UInt8} (h : ∀ c ∈ body, c ∈ base64) :
    Ending (body ++ t) ↔ Ending t := by
  induction body with
  | nil => rfl
  | cons c body ih =>
    obtain ⟨hc, hbody⟩ := List.forall_mem_cons.1 h
    have hne : c ≠ 61 := fun he => pad_not_mem (he ▸ hc)
    rw [List.cons_append, ending_cons, ih hbody]
    simp [hc, hne]

/-- Behind a `=` there is at most one more character. -/
theorem ending_pad {l r : List UInt8} (h : Ending (l ++ 61 :: r)) : r.length ≤ 1 := by
  induction l with
  | nil =>
    rcases ending_cons.1 h with ⟨hmem, -⟩ | ⟨-, rfl | rfl⟩
    · exact absurd hmem pad_not_mem
    · exact Nat.zero_le 1
    · exact le_rfl
  | cons c l ih =>
    rw [List.cons_append] at h
    rcases ending_cons.1 h with ⟨-, h⟩ | ⟨-, h | h⟩
    · exact ih h
    · simp at h
    · have hlen := congrArg List.length h
      simp only [List.length_append, List.length_cons, List.length_nil] at hlen
      omega

theorem ending_pads {l r : List UInt8} {k : ℕ} (hk : 0 < k)
    (h : Ending (l ++ (List.replicate k 61 ++ r))) : k + r.length ≤ 2 := by
  obtain ⟨j, rfl⟩ := Nat.exists_eq_succ_of_ne_zero hk.ne'
  rw [List.replicate_succ, List.cons_append] at h
  have hone := ending_pad h
  rw [List.length_append, List.length_replicate] at hone
  omega

/-- A block that is read: characters of the alphabet, and `=` behind them. -/
theorem readBlock_some {b b' : Block} {cs rest : List UInt8} (hi : b.i ≤ 4)
    (h : readBlock b cs = some (b', rest)) :
    ∃ body n, cs = body ++ (List.replicate n 61 ++ rest) ∧ (∀ c ∈ body, c ∈ base64) ∧
      (0 < b.padding → body = []) ∧ b'.padding = b.padding + n ∧
      b'.i = b.i + body.length + n ∧ b'.i ≤ 4 ∧ (b'.i < 4 → rest = []) := by
  induction cs generalizing b with
  | nil =>
    cases h
    exact ⟨[], 0, rfl, fun c hc => absurd hc List.not_mem_nil, fun _ => rfl, rfl, rfl, hi,
      fun _ => rfl⟩
  | cons c cs ih =>
    unfold readBlock at h
    split_ifs at h with hlt hc hpad
    · obtain ⟨body, n, rfl, -, hnil, hp, hi', hle, hend⟩ := ih (by exact hlt) h
      obtain rfl := hnil (Nat.succ_pos _)
      refine ⟨[], n + 1, by rw [hc]; rfl, fun c hc => absurd hc List.not_mem_nil, fun _ => rfl, ?_,
        ?_, hle, hend⟩
      · rw [hp]
        ring
      · rw [hi']
        simp only [List.length_nil]
        ring
    · split at h
      · cases h
      · rename_i v hv
        obtain ⟨body, n, rfl, hbody, -, hp, hi', hle, hend⟩ := ih (by exact hlt) h
        have hmem : c ∈ base64 := not_not.1 fun hmem => by
          rw [(val_eq_none c).2 hmem] at hv
          cases hv
        refine ⟨c :: body, n, rfl, List.forall_mem_cons.2 ⟨hmem, hbody⟩, fun h0 => absurd h0 hpad,
          hp, ?_, hle, hend⟩
        rw [hi', List.length_cons]
        ring
    · cases h
      exact ⟨[], 0, rfl, fun c hc => absurd hc List.not_mem_nil, fun _ => rfl, rfl, rfl, hi,
        fun h4 => absurd h4 hlt⟩

/-- A block that is refused has a wrong character, or a character behind a `=`. -/
theorem readBlock_none {b : Block} {cs : List UInt8} (h : readBlock b cs = none)
    (ht : Ending cs) : 0 < b.padding ∧ ∃ c ∈ cs, c ≠ 61 := by
  induction cs generalizing b with
  | nil => cases h
  | cons c cs ih =>
    unfold readBlock at h
    split_ifs at h with hlt hc hpad
    · exfalso
      rcases ending_cons.1 ht with ⟨hmem, -⟩ | ⟨-, rfl | rfl⟩
      · exact pad_not_mem (hc ▸ hmem)
      · cases h
      · obtain ⟨-, d, hd, hne⟩ := ih h (ending_cons.2 (.inr ⟨rfl, .inl rfl⟩))
        exact hne (List.mem_singleton.1 hd)
    · exact ⟨hpad, c, List.mem_cons_self .., hc⟩
    · rcases ending_cons.1 ht with ⟨hmem, ht⟩ | ⟨he, -⟩
      · split at h
        · rename_i hv
          exact absurd hmem ((val_eq_none c).1 hv)
        · exact absurd (ih h ht).1 hpad
      · exact absurd he hc

/-! ## All blocks of the decoder -/

theorem decodeLoop_nil (front back : List UInt8) :
    decodeLoop [] (written front back) = some front := by
  rw [decodeLoop, dif_pos rfl]
  unfold written
  rw [List.take_left]

/-- A block that is stored. -/
theorem decodeLoop_block {t rest back : List UInt8} {b : Block} (front : List UInt8) (ht : t ≠ [])
    (h : readBlock {} t = some (b, rest)) (hi : b.i = 4) (hrest : b.padding = 0 ∨ rest = [])
    (hpad : b.padding ≤ 2) (hback : 3 - b.padding ≤ back.length) :
    decodeLoop t (written front back) =
      decodeLoop rest (written (front ++ blockBytes b) (back.drop (3 - b.padding))) := by
  rw [decodeLoop, dif_neg ht]
  split
  · rename_i hb
    rw [h] at hb
    cases hb
  · rename_i b' rest' hb
    rw [h] at hb
    cases hb
    rw [if_neg (not_not.2 hi), if_neg (fun hp => hrest.elim hp.1.ne' hp.2), if_neg (not_lt.2 hpad),
      writeBlock_written front hpad hback]

theorem length_blockBytes (b : Block) : (blockBytes b).length = 3 - b.padding := by
  unfold blockBytes
  rw [List.length_take]
  exact min_eq_left (Nat.sub_le _ _)

/-- The result of the loop over a text when `n` bytes are stored before it. -/
structure Decodes (t : List UInt8) (n : ℕ) (r : List UInt8) : Prop where
  accepted : t.length % 4 = 0 → Ending t → r.length + t.count 61 = n + t.length * 3 / 4
  rejected : ¬ (t.length % 4 = 0 ∧ Ending t) → r = []

/-- Every text ends the loop inside the buffer. -/
theorem decodeLoop_spec (t front back : List UInt8) (hback : t.length * 3 / 4 ≤ back.length) :
    ∃ r, decodeLoop t (written front back) = some r ∧ Decodes t front.length r := by
  induction hn : t.length using Nat.strong_induction_on generalizing t front back with
  | _ n ih =>
    by_cases ht : t = []
    · subst ht
      exact ⟨front, decodeLoop_nil front back, fun _ _ => rfl, fun h => absurd ⟨rfl, ending_nil⟩ h⟩
    -- `hrej`: the loop returns the empty string
    have hrej : (t.length % 4 = 0 → ¬ Ending t) → Decodes t front.length [] := fun h =>
      ⟨fun hlen hend => absurd hend (h hlen), fun _ => rfl⟩
    rw [decodeLoop, dif_neg ht]
    split
    · rename_i hb
      exact ⟨[], rfl, hrej fun _ hend => lt_irrefl 0 (readBlock_none hb hend).1⟩
    · rename_i b rest hb
      obtain ⟨body, k, htext, hbody, -, hp, hi, hle, hrest⟩ := readBlock_some (Nat.zero_le 4) hb
      simp only [Nat.zero_add] at hp hi
      have hlen : t.length = b.i + rest.length := by
        rw [htext, hi]
        simp
        ring
      split_ifs with hi4 hpad hpad2
      · refine ⟨[], rfl, hrej fun hmod => ?_⟩
        obtain rfl := hrest (by omega)
        have hpos := List.length_pos_of_ne_nil ht
        rw [List.length_nil] at hlen
        omega
      · obtain ⟨hk, hne⟩ := hpad
        have hpos := List.length_pos_of_ne_nil hne
        refine ⟨[], rfl, hrej fun hmod hend => ?_⟩
        have htwo := ending_pads (hp ▸ hk) (htext ▸ hend)
        omega
      · refine ⟨[], rfl, hrej fun hmod hend => ?_⟩
        have htwo := ending_pads (by omega) (htext ▸ hend)
        omega
      · have hdiv : t.length * 3 / 4 = 3 + rest.length * 3 / 4 := by omega
        rw [writeBlock_written front (by omega) (by omega)]
        obtain ⟨r, hr, hdec⟩ := ih rest.length (by omega) rest (front ++ blockBytes b)
          (back.drop (3 - b.padding)) (by rw [List.length_drop]; omega) rfl
        refine ⟨r, hr, ?_⟩
        rw [List.length_append, length_blockBytes] at hdec
        have hcount : t.count 61 = k + rest.count 61 := by
          have hzero : body.count 61 = 0 := List.count_eq_zero.2 fun hmem =>
            pad_not_mem (hbody _ hmem)
          rw [htext, List.count_append, List.count_append, List.count_replicate_self, hzero,
            Nat.zero_add]
        have hends : Ending t ↔ Ending (List.replicate k 61 ++ rest) := by
          rw [htext, ending_append hbody]
        rcases Nat.eq_zero_or_pos k with rfl | hk
        · rw [List.replicate_zero, List.nil_append] at hends
          refine ⟨fun hmod hend => ?_, fun h => hdec.rejected fun h' => h ⟨by omega, hends.2 h'.2⟩⟩
          have hacc := hdec.accepted (by omega) (hends.1 hend)
          omega
        · obtain rfl : rest = [] := not_not.1 fun hne => hpad ⟨by omega, hne⟩
          have hacc := hdec.accepted rfl ending_nil
          have hend : Ending t := ⟨body, k, by rw [htext, List.append_nil], hbody, by omega⟩
          refine ⟨fun _ _ => ?_, fun h => absurd ⟨by rw [hlen, List.length_nil]; omega, hend⟩ h⟩
          simp only [List.length_nil, List.count_nil] at hacc hcount hlen
          omega

/-! ## Back from the encoder -/

theorem readBlock_digit {i v : ℕ} (k : ℕ) (cs : List UInt8) (hi : i < 4) (hv : v < 64) :
    readBlock ⟨i, 0, k⟩ (digit v :: cs) = readBlock ⟨i + 1, 0, k <<< 6 ||| v⟩ cs := by
  rw [readBlock, if_pos hi, if_neg (digit_ne hv), if_neg (lt_irrefl 0), val_digit v hv]

theorem readBlock_pad {i : ℕ} (p k : ℕ) (cs : List UInt8) (hi : i < 4) :
    readBlock ⟨i, p, k⟩ (61 :: cs) = readBlock ⟨i + 1, p + 1, k <<< 6⟩ cs := by
  rw [readBlock, if_pos hi, if_pos rfl]

theorem readBlock_four (p k : ℕ) (cs : List UInt8) :
    readBlock ⟨4, p, k⟩ cs = some (⟨4, p, k⟩, cs) := by
  cases cs <;> rfl

theorem and_lt (x : ℕ) : x &&& 0x3f < 64 := Nat.lt_succ_of_le Nat.and_le_right

/-- The text of a block is read back, without the bits that have no digit. -/
theorem readBlock_blockText {x padding : ℕ} (hx : x < 2 ^ 24) (hpad : padding ≤ 2)
    (cs : List UInt8) :
    readBlock {} (blockText x padding ++ cs) =
      some (⟨4, padding, x >>> (6 * padding) <<< (6 * padding)⟩, cs) := by
  have htop : x >>> 18 < 64 := by
    rw [Nat.shiftRight_eq_div_pow]
    omega
  have h12 := digits_or x 12
  have h6 := digits_or x 6
  have h0 := digits_or x 0
  rw [Nat.shiftRight_zero] at h0
  unfold blockText
  rw [List.cons_append, List.cons_append, readBlock_digit 0 _ (by decide) htop,
    readBlock_digit _ _ (by decide) (and_lt _), Nat.zero_shiftLeft, Nat.zero_or, h12]
  match padding, hpad with
  | 0, _ =>
    simp only [ne_eq, OfNat.zero_ne_ofNat, not_false_eq_true, if_true, List.replicate_zero,
      List.append_nil, List.cons_append, List.nil_append]
    rw [readBlock_digit _ _ (by decide) (and_lt _), readBlock_digit _ _ (by decide) (and_lt _), h6,
      h0, readBlock_four]
    rfl
  | 1, _ =>
    simp only [ne_eq, OfNat.one_ne_ofNat, not_false_eq_true, if_true, one_ne_zero, if_false,
      List.append_nil, List.cons_append, List.nil_append, List.replicate_one]
    rw [readBlock_digit _ _ (by decide) (and_lt _), h6, readBlock_pad _ _ _ (by decide),
      readBlock_four]
  | 2, _ =>
    simp only [ne_eq, not_true_eq_false, if_false, OfNat.ofNat_ne_zero, List.nil_append,
      List.replicate_succ, List.replicate_zero, List.cons_append]
    rw [readBlock_pad _ _ _ (by decide), readBlock_pad _ _ _ (by decide), readBlock_four,
      ← Nat.shiftLeft_add]

theorem packed_eq (a b c : UInt8) :
    ((0 <<< 8 ||| a.toNat) <<< 8 ||| b.toNat) <<< 8 ||| c.toNat =
      a.toNat * 65536 + b.toNat * 256 + c.toNat := by
  rw [shift_or _ c.toNat_lt, shift_or _ b.toNat_lt, Nat.zero_shiftLeft, Nat.zero_or]
  ring

/-- The bytes of a block that is read back. -/
theorem blockBytes_packed (a b c : UInt8) {padding : ℕ} (hpad : padding ≤ 2) :
    blockBytes ⟨4, padding, (a.toNat * 65536 + b.toNat * 256 + c.toNat) >>> (6 * padding) <<<
      (6 * padding)⟩ = [a, b, c].take (3 - padding) := by
  have hbyte : ∀ (n : ℕ) (d : UInt8), n % 256 = d.toNat → UInt8.ofNat (n &&& 0xff) = d :=
    fun n d h => by
      apply UInt8.toNat_inj.1
      rw [UInt8.toNat_ofNat', Nat.and_two_pow_sub_one_eq_mod n 8]
      omega
  have ha := a.toNat_lt
  have hb := b.toNat_lt
  have hc := c.toNat_lt
  unfold blockBytes
  match padding, hpad with
  | 0, _ =>
    rw [hbyte _ a, hbyte _ b, hbyte _ c] <;>
      simp only [Nat.shiftRight_eq_div_pow, Nat.shiftLeft_eq] <;> omega
  | 1, _ =>
    simp only [List.take]
    rw [hbyte _ a, hbyte _ b] <;>
      simp only [Nat.shiftRight_eq_div_pow, Nat.shiftLeft_eq] <;> omega
  | 2, _ =>
    simp only [List.take]
    rw [hbyte _ a]
    simp only [Nat.shiftRight_eq_div_pow, Nat.shiftLeft_eq]
    omega

/-- A block of the encoder in front of a text. -/
theorem decodeLoop_blockText (a b c : UInt8) {padding : ℕ} {t front back : List UInt8}
    (hpad : padding ≤ 2) (ht : padding = 0 ∨ t = []) (hback : 3 - padding ≤ back.length) :
    decodeLoop (blockText (a.toNat * 65536 + b.toNat * 256 + c.toNat) padding ++ t)
        (written front back) =
      decodeLoop t (written (front ++ [a, b, c].take (3 - padding)) (back.drop (3 - padding))) := by
  have ha := a.toNat_lt
  have hb := b.toNat_lt
  have hc := c.toNat_lt
  have hread := readBlock_blockText
    (show a.toNat * 65536 + b.toNat * 256 + c.toNat < 2 ^ 24 by omega) hpad t
  rw [decodeLoop_block front (by simp [blockText]) hread rfl ht hpad hback,
    blockBytes_packed a b c hpad]

theorem decodeLoop_encode : ∀ s front back : List UInt8, s.length ≤ back.length →
    decodeLoop (base64encode s) (written front back) = some (front ++ s)
  | [], front, back, _ => by rw [encode_nil, decodeLoop_nil, List.append_nil]
  | [a], front, back, h => by
    have hpack : (0 <<< 8 ||| a.toNat) <<< 16 =
        a.toNat * 65536 + (0 : UInt8).toNat * 256 + (0 : UInt8).toNat := by
      have h0 := packed_eq a 0 0
      rwa [UInt8.toNat_zero, Nat.or_zero, Nat.or_zero, ← Nat.shiftLeft_add] at h0
    rw [encode_one, hpack, ← List.append_nil (blockText _ _),
      decodeLoop_blockText a 0 0 le_rfl (.inr rfl) h, decodeLoop_nil]
    rfl
  | [a, b], front, back, h => by
    have hpack : ((0 <<< 8 ||| a.toNat) <<< 8 ||| b.toNat) <<< 8 =
        a.toNat * 65536 + b.toNat * 256 + (0 : UInt8).toNat := by
      have h0 := packed_eq a b 0
      rwa [UInt8.toNat_zero, Nat.or_zero] at h0
    rw [encode_two, hpack, ← List.append_nil (blockText _ _),
      decodeLoop_blockText a b 0 (by omega) (.inr rfl) h, decodeLoop_nil]
    rfl
  | a :: b :: c :: s, front, back, h => by
    simp only [List.length_cons] at h
    rw [encode_three, packed_eq, decodeLoop_blockText a b c (by omega) (.inl rfl) (by omega),
      decodeLoop_encode s _ _ (by rw [List.length_drop]; omega), List.append_assoc]
    rfl

theorem length_blockText {packed padding : ℕ} (hpad : padding ≤ 2) :
    (blockText packed padding).length = 4 := by
  unfold blockText
  match padding, hpad with
  | 0, _ | 1, _ | 2, _ => rfl

theorem length_base64encode : ∀ s : List UInt8, (base64encode s).length = (s.length + 2) / 3 * 4
  | [] => by rw [encode_nil]; rfl
  | [a] => by rw [encode_one, length_blockText le_rfl]; simp
  | [a, b] => by rw [encode_two, length_blockText (by omega)]; simp
  | a :: b :: c :: s => by
    rw [encode_three, List.length_append, length_blockText (by omega), length_base64encode s]
    simp only [List.length_cons]
    omega

/-- A text that is decoded to some bytes. -/
def Accepted (t : List UInt8) : Prop := t ≠ [] ∧ t.length % 4 = 0 ∧ Ending t

theorem Ending.count_le {t : List UInt8} (h : Ending t) : t.count 61 ≤ 2 := by
  obtain ⟨body, padding, rfl, hbody, hpad⟩ := h
  have hzero : body.count 61 = 0 := List.count_eq_zero.2 fun hmem => pad_not_mem (hbody _ hmem)
  rw [List.count_append, hzero, Nat.zero_add, List.count_replicate_self]
  exact hpad

/-- What is encoded is decoded to the same bytes; the decoder stays inside its buffer, and what it
returns is empty unless the text is `Accepted`. -/
theorem base64_right (s t : List UInt8) :
    base64decode (base64encode s) = some s ∧
      ∃ r, base64decode t = some r ∧ (r ≠ [] ↔ Accepted t) ∧
        (Accepted t → r.length = 3 * t.length / 4 - t.count 61) := by
  constructor
  · exact decodeLoop_encode s [] _ (by rw [List.length_replicate, length_base64encode]; omega)
  · obtain ⟨r, hr, hdec⟩ := decodeLoop_spec t [] (List.replicate (t.length * 3 / 4) 0)
      (by rw [List.length_replicate])
    have hacc : Accepted t → r.length + t.count 61 = t.length * 3 / 4 := fun ⟨_, hmod, hend⟩ =>
      (hdec.accepted hmod hend).trans (Nat.zero_add _)
    refine ⟨r, hr, ⟨fun hne => ?_, fun h h0 => ?_⟩, fun h => ?_⟩
    · obtain ⟨hmod, hend⟩ := not_not.1 fun h => hne (hdec.rejected h)
      refine ⟨?_, hmod, hend⟩
      rintro rfl
      have hlen := hdec.accepted hmod hend
      simp only [List.count_nil, List.length_nil] at hlen
      exact hne (List.length_eq_zero_iff.1 (by omega))
    · have hpos := List.length_pos_of_ne_nil h.1
      have hmod := h.2.1
      have hcount := h.2.2.count_le
      have hlen := hacc h
      rw [h0, List.length_nil] at hlen
      omega
    · have hlen := hacc h
      omega

example : base64encode [102, 111, 111, 98] = [90, 109, 57, 118, 89, 103, 61, 61] := by
  rw [encode_three, encode_one]
  decide

end CoroutineScheduler.HashUtil
