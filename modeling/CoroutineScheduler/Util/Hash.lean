import CoroutineScheduler.ByteArray.Numbers

/-!
# Hashes

`murmur3_hash`, `murmur3_hash64` and `quick_hash` of `hash_util.cc`, each for a C string and for a
buffer with a size. A pointer is the memory from its address on, and a read behind that memory is
`none`. The byte order of the host and whether its `char` is signed are parameters.

The loop of `quick_hash` over a buffer never advances the pointer, so every round takes the first
byte (`quickLoop_eq`).
-/

namespace CoroutineScheduler.HashUtil

open CoroutineScheduler.ByteArray (ofMem)
open Splice (slice)

/-! ## `murmur3_hash` -/

/-- `ROTL`. -/
def rotl (x r : UInt32) : UInt32 := x <<< r ||| x >>> (32 - r)

def fmix32 (h : UInt32) : UInt32 :=
  let h := (h ^^^ h >>> 16) * 0x85ebca6b
  let h := (h ^^^ h >>> 13) * 0xc2b2ae35
  h ^^^ h >>> 16

/-- `s` as it goes into `h`. -/
def scramble (s : UInt32) : UInt32 := rotl (s * 0xcc9e2d51) 15 * 0x1b873593

/-- `ptr[i]`. -/
def wordAt (host : Endian) (str : List UInt8) (i : ℕ) : Option UInt32 :=
  if 4 * i + 4 ≤ str.length then some (UInt32.ofBitVec (ofMem host 4 (slice str (4 * i) 4)))
  else none

/-- The loop over the blocks, `blk` of them from the block `i` on. -/
def blockLoop (host : Endian) (str : List UInt8) (h : UInt32) (i : ℕ) : ℕ → Option UInt32
  | 0 => some h
  | blk + 1 =>
    (wordAt host str i).bind fun s =>
      blockLoop host str (rotl (h ^^^ scramble s) 13 * 5 + 0xe6546b64) (i + 1) blk

/-- `str[i]`. -/
def byteAt (str : List UInt8) (i : ℤ) : Option UInt8 := if 0 ≤ i then str[i.toNat]? else none

/-- One case of the `switch` over the tail, which is the first one or is fallen into. -/
def tailCase (byte : Option UInt8) (shift : UInt32) (s : UInt32) : Option UInt32 :=
  byte.map fun b => s ||| b.toUInt32 <<< shift

/-- The `switch` over `len & 3`, with `tail` at `start`. -/
def tailHash (str : List UInt8) (start n : ℤ) (h : UInt32) : Option UInt32 :=
  if n = 0 then some h
  else
    (if 3 ≤ n then tailCase (byteAt str (start + 2)) 16 0 else some 0).bind fun s =>
      (if 2 ≤ n then tailCase (byteAt str (start + 1)) 8 s else some s).bind fun s =>
        (tailCase (byteAt str start) 0 s).map fun s => h ^^^ scramble s

/-- What both overloads do with their `len`. -/
def murmurBody (host : Endian) (str : List UInt8) (len : ℤ) (seed : UInt32) : Option UInt32 :=
  let blk := len.tdiv 4
  (blockLoop host str seed 0 blk.toNat).bind fun h =>
    (tailHash str (blk * 4) (len % 4) h).map fun h => fmix32 (h ^^^ UInt32.ofInt len)

/-- `strlen`. -/
def strlen (str : List UInt8) : Option ℕ := str.idxOf? 0

/-- `murmur3_hash(data, size, seed)`. -/
def murmur3HashSized (host : Endian) (data : Option (List UInt8)) (size seed : UInt32) :
    Option UInt32 :=
  match data with
  | none => some 0
  | some str => murmurBody host str ((size.toNat : ℤ).bmod (2 ^ 32)) seed

/-- `murmur3_hash(str, seed)`. -/
def murmur3Hash (host : Endian) (str : Option (List UInt8)) (seed : UInt32) : Option UInt32 :=
  match str with
  | none => some 0
  | some str => (strlen str).bind fun n => murmurBody host str ((n : ℤ).bmod (2 ^ 32)) seed

/-- The two halves of `murmur3_hash64`. -/
def halves (high low : Option UInt32) : Option UInt64 :=
  high.bind fun high => low.map fun low => high.toUInt64 <<< 32 ||| low.toUInt64

/-- `murmur3_hash64(str, size, seed, seed2)`. -/
def murmur3Hash64Sized (host : Endian) (str : Option (List UInt8)) (size seed seed2 : UInt32) :
    Option UInt64 :=
  halves (murmur3HashSized host str size seed) (murmur3HashSized host str size seed2)

/-- `murmur3_hash64(str, seed, seed2)`. -/
def murmur3Hash64 (host : Endian) (str : Option (List UInt8)) (seed seed2 : UInt32) :
    Option UInt64 :=
  halves (murmur3Hash host str seed) (murmur3Hash host str seed2)

/-! ## `quick_hash` -/

/-- The value of a `char`. -/
def charInt (signed : Bool) (c : UInt8) : ℤ := if signed then c.toInt8.toInt else c.toNat

/-- `31 * h + *str`. -/
def quickStep (signed : Bool) (h : UInt32) (c : UInt8) : UInt32 :=
  31 * h + UInt32.ofInt (charInt signed c)

/-- The loop of `quick_hash(str)`. -/
def quickHashFrom (signed : Bool) (h : UInt32) : List UInt8 → Option UInt32
  | [] => none
  | c :: str => if c = 0 then some h else quickHashFrom signed (quickStep signed h c) str

/-- `quick_hash(str)`. -/
def quickHash (signed : Bool) (str : List UInt8) : Option UInt32 := quickHashFrom signed 0 str

/-- The loop of `quick_hash(tmp, size)`, for so many rounds. -/
def quickLoop (signed : Bool) (str : List UInt8) (h : UInt32) : ℕ → Option UInt32
  | 0 => some h
  | n + 1 => str.head?.bind fun c => quickLoop signed str (quickStep signed h c) n

/-- `quick_hash(tmp, size)`. -/
def quickHashSized (signed : Bool) (tmp : List UInt8) (size : UInt32) : Option UInt32 :=
  quickLoop signed tmp 0 size.toNat

/-! ## What they should agree on -/

/-- The size of a buffer as it is passed. -/
def sizeOf (s : List UInt8) : UInt32 := UInt32.ofNat s.length

/-- The bytes of `s` are hashed alike as a C string and as a buffer, and `quick_hash` of the buffer
is the sum over all of them. -/
structure HashesRight (host : Endian) (signed : Bool) (s : List UInt8) (seed seed2 : UInt32) :
    Prop where
  murmur : 0 ∉ s → s.length < 2 ^ 31 → ∃ h, murmur3Hash host (some (s ++ [0])) seed = some h ∧
    murmur3HashSized host (some (s ++ [0])) (sizeOf s) seed = some h
  murmur64 : 0 ∉ s → s.length < 2 ^ 31 →
    ∃ h, murmur3Hash64 host (some (s ++ [0])) seed seed2 = some h ∧
      murmur3Hash64Sized host (some (s ++ [0])) (sizeOf s) seed seed2 = some h
  quick : 0 ∉ s → s.length < 2 ^ 31 →
    quickHash signed (s ++ [0]) = quickHashSized signed (s ++ [0]) (sizeOf s)
  fold : quickHashSized signed s (sizeOf s) = some (s.foldl (quickStep signed) 0)

/-- A value for every byte, each multiplied by 31 as often as there are bytes behind it. -/
def weighted (f : UInt8 → ℤ) : List UInt8 → ℤ
  | [] => 0
  | c :: s => 31 ^ s.length * f c + weighted f s

/-! ## Inside the buffer -/

section
variable {host : Endian} {str : List UInt8}

theorem blockLoop_isSome (host : Endian) {blk i : ℕ} (hle : 4 * (i + blk) ≤ str.length) (h : UInt32) :
    (blockLoop host str h i blk).isSome := by
  induction blk generalizing h i with
  | zero => rfl
  | succ blk ih =>
    unfold blockLoop wordAt
    rw [if_pos (by omega), Option.bind_some]
    exact ih (by omega) _

theorem tailCase_isSome (str : List UInt8) {i : ℤ} (h0 : 0 ≤ i) (hlt : i < str.length) (shift s : UInt32) :
    ∃ r, tailCase (byteAt str i) shift s = some r := by
  unfold tailCase byteAt
  rw [if_pos h0, List.getElem?_eq_getElem (by omega)]
  exact ⟨_, rfl⟩

theorem tailHash_isSome {start n : ℤ} (h0 : 0 ≤ start) (hle : start + n ≤ str.length) (hn : 0 ≤ n)
    (h : UInt32) : (tailHash str start n h).isSome := by
  unfold tailHash
  split_ifs with hz h3 h2 h2
  · rfl
  · obtain ⟨s, hs⟩ := tailCase_isSome str (i := start + 2) (by omega) (by omega) 16 0
    obtain ⟨s', hs'⟩ := tailCase_isSome str (i := start + 1) (by omega) (by omega) 8 s
    obtain ⟨s'', hs''⟩ := tailCase_isSome str h0 (by omega) 0 s'
    rw [hs, Option.bind_some, hs', Option.bind_some, hs'']
    rfl
  · omega
  · obtain ⟨s, hs⟩ := tailCase_isSome str (i := start + 1) (by omega) (by omega) 8 0
    obtain ⟨s', hs'⟩ := tailCase_isSome str h0 (by omega) 0 s
    rw [Option.bind_some, hs, Option.bind_some, hs']
    rfl
  · obtain ⟨s, hs⟩ := tailCase_isSome str h0 (by omega) 0 0
    rw [Option.bind_some, Option.bind_some, hs]
    rfl

/-- No read is behind the length that is passed. -/
theorem murmurBody_isSome (host : Endian) {len : ℤ} (h0 : 0 ≤ len) (hle : len ≤ str.length) (seed : UInt32) :
    ∃ h, murmurBody host str len seed = some h := by
  have hdiv : len.tdiv 4 = len / 4 := Int.tdiv_eq_ediv_of_nonneg h0
  have hblocks : 4 * (0 + (len / 4).toNat) ≤ str.length := by omega
  have htail : len / 4 * 4 + len % 4 ≤ str.length := by omega
  obtain ⟨b, hb⟩ := Option.isSome_iff_exists.1 (blockLoop_isSome host hblocks seed)
  obtain ⟨t, ht⟩ := Option.isSome_iff_exists.1 (tailHash_isSome (by omega) htail (by omega) b)
  unfold murmurBody
  dsimp only
  rw [hdiv, hb, Option.bind_some, ht]
  exact ⟨_, rfl⟩

end

section
variable {s : List UInt8}

theorem strlen_append (h0 : 0 ∉ s) : strlen (s ++ [0]) = some s.length := by
  unfold strlen
  rw [List.idxOf?, List.findIdx?_append, List.findIdx?_eq_none_iff.2, List.findIdx?_cons]
  · simp
  · intro b hb
    exact beq_eq_false_iff_ne.2 fun he => h0 (he ▸ hb)

theorem toNat_sizeOf (h : s.length < 2 ^ 32) : (sizeOf s).toNat = s.length :=
  (UInt32.toNat_ofNat' ..).trans (Nat.mod_eq_of_lt h)

/-- Both overloads of `murmur3_hash` on the same bytes. -/
theorem murmur3Hash_eq (host : Endian) (h0 : 0 ∉ s) (hlen : s.length < 2 ^ 31) (seed : UInt32) :
    ∃ h, murmur3Hash host (some (s ++ [0])) seed = some h ∧
      murmur3HashSized host (some (s ++ [0])) (sizeOf s) seed = some h := by
  have hint : (s.length : ℤ).bmod (2 ^ 32) = s.length :=
    Int.bmod_eq_of_le (by omega) (by omega)
  have hle : (s.length : ℤ) ≤ (s ++ [0]).length := by rw [List.length_append]; omega
  obtain ⟨h, hh⟩ := murmurBody_isSome host (Int.natCast_nonneg _) hle seed
  refine ⟨h, ?_, ?_⟩
  · unfold murmur3Hash
    dsimp only
    rw [strlen_append h0, Option.bind_some, hint, hh]
  · unfold murmur3HashSized
    dsimp only
    rw [toNat_sizeOf (by omega), hint, hh]

end

/-! ## The sums -/

section
variable {signed : Bool} {s : List UInt8}

theorem quickHashFrom_append (h0 : 0 ∉ s) (h : UInt32) :
    quickHashFrom signed h (s ++ [0]) = some (s.foldl (quickStep signed) h) := by
  induction s generalizing h with
  | nil => rfl
  | cons c s ih =>
    obtain ⟨hc, hs⟩ := not_or.1 (mt List.mem_cons.2 h0)
    rw [List.cons_append, quickHashFrom, if_neg (Ne.symm hc), ih hs, List.foldl_cons]

/-- Every round takes the first byte. -/
theorem quickLoop_eq (c : UInt8) (s : List UInt8) (h : UInt32) (n : ℕ) :
    quickLoop signed (c :: s) h n = some ((List.replicate n c).foldl (quickStep signed) h) := by
  induction n generalizing h with
  | zero => rfl
  | succ n ih => exact ih _

theorem foldl_quickStep (s : List UInt8) (x : ℤ) : s.foldl (quickStep signed) (UInt32.ofInt x) =
    UInt32.ofInt (31 ^ s.length * x + weighted (charInt signed) s) := by
  induction s generalizing x with
  | nil =>
    rw [List.foldl_nil, List.length_nil, weighted]
    simp
  | cons c s ih =>
    have hstep : quickStep signed (UInt32.ofInt x) c = UInt32.ofInt (31 * x + charInt signed c) := by
      rw [UInt32.ofInt_add, UInt32.ofInt_mul]
      rfl
    rw [List.foldl_cons, hstep, ih, weighted, List.length_cons]
    congr 1
    ring

theorem ofInt_eq_iff (x y : ℤ) : UInt32.ofInt x = UInt32.ofInt y ↔ (2 ^ 32 : ℤ) ∣ x - y := by
  have htoNat : ∀ z : ℤ, (UInt32.ofInt z).toNat = (z % 2 ^ 32).toNat := fun z => by
    have hlt : (z % 2 ^ 32).toNat < 2 ^ 32 := by omega
    exact (UInt32.toNat_ofNat' ..).trans (Nat.mod_eq_of_lt hlt)
  rw [← UInt32.toNat_inj, htoNat, htoNat]
  omega

theorem weighted_sub (f g : UInt8 → ℤ) (s : List UInt8) :
    weighted (fun c => f c - g c) s = weighted f s - weighted g s := by
  induction s with
  | nil => rfl
  | cons c s ih =>
    rw [weighted, weighted, weighted, ih]
    ring

theorem weighted_replicate (f : UInt8 → ℤ) (c : UInt8) (s : List UInt8) :
    weighted f (List.replicate s.length c) = weighted (fun _ => f c) s := by
  induction s with
  | nil => rfl
  | cons b s ih => rw [List.length_cons, List.replicate_succ, weighted, weighted, ih,
      List.length_replicate]

/-- `quick_hash` of a buffer is the sum over all bytes when the distances to the first one cancel. -/
theorem quickHashSized_iff (signed : Bool) (back : List UInt8) (hlen : s.length < 2 ^ 32) :
    quickHashSized signed (s ++ back) (sizeOf s) = some (s.foldl (quickStep signed) 0) ↔
      (2 ^ 32 : ℤ) ∣ weighted (fun c => charInt signed c - charInt signed (s.headD 0)) s := by
  cases s with
  | nil => exact ⟨fun _ => dvd_zero _, fun _ => rfl⟩
  | cons c s =>
    have hzero : (0 : UInt32) = UInt32.ofInt 0 := rfl
    unfold quickHashSized
    rw [toNat_sizeOf hlen, List.cons_append, quickLoop_eq, Option.some_inj, hzero, foldl_quickStep,
      foldl_quickStep, weighted_replicate, mul_zero, mul_zero, zero_add, zero_add, ofInt_eq_iff,
      weighted_sub, ← dvd_neg, neg_sub]
    rfl

end

/-- The bytes of a buffer are hashed as they should be if and only if their distances to the first
byte, weighted by powers of 31, add up to a multiple of `2 ^ 32`. -/
theorem hashesRight_iff (host : Endian) (signed : Bool) {s : List UInt8} (seed seed2 : UInt32)
    (hlen : s.length < 2 ^ 32) : HashesRight host signed s seed seed2 ↔
      (2 ^ 32 : ℤ) ∣ weighted (fun c => charInt signed c - charInt signed (s.headD 0)) s := by
  have hfold := quickHashSized_iff signed [] hlen
  rw [List.append_nil] at hfold
  constructor
  · intro h
    exact hfold.1 h.fold
  · intro h
    refine ⟨fun h0 h31 => murmur3Hash_eq host h0 h31 seed, fun h0 h31 => ?_, fun h0 _ => ?_,
      hfold.2 h⟩
    · obtain ⟨high, hs, hsized⟩ := murmur3Hash_eq host h0 h31 seed
      obtain ⟨low, hs', hsized'⟩ := murmur3Hash_eq host h0 h31 seed2
      unfold murmur3Hash64 murmur3Hash64Sized
      rw [hs, hs', hsized, hsized']
      exact ⟨_, rfl, rfl⟩
    · exact (quickHashFrom_append h0 0).trans ((quickHashSized_iff signed [0] hlen).2 h).symm

theorem hashesRight_iff_aa : HashesRight .little true [97, 97] 1 2 ↔
    (2 ^ 32 : ℤ) ∣ weighted (fun c => charInt true c - charInt true 97) [97, 97] :=
  hashesRight_iff .little true 1 2 (by decide)

/-- `"ab"` in a buffer has the hash of `"aa"`. -/
theorem not_hashesRight_ab : quickHash true [97, 98, 0] = some 3105 ∧
    quickHashSized true [97, 98] 2 = some 3104 ∧ ¬ HashesRight .little true [97, 98] 1 2 :=
  ⟨by decide, by decide, fun h => absurd h.fold (by decide)⟩

end CoroutineScheduler.HashUtil
