import Mathlib.Data.Nat.Digits.Lemmas
import CoroutineScheduler.Address.Mask
import CoroutineScheduler.Uri.Machine
import CoroutineScheduler.Util.Url

/-!
# The text of an IPv6 address

`IPv6Address::insert` writes the groups of the address in one pass, with the first run of zero groups as
`::`. A reader of the standard form (`readText`) finds the same bytes (`denotes_text`), and there is at
most one `::`.
-/

namespace CoroutineScheduler.Address

open Wire CoroutineScheduler.ByteArray
open StringUtil (isxdigit xdigitChars)

/-! ## The writer -/

/-- A digit as `std::hex` writes it. -/
def hexDigit (d : ℕ) : UInt8 := if d < 10 then (48 + d).toUInt8 else (87 + d).toUInt8

/-- A number as `std::hex` writes it. -/
def hexText (n : ℕ) : List UInt8 :=
  if n = 0 then [48] else ((Nat.digits 16 n).map hexDigit).reverse

/-- The bytes of the address read through a `uint16_t*`. -/
def groups (host : Endian) : List UInt8 → List (BitVec (8 * 2))
  | b :: c :: bytes => ofMem host 2 [b, c] :: groups host bytes
  | _ => []

/-- The loop of `insert` behind the group `prev`: what it writes, and `used_zeros` after it. -/
def insertLoop (host : Endian) : Option (BitVec (8 * 2)) → Bool → List (BitVec (8 * 2)) →
    List UInt8 × Bool
  | _, usedZeros, [] => ([], usedZeros)
  | prev, usedZeros, g :: gs =>
    if g = 0 ∧ !usedZeros then insertLoop host (some g) usedZeros gs
    else
      let ends := prev = some 0 ∧ !usedZeros
      let (out, used) := insertLoop host (some g) (usedZeros || ends) gs
      ((if ends then [58] else []) ++ (if prev.isSome then [58] else []) ++
        hexText (byteswapOnLittleEndian host g).toNat ++ out, used)

/-- What `insert` writes between the brackets. -/
def SockaddrIn6.text (host : Endian) (a : SockaddrIn6) : List UInt8 :=
  let gs := groups host a.addr.toList
  let (out, used) := insertLoop host none false gs
  out ++ if !used && gs[7]? = some 0 then [58, 58] else []

/-- `IPv6Address::insert`. -/
def SockaddrIn6.insert (host : Endian) (a : SockaddrIn6) : List UInt8 :=
  91 :: (a.text host ++ 93 :: 58 ::
    Uri.decimal (byteswapOnLittleEndian host (k := 2) a.port.toBitVec).toNat)

/-! ## The standard form -/

/-- How often `::` stands in a text. -/
def doubles : List UInt8 → ℕ
  | b :: c :: t => (if b = 58 ∧ c = 58 then 1 else 0) + doubles (c :: t)
  | _ => 0

/-- The text in front of the first `::` and behind it. -/
def cutDouble : List UInt8 → Option (List UInt8 × List UInt8)
  | b :: c :: t =>
    if b = 58 ∧ c = 58 then some ([], t) else (cutDouble (c :: t)).map fun p => (b :: p.1, p.2)
  | _ => none

/-- A group: one to four hexadecimal digits. -/
def readGroup (t : List UInt8) : Option ℕ :=
  if 1 ≤ t.length ∧ t.length ≤ 4 ∧ t.all isxdigit then
    some (Nat.ofDigits 16 (t.reverse.map fun c => (xdigitChars c).toNat))
  else none

/-- Groups separated by `:`, or nothing. -/
def readGroups (t : List UInt8) : Option (List ℕ) :=
  if t = [] then some [] else (t.splitOn 58).mapM readGroup

/-- The eight groups of a text; `::` stands for as many zero groups as are missing. -/
def readText (t : List UInt8) : Option (List ℕ) :=
  match cutDouble t with
  | none => (readGroups t).bind fun gs => if gs.length = 8 then some gs else none
  | some (l, r) =>
    (readGroups l).bind fun gs => (readGroups r).bind fun hs =>
      if gs.length + hs.length < 8 then
        some (gs ++ List.replicate (8 - (gs.length + hs.length)) 0 ++ hs)
      else none

/-- The bytes that a text denotes. -/
def denotes (t : List UInt8) : Option (List UInt8) :=
  (readText t).map fun gs => gs.flatMap fun g => [UInt8.ofNat (g / 256), UInt8.ofNat g]

section
variable {n : ℕ} {ns ms : List ℕ} {s t : List UInt8}

/-! ## Groups of digits -/

theorem hexDigit_facts : ∀ d < 16, isxdigit (hexDigit d) = true ∧ (xdigitChars (hexDigit d)).toNat = d := by
  decide

theorem not_isxdigit : isxdigit 58 = false ∧ isxdigit 93 = false := by decide

theorem isxdigit_hexText (n : ℕ) : ∀ c ∈ hexText n, isxdigit c = true := by
  intro c hc
  rw [hexText] at hc
  split_ifs at hc
  · rw [List.mem_singleton.1 hc]
    rfl
  · obtain ⟨d, hd, rfl⟩ := List.mem_map.1 (List.mem_reverse.1 hc)
    exact (hexDigit_facts d (Nat.digits_lt_base (by decide) hd)).1

theorem hexText_ne_nil (n : ℕ) : hexText n ≠ [] := by
  rw [hexText]
  split_ifs with h
  · exact List.cons_ne_nil _ _
  · simpa [Nat.digits_eq_nil_iff_eq_zero] using h

theorem length_hexText (h : n < 65536) : (hexText n).length ≤ 4 := by
  rw [hexText]
  split_ifs
  · decide
  · rw [List.length_reverse, List.length_map, Nat.digits_length_le_iff (by decide)]
    exact h

theorem readGroup_hexText (h : n < 65536) : readGroup (hexText n) = some n := by
  have hpos : 1 ≤ (hexText n).length := List.length_pos_iff.2 (hexText_ne_nil n)
  have hall : (hexText n).all isxdigit = true := List.all_eq_true.2 (isxdigit_hexText n)
  rw [readGroup, if_pos ⟨hpos, length_hexText h, hall⟩]
  refine congrArg some ?_
  rw [hexText]
  split_ifs with h0
  · rw [h0]
    rfl
  · rw [List.reverse_reverse, List.map_map]
    have hdigits : (Nat.digits 16 n).map ((fun c => (xdigitChars c).toNat) ∘ hexDigit) =
        Nat.digits 16 n := by
      conv_rhs => rw [← List.map_id (Nat.digits 16 n)]
      exact List.map_congr_left fun d hd => (hexDigit_facts d (Nat.digits_lt_base (by decide) hd)).2
    rw [hdigits, Nat.ofDigits_digits]

theorem colon_not_mem (n : ℕ) : 58 ∉ hexText n := fun h => by
  have hdigit := isxdigit_hexText n 58 h
  rw [not_isxdigit.1] at hdigit
  cases hdigit

/-! ## Groups between colons -/

/-- Groups separated by `:`. -/
def join : List ℕ → List UInt8
  | [] => []
  | n :: ns => hexText n ++ ns.flatMap fun m => 58 :: hexText m

theorem join_cons_cons (n m : ℕ) (ns : List ℕ) :
    join (n :: m :: ns) = hexText n ++ 58 :: join (m :: ns) := rfl

theorem join_eq_intercalate (ns : List ℕ) : join ns = [58].intercalate (ns.map hexText) := by
  induction ns with
  | nil => rfl
  | cons n ns ih =>
    cases ns with
    | nil => simp [join]
    | cons m ns =>
      rw [join_cons_cons, ih]
      simp only [List.map_cons, List.intercalate_cons_cons, List.append_assoc, List.cons_append,
        List.nil_append]

theorem head_hexText (n : ℕ) : ∃ b t, hexText n = b :: t ∧ b ≠ 58 := by
  obtain ⟨b, t, hbt⟩ := List.exists_cons_of_ne_nil (hexText_ne_nil n)
  refine ⟨b, t, hbt, fun hb => colon_not_mem n ?_⟩
  rw [hbt, hb]
  exact List.mem_cons_self ..

theorem head_join (n : ℕ) (ns : List ℕ) : ∃ b t, join (n :: ns) = b :: t ∧ b ≠ 58 := by
  obtain ⟨b, t, hbt, hb⟩ := head_hexText n
  exact ⟨b, _, by rw [join, hbt]; rfl, hb⟩

theorem readGroups_join (h : ∀ n ∈ ns, n < 65536) : readGroups (join ns) = some ns := by
  cases ns with
  | nil => rfl
  | cons n ns =>
    have hne : join (n :: ns) ≠ [] := by
      obtain ⟨b, t, hbt, -⟩ := head_join n ns
      rw [hbt]
      exact List.cons_ne_nil _ _
    have hsplit : (join (n :: ns)).splitOn 58 = (n :: ns).map hexText := by
      rw [join_eq_intercalate]
      refine List.splitOn_intercalate _ (fun w hw => ?_) (by simp)
      obtain ⟨m, -, rfl⟩ := List.mem_map.1 hw
      exact colon_not_mem m
    rw [readGroups, if_neg hne, hsplit]
    generalize n :: ns = ms at h
    induction ms with
    | nil => rfl
    | cons m ms ih =>
      rw [List.map_cons, List.mapM_cons, readGroup_hexText (h m (List.mem_cons_self ..)),
        ih fun n hn => h n (List.mem_cons_of_mem _ hn)]
      rfl

/-! ## Where `::` stands -/

theorem cutDouble_cons {b : UInt8} (hb : b ≠ 58) :
    cutDouble (b :: s) = (cutDouble s).map fun p => (b :: p.1, p.2) := by
  cases s with
  | nil => rfl
  | cons c s => rw [cutDouble, if_neg fun h => hb h.1]

theorem doubles_cons {b : UInt8} (hb : b ≠ 58) : doubles (b :: s) = doubles s := by
  cases s with
  | nil => rfl
  | cons c s => rw [doubles, if_neg fun h => hb h.1, Nat.zero_add]

theorem cutDouble_append (h : 58 ∉ t) :
    cutDouble (t ++ s) = (cutDouble s).map fun p => (t ++ p.1, p.2) := by
  induction t with
  | nil =>
    rw [List.nil_append]
    cases cutDouble s <;> rfl
  | cons b t ih =>
    rw [List.mem_cons, not_or] at h
    rw [List.cons_append, cutDouble_cons (Ne.symm h.1), ih h.2, Option.map_map]
    rfl

theorem doubles_append (h : 58 ∉ t) : doubles (t ++ s) = doubles s := by
  induction t with
  | nil => rfl
  | cons b t ih =>
    rw [List.mem_cons, not_or] at h
    rw [List.cons_append, doubles_cons (Ne.symm h.1), ih h.2]

/-- A single `:` in front of a group. -/
theorem cutDouble_colon (n : ℕ) (ns : List ℕ) :
    cutDouble (58 :: (join (n :: ns) ++ s)) =
      (cutDouble (join (n :: ns) ++ s)).map fun p => (58 :: p.1, p.2) := by
  obtain ⟨b, t, hbt, hb⟩ := head_join n ns
  rw [hbt, List.cons_append, cutDouble, if_neg fun h => hb h.2]

theorem doubles_colon (n : ℕ) (ns : List ℕ) :
    doubles (58 :: (join (n :: ns) ++ s)) = doubles (join (n :: ns) ++ s) := by
  obtain ⟨b, t, hbt, hb⟩ := head_join n ns
  rw [hbt, List.cons_append, doubles, if_neg fun h => hb h.2, Nat.zero_add]

theorem cutDouble_join (ns : List ℕ) :
    cutDouble (join ns ++ s) = (cutDouble s).map fun p => (join ns ++ p.1, p.2) := by
  induction ns with
  | nil => exact cutDouble_append List.not_mem_nil
  | cons n ns ih =>
    cases ns with
    | nil => simpa [join] using cutDouble_append (colon_not_mem n)
    | cons m ns =>
      rw [join_cons_cons, List.append_assoc, cutDouble_append (colon_not_mem n), List.cons_append,
        cutDouble_colon, ih, Option.map_map, Option.map_map]
      refine congrArg (Option.map · _) (funext fun p => ?_)
      simp

theorem doubles_join (ns : List ℕ) : doubles (join ns ++ s) = doubles s := by
  induction ns with
  | nil => rfl
  | cons n ns ih =>
    cases ns with
    | nil => simpa [join] using doubles_append (colon_not_mem n)
    | cons m ns =>
      rw [join_cons_cons, List.append_assoc, doubles_append (colon_not_mem n), List.cons_append,
        doubles_colon, ih]

theorem doubles_double (ms : List ℕ) : doubles (58 :: 58 :: join ms) = 1 := by
  rw [doubles, if_pos ⟨rfl, rfl⟩]
  cases ms with
  | nil => rfl
  | cons m ms =>
    have hcolon := doubles_colon (s := []) m ms
    have hjoin := doubles_join (s := []) (m :: ms)
    rw [List.append_nil] at hcolon hjoin
    rw [hcolon, hjoin]
    rfl

/-! ## The reader -/

theorem readText_join (h : ∀ n ∈ ns, n < 65536) (hlen : ns.length = 8) :
    readText (join ns) = some ns := by
  have hcut := cutDouble_join (s := []) ns
  rw [List.append_nil] at hcut
  rw [readText, hcut]
  simp [cutDouble, readGroups_join h, hlen]

theorem readText_double (hn : ∀ n ∈ ns, n < 65536) (hm : ∀ m ∈ ms, m < 65536)
    (hlen : ns.length + ms.length < 8) : readText (join ns ++ 58 :: 58 :: join ms) =
      some (ns ++ List.replicate (8 - (ns.length + ms.length)) 0 ++ ms) := by
  have hcut : cutDouble (join ns ++ 58 :: 58 :: join ms) = some (join ns, join ms) := by
    rw [cutDouble_join, cutDouble, if_pos ⟨rfl, rfl⟩, Option.map_some, List.append_nil]
  rw [readText, hcut]
  simp only [readGroups_join hn, readGroups_join hm, Option.bind_some, if_pos hlen]

end

/-! ## What the loop writes -/

/-- The number that is printed for a group. -/
def value (host : Endian) (g : BitVec (8 * 2)) : ℕ := (byteswapOnLittleEndian host g).toNat

section
variable {host : Endian} {g : BitVec (8 * 2)} {gs : List (BitVec (8 * 2))}
  {prev : Option (BitVec (8 * 2))}

theorem insertLoop_skip : insertLoop host prev false (0 :: gs) = insertLoop host (some 0) false gs := by
  rw [insertLoop, if_pos ⟨rfl, rfl⟩]

theorem insertLoop_write {used : Bool} (h : g = 0 → used = true) :
    insertLoop host prev used (g :: gs) =
      ((if prev = some 0 ∧ !used then [58] else []) ++ (if prev.isSome then [58] else []) ++
          hexText (value host g) ++
            (insertLoop host (some g) (used || decide (prev = some 0 ∧ !used)) gs).1,
        (insertLoop host (some g) (used || decide (prev = some 0 ∧ !used)) gs).2) := by
  have hcond : ¬(g = 0 ∧ (!used) = true) := fun hg => by
    rw [h hg.1] at hg
    cases hg.2
  rw [insertLoop, if_neg hcond]
  rfl

/-- Behind the `::` every group is written with a `:` in front of it. -/
theorem insertLoop_used (p : BitVec (8 * 2)) (gs : List (BitVec (8 * 2))) :
    insertLoop host (some p) true gs =
      ((gs.map (value host)).flatMap fun n => 58 :: hexText n, true) := by
  induction gs generalizing p with
  | nil => rfl
  | cons g gs ih =>
    rw [insertLoop_write fun _ => rfl, Bool.true_or, ih]
    simp

/-- In the first run of zero groups nothing is written, and behind it the groups with `::` in front of
them. -/
theorem insertLoop_zeros (host : Endian) (gs : List (BitVec (8 * 2))) : ∃ zeros post, gs = zeros ++ post ∧
    (∀ z ∈ zeros, z = 0) ∧ insertLoop host (some 0) false gs =
      (if post = [] then [] else 58 :: 58 :: join (post.map (value host)), decide (post ≠ [])) := by
  induction gs with
  | nil => exact ⟨[], [], rfl, fun z hz => absurd hz List.not_mem_nil, rfl⟩
  | cons g gs ih =>
    by_cases hg : g = 0
    · obtain ⟨zeros, post, heq, hzero, hloop⟩ := ih
      refine ⟨g :: zeros, post, by rw [heq]; rfl, ?_, ?_⟩
      · intro z hz
        rcases List.mem_cons.1 hz with rfl | hz
        · exact hg
        · exact hzero z hz
      · rw [hg, insertLoop_skip, hloop]
    · refine ⟨[], g :: gs, rfl, fun z hz => absurd hz List.not_mem_nil, ?_⟩
      have hused : (false || decide (some (0 : BitVec (8 * 2)) = some 0 ∧ (!false) = true)) = true := rfl
      rw [insertLoop_write fun h => absurd h hg, hused, insertLoop_used, if_neg (List.cons_ne_nil _ _),
        if_pos ⟨rfl, rfl⟩]
      simp [join]

/-- The groups in front of the first run of zeros are written, each but the first of the address with a
`:` in front of it. -/
theorem insertLoop_front (hprev : prev ≠ some 0) (gs : List (BitVec (8 * 2))) :
    ∃ pre zeros post, gs = pre ++ (zeros ++ post) ∧ (∀ z ∈ zeros, z = 0) ∧ (∀ g ∈ pre, g ≠ 0) ∧
      (zeros = [] → post = []) ∧ insertLoop host prev false gs =
        ((if prev.isSome then (pre.map (value host)).flatMap fun n => 58 :: hexText n
          else join (pre.map (value host))) ++
            (if post = [] then [] else 58 :: 58 :: join (post.map (value host))),
          decide (post ≠ [])) := by
  induction gs generalizing prev with
  | nil =>
    refine ⟨[], [], [], rfl, fun z hz => absurd hz List.not_mem_nil,
      fun z hz => absurd hz List.not_mem_nil, fun _ => rfl, ?_⟩
    cases prev <;> rfl
  | cons g gs ih =>
    by_cases hg : g = 0
    · obtain ⟨zeros, post, heq, hzero, hloop⟩ := insertLoop_zeros host gs
      refine ⟨[], g :: zeros, post, by rw [heq]; rfl, ?_, fun z hz => absurd hz List.not_mem_nil,
        fun h => absurd h (List.cons_ne_nil _ _), ?_⟩
      · intro z hz
        rcases List.mem_cons.1 hz with rfl | hz
        · exact hg
        · exact hzero z hz
      · rw [hg, insertLoop_skip, hloop]
        cases prev <;> rfl
    · obtain ⟨pre, zeros, post, heq, hzero, hpre, hend, hloop⟩ :=
        @ih (some g) fun h => hg (Option.some.inj h)
      refine ⟨g :: pre, zeros, post, by rw [heq]; rfl, hzero, ?_, hend, ?_⟩
      · intro h hh
        rcases List.mem_cons.1 hh with rfl | hh
        · exact hg
        · exact hpre h hh
      · have hends : ¬(prev = some 0 ∧ (!false) = true) := fun h => hprev h.1
        rw [insertLoop_write fun h => absurd h hg, if_neg hends, decide_eq_false hends, Bool.or_false,
          hloop]
        cases prev <;> simp [join]

/-! ## The text of an address -/

theorem value_lt (host : Endian) (g : BitVec (8 * 2)) : value host g < 65536 :=
  (byteswapOnLittleEndian host g).isLt

theorem value_zero (host : Endian) : value host 0 = 0 := by cases host <;> rfl

/-- On both hosts a group has its first byte in front. -/
theorem value_ofMem (host : Endian) (b c : UInt8) :
    value host (ofMem host 2 [b, c]) = 256 * b.toNat + c.toNat := by
  have hb := b.toNat_lt
  have hc := c.toNat_lt
  have hsum : ofLeBytes [c, b] = 256 * b.toNat + c.toNat := by
    rw [ofLeBytes, ofLeBytes, ofLeBytes]
    omega
  cases host with
  | big =>
    rw [value, byteswapOnLittleEndian, ofMem, List.reverse_cons, List.reverse_singleton,
      List.singleton_append, ofLeBytes_toNat (by rfl), hsum]
  | little =>
    have hback := leBytes_ofLeBytes [b, c]
    have hlen : [b, c].length = 2 := rfl
    rw [value, byteswapOnLittleEndian, ofMem, byteswap, ofLeBytes_toNat hlen]
    rw [List.length_cons, List.length_singleton] at hback
    rw [hback, List.reverse_cons, List.reverse_singleton, List.singleton_append,
      ofLeBytes_toNat (by rfl), hsum]

theorem length_groups (host : Endian) (bytes : List UInt8) :
    (groups host bytes).length = bytes.length / 2 := by
  induction bytes using groups.induct with
  | case1 b c bytes ih =>
    rw [groups, List.length_cons, ih, List.length_cons, List.length_cons]
    omega
  | case2 bytes h =>
    match bytes, h with
    | [], _ | [_], _ => simp [groups]
    | _ :: _ :: _, h => exact absurd rfl (h _ _ _)

/-- The groups denote the bytes. -/
theorem bytes_of_groups (host : Endian) (bytes : List UInt8) (h : bytes.length % 2 = 0) :
    ((groups host bytes).map (value host)).flatMap
      (fun g => [UInt8.ofNat (g / 256), UInt8.ofNat g]) = bytes := by
  induction bytes using groups.induct with
  | case1 b c bytes ih =>
    have hb := b.toNat_lt
    have hc := c.toNat_lt
    have hlow : UInt8.ofNat (256 * b.toNat + c.toNat) = c := by
      apply UInt8.toNat_inj.1
      rw [UInt8.toNat_ofNat']
      omega
    have hhigh : UInt8.ofNat ((256 * b.toNat + c.toNat) / 256) = b := by
      apply UInt8.toNat_inj.1
      rw [UInt8.toNat_ofNat']
      omega
    rw [List.length_cons, List.length_cons] at h
    rw [groups, List.map_cons, List.flatMap_cons, value_ofMem, hlow, hhigh, ih (by omega)]
    rfl
  | case2 bytes hshort =>
    match bytes, hshort, h with
    | [], _, _ => rfl
    | [_], _, h => cases h
    | _ :: _ :: _, hshort, _ => exact absurd rfl (hshort _ _ _)

/-- The text is the groups between colons, with `::` for the first run of zeros. -/
theorem text_shape (host : Endian) (a : SockaddrIn6) : ∃ pre zeros post : List ℕ,
    (groups host a.addr.toList).map (value host) = pre ++ (zeros ++ post) ∧ (∀ z ∈ zeros, z = 0) ∧
    ((zeros = [] ∧ post = [] ∧ a.text host = join pre) ∨
      (zeros ≠ [] ∧ a.text host = join pre ++ 58 :: 58 :: join post)) := by
  have hlen : (groups host a.addr.toList).length = 8 := by
    rw [length_groups, Vector.length_toList]
  obtain ⟨pre, zeros, post, heq, hzero, hpre, hend, hloop⟩ :=
    @insertLoop_front host none (fun h => by cases h) (groups host a.addr.toList)
  have htext : a.text host = join (pre.map (value host)) ++
      (if post = [] then [] else 58 :: 58 :: join (post.map (value host))) ++
        if !decide (post ≠ []) && (groups host a.addr.toList)[7]? = some 0 then [58, 58] else [] := by
    rw [SockaddrIn6.text, hloop]
    rfl
  refine ⟨pre.map (value host), zeros.map (value host), post.map (value host), ?_, ?_, ?_⟩
  · rw [heq, List.map_append, List.map_append]
  · intro n hn
    obtain ⟨z, hz, rfl⟩ := List.mem_map.1 hn
    rw [hzero z hz, value_zero]
  · by_cases hpost : post = []
    · have hlast : (groups host a.addr.toList)[7]? = some 0 ↔ zeros ≠ [] := by
        rw [hpost, List.append_nil] at heq
        rw [heq] at hlen ⊢
        rw [show 7 = (pre ++ zeros).length - 1 by omega, ← List.getLast?_eq_getElem?]
        constructor
        · rintro hl rfl
          rw [List.append_nil] at hl
          exact hpre 0 (List.mem_of_getLast? hl) rfl
        · intro hne
          rw [List.getLast?_append_of_ne_nil _ hne, List.getLast?_eq_some_getLast hne,
            hzero _ (List.getLast_mem hne)]
      have hbool : decide ((groups host a.addr.toList)[7]? = some 0) = decide (zeros ≠ []) :=
        decide_eq_decide.2 hlast
      rw [hpost, hbool] at htext
      by_cases hz : zeros = []
      · refine Or.inl ⟨by simp [hz], by simp [hpost], ?_⟩
        rw [htext]
        simp [hz]
      · refine Or.inr ⟨by simpa using hz, ?_⟩
        rw [htext]
        simp [hz, hpost, join]
    · refine Or.inr ⟨fun h => hpost (hend (by simpa using h)), ?_⟩
      rw [htext]
      simp [hpost]

/-- There is at most one `::`. -/
theorem doubles_text (host : Endian) (a : SockaddrIn6) : doubles (a.text host) ≤ 1 := by
  obtain ⟨pre, zeros, post, -, -, ⟨-, -, htext⟩ | ⟨-, htext⟩⟩ := text_shape host a
  · have hnone := doubles_join (s := []) pre
    rw [List.append_nil] at hnone
    rw [htext, hnone]
    exact Nat.zero_le 1
  · rw [htext, doubles_join, doubles_double]

/-- The text denotes the bytes of the address. -/
theorem denotes_text (host : Endian) (a : SockaddrIn6) : denotes (a.text host) = some a.addr.toList := by
  obtain ⟨pre, zeros, post, heq, hzero, hshape⟩ := text_shape host a
  have hlen : pre.length + (zeros.length + post.length) = 8 := by
    have h := congrArg List.length heq
    rw [List.length_map, length_groups, Vector.length_toList, List.length_append,
      List.length_append] at h
    exact h.symm
  have hlt : ∀ n ∈ pre ++ (zeros ++ post), n < 65536 := by
    rw [← heq]
    intro n hn
    obtain ⟨g, -, rfl⟩ := List.mem_map.1 hn
    exact value_lt host g
  have hread : readText (a.text host) = some (pre ++ (zeros ++ post)) := by
    rcases hshape with ⟨hz, hp, htext⟩ | ⟨hz, htext⟩
    · rw [htext, hz, hp, List.append_nil, List.append_nil]
      refine readText_join (fun n hn => hlt n (List.mem_append_left _ hn)) ?_
      simpa [hz, hp] using hlen
    · have hpos : 0 < zeros.length := List.length_pos_iff.2 hz
      have hzeros : zeros = List.replicate (8 - (pre.length + post.length)) 0 := by
        rw [List.eq_replicate_iff]
        exact ⟨by omega, hzero⟩
      rw [htext, readText_double (fun n hn => hlt n (List.mem_append_left _ hn))
        (fun n hn => hlt n (List.mem_append_right _ (List.mem_append_right _ hn))) (by omega),
        ← hzeros, List.append_assoc]
  rw [denotes, hread, Option.map_some, ← heq, bytes_of_groups host _ (by rw [Vector.length_toList])]

theorem isxdigit_or_colon {c : UInt8} {ns : List ℕ} (h : c ∈ join ns) :
    isxdigit c = true ∨ c = 58 := by
  cases ns with
  | nil => cases h
  | cons n ns =>
    rcases List.mem_append.1 h with h | h
    · exact Or.inl (isxdigit_hexText n c h)
    · obtain ⟨m, -, h⟩ := List.mem_flatMap.1 h
      exact (List.mem_cons.1 h).symm.imp_left (isxdigit_hexText m c)

/-- The closing bracket is the first one. -/
theorem bracket_not_mem (host : Endian) (a : SockaddrIn6) : 93 ∉ a.text host := by
  have hjoin : ∀ ns : List ℕ, 93 ∉ join ns := fun ns h => by
    rcases isxdigit_or_colon h with h | h
    · rw [not_isxdigit.2] at h
      cases h
    · cases h
  obtain ⟨pre, zeros, post, -, -, ⟨-, -, htext⟩ | ⟨-, htext⟩⟩ := text_shape host a
  · rw [htext]
    exact hjoin pre
  · rw [htext]
    simp [hjoin]

/-- What `insert` prints has at most one `::` between the brackets, which denotes the bytes of the address:
two addresses that print alike are the same. -/
theorem insert_faithful (host : Endian) (a : SockaddrIn6) :
    a.insert host = 91 :: (a.text host ++ 93 :: 58 ::
        Uri.decimal (byteswapOnLittleEndian host (k := 2) a.port.toBitVec).toNat) ∧
      93 ∉ a.text host ∧ doubles (a.text host) ≤ 1 ∧ denotes (a.text host) = some a.addr.toList ∧
      ∀ b : SockaddrIn6, b.insert host = a.insert host → b.addr = a.addr := by
  refine ⟨rfl, bracket_not_mem host a, doubles_text host a, denotes_text host a, fun b h => ?_⟩
  have hbody := List.cons.inj h |>.2
  have htake : ∀ (t r : List UInt8), 93 ∉ t → (t ++ 93 :: r).takeWhile (· ≠ 93) = t := by
    intro t r ht
    have hall : ∀ c ∈ t, (c ≠ 93 : Bool) = true := fun c hc => by
      simpa using fun he : c = 93 => ht (he ▸ hc)
    rw [List.takeWhile_append_of_pos hall]
    simp
  have htext : b.text host = a.text host := by
    rw [← htake _ _ (bracket_not_mem host b), hbody, htake _ _ (bracket_not_mem host a)]
  have hbytes := denotes_text host b
  rw [htext, denotes_text] at hbytes
  exact Vector.toList_inj.1 (Option.some.inj hbytes).symm

end

end CoroutineScheduler.Address
