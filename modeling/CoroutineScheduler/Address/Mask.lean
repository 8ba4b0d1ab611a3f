import CoroutineScheduler.ByteArray.Numbers

/-!
# Masks of addresses

`CreateMask` and the broadcast, network and mask addresses of `IPv4Address` and `IPv6Address`, with the
undefined steps as faults. An address is looked at as its bits in network order (`IPAddress.bit`).
`maskRight_iff` says where the broadcast address and the mask are defined and right, and
`networkRight_iff` where the network address is, which the code takes with the host mask.
-/

namespace CoroutineScheduler.Address

open Wire CoroutineScheduler.ByteArray

/-- What is undefined: a shift by the width of `int` or more, an overflow of `int`, an index past the
end. -/
inductive MaskFault
  | shift | overflow | index
  deriving DecidableEq, Repr

/-- `byteswapOnLittleEndian`. -/
def byteswapOnLittleEndian (host : Endian) {k : ℕ} (v : BitVec (8 * k)) : BitVec (8 * k) :=
  match host with
  | .little => byteswap v
  | .big => v

/-- `CreateMask<T>(bits)` for a type of `size` bytes: `(1 << (sizeof(T) * 8 - bits)) - 1` in `int`. -/
def createMask (size bits : ℕ) : Except MaskFault (BitVec (8 * size)) :=
  -- the difference is a `size_t` and wraps
  if 8 * size < bits ∨ 32 ≤ 8 * size - bits then .error .shift
  -- `1 << 31` is the least `int`
  else if 8 * size - bits = 31 then .error .overflow
  else .ok (BitVec.ofNat _ (2 ^ (8 * size - bits) - 1))

/-- `sockaddr_in`; the address and the port as the host reads them. -/
structure SockaddrIn where
  family : UInt16
  port : UInt16
  addr : BitVec (8 * 4)
  deriving DecidableEq, Repr

/-- `sockaddr_in6`, with the bytes of `s6_addr`. -/
structure SockaddrIn6 where
  family : UInt16
  port : UInt16
  addr : Vector UInt8 16
  deriving DecidableEq, Repr

/-- `IPv4Address` and `IPv6Address`. -/
inductive IPAddress
  | ipv4 (addr : SockaddrIn)
  | ipv6 (addr : SockaddrIn6)
  deriving DecidableEq, Repr

/-! ## IPv4 -/

namespace SockaddrIn

variable (host : Endian) (prefixLen : ℕ)

def broadcastAddress (a : SockaddrIn) : Except MaskFault (Option SockaddrIn) :=
  if 32 < prefixLen then .ok none
  else do
    let mask ← createMask 4 prefixLen
    return some { a with addr := a.addr ||| byteswapOnLittleEndian host mask }

def networdAddress (a : SockaddrIn) : Except MaskFault (Option SockaddrIn) :=
  if 32 < prefixLen then .ok none
  else do
    let mask ← createMask 4 prefixLen
    return some { a with addr := a.addr &&& byteswapOnLittleEndian host mask }

/-- `AF_INET` is 2. -/
def subnetMask : Except MaskFault SockaddrIn := do
  let mask ← createMask 4 prefixLen
  return { family := 2, port := 0, addr := ~~~byteswapOnLittleEndian host mask }

end SockaddrIn

/-! ## IPv6 -/

/-- `s6_addr[i]`. -/
def load (a : Vector UInt8 16) (i : ℕ) : Except MaskFault UInt8 :=
  if h : i < 16 then .ok a[i] else .error .index

/-- `s6_addr[i] = x`. -/
def store (a : Vector UInt8 16) (i : ℕ) (x : UInt8) : Except MaskFault (Vector UInt8 16) :=
  if h : i < 16 then .ok (a.set i x h) else .error .index

/-- The loops that set the bytes from `i` on, `n` times. -/
def fill (x : UInt8) : ℕ → ℕ → Vector UInt8 16 → Except MaskFault (Vector UInt8 16)
  | _, 0, a => .ok a
  | i, n + 1, a => do
    let a ← store a i x
    fill x (i + 1) n a

namespace SockaddrIn6

variable (prefixLen : ℕ)

def broadcastAddress (a : SockaddrIn6) : Except MaskFault SockaddrIn6 := do
  let mask ← createMask 1 (prefixLen % 8)
  let b ← load a.addr (prefixLen / 8)
  let addr ← store a.addr (prefixLen / 8) (b ||| UInt8.ofBitVec mask)
  let addr ← fill 0xff (prefixLen / 8 + 1) (16 - (prefixLen / 8 + 1)) addr
  return { a with addr }

def networdAddress (a : SockaddrIn6) : Except MaskFault SockaddrIn6 := do
  let mask ← createMask 1 (prefixLen % 8)
  let b ← load a.addr (prefixLen / 8)
  let addr ← store a.addr (prefixLen / 8) (b &&& UInt8.ofBitVec mask)
  let addr ← fill 0x00 (prefixLen / 8 + 1) (16 - (prefixLen / 8 + 1)) addr
  return { a with addr }

/-- `AF_INET6` is 10. -/
def subnetMask : Except MaskFault SockaddrIn6 := do
  let mask ← createMask 1 (prefixLen % 8)
  let addr ← store (Vector.replicate 16 0) (prefixLen / 8) (~~~UInt8.ofBitVec mask)
  let addr ← fill 0xff 0 (prefixLen / 8) addr
  return { family := 10, port := 0, addr }

end SockaddrIn6

/-! ## Both kinds -/

namespace IPAddress

variable (host : Endian) (prefixLen : ℕ)

def broadcastAddress : IPAddress → Except MaskFault (Option IPAddress)
  | .ipv4 a => (a.broadcastAddress host prefixLen).map (Option.map .ipv4)
  | .ipv6 a => (a.broadcastAddress prefixLen).map fun r => some (.ipv6 r)

def networdAddress : IPAddress → Except MaskFault (Option IPAddress)
  | .ipv4 a => (a.networdAddress host prefixLen).map (Option.map .ipv4)
  | .ipv6 a => (a.networdAddress prefixLen).map fun r => some (.ipv6 r)

def subnetMask : IPAddress → Except MaskFault IPAddress
  | .ipv4 _ => (SockaddrIn.subnetMask host prefixLen).map .ipv4
  | .ipv6 _ => (SockaddrIn6.subnetMask prefixLen).map .ipv6

/-- The number of bits. -/
def width : IPAddress → ℕ
  | .ipv4 _ => 32
  | .ipv6 _ => 128

def family : IPAddress → UInt16
  | .ipv4 a => a.family
  | .ipv6 a => a.family

def port : IPAddress → UInt16
  | .ipv4 a => a.port
  | .ipv6 a => a.port

/-- Bit `j` of the address in network order, the highest bit of the first byte is bit 0. -/
def bit : IPAddress → ℕ → Bool
  | .ipv4 a, j => (byteswapOnLittleEndian host a.addr).getMsbD j
  | .ipv6 a, j => ((a.addr[j / 8]?).getD 0).toBitVec.getMsbD (j % 8)

/-- The broadcast address has all bits after the prefix set, the mask exactly those of the prefix. -/
def MaskRight (a : IPAddress) : Prop :=
  ∃ r m, a.broadcastAddress host prefixLen = .ok (some r) ∧ a.subnetMask host prefixLen = .ok m ∧
    r.family = a.family ∧ r.port = a.port ∧
    (∀ j < a.width, r.bit host j = (a.bit host j || decide (prefixLen ≤ j))) ∧
    ∀ j < a.width, m.bit host j = decide (j < prefixLen)

/-- The network address keeps the bits of the prefix and no others, which is what the mask leaves of the
address; taken again it is the same. -/
def NetworkRight (a : IPAddress) : Prop :=
  ∃ r m, a.networdAddress host prefixLen = .ok (some r) ∧ a.subnetMask host prefixLen = .ok m ∧
    r.family = a.family ∧ r.port = a.port ∧
    (∀ j < a.width, r.bit host j = (a.bit host j && decide (j < prefixLen))) ∧
    (∀ j < a.width, r.bit host j = (a.bit host j && m.bit host j)) ∧
    r.networdAddress host prefixLen = .ok (some r)

end IPAddress

/-! ## Words in network order -/

section
variable {host : Endian} {k i j p : ℕ} (v w : BitVec (8 * k))

/-- The bytes change places, the bits stay in their byte. -/
theorem getLsbD_byteswap (hi : i < 8 * k) :
    (byteswap v).getLsbD i = v.getLsbD (8 * (k - 1 - i / 8) + i % 8) := by
  have hbyte : i / 8 < k := by omega
  have hrev : k - 1 - i / 8 < k := by omega
  rw [byteswap, BitVec.getLsbD_ofNat, testBit_ofLeBytes, List.getElem?_reverse (by simpa using hbyte),
    length_leBytes, getElem?_leBytes _ hrev, Option.getD_some, UInt8.toNat_ofNat', pow_256,
    Nat.testBit_mod_two_pow, Nat.testBit_div_two_pow]
  have hmod : i % 8 < 8 := Nat.mod_lt _ (by decide)
  simp [hi, hmod, BitVec.getLsbD, Nat.add_comm]

theorem byteswap_and : byteswap (v &&& w) = byteswap v &&& byteswap w := by
  refine BitVec.eq_of_getLsbD_eq fun i hi => ?_
  rw [BitVec.getLsbD_and, getLsbD_byteswap _ hi, getLsbD_byteswap _ hi, getLsbD_byteswap _ hi,
    BitVec.getLsbD_and]

theorem byteswap_or : byteswap (v ||| w) = byteswap v ||| byteswap w := by
  refine BitVec.eq_of_getLsbD_eq fun i hi => ?_
  rw [BitVec.getLsbD_or, getLsbD_byteswap _ hi, getLsbD_byteswap _ hi, getLsbD_byteswap _ hi,
    BitVec.getLsbD_or]

theorem byteswap_not : byteswap (~~~v) = ~~~byteswap v := by
  refine BitVec.eq_of_getLsbD_eq fun i hi => ?_
  have hplace : 8 * (k - 1 - i / 8) + i % 8 < 8 * k := by omega
  rw [BitVec.getLsbD_not, getLsbD_byteswap _ hi, getLsbD_byteswap _ hi, BitVec.getLsbD_not]
  simp [hi, hplace]

theorem swap_swap : byteswapOnLittleEndian host (byteswapOnLittleEndian host v) = v := by
  cases host with
  | little => exact byteswap_byteswap v
  | big => rfl

theorem swap_and : byteswapOnLittleEndian host (v &&& w) =
    byteswapOnLittleEndian host v &&& byteswapOnLittleEndian host w := by
  cases host with
  | little => exact byteswap_and v w
  | big => rfl

theorem swap_or : byteswapOnLittleEndian host (v ||| w) =
    byteswapOnLittleEndian host v ||| byteswapOnLittleEndian host w := by
  cases host with
  | little => exact byteswap_or v w
  | big => rfl

theorem swap_not : byteswapOnLittleEndian host (~~~v) = ~~~byteswapOnLittleEndian host v := by
  cases host with
  | little => exact byteswap_not v
  | big => rfl

end

/-! ## The masks -/

/-- All bits but the first `bits`. -/
def hostMask (size bits : ℕ) : BitVec (8 * size) := BitVec.ofNat _ (2 ^ (8 * size - bits) - 1)

section
variable {host : Endian} {size bits j p : ℕ}

theorem getMsbD_hostMask (hb : bits ≤ 8 * size) (hj : j < 8 * size) :
    (hostMask size bits).getMsbD j = decide (bits ≤ j) := by
  rw [hostMask, BitVec.getMsbD_eq_getLsbD, BitVec.getLsbD_ofNat, Nat.testBit_two_pow_sub_one]
  have hlast : 8 * size - 1 - j < 8 * size := by omega
  have hiff : 8 * size - 1 - j < 8 * size - bits ↔ bits ≤ j := by omega
  simp [hj, hlast, hiff]

/-- A mask of four bytes is defined from two bits on. -/
theorem createMask_four (h2 : 2 ≤ p) (h : p ≤ 32) : createMask 4 p = .ok (hostMask 4 p) := by
  rw [createMask, if_neg (by omega), if_neg (by omega)]
  rfl

theorem createMask_four_fault (h : p < 2) : ∃ e, createMask 4 p = .error e := by
  have hcases : p = 0 ∨ p = 1 := by omega
  rcases hcases with rfl | rfl
  · exact ⟨.shift, rfl⟩
  · exact ⟨.overflow, rfl⟩

/-- The mask of a byte is always defined. -/
theorem createMask_one (p : ℕ) : createMask 1 (p % 8) = .ok (hostMask 1 (p % 8)) := by
  rw [createMask, if_neg (by omega), if_neg (by omega)]
  rfl

end

theorem decide_lt_eq (j p : ℕ) : decide (j < p) = !decide (p ≤ j) := by
  rw [← decide_not]
  exact decide_eq_decide.2 Nat.not_le.symm

/-! ## IPv4 -/

namespace IPAddress

section
variable {host : Endian} {p j : ℕ} {a : SockaddrIn}

theorem subnetMask_ipv4 (h2 : 2 ≤ p) (hp : p ≤ 32) : (ipv4 a).subnetMask host p =
    .ok (ipv4 { family := 2, port := 0, addr := ~~~byteswapOnLittleEndian host (hostMask 4 p) }) := by
  rw [subnetMask, SockaddrIn.subnetMask, createMask_four h2 hp]
  rfl

theorem two_le_of_subnetMask {m : IPAddress} (h : (ipv4 a).subnetMask host p = .ok m) : 2 ≤ p := by
  by_contra hlt
  obtain ⟨e, he⟩ := createMask_four_fault (Nat.lt_of_not_le hlt)
  rw [subnetMask, SockaddrIn.subnetMask, he] at h
  cases h

theorem bit_subnetMask_ipv4 (hp : p ≤ 32) (hj : j < 32) : (ipv4
    { family := 2, port := 0, addr := ~~~byteswapOnLittleEndian host (hostMask 4 p) }).bit host j =
      decide (j < p) := by
  have hj' : j < 8 * 4 := hj
  rw [bit, swap_not, swap_swap, BitVec.getMsbD_not, getMsbD_hostMask hp hj,
    decide_eq_true hj', Bool.true_and, decide_lt_eq]

theorem maskRight_ipv4 (hp : p ≤ 32) : (ipv4 a).MaskRight host p ↔ 2 ≤ p := by
  constructor
  · rintro ⟨r, m, -, hm, -⟩
    exact two_le_of_subnetMask hm
  · intro h2
    refine ⟨ipv4 { a with addr := a.addr ||| byteswapOnLittleEndian host (hostMask 4 p) }, _, ?_,
      subnetMask_ipv4 h2 hp, rfl, rfl, fun j hj => ?_, fun j hj => bit_subnetMask_ipv4 hp hj⟩
    · rw [broadcastAddress, SockaddrIn.broadcastAddress, if_neg (by omega), createMask_four h2 hp]
      rfl
    · rw [bit, bit, swap_or, swap_swap, BitVec.getMsbD_or, getMsbD_hostMask hp hj]

/-- The network address is taken with the mask of the host part. -/
theorem networdAddress_ipv4 (h2 : 2 ≤ p) (hp : p ≤ 32) : (ipv4 a).networdAddress host p =
    .ok (some (ipv4 { a with addr := a.addr &&& byteswapOnLittleEndian host (hostMask 4 p) })) := by
  rw [networdAddress, SockaddrIn.networdAddress, if_neg (by omega), createMask_four h2 hp]
  rfl

theorem bit_networdAddress_ipv4 (hp : p ≤ 32) (hj : j < 32) :
    (ipv4 { a with addr := a.addr &&& byteswapOnLittleEndian host (hostMask 4 p) }).bit host j =
      ((ipv4 a).bit host j && decide (p ≤ j)) := by
  rw [bit, bit, swap_and, swap_swap, BitVec.getMsbD_and, getMsbD_hostMask hp hj]

/-- No bit of the address is set when the address is 0. -/
theorem bit_ipv4_eq_false (host : Endian) : (∀ j < 32, (ipv4 a).bit host j = false) ↔ a.addr = 0 := by
  constructor
  · intro h
    have hzero : byteswapOnLittleEndian host a.addr = 0 :=
      BitVec.eq_of_getMsbD_eq fun j hj => (h j hj).trans BitVec.getMsbD_zero.symm
    have hswap := congrArg (byteswapOnLittleEndian host) hzero
    rw [swap_swap] at hswap
    rw [hswap]
    cases host <;> rfl
  · intro h j _
    have hzero : byteswapOnLittleEndian host a.addr = 0 := by
      rw [h]
      cases host <;> rfl
    rw [bit, hzero]
    exact BitVec.getMsbD_zero

theorem networkRight_ipv4 (hp : p ≤ 32) :
    (ipv4 a).NetworkRight host p ↔ 2 ≤ p ∧ a.addr = 0 := by
  constructor
  · rintro ⟨r, m, hr, hm, -, -, hbits, -, -⟩
    have h2 := two_le_of_subnetMask hm
    refine ⟨h2, (bit_ipv4_eq_false host).1 fun j hj => ?_⟩
    rw [networdAddress_ipv4 h2 hp] at hr
    obtain rfl := Option.some.inj (Except.ok.inj hr)
    -- a bit of the prefix is lost, one behind it is kept
    have hbit := hbits j hj
    rw [bit_networdAddress_ipv4 hp hj, decide_lt_eq] at hbit
    by_cases hpj : p ≤ j <;> simpa [hpj] using hbit
  · rintro ⟨h2, hzero⟩
    have hnone : ∀ j < 32, (ipv4 a).bit host j = false := (bit_ipv4_eq_false host).2 hzero
    refine ⟨_, _, networdAddress_ipv4 h2 hp, subnetMask_ipv4 h2 hp, rfl, rfl, fun j hj => ?_,
      fun j hj => ?_, ?_⟩
    · rw [bit_networdAddress_ipv4 hp hj, hnone j hj, Bool.false_and, Bool.false_and]
    · rw [bit_networdAddress_ipv4 hp hj, hnone j hj, Bool.false_and, Bool.false_and]
    · rw [networdAddress_ipv4 h2 hp]
      simp only [BitVec.and_assoc, BitVec.and_self]

end

end IPAddress

/-! ## IPv6 -/

section
variable {i n q p j : ℕ} {a : Vector UInt8 16} {x y : UInt8}

theorem store_eq (h : i < 16) : store a i x = .ok (a.set i x h) := dif_pos h

theorem store_fault (h : 16 ≤ i) : store a i x = .error .index := dif_neg (by omega)

theorem load_eq (h : i < 16) : load a i = .ok a[i] := dif_pos h

theorem fill_eq (h : i + n ≤ 16) : fill x i n a =
    .ok (Vector.ofFn fun k : Fin 16 => if i ≤ k.1 ∧ k.1 < i + n then x else a[k]) := by
  induction n generalizing i a with
  | zero =>
    rw [fill]
    refine congrArg Except.ok (Vector.ext fun k hk => ?_)
    rw [Vector.getElem_ofFn, if_neg (by simp only; omega)]
    rfl
  | succ n ih =>
    have hi : i < 16 := by omega
    rw [fill, store_eq hi]
    refine (ih (by omega)).trans (congrArg Except.ok (Vector.ext fun k hk => ?_))
    rw [Vector.getElem_ofFn, Vector.getElem_ofFn]
    by_cases hik : i = k
    · subst hik
      simp
    · have hset : (a.set i x hi)[k] = a[k] := Vector.getElem_set_ne _ _ hik
      have hiff : (i + 1 ≤ k ∧ k < i + 1 + n) ↔ (i ≤ k ∧ k < i + (n + 1)) := by omega
      simp only [hiff, Fin.getElem_fin, hset]

/-- The bytes in front of byte `q` as `f` has them, `y` for it, and `x` behind it. -/
def around (f : Fin 16 → UInt8) (q : ℕ) (y x : UInt8) : Vector UInt8 16 :=
  Vector.ofFn fun k => if k.1 < q then f k else if k.1 = q then y else x

/-- The byte at `q` is stored and those behind it are filled. -/
theorem store_fill (hq : q < 16) :
    (store a q y >>= fun b => fill x (q + 1) (16 - (q + 1)) b) = .ok (around (fun k => a[k]) q y x) := by
  rw [store_eq hq]
  refine (fill_eq (by omega)).trans (congrArg Except.ok (Vector.ext fun k hk => ?_))
  rw [around, Vector.getElem_ofFn, Vector.getElem_ofFn]
  rcases Nat.lt_trichotomy k q with hlt | rfl | hgt
  · have hset : (a.set q y hq)[k] = a[k] := Vector.getElem_set_ne _ _ (by omega)
    rw [if_neg (by simp only; omega), if_pos hlt]
    exact hset
  · rw [if_neg (by simp only; omega), if_neg (by simp), if_pos rfl]
    exact Vector.getElem_set_self _
  · rw [if_pos (by simp only; omega), if_neg (by simp only; omega), if_neg (by simp only; omega)]

/-- The byte at `q` is stored into zeros and those in front of it are filled. -/
theorem store_fill_front (hq : q < 16) :
    (store (Vector.replicate 16 0) q y >>= fun b => fill x 0 q b) =
      .ok (around (fun _ => x) q y 0) := by
  rw [store_eq hq]
  refine (fill_eq (by omega)).trans (congrArg Except.ok (Vector.ext fun k hk => ?_))
  rw [around, Vector.getElem_ofFn, Vector.getElem_ofFn]
  rcases Nat.lt_trichotomy k q with hlt | rfl | hgt
  · rw [if_pos (by simp only; omega), if_pos hlt]
  · rw [if_neg (by simp only; omega), if_neg (by simp), if_pos rfl]
    exact Vector.getElem_set_self _
  · have hset : ((Vector.replicate 16 (0 : UInt8)).set q y hq)[k] = 0 := by
      rw [Vector.getElem_set_ne _ _ (by omega), Vector.getElem_replicate]
    rw [if_neg (by simp only; omega), if_neg (by simp only; omega), if_neg (by simp only; omega)]
    exact hset

theorem getD_around {f : Fin 16 → UInt8} (hj : j < 128) : ((around f q y x)[j / 8]?).getD 0 =
    if j / 8 < q then f ⟨j / 8, by omega⟩ else if j / 8 = q then y else x := by
  have hk : j / 8 < 16 := by omega
  rw [around, Vector.getElem?_ofFn, dif_pos hk]
  rfl

theorem getD_eq (hj : j < 128) : (a[j / 8]?).getD 0 = a[(⟨j / 8, by omega⟩ : Fin 16)] := by
  have hk : j / 8 < 16 := by omega
  rw [Vector.getElem?_eq_getElem hk]
  rfl

/-- The mask of the byte that the prefix ends in. -/
def byteMask (p : ℕ) : UInt8 := UInt8.ofBitVec (hostMask 1 (p % 8))

theorem getMsbD_byteMask (p j : ℕ) : (byteMask p).toBitVec.getMsbD (j % 8) = decide (p % 8 ≤ j % 8) := by
  rw [byteMask]
  exact getMsbD_hostMask (by omega) (by omega)

theorem getMsbD_ones : ∀ r < 8, (0xff : UInt8).toBitVec.getMsbD r = true := by decide

theorem getMsbD_zeros (r : ℕ) : (0 : UInt8).toBitVec.getMsbD r = false := BitVec.getMsbD_zero

end

namespace IPAddress

section
variable {host : Endian} {p j : ℕ} {a : SockaddrIn6}

theorem broadcastAddress_ipv6 (hp : p < 128) : (ipv6 a).broadcastAddress host p =
    .ok (some (ipv6 { a with
      addr := around (fun k => a.addr[k]) (p / 8) (a.addr[p / 8] ||| byteMask p) 0xff })) := by
  have hq : p / 8 < 16 := by omega
  have hrun : a.broadcastAddress p = ((store a.addr (p / 8) (a.addr[p / 8] ||| byteMask p) >>=
      fun addr => fill 0xff (p / 8 + 1) (16 - (p / 8 + 1)) addr) >>=
        fun addr => .ok { a with addr }) := by
    rw [SockaddrIn6.broadcastAddress, createMask_one, load_eq hq, bind_assoc]
    rfl
  rw [broadcastAddress, hrun, store_fill hq]
  rfl

theorem networdAddress_ipv6 (hp : p < 128) : (ipv6 a).networdAddress host p =
    .ok (some (ipv6 { a with
      addr := around (fun k => a.addr[k]) (p / 8) (a.addr[p / 8] &&& byteMask p) 0 })) := by
  have hq : p / 8 < 16 := by omega
  have hrun : a.networdAddress p = ((store a.addr (p / 8) (a.addr[p / 8] &&& byteMask p) >>=
      fun addr => fill 0 (p / 8 + 1) (16 - (p / 8 + 1)) addr) >>= fun addr => .ok { a with addr }) := by
    rw [SockaddrIn6.networdAddress, createMask_one, load_eq hq, bind_assoc]
    rfl
  rw [networdAddress, hrun, store_fill hq]
  rfl

theorem subnetMask_run (p : ℕ) : SockaddrIn6.subnetMask p =
    ((store (Vector.replicate 16 0) (p / 8) (~~~byteMask p) >>= fun addr => fill 0xff 0 (p / 8) addr) >>=
      fun addr => .ok { family := 10, port := 0, addr }) := by
  rw [SockaddrIn6.subnetMask, createMask_one, bind_assoc]
  rfl

theorem subnetMask_ipv6 (hp : p < 128) : (ipv6 a).subnetMask host p =
    .ok (ipv6
      { family := 10, port := 0, addr := around (fun _ => 0xff) (p / 8) (~~~byteMask p) 0 }) := by
  rw [subnetMask, subnetMask_run, store_fill_front (by omega)]
  rfl

/-- From 128 bits on the byte that the prefix ends in is past the end. -/
theorem lt_of_subnetMask {m : IPAddress} (h : (ipv6 a).subnetMask host p = .ok m) : p < 128 := by
  by_contra hge
  rw [subnetMask, subnetMask_run, store_fault (by omega)] at h
  cases h

theorem bit_subnetMask_ipv6 (hj : j < 128) : (ipv6
    { family := 10, port := 0, addr := around (fun _ => 0xff) (p / 8) (~~~byteMask p) 0 }).bit host j =
      decide (j < p) := by
  have hr : j % 8 < 8 := Nat.mod_lt _ (by decide)
  rw [bit, getD_around hj]
  split_ifs with h1 h2
  · rw [getMsbD_ones _ hr, decide_eq_true (by omega)]
  · rw [UInt8.toBitVec_not, BitVec.getMsbD_not, getMsbD_byteMask, decide_eq_true hr,
      Bool.true_and, decide_lt_eq, decide_eq_decide.2 (show p % 8 ≤ j % 8 ↔ p ≤ j by omega)]
  · rw [getMsbD_zeros, decide_eq_false (by omega)]

theorem maskRight_ipv6 : (ipv6 a).MaskRight host p ↔ p < 128 := by
  constructor
  · rintro ⟨r, m, -, hm, -⟩
    exact lt_of_subnetMask hm
  · intro hp
    -- the fields are named, so that the unifier does not compare the addresses
    refine ⟨_, _, broadcastAddress_ipv6 hp, subnetMask_ipv6 hp, Eq.refl a.family, Eq.refl a.port,
      fun j hj => ?_, fun j hj => bit_subnetMask_ipv6 hj⟩
    have hr : j % 8 < 8 := Nat.mod_lt _ (by decide)
    rw [bit, bit, getD_around hj, getD_eq hj]
    split_ifs with h1 h2
    · rw [decide_eq_false (by omega), Bool.or_false]
    · have hbyte : a.addr[p / 8] = a.addr[(⟨j / 8, by omega⟩ : Fin 16)] := by simp [h2]
      rw [hbyte, UInt8.toBitVec_or, BitVec.getMsbD_or, getMsbD_byteMask,
        decide_eq_decide.2 (show p % 8 ≤ j % 8 ↔ p ≤ j by omega)]
    · rw [getMsbD_ones _ hr, decide_eq_true (by omega), Bool.or_true]

/-- The bits that the network address has: of the byte that the prefix ends in those behind it. -/
theorem bit_networdAddress_ipv6 (hp : p < 128) (hj : j < 128) : (ipv6 { a with
      addr := around (fun k => a.addr[k]) (p / 8) (a.addr[p / 8] &&& byteMask p) 0 }).bit host j =
    ((ipv6 a).bit host j && (decide (j / 8 < p / 8) || decide (j / 8 = p / 8 ∧ p ≤ j))) := by
  rw [bit, bit, getD_around hj, getD_eq hj]
  split_ifs with h1 h2
  · rw [decide_eq_true h1, Bool.true_or, Bool.and_true]
  · have hbyte : a.addr[p / 8] = a.addr[(⟨j / 8, by omega⟩ : Fin 16)] := by simp [h2]
    rw [hbyte, UInt8.toBitVec_and, BitVec.getMsbD_and, getMsbD_byteMask, decide_eq_false h1,
      Bool.false_or, decide_eq_decide.2 (show p % 8 ≤ j % 8 ↔ j / 8 = p / 8 ∧ p ≤ j by omega)]
  · rw [getMsbD_zeros, decide_eq_false h1, decide_eq_false (fun h => h2 h.1), Bool.or_false,
      Bool.and_false]

theorem networkRight_ipv6 : (ipv6 a).NetworkRight host p ↔ p < 128 ∧ a.addr[p / 8]? = some 0 := by
  constructor
  · rintro ⟨r, m, hr, hm, -, -, hbits, -, -⟩
    have hp := lt_of_subnetMask hm
    have hq : p / 8 < 16 := by omega
    refine ⟨hp, ?_⟩
    rw [networdAddress_ipv6 hp] at hr
    obtain rfl := Option.some.inj (Except.ok.inj hr)
    rw [Vector.getElem?_eq_getElem hq]
    refine congrArg some (UInt8.toBitVec_inj.1 (BitVec.eq_of_getMsbD_eq fun i hi => ?_))
    -- a bit of the prefix is lost, one behind it is kept
    have hj : p / 8 * 8 + i < 128 := by omega
    have hbit := hbits (p / 8 * 8 + i) hj
    have hdiv : (p / 8 * 8 + i) / 8 = p / 8 := by omega
    have hmod : (p / 8 * 8 + i) % 8 = i := by omega
    rw [bit_networdAddress_ipv6 hp hj, hdiv, decide_lt_eq _ p] at hbit
    have hbyte : (ipv6 a).bit host (p / 8 * 8 + i) = a.addr[p / 8].toBitVec.getMsbD i := by
      rw [bit, hdiv, hmod, Vector.getElem?_eq_getElem hq]
      rfl
    rw [← hbyte]
    refine Eq.trans ?_ (getMsbD_zeros i).symm
    by_cases hpj : p ≤ p / 8 * 8 + i <;> simpa [hpj] using hbit
  · rintro ⟨hp, hzero⟩
    have hq : p / 8 < 16 := by omega
    have hbyte : a.addr[p / 8] = 0 := by
      rw [Vector.getElem?_eq_getElem hq] at hzero
      exact Option.some.inj hzero
    have hbits : ∀ j < 128, (ipv6 { a with
        addr := around (fun k => a.addr[k]) (p / 8) (a.addr[p / 8] &&& byteMask p) 0 }).bit host j =
          ((ipv6 a).bit host j && decide (j < p)) := by
      intro j hj
      rw [bit_networdAddress_ipv6 hp hj]
      by_cases hjq : j / 8 = p / 8
      · have hnone : (ipv6 a).bit host j = false := by
          rw [bit, hjq, hzero]
          exact getMsbD_zeros _
        rw [hnone, Bool.false_and, Bool.false_and]
      · have hiff : j / 8 < p / 8 ↔ j < p := by omega
        simp [hjq, hiff]
    refine ⟨_, _, networdAddress_ipv6 hp, subnetMask_ipv6 hp, Eq.refl a.family, Eq.refl a.port,
      hbits, fun j hj => ?_, ?_⟩
    · rw [hbits j hj, bit_subnetMask_ipv6 hj]
    · rw [networdAddress_ipv6 hp]
      refine congrArg (fun v => Except.ok (some (ipv6 { a with addr := v })))
        (Vector.ext fun k hk => ?_)
      simp only [around, Vector.getElem_ofFn, Fin.getElem_fin, hbyte]
      split_ifs <;> simp

end

/-! ## Every prefix -/

/-- The broadcast address and the mask are defined and right for IPv4 from two bits on, and for IPv6 up
to 127 bits. -/
theorem maskRight_iff (host : Endian) (a : IPAddress) {p : ℕ} (hp : p ≤ a.width) :
    a.MaskRight host p ↔
      match a with
      | ipv4 _ => 2 ≤ p
      | ipv6 _ => p < 128 := by
  cases a with
  | ipv4 a => exact maskRight_ipv4 hp
  | ipv6 a => exact maskRight_ipv6

theorem maskRight_iff_v4 :
    (ipv4 { family := 2, port := 0, addr := 0x0100007f }).MaskRight .little 24 ↔ 2 ≤ 24 :=
  maskRight_iff .little _ (by decide)

/-- The mask of no bits is a shift by the width of `int`. -/
theorem maskRight_zero : ¬∀ host (a : IPAddress) p, p ≤ a.width → a.MaskRight host p := by
  intro h
  have hright := h .little (ipv4 { family := 2, port := 0, addr := 0x0100007f }) 0 (by decide)
  exact absurd ((maskRight_ipv4 (by decide)).1 hright) (by decide)

/-- The network address is right when the part that it should keep is 0: for IPv4 the whole address, for
IPv6 the byte that the prefix ends in. -/
theorem networkRight_iff (host : Endian) (a : IPAddress) {p : ℕ} (hp : p ≤ a.width) :
    a.NetworkRight host p ↔
      match a with
      | ipv4 a => 2 ≤ p ∧ a.addr = 0
      | ipv6 a => p < 128 ∧ a.addr[p / 8]? = some 0 := by
  cases a with
  | ipv4 a => exact networkRight_ipv4 hp
  | ipv6 a => exact networkRight_ipv6

theorem networkRight_iff_v4 :
    (ipv4 { family := 2, port := 0, addr := 0x0101a8c0 }).NetworkRight .little 24 ↔
      2 ≤ 24 ∧ (0x0101a8c0 : BitVec (8 * 4)) = 0 :=
  networkRight_iff .little _ (by decide)

/-- The network of 192.168.1.1/24 is taken for 0.0.0.1. -/
theorem networkRight_host : ¬∀ host (a : IPAddress) p, p ≤ a.width → a.NetworkRight host p := by
  intro h
  have hright := h .little (ipv4 { family := 2, port := 0, addr := 0x0101a8c0 }) 24 (by decide)
  exact absurd ((networkRight_ipv4 (by decide)).1 hright).2 (by decide)

end IPAddress

end CoroutineScheduler.Address
