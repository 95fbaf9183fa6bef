-- SUMMARY: CNetAddr with its validity check, and CSubNet: its constructors from a prefix length, a netmask address and a single address, Match and the prefix length ToString prints.
import Riecoin.Lib.BitPrefix
import Riecoin.Lib.BigEndian

/-!
# Network addresses and subnets

A model of `CNetAddr` and `CSubNet` from `netaddress.cpp`. An address is its network and its
bytes, and the structure carries the class's invariant that it has as many bytes as the
addresses of its network (`m_net` is never `NET_UNROUTABLE` or `NET_MAX`). `m_scope_id` is left
out: nothing modelled here reads it. A subnet is its network address, its 16-byte `netmask`
array (a field says it has 16 bytes) and its `valid` flag.

`CNetAddr::ToStringAddr` (dotted quads, IPv6 groups, base32 names) is not modelled: it is a
parameter of `CSubNet.toString`, whose suffix, the prefix length, is what is specified here.

The prefix lengths and the netmask bytes are read bit by bit through `Riecoin.Lib.BitPrefix`:
a prefix subnet's netmask is `prefixMask`, and a netmask address passes the constructor's
check exactly when its set bits are contiguous.
-/

namespace Riecoin

open BitPrefix

-- ---------------------------------------------------------------------------
-- Addresses
-- ---------------------------------------------------------------------------

/-- `enum Network`. -/
inductive Network
  | unroutable
  | ipv4
  | ipv6
  | onion
  | i2p
  | cjdns
  | internal
  | max
  deriving DecidableEq, Repr

def ADDR_IPV4_SIZE : Nat := 4
def ADDR_IPV6_SIZE : Nat := 16
def ADDR_TORV3_SIZE : Nat := 32
def ADDR_I2P_SIZE : Nat := 32
def ADDR_CJDNS_SIZE : Nat := 16
def ADDR_INTERNAL_SIZE : Nat := 10

/-- The byte count of the addresses of each network. No address has the network
`NET_UNROUTABLE` or `NET_MAX`. -/
def Network.addrSize : Network → Option Nat
  | .ipv4 => some ADDR_IPV4_SIZE
  | .ipv6 => some ADDR_IPV6_SIZE
  | .onion => some ADDR_TORV3_SIZE
  | .i2p => some ADDR_I2P_SIZE
  | .cjdns => some ADDR_CJDNS_SIZE
  | .internal => some ADDR_INTERNAL_SIZE
  | .unroutable | .max => none

@[simp] theorem Network.addrSize_ipv4 : Network.addrSize .ipv4 = some ADDR_IPV4_SIZE := rfl

@[simp] theorem Network.addrSize_ipv6 : Network.addrSize .ipv6 = some ADDR_IPV6_SIZE := rfl

/-- `CNetAddr`: the address bytes `m_addr` of the network `m_net`. -/
structure CNetAddr where
  m_addr : List UInt8
  m_net : Network
  m_addr_size : m_net.addrSize = some m_addr.length
  deriving DecidableEq

def CJDNS_PREFIX : UInt8 := 0xFC

def INADDR_ANY : Nat := 0
def INADDR_NONE : Nat := 0xffffffff

namespace CNetAddr

/-- The default `CNetAddr`: sixteen zero bytes of IPv6. -/
instance : Inhabited CNetAddr := ⟨{ m_addr := List.replicate ADDR_IPV6_SIZE 0, m_net := .ipv6, m_addr_size := rfl }⟩

def isIPv4 (a : CNetAddr) : Bool := a.m_net == .ipv4

def isIPv6 (a : CNetAddr) : Bool := a.m_net == .ipv6

def isCJDNS (a : CNetAddr) : Bool := a.m_net == .cjdns

def isInternal (a : CNetAddr) : Bool := a.m_net == .internal

def hasCJDNSPrefix (a : CNetAddr) : Bool := a.m_addr.getD 0 0 == CJDNS_PREFIX

/-- The IPv6 documentation prefix 2001:0DB8::/32. -/
def isRFC3849 (a : CNetAddr) : Bool := a.isIPv6 && [0x20, 0x01, 0x0D, 0xB8].isPrefixOf a.m_addr

/-- `CNetAddr::IsValid`; `ReadBE32` reads the four bytes of an IPv4 address. -/
def isValid (a : CNetAddr) : Bool :=
  -- unspecified IPv6 address (::/128)
  if a.isIPv6 && a.m_addr.take 16 == List.replicate 16 0 then false
  else if a.isCJDNS && !a.hasCJDNSPrefix then false
  -- documentation IPv6 address
  else if a.isRFC3849 then false
  else if a.isInternal then false
  else if a.isIPv4 && (BigEndian.beValue (a.m_addr.take 4) == INADDR_ANY ||
      BigEndian.beValue (a.m_addr.take 4) == INADDR_NONE) then false
  else true

/-- `operator==`: the same network and the same bytes. -/
instance : BEq CNetAddr := ⟨fun a b => a.m_net == b.m_net && a.m_addr == b.m_addr⟩

/-- `m_addr[x] &= netmask[x]` for every byte of the address. -/
def applyNetmask (a : CNetAddr) (netmask : List UInt8) : CNetAddr where
  m_addr := a.m_addr.mapIdx fun x b => b &&& netmask.getD x 0
  m_net := a.m_net
  m_addr_size := by simpa using a.m_addr_size

@[simp] theorem applyNetmask_m_addr (a : CNetAddr) (netmask : List UInt8) :
    (a.applyNetmask netmask).m_addr = a.m_addr.mapIdx fun x b => b &&& netmask.getD x 0 := rfl

@[simp] theorem applyNetmask_m_net (a : CNetAddr) (netmask : List UInt8) :
    (a.applyNetmask netmask).m_net = a.m_net := rfl

@[simp] theorem length_applyNetmask (a : CNetAddr) (netmask : List UInt8) :
    (a.applyNetmask netmask).m_addr.length = a.m_addr.length := by
  simp

theorem getD_applyNetmask (a : CNetAddr) (netmask : List UInt8) {x : Nat} (hx : x < a.m_addr.length) :
    (a.applyNetmask netmask).m_addr.getD x 0 = a.m_addr.getD x 0 &&& netmask.getD x 0 := by
  simp [List.getD_eq_getElem?_getD, List.getElem?_eq_getElem hx]

/-- Two addresses of one network have the same number of bytes. -/
theorem length_eq_of_m_net_eq {a b : CNetAddr} (h : a.m_net = b.m_net) : a.m_addr.length = b.m_addr.length := by
  have ha := a.m_addr_size
  rw [h, b.m_addr_size] at ha
  exact (Option.some.inj ha).symm

/-- IPv4 and IPv6 addresses fit the 16 bytes of a netmask. -/
theorem length_le_of_ip {a : CNetAddr} (hip : a.m_net = .ipv4 ∨ a.m_net = .ipv6) : a.m_addr.length ≤ 16 := by
  have ha := a.m_addr_size
  rcases hip with h | h <;>
  · rw [h] at ha
    simp only [Network.addrSize_ipv4, Network.addrSize_ipv6, Option.some.injEq] at ha
    rw [← ha]
    decide

end CNetAddr

-- ---------------------------------------------------------------------------
-- Subnets
-- ---------------------------------------------------------------------------

/-- The 16-byte `netmask` array after its first bytes are written with `bytes`; the other
bytes keep the zeros of `CSubNet()`. -/
def netmaskArray (bytes : List UInt8) : List UInt8 := List.ofFn fun i : Fin 16 => bytes.getD i 0

/-- `CSubNet`: the network address, the netmask and whether the subnet is valid. -/
structure CSubNet where
  network : CNetAddr
  netmask : List UInt8
  netmask_size : netmask.length = 16
  valid : Bool

/-- `NetmaskBits`: the number of leading 1-bits of a netmask byte, or -1 if its 1-bits are
not a prefix. -/
def netmaskBits (x : UInt8) : Int :=
  if x = 0x00 then 0
  else if x = 0x80 then 1
  else if x = 0xc0 then 2
  else if x = 0xe0 then 3
  else if x = 0xf0 then 4
  else if x = 0xf8 then 5
  else if x = 0xfc then 6
  else if x = 0xfe then 7
  else if x = 0xff then 8
  else -1

namespace CSubNet

/-- `CSubNet()`: invalid, with a zero netmask. -/
instance : Inhabited CSubNet :=
  ⟨{ network := default, netmask := netmaskArray [], netmask_size := List.length_ofFn, valid := false }⟩

/-- The valid subnet of `addr` whose netmask array starts with `bytes`: `network = addr`, then
each network byte is masked by its netmask byte. Both constructors from a mask end so. -/
def withNetmask (addr : CNetAddr) (bytes : List UInt8) : CSubNet :=
  { network := addr.applyNetmask (netmaskArray bytes), netmask := netmaskArray bytes,
    netmask_size := List.length_ofFn, valid := true }

@[simp] theorem withNetmask_network (addr : CNetAddr) (bytes : List UInt8) :
    (withNetmask addr bytes).network = addr.applyNetmask (netmaskArray bytes) := rfl

@[simp] theorem withNetmask_netmask (addr : CNetAddr) (bytes : List UInt8) :
    (withNetmask addr bytes).netmask = netmaskArray bytes := rfl

/-- The netmask loop of `CSubNet(addr, mask)` over `size` bytes: `bits = n < 8 ? n : 8`,
`netmask[i] = (uint8_t)((uint8_t)0xFF << (8 - bits))` and `n -= bits`. The shift is done on
an `int` before the cast, so a byte with no prefix bits gets `0xFF << 8`, cut to 0. -/
def prefixNetmask : UInt8 → Nat → List UInt8
  | _, 0 => []
  | n, size + 1 =>
    let bits : UInt8 := if n < 8 then n else 8
    UInt8.ofNat (0xFF <<< (8 - bits.toNat)) :: prefixNetmask (n - bits) size

theorem prefixNetmask_succ (n : UInt8) (size : Nat) :
    prefixNetmask n (size + 1) =
      let bits : UInt8 := if n < 8 then n else 8
      UInt8.ofNat (0xFF <<< (8 - bits.toNat)) :: prefixNetmask (n - bits) size := rfl

/-- `CSubNet(addr, mask)` for a prefix length `mask`. -/
def ofPrefix (addr : CNetAddr) (mask : UInt8) : CSubNet :=
  if (addr.isIPv4 && mask.toNat ≤ ADDR_IPV4_SIZE * 8) || (addr.isIPv6 && mask.toNat ≤ ADDR_IPV6_SIZE * 8) then
    withNetmask addr (prefixNetmask mask addr.m_addr.length)
  else default

/-- The check of `CSubNet(addr, mask)` for a netmask address: every byte is in the table of
`NetmaskBits`, and after a byte with fewer than 8 bits (`zeros_found`) every byte is 0. -/
def netmaskCheck : Bool → List UInt8 → Bool
  | _, [] => true
  | zerosFound, b :: bs =>
    let numBits := netmaskBits b
    if numBits == -1 || (zerosFound && numBits != 0) then false
    else netmaskCheck (zerosFound || decide (numBits < 8)) bs

@[simp] theorem netmaskCheck_nil (zerosFound : Bool) : netmaskCheck zerosFound [] = true := rfl

/-- `CSubNet(addr, mask)` for a netmask address `mask`. -/
def ofNetmask (addr mask : CNetAddr) : CSubNet :=
  if (addr.isIPv4 || addr.isIPv6) && addr.m_net == mask.m_net then
    -- a netmask with 1-bits after 0-bits is invalid
    if netmaskCheck false mask.m_addr then withNetmask addr mask.m_addr
    else default
  else default

/-- `CSubNet(addr)`: the subnet of the single address `addr`. -/
def ofAddr (addr : CNetAddr) : CSubNet :=
  match addr.m_net with
  | .ipv4 | .ipv6 =>
    { network := addr, netmask := netmaskArray (List.replicate addr.m_addr.length 0xFF),
      netmask_size := List.length_ofFn, valid := true }
  | .onion | .i2p | .cjdns =>
    { network := addr, netmask := netmaskArray [], netmask_size := List.length_ofFn, valid := true }
  | .internal | .unroutable | .max => default

/-- `CSubNet::Match` (`match` is a keyword of Lean). -/
def matchAddr (s : CSubNet) (addr : CNetAddr) : Bool :=
  if !s.valid || !addr.isValid || s.network.m_net != addr.m_net then false
  else
    match s.network.m_net with
    | .ipv4 | .ipv6 =>
      (List.range addr.m_addr.length).all fun x =>
        (addr.m_addr.getD x 0 &&& s.netmask.getD x 0) == s.network.m_addr.getD x 0
    | .onion | .i2p | .cjdns | .internal => addr == s.network
    | .unroutable | .max => false

/-- The prefix length loop of `CSubNet::ToString`: it stops at the first zero byte and adds
`NetmaskBits` of the others to the `uint8_t` counter. -/
def cidrLoop (cidr : UInt8) : List UInt8 → UInt8
  | [] => cidr
  | b :: bs => if b == 0x00 then cidr else cidrLoop (cidr + UInt8.ofInt (netmaskBits b)) bs

@[simp] theorem cidrLoop_nil (cidr : UInt8) : cidrLoop cidr [] = cidr := rfl

theorem cidrLoop_cons (cidr b : UInt8) (bs : List UInt8) :
    cidrLoop cidr (b :: bs) = if b == 0x00 then cidr else cidrLoop (cidr + UInt8.ofInt (netmaskBits b)) bs := rfl

/-- `CSubNet::ToString`, for the given `ToStringAddr`: the address, then `/` and the prefix
length for IPv4 and IPv6 (`strprintf("/%u", cidr)`). -/
def toString (toStringAddr : CNetAddr → String) (s : CSubNet) : String :=
  let suffix := match s.network.m_net with
    | .ipv4 | .ipv6 => "/" ++ Nat.repr (cidrLoop 0 (s.netmask.take s.network.m_addr.length)).toNat
    | .onion | .i2p | .cjdns | .internal | .unroutable | .max => ""
  toStringAddr s.network ++ suffix

-- ---------------------------------------------------------------------------
-- The netmask bytes
-- ---------------------------------------------------------------------------

theorem getD_netmaskArray (bytes : List UInt8) {x : Nat} (hx : x < 16) :
    (netmaskArray bytes).getD x 0 = bytes.getD x 0 := by
  rw [netmaskArray, List.getD_eq_getElem?_getD, List.getElem?_ofFn, dif_pos hx, Option.getD_some]

theorem take_netmaskArray {bytes : List UInt8} {n : Nat} (hlen : bytes.length = n) (hn : n ≤ 16) :
    (netmaskArray bytes).take n = bytes := by
  apply List.ext_getElem
  · unfold netmaskArray
    simp
    omega
  · intro i _ hi
    simp only [List.getElem_take, netmaskArray, List.getElem_ofFn, List.getD_eq_getElem?_getD,
      List.getElem?_eq_getElem hi, Option.getD_some]

/-- The byte the prefix loop writes for `k ≤ 8` prefix bits, `0xFF << 8` cut to 0 included. -/
theorem maskByte_eq_highMask {k : Nat} (hk : k ≤ 8) : UInt8.ofNat (0xFF <<< (8 - k)) = highMask k := by
  have table : ∀ k ≤ 8, UInt8.ofNat (0xFF <<< (8 - k)) = highMask k := by decide
  exact table k hk

/-- The prefix loop writes the prefix mask of `n` bits: each byte takes `min n 8` of them. -/
theorem prefixNetmask_eq (n : UInt8) (size : Nat) : prefixNetmask n size = prefixMask size n.toNat := by
  induction size generalizing n with
  | zero => rfl
  | succ size ih =>
    simp only [prefixNetmask_succ, prefixMask_succ, ih]
    by_cases h8 : n < 8
    · have hn : n.toNat < 8 := UInt8.lt_iff_toNat_lt.mp h8
      rw [if_pos h8, maskByte_eq_highMask hn.le, UInt8.sub_self, Nat.min_eq_left hn.le,
        show n.toNat - 8 = (0 : UInt8).toNat by simp; omega]
    · have hn : 8 ≤ n.toNat := by
        have := mt UInt8.lt_iff_toNat_lt.mpr h8
        simp only [Nat.not_lt] at this
        exact this
      have hsub : (n - 8).toNat = n.toNat - 8 :=
        UInt8.toNat_sub_of_le _ _ (UInt8.le_iff_toNat_le.mpr hn)
      rw [if_neg h8, show (8 : UInt8).toNat = 8 from rfl, maskByte_eq_highMask le_rfl,
        Nat.min_eq_right hn, hsub]

theorem netmaskBits_highMask {k : Nat} (hk : k ≤ 8) : netmaskBits (highMask k) = k := by
  have table : ∀ k ≤ 8, netmaskBits (highMask k) = k := by decide
  exact table k hk

/-- The table of `NetmaskBits`: a byte it does not reject is the mask of the bits it counts. -/
theorem netmaskBits_spec (b : UInt8) :
    netmaskBits b = -1 ∨ ∃ k ≤ 8, b = highMask k ∧ netmaskBits b = k := by
  unfold netmaskBits
  -- one case per row of the table, the last one the rejection
  split_ifs <;> subst_vars
  · exact Or.inr ⟨0, by omega, by decide, rfl⟩
  · exact Or.inr ⟨1, by omega, by decide, rfl⟩
  · exact Or.inr ⟨2, by omega, by decide, rfl⟩
  · exact Or.inr ⟨3, by omega, by decide, rfl⟩
  · exact Or.inr ⟨4, by omega, by decide, rfl⟩
  · exact Or.inr ⟨5, by omega, by decide, rfl⟩
  · exact Or.inr ⟨6, by omega, by decide, rfl⟩
  · exact Or.inr ⟨7, by omega, by decide, rfl⟩
  · exact Or.inr ⟨8, by omega, by decide, rfl⟩
  · exact Or.inl rfl

theorem netmaskCheck_cons (zerosFound : Bool) (b : UInt8) (bs : List UInt8) :
    netmaskCheck zerosFound (b :: bs) = true ↔
      netmaskBits b ≠ -1 ∧ (zerosFound = true → netmaskBits b = 0) ∧
        netmaskCheck (zerosFound || decide (netmaskBits b < 8)) bs = true := by
  have hstep : netmaskCheck zerosFound (b :: bs) =
      if netmaskBits b == -1 || (zerosFound && netmaskBits b != 0) then false
      else netmaskCheck (zerosFound || decide (netmaskBits b < 8)) bs := rfl
  rw [hstep]
  cases zerosFound <;> by_cases h1 : netmaskBits b = -1 <;> by_cases h0 : netmaskBits b = 0 <;>
    simp [h1, h0]

/-- After `zeros_found` the check passes exactly the zero bytes. -/
theorem netmaskCheck_true_iff (bs : List UInt8) :
    netmaskCheck true bs = true ↔ bs = prefixMask bs.length 0 := by
  induction bs with
  | nil => simp
  | cons b bs ih =>
    rw [netmaskCheck_cons, Bool.true_or, ih]
    simp only [List.length_cons, prefixMask_succ, Nat.zero_min, Nat.zero_sub, List.cons.injEq]
    constructor
    · rintro ⟨hne, hzero, hbs⟩
      rcases netmaskBits_spec b with h | ⟨k, hk, rfl, hbits⟩
      · exact absurd h hne
      · have hk0 : (k : Int) = 0 := hbits ▸ hzero trivial
        exact ⟨by rw [show k = 0 by omega], hbs⟩
    · rintro ⟨rfl, hbs⟩
      rw [netmaskBits_highMask (by omega)]
      exact ⟨by omega, fun _ => rfl, hbs⟩

/-- Before `zeros_found` the check passes exactly the prefix masks. -/
theorem netmaskCheck_false_iff (bs : List UInt8) :
    netmaskCheck false bs = true ↔ ∃ m, bs = prefixMask bs.length m := by
  induction bs with
  | nil => simp
  | cons b bs ih =>
    rw [netmaskCheck_cons, Bool.false_or]
    simp only [List.length_cons, prefixMask_succ, List.cons.injEq]
    constructor
    · rintro ⟨hne, -, hrest⟩
      rcases netmaskBits_spec b with h | ⟨k, hk, rfl, hbits⟩
      · exact absurd h hne
      rw [hbits] at hrest
      by_cases hk8 : k < 8
      · -- a partial byte: the rest is zero
        rw [decide_eq_true (by omega), netmaskCheck_true_iff] at hrest
        exact ⟨k, by rw [Nat.min_eq_left (by omega)], by rw [show k - 8 = 0 by omega]; exact hrest⟩
      · -- a full byte: the rest is a prefix mask again
        rw [decide_eq_false (by omega), ih] at hrest
        obtain ⟨m, hm⟩ := hrest
        exact ⟨m + 8, by rw [show min (m + 8) 8 = k by omega], by rw [Nat.add_sub_cancel]; exact hm⟩
    · rintro ⟨m, rfl, hbs⟩
      rw [netmaskBits_highMask (Nat.min_le_right _ _)]
      refine ⟨by omega, by simp, ?_⟩
      by_cases hm8 : m < 8
      · have hzero : bs = prefixMask bs.length 0 := by rwa [show m - 8 = 0 by omega] at hbs
        rw [decide_eq_true (by omega), netmaskCheck_true_iff]
        exact hzero
      · rw [decide_eq_false (by omega), ih]
        exact ⟨m - 8, hbs⟩

/-- The check of a netmask address passes exactly the strings whose 1-bits are a prefix. -/
theorem netmaskCheck_iff_contiguous (bs : List UInt8) : netmaskCheck false bs = true ↔ Contiguous bs := by
  rw [netmaskCheck_false_iff]
  constructor
  · rintro ⟨m, hm⟩
    rw [hm]
    exact contiguous_prefixMask _ _
  · intro hc
    exact ⟨_, contiguous_iff.mp hc⟩

-- ---------------------------------------------------------------------------
-- Match
-- ---------------------------------------------------------------------------

/-- `Match` on a valid IPv4 or IPv6 subnet: a valid address of the subnet's network whose
masked bytes are the network's bytes. -/
theorem matchAddr_eq_true_iff_of_ip {s : CSubNet} (hs : s.valid = true)
    (hip : s.network.m_net = .ipv4 ∨ s.network.m_net = .ipv6) (b : CNetAddr) :
    s.matchAddr b = true ↔ b.isValid = true ∧ b.m_net = s.network.m_net ∧
      ∀ x < b.m_addr.length, (b.m_addr.getD x 0 &&& s.netmask.getD x 0) = s.network.m_addr.getD x 0 := by
  unfold matchAddr
  by_cases hb : b.isValid = true
  · by_cases hnet : b.m_net = s.network.m_net
    · rcases hip with h | h <;> simp [hs, hb, hnet, h]
    · simp [hb, hnet, Ne.symm hnet]
  · simp [hb]

/-- A subnet built from netmask bytes matches the valid addresses of its network that agree
with `addr` under the mask. -/
theorem matchAddr_withNetmask {a : CNetAddr} (hip : a.m_net = .ipv4 ∨ a.m_net = .ipv6)
    (bytes : List UInt8) (b : CNetAddr) :
    (withNetmask a bytes).matchAddr b = true ↔ b.isValid = true ∧ b.m_net = a.m_net ∧
      ∀ x < a.m_addr.length, (b.m_addr.getD x 0 &&& bytes.getD x 0) = (a.m_addr.getD x 0 &&& bytes.getD x 0) := by
  have h16 := CNetAddr.length_le_of_ip hip
  rw [matchAddr_eq_true_iff_of_ip rfl hip]
  simp only [withNetmask_network, withNetmask_netmask, CNetAddr.applyNetmask_m_net]
  apply and_congr_right
  intro _
  apply and_congr_right
  intro hnet
  rw [CNetAddr.length_eq_of_m_net_eq hnet]
  apply forall₂_congr
  intro x hx
  rw [getD_netmaskArray _ (by omega), CNetAddr.getD_applyNetmask _ _ hx, getD_netmaskArray _ (by omega)]

-- ---------------------------------------------------------------------------
-- The constructor from a prefix length
-- ---------------------------------------------------------------------------

section ofPrefix

variable {a : CNetAddr} (hip : a.m_net = .ipv4 ∨ a.m_net = .ipv6) {m : UInt8}
  (hm : m.toNat ≤ 8 * a.m_addr.length)
include hip hm

/-- A prefix length that fits the address gives the valid subnet whose netmask is the prefix
mask of that length. -/
theorem ofPrefix_eq : ofPrefix a m = withNetmask a (prefixMask a.m_addr.length m.toNat) := by
  have hsize := a.m_addr_size
  have hfits : (a.isIPv4 && m.toNat ≤ ADDR_IPV4_SIZE * 8) || (a.isIPv6 && m.toNat ≤ ADDR_IPV6_SIZE * 8) := by
    rcases hip with h | h
    · -- an IPv4 address has 4 bytes
      have hlen : a.m_addr.length = ADDR_IPV4_SIZE := by simpa [h] using hsize.symm
      have hle : m.toNat ≤ ADDR_IPV4_SIZE * 8 := by rw [← hlen]; omega
      unfold CNetAddr.isIPv4
      simp [h, hle]
    · -- an IPv6 address has 16 bytes
      have hlen : a.m_addr.length = ADDR_IPV6_SIZE := by simpa [h] using hsize.symm
      have hle : m.toNat ≤ ADDR_IPV6_SIZE * 8 := by rw [← hlen]; omega
      unfold CNetAddr.isIPv6
      simp [h, hle]
  rw [ofPrefix, if_pos hfits, prefixNetmask_eq]

theorem ofPrefix_valid : (ofPrefix a m).valid = true := by
  rw [ofPrefix_eq hip hm]
  rfl

/-- `Match` of a prefix subnet: valid addresses of the same network whose first `m` bits are
those of `a`. -/
theorem matchAddr_ofPrefix (b : CNetAddr) :
    (ofPrefix a m).matchAddr b = true ↔
      b.isValid = true ∧ b.m_net = a.m_net ∧ ∀ j < m.toNat, bit b.m_addr j = bit a.m_addr j := by
  rw [ofPrefix_eq hip hm, matchAddr_withNetmask hip, forall_and_prefixMask_eq_iff, Nat.min_eq_left hm]

end ofPrefix

-- ---------------------------------------------------------------------------
-- The prefix length in ToString
-- ---------------------------------------------------------------------------

theorem ofInt_natCast (k : Nat) : UInt8.ofInt (k : Int) = UInt8.ofNat k := by
  apply UInt8.toNat_inj.mp
  simp [UInt8.ofInt]
  omega

/-- The loop of `ToString` adds up the prefix bits of a prefix mask. -/
theorem cidrLoop_prefixMask (cidr : UInt8) (n m : Nat) :
    cidrLoop cidr (prefixMask n m) = cidr + UInt8.ofNat (min m (8 * n)) := by
  induction n generalizing cidr m with
  | zero => simp
  | succ n ih =>
    rw [prefixMask_succ, cidrLoop_cons]
    by_cases hm0 : m = 0
    · -- the first byte is zero: the loop stops at once
      subst hm0
      simp [highMask_eq_zero_iff]
    · have hbyte : (highMask (min m 8) == 0) = false := by
        simp [highMask_eq_zero_iff (Nat.min_le_right m 8)]
        omega
      rw [hbyte, if_neg Bool.false_ne_true, ih, netmaskBits_highMask (Nat.min_le_right m 8), ofInt_natCast,
        UInt8.add_assoc, ← UInt8.ofNat_add]
      congr 2
      omega

theorem toString_ofPrefix {a : CNetAddr} (hip : a.m_net = .ipv4 ∨ a.m_net = .ipv6) {m : UInt8}
    (hm : m.toNat ≤ 8 * a.m_addr.length) (toStringAddr : CNetAddr → String) :
    (ofPrefix a m).toString toStringAddr = toStringAddr (ofPrefix a m).network ++ ("/" ++ Nat.repr m.toNat) := by
  have hcidr : cidrLoop 0 ((netmaskArray (prefixMask a.m_addr.length m.toNat)).take a.m_addr.length) = m := by
    rw [take_netmaskArray (length_prefixMask _ _) (CNetAddr.length_le_of_ip hip), cidrLoop_prefixMask,
      Nat.min_eq_left hm, UInt8.zero_add, UInt8.ofNat_toNat]
  rw [ofPrefix_eq hip hm]
  unfold toString
  rcases hip with h | h <;> simp only [withNetmask_network, withNetmask_netmask, CNetAddr.applyNetmask_m_net,
    CNetAddr.length_applyNetmask, h, hcidr]

-- ---------------------------------------------------------------------------
-- The constructor from a netmask address
-- ---------------------------------------------------------------------------

section ofNetmask

variable {a k : CNetAddr} (hip : a.m_net = .ipv4 ∨ a.m_net = .ipv6) (hk : k.m_net = a.m_net)
include hip hk

/-- A netmask address of the subnet's network gives a valid subnet exactly when its 1-bits are
a prefix. -/
theorem ofNetmask_valid_iff : (ofNetmask a k).valid = true ↔ Contiguous k.m_addr := by
  have hnet : ((a.isIPv4 || a.isIPv6) && a.m_net == k.m_net) = true := by
    unfold CNetAddr.isIPv4 CNetAddr.isIPv6
    rcases hip with h | h <;> simp [h, hk]
  rw [ofNetmask, if_pos hnet, ← netmaskCheck_iff_contiguous]
  by_cases hcheck : netmaskCheck false k.m_addr = true
  · simp only [hcheck, if_true, iff_true]
    rfl
  · simp only [hcheck, Bool.false_eq_true, if_false, iff_false]
    exact Bool.false_ne_true

/-- A valid subnet from a netmask address is the subnet of its number of 1-bits. -/
theorem ofNetmask_eq_ofPrefix (hvalid : (ofNetmask a k).valid = true) :
    ofNetmask a k = ofPrefix a (UInt8.ofNat (ones k.m_addr)) := by
  have hc := (ofNetmask_valid_iff hip hk).mp hvalid
  have hlen := CNetAddr.length_eq_of_m_net_eq hk
  have h16 := CNetAddr.length_le_of_ip hip
  have hones : (UInt8.ofNat (ones k.m_addr)).toNat = ones k.m_addr := by
    have := ones_le k.m_addr
    rw [UInt8.toNat_ofNat', Nat.mod_eq_of_lt (by omega)]
  have hnet : ((a.isIPv4 || a.isIPv6) && a.m_net == k.m_net) = true := by
    unfold CNetAddr.isIPv4 CNetAddr.isIPv6
    rcases hip with h | h <;> simp [h, hk]
  rw [ofNetmask, if_pos hnet, if_pos ((netmaskCheck_iff_contiguous _).mpr hc),
    ofPrefix_eq hip (by rw [hones]; have := ones_le k.m_addr; omega), hones, ← hlen, ← contiguous_iff.mp hc]

end ofNetmask

-- ---------------------------------------------------------------------------
-- The constructor from one address
-- ---------------------------------------------------------------------------

end CSubNet

/-- A prefix subnet of an IPv4 or IPv6 address is valid, matches the valid addresses of its
network that share the prefix with the address, prints its prefix length, and is the subnet
of every netmask address of its network whose 1-bits are a prefix. -/
theorem subnet_prefix_spec (a : CNetAddr) (hip : a.m_net = .ipv4 ∨ a.m_net = .ipv6) (m : UInt8)
    (hm : m.toNat ≤ 8 * a.m_addr.length) :
    (CSubNet.ofPrefix a m).valid = true ∧
    (∀ b : CNetAddr, (CSubNet.ofPrefix a m).matchAddr b = true ↔
      b.isValid = true ∧ b.m_net = a.m_net ∧ ∀ j < m.toNat, bit b.m_addr j = bit a.m_addr j) ∧
    (∀ toStringAddr : CNetAddr → String,
      ∃ pre, (CSubNet.ofPrefix a m).toString toStringAddr = pre ++ "/" ++ Nat.repr m.toNat) ∧
    (∀ k : CNetAddr, k.m_net = a.m_net →
      ((CSubNet.ofNetmask a k).valid = true ↔ Contiguous k.m_addr) ∧
      ((CSubNet.ofNetmask a k).valid = true → ∀ b : CNetAddr,
        (CSubNet.ofNetmask a k).matchAddr b = (CSubNet.ofPrefix a (UInt8.ofNat (ones k.m_addr))).matchAddr b)) := by
  refine ⟨CSubNet.ofPrefix_valid hip hm, CSubNet.matchAddr_ofPrefix hip hm, fun toStringAddr => ?_,
    fun k hk => ?_⟩
  · exact ⟨_, by rw [CSubNet.toString_ofPrefix hip hm, String.append_assoc]⟩
  · refine ⟨CSubNet.ofNetmask_valid_iff hip hk, fun hvalid b => ?_⟩
    rw [CSubNet.ofNetmask_eq_ofPrefix hip hk hvalid]

/-- The IPv4 address 192.168.1.77. -/
def demoAddr : CNetAddr := { m_addr := [192, 168, 1, 77], m_net := .ipv4, m_addr_size := rfl }

theorem subnet_prefix_spec_ipv4 :
    (demoAddr.m_net = .ipv4 ∨ demoAddr.m_net = .ipv6) ∧ (24 : UInt8).toNat ≤ 8 * demoAddr.m_addr.length ∧
      (CSubNet.ofPrefix demoAddr 24).valid = true :=
  ⟨Or.inl rfl, by decide, (subnet_prefix_spec demoAddr (Or.inl rfl) 24 (by decide)).1⟩

end Riecoin
