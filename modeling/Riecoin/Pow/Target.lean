-- SUMMARY: The target and offset arithmetic of Riecoin's proof of work (`DeriveTrailingZeros`, `DeriveTarget`, the two `nOnce` encodings) and the bounds that bind a tested number to one header hash.
import Riecoin.Base.Uint256
import Riecoin.Pow.PrimeTable
import Mathlib.Tactic.Ring
import Mathlib.Tactic.Linarith
import Mathlib.Tactic.Positivity
import Mathlib.Algebra.Order.GroupWithZero.Basic
import Mathlib.Algebra.BigOperators.Ring.Finset

/-!
# Targets and offsets

A Riecoin block proves work by a prime constellation starting at
`n = target + offset`. The target is a 265-bit prefix padded with
`trailingZeros` zero bits: a leading one, an eight-bit field (zero for PoW
version -1, the fractional-difficulty field `L` for version 1) and the 256-bit
header hash (bit-reversed for version -1, little-endian for version 1). The offset
is read from `nOnce` and must stay below `2^trailingZeros`.

This module models `DeriveTrailingZeros`, `DeriveTarget` and the part of
`CheckProofOfWorkImpl` that decodes `nOnce` and computes `n`
(`testedNumber`). Its main result, `testedNumber_commits_hash`, says that the
tested number lies in `[2^(tz+264), 2^(tz+265))` and that its 256 bits above the
padding are the hash, so that one constellation cannot serve two headers.
-/

namespace Riecoin

namespace Consensus

/-- The fields of `Consensus::Params` that the proof-of-work check reads. -/
structure Params where
  hashGenesisBlockForPoW : Uint256
  powAcceptedPatterns : List (List Int32)
  nBitsMin : UInt32

end Consensus

namespace Pow

open Consensus

-- ---------------------------------------------------------------------------
-- DeriveTrailingZeros and DeriveTarget
-- ---------------------------------------------------------------------------

/-- `DeriveTrailingZeros`: the number of zero bits that pad the 265-bit target prefix,
from `nBits + nBitsOffset` in the encoding of `powVersion`. -/
def deriveTrailingZeros (nBits nBitsOffset : UInt32) (powVersion : Int32) (nBitsMin : UInt32) :
    Option UInt32 := do
  if nBits < nBitsMin then none
  let nBits := nBits + nBitsOffset
  let trailingZeros ←
    if powVersion = -1 then some ((nBits &&& 0x007FFFFF) >>> 8)
    else if powVersion = 1 then some ((nBits >>> 8) + 1)
    else none
  -- 1 + 8 + 256 significative digits
  if trailingZeros < 265 then none
  pure (trailingZeros - 265)

/-- `L = round(2^(8 + Df/2^8) - 2^8)` computed with 32-bit integers only, for the low
byte `df` of `nBits`. -/
def lField (df : UInt32) : UInt32 :=
  (10 * df * df * df + 7383 * df * df + 5840720 * df + 3997440) >>> 23

/-- `DeriveTarget`: the 265-bit prefix `1 . field . hash`, padded with
`DeriveTrailingZeros` zero bits. -/
def deriveTarget (hash : Uint256) (nBits nBitsOffset : UInt32) (powVersion : Int32)
    (nBitsMin : UInt32) : Option Int := do
  let target : Int ←
    if powVersion = -1 then
      -- Inverts endianness and bit order inside bytes
      some <| (List.range 256).foldl (fun target i =>
        target * 2 + ((hash.data.getD (i / 8) 0 >>> (i % 8).toUInt8) &&& 1).toNat) 256
    else if powVersion = 1 then
      let df := nBits &&& 255
      -- `target = 256 + L`, shifted left by 256, plus the hash imported little-endian
      some ((256 + (lField df).toNat) * 2 ^ 256 + Bytes.leValue hash.data)
    else none
  let trailingZeros ← deriveTrailingZeros nBits nBitsOffset powVersion nBitsMin
  pure (target * 2 ^ trailingZeros.toNat)

-- ---------------------------------------------------------------------------
-- Decoding nOnce
-- ---------------------------------------------------------------------------

/-- Lines 234–254 of `CheckProofOfWorkImpl`: the PoW version that `nOnce` selects and the
`nBitsOffset` it carries, or `none` where the function returns `false`. -/
def powVersionOf (nBits : UInt32) (nOnce : Uint256) (nBitsMin : UInt32) :
    Option (Int32 × UInt64) :=
  let nOnce64 := nOnce.getUint64 0
  if nOnce64 &&& 1 = 1 then
    -- All Difficulties before Fork 2 were between 304 and 2564.
    if nBits < 33632256 ∨ nBits > 34210816 then none else some (-1, 0)
  else if nOnce64 &&& 31 = 2 then
    if nBits < nBitsMin then none
    else if nOnce64 &&& 65535 ≠ 2 then
      let nBits64 := nBits.toUInt64
      let nBitsOffset := (nOnce64 &&& 65504) <<< 8
      some (1, if nBits64 + nBitsOffset > 4294967295 then 4294967295 - nBits64 else nBitsOffset)
    else some (1, 0)
  else none

/-- The primorial loop of `CheckProofOfWorkImpl`: multiply by `primeTable[i]` for each
index in turn, and fail (`LogError`, `return false`) as soon as the product exceeds
`offsetLimit`. -/
def primorialLoop (offsetLimit : Int) : Int → List Nat → Option Int
  | primorial, [] => some primorial
  | primorial, i :: is =>
    let primorial := primorial * (primeTable.getD i 0).toNat
    if primorial > offsetLimit then none else primorialLoop offsetLimit primorial is

@[simp] theorem primorialLoop_nil (offsetLimit primorial : Int) :
    primorialLoop offsetLimit primorial [] = some primorial := rfl

theorem primorialLoop_cons (offsetLimit primorial : Int) (i : Nat) (is : List Nat) :
    primorialLoop offsetLimit primorial (i :: is) =
      if primorial * (primeTable.getD i 0).toNat > offsetLimit then none
      else primorialLoop offsetLimit (primorial * (primeTable.getD i 0).toNat) is := rfl

/-- The product of the first `k` entries of `primeTable`. -/
def partialPrimorial (k : Nat) : Nat :=
  ((List.range k).map fun j => (primeTable.getD j 0).toNat).prod

/-- `[31-30 Primorial Number]` of a version-1 `nOnce`: the `uint16_t` at byte 30. -/
def primorialNumber (nOnce : Uint256) : Nat :=
  Bytes.leValue ((nOnce.data.drop 30).take 2)

/-- `[29-14 Primorial Factor]` of a version-1 `nOnce`, imported least significant byte first. -/
def primorialFactor (nOnce : Uint256) : Nat :=
  Bytes.leValue ((nOnce.data.drop 14).take 16)

/-- `[13-2 Primorial Offset]` of a version-1 `nOnce`, imported least significant byte first. -/
def primorialOffset (nOnce : Uint256) : Nat :=
  Bytes.leValue ((nOnce.data.drop 2).take 12)

/-- Lines 262–283 of `CheckProofOfWorkImpl`: the offset that `nOnce` encodes for the
given target, with `offsetLimit = 2^trailingZeros`. Version -1 reads all of `nOnce`
as the offset; version 1 reads it as
`[31-30 Primorial Number|29-14 Primorial Factor|13-2 Primorial Offset|1-0 Version]`. -/
def powOffset (powVersion : Int32) (nOnce : Uint256) (target offsetLimit : Int) : Option Int :=
  if powVersion = -1 then
    some (Bytes.leValue nOnce.data)
  else if powVersion = 1 then do
    let primorial ← primorialLoop offsetLimit 1 (List.range (primorialNumber nOnce))
    -- `target % primorial` is GMP's truncated remainder, which aborts on a zero divisor
    if primorial = 0 then none
    else some (primorial - target.tmod primorial + primorialFactor nOnce * primorial +
      primorialOffset nOnce)
  else some 0

/-- Lines 256–288 of `CheckProofOfWorkImpl`: the PoW version, the trailing zeros and the
number `target + offset` whose constellation the function tests, or `none` where it
returns `false` before the primality tests. -/
def testedNumber (hash : Uint256) (nBits : UInt32) (nOnce : Uint256) (params : Params) :
    Option (Int32 × UInt32 × Int) := do
  let (powVersion, nBitsOffset) ← powVersionOf nBits nOnce params.nBitsMin
  let trailingZeros ← deriveTrailingZeros nBits nBitsOffset.toUInt32 powVersion params.nBitsMin
  let target ← deriveTarget hash nBits nBitsOffset.toUInt32 powVersion params.nBitsMin
  let offsetLimit : Int := 2 ^ trailingZeros.toNat
  let offset ← powOffset powVersion nOnce target offsetLimit
  if offset ≥ offsetLimit then none
  pure (powVersion, trailingZeros, target + offset)

-- ---------------------------------------------------------------------------
-- The version and the offset field
-- ---------------------------------------------------------------------------

/-- Low five bits equal to `2` leave bit 0 clear, so the two versions never overlap. -/
private theorem and_one_ne_of_and_31 {x : UInt64} (h : x &&& 31 = 2) : x &&& 1 ≠ 1 := by
  intro h1
  have h31 := congrArg UInt64.toNat h
  have h1' := congrArg UInt64.toNat h1
  rw [UInt64.toNat_and] at h31 h1'
  have e31 : x.toNat &&& 31 = x.toNat % 32 := Nat.and_two_pow_sub_one_eq_mod x.toNat 5
  have e1 : x.toNat &&& 1 = x.toNat % 2 := Nat.and_one_is_mod _
  simp only [UInt64.reduceToNat] at h31 h1'
  omega

/-- The offset field `(nOnce & 65504) << 8` stays below `2^24`. -/
private theorem shifted_field_lt (x : UInt64) : ((x &&& 65504) <<< 8).toNat < 2 ^ 24 := by
  have hand : (x &&& 65504).toNat ≤ 65504 := by
    rw [UInt64.toNat_and]; exact Nat.and_le_right
  rw [UInt64.toNat_shiftLeft]
  have h8 : (8 : UInt64).toNat % 64 = 8 := rfl
  rw [h8, Nat.shiftLeft_eq]
  omega

/-- The 64-bit clamp of `nBitsOffset` is the minimum of the field and the room left
above `nBits` in 32 bits. -/
private theorem clamp_toNat (nBits : UInt32) (y : UInt64) (hy : y.toNat < 2 ^ 24) :
    (if nBits.toUInt64 + y > 4294967295 then 4294967295 - nBits.toUInt64 else y).toNat =
      min y.toNat (4294967295 - nBits.toNat) := by
  have hn : nBits.toNat < 2 ^ 32 := nBits.toNat_lt
  have hsum : (nBits.toUInt64 + y).toNat = nBits.toNat + y.toNat := by
    rw [UInt64.toNat_add, UInt32.toNat_toUInt64]
    exact Nat.mod_eq_of_lt (by omega)
  have hmax : (4294967295 : UInt64).toNat = 4294967295 := rfl
  split_ifs with h
  · rw [gt_iff_lt, UInt64.lt_iff_toNat_lt, hsum, hmax] at h
    have hle : nBits.toUInt64 ≤ 4294967295 := by
      rw [UInt64.le_iff_toNat_le, UInt32.toNat_toUInt64, hmax]; omega
    rw [UInt64.toNat_sub_of_le _ _ hle, UInt32.toNat_toUInt64, hmax]
    omega
  · rw [gt_iff_lt, UInt64.lt_iff_toNat_lt, hsum, hmax] at h
    omega

/-- What the version decoding accepts: version -1 when bit 0 of `nOnce` is set and
`nBits` lies in the pre-fork range, with no offset; version 1 when the low five bits
are `2` and `nBits` is at least `nBitsMin`, with `nBitsOffset` the field of bits 5–15
shifted by 8, cut down to the room left in 32 bits, or no offset when the low 16 bits
are exactly `2`. -/
theorem powVersionOf_eq_some {nBits : UInt32} {nOnce : Uint256} {nBitsMin : UInt32}
    {powVersion : Int32} {nBitsOffset : UInt64} :
    powVersionOf nBits nOnce nBitsMin = some (powVersion, nBitsOffset) ↔
      (nOnce.getUint64 0 &&& 1 = 1 ∧ 33632256 ≤ nBits ∧ nBits ≤ 34210816 ∧
        powVersion = -1 ∧ nBitsOffset = 0) ∨
      (nOnce.getUint64 0 &&& 31 = 2 ∧ nBitsMin ≤ nBits ∧ powVersion = 1 ∧
        nBitsOffset.toNat = if nOnce.getUint64 0 &&& 65535 = 2 then 0
          else min ((nOnce.getUint64 0 &&& 65504) <<< 8).toNat (4294967295 - nBits.toNat)) := by
  unfold powVersionOf
  generalize nOnce.getUint64 0 = x
  by_cases h1 : x &&& 1 = 1
  · have h31 : ¬ x &&& 31 = 2 := fun h => and_one_ne_of_and_31 h h1
    by_cases hr : nBits < 33632256 ∨ nBits > 34210816
    · simp only [h1, hr, h31, if_true, false_and, or_false]
      constructor
      · intro h; cases h
      · rintro ⟨-, hlo, hhi, -⟩
        rcases hr with hr | hr
        · exact absurd hlo (UInt32.not_le.mpr hr)
        · exact absurd hhi (UInt32.not_le.mpr hr)
    · rw [not_or, UInt32.not_lt, gt_iff_lt, UInt32.not_lt] at hr
      simp [h1, hr, h31, eq_comm]
  · by_cases h31 : x &&& 31 = 2
    · by_cases hmin : nBits < nBitsMin
      · simp [h1, h31, hmin, UInt32.not_le.mpr hmin]
      · by_cases h65535 : x &&& 65535 = 2
        · simp [h1, h31, hmin, h65535, UInt32.not_lt.mp hmin, eq_comm, ← UInt64.toNat_inj]
        · simp only [h1, h31, hmin, h65535, if_false, if_true, ne_eq, not_false_eq_true,
            Option.some.injEq, Prod.mk.injEq, false_and, false_or, true_and]
          rw [← clamp_toNat nBits _ (shifted_field_lt x), UInt64.toNat_inj]
          simp [UInt32.not_lt.mp hmin, eq_comm]
    · simp [h1, h31]

-- ---------------------------------------------------------------------------
-- The target as a number
-- ---------------------------------------------------------------------------

/-- The bit `DeriveTarget` shifts in at step `i` is bit `i` of the hash read
little-endian. -/
private theorem hashBit_eq (hash : Uint256) (i : Nat) :
    ((((hash.data.getD (i / 8) 0 >>> (i % 8).toUInt8) &&& 1).toNat : Nat) : Int) =
      ((Bytes.leValue hash.data).testBit i).toNat := by
  rw [Bytes.testBit_leValue, Nat.toNat_testBit]
  have hk : (i % 8).toUInt8.toNat % 8 = i % 8 := by
    simp [Nat.toUInt8]
  simp only [UInt8.toNat_and, UInt8.toNat_shiftRight, hk, Nat.shiftRight_eq_div_pow,
    UInt8.toNat_one, Nat.and_one_is_mod]

/-- The field `L` never exceeds 255, so it fits the eight bits between the leading one
and the hash. The check runs over the 256 possible low bytes. -/
theorem lField_le {df : UInt32} (h : df < 256) : (lField df).toNat ≤ 255 := by
  have hall : ∀ d : Nat, d < 256 → (lField (UInt32.ofNat d)).toNat ≤ 255 := by decide +kernel
  have hd := hall df.toNat (by rwa [UInt32.lt_iff_toNat_lt] at h)
  rwa [UInt32.ofNat_toNat] at hd

theorem deriveTarget_of_minus_one {hash : Uint256} {nBits nBitsOffset nBitsMin tz : UInt32}
    (htz : deriveTrailingZeros nBits nBitsOffset (-1) nBitsMin = some tz) :
    deriveTarget hash nBits nBitsOffset (-1) nBitsMin =
      some ((2 ^ 264 + (Bytes.bitReverse 256 (Bytes.leValue hash.data) : Int)) * 2 ^ tz.toNat) := by
  have hloop := Bytes.foldl_range_double_add (Bytes.leValue hash.data) 256 256 _
    (fun i _ => hashBit_eq hash i)
  have h264 : (256 : Int) * 2 ^ 256 = 2 ^ 264 := by
    rw [show (264 : Nat) = 8 + 256 from rfl, pow_add]; rfl
  simp only [deriveTarget, if_true, hloop, h264, htz, Option.bind_eq_bind, Option.bind_some,
    Option.pure_def]

theorem deriveTarget_of_one {hash : Uint256} {nBits nBitsOffset nBitsMin tz : UInt32}
    (htz : deriveTrailingZeros nBits nBitsOffset 1 nBitsMin = some tz) :
    deriveTarget hash nBits nBitsOffset 1 nBitsMin =
      some (((256 + (lField (nBits &&& 255)).toNat : Int) * 2 ^ 256 + Bytes.leValue hash.data) *
        2 ^ tz.toNat) := by
  simp [deriveTarget, htz]

-- ---------------------------------------------------------------------------
-- The offset
-- ---------------------------------------------------------------------------

theorem primorialLoop_nonneg {offsetLimit primorial result : Int} {is : List Nat}
    (h0 : 0 ≤ primorial) (h : primorialLoop offsetLimit primorial is = some result) :
    0 ≤ result := by
  induction is generalizing primorial with
  | nil =>
    simp only [primorialLoop_nil, Option.some.injEq] at h
    exact h ▸ h0
  | cons i is ih =>
    rw [primorialLoop_cons] at h
    split at h
    · cases h
    · exact ih (Int.mul_nonneg h0 (Int.natCast_nonneg _)) h

/-- Every offset is non-negative: the version-1 formula starts with
`primorial - target % primorial`, which is positive. -/
theorem powOffset_nonneg {powVersion : Int32} {nOnce : Uint256} {target offsetLimit offset : Int}
    (h : powOffset powVersion nOnce target offsetLimit = some offset) : 0 ≤ offset := by
  unfold powOffset at h
  split_ifs at h with h1 h2
  · cases h
    exact Int.natCast_nonneg _
  · simp only [Option.bind_eq_bind, Option.bind_eq_some_iff] at h
    obtain ⟨primorial, hloop, h⟩ := h
    split_ifs at h with hzero
    cases h
    have hp : 0 < primorial :=
      lt_of_le_of_ne (primorialLoop_nonneg (by decide) hloop) (Ne.symm hzero)
    have hmod : target.tmod primorial < primorial := Int.tmod_lt_of_pos _ hp
    have hfactor : 0 ≤ (primorialFactor nOnce : Int) * primorial :=
      Int.mul_nonneg (Int.natCast_nonneg _) hp.le
    have hoff : 0 ≤ (primorialOffset nOnce : Int) := Int.natCast_nonneg _
    omega
  · cases h
    exact le_refl 0

-- ---------------------------------------------------------------------------
-- The tested number
-- ---------------------------------------------------------------------------

/-- The primorial loop succeeds exactly when no partial product exceeds the limit, and
then returns the whole product. -/
theorem primorialLoop_eq_some_iff {offsetLimit acc result : Int} {is : List Nat} :
    primorialLoop offsetLimit acc is = some result ↔
      (∀ m < is.length, acc * ((is.take (m + 1)).map fun i =>
        ((primeTable.getD i 0).toNat : Int)).prod ≤ offsetLimit) ∧
      result = acc * (is.map fun i => ((primeTable.getD i 0).toNat : Int)).prod := by
  induction is generalizing acc with
  | nil => simp [eq_comm]
  | cons i is ih =>
    simp only [primorialLoop_cons, List.length_cons, List.map_cons, List.prod_cons]
    split
    · next hover =>
      simp only [reduceCtorEq, false_iff, not_and]
      intro hall
      have := hall 0 (by omega)
      simp only [zero_add, List.take_succ_cons, List.take_zero, List.map_cons, List.map_nil,
        List.prod_cons, List.prod_nil, mul_one] at this
      exact absurd this (not_le.mpr hover)
    · next hle =>
      rw [ih]
      constructor
      · rintro ⟨hall, rfl⟩
        refine ⟨fun m hm => ?_, by ring⟩
        cases m with
        | zero => simpa using (not_lt.mp hle)
        | succ m =>
          have := hall m (by omega)
          simpa [List.take_succ_cons, mul_assoc] using this
      · rintro ⟨hall, rfl⟩
        refine ⟨fun m hm => ?_, by ring⟩
        have := hall (m + 1) (by omega)
        simpa [List.take_succ_cons, mul_assoc] using this

theorem primorialLoop_range_eq_some_iff {offsetLimit result : Int} {k : Nat} :
    primorialLoop offsetLimit 1 (List.range k) = some result ↔
      (∀ i < k, (partialPrimorial (i + 1) : Int) ≤ offsetLimit) ∧
      result = partialPrimorial k := by
  rw [primorialLoop_eq_some_iff]
  simp only [List.length_range, List.take_range, one_mul, partialPrimorial, Nat.cast_list_prod,
    List.map_map]
  constructor
  · rintro ⟨hall, rfl⟩
    refine ⟨fun i hi => ?_, rfl⟩
    have := hall i hi
    rwa [Nat.min_eq_left (by omega)] at this
  · rintro ⟨hall, rfl⟩
    refine ⟨fun i hi => ?_, rfl⟩
    rw [Nat.min_eq_left (by omega)]
    exact hall i hi

/-- The offset of each version: all of `nOnce` for version -1; for version 1, the
primorial of `primorialNumber` primes, provided no partial primorial exceeds the limit,
combined with the target and the two other fields. -/
theorem powOffset_eq_some_iff {powVersion : Int32} {nOnce : Uint256}
    {target offsetLimit offset : Int} (hv : powVersion = -1 ∨ powVersion = 1) :
    powOffset powVersion nOnce target offsetLimit = some offset ↔
      (powVersion = -1 ∧ offset = Bytes.leValue nOnce.data) ∨
      (powVersion = 1 ∧
        (∀ i < primorialNumber nOnce, (partialPrimorial (i + 1) : Int) ≤ offsetLimit) ∧
        0 < partialPrimorial (primorialNumber nOnce) ∧
        offset = partialPrimorial (primorialNumber nOnce) -
          target.tmod (partialPrimorial (primorialNumber nOnce)) +
          primorialFactor nOnce * partialPrimorial (primorialNumber nOnce) +
          primorialOffset nOnce) := by
  rcases hv with rfl | rfl
  · simp [powOffset, eq_comm]
  · simp only [powOffset, show ¬ (1 : Int32) = -1 by decide, if_false, if_true, false_and,
      true_and, false_or, Option.bind_eq_bind, Option.bind_eq_some_iff,
      primorialLoop_range_eq_some_iff]
    constructor
    · rintro ⟨_, ⟨hall, rfl⟩, h⟩
      split_ifs at h with hzero
      cases h
      exact ⟨hall, by omega, rfl⟩
    · rintro ⟨hall, hpos, rfl⟩
      refine ⟨_, ⟨hall, rfl⟩, ?_⟩
      rw [if_neg (by omega)]

/-- `testedNumber` runs its steps in order: decode the version, derive the padding and
the target, read the offset, and check it against `2^trailingZeros`. -/
theorem testedNumber_eq_some_iff {hash : Uint256} {nBits : UInt32} {nOnce : Uint256}
    {params : Params} {powVersion : Int32} {tz : UInt32} {n : Int} :
    testedNumber hash nBits nOnce params = some (powVersion, tz, n) ↔
      ∃ (nBitsOffset : UInt64) (target offset : Int),
        powVersionOf nBits nOnce params.nBitsMin = some (powVersion, nBitsOffset) ∧
        deriveTrailingZeros nBits nBitsOffset.toUInt32 powVersion params.nBitsMin = some tz ∧
        deriveTarget hash nBits nBitsOffset.toUInt32 powVersion params.nBitsMin = some target ∧
        powOffset powVersion nOnce target (2 ^ tz.toNat) = some offset ∧
        offset < 2 ^ tz.toNat ∧ n = target + offset := by
  simp only [testedNumber, Option.bind_eq_bind, Option.bind_eq_some_iff]
  constructor
  · rintro ⟨⟨v, o⟩, hv, tz', htz, target, htarget, offset, hoffset, h⟩
    split_ifs at h with hlimit
    · cases h
    · cases h
      exact ⟨o, target, offset, hv, htz, htarget, hoffset, lt_of_not_ge hlimit, rfl⟩
  · rintro ⟨o, target, offset, hv, htz, htarget, hoffset, hlt, rfl⟩
    refine ⟨(powVersion, o), hv, tz, htz, target, htarget, offset, hoffset, ?_⟩
    simp [not_le.mpr hlt]

/-- The number a check tests is its version's target prefix, padded with the trailing
zeros and filled by an offset below `2^trailingZeros`. -/
theorem testedNumber_eq_some {hash : Uint256} {nBits : UInt32} {nOnce : Uint256} {params : Params}
    {powVersion : Int32} {tz : UInt32} {n : Int}
    (h : testedNumber hash nBits nOnce params = some (powVersion, tz, n)) :
    ∃ offset : Int, 0 ≤ offset ∧ offset < 2 ^ tz.toNat ∧
      ((powVersion = -1 ∧
          n = (2 ^ 264 + (Bytes.bitReverse 256 (Bytes.leValue hash.data) : Int)) * 2 ^ tz.toNat +
            offset) ∨
        (powVersion = 1 ∧
          n = ((256 + (lField (nBits &&& 255)).toNat : Int) * 2 ^ 256 + Bytes.leValue hash.data) *
            2 ^ tz.toNat + offset)) := by
  obtain ⟨nBitsOffset, target, offset, hv, htz, htarget, hoffset, hlt, rfl⟩ :=
    testedNumber_eq_some_iff.mp h
  refine ⟨offset, powOffset_nonneg hoffset, hlt, ?_⟩
  rcases powVersionOf_eq_some.mp hv with ⟨-, -, -, rfl, -⟩ | ⟨-, -, rfl, -⟩
  · rw [deriveTarget_of_minus_one htz] at htarget
    cases htarget
    exact .inl ⟨rfl, rfl⟩
  · rw [deriveTarget_of_one htz] at htarget
    cases htarget
    exact .inr ⟨rfl, rfl⟩

/-- A prefix over `k` padding bits filled by `0 ≤ offset < 2^k` is the quotient by `2^k`. -/
theorem padded_ediv {X offset : Int} {k : Nat} (h0 : 0 ≤ offset) (h1 : offset < 2 ^ k) :
    (X * 2 ^ k + offset) / 2 ^ k = X := by
  have hk : (0 : Int) < 2 ^ k := by positivity
  rw [Int.add_comm, Int.add_mul_ediv_right _ _ hk.ne', Int.ediv_eq_zero_of_lt h0 h1, Int.zero_add]

theorem padded_bounds (X B : Int) {offset : Int} {k : Nat} (hX0 : B ≤ X) (hX1 : X < 2 * B)
    (h0 : 0 ≤ offset) (h1 : offset < 2 ^ k) :
    B * 2 ^ k ≤ X * 2 ^ k + offset ∧ X * 2 ^ k + offset < 2 * B * 2 ^ k := by
  have hk : (0 : Int) < 2 ^ k := by positivity
  constructor
  · nlinarith
  · nlinarith

/-- The binary length of a number fixes the padding it was built with. -/
theorem trailingZeros_unique {n : Int} {a b : Nat}
    (ha : 2 ^ (a + 264) ≤ n ∧ n < 2 ^ (a + 265)) (hb : 2 ^ (b + 264) ≤ n ∧ n < 2 ^ (b + 265)) :
    a = b := by
  by_contra hne
  rcases Nat.lt_or_gt_of_ne hne with h | h
  · have : (2 : Int) ^ (a + 265) ≤ 2 ^ (b + 264) := pow_le_pow_right₀ (by norm_num) (by omega)
    exact lt_irrefl n (ha.2.trans_le (this.trans hb.1))
  · have : (2 : Int) ^ (b + 265) ≤ 2 ^ (a + 264) := pow_le_pow_right₀ (by norm_num) (by omega)
    exact lt_irrefl n (hb.2.trans_le (this.trans ha.1))

private theorem hash_leValue_lt (hash : Uint256) : Bytes.leValue hash.data < 2 ^ 256 := by
  have := hash.leValue_lt
  rwa [show (256 : Nat) ^ (256 / 8) = 2 ^ 256 by norm_num] at this

/-- The tested number has `tz + 265` binary digits, and the 256 digits above the
padding are the hash: read little-endian for version 1, and for version -1 with its
bit order reversed (the bytes in inverted order, each with its bits reversed). -/
theorem testedNumber_window {hash : Uint256} {nBits : UInt32} {nOnce : Uint256} {params : Params}
    {powVersion : Int32} {tz : UInt32} {n : Int}
    (h : testedNumber hash nBits nOnce params = some (powVersion, tz, n)) :
    2 ^ (tz.toNat + 264) ≤ n ∧ n < 2 ^ (tz.toNat + 265) ∧
      ((powVersion = 1 ∧ n / 2 ^ tz.toNat % 2 ^ 256 = Bytes.leValue hash.data) ∨
        (powVersion = -1 ∧
          n / 2 ^ tz.toNat % 2 ^ 256 = Bytes.bitReverse 256 (Bytes.leValue hash.data))) := by
  obtain ⟨offset, h0, h1, hn⟩ := testedNumber_eq_some h
  have e264 : (2 : Int) ^ 264 = 2 ^ 256 * 256 := by
    rw [show (264 : Nat) = 256 + 8 from rfl, pow_add]; norm_num
  have e265 : (2 : Int) ^ 265 = 2 * (2 ^ 256 * 256) := by
    rw [show (265 : Nat) = 1 + 264 from rfl, pow_add, e264]; norm_num
  have hH : (Bytes.leValue hash.data : Int) < 2 ^ 256 := by exact_mod_cast hash_leValue_lt hash
  have hR : (Bytes.bitReverse 256 (Bytes.leValue hash.data) : Int) < 2 ^ 256 := by
    exact_mod_cast Bytes.bitReverse_lt 256 _
  have hP : (0 : Int) < 2 ^ 256 := by positivity
  have hH0 : (0 : Int) ≤ Bytes.leValue hash.data := Int.natCast_nonneg _
  have hR0 : (0 : Int) ≤ Bytes.bitReverse 256 (Bytes.leValue hash.data) := Int.natCast_nonneg _
  rw [pow_add, pow_add, e264, e265, mul_comm _ ((2 : Int) ^ 256 * 256),
    mul_comm _ (2 * ((2 : Int) ^ 256 * 256))]
  rcases hn with ⟨rfl, rfl⟩ | ⟨rfl, rfl⟩
  · -- version -1: the prefix is `2^264 + reversed hash`
    rw [e264]
    have hb := padded_bounds (2 ^ 256 * 256 + Bytes.bitReverse 256 (Bytes.leValue hash.data))
      (2 ^ 256 * 256) (by linarith) (by linarith) h0 h1
    refine ⟨hb.1, hb.2, .inr ⟨rfl, ?_⟩⟩
    rw [padded_ediv h0 h1, Int.add_comm, Int.mul_comm, Int.add_mul_emod_self_right,
      Int.emod_eq_of_lt hR0 hR]
  · -- version 1: the prefix is `(256 + L) * 2^256 + hash` with `L ≤ 255`
    have hL : (lField (nBits &&& 255)).toNat ≤ 255 := lField_le (by
      rw [UInt32.lt_iff_toNat_lt, UInt32.toNat_and]
      exact Nat.lt_of_le_of_lt Nat.and_le_right (by decide))
    have hL' : ((lField (nBits &&& 255)).toNat : Int) ≤ 255 := by exact_mod_cast hL
    have hL0 : (0 : Int) ≤ (lField (nBits &&& 255)).toNat := Int.natCast_nonneg _
    have hb := padded_bounds
      ((256 + (lField (nBits &&& 255)).toNat) * 2 ^ 256 + Bytes.leValue hash.data)
      (2 ^ 256 * 256) (by nlinarith) (by nlinarith) h0 h1
    refine ⟨hb.1, hb.2, .inl ⟨rfl, ?_⟩⟩
    rw [padded_ediv h0 h1, Int.add_comm, Int.add_mul_emod_self_right, Int.emod_eq_of_lt hH0 hH]

/-- Every number that `CheckProofOfWorkImpl` tests has `tz + 265` binary digits whose
256 digits above the padding are the header hash (little-endian for PoW version 1,
bit-reversed for version -1); so two headers with different hashes never reach the
primality tests with the same number under the same PoW version. -/
theorem testedNumber_commits_hash :
    (∀ (hash : Uint256) (nBits : UInt32) (nOnce : Uint256) (params : Params) (powVersion : Int32)
        (tz : UInt32) (n : Int),
      testedNumber hash nBits nOnce params = some (powVersion, tz, n) →
        2 ^ (tz.toNat + 264) ≤ n ∧ n < 2 ^ (tz.toNat + 265) ∧
          ((powVersion = 1 ∧ n / 2 ^ tz.toNat % 2 ^ 256 = Bytes.leValue hash.data) ∨
            (powVersion = -1 ∧
              n / 2 ^ tz.toNat % 2 ^ 256 = Bytes.bitReverse 256 (Bytes.leValue hash.data)))) ∧
    (∀ (hash₁ hash₂ : Uint256) (nBits₁ nBits₂ : UInt32) (nOnce₁ nOnce₂ : Uint256)
        (params₁ params₂ : Params) (powVersion : Int32) (tz₁ tz₂ : UInt32) (n : Int),
      testedNumber hash₁ nBits₁ nOnce₁ params₁ = some (powVersion, tz₁, n) →
      testedNumber hash₂ nBits₂ nOnce₂ params₂ = some (powVersion, tz₂, n) →
        hash₁ = hash₂) := by
  refine ⟨fun _ _ _ _ _ _ _ h => testedNumber_window h, ?_⟩
  intro hash₁ hash₂ nBits₁ nBits₂ nOnce₁ nOnce₂ params₁ params₂ powVersion tz₁ tz₂ n h₁ h₂
  obtain ⟨lo₁, hi₁, hv₁⟩ := testedNumber_window h₁
  obtain ⟨lo₂, hi₂, hv₂⟩ := testedNumber_window h₂
  have htz : tz₁.toNat = tz₂.toNat := trailingZeros_unique ⟨lo₁, hi₁⟩ ⟨lo₂, hi₂⟩
  rw [htz] at hv₁
  rcases hv₁ with ⟨rfl, e₁⟩ | ⟨rfl, e₁⟩ <;> rcases hv₂ with ⟨hv, e₂⟩ | ⟨hv, e₂⟩
  · exact BaseBlob.eq_of_leValue_eq (by exact_mod_cast e₁.symm.trans e₂)
  · exact absurd hv (by decide)
  · exact absurd hv (by decide)
  · have hrev : Bytes.bitReverse 256 (Bytes.leValue hash₁.data) =
        Bytes.bitReverse 256 (Bytes.leValue hash₂.data) := by exact_mod_cast e₁.symm.trans e₂
    exact BaseBlob.eq_of_leValue_eq
      (Bytes.bitReverse_injective (hash_leValue_lt hash₁) (hash_leValue_lt hash₂) hrev)

/-- `nOnce = 1`: bit 0 set, so PoW version -1 with offset 1. -/
def oneOnce : Uint256 := ⟨1 :: List.replicate 31 0, rfl⟩

/-- The zero hash at `nBits = 33632256` (39 padding zeros) and `nOnce = 1` is tested as
`2^303 + 1`, whose 256 digits above the padding are the bit-reversed hash; a second parameter
set reaching the same number has the same hash. -/
theorem testedNumber_commits_hash_oneOnce :
    testedNumber (BaseBlob.zero 256) 33632256 oneOnce ⟨oneOnce, [], 0⟩ = some (-1, 39, 2 ^ 303 + 1) ∧
    (2 ^ ((39 : UInt32).toNat + 264) ≤ (2 ^ 303 + 1 : Int) ∧ (2 ^ 303 + 1 : Int) < 2 ^ ((39 : UInt32).toNat + 265) ∧
      (((-1 : Int32) = 1 ∧ (2 ^ 303 + 1 : Int) / 2 ^ (39 : UInt32).toNat % 2 ^ 256 =
          Bytes.leValue (BaseBlob.zero 256).data) ∨
        ((-1 : Int32) = -1 ∧ (2 ^ 303 + 1 : Int) / 2 ^ (39 : UInt32).toNat % 2 ^ 256 =
          Bytes.bitReverse 256 (Bytes.leValue (BaseBlob.zero 256).data)))) ∧
    testedNumber (BaseBlob.zero 256) 33632256 oneOnce ⟨BaseBlob.zero 256, [[0]], 5⟩ = some (-1, 39, 2 ^ 303 + 1) ∧
    BaseBlob.zero 256 = BaseBlob.zero 256 := by
  have htested : testedNumber (BaseBlob.zero 256) 33632256 oneOnce ⟨oneOnce, [], 0⟩ =
      some (-1, 39, 2 ^ 303 + 1) := by
    decide +kernel
  have htested' : testedNumber (BaseBlob.zero 256) 33632256 oneOnce ⟨BaseBlob.zero 256, [[0]], 5⟩ =
      some (-1, 39, 2 ^ 303 + 1) := by
    decide +kernel
  exact ⟨htested, testedNumber_commits_hash.1 _ _ _ _ _ _ _ htested, htested',
    testedNumber_commits_hash.2 _ _ _ _ _ _ _ _ _ _ _ _ htested htested'⟩

end Pow

end Riecoin
