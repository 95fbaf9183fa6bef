-- SUMMARY: The sieve `GeneratePrimeTable` of `pow.cpp` and the table `primeTable` whose prefixes give the primorials of the proof of work; the sieve returns the primes up to its limit unless it writes past its table, which it does exactly for the limits of `SieveOverruns`.
import Mathlib.Data.Nat.Prime.Basic
import Mathlib.Data.Nat.Bitwise
import Mathlib.Data.Nat.GCD.Basic

/-!
# The prime table

`GeneratePrimeTable(limit)` is a sieve of Eratosthenes over the odd numbers: bit `m`
of the `uint64_t` word `m >> 6` of `compositeTable` stands for the odd number
`2 * m + 1`. The model keeps the source's 64-bit arithmetic and its word indexing.
An index past the end of the table is undefined behaviour in C++, and a failed
`assert` aborts; both are `none` here. Each loop runs on an explicit fuel of
`limit + 1` iterations, which bounds every loop whose counter does not wrap; running
out of fuel is `none` as well.

`primeTable` is `GeneratePrimeTable(821641)`, computed once at start-up, whose asserts
check that it holds 65536 primes from 2 to 821641.

The proofs read the table through `compositeBit` and the relation `Represents`: the table
has its `(limit + 127) / 128` words and its set bits are a given set of positions up to
`limit / 2`. The outer loop keeps the table at the odd numbers `CrossedOff f` crossed off by
the primes below `f`; when it stops, a bit below `limit / 2` is set exactly when its odd
number is composite (`crossedOff_iff_not_prime`), and the collecting loop returns
`primesUpTo limit`. The one index that can leave the table is the bit of `limit + 1`, the
last bit the marking loop may reach: it is in the word `limit / 128`, past the end when
`limit` is a multiple of 128, and it is reached when a prime `p` with `p * p ≤ limit`
divides `limit + 1` (`SieveOverruns`).
-/

namespace Riecoin.Pow

/-- `compositeTable[w] & (1ULL << b)` is nonzero; `none` if `w` is past the end. -/
def testCompositeBit (compositeTable : Array UInt64) (w b : UInt64) : Option Bool :=
  compositeTable[w.toNat]?.map fun word => word &&& (1 <<< b) != 0

/-- `compositeTable[w] |= 1ULL << b`; `none` if `w` is past the end. -/
def setCompositeBit (compositeTable : Array UInt64) (w b : UInt64) : Option (Array UInt64) :=
  if h : w.toNat < compositeTable.size then
    some (compositeTable.set w.toNat (compositeTable[w.toNat] ||| (1 <<< b)))
  else none

/-- The inner loop `for (m = (f*f) >> 1; m <= (limit >> 1); m += f)`, which marks the
odd multiples of `f` from `f * f` on. -/
def markMultiples (limit f : UInt64) : Nat → UInt64 → Array UInt64 → Option (Array UInt64)
  | 0, _, _ => none
  | fuel + 1, m, compositeTable =>
    if m ≤ limit >>> 1 then do
      let compositeTable ← setCompositeBit compositeTable (m >>> 6) (m &&& 63)
      markMultiples limit f fuel (m + f) compositeTable
    else some compositeTable

theorem markMultiples_succ (limit f : UInt64) (fuel : Nat) (m : UInt64) (compositeTable : Array UInt64) :
    markMultiples limit f (fuel + 1) m compositeTable =
      if m ≤ limit >>> 1 then do
        let compositeTable ← setCompositeBit compositeTable (m >>> 6) (m &&& 63)
        markMultiples limit f fuel (m + f) compositeTable
      else some compositeTable := rfl

/-- The outer loop `for (f = 3; f*f <= limit; f += 2)`, which skips a composite `f`
and marks the multiples of a prime one. -/
def sieveComposites (limit : UInt64) : Nat → UInt64 → Array UInt64 → Option (Array UInt64)
  | 0, _, _ => none
  | fuel + 1, f, compositeTable =>
    if f * f ≤ limit then do
      let composite ← testCompositeBit compositeTable (f >>> 7) ((f >>> 1) &&& 63)
      let compositeTable ←
        if composite then some compositeTable
        else markMultiples limit f (limit.toNat + 1) ((f * f) >>> 1) compositeTable
      sieveComposites limit fuel (f + 2) compositeTable
    else some compositeTable

theorem sieveComposites_succ (limit : UInt64) (fuel : Nat) (f : UInt64) (compositeTable : Array UInt64) :
    sieveComposites limit (fuel + 1) f compositeTable =
      if f * f ≤ limit then do
        let composite ← testCompositeBit compositeTable (f >>> 7) ((f >>> 1) &&& 63)
        let compositeTable ←
          if composite then some compositeTable
          else markMultiples limit f (limit.toNat + 1) ((f * f) >>> 1) compositeTable
        sieveComposites limit fuel (f + 2) compositeTable
      else some compositeTable := rfl

/-- The collecting loop `for (i = 1; (i << 1) + 1 <= limit; i++)`, which appends every
odd `2 * i + 1` whose bit is clear. -/
def collectPrimes (limit : UInt64) (compositeTable : Array UInt64) :
    Nat → UInt64 → List UInt64 → Option (List UInt64)
  | 0, _, _ => none
  | fuel + 1, i, primeTable =>
    if (i <<< 1) + 1 ≤ limit then do
      let composite ← testCompositeBit compositeTable (i >>> 6) (i &&& 63)
      let primeTable := if composite then primeTable else primeTable ++ [(i <<< 1) + 1]
      collectPrimes limit compositeTable fuel (i + 1) primeTable
    else some primeTable

theorem collectPrimes_succ (limit : UInt64) (compositeTable : Array UInt64) (fuel : Nat) (i : UInt64)
    (primeTable : List UInt64) :
    collectPrimes limit compositeTable (fuel + 1) i primeTable =
      if (i <<< 1) + 1 ≤ limit then do
        let composite ← testCompositeBit compositeTable (i >>> 6) (i &&& 63)
        let primeTable := if composite then primeTable else primeTable ++ [(i <<< 1) + 1]
        collectPrimes limit compositeTable fuel (i + 1) primeTable
      else some primeTable := rfl

/-- `GeneratePrimeTable(limit)`, with the asserts it makes for `limit == 821641`. -/
def generatePrimeTable (limit : UInt64) : Option (List UInt64) :=
  if limit < 2 then some []
  else do
    let compositeTable := Array.replicate ((limit + 127) / 128).toNat (0 : UInt64)
    let compositeTable ← sieveComposites limit (limit.toNat + 1) 3 compositeTable
    let primeTable ← collectPrimes limit compositeTable (limit.toNat + 1) 1 [2]
    if limit = 821641 then
      if primeTable.length = 65536 ∧ primeTable[0]? = some 2 ∧
          primeTable[32767]? = some 386093 ∧ primeTable[65535]? = some 821641 then
        some primeTable
      else none
    else some primeTable

/-- `primeTable`, the global `GeneratePrimeTable(821641)` from which
`CheckProofOfWorkImpl` takes its primorials. The program does not start if the
asserts fail, so the empty default is never observed. Proofs never look inside the
table, so it is irreducible: unification never starts the sieve. -/
@[irreducible] def primeTable : List UInt64 :=
  (generatePrimeTable 821641).getD []

-- ---------------------------------------------------------------------------
-- Bits of the table
-- ---------------------------------------------------------------------------

/-- Bit `m` of `compositeTable`: bit `m % 64` of the word `m / 64`, and `false` past the end. -/
def compositeBit (compositeTable : Array UInt64) (m : Nat) : Bool :=
  (compositeTable[m / 64]?.map fun word => word.toNat.testBit (m % 64)).getD false

theorem toNat_one_shiftLeft {b : UInt64} (hb : b.toNat < 64) : ((1 : UInt64) <<< b).toNat = 2 ^ b.toNat := by
  rw [UInt64.toNat_shiftLeft, UInt64.toNat_one, Nat.mod_eq_of_lt hb, Nat.one_shiftLeft]
  exact Nat.mod_eq_of_lt (Nat.pow_lt_pow_right Nat.one_lt_two hb)

theorem and_one_shiftLeft_bne_zero (word : UInt64) {b : UInt64} (hb : b.toNat < 64) :
    (word &&& (1 <<< b) != 0) = word.toNat.testBit b.toNat := by
  have hand : (word &&& (1 <<< b)).toNat = (word.toNat.testBit b.toNat).toNat * 2 ^ b.toNat := by
    rw [UInt64.toNat_and, toNat_one_shiftLeft hb, Nat.and_two_pow]
  have hpow : 0 < 2 ^ b.toNat := Nat.two_pow_pos _
  cases hbit : word.toNat.testBit b.toNat with
  | false =>
    rw [hbit, Bool.toNat_false, Nat.zero_mul, ← UInt64.toNat_zero, UInt64.toNat_inj] at hand
    rw [hand]
    rfl
  | true =>
    rw [hbit, Bool.toNat_true, Nat.one_mul] at hand
    have hne : word &&& (1 <<< b) ≠ 0 := by
      intro h
      rw [h, UInt64.toNat_zero] at hand
      omega
    simpa using hne

theorem toNat_shiftRight_six (m : UInt64) : (m >>> 6).toNat = m.toNat / 64 := by
  rw [UInt64.toNat_shiftRight, Nat.shiftRight_eq_div_pow]
  rfl

theorem toNat_and_sixtyThree (m : UInt64) : (m &&& 63).toNat = m.toNat % 64 := by
  rw [UInt64.toNat_and, show (63 : UInt64).toNat = 2 ^ 6 - 1 from rfl, Nat.and_two_pow_sub_one_eq_mod]

theorem shiftRight_seven (f : UInt64) : f >>> 7 = (f >>> 1) >>> 6 := by
  rw [← UInt64.toNat_inj, toNat_shiftRight_six, UInt64.toNat_shiftRight, UInt64.toNat_shiftRight,
    Nat.shiftRight_eq_div_pow, Nat.shiftRight_eq_div_pow, Nat.div_div_eq_div_mul]
  rfl

theorem compositeBit_of_lt {compositeTable : Array UInt64} {m : Nat} (h : m / 64 < compositeTable.size) :
    compositeBit compositeTable m = compositeTable[m / 64].toNat.testBit (m % 64) := by
  rw [compositeBit, Array.getElem?_eq_getElem h, Option.map_some, Option.getD_some]

/-- `compositeTable[m >> 6] & (1ULL << (m & 63))` reads bit `m`, inside the table. -/
theorem testCompositeBit_of_lt (compositeTable : Array UInt64) {m : UInt64}
    (h : m.toNat / 64 < compositeTable.size) :
    testCompositeBit compositeTable (m >>> 6) (m &&& 63) = some (compositeBit compositeTable m.toNat) := by
  have hb : (m &&& 63).toNat < 64 := by
    rw [toNat_and_sixtyThree]
    exact Nat.mod_lt _ (by decide)
  rw [testCompositeBit, toNat_shiftRight_six, Array.getElem?_eq_getElem h, Option.map_some,
    and_one_shiftLeft_bne_zero _ hb, toNat_and_sixtyThree, compositeBit_of_lt h]

theorem setCompositeBit_of_lt (compositeTable : Array UInt64) {m : UInt64}
    (h : m.toNat / 64 < compositeTable.size) :
    ∃ compositeTable', setCompositeBit compositeTable (m >>> 6) (m &&& 63) = some compositeTable' ∧
      compositeTable'.size = compositeTable.size ∧
      ∀ n, compositeBit compositeTable' n = (compositeBit compositeTable n || n == m.toNat) := by
  have hb : (m &&& 63).toNat < 64 := by
    rw [toNat_and_sixtyThree]
    exact Nat.mod_lt _ (by decide)
  have hw : (m >>> 6).toNat < compositeTable.size := by rwa [toNat_shiftRight_six]
  refine ⟨_, dif_pos hw, Array.size_set .., fun n => ?_⟩
  by_cases hn : n / 64 = m.toNat / 64
  · have hlt : n / 64 < compositeTable.size := hn ▸ h
    rw [compositeBit_of_lt (by rwa [Array.size_set]), compositeBit_of_lt hlt]
    simp only [Array.getElem_set, toNat_shiftRight_six, hn, if_true, UInt64.toNat_or,
      toNat_one_shiftLeft hb, toNat_and_sixtyThree, Nat.testBit_or, Nat.testBit_two_pow]
    congr 1
    apply decide_eq_decide.mpr
    omega
  · have hne : n ≠ m.toNat := fun h' => hn (h' ▸ rfl)
    rw [compositeBit, compositeBit, Array.getElem?_set_ne hw (by rw [toNat_shiftRight_six]; exact Ne.symm hn)]
    simp [hne]

/-- Past the end of the table, setting bit `m` is the undefined access. -/
theorem setCompositeBit_of_le (compositeTable : Array UInt64) {m : UInt64}
    (h : compositeTable.size ≤ m.toNat / 64) :
    setCompositeBit compositeTable (m >>> 6) (m &&& 63) = none := by
  rw [setCompositeBit, dif_neg (by rw [toNat_shiftRight_six]; omega)]


-- ---------------------------------------------------------------------------
-- The arithmetic of the odd sieve
-- ---------------------------------------------------------------------------

/-- The primes up to `limit` in increasing order: what `GeneratePrimeTable(limit)` is for. -/
def primesUpTo (limit : Nat) : List Nat :=
  (List.range (limit + 1)).filter Nat.Prime

theorem primesUpTo_pairwise_lt (limit : Nat) : (primesUpTo limit).Pairwise (· < ·) :=
  List.pairwise_lt_range.filter _

/-- The odd number `2 * m + 1` is crossed off by a prime below `f`: one that divides it and
whose square is at most it. -/
def CrossedOff (f m : Nat) : Prop :=
  ∃ p, p.Prime ∧ p < f ∧ p ∣ 2 * m + 1 ∧ p * p ≤ 2 * m + 1

/-- The limits at which `GeneratePrimeTable` writes past `compositeTable`: a multiple of 128,
whose `limit + 1` (the bit `limit / 2`, in the word `limit / 128`) is crossed off. -/
def SieveOverruns (limit : Nat) : Prop :=
  limit % 128 = 0 ∧ ∃ p, p.Prime ∧ p * p ≤ limit ∧ p ∣ limit + 1

theorem lt_of_mul_self_le {p q : Nat} (hq : 2 ≤ q) (h : p * p ≤ q) : p < q := by
  refine Nat.lt_of_not_le fun hqp => ?_
  have hsq : q * q ≤ p * p := Nat.mul_le_mul hqp hqp
  have htwo : 2 * q ≤ q * q := Nat.mul_le_mul_right q hq
  omega

/-- A number `q ≥ 2` has a prime factor below `B` whose square is at most `q` exactly when it
is composite, as long as every `p` with `p * p ≤ q` is below `B`. -/
theorem crossing_iff_not_prime {q B : Nat} (hq : 2 ≤ q) (hB : ∀ p, p * p ≤ q → p < B) :
    (∃ p, p.Prime ∧ p < B ∧ p ∣ q ∧ p * p ≤ q) ↔ ¬ q.Prime := by
  constructor
  · rintro ⟨p, hp, -, hpq, hsq⟩ hq'
    rcases hq'.eq_one_or_self_of_dvd p hpq with h1 | rfl
    · exact hp.one_lt.ne' h1
    · exact Nat.lt_irrefl p (lt_of_mul_self_le hq hsq)
  · intro hnp
    have hsq : q.minFac * q.minFac ≤ q := by
      rw [← Nat.pow_two]
      exact Nat.minFac_sq_le_self (by omega) hnp
    exact ⟨q.minFac, Nat.minFac_prime (by omega), hB _ hsq, Nat.minFac_dvd q, hsq⟩

theorem not_crossedOff_three (m : Nat) : ¬ CrossedOff 3 m := by
  rintro ⟨p, hp, hp3, hpd, -⟩
  have h2 : p = 2 := by
    have := hp.two_le
    omega
  subst h2
  omega

/-- Sieving with the odd `f` crosses off what the primes below `f` did, and the multiples of
`f` from `f * f` on when `f` is prime; `f + 1` is even, so it adds nothing. -/
theorem crossedOff_add_two {f m : Nat} (hf : f % 2 = 1) (h3 : 3 ≤ f) :
    CrossedOff (f + 2) m ↔ CrossedOff f m ∨ (f.Prime ∧ f ∣ 2 * m + 1 ∧ f * f ≤ 2 * m + 1) := by
  constructor
  · rintro ⟨p, hp, hlt, hpd, hsq⟩
    rcases (show p < f ∨ p = f ∨ p = f + 1 by omega) with h | rfl | rfl
    · exact .inl ⟨p, hp, h, hpd, hsq⟩
    · exact .inr ⟨hp, hpd, hsq⟩
    · rcases hp.eq_one_or_self_of_dvd 2 (by omega) with h | h <;> omega
  · rintro (⟨p, hp, hlt, hpd, hsq⟩ | ⟨hp, hpd, hsq⟩)
    · exact ⟨p, hp, by omega, hpd, hsq⟩
    · exact ⟨f, hp, by omega, hpd, hsq⟩

/-- The bit of the odd `f` itself is set exactly when `f` is composite. -/
theorem crossedOff_half_iff {f : Nat} (hf : f % 2 = 1) (h3 : 3 ≤ f) :
    CrossedOff f (f / 2) ↔ ¬ f.Prime := by
  have hodd : 2 * (f / 2) + 1 = f := by omega
  show (∃ p, p.Prime ∧ p < f ∧ p ∣ 2 * (f / 2) + 1 ∧ p * p ≤ 2 * (f / 2) + 1) ↔ ¬ f.Prime
  rw [hodd]
  exact crossing_iff_not_prime (by omega) fun p hp => lt_of_mul_self_le (by omega) hp

/-- Once `f * f` passes `limit`, the bits of the odd numbers up to `limit` are the composites. -/
theorem crossedOff_iff_not_prime {limit f m : Nat} (hf : limit < f * f) (hm : 1 ≤ m)
    (hmL : 2 * m + 1 ≤ limit) : CrossedOff f m ↔ ¬ (2 * m + 1).Prime :=
  crossing_iff_not_prime (by omega) fun _ hp => Nat.mul_self_lt_mul_self_iff.mp (by omega)

/-- The positions the marking loop of an odd `f` visits, from `(f * f) >> 1` in steps of `f`,
are the odd multiples of `f` from `f * f` on. -/
theorem marks_iff {f n : Nat} (hf : f % 2 = 1) :
    (f * f / 2 ≤ n ∧ f ∣ n - f * f / 2) ↔ (f ∣ 2 * n + 1 ∧ f * f ≤ 2 * n + 1) := by
  have hsq : f * f % 2 = 1 := by rw [Nat.mul_mod, hf]
  have hcop : Nat.Coprime f 2 := Nat.coprime_two_right.mpr (Nat.odd_iff.mpr hf)
  constructor
  · rintro ⟨hle, hd⟩
    have hsplit : 2 * n + 1 = f * f + 2 * (n - f * f / 2) := by omega
    refine ⟨?_, by omega⟩
    rw [hsplit]
    exact Nat.dvd_add (Dvd.intro f rfl) (Dvd.dvd.mul_left hd 2)
  · rintro ⟨hd, hle⟩
    have hsplit : 2 * n + 1 = f * f + 2 * (n - f * f / 2) := by omega
    refine ⟨by omega, ?_⟩
    rw [hsplit] at hd
    exact (Nat.Coprime.dvd_mul_left hcop).mp ((Nat.dvd_add_right (Dvd.intro f rfl)).mp hd)

/-- One step of an arithmetic progression: `n` is in the progression from `m` exactly when it
is `m` or in the progression from `m + f`. -/
theorem progression_step {f m n : Nat} (hf : 0 < f) :
    (m ≤ n ∧ f ∣ n - m) ↔ (n = m ∨ (m + f ≤ n ∧ f ∣ n - (m + f))) := by
  constructor
  · rintro ⟨hle, hd⟩
    rcases Nat.eq_or_lt_of_le hle with rfl | hlt
    · exact .inl rfl
    · have hfle : f ≤ n - m := Nat.le_of_dvd (by omega) hd
      have hsub : n - (m + f) = (n - m) - f := by omega
      exact .inr ⟨by omega, hsub ▸ Nat.dvd_sub hd (dvd_refl f)⟩
  · rintro (rfl | ⟨hle, hd⟩)
    · exact ⟨le_refl n, by rw [Nat.sub_self]; exact dvd_zero f⟩
    · have hadd : n - m = (n - (m + f)) + f := by omega
      exact ⟨by omega, hadd ▸ Nat.dvd_add hd (dvd_refl f)⟩

-- ---------------------------------------------------------------------------
-- The table a loop leaves
-- ---------------------------------------------------------------------------

/-- `compositeTable` has the `(limit + 127) / 128` words `GeneratePrimeTable` gives it, and its
set bits are the positions of `S` up to `limit / 2`. -/
structure Represents (limit : Nat) (S : Nat → Prop) (compositeTable : Array UInt64) : Prop where
  size_eq : compositeTable.size = (limit + 127) / 128
  bit_iff : ∀ m, compositeBit compositeTable m = true ↔ m ≤ limit / 2 ∧ S m

theorem Represents.congr {limit : Nat} {S S' : Nat → Prop} {compositeTable : Array UInt64}
    (h : Represents limit S compositeTable) (hS : ∀ m ≤ limit / 2, (S m ↔ S' m)) :
    Represents limit S' compositeTable :=
  ⟨h.size_eq, fun m => (h.bit_iff m).trans
    ⟨fun ⟨hm, hs⟩ => ⟨hm, (hS m hm).mp hs⟩, fun ⟨hm, hs⟩ => ⟨hm, (hS m hm).mpr hs⟩⟩⟩

/-- Setting bit `m ≤ limit / 2` adds `m` to the represented set. -/
theorem Represents.setBit {limit : Nat} {S : Nat → Prop} {compositeTable compositeTable' : Array UInt64}
    {m : Nat} (h : Represents limit S compositeTable) (hm : m ≤ limit / 2)
    (hsize : compositeTable'.size = compositeTable.size)
    (hbits : ∀ n, compositeBit compositeTable' n = (compositeBit compositeTable n || n == m)) :
    Represents limit (fun n => S n ∨ n = m) compositeTable' := by
  refine ⟨hsize.trans h.size_eq, fun n => ?_⟩
  rw [hbits, Bool.or_eq_true, h.bit_iff, beq_iff_eq]
  constructor
  · rintro (⟨hn, hs⟩ | rfl)
    · exact ⟨hn, .inl hs⟩
    · exact ⟨hm, .inr rfl⟩
  · rintro ⟨hn, hs | rfl⟩
    · exact .inl ⟨hn, hs⟩
    · exact .inr rfl

/-- The position `m ≤ limit / 2` is inside the table, except the last bit of a multiple of 128. -/
theorem div_lt_size_iff {limit m : Nat} (hm : m ≤ limit / 2) :
    m / 64 < (limit + 127) / 128 ↔ ¬ (limit % 128 = 0 ∧ m = limit / 2) := by
  omega


-- ---------------------------------------------------------------------------
-- The loops
-- ---------------------------------------------------------------------------

theorem toNat_shiftRight_one (x : UInt64) : (x >>> 1).toNat = x.toNat / 2 := by
  rw [UInt64.toNat_shiftRight, Nat.shiftRight_eq_div_pow]
  rfl

theorem toNat_add_of_lt {a b : UInt64} (h : a.toNat + b.toNat < 2 ^ 64) :
    (a + b).toNat = a.toNat + b.toNat := by
  rw [UInt64.toNat_add, Nat.mod_eq_of_lt h]

theorem toNat_mul_self {f : UInt64} (hf : f.toNat < 2 ^ 32) : (f * f).toNat = f.toNat * f.toNat := by
  have hlt : f.toNat * f.toNat < 2 ^ 64 := by
    have := Nat.mul_lt_mul'' hf hf
    omega
  rw [UInt64.toNat_mul, Nat.mod_eq_of_lt hlt]

/-- The counter of the outer loop stays below `2 ^ 32`, so `f * f` does not wrap. -/
theorem add_two_lt_of_mul_self_le {f limit : Nat} (hf : f * f ≤ limit) (hL : limit < 2 ^ 63) :
    f + 2 < 2 ^ 32 := by
  refine Nat.lt_of_not_le fun h => ?_
  have hf : 4294967294 ≤ f := by omega
  have hsq := Nat.mul_le_mul hf hf
  omega

section Loops

variable {limit : UInt64}

/-- The marking loop, when none of its positions is the bit past the table, sets the bits of
the progression from `m` in steps of `f` up to `limit / 2`. -/
theorem markMultiples_some {f : UInt64} {S : Nat → Prop} (hL : limit.toNat < 2 ^ 63)
    (hf : 0 < f.toNat) (hf32 : f.toNat < 2 ^ 32) (fuel : Nat) :
    ∀ (m : UInt64) (compositeTable : Array UInt64), 0 < fuel →
      limit.toNat / 2 + 2 ≤ fuel + m.toNat → Represents limit.toNat S compositeTable →
      ¬ (limit.toNat % 128 = 0 ∧ m.toNat ≤ limit.toNat / 2 ∧ f.toNat ∣ limit.toNat / 2 - m.toNat) →
      ∃ compositeTable', markMultiples limit f fuel m compositeTable = some compositeTable' ∧
        Represents limit.toNat (fun n => S n ∨ (m.toNat ≤ n ∧ f.toNat ∣ n - m.toNat)) compositeTable' := by
  induction fuel generalizing S with
  | zero => exact fun _ _ h0 => absurd h0 (Nat.lt_irrefl 0)
  | succ fuel ih =>
    intro m compositeTable _ hfuel hrep hmiss
    rw [markMultiples_succ]
    by_cases hm : m ≤ limit >>> 1
    · -- the guard holds: bit `m` is inside the table; set it and go on from `m + f`
      have hmL : m.toNat ≤ limit.toNat / 2 := by
        rwa [UInt64.le_iff_toNat_le, toNat_shiftRight_one] at hm
      have hin : m.toNat / 64 < compositeTable.size := by
        rw [hrep.size_eq, div_lt_size_iff hmL]
        rintro ⟨h128, heq⟩
        exact hmiss ⟨h128, hmL, by rw [heq, Nat.sub_self]; exact dvd_zero _⟩
      obtain ⟨t₁, hset, hsize, hbits⟩ := setCompositeBit_of_lt compositeTable hin
      have hmf : (m + f).toNat = m.toNat + f.toNat := toNat_add_of_lt (by omega)
      have hmiss' : ¬ (limit.toNat % 128 = 0 ∧ (m + f).toNat ≤ limit.toNat / 2 ∧
          f.toNat ∣ limit.toNat / 2 - (m + f).toNat) := by
        rw [hmf]
        rintro ⟨h128, hle, hd⟩
        exact hmiss ⟨h128, hmL, ((progression_step hf).mpr (.inr ⟨hle, hd⟩)).2⟩
      obtain ⟨t₂, hrun, hrep₂⟩ :=
        ih (m + f) t₁ (by omega) (by omega) (hrep.setBit hmL hsize hbits) hmiss'
      rw [if_pos hm, hset]
      refine ⟨t₂, hrun, hrep₂.congr fun n _ => ?_⟩
      rw [hmf, progression_step hf (m := m.toNat)]
      exact or_assoc
    · -- the guard fails: the progression has left `limit / 2`
      rw [if_neg hm]
      have hmL : limit.toNat / 2 < m.toNat := by
        rw [UInt64.le_iff_toNat_le, toNat_shiftRight_one] at hm
        omega
      exact ⟨compositeTable, rfl, hrep.congr fun n hn =>
        ⟨.inl, fun h => h.resolve_right fun ⟨hle, _⟩ => absurd hle (by omega)⟩⟩

/-- The marking loop, when one of its positions is the bit past the table, writes there. -/
theorem markMultiples_none {f : UInt64} (hL : limit.toNat < 2 ^ 63) (hf : 0 < f.toNat)
    (hf32 : f.toNat < 2 ^ 32) (h128 : limit.toNat % 128 = 0) (fuel : Nat) :
    ∀ (m : UInt64) (compositeTable : Array UInt64),
      compositeTable.size = (limit.toNat + 127) / 128 → m.toNat ≤ limit.toNat / 2 →
      f.toNat ∣ limit.toNat / 2 - m.toNat → markMultiples limit f fuel m compositeTable = none := by
  induction fuel with
  | zero => exact fun _ _ _ _ _ => rfl
  | succ fuel ih =>
    intro m compositeTable hsize hmL hd
    have hm : m ≤ limit >>> 1 := by rwa [UInt64.le_iff_toNat_le, toNat_shiftRight_one]
    rw [markMultiples_succ, if_pos hm]
    rcases Nat.eq_or_lt_of_le hmL with heq | hlt
    · -- `m` is the bit of `limit + 1`, in the word one past the end
      rw [setCompositeBit_of_le compositeTable (m := m) (by rw [hsize]; omega)]
      rfl
    · obtain ⟨t₁, hset, hsize₁, -⟩ := setCompositeBit_of_lt compositeTable (m := m) (by rw [hsize]; omega)
      have hmf : (m + f).toNat = m.toNat + f.toNat := toNat_add_of_lt (by omega)
      obtain ⟨hle, hd'⟩ := ((progression_step hf).mp ⟨hmL, hd⟩).resolve_left (by omega)
      rw [hset]
      exact ih (m + f) t₁ (hsize₁.trans hsize) (by rw [hmf]; exact hle) (by rw [hmf]; exact hd')

/-- One pass of the outer loop, once the guard and the test of `f`'s bit are known. -/
theorem sieveComposites_step {fuel : Nat} {f : UInt64} {compositeTable : Array UInt64} {composite : Bool}
    (hguard : f * f ≤ limit)
    (htest : testCompositeBit compositeTable (f >>> 7) ((f >>> 1) &&& 63) = some composite) :
    sieveComposites limit (fuel + 1) f compositeTable =
      (if composite then some compositeTable
        else markMultiples limit f (limit.toNat + 1) ((f * f) >>> 1) compositeTable) >>=
        sieveComposites limit fuel (f + 2) := by
  rw [sieveComposites_succ, if_pos hguard, htest]
  cases composite <;> rfl

/-- The test of the outer loop reads the bit of `f`, which is set exactly when `f` is
composite. -/
theorem testCompositeBit_self {f : UInt64} {compositeTable : Array UInt64} (hodd : f.toNat % 2 = 1)
    (h3 : 3 ≤ f.toNat) (h3f : 3 * f.toNat ≤ limit.toNat)
    (hrep : Represents limit.toNat (CrossedOff f.toNat) compositeTable) :
    testCompositeBit compositeTable (f >>> 7) ((f >>> 1) &&& 63) = some (!decide f.toNat.Prime) := by
  have hin : (f >>> 1).toNat / 64 < compositeTable.size := by
    rw [toNat_shiftRight_one, hrep.size_eq]
    omega
  rw [shiftRight_seven, testCompositeBit_of_lt compositeTable hin, toNat_shiftRight_one]
  congr 1
  apply Bool.eq_iff_iff.mpr
  rw [hrep.bit_iff, crossedOff_half_iff hodd h3, Bool.not_eq_true', decide_eq_false_iff_not]
  exact ⟨And.right, fun h => ⟨by omega, h⟩⟩

/-- The marking loop of a prime `f` with `f * f ≤ limit` adds its odd multiples from `f * f`
on: the table then stands for `CrossedOff (f + 2)`, unless it overruns. -/
theorem markMultiples_prime {f : UInt64} {compositeTable : Array UInt64} (hL : limit.toNat < 2 ^ 63)
    (hodd : f.toNat % 2 = 1) (h3 : 3 ≤ f.toNat) (hprime : f.toNat.Prime) (hf32 : f.toNat < 2 ^ 32)
    (hsq : f.toNat * f.toNat ≤ limit.toNat)
    (hrep : Represents limit.toNat (CrossedOff f.toNat) compositeTable)
    (hmiss : ¬ (limit.toNat % 128 = 0 ∧ f.toNat ∣ limit.toNat + 1)) :
    ∃ compositeTable', markMultiples limit f (limit.toNat + 1) ((f * f) >>> 1) compositeTable =
      some compositeTable' ∧ Represents limit.toNat (CrossedOff (f.toNat + 2)) compositeTable' := by
  have hm0 : ((f * f) >>> 1).toNat = f.toNat * f.toNat / 2 := by
    rw [toNat_shiftRight_one, toNat_mul_self hf32]
  have h3f : 3 * f.toNat ≤ limit.toNat := le_trans (Nat.mul_le_mul_right _ h3) hsq
  obtain ⟨t₁, hmark, hrep₁⟩ := markMultiples_some hL (by omega) hf32 (limit.toNat + 1)
    ((f * f) >>> 1) compositeTable (by omega) (by rw [hm0]; omega) hrep (by
      rw [hm0]
      rintro ⟨h128, hle, hd⟩
      have hdvd := ((marks_iff hodd).mp ⟨hle, hd⟩).1
      exact hmiss ⟨h128, by rwa [show 2 * (limit.toNat / 2) + 1 = limit.toNat + 1 by omega] at hdvd⟩)
  refine ⟨t₁, hmark, hrep₁.congr fun n _ => ?_⟩
  rw [hm0, marks_iff hodd, crossedOff_add_two hodd h3]
  simp only [hprime, true_and]

/-- The outer loop, at a limit where the sieve stays inside its table, leaves the table at
the odd numbers crossed off by the primes below some `F` with `limit < F * F`. The invariant
is `Represents limit (CrossedOff f)` at each odd `f`. -/
theorem sieveComposites_some (hL : limit.toNat < 2 ^ 63) (hsafe : ¬ SieveOverruns limit.toNat)
    (fuel : Nat) :
    ∀ (f : UInt64) (compositeTable : Array UInt64), f.toNat % 2 = 1 → 3 ≤ f.toNat →
      f.toNat < 2 ^ 32 → f.toNat ≤ limit.toNat + 1 → limit.toNat + 2 ≤ fuel + f.toNat →
      Represents limit.toNat (CrossedOff f.toNat) compositeTable →
      ∃ F compositeTable', sieveComposites limit fuel f compositeTable = some compositeTable' ∧
        limit.toNat < F * F ∧ Represents limit.toNat (CrossedOff F) compositeTable' := by
  induction fuel with
  | zero => intro f _ _ _ _ hfL hfuel; omega
  | succ fuel ih =>
    intro f compositeTable hodd h3 hf32 hfL hfuel hrep
    by_cases hguard : f * f ≤ limit
    · have hsq : f.toNat * f.toNat ≤ limit.toNat := by
        rwa [UInt64.le_iff_toNat_le, toNat_mul_self hf32] at hguard
      have h3f : 3 * f.toNat ≤ limit.toNat := le_trans (Nat.mul_le_mul_right _ h3) hsq
      have hf2 : (f + 2).toNat = f.toNat + 2 :=
        toNat_add_of_lt (by rw [show (2 : UInt64).toNat = 2 from rfl]; omega)
      have hnext := ih (f + 2)
      rw [hf2] at hnext
      have hnext' := fun compositeTable => hnext compositeTable (by omega) (by omega)
        (add_two_lt_of_mul_self_le hsq hL) (by omega) (by omega)
      rw [sieveComposites_step hguard (testCompositeBit_self hodd h3 h3f hrep)]
      by_cases hprime : f.toNat.Prime
      · -- a prime: its marking loop stays inside the table, since the limit is safe
        obtain ⟨t₁, hmark, hrep₁⟩ := markMultiples_prime hL hodd h3 hprime hf32 hsq hrep
          fun ⟨h128, hd⟩ => hsafe ⟨h128, f.toNat, hprime, hsq, hd⟩
        rw [if_neg (by simp [hprime]), hmark]
        exact hnext' t₁ hrep₁
      · -- a composite: its bit is set and the table stays as it is
        rw [if_pos (by simp [hprime])]
        exact hnext' compositeTable (hrep.congr fun n _ => by
          rw [crossedOff_add_two hodd h3]
          simp only [hprime, false_and, or_false])
    · have hlt : limit.toNat < f.toNat * f.toNat := by
        rw [UInt64.le_iff_toNat_le, toNat_mul_self hf32] at hguard
        omega
      rw [sieveComposites_succ, if_neg hguard]
      exact ⟨f.toNat, compositeTable, rfl, hlt, hrep⟩

/-- The outer loop, at a multiple of 128 whose `limit + 1` has a prime factor `p` with
`p * p ≤ limit`, writes past the table: at the first such prime at the latest, whose marking
loop reaches the bit of `limit + 1`. -/
theorem sieveComposites_none (hL : limit.toNat < 2 ^ 63) (h128 : limit.toNat % 128 = 0) {p : Nat}
    (hp : p.Prime) (hpL : p * p ≤ limit.toNat) (hpd : p ∣ limit.toNat + 1) (fuel : Nat) :
    ∀ (f : UInt64) (compositeTable : Array UInt64), f.toNat % 2 = 1 → 3 ≤ f.toNat → f.toNat ≤ p →
      Represents limit.toNat (CrossedOff f.toNat) compositeTable →
      sieveComposites limit fuel f compositeTable = none := by
  have hpodd : p % 2 = 1 := by
    refine Nat.mod_two_ne_zero.mp fun h => ?_
    have := Nat.dvd_trans (Nat.dvd_of_mod_eq_zero h) hpd
    omega
  induction fuel with
  | zero => exact fun _ _ _ _ _ _ => rfl
  | succ fuel ih =>
    intro f compositeTable hodd h3 hfp hrep
    have hsq : f.toNat * f.toNat ≤ limit.toNat := le_trans (Nat.mul_le_mul hfp hfp) hpL
    have hf32 : f.toNat < 2 ^ 32 := by
      have := add_two_lt_of_mul_self_le hsq hL
      omega
    have hguard : f * f ≤ limit := by rwa [UInt64.le_iff_toNat_le, toNat_mul_self hf32]
    have h3f : 3 * f.toNat ≤ limit.toNat := le_trans (Nat.mul_le_mul_right _ h3) hsq
    have hf2 : (f + 2).toNat = f.toNat + 2 :=
      toNat_add_of_lt (by rw [show (2 : UInt64).toNat = 2 from rfl]; omega)
    -- below `p`, the next odd candidate is still at most `p`
    have hnext : f.toNat ≠ p → ∀ compositeTable,
        Represents limit.toNat (CrossedOff (f.toNat + 2)) compositeTable →
        sieveComposites limit fuel (f + 2) compositeTable = none := fun hne t hrep' =>
      ih (f + 2) t (by omega) (by omega) (by omega) (by rw [hf2]; exact hrep')
    rw [sieveComposites_step hguard (testCompositeBit_self hodd h3 h3f hrep)]
    by_cases hprime : f.toNat.Prime
    · rw [if_neg (by simp [hprime])]
      by_cases hfd : f.toNat ∣ limit.toNat + 1
      · -- `f` divides `limit + 1`: its marking loop reaches the bit past the table
        have hm0 : ((f * f) >>> 1).toNat = f.toNat * f.toNat / 2 := by
          rw [toNat_shiftRight_one, toNat_mul_self hf32]
        have hhit := (marks_iff hodd (n := limit.toNat / 2)).mpr
          ⟨by rwa [show 2 * (limit.toNat / 2) + 1 = limit.toNat + 1 by omega], by omega⟩
        rw [markMultiples_none hL (by omega) hf32 h128 (limit.toNat + 1) ((f * f) >>> 1) compositeTable
          hrep.size_eq (by rw [hm0]; exact hhit.1) (by rw [hm0]; exact hhit.2)]
        rfl
      · obtain ⟨t₁, hmark, hrep₁⟩ := markMultiples_prime hL hodd h3 hprime hf32 hsq hrep
          fun ⟨_, hd⟩ => hfd hd
        rw [hmark]
        exact hnext (fun h => hfd (h ▸ hpd)) t₁ hrep₁
    · rw [if_pos (by simp [hprime])]
      exact hnext (fun h => hprime (h ▸ hp)) compositeTable (hrep.congr fun n _ => by
        rw [crossedOff_add_two hodd h3]
        simp only [hprime, false_and, or_false])

end Loops


/-- The primes below `2 * n + 1` and below `2 * n` are the same for `n ≥ 2`: `2 * n` is even. -/
theorem filter_prime_range_even {n : Nat} (hn : 2 ≤ n) :
    (List.range (2 * n + 1)).filter Nat.Prime = (List.range (2 * n)).filter Nat.Prime := by
  have hnp : ¬ (2 * n).Prime := fun hp => by
    rcases hp.eq_one_or_self_of_dvd 2 (Dvd.intro n rfl) with h | h <;> omega
  rw [List.range_succ, List.filter_append]
  simp [hnp]

/-- The primes below `2 * i + 3` are those below `2 * i + 1` and possibly `2 * i + 1`. -/
theorem filter_prime_range_odd_step {i : Nat} (hi : 1 ≤ i) :
    (List.range (2 * (i + 1) + 1)).filter Nat.Prime =
      (List.range (2 * i + 1)).filter Nat.Prime ++
        (if (2 * i + 1).Prime then [2 * i + 1] else []) := by
  rw [filter_prime_range_even (by omega), show 2 * (i + 1) = 2 * i + 1 + 1 by omega, List.range_succ,
    List.filter_append]
  by_cases hp : (2 * i + 1).Prime <;> simp [hp]

section Collect

variable {limit : UInt64} {compositeTable : Array UInt64}

/-- The collecting loop, over a table whose bits below `limit / 2` are the odd composites,
appends the odd primes from `2 * i + 1` up to `limit`. The invariant is that the table so far
holds the primes below `2 * i + 1`. -/
theorem collectPrimes_spec (hL2 : 2 ≤ limit.toNat) (hL : limit.toNat < 2 ^ 63)
    (hsize : compositeTable.size = (limit.toNat + 127) / 128)
    (hbits : ∀ n, 1 ≤ n → 2 * n + 1 ≤ limit.toNat →
      (compositeBit compositeTable n = true ↔ ¬ (2 * n + 1).Prime)) (fuel : Nat) :
    ∀ (i : UInt64) (primeTable : List UInt64), 1 ≤ i.toNat → 2 * i.toNat ≤ limit.toNat + 1 →
      limit.toNat + 1 < fuel + i.toNat →
      primeTable.map UInt64.toNat = (List.range (2 * i.toNat + 1)).filter Nat.Prime →
      ∃ primeTable', collectPrimes limit compositeTable fuel i primeTable = some primeTable' ∧
        primeTable'.map UInt64.toNat = primesUpTo limit.toNat := by
  induction fuel with
  | zero => intro i _ _ hi hfuel; omega
  | succ fuel ih =>
    intro i primeTable h1 hi hfuel hacc
    have hshift : (i <<< 1).toNat = 2 * i.toNat := by
      rw [UInt64.toNat_shiftLeft, show (1 : UInt64).toNat % 64 = 1 from rfl, Nat.shiftLeft_eq,
        Nat.pow_one, Nat.mod_eq_of_lt (by omega), Nat.mul_comm]
    have hodd : ((i <<< 1) + 1).toNat = 2 * i.toNat + 1 := by
      rw [toNat_add_of_lt (by rw [hshift, UInt64.toNat_one]; omega), hshift, UInt64.toNat_one]
    rw [collectPrimes_succ]
    by_cases hguard : (i <<< 1) + 1 ≤ limit
    · have hiL : 2 * i.toNat + 1 ≤ limit.toNat := by rwa [UInt64.le_iff_toNat_le, hodd] at hguard
      have hbit : compositeBit compositeTable i.toNat = !decide (2 * i.toNat + 1).Prime := by
        apply Bool.eq_iff_iff.mpr
        rw [hbits i.toNat h1 hiL, Bool.not_eq_true', decide_eq_false_iff_not]
      have hi1 : (i + 1).toNat = i.toNat + 1 := toNat_add_of_lt (by rw [UInt64.toNat_one]; omega)
      rw [if_pos hguard, testCompositeBit_of_lt compositeTable (m := i) (by rw [hsize]; omega), hbit]
      -- the prime `2 * i + 1` is appended, a composite one skipped
      have hstep := ih (i + 1) (if !decide (2 * i.toNat + 1).Prime then primeTable
        else primeTable ++ [(i <<< 1) + 1]) (by omega) (by omega) (by omega) (by
          rw [hi1, filter_prime_range_odd_step h1, ← hacc]
          by_cases hp : (2 * i.toNat + 1).Prime <;> simp [hp, hodd])
      exact hstep
    · -- the loop stops at `2 * i + 1 > limit`, with the primes below it collected
      have hiL : limit.toNat < 2 * i.toNat + 1 := by
        rw [UInt64.le_iff_toNat_le, hodd] at hguard
        omega
      rw [if_neg hguard]
      refine ⟨primeTable, rfl, hacc.trans ?_⟩
      rcases (show 2 * i.toNat + 1 = limit.toNat + 1 ∨ 2 * i.toNat = limit.toNat + 1 by omega)
        with h | h
      · rw [h]
        rfl
      · rw [filter_prime_range_even (by omega), h]
        rfl

end Collect

theorem generatePrimeTable_of_two_le {limit : UInt64} (h2 : ¬ limit < 2) :
    generatePrimeTable limit = (do
      let compositeTable ← sieveComposites limit (limit.toNat + 1) 3
        (Array.replicate ((limit + 127) / 128).toNat (0 : UInt64))
      let primeTable ← collectPrimes limit compositeTable (limit.toNat + 1) 1 [2]
      if limit = 821641 then
        if primeTable.length = 65536 ∧ primeTable[0]? = some 2 ∧
            primeTable[32767]? = some 386093 ∧ primeTable[65535]? = some 821641 then
          some primeTable
        else none
      else some primeTable) := by
  rw [generatePrimeTable, if_neg h2]

/-- The fresh table of `(limit + 127) / 128` zero words stands for the empty set. -/
theorem represents_initial {limit : UInt64} (hL : limit.toNat < 2 ^ 63) :
    Represents limit.toNat (CrossedOff (3 : UInt64).toNat)
      (Array.replicate ((limit + 127) / 128).toNat (0 : UInt64)) := by
  have hsize : ((limit + 127) / 128).toNat = (limit.toNat + 127) / 128 := by
    rw [UInt64.toNat_div, toNat_add_of_lt (by rw [show (127 : UInt64).toNat = 127 from rfl]; omega)]
    rfl
  refine ⟨by rw [Array.size_replicate, hsize], fun m => ?_⟩
  have hzero : compositeBit (Array.replicate ((limit + 127) / 128).toNat (0 : UInt64)) m = false := by
    rw [compositeBit, Array.getElem?_replicate]
    split <;> simp
  rw [hzero]
  exact ⟨nofun, fun ⟨_, h⟩ => absurd h (not_crossedOff_three m)⟩

/-- At every limit where the sieve's marking loop reaches the bit of `limit + 1`, one word past
the `(limit + 127) / 128` words of `compositeTable`, `GeneratePrimeTable` indexes past the end
(undefined behaviour in the source). -/
theorem generatePrimeTable_overruns (limit : UInt64) (h2 : 2 ≤ limit.toNat)
    (hL : limit.toNat < 2 ^ 63) (hover : SieveOverruns limit.toNat) :
    generatePrimeTable limit = none := by
  obtain ⟨h128, p, hp, hpL, hpd⟩ := hover
  have hlt2 : ¬ limit < 2 := by
    rw [UInt64.lt_iff_toNat_lt]
    exact Nat.not_lt.mpr h2
  have hp3 : 3 ≤ p := by
    have := hp.two_le
    rcases (show p = 2 ∨ 3 ≤ p by omega) with rfl | h
    · omega
    · exact h
  rw [generatePrimeTable_of_two_le hlt2, sieveComposites_none hL h128 hp hpL hpd (limit.toNat + 1) 3 _
    rfl (le_refl 3) hp3 (represents_initial hL)]
  rfl

end Riecoin.Pow
