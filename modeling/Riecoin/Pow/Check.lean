-- SUMMARY: `CheckConstellation` and `CheckProofOfWorkImpl`, and the accept condition of the proof of work that the check decides over a primality oracle.
import Riecoin.Pow.Target
import Mathlib.Data.Nat.Prime.Defs

/-!
# The proof-of-work check

`CheckProofOfWorkImpl` accepts the genesis block's PoW hash outright. Otherwise it
computes the tested number `n = target + offset` (`testedNumber`) and tries the
accepted constellation patterns in order. For each pattern it first runs a quick test
with one round of `mpz_probab_prime_p`, and only if every running sum passes does it
run the full test with 31 rounds.

GMP lies outside the repository, so its primality test is the parameter
`probabPrime : Int → Nat → Nat` (the number, the rounds; `0` means composite). The one
property of GMP that the check relies on is that a number that passes 31 rounds also
passes one. Under that hypothesis `checkProofOfWorkImpl_iff` says that the check
accepts exactly the headers described by `PowAccepted`, an account of the accept
condition without the loops: the version decoding as conditions on `nOnce` and
`nBits`, the primorial loop as a bound on every partial primorial, the offset as a
formula, and the pattern loop as an existential over the patterns that pass the full
test.
-/

namespace Riecoin.Pow

open Consensus

-- ---------------------------------------------------------------------------
-- CheckConstellation
-- ---------------------------------------------------------------------------

/-- `CheckConstellation(n, offsets, iterations)`: add the offsets to `n` one by one and
count the running sums that pass `mpz_probab_prime_p` with `iterations` rounds, up to
the first one that fails. -/
def checkConstellation (probabPrime : Int → Nat → Nat) (n : Int) : List Int32 → Nat → Nat
  | [], _ => 0
  | offset :: offsets, iterations =>
    let n := n + offset.toInt
    if probabPrime n iterations = 0 then 0
    else checkConstellation probabPrime n offsets iterations + 1

/-- Every running sum `n + p[0] + … + p[j]` of `pattern` passes the oracle. -/
def ConstellationPasses (probabPrime : Int → Nat → Nat) (n : Int) (pattern : List Int32)
    (iterations : Nat) : Prop :=
  ∀ j < pattern.length,
    probabPrime (n + ((pattern.take (j + 1)).map Int32.toInt).sum) iterations ≠ 0

/-- The count reaches the length of the pattern exactly when every running sum passes. -/
theorem checkConstellation_eq_length_iff {probabPrime : Int → Nat → Nat} {n : Int}
    {pattern : List Int32} {iterations : Nat} :
    checkConstellation probabPrime n pattern iterations = pattern.length ↔
      ConstellationPasses probabPrime n pattern iterations := by
  induction pattern generalizing n with
  | nil => simp [checkConstellation, ConstellationPasses]
  | cons offset pattern ih =>
    simp only [checkConstellation, List.length_cons, ConstellationPasses]
    split
    · next hfail =>
      -- the first running sum fails, so the count stops at zero
      simp only [Nat.right_eq_add, Nat.add_eq_zero_iff, List.length_eq_zero_iff, one_ne_zero,
        and_false, false_iff, not_forall]
      exact ⟨0, by simp, by simpa using hfail⟩
    · next hpass =>
      rw [Nat.add_right_cancel_iff, ih]
      constructor
      · intro h j hj
        cases j with
        | zero => simpa using hpass
        | succ j =>
          have := h j (by simpa using hj)
          simpa [List.take_succ_cons, add_assoc] using this
      · intro h j hj
        have := h (j + 1) (by simpa using hj)
        simpa [List.take_succ_cons, add_assoc] using this

-- ---------------------------------------------------------------------------
-- The pattern loop
-- ---------------------------------------------------------------------------

/-- The loop over the accepted patterns: skip a pattern that fails the quick
single-round test, and accept at the first one that also passes the 31-round test. -/
def checkPatterns (probabPrime : Int → Nat → Nat) (result : Int) : List (List Int32) → Bool
  | [] => false
  | pattern :: patterns =>
    if checkConstellation probabPrime result pattern 1 ≠ pattern.length then
      checkPatterns probabPrime result patterns
    else if checkConstellation probabPrime result pattern 31 = pattern.length then true
    else checkPatterns probabPrime result patterns

section Oracle

variable {probabPrime : Int → Nat → Nat}

/-- A constellation that passes 31 rounds passes one round, when the oracle does so for
each number. -/
theorem constellationPasses_one_of_31
    (h31 : ∀ n, probabPrime n 31 ≠ 0 → probabPrime n 1 ≠ 0) {n : Int} {pattern : List Int32}
    (h : ConstellationPasses probabPrime n pattern 31) :
    ConstellationPasses probabPrime n pattern 1 :=
  fun j hj => h31 _ (h j hj)

/-- The quick test never rejects a pattern that the full test would accept, so the loop
accepts exactly when some pattern passes the full test. -/
theorem checkPatterns_iff (h31 : ∀ n, probabPrime n 31 ≠ 0 → probabPrime n 1 ≠ 0)
    {result : Int} {patterns : List (List Int32)} :
    checkPatterns probabPrime result patterns = true ↔
      ∃ pattern ∈ patterns, ConstellationPasses probabPrime result pattern 31 := by
  induction patterns with
  | nil => simp [checkPatterns]
  | cons pattern patterns ih =>
    simp only [checkPatterns, List.mem_cons, exists_eq_or_imp, ← ih]
    by_cases hquick : checkConstellation probabPrime result pattern 1 = pattern.length
    · by_cases hfull : checkConstellation probabPrime result pattern 31 = pattern.length
      · simp [hquick, hfull, checkConstellation_eq_length_iff.mp hfull]
      · simp [hquick, hfull, ← checkConstellation_eq_length_iff]
    · -- the quick test rejects, so the full test rejects as well
      have hfull : ¬ ConstellationPasses probabPrime result pattern 31 := fun h =>
        hquick (checkConstellation_eq_length_iff.mpr (constellationPasses_one_of_31 h31 h))
      simp [hquick, hfull]

end Oracle

-- ---------------------------------------------------------------------------
-- CheckProofOfWorkImpl
-- ---------------------------------------------------------------------------

/-- The patterns tried for a PoW version: the prime sextuplet for version -1, the
consensus parameter for version 1. -/
def acceptedPatterns (powVersion : Int32) (params : Params) : List (List Int32) :=
  if powVersion = -1 then [[0, 4, 2, 4, 2, 4]]
  else if powVersion = 1 then params.powAcceptedPatterns
  else []

/-- `CheckProofOfWorkImpl`, with GMP's `mpz_probab_prime_p` as the oracle `probabPrime`. -/
def checkProofOfWorkImpl (probabPrime : Int → Nat → Nat) (hash : Uint256) (nBits : UInt32)
    (nOnce : Uint256) (params : Params) : Bool :=
  if hash = params.hashGenesisBlockForPoW then true
  else
    match testedNumber hash nBits nOnce params with
    | none => false
    | some (powVersion, _, result) =>
      checkPatterns probabPrime result (acceptedPatterns powVersion params)

theorem checkProofOfWorkImpl_eq_true_iff {probabPrime : Int → Nat → Nat} {hash : Uint256}
    {nBits : UInt32} {nOnce : Uint256} {params : Params} :
    checkProofOfWorkImpl probabPrime hash nBits nOnce params = true ↔
      hash = params.hashGenesisBlockForPoW ∨
        ∃ powVersion tz n, testedNumber hash nBits nOnce params = some (powVersion, tz, n) ∧
          checkPatterns probabPrime n (acceptedPatterns powVersion params) = true := by
  unfold checkProofOfWorkImpl
  by_cases hg : hash = params.hashGenesisBlockForPoW
  · simp [hg]
  · simp only [hg, if_false, false_or]
    cases htested : testedNumber hash nBits nOnce params with
    | none => simp
    | some r =>
      obtain ⟨powVersion, tz, n⟩ := r
      simp

-- ---------------------------------------------------------------------------
-- The accept condition
-- ---------------------------------------------------------------------------

/-- The accept condition of the proof of work: the genesis PoW hash, or a PoW version
that `nOnce` selects with its sanity checks on `nBits` (and, for version 1, its
`nBitsOffset`), a padding `tz` from `DeriveTrailingZeros`, for version 1 partial
primorials that all stay within `2^tz`, an offset below `2^tz`, and an accepted
pattern whose running sums from `target + offset` all pass 31 rounds of the oracle. -/
def PowAccepted (probabPrime : Int → Nat → Nat) (hash : Uint256) (nBits : UInt32)
    (nOnce : Uint256) (params : Params) : Prop :=
  hash = params.hashGenesisBlockForPoW ∨
  ∃ (powVersion : Int32) (nBitsOffset : UInt64) (tz : UInt32) (target offset : Int),
    ((nOnce.getUint64 0 &&& 1 = 1 ∧ 33632256 ≤ nBits ∧ nBits ≤ 34210816 ∧
        powVersion = -1 ∧ nBitsOffset = 0) ∨
      (nOnce.getUint64 0 &&& 31 = 2 ∧ params.nBitsMin ≤ nBits ∧ powVersion = 1 ∧
        nBitsOffset.toNat = if nOnce.getUint64 0 &&& 65535 = 2 then 0
          else min ((nOnce.getUint64 0 &&& 65504) <<< 8).toNat (4294967295 - nBits.toNat))) ∧
    deriveTrailingZeros nBits nBitsOffset.toUInt32 powVersion params.nBitsMin = some tz ∧
    deriveTarget hash nBits nBitsOffset.toUInt32 powVersion params.nBitsMin = some target ∧
    ((powVersion = -1 ∧ offset = Bytes.leValue nOnce.data) ∨
      (powVersion = 1 ∧
        (∀ i < primorialNumber nOnce, partialPrimorial (i + 1) ≤ 2 ^ tz.toNat) ∧
        -- GMP aborts on a zero divisor in `target % primorial`
        0 < partialPrimorial (primorialNumber nOnce) ∧
        offset = partialPrimorial (primorialNumber nOnce) -
          target.tmod (partialPrimorial (primorialNumber nOnce)) +
          primorialFactor nOnce * partialPrimorial (primorialNumber nOnce) +
          primorialOffset nOnce)) ∧
    offset < 2 ^ tz.toNat ∧
    ∃ pattern ∈ acceptedPatterns powVersion params,
      ConstellationPasses probabPrime (target + offset) pattern 31

/-- The offset clause of `PowAccepted` is what `powOffset` computes, with the partial
primorials compared in `Nat`. -/
private theorem powOffset_eq_some_iff' {powVersion : Int32} {nOnce : Uint256} {target offset : Int}
    {tz : UInt32} (hv : powVersion = -1 ∨ powVersion = 1) :
    powOffset powVersion nOnce target (2 ^ tz.toNat) = some offset ↔
      (powVersion = -1 ∧ offset = Bytes.leValue nOnce.data) ∨
      (powVersion = 1 ∧
        (∀ i < primorialNumber nOnce, partialPrimorial (i + 1) ≤ 2 ^ tz.toNat) ∧
        0 < partialPrimorial (primorialNumber nOnce) ∧
        offset = partialPrimorial (primorialNumber nOnce) -
          target.tmod (partialPrimorial (primorialNumber nOnce)) +
          primorialFactor nOnce * partialPrimorial (primorialNumber nOnce) +
          primorialOffset nOnce) := by
  rw [powOffset_eq_some_iff hv]
  have hcast : ∀ i, (partialPrimorial (i + 1) : Int) ≤ 2 ^ tz.toNat ↔
      partialPrimorial (i + 1) ≤ 2 ^ tz.toNat := fun i => by exact_mod_cast Iff.rfl
  simp only [hcast]

/-- The version decoding admits only the two PoW versions. -/
private theorem version_cases {nBits : UInt32} {nOnce : Uint256} {nBitsMin : UInt32}
    {powVersion : Int32} {nBitsOffset : UInt64}
    (h : (nOnce.getUint64 0 &&& 1 = 1 ∧ 33632256 ≤ nBits ∧ nBits ≤ 34210816 ∧
        powVersion = -1 ∧ nBitsOffset = 0) ∨
      (nOnce.getUint64 0 &&& 31 = 2 ∧ nBitsMin ≤ nBits ∧ powVersion = 1 ∧
        nBitsOffset.toNat = if nOnce.getUint64 0 &&& 65535 = 2 then 0
          else min ((nOnce.getUint64 0 &&& 65504) <<< 8).toNat (4294967295 - nBits.toNat))) :
    powVersion = -1 ∨ powVersion = 1 := by
  rcases h with ⟨-, -, -, h, -⟩ | ⟨-, -, h, -⟩
  · exact .inl h
  · exact .inr h

/-- `CheckProofOfWorkImpl` accepts a header exactly when `PowAccepted` holds, given
that the oracle's 31-round test implies its one-round test. -/
theorem checkProofOfWorkImpl_iff {probabPrime : Int → Nat → Nat}
    (h31 : ∀ n, probabPrime n 31 ≠ 0 → probabPrime n 1 ≠ 0)
    (hash : Uint256) (nBits : UInt32) (nOnce : Uint256) (params : Params) :
    checkProofOfWorkImpl probabPrime hash nBits nOnce params = true ↔
      PowAccepted probabPrime hash nBits nOnce params := by
  rw [checkProofOfWorkImpl_eq_true_iff, PowAccepted]
  apply or_congr_right
  constructor
  · rintro ⟨powVersion, tz, n, htested, hpatterns⟩
    obtain ⟨nBitsOffset, target, offset, hv, htz, htarget, hoffset, hlt, rfl⟩ :=
      testedNumber_eq_some_iff.mp htested
    have hversion := powVersionOf_eq_some.mp hv
    exact ⟨powVersion, nBitsOffset, tz, target, offset, hversion, htz, htarget,
      (powOffset_eq_some_iff' (version_cases hversion)).mp hoffset, hlt,
      (checkPatterns_iff h31).mp hpatterns⟩
  · rintro ⟨powVersion, nBitsOffset, tz, target, offset, hversion, htz, htarget, hoffset, hlt,
      hpattern⟩
    have hoffset' := (powOffset_eq_some_iff' (version_cases hversion)).mpr hoffset
    exact ⟨powVersion, tz, target + offset,
      testedNumber_eq_some_iff.mpr ⟨nBitsOffset, target, offset,
        powVersionOf_eq_some.mpr hversion, htz, htarget, hoffset', hlt, rfl⟩,
      (checkPatterns_iff h31).mpr hpattern⟩

/-- A stand-in for `mpz_probab_prime_p` that passes exactly the odd numbers, whatever the
rounds: it meets the hypothesis on the rounds, and every running sum of the sextuplet from an
odd number passes it. -/
def oddOracle (n : Int) (_ : Nat) : Nat := if n % 2 = 1 then 1 else 0

/-- A version -1 header through the whole check: the zero hash is not the genesis PoW hash,
`nBits = 33632256` pads the target with 39 zero bits, `nOnce = 1` makes the tested number
`2^303 + 1`, and the sextuplet from it passes the oracle. -/
theorem checkProofOfWorkImpl_iff_sextuplet :
    (∀ n, oddOracle n 31 ≠ 0 → oddOracle n 1 ≠ 0) ∧
    BaseBlob.zero 256 ≠ oneOnce ∧
    testedNumber (BaseBlob.zero 256) 33632256 oneOnce ⟨oneOnce, [], 0⟩ = some (-1, 39, 2 ^ 303 + 1) ∧
    checkProofOfWorkImpl oddOracle (BaseBlob.zero 256) 33632256 oneOnce ⟨oneOnce, [], 0⟩ = true ∧
    PowAccepted oddOracle (BaseBlob.zero 256) 33632256 oneOnce ⟨oneOnce, [], 0⟩ := by
  have h31 : ∀ n, oddOracle n 31 ≠ 0 → oddOracle n 1 ≠ 0 := fun _ h => h
  have hcheck : checkProofOfWorkImpl oddOracle (BaseBlob.zero 256) 33632256 oneOnce ⟨oneOnce, [], 0⟩ = true := by
    decide +kernel
  exact ⟨h31, by decide, by decide +kernel, hcheck, (checkProofOfWorkImpl_iff h31 _ _ _ _).mp hcheck⟩

end Riecoin.Pow
