-- SUMMARY: The asert difficulty adjustment in checked int64 arithmetic: it is defined, within [nBitsMin, 2^32 - 1], monotone in the solve time and in nBits, and the identity at the target spacing, once the spacing is small enough that 65536 * 12 spacings fit in int64.
import Riecoin.Lib.CheckedInt
import Mathlib.Data.Int.Order.Basic
import Mathlib.Tactic.NormNum

/-!
# The asert difficulty adjustment

From the second fork on, `CalculateNextWorkRequired` is `asert`, an approximation of the
ASERT algorithm in fixed point directly on `nBits`. Its `int64_t` expression is modelled in
checked arithmetic (`CheckedInt`): `asert` is `none` where an operation of the code would
overflow or divide by zero, which C++ leaves undefined.

Where every intermediate value fits, the expression is the exact `asertValue`. After the
clamp of the solve time to `[-TIMESTAMP_WINDOW, 12 * nPowTargetSpacing]`, every intermediate
value is bounded by constants times the spacing, and fits when `65536 * 12` spacings do
(`asertDifficulty_eq`). The multiplier stays positive even at the upper clamp, for the
smallest constellation power; hence the monotonicity in `nBits`. Truncating division by a
positive number is monotone, hence the monotonicity in the solve time.
-/

namespace Riecoin

namespace Consensus

/-- The fields of `Consensus::Params` that `asert` reads. -/
structure DifficultyParams where
  fork2Height : Int32
  powAcceptedPatterns : List (List Int32)
  nBitsMin : UInt32
  nPowTargetSpacing : Int64

/-- `Consensus::Params::GetPowAcceptedPatternsAtHeight`: the parameter from the second
fork on, the prime sextuplet before it. -/
def getPowAcceptedPatternsAtHeight (params : DifficultyParams) (height : Int) :
    List (List Int32) :=
  if height ≥ params.fork2Height.toInt then params.powAcceptedPatterns else [[0, 4, 2, 4, 2, 4]]

end Consensus

namespace Pow

open Consensus CheckedInt

/-- `TIMESTAMP_WINDOW`, in seconds. -/
def TIMESTAMP_WINDOW : Int := 15

/-- The two clamps of `previousSolveTime`, given the upper bound `12*params.nPowTargetSpacing`. -/
def clampTime (previousSolveTime upper : Int) : Int :=
  let previousSolveTime :=
    if previousSolveTime < -TIMESTAMP_WINDOW then -TIMESTAMP_WINDOW else previousSolveTime
  if previousSolveTime > upper then upper else previousSolveTime

/-- The clamps of `previousSolveTime` in `asert`; `none` where `12*params.nPowTargetSpacing`
overflows. -/
def clampSolveTime (previousSolveTime nPowTargetSpacing : Int) : Option Int := do
  let upper ← mul? 64 12 nPowTargetSpacing
  pure (clampTime previousSolveTime upper)

/-- The fixed-point expression of `asert`, evaluated in `int64_t` one operation at a time. -/
def asertDifficulty (N cp previousDifficulty previousSolveTime nPowTargetSpacing : Int) :
    Option Int := do
  let scaled ← mul? 64 65536 previousSolveTime
  let ratio ← div? 64 scaled nPowTargetSpacing
  let deviation ← sub? 64 65536 ratio
  let numerator ← mul? 64 10 deviation
  let denominator ← mul? 64 N cp
  let correction ← div? 64 numerator denominator
  let factor ← add? 64 65536 correction
  let product ← mul? 64 previousDifficulty factor
  div? 64 product 65536

/-- The two clamps of the result: not below `nBitsMin`, not above `2^32 - 1`. -/
def clampDifficulty (difficulty : Int) (nBitsMin : UInt32) : Int :=
  if difficulty < nBitsMin.toNat then nBitsMin.toNat
  else if difficulty > 4294967295 then 4294967295 else difficulty

/-- `asert`. `nextHeight` is passed on as an `int`; the constellation power `cp` is computed
in `size_t` and stored in an `int64_t`, as is `nBits`. `none` where the code's evaluation is
undefined: an empty pattern list, or an overflow or division by zero. -/
def asert (nBits : UInt64) (previousSolveTime nextHeight : Int64) (params : DifficultyParams) :
    Option UInt32 := do
  let N : Int := 64
  let pattern ←
    (getPowAcceptedPatternsAtHeight params (Int.bmod nextHeight.toInt (2 ^ 32)))[0]?
  let cp := wrap 64 ((10 * pattern.length + 23) % 2 ^ 64)
  let previousDifficulty := wrap 64 nBits.toNat
  let previousSolveTime ← clampSolveTime previousSolveTime.toInt params.nPowTargetSpacing.toInt
  let difficulty ←
    asertDifficulty N cp previousDifficulty previousSolveTime params.nPowTargetSpacing.toInt
  pure (UInt32.ofInt (clampDifficulty difficulty params.nBitsMin))

-- ---------------------------------------------------------------------------
-- The exact value
-- ---------------------------------------------------------------------------

/-- The multiplier of `previousDifficulty` in `asert`, in units of `1/65536`, over `Int`,
with `N = 64`. -/
def asertFactor (cp previousSolveTime nPowTargetSpacing : Int) : Int :=
  65536 + (10 * (65536 - (65536 * previousSolveTime).tdiv nPowTargetSpacing)).tdiv (64 * cp)

/-- The value of the fixed-point expression of `asert` over `Int`. -/
def asertValue (cp previousDifficulty previousSolveTime nPowTargetSpacing : Int) : Int :=
  (previousDifficulty * asertFactor cp previousSolveTime nPowTargetSpacing).tdiv 65536

section Bounds

variable {cp d t S : Int} (hS : 0 < S) (hcp : 23 ≤ cp)

include hS in
/-- The ratio of the clamped solve time to the spacing, in fixed point. -/
theorem ratio_bounds (ht : -TIMESTAMP_WINDOW ≤ t ∧ t ≤ 12 * S) :
    -983040 ≤ (65536 * t).tdiv S ∧ (65536 * t).tdiv S ≤ 786432 := by
  unfold TIMESTAMP_WINDOW at ht
  constructor
  · have hlow : (-983040 : Int).tdiv S ≤ (65536 * t).tdiv S := Int.tdiv_le_tdiv hS (by omega)
    have hself : (983040 : Int).tdiv S ≤ 983040 := Int.tdiv_le_self S (by omega)
    rw [Int.neg_tdiv] at hlow
    omega
  · have hhigh : (65536 * t).tdiv S ≤ (786432 * S).tdiv S := Int.tdiv_le_tdiv hS (by omega)
    rwa [Int.mul_tdiv_cancel _ (by omega)] at hhigh

include hcp in
/-- The correction to the multiplier is small: the numerator is at most `10 * 1048576` in
magnitude, the denominator at least `64 * 23`. -/
theorem correction_bounds {r : Int} (hr : -983040 ≤ r ∧ r ≤ 786432) :
    -7123 ≤ (10 * (65536 - r)).tdiv (64 * cp) ∧ (10 * (65536 - r)).tdiv (64 * cp) ≤ 7123 := by
  have habs : ((10 * (65536 - r)).tdiv (64 * cp)).natAbs ≤ (10 * (65536 - r)).natAbs / 1472 :=
    natAbs_tdiv_le (by decide) (by omega)
  have hnum : (10 * (65536 - r)).natAbs ≤ 10485760 := by omega
  have hdiv : (10 * (65536 - r)).natAbs / 1472 ≤ 7123 :=
    Nat.le_trans (Nat.div_le_div_right hnum) (by decide)
  omega

include hS hcp in
/-- At every clamped solve time the multiplier stays positive, within 11% of one. -/
theorem asertFactor_bounds (ht : -TIMESTAMP_WINDOW ≤ t ∧ t ≤ 12 * S) :
    58413 ≤ asertFactor cp t S ∧ asertFactor cp t S ≤ 72659 := by
  have hc := correction_bounds hcp (ratio_bounds hS ht)
  unfold asertFactor
  omega

include hS hcp in
/-- Where the spacing is small enough, no operation of the fixed-point expression overflows
and the code computes `asertValue`. -/
theorem asertDifficulty_eq (hS' : 786432 * S < 2 ^ 63) (hcp' : 64 * cp < 2 ^ 63)
    (hd : 0 ≤ d ∧ d < 4294967296) (ht : -TIMESTAMP_WINDOW ≤ t ∧ t ≤ 12 * S) :
    asertDifficulty 64 cp d t S = some (asertValue cp d t S) := by
  have hr := ratio_bounds hS ht
  have hc := correction_bounds hcp hr
  have hf := asertFactor_bounds hS hcp ht
  unfold TIMESTAMP_WINDOW at ht
  -- the product is below `2^32 * 72659`, and so is its quotient by `65536`
  have hprod : d * asertFactor cp t S ≤ 4294967296 * 72659 :=
    Int.mul_le_mul (Int.le_of_lt hd.2) hf.2 (by omega) (by decide)
  have hprod0 : 0 ≤ d * asertFactor cp t S := Int.mul_nonneg hd.1 (by omega)
  have hquot : (d * asertFactor cp t S).tdiv 65536 ≤ d * asertFactor cp t S :=
    Int.tdiv_le_self _ hprod0
  have hquot0 : 0 ≤ (d * asertFactor cp t S).tdiv 65536 := Int.tdiv_nonneg hprod0 (by decide)
  -- every intermediate value of the code, in the order it computes them
  have h1 : InRange 64 (65536 * t) := inRange_64 (by omega) (by omega)
  have h2 : InRange 64 ((65536 * t).tdiv S) := inRange_64 (by omega) (by omega)
  have h3 : InRange 64 (65536 - (65536 * t).tdiv S) := inRange_64 (by omega) (by omega)
  have h4 : InRange 64 (10 * (65536 - (65536 * t).tdiv S)) := inRange_64 (by omega) (by omega)
  have h5 : InRange 64 (64 * cp) := inRange_64 (by omega) (by omega)
  have h6 : InRange 64 ((10 * (65536 - (65536 * t).tdiv S)).tdiv (64 * cp)) :=
    inRange_64 (by omega) (by omega)
  have h7 : InRange 64 (asertFactor cp t S) := inRange_64 (by omega) (by omega)
  have h8 : InRange 64 (d * asertFactor cp t S) := inRange_64 (by omega) (by omega)
  have h9 : InRange 64 ((d * asertFactor cp t S).tdiv 65536) := inRange_64 (by omega) (by omega)
  unfold asertFactor at h7 h8 h9
  unfold asertDifficulty
  simp only [mul?_eq h1, div?_eq (Int.ne_of_gt hS) h2, sub?_eq h3, mul?_eq h4, mul?_eq h5,
    div?_eq (by omega) h6, add?_eq h7, mul?_eq h8, div?_eq (by decide) h9,
    Option.bind_eq_bind, Option.bind_some]
  rfl

end Bounds

section Monotone

variable {cp d t S : Int}

/-- The multiplier does not grow with the solve time: truncating division by a positive
number is monotone, and the solve time enters negated. -/
theorem asertFactor_antitone {t₁ t₂ : Int} (hS : 0 < S) (hcp : 0 < cp) (h : t₁ ≤ t₂) :
    asertFactor cp t₂ S ≤ asertFactor cp t₁ S := by
  have hratio : (65536 * t₁).tdiv S ≤ (65536 * t₂).tdiv S := Int.tdiv_le_tdiv hS (by omega)
  have hcorr : (10 * (65536 - (65536 * t₂).tdiv S)).tdiv (64 * cp) ≤
      (10 * (65536 - (65536 * t₁).tdiv S)).tdiv (64 * cp) :=
    Int.tdiv_le_tdiv (by omega) (by omega)
  unfold asertFactor
  omega

/-- A block found exactly at the target spacing leaves the multiplier at one. -/
theorem asertFactor_spacing (hS : 0 < S) : asertFactor cp S S = 65536 := by
  unfold asertFactor
  rw [Int.mul_tdiv_cancel _ (Int.ne_of_gt hS), Int.sub_self, Int.mul_zero, Int.zero_tdiv,
    Int.add_zero]

theorem asertValue_antitone {t₁ t₂ : Int} (hS : 0 < S) (hcp : 0 < cp) (hd : 0 ≤ d)
    (h : t₁ ≤ t₂) : asertValue cp d t₂ S ≤ asertValue cp d t₁ S := by
  have hprod : d * asertFactor cp t₂ S ≤ d * asertFactor cp t₁ S :=
    Int.mul_le_mul_of_nonneg_left (asertFactor_antitone hS hcp h) hd
  exact Int.tdiv_le_tdiv (by decide) hprod

/-- The value does not drop with the previous difficulty, the multiplier being positive. -/
theorem asertValue_monotone {d₁ d₂ : Int} (hS : 0 < S) (hcp : 23 ≤ cp)
    (ht : -TIMESTAMP_WINDOW ≤ t ∧ t ≤ 12 * S) (h : d₁ ≤ d₂) :
    asertValue cp d₁ t S ≤ asertValue cp d₂ t S := by
  have hf := asertFactor_bounds hS hcp ht
  have hprod : d₁ * asertFactor cp t S ≤ d₂ * asertFactor cp t S :=
    Int.mul_le_mul_of_nonneg_right h (by omega)
  exact Int.tdiv_le_tdiv (by decide) hprod

theorem asertValue_spacing (hS : 0 < S) : asertValue cp d S S = d := by
  unfold asertValue
  rw [asertFactor_spacing hS, Int.mul_tdiv_cancel _ (by decide)]

end Monotone

-- ---------------------------------------------------------------------------
-- The clamps
-- ---------------------------------------------------------------------------

section Clamps

variable {t u : Int}

theorem clampTime_bounds (t : Int) (hu : -TIMESTAMP_WINDOW ≤ u) :
    -TIMESTAMP_WINDOW ≤ clampTime t u ∧ clampTime t u ≤ u := by
  unfold clampTime
  dsimp only
  split_ifs <;> omega

theorem clampTime_mono (u : Int) {t₁ t₂ : Int} (h : t₁ ≤ t₂) :
    clampTime t₁ u ≤ clampTime t₂ u := by
  unfold clampTime
  dsimp only
  split_ifs <;> omega

theorem clampTime_of_mem (h1 : -TIMESTAMP_WINDOW ≤ t) (h2 : t ≤ u) : clampTime t u = t := by
  unfold clampTime
  dsimp only
  split_ifs <;> omega

theorem clampSolveTime_eq {S : Int} (h : InRange 64 (12 * S)) :
    clampSolveTime t S = some (clampTime t (12 * S)) := by
  unfold clampSolveTime
  rw [mul?_eq h]
  rfl

variable {x x₁ x₂ : Int} {m : UInt32}

theorem clampDifficulty_bounds (x : Int) (m : UInt32) :
    m.toNat ≤ clampDifficulty x m ∧ clampDifficulty x m ≤ 4294967295 := by
  have hm : m.toNat < 4294967296 := m.toNat_lt
  unfold clampDifficulty
  split_ifs <;> omega

theorem clampDifficulty_mono (m : UInt32) (h : x₁ ≤ x₂) :
    clampDifficulty x₁ m ≤ clampDifficulty x₂ m := by
  have hm : m.toNat < 4294967296 := m.toNat_lt
  unfold clampDifficulty
  split_ifs <;> omega

/-- Below the upper clamp, the clamps of the result are a maximum with `nBitsMin`. -/
theorem clampDifficulty_of_le (h : x ≤ 4294967295) :
    clampDifficulty x m = max x m.toNat := by
  unfold clampDifficulty
  split_ifs <;> omega

/-- The conversion to `uint32_t` keeps the clamped value. -/
theorem toNat_ofInt_clampDifficulty :
    ((UInt32.ofInt (clampDifficulty x m)).toNat : Int) = clampDifficulty x m := by
  have hb := clampDifficulty_bounds x m
  unfold UInt32.ofInt
  rw [UInt32.toNat_ofNat', Int.emod_eq_of_lt (by omega) (by omega)]
  omega

end Clamps

-- ---------------------------------------------------------------------------
-- asert
-- ---------------------------------------------------------------------------

/-- The difficulty parameters of the main network. -/
def mainDifficultyParams : DifficultyParams where
  fork2Height := 1482768
  powAcceptedPatterns := [[0, 2, 4, 2, 4, 6, 2], [0, 2, 6, 4, 2, 4, 2]]
  nBitsMin := 600 * 256
  nPowTargetSpacing := 150

section Asert

variable {params : DifficultyParams} {nextHeight : Int64} {pattern : List Int32}

/-- Where the spacing is small enough and the pattern exists, `asert` is defined, and it is
the clamped `asertValue` at the clamped solve time. -/
theorem asert_eq (nBits : UInt64) (previousSolveTime : Int64)
    (hS : 0 < params.nPowTargetSpacing.toInt)
    (hS' : 786432 * params.nPowTargetSpacing.toInt < 2 ^ 63)
    (hpattern : (getPowAcceptedPatternsAtHeight params
      (Int.bmod nextHeight.toInt (2 ^ 32)))[0]? = some pattern)
    (hlen : 64 * (10 * pattern.length + 23) < 2 ^ 63) (hbits : nBits.toNat < 2 ^ 32) :
    asert nBits previousSolveTime nextHeight params = some (UInt32.ofInt (clampDifficulty
      (asertValue (10 * pattern.length + 23) nBits.toNat
        (clampTime previousSolveTime.toInt (12 * params.nPowTargetSpacing.toInt))
        params.nPowTargetSpacing.toInt) params.nBitsMin)) := by
  have hcp : wrap 64 ((10 * pattern.length + 23) % 2 ^ 64) = 10 * pattern.length + 23 := by
    rw [Nat.mod_eq_of_lt (by omega), wrap_eq (by omega) (by decide)]
    push_cast
    rfl
  have hd : wrap 64 nBits.toNat = nBits.toNat := wrap_eq (by omega) (by decide)
  have hupper : InRange 64 (12 * params.nPowTargetSpacing.toInt) := inRange_64 (by omega) (by omega)
  have ht := clampTime_bounds previousSolveTime.toInt
    (show -TIMESTAMP_WINDOW ≤ 12 * params.nPowTargetSpacing.toInt by unfold TIMESTAMP_WINDOW; omega)
  unfold asert
  simp only [hpattern, hcp, hd, clampSolveTime_eq hupper, Option.bind_eq_bind, Option.bind_some]
  rw [asertDifficulty_eq hS (by omega) (by omega) (by omega) (by omega) ht]
  rfl

-- the lower and upper clamps of the solve time, and the upper clamp of the result, as the
-- unit tests exercise them on the main network
example : asert 2560000 (-60) 3000001 mainDifficultyParams = some 2564726 := by decide

example : asert 2560000 1950 3000001 mainDifficultyParams = some 2512695 := by decide

example : asert 4294967294 1 16777217 mainDifficultyParams = some 4294967295 := by decide

/-- `asert_eq`, read through `toNat`. -/
theorem asert_spec (nBits : UInt64) (previousSolveTime : Int64)
    (hS : 0 < params.nPowTargetSpacing.toInt)
    (hS' : 786432 * params.nPowTargetSpacing.toInt < 2 ^ 63)
    (hpattern : (getPowAcceptedPatternsAtHeight params
      (Int.bmod nextHeight.toInt (2 ^ 32)))[0]? = some pattern)
    (hlen : 64 * (10 * pattern.length + 23) < 2 ^ 63) (hbits : nBits.toNat < 2 ^ 32) :
    ∃ r, asert nBits previousSolveTime nextHeight params = some r ∧
      (r.toNat : Int) = clampDifficulty (asertValue (10 * pattern.length + 23) nBits.toNat
        (clampTime previousSolveTime.toInt (12 * params.nPowTargetSpacing.toInt))
        params.nPowTargetSpacing.toInt) params.nBitsMin :=
  ⟨_, asert_eq nBits previousSolveTime hS hS' hpattern hlen hbits, toNat_ofInt_clampDifficulty⟩

theorem asert_bounded_monotone (params : DifficultyParams) (nextHeight : Int64)
    (hS : 0 < params.nPowTargetSpacing.toInt)
    (hS' : 786432 * params.nPowTargetSpacing.toInt < 2 ^ 63)
    (hpattern : ∃ pattern, (getPowAcceptedPatternsAtHeight params
      (Int.bmod nextHeight.toInt (2 ^ 32)))[0]? = some pattern ∧
      64 * (10 * pattern.length + 23) < 2 ^ 63) :
    (∀ (nBits : UInt64) (previousSolveTime : Int64), nBits.toNat < 2 ^ 32 →
      ∃ r, asert nBits previousSolveTime nextHeight params = some r ∧ params.nBitsMin ≤ r) ∧
    (∀ (nBits : UInt64) (t₁ t₂ : Int64), nBits.toNat < 2 ^ 32 → t₁ ≤ t₂ →
      ∃ r₁ r₂, asert nBits t₁ nextHeight params = some r₁ ∧
        asert nBits t₂ nextHeight params = some r₂ ∧ r₂ ≤ r₁) ∧
    (∀ (nBits₁ nBits₂ : UInt64) (previousSolveTime : Int64), nBits₁ ≤ nBits₂ →
      nBits₂.toNat < 2 ^ 32 →
      ∃ r₁ r₂, asert nBits₁ previousSolveTime nextHeight params = some r₁ ∧
        asert nBits₂ previousSolveTime nextHeight params = some r₂ ∧ r₁ ≤ r₂) ∧
    (∀ (nBits : UInt64) (previousSolveTime : Int64), nBits.toNat < 2 ^ 32 →
      previousSolveTime.toInt = params.nPowTargetSpacing.toInt →
      ∃ r, asert nBits previousSolveTime nextHeight params = some r ∧
        r.toNat = max nBits.toNat params.nBitsMin.toNat) := by
  obtain ⟨pattern, hpat, hlen⟩ := hpattern
  have hcp : (23 : Int) ≤ 10 * pattern.length + 23 := by omega
  have hupper : -TIMESTAMP_WINDOW ≤ 12 * params.nPowTargetSpacing.toInt := by
    unfold TIMESTAMP_WINDOW
    omega
  refine ⟨?bounded, ?solveTime, ?bits, ?spacing⟩
  case bounded =>
    intro nBits t hbits
    obtain ⟨r, hr, hval⟩ := asert_spec nBits t hS hS' hpat hlen hbits
    have hb := clampDifficulty_bounds (asertValue (10 * pattern.length + 23) nBits.toNat
      (clampTime t.toInt (12 * params.nPowTargetSpacing.toInt))
      params.nPowTargetSpacing.toInt) params.nBitsMin
    refine ⟨r, hr, UInt32.le_iff_toNat_le.mpr ?_⟩
    omega
  case solveTime =>
    intro nBits t₁ t₂ hbits ht
    obtain ⟨r₁, hr₁, hval₁⟩ := asert_spec nBits t₁ hS hS' hpat hlen hbits
    obtain ⟨r₂, hr₂, hval₂⟩ := asert_spec nBits t₂ hS hS' hpat hlen hbits
    -- a later solve time is clamped no earlier, and the value falls with it
    have hclamp := clampTime_mono (12 * params.nPowTargetSpacing.toInt)
      (Int64.le_iff_toInt_le.mp ht)
    have hv := asertValue_antitone hS (show (0 : Int) < 10 * pattern.length + 23 by omega)
      (Int.natCast_nonneg nBits.toNat) hclamp
    have hc := clampDifficulty_mono params.nBitsMin hv
    refine ⟨r₁, r₂, hr₁, hr₂, UInt32.le_iff_toNat_le.mpr ?_⟩
    omega
  case bits =>
    intro nBits₁ nBits₂ t hle hbits₂
    have hle' := UInt64.le_iff_toNat_le.mp hle
    obtain ⟨r₁, hr₁, hval₁⟩ := asert_spec nBits₁ t hS hS' hpat hlen (by omega)
    obtain ⟨r₂, hr₂, hval₂⟩ := asert_spec nBits₂ t hS hS' hpat hlen hbits₂
    have hv := asertValue_monotone hS hcp (clampTime_bounds t.toInt hupper)
      (show (nBits₁.toNat : Int) ≤ nBits₂.toNat by omega)
    have hc := clampDifficulty_mono params.nBitsMin hv
    refine ⟨r₁, r₂, hr₁, hr₂, UInt32.le_iff_toNat_le.mpr ?_⟩
    omega
  case spacing =>
    intro nBits t hbits ht
    obtain ⟨r, hr, hval⟩ := asert_spec nBits t hS hS' hpat hlen hbits
    -- at the target spacing the clamp, the multiplier and the upper clamp all do nothing
    rw [ht, clampTime_of_mem (by unfold TIMESTAMP_WINDOW; omega) (by omega), asertValue_spacing hS,
      clampDifficulty_of_le (by omega)] at hval
    refine ⟨r, hr, ?_⟩
    omega

theorem asert_bounded_monotone_main :
    0 < mainDifficultyParams.nPowTargetSpacing.toInt ∧
    786432 * mainDifficultyParams.nPowTargetSpacing.toInt < 2 ^ 63 ∧
    (getPowAcceptedPatternsAtHeight mainDifficultyParams
      (Int.bmod (1482769 : Int64).toInt (2 ^ 32)))[0]? = some [0, 2, 4, 2, 4, 6, 2] ∧
    ((∀ (nBits : UInt64) (previousSolveTime : Int64), nBits.toNat < 2 ^ 32 →
      ∃ r, asert nBits previousSolveTime 1482769 mainDifficultyParams = some r ∧
        mainDifficultyParams.nBitsMin ≤ r) ∧
    (∀ (nBits : UInt64) (t₁ t₂ : Int64), nBits.toNat < 2 ^ 32 → t₁ ≤ t₂ →
      ∃ r₁ r₂, asert nBits t₁ 1482769 mainDifficultyParams = some r₁ ∧
        asert nBits t₂ 1482769 mainDifficultyParams = some r₂ ∧ r₂ ≤ r₁) ∧
    (∀ (nBits₁ nBits₂ : UInt64) (previousSolveTime : Int64), nBits₁ ≤ nBits₂ →
      nBits₂.toNat < 2 ^ 32 →
      ∃ r₁ r₂, asert nBits₁ previousSolveTime 1482769 mainDifficultyParams = some r₁ ∧
        asert nBits₂ previousSolveTime 1482769 mainDifficultyParams = some r₂ ∧ r₁ ≤ r₂) ∧
    (∀ (nBits : UInt64) (previousSolveTime : Int64), nBits.toNat < 2 ^ 32 →
      previousSolveTime.toInt = mainDifficultyParams.nPowTargetSpacing.toInt →
      ∃ r, asert nBits previousSolveTime 1482769 mainDifficultyParams = some r ∧
        r.toNat = max nBits.toNat mainDifficultyParams.nBitsMin.toNat)) :=
  ⟨by decide, by decide, by decide,
    asert_bounded_monotone mainDifficultyParams 1482769 (by decide) (by decide)
      ⟨[0, 2, 4, 2, 4, 6, 2], by decide, by decide⟩⟩

/-- The main network's parameters with a spacing of `2^47` seconds. -/
def wideSpacingParams : DifficultyParams :=
  { mainDifficultyParams with nPowTargetSpacing := 140737488355328 }

/-- With a spacing of `2^47`, a block found exactly at the spacing already overflows
`65536LL*previousSolveTime`. -/
theorem asert_wide_spacing_overflow :
    0 < wideSpacingParams.nPowTargetSpacing.toInt ∧
    (getPowAcceptedPatternsAtHeight wideSpacingParams
      (Int.bmod (1482769 : Int64).toInt (2 ^ 32)))[0]? = some [0, 2, 4, 2, 4, 6, 2] ∧
    asert 153600 140737488355328 1482769 wideSpacingParams = none :=
  ⟨by decide, by decide, by decide⟩

end Asert

end Pow

end Riecoin
