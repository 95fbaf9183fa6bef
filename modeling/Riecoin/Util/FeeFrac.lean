-- SUMMARY: FeeFrac with its int64 fee, int32 size and checked operators, the exact ratio comparison ByRatio, and CompareChunks, the sweep that compares the feerate diagrams of two chunk lists.
import Riecoin.Lib.CheckedInt
import Riecoin.Lib.Diagram

/-!
# Fee fractions and CompareChunks

`FeeFrac` from `util/feefrac.h` is a fee (`int64_t`) and a size (`int32_t`). Signed overflow
is undefined in C++, so `+` and `-` are the checked operations `FeeFrac.add?` and
`FeeFrac.sub?`: `none` where the fee or the size leaves its range, as in
`Riecoin.Lib.CheckedInt`, and otherwise the machine sums, which are then the exact ones.
`ByRatio` compares `Mul(a.fee, b.size)` with `Mul(b.fee, a.size)`; the products are exact
(128 bits, or the 96-bit fallback), so they are products of `Int`s here.

`CompareChunks` (`util/feefrac.cpp`) keeps its arrays indexed by the side (`false` for
diagram 0, `true` for diagram 1): `next_index`, `accum` and `better_somewhere`. One pass of
the `do ... while` body is `compareStep`, whose result says whether the loop breaks, returns
`unordered` or goes on; `compareLoop` runs it with one pass of fuel per chunk, which is
enough since every pass that goes on processes a chunk. The result is `none` where an
operation overflows.
-/

namespace Riecoin

open CheckedInt Diagram

/-- `FeeFrac`: a fee and a size. -/
structure FeeFrac where
  fee : Int64
  size : Int32
  deriving DecidableEq, Repr

namespace FeeFrac

/-- `FeeFrac()`: fee and size 0. -/
instance : Inhabited FeeFrac := ⟨⟨0, 0⟩⟩

/-- `operator+`, where neither the fee nor the size overflows. -/
def add? (a b : FeeFrac) : Option FeeFrac :=
  if InRange 64 (a.fee.toInt + b.fee.toInt) ∧ InRange 32 (a.size.toInt + b.size.toInt) then
    some ⟨a.fee + b.fee, a.size + b.size⟩
  else none

/-- `operator-`, where neither the fee nor the size overflows. -/
def sub? (a b : FeeFrac) : Option FeeFrac :=
  if InRange 64 (a.fee.toInt - b.fee.toInt) ∧ InRange 32 (a.size.toInt - b.size.toInt) then
    some ⟨a.fee - b.fee, a.size - b.size⟩
  else none

/-- `ByRatio{a} <=> ByRatio{b}`: the feerates compared by cross-multiplication. -/
def compareByRatio (a b : FeeFrac) : Ordering :=
  compare (a.fee.toInt * b.size.toInt) (b.fee.toInt * a.size.toInt)

theorem add?_spec {a b : FeeFrac} (hf : InRange 64 (a.fee.toInt + b.fee.toInt))
    (hs : InRange 32 (a.size.toInt + b.size.toInt)) :
    ∃ c, a.add? b = some c ∧ c.fee.toInt = a.fee.toInt + b.fee.toInt ∧ c.size.toInt = a.size.toInt + b.size.toInt :=
  ⟨_, if_pos ⟨hf, hs⟩, int64_toInt_add hf, int32_toInt_add hs⟩

theorem sub?_spec {a b : FeeFrac} (hf : InRange 64 (a.fee.toInt - b.fee.toInt))
    (hs : InRange 32 (a.size.toInt - b.size.toInt)) :
    ∃ c, a.sub? b = some c ∧ c.fee.toInt = a.fee.toInt - b.fee.toInt ∧ c.size.toInt = a.size.toInt - b.size.toInt :=
  ⟨_, if_pos ⟨hf, hs⟩, int64_toInt_sub hf, int32_toInt_sub hs⟩

theorem compareByRatio_eq_gt {a b : FeeFrac} :
    compareByRatio a b = .gt ↔ b.fee.toInt * a.size.toInt < a.fee.toInt * b.size.toInt :=
  compare_gt_iff_gt

theorem compareByRatio_eq_lt {a b : FeeFrac} :
    compareByRatio a b = .lt ↔ a.fee.toInt * b.size.toInt < b.fee.toInt * a.size.toInt :=
  compare_lt_iff_lt

-- ---------------------------------------------------------------------------
-- Mul and Div, with their 96-bit fallbacks
-- ---------------------------------------------------------------------------

/-- `FeeFrac::MulFallback(a, b)`: the 96-bit product as a high `int64_t` word and a low
`uint32_t` word. -/
def mulFallback (a : Int64) (b : Int32) : Int64 × UInt32 :=
  let low : Int64 := a.toUInt64.toUInt32.toUInt64.toInt64 * b.toInt64
  let high : Int64 := (a >>> 32) * b.toInt64
  (high + (low >>> 32), low.toUInt64.toUInt32)

/-- The number a pair of `MulFallback` stands for: `first * 2^32 + second`. -/
def value96 (n : Int64 × UInt32) : Int := n.1.toInt * 2 ^ 32 + n.2.toNat

/-- `operator<=>` of `std::pair<int64_t, uint32_t>`: by `first`, then by `second`. -/
def comparePair (p q : Int64 × UInt32) : Ordering :=
  (compare p.1 q.1).then (compare p.2 q.2)

/-- `FeeFrac::DivFallback(n, d, round_down)`. The source's `Assume(d > 0)` checks nothing in a
release build; the model is `none` where the source divides by zero, divides `INT64_MIN` by
`-1`, or its final `+` overflows. The other operations cannot overflow: `|n.first % d| < |d|`,
and `quot_low` is corrected only when `|d| ≥ 2`. -/
def divFallback (n : Int64 × UInt32) (d : Int32) (round_down : Bool) : Option Int64 :=
  if d = 0 ∨ (d = -1 ∧ n.1 = Int64.minValue) then none
  else
    let quot_high := n.1 / d.toInt64
    let n_low := ((n.1 % d.toInt64) <<< 32) + n.2.toUInt64.toInt64
    let quot_low := n_low / d.toInt64
    let mod_low := (n_low % d.toInt64).toInt32
    let quot_low := quot_low + ((if mod_low > 0 then 1 else 0) - (if mod_low ≠ 0 ∧ round_down then 1 else 0))
    if InRange 64 ((quot_high <<< 32).toInt + quot_low.toInt) then some ((quot_high <<< 32) + quot_low)
    else none

/-- `FeeFrac::Mul(a, b)`: the `__int128` product, which is exact. -/
def mul (a : Int64) (b : Int32) : Int := a.toInt * b.toInt

/-- `FeeFrac::Div(n, d, round_down)` on an `__int128` `n`: the quotient truncated toward zero
and narrowed to `int64_t` (modular in C++20), corrected by the sign of the remainder; `none`
where the source divides by zero or overflows. -/
def div (n : Int) (d : Int32) (round_down : Bool) : Option Int64 :=
  if d = 0 ∨ (d = -1 ∧ n = -2 ^ 127) then none
  else
    let quot : Int64 := Int64.ofInt (n.tdiv d.toInt)
    let mod : Int32 := Int32.ofInt (n.tmod d.toInt)
    let correction : Int64 := (if mod > 0 then 1 else 0) - (if mod ≠ 0 ∧ round_down then 1 else 0)
    if InRange 64 (quot.toInt + correction.toInt) then some (quot + correction) else none

/-- `CeilDiv(dividend, divisor)` of `util/overflow.h` on a `uint64_t` dividend; `none` where
its `assert(divisor > 0)` fails. -/
def ceilDiv (dividend divisor : UInt64) : Option UInt64 :=
  if divisor > 0 then some (dividend / divisor + if dividend % divisor ≠ 0 then 1 else 0) else none

/-- `EvaluateFee<RoundDown>(at_size)`: `fee * at_size / size` rounded down or up, by `uint64_t`
arithmetic when `0 ≤ fee < 2^33` and by `Div(Mul(fee, at_size), size, RoundDown)` otherwise
(the `__int128` versions). `none` where the source divides by zero or overflows. -/
def evaluateFee (f : FeeFrac) (RoundDown : Bool) (at_size : Int32) : Option Int64 :=
  if f.fee ≥ 0 ∧ f.fee < 0x200000000 then
    -- the common case: `uint64_t(fee) * at_size` cannot wrap for `0 ≤ at_size`
    let product := f.fee.toUInt64 * at_size.toInt64.toUInt64
    if RoundDown then
      if f.size.toUInt32 = 0 then none else some (product / f.size.toUInt32.toUInt64).toInt64
    else (ceilDiv product f.size.toUInt32.toUInt64).map UInt64.toInt64
  else div (mul f.fee at_size) f.size RoundDown

-- ---------------------------------------------------------------------------
-- MulFallback is exact
-- ---------------------------------------------------------------------------

/-- The low word `a & 0xffffffff` of `MulFallback`, back in `int64_t`, is `a mod 2^32`. -/
theorem toInt_lowWord (a : Int64) : (a.toUInt64.toUInt32.toUInt64.toInt64).toInt = a.toInt % 2 ^ 32 := by
  have hlt : (a.toUInt64.toUInt32.toUInt64).toNat < 2 ^ 63 := by
    have := a.toUInt64.toUInt32.toNat_lt
    simp only [UInt32.toNat_toUInt64]
    omega
  rw [uint64_toInt_toInt64 hlt]
  simp only [UInt32.toNat_toUInt64, UInt64.toNat_toUInt32]
  push_cast
  rw [int64_toNat_toUInt64, Int.emod_emod_of_dvd _ (by decide)]

theorem toNat_lowWord (x : Int64) : (x.toUInt64.toUInt32.toNat : Int) = x.toInt % 2 ^ 32 := by
  simp only [UInt64.toNat_toUInt32]
  push_cast
  rw [int64_toNat_toUInt64, Int.emod_emod_of_dvd _ (by decide)]

/-- `MulFallback(a, b)` is exact: `first * 2^32 + second = a * b`. The source splits `a` into its
high word `a >> 32` and low word `a mod 2^32`; no product or sum leaves `int64_t`. -/
theorem value96_mulFallback (a : Int64) (b : Int32) : value96 (mulFallback a b) = a.toInt * b.toInt := by
  have hA := Int64.le_toInt a
  have hA' := Int64.toInt_lt a
  have hB := Int32.le_toInt b
  have hB' := Int32.toInt_lt b
  have hlowA := toInt_lowWord a
  -- the two partial products, each of at most 63 bits
  have hlowAbs : (a.toInt % 2 ^ 32 * b.toInt).natAbs ≤ (2 ^ 32 - 1) * 2 ^ 31 := by
    rw [Int.natAbs_mul]
    exact Nat.mul_le_mul (by omega) (by omega)
  have hhighAbs : (a.toInt / 2 ^ 32 * b.toInt).natAbs ≤ 2 ^ 31 * 2 ^ 31 := by
    rw [Int.natAbs_mul]
    exact Nat.mul_le_mul (by omega) (by omega)
  have hlow : (a.toUInt64.toUInt32.toUInt64.toInt64 * b.toInt64).toInt = a.toInt % 2 ^ 32 * b.toInt := by
    rw [int64_toInt_mul (by rw [hlowA, Int32.toInt_toInt64]; constructor <;> omega), hlowA,
      Int32.toInt_toInt64]
  have hhigh : ((a >>> 32) * b.toInt64).toInt = a.toInt / 2 ^ 32 * b.toInt := by
    rw [int64_toInt_mul (by rw [int64_toInt_shiftRight_32, Int32.toInt_toInt64]; constructor <;> omega),
      int64_toInt_shiftRight_32, Int32.toInt_toInt64]
  have hfirst : ((a >>> 32) * b.toInt64 + (a.toUInt64.toUInt32.toUInt64.toInt64 * b.toInt64) >>> 32).toInt =
      a.toInt / 2 ^ 32 * b.toInt + a.toInt % 2 ^ 32 * b.toInt / 2 ^ 32 := by
    rw [int64_toInt_add (by rw [hhigh, int64_toInt_shiftRight_32, hlow]; constructor <;> omega), hhigh,
      int64_toInt_shiftRight_32, hlow]
  show ((a >>> 32) * b.toInt64 + (a.toUInt64.toUInt32.toUInt64.toInt64 * b.toInt64) >>> 32).toInt * 2 ^ 32 +
    ((a.toUInt64.toUInt32.toUInt64.toInt64 * b.toInt64).toUInt64.toUInt32.toNat : Int) = _
  rw [hfirst, toNat_lowWord, hlow]
  -- `first * 2^32 + second = high * 2^32 + low`, and `high * 2^32 + low = a * b`
  have hsplit := Int.mul_ediv_add_emod (a.toInt % 2 ^ 32 * b.toInt) (2 ^ 32)
  have ha := Int.mul_ediv_add_emod a.toInt (2 ^ 32)
  calc (a.toInt / 2 ^ 32 * b.toInt + a.toInt % 2 ^ 32 * b.toInt / 2 ^ 32) * 2 ^ 32 +
        a.toInt % 2 ^ 32 * b.toInt % 2 ^ 32
      = a.toInt / 2 ^ 32 * b.toInt * 2 ^ 32 + a.toInt % 2 ^ 32 * b.toInt := by rw [Int.add_mul]; omega
    _ = (2 ^ 32 * (a.toInt / 2 ^ 32) + a.toInt % 2 ^ 32) * b.toInt := by ring
    _ = a.toInt * b.toInt := by rw [ha]

theorem compare_int64 (x y : Int64) : compare x y = compare x.toInt y.toInt := by
  show compareOfLessAndEq x y = compareOfLessAndEq x.toInt y.toInt
  simp only [compareOfLessAndEq, Int64.lt_iff_toInt_lt, ← Int64.toInt_inj]

theorem compare_uint32 (x y : UInt32) : compare x y = compare x.toNat y.toNat := by
  show compareOfLessAndEq x y = compareOfLessAndEq x.toNat y.toNat
  simp only [compareOfLessAndEq, UInt32.lt_iff_toNat_lt, ← UInt32.toNat_inj]

/-- The lexicographic order of the pairs is the order of the numbers they stand for, since
`second < 2^32`. -/
theorem comparePair_eq (p q : Int64 × UInt32) : comparePair p q = compare (value96 p) (value96 q) := by
  have hp := p.2.toNat_lt
  have hq := q.2.toNat_lt
  rw [comparePair, compare_int64, compare_uint32, value96, value96]
  rcases Int.lt_trichotomy p.1.toInt q.1.toInt with hlt | heq | hgt
  · rw [(compare_lt_iff_lt).mpr hlt, Ordering.lt_then, eq_comm, compare_lt_iff_lt]
    omega
  · rw [heq, compare_eq_iff_eq.mpr rfl, Ordering.eq_then]
    rcases Nat.lt_trichotomy p.2.toNat q.2.toNat with h | h | h
    · rw [compare_lt_iff_lt.mpr h, eq_comm, compare_lt_iff_lt]; omega
    · rw [h, compare_eq_iff_eq.mpr rfl, compare_eq_iff_eq.mpr rfl]
    · rw [compare_gt_iff_gt.mpr h, eq_comm, compare_gt_iff_gt]; omega
  · rw [(compare_gt_iff_gt).mpr hgt, Ordering.gt_then, eq_comm, compare_gt_iff_gt]
    omega

theorem comparePair_mulFallback (a c : Int64) (b d : Int32) :
    comparePair (mulFallback a b) (mulFallback c d) = compare (a.toInt * b.toInt) (c.toInt * d.toInt) := by
  rw [comparePair_eq, value96_mulFallback, value96_mulFallback]

theorem toInt_correction (m : Int32) (round_down : Bool) :
    ((if m > 0 then 1 else 0) - (if m ≠ 0 ∧ round_down = true then 1 else 0) : Int64).toInt =
      (if 0 < m.toInt then 1 else 0) - (if m.toInt ≠ 0 ∧ round_down = true then 1 else 0) := by
  have hpos : m > 0 ↔ 0 < m.toInt := Int32.lt_iff_toInt_lt
  have hne : m ≠ 0 ↔ m.toInt ≠ 0 := by
    rw [ne_eq, ne_eq, ← Int32.toInt_inj]
    rfl
  have hcast : ∀ (p q : Prop) [Decidable p] [Decidable q],
      ((if p then 1 else 0) - (if q then 1 else 0) : Int64).toInt =
        (if p then 1 else 0) - (if q then 1 else 0) := by
    intro p q _ _
    split <;> split <;> rfl
  rw [hcast]
  simp only [hpos, hne]

/-- `x / d` in `int64_t`, corrected by the sign of `x % d`, is `x / d` rounded down or up; it
cannot overflow, since a nonzero correction needs `d ≥ 2`. -/
theorem toInt_div_add_correction (x : Int64) {d : Int32} (hd : 0 < d.toInt) (round_down : Bool) :
    (x / d.toInt64 + ((if (x % d.toInt64).toInt32 > 0 then 1 else 0) -
      (if (x % d.toInt64).toInt32 ≠ 0 ∧ round_down = true then 1 else 0))).toInt =
      roundedDiv x.toInt d.toInt round_down := by
  have hd64 : d.toInt64.toInt = d.toInt := Int32.toInt_toInt64 d
  have hD := Int32.toInt_lt d
  have hne : d.toInt64 ≠ -1 := fun h => by
    have := congrArg Int64.toInt h
    rw [hd64] at this
    have : (-1 : Int64).toInt = -1 := rfl
    omega
  have hmlt := Int.tmod_lt_of_pos x.toInt hd
  have hmgt := Int.lt_tmod_of_pos x.toInt hd
  have hmod : (x % d.toInt64).toInt32.toInt = x.toInt.tmod d.toInt := by
    rw [Int64.toInt_toInt32, Int64.toInt_mod, hd64]
    exact bmod_eq_of_inRange (by decide) ⟨by omega, by omega⟩
  have hquot : (x / d.toInt64).toInt = x.toInt.tdiv d.toInt := by
    rw [Int64.toInt_div_of_ne_right _ _ hne, hd64]
  have hx := Int64.le_toInt x
  have hx' := Int64.toInt_lt x
  rw [int64_toInt_add, hquot, toInt_correction, hmod, tdiv_add_correction _ hd]
  -- left: the side condition of `int64_toInt_add`, that the corrected quotient fits
  rw [hquot, toInt_correction, hmod]
  -- a nonzero correction needs a nonzero remainder, so `d ≥ 2` and `|x / d| ≤ |x| / 2`
  by_cases hm : x.toInt.tmod d.toInt = 0
  · simp only [hm, Int.lt_irrefl, if_false, ne_eq, not_true_eq_false, false_and, Int.sub_zero,
      Int.add_zero]
    rw [← hquot]
    exact ⟨Int64.le_toInt _, Int64.toInt_lt _⟩
  · have hhalf := natAbs_tdiv_le (a := x.toInt) (b := d.toInt) (d := 2) (by decide) (by omega)
    constructor <;> split <;> split <;> omega

/-- `DivFallback(n, d, round_down)` is `n / d` rounded down or up, wherever that fits in `int64_t`.
With `n.first = d * quot_high + rem`, the number is `d * (quot_high * 2^32) + n_low`, so the
rounded quotient is `quot_high * 2^32` plus that of `n_low`; `quot_high << 32` fits because the
quotient does. -/
theorem divFallback_eq (n : Int64 × UInt32) {d : Int32} (hd : 0 < d.toInt) (round_down : Bool)
    (hfit : InRange 64 (roundedDiv (value96 n) d.toInt round_down)) :
    ∃ q, divFallback n d round_down = some q ∧ q.toInt = roundedDiv (value96 n) d.toInt round_down := by
  have hd64 : d.toInt64.toInt = d.toInt := Int32.toInt_toInt64 d
  have hD := Int32.toInt_lt d
  have hS := n.2.toNat_lt
  have hne : d.toInt64 ≠ -1 := fun h => by
    have := congrArg Int64.toInt h
    rw [hd64] at this
    have : (-1 : Int64).toInt = -1 := rfl
    omega
  have hguard : ¬ (d = 0 ∨ (d = -1 ∧ n.1 = Int64.minValue)) := by
    rintro (rfl | ⟨rfl, -⟩) <;> revert hd <;> decide
  -- the high word: `n.first = d * quot_high + rem`
  have hT : (n.1 / d.toInt64).toInt = n.1.toInt.tdiv d.toInt := by
    rw [Int64.toInt_div_of_ne_right _ _ hne, hd64]
  have hr : (n.1 % d.toInt64).toInt = n.1.toInt.tmod d.toInt := by rw [Int64.toInt_mod, hd64]
  have hrlt := Int.tmod_lt_of_pos n.1.toInt hd
  have hrgt := Int.lt_tmod_of_pos n.1.toInt hd
  have hsplit := Int.tmod_add_mul_tdiv n.1.toInt d.toInt
  -- `n_low = rem * 2^32 + n.second`, which fits
  have hshift : ((n.1 % d.toInt64) <<< 32).toInt = n.1.toInt.tmod d.toInt * 2 ^ 32 := by
    rw [int64_toInt_shiftLeft_32 (by rw [hr]; constructor <;> omega), hr]
  have hsecond : n.2.toUInt64.toInt64.toInt = n.2.toNat := by
    rw [uint64_toInt_toInt64 (by rw [UInt32.toNat_toUInt64]; omega), UInt32.toNat_toUInt64]
  have hlow : (((n.1 % d.toInt64) <<< 32) + n.2.toUInt64.toInt64).toInt =
      n.1.toInt.tmod d.toInt * 2 ^ 32 + n.2.toNat := by
    rw [int64_toInt_add (by rw [hshift, hsecond]; constructor <;> omega), hshift, hsecond]
  -- the rounded quotient splits into the high and the low part
  have hvalue : value96 n = (n.1.toInt.tmod d.toInt * 2 ^ 32 + n.2.toNat) +
      d.toInt * (n.1.toInt.tdiv d.toInt * 2 ^ 32) := by
    have hF : n.1.toInt * 2 ^ 32 = (n.1.toInt.tmod d.toInt + d.toInt * n.1.toInt.tdiv d.toInt) * 2 ^ 32 := by
      rw [hsplit]
    rw [value96, hF]
    ring
  have htotal : roundedDiv (value96 n) d.toInt round_down =
      roundedDiv (n.1.toInt.tmod d.toInt * 2 ^ 32 + n.2.toNat) d.toInt round_down +
        n.1.toInt.tdiv d.toInt * 2 ^ 32 := by
    rw [hvalue, roundedDiv_add_mul _ hd]
  -- bounds on the low quotient: within `2^32`, and of the sign of `rem`
  have hlowBound := roundedDiv_le_of_le (n := n.1.toInt.tmod d.toInt * 2 ^ 32 + n.2.toNat)
    (k := 2 ^ 32) hd (by omega) round_down
  have hhighBound := le_roundedDiv_of_le (n := n.1.toInt.tmod d.toInt * 2 ^ 32 + n.2.toNat)
    (k := -2 ^ 32) hd (by omega) round_down
  have hTfit : InRange 64 (n.1.toInt.tdiv d.toInt * 2 ^ 32) := by
    obtain ⟨hlo, hhi⟩ := hfit
    constructor
    · -- a quotient below `-2^31` needs `n.first < 0`, so `rem ≤ 0` and the low part is below `2^32`
      refine Int.not_lt.mp fun hneg => ?_
      have hTneg : n.1.toInt.tdiv d.toInt ≤ -1 := by omega
      have hmul : d.toInt * n.1.toInt.tdiv d.toInt ≤ d.toInt * -1 :=
        Int.mul_le_mul_of_nonneg_left hTneg (by omega)
      have hrem := tmod_nonpos d.toInt (show n.1.toInt ≤ 0 by omega)
      have hsmall := roundedDiv_le_of_le (n := n.1.toInt.tmod d.toInt * 2 ^ 32 + n.2.toNat)
        (k := 2 ^ 32 - 1) hd (by
          have : 1 * (2 ^ 32 - 1) ≤ d.toInt * (2 ^ 32 - 1) := Int.mul_le_mul_of_nonneg_right (by omega) (by omega)
          omega) round_down
      omega
    · -- a quotient of `2^31` or more needs `n.first > 0`, so `rem ≥ 0` and the low part is too
      refine Int.not_le.mp fun hpos => ?_
      have hTpos : 1 ≤ n.1.toInt.tdiv d.toInt := by omega
      have hmul : d.toInt * 1 ≤ d.toInt * n.1.toInt.tdiv d.toInt :=
        Int.mul_le_mul_of_nonneg_left hTpos (by omega)
      have hrem := Int.tmod_nonneg d.toInt (show 0 ≤ n.1.toInt by omega)
      have hnonneg := le_roundedDiv_of_le (n := n.1.toInt.tmod d.toInt * 2 ^ 32 + n.2.toNat)
        (k := 0) hd (by omega) round_down
      omega
  have hquotLow := toInt_div_add_correction (((n.1 % d.toInt64) <<< 32) + n.2.toUInt64.toInt64) hd
    round_down
  rw [hlow] at hquotLow
  have hshiftT : ((n.1 / d.toInt64) <<< 32).toInt = n.1.toInt.tdiv d.toInt * 2 ^ 32 := by
    rw [int64_toInt_shiftLeft_32 (by rw [hT]; exact hTfit), hT]
  rw [divFallback, if_neg hguard]
  dsimp only
  rw [hshiftT, hquotLow, if_pos (by rw [Int.add_comm, ← htotal]; exact hfit)]
  refine ⟨_, rfl, ?_⟩
  rw [int64_toInt_add (by rw [hshiftT, hquotLow, Int.add_comm, ← htotal]; exact hfit), hshiftT, hquotLow,
    Int.add_comm, htotal]

/-- `Div(n, d, round_down)` on `__int128` is `n / d` rounded down or up, wherever that fits in
`int64_t`: the truncated quotient then fits too, since it differs from the rounded one only
toward zero. -/
theorem div_eq (n : Int) {d : Int32} (hd : 0 < d.toInt) (round_down : Bool)
    (hfit : InRange 64 (roundedDiv n d.toInt round_down)) :
    ∃ q, div n d round_down = some q ∧ q.toInt = roundedDiv n d.toInt round_down := by
  have hD := Int32.toInt_lt d
  have hguard : ¬ (d = 0 ∨ (d = -1 ∧ n = -2 ^ 127)) := by
    rintro (rfl | ⟨rfl, -⟩) <;> revert hd <;> decide
  have hmlt := Int.tmod_lt_of_pos n hd
  have hmgt := Int.lt_tmod_of_pos n hd
  have hsplit := Int.tmod_add_mul_tdiv n d.toInt
  have hmod : (Int32.ofInt (n.tmod d.toInt)).toInt = n.tmod d.toInt := by
    rw [Int32.toInt_ofInt, show Int32.size = 2 ^ 32 from rfl]
    exact bmod_eq_of_inRange (by decide) ⟨by omega, by omega⟩
  have hR := tdiv_add_correction n hd round_down
  -- the truncated quotient fits: it is the rounded one moved by at most one toward zero
  have hTfit : InRange 64 (n.tdiv d.toInt) := by
    obtain ⟨hlo, hhi⟩ := hfit
    constructor
    · refine Int.not_lt.mp fun hneg => ?_
      have hpos : 0 < n.tmod d.toInt := by
        by_contra h
        rw [← hR] at hlo
        split at hlo <;> split at hlo <;> omega
      have hn : 0 < n := by
        by_contra h
        have := tmod_nonpos d.toInt (Int.not_lt.mp h)
        omega
      have hmul : d.toInt * n.tdiv d.toInt ≤ d.toInt * -1 :=
        Int.mul_le_mul_of_nonneg_left (by omega) (by omega)
      omega
    · refine Int.not_le.mp fun hbig => ?_
      have hneg : n.tmod d.toInt < 0 := by
        by_contra h
        rw [← hR] at hhi
        split at hhi <;> split at hhi <;> omega
      have hn : n < 0 := by
        by_contra h
        have := Int.tmod_nonneg d.toInt (Int.not_lt.mp h)
        omega
      have hmul : d.toInt * 1 ≤ d.toInt * n.tdiv d.toInt :=
        Int.mul_le_mul_of_nonneg_left (by omega) (by omega)
      omega
  have hquot : (Int64.ofInt (n.tdiv d.toInt)).toInt = n.tdiv d.toInt := by
    rw [Int64.toInt_ofInt, show Int64.size = 2 ^ 64 from rfl]
    exact bmod_eq_of_inRange (by decide) hTfit
  have hsum : (Int64.ofInt (n.tdiv d.toInt)).toInt + ((if Int32.ofInt (n.tmod d.toInt) > 0 then 1 else 0) -
      (if Int32.ofInt (n.tmod d.toInt) ≠ 0 ∧ round_down = true then 1 else 0) : Int64).toInt =
      roundedDiv n d.toInt round_down := by
    rw [hquot, toInt_correction, hmod, hR]
  rw [div, if_neg hguard]
  dsimp only
  rw [if_pos (by rw [hsum]; exact hfit)]
  exact ⟨_, rfl, by rw [int64_toInt_add (by rw [hsum]; exact hfit), hsum]⟩

-- ---------------------------------------------------------------------------
-- The fast path of EvaluateFee
-- ---------------------------------------------------------------------------

section FastPath

variable {f : FeeFrac} {at_size : Int32} (hsize : 0 < f.size.toInt) (hat : 0 ≤ at_size.toInt)
  (hle : at_size.toInt ≤ f.size.toInt) (hfee : 0 ≤ f.fee.toInt) (hfee' : f.fee.toInt < 2 ^ 33)
include hsize hat hle hfee hfee'

/-- The `uint64_t` path of `EvaluateFee` is `fee * at_size / size` rounded down or up: the
product is below `2^33 * 2^31`, and the quotient at most `fee`. -/
theorem evaluateFee_fast (RoundDown : Bool) :
    ∃ q, evaluateFee f RoundDown at_size = some q ∧
      q.toInt = roundedDiv (f.fee.toInt * at_size.toInt) f.size.toInt RoundDown := by
  have hS := Int32.toInt_lt f.size
  have hT := Int32.toInt_lt at_size
  have hguard : f.fee ≥ 0 ∧ f.fee < 0x200000000 :=
    ⟨by rwa [ge_iff_le, Int64.le_iff_toInt_le], by rwa [Int64.lt_iff_toInt_lt]⟩
  -- the operands as `uint64_t`, each equal to its signed value
  have ha : (f.fee.toUInt64.toNat : Int) = f.fee.toInt := by
    rw [int64_toNat_toUInt64, Int.emod_eq_of_lt hfee (by omega)]
  have hb : (at_size.toInt64.toUInt64.toNat : Int) = at_size.toInt := by
    rw [int64_toNat_toUInt64, Int32.toInt_toInt64, Int.emod_eq_of_lt hat (by omega)]
  have hsize0 : 0 ≤ f.size := by rw [Int32.le_iff_toInt_le]; exact hsize.le
  have hc : (f.size.toUInt32.toUInt64.toNat : Int) = f.size.toInt := by
    rw [UInt32.toNat_toUInt64, Int32.toNat_toUInt32_of_le hsize0, Int32.cast_toNatClampNeg _ hsize0]
  -- `fee * at_size < 2^33 * 2^31`: the product does not wrap
  have hN : f.fee.toUInt64.toNat * at_size.toInt64.toUInt64.toNat < 2 ^ 33 * 2 ^ 31 :=
    Nat.mul_lt_mul'' (by omega) (by omega)
  have hprod : (f.fee.toUInt64 * at_size.toInt64.toUInt64).toNat =
      f.fee.toUInt64.toNat * at_size.toInt64.toUInt64.toNat := by
    rw [UInt64.toNat_mul, Nat.mod_eq_of_lt (by omega)]
  have hR := roundedDiv_natCast (f.fee.toUInt64.toNat * at_size.toInt64.toUInt64.toNat)
    f.size.toUInt32.toUInt64.toNat (by omega) RoundDown
  rw [Int.natCast_mul, ha, hb, hc] at hR
  -- the quotient is at most `fee`, so it fits in `int64_t`
  have hbound : roundedDiv (f.fee.toInt * at_size.toInt) f.size.toInt RoundDown ≤ f.fee.toInt :=
    roundedDiv_le_of_le hsize (by rw [Int.mul_comm f.size.toInt]; exact Int.mul_le_mul_of_nonneg_left hle hfee) RoundDown
  rw [evaluateFee, if_pos hguard]
  cases RoundDown with
  | true =>
    rw [if_pos rfl] at hR
    have hC0 : f.size.toUInt32 ≠ 0 := fun h => by
      rw [h] at hc
      simp at hc
      omega
    have hq : (f.fee.toUInt64 * at_size.toInt64.toUInt64 / f.size.toUInt32.toUInt64).toNat =
        f.fee.toUInt64.toNat * at_size.toInt64.toUInt64.toNat / f.size.toUInt32.toUInt64.toNat := by
      rw [UInt64.toNat_div, hprod]
    refine ⟨_, by rw [if_pos rfl, if_neg hC0], ?_⟩
    rw [uint64_toInt_toInt64 (by rw [hq]; omega), hq, hR]
  | false =>
    simp only [Bool.false_eq_true, if_false] at hR
    have hCpos : f.size.toUInt32.toUInt64 > 0 := by
      rw [gt_iff_lt, UInt64.lt_iff_toNat_lt]
      simp only [UInt64.toNat_zero]
      omega
    -- `CeilDiv`: the quotient, plus one where the remainder is nonzero
    have hq : (f.fee.toUInt64 * at_size.toInt64.toUInt64 / f.size.toUInt32.toUInt64 +
        if f.fee.toUInt64 * at_size.toInt64.toUInt64 % f.size.toUInt32.toUInt64 ≠ 0 then 1 else 0).toNat =
        f.fee.toUInt64.toNat * at_size.toInt64.toUInt64.toNat / f.size.toUInt32.toUInt64.toNat +
          if f.fee.toUInt64.toNat * at_size.toInt64.toUInt64.toNat % f.size.toUInt32.toUInt64.toNat ≠ 0
          then 1 else 0 := by
      have hmod : f.fee.toUInt64 * at_size.toInt64.toUInt64 % f.size.toUInt32.toUInt64 ≠ 0 ↔
          f.fee.toUInt64.toNat * at_size.toInt64.toUInt64.toNat % f.size.toUInt32.toUInt64.toNat ≠ 0 := by
        rw [ne_eq, ← UInt64.toNat_inj, UInt64.toNat_mod, hprod]
        rfl
      have hdiv := UInt64.toNat_div (f.fee.toUInt64 * at_size.toInt64.toUInt64) f.size.toUInt32.toUInt64
      rw [hprod] at hdiv
      have hle := Nat.div_le_self (f.fee.toUInt64.toNat * at_size.toInt64.toUInt64.toNat)
        f.size.toUInt32.toUInt64.toNat
      rw [UInt64.toNat_add, hdiv]
      by_cases h : f.fee.toUInt64.toNat * at_size.toInt64.toUInt64.toNat % f.size.toUInt32.toUInt64.toNat ≠ 0
      · rw [if_pos (hmod.mpr h), if_pos h, UInt64.toNat_one, Nat.mod_eq_of_lt (by omega)]
      · rw [if_neg (mt hmod.mp h), if_neg h, UInt64.toNat_zero, Nat.mod_eq_of_lt (by omega)]
    refine ⟨_, by rw [if_neg (by decide), ceilDiv, if_pos hCpos]; rfl, ?_⟩
    rw [uint64_toInt_toInt64 (by rw [hq]; omega), hq, hR]

/-- On the fast path, `EvaluateFee`, `Div(Mul(fee, at_size), size, RoundDown)` and its fallback
`DivFallback(MulFallback(fee, at_size), size, RoundDown)` return the same value. -/
theorem evaluateFee_agrees (RoundDown : Bool) :
    ∃ q, evaluateFee f RoundDown at_size = some q ∧ div (mul f.fee at_size) f.size RoundDown = some q ∧
      divFallback (mulFallback f.fee at_size) f.size RoundDown = some q ∧
      q.toInt = roundedDiv (f.fee.toInt * at_size.toInt) f.size.toInt RoundDown := by
  obtain ⟨q, hq, hqv⟩ := evaluateFee_fast hsize hat hle hfee hfee' RoundDown
  -- the quotient is the value of an `int64_t`, so both `Div`s can return it
  have hfit : InRange 64 (roundedDiv (f.fee.toInt * at_size.toInt) f.size.toInt RoundDown) := by
    rw [← hqv]
    exact ⟨Int64.le_toInt q, Int64.toInt_lt q⟩
  obtain ⟨q₁, hq₁, hqv₁⟩ := div_eq (mul f.fee at_size) hsize RoundDown hfit
  obtain ⟨q₂, hq₂, hqv₂⟩ := divFallback_eq (mulFallback f.fee at_size) hsize RoundDown
    (by rwa [value96_mulFallback])
  rw [value96_mulFallback] at hqv₂
  refine ⟨q, hq, ?_, ?_, hqv⟩
  · rw [hq₁, Int64.toInt_inj.mp (hqv₁.trans hqv.symm)]
  · rw [hq₂, Int64.toInt_inj.mp (hqv₂.trans hqv.symm)]

end FastPath

/-- The 96-bit fallbacks of `util/feefrac.h` against the numbers they stand for: `MulFallback`
is exact and its pairs compare as the products do; `DivFallback` rounds down or up wherever the
quotient fits in `int64_t`; and the `uint64_t` fast path of `EvaluateFee` returns what both
`Div(Mul(fee, at_size), size, RoundDown)` and its fallback return. -/
theorem mul_div_fallbacks_exact :
    (∀ (a : Int64) (b : Int32), value96 (mulFallback a b) = a.toInt * b.toInt) ∧
    (∀ (a c : Int64) (b d : Int32),
      comparePair (mulFallback a b) (mulFallback c d) = compare (a.toInt * b.toInt) (c.toInt * d.toInt)) ∧
    (∀ (n : Int64 × UInt32) (d : Int32) (round_down : Bool), 0 < d.toInt →
      InRange 64 (roundedDiv (value96 n) d.toInt round_down) →
      ∃ q, divFallback n d round_down = some q ∧ q.toInt = roundedDiv (value96 n) d.toInt round_down) ∧
    (∀ (f : FeeFrac) (at_size : Int32) (RoundDown : Bool), 0 < f.size.toInt → 0 ≤ at_size.toInt →
      at_size.toInt ≤ f.size.toInt → 0 ≤ f.fee.toInt → f.fee.toInt < 2 ^ 33 →
      ∃ q, evaluateFee f RoundDown at_size = some q ∧ div (mul f.fee at_size) f.size RoundDown = some q ∧
        divFallback (mulFallback f.fee at_size) f.size RoundDown = some q ∧
        q.toInt = roundedDiv (f.fee.toInt * at_size.toInt) f.size.toInt RoundDown) :=
  ⟨value96_mulFallback, fun a c b d => comparePair_mulFallback a c b d,
    fun n _ round_down hd hfit => divFallback_eq n hd round_down hfit,
    fun _ _ RoundDown hsize hat hle hfee hfee' => evaluateFee_agrees hsize hat hle hfee hfee' RoundDown⟩

theorem mul_div_fallbacks_exact_fee_1000 :
    (∃ q, divFallback (mulFallback (-1000) 7) 3 false = some q ∧
      q.toInt = roundedDiv (value96 (mulFallback (-1000) 7)) (3 : Int32).toInt false) ∧
    (∃ q, evaluateFee ⟨1000, 10⟩ false 3 = some q ∧ div (mul 1000 3) 10 false = some q ∧
      divFallback (mulFallback 1000 3) 10 false = some q ∧
      q.toInt = roundedDiv ((1000 : Int64).toInt * (3 : Int32).toInt) (10 : Int32).toInt false) :=
  ⟨mul_div_fallbacks_exact.2.2.1 _ 3 false (by decide) (by decide),
    mul_div_fallbacks_exact.2.2.2 ⟨1000, 10⟩ 3 false (by decide) (by decide) (by decide) (by decide)
      (by decide)⟩

end FeeFrac

-- ---------------------------------------------------------------------------
-- CompareChunks
-- ---------------------------------------------------------------------------

/-- The locals of `CompareChunks` that change from pass to pass. -/
structure CompareState where
  next_index : Bool → Nat
  accum : Bool → FeeFrac
  better_somewhere : Bool → Bool

/-- How a pass of the loop of `CompareChunks` ends. -/
inductive CompareStep
  | finished
  | unordered
  | next (st : CompareState)

/-- `next_point(dia)`: the first unprocessed point of diagram `dia`. -/
def nextPoint (chunk : Bool → List FeeFrac) (st : CompareState) (dia : Bool) : Option FeeFrac :=
  ((chunk dia).getD (st.next_index dia) default).add? (st.accum dia)

/-- `advance(dia)`: `accum[dia] += chunk[dia][next_index[dia]++]`. -/
def advance (chunk : Bool → List FeeFrac) (st : CompareState) (dia : Bool) : Option CompareState := do
  let accum ← (st.accum dia).add? ((chunk dia).getD (st.next_index dia) default)
  pure { st with
    accum := Function.update st.accum dia accum,
    next_index := Function.update st.next_index dia (st.next_index dia + 1) }

/-- The comparison of the next point `P` of diagram `unproc` with the other diagram: the slope
from the other diagram's last processed point `A` to `P` against the slope of its segment `AB`,
or against a horizontal line when the other diagram is done (`oneDone`). A point `B` at the
size of `P` is marked processed as well. -/
def comparePoint (chunk : Bool → List FeeFrac) (st : CompareState) (unproc oneDone : Bool) :
    Option (Ordering × CompareState) := do
  let pointP ← nextPoint chunk st unproc
  let pointA := st.accum (!unproc)
  let slopeAP ← pointP.sub? pointA
  if oneDone then
    -- the other diagram has no points left: its tail is horizontal
    pure (FeeFrac.compareByRatio slopeAP ⟨0, 1⟩, st)
  else do
    let pointB ← nextPoint chunk st (!unproc)
    let slopeAB ← pointB.sub? pointA
    let st ← if pointB.size == pointP.size then advance chunk st (!unproc) else pure st
    pure (FeeFrac.compareByRatio slopeAP slopeAB, st)

/-- The flags after the comparison `cmp` at the next point of `unproc`: above the other
diagram there, `unproc` is better somewhere; below it, the other one is. -/
def markBetter (better : Bool → Bool) (unproc : Bool) (cmp : Ordering) : Bool → Bool :=
  let better := if cmp == .gt then Function.update better unproc true else better
  if cmp == .lt then Function.update better (!unproc) true else better

theorem markBetter_apply (better : Bool → Bool) (unproc : Bool) (cmp : Ordering) (d : Bool) :
    markBetter better unproc cmp d = (better d || (cmp == .gt && d == unproc) || (cmp == .lt && d == !unproc)) := by
  unfold markBetter
  cases cmp <;> cases d <;> cases unproc <;> simp [Function.update]

/-- The rest of a pass once the diagram `unproc` of the next point is chosen: compare, set the
flags, process the point, and return `unordered` if both diagrams are better somewhere. -/
def passFrom (chunk : Bool → List FeeFrac) (st : CompareState) (unproc oneDone : Bool) :
    Option CompareStep := do
  let (cmp, st) ← comparePoint chunk st unproc oneDone
  let st ← advance chunk { st with better_somewhere := markBetter st.better_somewhere unproc cmp } unproc
  return if st.better_somewhere false && st.better_somewhere true then .unordered else .next st

/-- One pass of the loop of `CompareChunks`. -/
def compareStep (chunk : Bool → List FeeFrac) (st : CompareState) : Option CompareStep := do
  let done0 := st.next_index false == (chunk false).length
  let done1 := st.next_index true == (chunk true).length
  if done0 && done1 then return .finished
  -- the diagram with the first unprocessed point; if one side is done, the other one
  let unproc ← if done0 || done1 then pure done0 else do
    let p0 ← nextPoint chunk st false
    let p1 ← nextPoint chunk st true
    pure (decide (p0.size > p1.size))
  passFrom chunk st unproc (done0 || done1)

/-- The loop of `CompareChunks`, with `fuel` passes left; after the loop the flags
`better_somewhere` are compared. -/
def compareLoop (chunk : Bool → List FeeFrac) : Nat → CompareState → Option PartialOrdering
  | 0, st => some (PartialOrdering.ofBool (st.better_somewhere false) (st.better_somewhere true))
  | fuel + 1, st => do
    match ← compareStep chunk st with
    | .finished => pure (PartialOrdering.ofBool (st.better_somewhere false) (st.better_somewhere true))
    | .unordered => pure .unordered
    | .next st' => compareLoop chunk fuel st'

/-- The state before the loop: nothing processed, and no side better anywhere. -/
def CompareState.initial : CompareState :=
  { next_index := fun _ => 0, accum := fun _ => default, better_somewhere := fun _ => false }

/-- `CompareChunks(chunks0, chunks1)`. -/
def compareChunks (chunks0 chunks1 : List FeeFrac) : Option PartialOrdering :=
  compareLoop (fun dia => if dia then chunks1 else chunks0) (chunks0.length + chunks1.length)
    CompareState.initial

end Riecoin
