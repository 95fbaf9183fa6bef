-- SUMMARY: Signed w-bit integer arithmetic as C++ evaluates it: exact results where they fit, none where an operation overflows or divides by zero, truncating division, the modular conversion from unsigned values, and the conversions of rounded floating values.
import Mathlib.Tactic.Basic
import Mathlib.Algebra.Group.Int.Defs
import Mathlib.Algebra.Group.Nat.Defs
import Mathlib.Algebra.Order.Floor.Defs
import Mathlib.Algebra.Order.Field.Basic

/-!
# Checked signed arithmetic

C++ leaves signed overflow and division by zero undefined. A signed `w`-bit operation is
modelled by its exact result over `Int` when that fits in `w` bits (`InRange`) and by `none`
otherwise (`add?`, `sub?`, `mul?`, `div?`); `/` truncates toward zero (`Int.tdiv`). A
computation that chains such operations in `Option` is defined exactly when every
intermediate value fits, and then it is the exact computation: the `_eq` lemmas say so,
one operation at a time. `wrap` is the conversion of an unsigned value into the signed
type (two's complement, as C++20 defines it).

A floating-point computation is read exactly in an ordered field with a floor; its integral
results reach the integer types through `round` (`roundHalfAway`) or `ceil` and a conversion
that is undefined outside the target's range (`ofInt?` for a signed type, `toUnsigned?` for an
unsigned one).
-/

namespace CheckedInt

/-- `x` fits in a signed `w`-bit integer. -/
def InRange (w : Nat) (x : Int) : Prop := -2 ^ (w - 1) ≤ x ∧ x < 2 ^ (w - 1)

instance (w : Nat) (x : Int) : Decidable (InRange w x) :=
  inferInstanceAs (Decidable (_ ∧ _))

/-- The exact result `x` of a signed `w`-bit operation, or `none` where it overflows. -/
def ofInt? (w : Nat) (x : Int) : Option Int := if InRange w x then some x else none

def add? (w : Nat) (a b : Int) : Option Int := ofInt? w (a + b)

def sub? (w : Nat) (a b : Int) : Option Int := ofInt? w (a - b)

def mul? (w : Nat) (a b : Int) : Option Int := ofInt? w (a * b)

/-- `a / b`, truncating toward zero; `none` for `b = 0` and where the quotient overflows. -/
def div? (w : Nat) (a b : Int) : Option Int := if b = 0 then none else ofInt? w (a.tdiv b)

/-- An unsigned value stored in a signed `w`-bit integer. -/
def wrap (w : Nat) (n : Nat) : Int := Int.bmod n (2 ^ w)

variable {w : Nat} {a b x : Int}

theorem ofInt?_eq (h : InRange w x) : ofInt? w x = some x := if_pos h

/-- `InRange` at the widths of `int` and `int64_t`, with the bounds written out for `omega`. -/
theorem inRange_32 (h1 : -2147483648 ≤ x) (h2 : x < 2147483648) : InRange 32 x := by
  unfold InRange
  norm_num
  exact ⟨h1, h2⟩

theorem inRange_64 (h1 : -9223372036854775808 ≤ x) (h2 : x < 9223372036854775808) :
    InRange 64 x := by
  unfold InRange
  norm_num
  exact ⟨h1, h2⟩

theorem add?_eq (h : InRange w (a + b)) : add? w a b = some (a + b) := ofInt?_eq h

theorem sub?_eq (h : InRange w (a - b)) : sub? w a b = some (a - b) := ofInt?_eq h

theorem mul?_eq (h : InRange w (a * b)) : mul? w a b = some (a * b) := ofInt?_eq h

theorem div?_eq (hb : b ≠ 0) (h : InRange w (a.tdiv b)) : div? w a b = some (a.tdiv b) := by
  unfold div?
  rw [if_neg hb, ofInt?_eq h]

/-- A value that fits is stored unchanged. -/
theorem wrap_eq {n : Nat} (h : n < 2 ^ (w - 1)) (hw : 0 < w) : wrap w n = n := by
  have hpow : 2 ^ w = 2 * 2 ^ (w - 1) := by
    obtain ⟨k, rfl⟩ : ∃ k, w = k + 1 := ⟨w - 1, by omega⟩
    rw [Nat.add_sub_cancel, Nat.pow_succ, Nat.mul_comm]
  have hlt : n * 2 < 2 ^ w := by omega
  apply Int.bmod_eq_of_le_mul_two
  · omega
  · exact_mod_cast hlt

/-- The `w` low bits of a value that fits, stored in the signed type, are the value: the
conversion `int64_t(uint64_t(x))` of a serialized amount. -/
theorem wrap_toNat_emod (hw : 0 < w) (h : InRange w x) : wrap w (x % (2 ^ w : Nat)).toNat = x := by
  have hpow : (2 ^ w : Nat) = 2 * 2 ^ (w - 1) := by
    obtain ⟨k, rfl⟩ : ∃ k, w = k + 1 := ⟨w - 1, by omega⟩
    rw [Nat.add_sub_cancel, Nat.pow_succ, Nat.mul_comm]
  have hpos : ((2 ^ w : Nat) : Int) ≠ 0 := by
    have := Nat.two_pow_pos w
    omega
  have hnonneg : 0 ≤ x % (2 ^ w : Nat) := Int.emod_nonneg x hpos
  -- the range of `InRange` is half the modulus on each side of zero
  have hmod : ((2 ^ w : Nat) : Int) = 2 * 2 ^ (w - 1) := by
    rw [hpow, Int.natCast_mul, Int.natCast_pow]
    rfl
  obtain ⟨hlo, hhi⟩ := h
  rw [wrap, Int.toNat_of_nonneg hnonneg, Int.emod_bmod]
  apply Int.bmod_eq_of_le_mul_two
  · rw [hmod]
    omega
  · rw [hmod]
    omega

/-- A stored unsigned value keeps its `w` low bits. -/
theorem toNat_wrap_emod {n : Nat} (hn : n < 2 ^ w) : (wrap w n % (2 ^ w : Nat)).toNat = n := by
  rw [wrap, Int.bmod_emod, ← Int.natCast_emod, Int.toNat_natCast, Nat.mod_eq_of_lt hn]

/-- A truncated quotient is no larger in magnitude than the dividend divided by any lower
bound of the divisor's magnitude. -/
theorem natAbs_tdiv_le {a b : Int} {d : Nat} (hd : 0 < d) (hb : d ≤ b.natAbs) :
    (a.tdiv b).natAbs ≤ a.natAbs / d := by
  rw [Int.natAbs_tdiv]
  exact Nat.div_le_div_left hb hd

-- ---------------------------------------------------------------------------
-- The machine types
-- ---------------------------------------------------------------------------

/-- A value that fits is its own balanced residue: the wrapping operations of `Int64` and
`Int32` give the exact result where it fits. -/
theorem bmod_eq_of_inRange (hw : 0 < w) (h : InRange w x) : x.bmod (2 ^ w) = x := by
  have hpow : ((2 ^ w : Nat) : Int) = 2 * 2 ^ (w - 1) := by
    obtain ⟨k, rfl⟩ : ∃ k, w = k + 1 := ⟨w - 1, by omega⟩
    rw [Nat.add_sub_cancel, Nat.pow_succ, Nat.mul_comm, Int.natCast_mul, Int.natCast_pow]
    rfl
  obtain ⟨hlo, hhi⟩ := h
  apply Int.bmod_eq_of_le_mul_two
  · rw [hpow]
    omega
  · rw [hpow]
    omega

theorem int64_toInt_add {a b : Int64} (h : InRange 64 (a.toInt + b.toInt)) :
    (a + b).toInt = a.toInt + b.toInt := by
  rw [Int64.toInt_add, bmod_eq_of_inRange (by decide) h]

theorem int64_toInt_sub {a b : Int64} (h : InRange 64 (a.toInt - b.toInt)) :
    (a - b).toInt = a.toInt - b.toInt := by
  rw [Int64.toInt_sub, bmod_eq_of_inRange (by decide) h]

theorem int32_toInt_add {a b : Int32} (h : InRange 32 (a.toInt + b.toInt)) :
    (a + b).toInt = a.toInt + b.toInt := by
  rw [Int32.toInt_add, bmod_eq_of_inRange (by decide) h]

theorem int32_toInt_sub {a b : Int32} (h : InRange 32 (a.toInt - b.toInt)) :
    (a - b).toInt = a.toInt - b.toInt := by
  rw [Int32.toInt_sub, bmod_eq_of_inRange (by decide) h]

theorem int64_toInt_mul {a b : Int64} (h : InRange 64 (a.toInt * b.toInt)) :
    (a * b).toInt = a.toInt * b.toInt := by
  rw [Int64.toInt_mul, bmod_eq_of_inRange (by decide) h]

/-- `>>` on `int64_t` is the arithmetic shift: division by `2 ^ 32` rounded down. -/
theorem int64_toInt_shiftRight_32 (a : Int64) : (a >>> 32).toInt = a.toInt / 2 ^ 32 := by
  show (BitVec.sshiftRight' a.toBitVec ((32 : Int64).toBitVec.smod 64)).toInt = _
  rw [BitVec.toInt_sshiftRight', Int.shiftRight_eq_div_pow]
  rfl

/-- The unsigned reinterpretation of an `int64_t` is its residue modulo `2 ^ 64`. -/
theorem int64_toNat_toUInt64 (x : Int64) : (x.toUInt64.toNat : Int) = x.toInt % 2 ^ 64 := by
  have hlt : x.toUInt64.toNat < 2 ^ 64 := x.toUInt64.toNat_lt
  show (x.toBitVec.toNat : Int) = x.toBitVec.toInt % 2 ^ 64
  rw [BitVec.toInt_eq_toNat_bmod, show (2 ^ 64 : Int) = ((2 ^ 64 : Nat) : Int) by norm_cast,
    Int.bmod_emod, Int.emod_eq_of_lt (by omega) (by exact_mod_cast hlt)]

/-- `<<` on `int64_t` multiplies by `2 ^ 32` modulo `2 ^ 64` (C++20); exactly, where that fits. -/
theorem int64_toInt_shiftLeft_32 {a : Int64} (h : InRange 64 (a.toInt * 2 ^ 32)) :
    (a <<< 32).toInt = a.toInt * 2 ^ 32 := by
  have hshift : (a <<< 32).toInt = (a.toInt * 2 ^ 32).bmod (2 ^ 64) := by
    show (a.toBitVec <<< ((32 : Int64).toBitVec.smod 64)).toInt = _
    rw [BitVec.shiftLeft_eq', BitVec.shiftLeft_eq_mul_twoPow, BitVec.toInt_mul]
    congr 2
  rw [hshift, bmod_eq_of_inRange (by decide) h]

/-- An unsigned value below `2 ^ 63` keeps its value in `int64_t`. -/
theorem uint64_toInt_toInt64 {u : UInt64} (h : u.toNat < 2 ^ 63) : u.toInt64.toInt = u.toNat := by
  show u.toBitVec.toInt = _
  rw [BitVec.toInt_eq_toNat_bmod]
  exact bmod_eq_of_inRange (by decide) ⟨by omega, by exact_mod_cast h⟩

-- ---------------------------------------------------------------------------
-- Rounded division
-- ---------------------------------------------------------------------------

/-- `n / d` rounded toward negative infinity (`round_down`) or toward positive infinity; `/` on
`Int` rounds down for a positive divisor. -/
def roundedDiv (n d : Int) (round_down : Bool) : Int :=
  if round_down then n / d else -(-n / d)

/-- The rounded quotient is the `q` with `d * q ≤ n < d * q + d` (down) or
`d * q - d < n ≤ d * q` (up). -/
theorem roundedDiv_eq_of {n d q : Int} {round_down : Bool} (hd : 0 < d)
    (hdown : round_down = true → d * q ≤ n ∧ n < d * q + d)
    (hup : round_down = false → d * q - d < n ∧ n ≤ d * q) : roundedDiv n d round_down = q := by
  cases round_down with
  | true =>
    obtain ⟨hlo, hhi⟩ := hdown rfl
    exact ((Int.ediv_emod_unique (r := n - d * q) hd).mpr ⟨by omega, by omega, by omega⟩).1
  | false =>
    obtain ⟨hlo, hhi⟩ := hup rfl
    have hq : -n / d = -q := ((Int.ediv_emod_unique hd).mpr
      ⟨show -n + d * q + d * -q = -n by rw [Int.mul_neg]; omega, by omega, by omega⟩).1
    show -(-n / d) = q
    rw [hq, Int.neg_neg]

theorem roundedDiv_spec (n : Int) {d : Int} (hd : 0 < d) (round_down : Bool) :
    (round_down = true → d * roundedDiv n d round_down ≤ n ∧ n < d * roundedDiv n d round_down + d) ∧
      (round_down = false → d * roundedDiv n d round_down - d < n ∧ n ≤ d * roundedDiv n d round_down) := by
  constructor
  · rintro rfl
    have h1 := Int.mul_ediv_add_emod n d
    have h2 := Int.emod_nonneg n (Int.ne_of_gt hd)
    have h3 := Int.emod_lt_of_pos n hd
    show d * (n / d) ≤ n ∧ n < d * (n / d) + d
    omega
  · rintro rfl
    have h1 := Int.mul_ediv_add_emod (-n) d
    have h2 := Int.emod_nonneg (-n) (Int.ne_of_gt hd)
    have h3 := Int.emod_lt_of_pos (-n) hd
    show d * -(-n / d) - d < n ∧ n ≤ d * -(-n / d)
    rw [Int.mul_neg]
    omega

/-- Rounded either way, `n / d` is at most `k` when `n ≤ d * k`. -/
theorem roundedDiv_le_of_le {n d k : Int} (hd : 0 < d) (h : n ≤ d * k) (round_down : Bool) :
    roundedDiv n d round_down ≤ k := by
  obtain ⟨hdown, hup⟩ := roundedDiv_spec n hd round_down
  refine Int.not_lt.mp fun hlt => ?_
  have hmul : d * (k + 1) ≤ d * roundedDiv n d round_down := Int.mul_le_mul_of_nonneg_left hlt (by omega)
  rw [Int.mul_add, Int.mul_one] at hmul
  cases round_down with
  | true => have := (hdown rfl).1; omega
  | false => have := (hup rfl).1; omega

/-- Rounded either way, `n / d` is at least `k` when `d * k ≤ n`. -/
theorem le_roundedDiv_of_le {n d k : Int} (hd : 0 < d) (h : d * k ≤ n) (round_down : Bool) :
    k ≤ roundedDiv n d round_down := by
  obtain ⟨hdown, hup⟩ := roundedDiv_spec n hd round_down
  refine Int.not_lt.mp fun hlt => ?_
  have hmul : d * (roundedDiv n d round_down + 1) ≤ d * k := Int.mul_le_mul_of_nonneg_left hlt (by omega)
  rw [Int.mul_add, Int.mul_one] at hmul
  cases round_down with
  | true => have := (hdown rfl).2; omega
  | false => have := (hup rfl).2; omega

/-- On naturals, rounding down is `/`, and rounding up adds one for a nonzero remainder. -/
theorem roundedDiv_natCast (a c : Nat) (hc : 0 < c) (round_down : Bool) :
    roundedDiv a c round_down =
      ((if round_down then a / c else a / c + if a % c ≠ 0 then 1 else 0 : Nat) : Int) := by
  have hsplit := Nat.div_add_mod a c
  have hlt := Nat.mod_lt a hc
  generalize a / c = q at hsplit ⊢
  apply roundedDiv_eq_of (by omega)
  · rintro rfl
    simp only [if_true]
    omega
  · rintro rfl
    simp only [Bool.false_eq_true, if_false]
    -- the remainder decides whether the quotient is bumped
    split <;> push_cast <;> simp only [Int.mul_add, Int.mul_one, Int.add_zero] <;> omega

/-- Adding a multiple of `d` moves the rounded quotient by the multiplier. -/
theorem roundedDiv_add_mul (n : Int) {d : Int} (hd : 0 < d) (k : Int) (round_down : Bool) :
    roundedDiv (n + d * k) d round_down = roundedDiv n d round_down + k := by
  obtain ⟨hdown, hup⟩ := roundedDiv_spec n hd round_down
  apply roundedDiv_eq_of hd
  · intro h
    obtain ⟨hlo, hhi⟩ := hdown h
    rw [Int.mul_add]
    omega
  · intro h
    obtain ⟨hlo, hhi⟩ := hup h
    rw [Int.mul_add]
    omega

/-- The truncated remainder has the sign of the dividend. -/
theorem tmod_nonpos {a : Int} (b : Int) (ha : a ≤ 0) : a.tmod b ≤ 0 := by
  have := Int.tmod_nonneg b (Int.neg_nonneg_of_nonpos ha)
  rw [Int.neg_tmod] at this
  omega

/-- C++ division truncates toward zero; adding `(mod > 0) - (mod && round_down)` for the
remainder `mod` rounds it down or up. -/
theorem tdiv_add_correction (n : Int) {d : Int} (hd : 0 < d) (round_down : Bool) :
    n.tdiv d + ((if 0 < n.tmod d then 1 else 0) - (if n.tmod d ≠ 0 ∧ round_down = true then 1 else 0)) =
      roundedDiv n d round_down := by
  have hsum := Int.tmod_add_mul_tdiv n d
  have hlt := Int.tmod_lt_of_pos n hd
  have hgt := Int.lt_tmod_of_pos n hd
  -- the remainder has the sign of `n`
  have hsign : (0 ≤ n → 0 ≤ n.tmod d) ∧ (n ≤ 0 → n.tmod d ≤ 0) := ⟨Int.tmod_nonneg d, tmod_nonpos d⟩
  symm
  apply roundedDiv_eq_of hd
  · rintro rfl
    rw [Int.mul_add, Int.mul_sub]
    split <;> split <;> simp_all <;> omega
  · rintro rfl
    rw [Int.mul_add, Int.mul_sub]
    split <;> split <;> simp_all <;> omega

-- ---------------------------------------------------------------------------
-- Conversions of floating values
-- ---------------------------------------------------------------------------

section Floating

variable {D : Type} [Field D] [LinearOrder D] [IsStrictOrderedRing D] [FloorRing D]

/-- C's `round`: the nearest integer, halfway cases away from zero. -/
def roundHalfAway (x : D) : Int := if x < 0 then -⌊-x + 1 / 2⌋ else ⌊x + 1 / 2⌋

/-- The conversion of an integral floating value to a `w`-bit unsigned type: `none` (undefined)
outside `[0, 2 ^ w)`. -/
def toUnsigned? (w : Nat) (v : Int) : Option Nat := if 0 ≤ v ∧ v < 2 ^ w then some v.toNat else none

theorem ofInt?_eq_some {y : Int} (h : ofInt? w x = some y) : InRange w x ∧ y = x := by
  unfold ofInt? at h
  by_cases hx : InRange w x
  · rw [if_pos hx] at h
    exact ⟨hx, (Option.some.inj h).symm⟩
  · rw [if_neg hx] at h
    cases h

theorem toUnsigned?_eq_some {v : Int} {n : Nat} (h : toUnsigned? w v = some n) :
    0 ≤ v ∧ v < 2 ^ w ∧ n = v.toNat := by
  unfold toUnsigned? at h
  by_cases hv : 0 ≤ v ∧ v < 2 ^ w
  · rw [if_pos hv] at h
    exact ⟨hv.1, hv.2, (Option.some.inj h).symm⟩
  · rw [if_neg hv] at h
    cases h

end Floating

end CheckedInt
