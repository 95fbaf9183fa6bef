-- SUMMARY: Numbers stored as fixed-width digits, least significant first: their value, its bits, its low digits and its bit length.
import Mathlib.Data.Nat.Size
import Mathlib.Tactic.Ring

/-!
# Limbs

A big integer held in an array of `w`-bit machine words, least significant first, denotes
`value w d n`, where `d i` is word `i` and `n` the number of words. Loops over such an array
(shifts that move bits across words, scans for the top set bit, reads of the low words) are
proved against that number with three facts: bit `i` of the value is bit `i % w` of word
`i / w` (`testBit_value`), the low `k` words are the value modulo `2 ^ (w * k)`
(`value_mod_two_pow`), and the bit length is fixed by the most significant nonzero word
(`size_value_succ`). Shifts move the bit length by the shift (`size_mul_two_pow`,
`size_div_two_pow`), so bounds on shifted values become linear facts about bit lengths.
-/

namespace Limbs

/-- The number whose `n` low base-`2 ^ w` digits, least significant first, are
`d 0, ..., d (n - 1)`. -/
def value (w : Nat) (d : Nat → Nat) : Nat → Nat
  | 0 => 0
  | n + 1 => 2 ^ (w * n) * d n + value w d n

variable {w : Nat} {d : Nat → Nat}

@[simp] theorem value_zero : value w d 0 = 0 := rfl

theorem value_succ (n : Nat) : value w d (n + 1) = 2 ^ (w * n) * d n + value w d n := rfl

/-- A nonzero top digit fixes the bit length: the digits below it only fill the low `k`
bits. -/
theorem size_two_pow_mul_add {k x low : Nat} (hx : x ≠ 0) (hlow : low < 2 ^ k) :
    (2 ^ k * x + low).size = k + x.size := by
  have hsize : x < 2 ^ x.size := Nat.lt_size_self x
  have hpos : 0 < x.size := Nat.size_pos.mpr (Nat.pos_of_ne_zero hx)
  have htop : 2 ^ (x.size - 1) ≤ x := Nat.lt_size.mp (by omega)
  apply le_antisymm
  · rw [Nat.size_le, Nat.pow_add]
    calc 2 ^ k * x + low < 2 ^ k * x + 2 ^ k := by omega
      _ = 2 ^ k * (x + 1) := by ring
      _ ≤ 2 ^ k * 2 ^ x.size := Nat.mul_le_mul_left _ hsize
  · rw [show k + x.size = k + (x.size - 1) + 1 by omega, Nat.succ_le_iff, Nat.lt_size,
      Nat.pow_add]
    calc 2 ^ k * 2 ^ (x.size - 1) ≤ 2 ^ k * x := Nat.mul_le_mul_left _ htop
      _ ≤ 2 ^ k * x + low := Nat.le_add_right _ _

/-- Shifting left by `k` adds `k` to the bit length of a nonzero number. -/
theorem size_mul_two_pow {n : Nat} (hn : n ≠ 0) (k : Nat) : (n * 2 ^ k).size = n.size + k := by
  rw [← Nat.shiftLeft_eq]
  exact Nat.size_shiftLeft hn k

/-- Shifting right by `k` takes `k` off the bit length. -/
theorem size_div_two_pow (n k : Nat) : (n / 2 ^ k).size = n.size - k := by
  have hsize : n < 2 ^ n.size := Nat.lt_size_self n
  apply le_antisymm
  · rw [Nat.size_le, Nat.div_lt_iff_lt_mul (Nat.two_pow_pos k), ← Nat.pow_add]
    exact lt_of_lt_of_le hsize (Nat.pow_le_pow_right (by decide) (by omega))
  · by_cases hk : n.size ≤ k
    · omega
    · -- the top bit of `n` survives the shift
      have htop : 2 ^ (n.size - 1) ≤ n := Nat.lt_size.mp (by omega)
      rw [show n.size - k = n.size - k - 1 + 1 by omega, Nat.succ_le_iff, Nat.lt_size,
        Nat.le_div_iff_mul_le (Nat.two_pow_pos k), ← Nat.pow_add,
        show n.size - k - 1 + k = n.size - 1 by omega]
      exact htop

/-- The value reads only the `n` digits it counts. -/
theorem value_congr {e : Nat → Nat} {n : Nat} (h : ∀ i, i < n → e i = d i) :
    value w e n = value w d n := by
  induction n with
  | zero => rfl
  | succ n ih =>
    rw [value_succ, value_succ, h n (by omega), ih (fun i hi => h i (by omega))]

/-- Digits that are zero from `k` on add nothing past the first `k`. -/
theorem value_eq_of_zero_from {k n : Nat} (hk : k ≤ n) (h : ∀ i, k ≤ i → i < n → d i = 0) :
    value w d n = value w d k := by
  induction n, hk using Nat.le_induction with
  | base => rfl
  | succ n hkn ih =>
    rw [value_succ, h n hkn (by omega), Nat.mul_zero, Nat.zero_add,
      ih (fun i hki hi => h i hki (by omega))]

/-- Writing digit `j` moves the value by the change of that digit, scaled by its place. -/
theorem value_update {e : Nat → Nat} {j n : Nat} (hj : j < n)
    (h : ∀ i, i ≠ j → e i = d i) :
    value w e n + 2 ^ (w * j) * d j = value w d n + 2 ^ (w * j) * e j := by
  induction n with
  | zero => omega
  | succ n ih =>
    rw [value_succ, value_succ]
    by_cases hn : j = n
    · -- the written digit is the top one; the ones below agree
      subst hn
      rw [value_congr (fun i hi => h i (by omega))]
      omega
    · rw [h n (Ne.symm hn)]
      have := ih (by omega)
      omega

section Bounded

-- Every digit fits in `w` bits, as every word of a machine array does.
variable (hd : ∀ i, d i < 2 ^ w)
include hd

theorem value_lt (n : Nat) : value w d n < 2 ^ (w * n) := by
  induction n with
  | zero => simp
  | succ n ih =>
    have hdn : d n + 1 ≤ 2 ^ w := hd n
    calc value w d (n + 1) = 2 ^ (w * n) * d n + value w d n := rfl
      _ < 2 ^ (w * n) * d n + 2 ^ (w * n) := by omega
      _ = 2 ^ (w * n) * (d n + 1) := by ring
      _ ≤ 2 ^ (w * n) * 2 ^ w := Nat.mul_le_mul_left _ hdn
      _ = 2 ^ (w * (n + 1)) := by rw [← Nat.pow_add, Nat.mul_succ]

/-- Bit `i` of the value is bit `i % w` of digit `i / w`, for the `n` digits there are. -/
theorem testBit_value (hw : 0 < w) (n i : Nat) :
    (value w d n).testBit i = (decide (i / w < n) && (d (i / w)).testBit (i % w)) := by
  have hdiv : w * (i / w) + i % w = i := Nat.div_add_mod i w
  have hmod : i % w < w := Nat.mod_lt i hw
  induction n with
  | zero => simp
  | succ n ih =>
    rw [value_succ, Nat.testBit_two_pow_mul_add _ (value_lt hd n)]
    by_cases hlow : i < w * n
    · -- a bit of the digits below `n`
      have hq : i / w < n := Nat.div_lt_of_lt_mul hlow
      simp [hlow, ih, hq, show i / w < n + 1 by omega]
    · rw [if_neg hlow]
      have hq : n ≤ i / w := (Nat.le_div_iff_mul_le hw).mpr (by rw [Nat.mul_comm]; omega)
      rcases Nat.eq_or_lt_of_le hq with hq | hq
      · -- a bit of digit `n` itself
        subst hq
        simp [show i - w * (i / w) = i % w by omega]
      · -- above the top digit every bit is clear
        have hpast : w ≤ i - w * n := by
          have : w * (n + 1) ≤ w * (i / w) := Nat.mul_le_mul_left w hq
          rw [Nat.mul_succ] at this
          omega
        have hzero : (d n).testBit (i - w * n) = false :=
          Nat.testBit_lt_two_pow (lt_of_lt_of_le (hd n) (Nat.pow_le_pow_right (by decide) hpast))
        simp [hzero, show ¬i / w < n + 1 by omega]

/-- The low `k` digits of the value are the value of the first `k` digits. -/
theorem value_mod_two_pow {k n : Nat} (hk : k ≤ n) :
    value w d n % 2 ^ (w * k) = value w d k := by
  induction n, hk using Nat.le_induction with
  | base => exact Nat.mod_eq_of_lt (value_lt hd k)
  | succ n hkn ih =>
    -- digit `n` sits above the low `k` digits, a multiple of `2 ^ (w * k)`
    have hsplit : 2 ^ (w * n) * d n = 2 ^ (w * (n - k)) * d n * 2 ^ (w * k) := by
      rw [Nat.mul_right_comm, ← Nat.pow_add, ← Nat.mul_add, Nat.sub_add_cancel hkn]
    rw [value_succ, hsplit, Nat.add_comm, Nat.add_mul_mod_self_right, ih]

/-- The bit length grows with the top digit when it is nonzero, and is that of the digits
below it otherwise. -/
theorem size_value_succ (n : Nat) :
    (value w d (n + 1)).size = if d n = 0 then (value w d n).size else w * n + (d n).size := by
  rw [value_succ]
  by_cases h0 : d n = 0
  · simp [h0]
  · rw [if_neg h0, size_two_pow_mul_add h0 (value_lt hd n)]

/-- The digit-wise complement `2 ^ w - 1 - d i` denotes `2 ^ (w * n) - 1 - value`. -/
theorem value_complement (n : Nat) :
    value w (fun i => 2 ^ w - 1 - d i) n + value w d n + 1 = 2 ^ (w * n) := by
  induction n with
  | zero => simp
  | succ n ih =>
    have hdn := hd n
    rw [value_succ, value_succ, Nat.mul_succ, Nat.pow_add]
    -- the top digits add up to `2 ^ w - 1`, the lower ones to `2 ^ (w * n) - 1`
    have htop : 2 ^ (w * n) * (2 ^ w - 1 - d n) + 2 ^ (w * n) * d n + 2 ^ (w * n) =
        2 ^ (w * n) * 2 ^ w := by
      rw [← Nat.mul_add, ← Nat.mul_succ]
      congr 1
      omega
    omega

/-- Numbers that agree above digit `n` compare as their top differing digit: a larger digit
`n` outweighs every digit below it. -/
theorem value_succ_lt_of_lt {e : Nat → Nat} {n : Nat} (h : d n < e n) :
    value w d (n + 1) < value w e (n + 1) := by
  have hlow := value_lt hd n
  have hstep : 2 ^ (w * n) * (d n + 1) ≤ 2 ^ (w * n) * e n := Nat.mul_le_mul_left _ h
  rw [Nat.mul_succ] at hstep
  rw [value_succ, value_succ]
  omega

end Bounded

end Limbs
