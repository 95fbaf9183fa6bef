-- SUMMARY: The lowest and the highest set bit of a bit vector (std::countr_zero and std::bit_width) and how v & (v - 1) clears the lowest one.
import Mathlib.Data.Nat.Size
import Mathlib.Algebra.Group.Nat.Defs

/-!
# Scanning the bits of a bit vector

`countrZero v` is `std::countr_zero`: the number of zero bits below the lowest set bit of `v`,
`w` for zero. `bitWidth v` is `std::bit_width`: one more than the highest set bit, `0` for
zero. For non-zero `v`, `countrZero_spec` and `bitWidth_spec` say which bits these find, and
`getLsbD_and_sub_one` that `v & (v - 1)` is `v` without its lowest set bit.
-/

namespace BitScan

variable {w : Nat}

/-- `std::countr_zero(v)`. -/
def countrZero (v : BitVec w) : Nat := ((List.range w).find? fun j => v.getLsbD j).getD w

/-- `std::bit_width(v)`. -/
def bitWidth (v : BitVec w) : Nat := v.toNat.size

theorem eq_zero_iff_getLsbD (x : BitVec w) : x = 0 ↔ ∀ j < w, x.getLsbD j = false := by
  constructor
  · rintro rfl j _
    exact BitVec.getLsbD_zero
  · intro h
    exact BitVec.eq_of_getLsbD_eq fun j hj => by simp [h j hj]

/-- A bit vector is non-zero exactly when one of its bits is set. -/
theorem exists_getLsbD_iff_ne_zero (x : BitVec w) : (∃ j < w, x.getLsbD j = true) ↔ x ≠ 0 := by
  rw [ne_eq, eq_zero_iff_getLsbD]
  simp

/-- The lowest set bit of a non-zero vector is at `countrZero v`, below `w`. -/
theorem countrZero_spec {v : BitVec w} (hv : v ≠ 0) :
    countrZero v < w ∧ v.getLsbD (countrZero v) = true ∧ ∀ j < countrZero v, v.getLsbD j = false := by
  cases hfind : (List.range w).find? (fun j => v.getLsbD j) with
  | none =>
    -- no set bit at all
    obtain ⟨j, hj, hbit⟩ := (exists_getLsbD_iff_ne_zero v).mpr hv
    have := List.find?_eq_none.mp hfind j (List.mem_range.mpr hj)
    exact absurd hbit (by simpa using this)
  | some t =>
    obtain ⟨hbit, hmem, hbelow⟩ := List.find?_range_eq_some.mp hfind
    rw [countrZero, hfind, Option.getD_some]
    exact ⟨List.mem_range.mp hmem, hbit, fun j hj => by simpa using hbelow j hj⟩

/-- A non-zero number is `2 ^ (t + 1) * q + 2 ^ t` at its lowest set bit `t`. -/
theorem eq_of_lowest_bit {n t : Nat} (hbit : n.testBit t = true) (hbelow : ∀ j < t, n.testBit j = false) :
    n = 2 ^ (t + 1) * (n / 2 ^ (t + 1)) + 2 ^ t := by
  have hlow : n % 2 ^ t = 0 :=
    Nat.eq_of_testBit_eq fun j => by
      rw [Nat.testBit_mod_two_pow, Nat.zero_testBit]
      by_cases hj : j < t
      · rw [hbelow j hj, Bool.and_false]
      · rw [decide_eq_false hj, Bool.false_and]
  have hmid : n / 2 ^ t % 2 = 1 := by
    have h := Nat.testBit_div_two_pow (n := t) n 0
    rw [Nat.zero_add, hbit] at h
    rwa [Nat.testBit_zero, decide_eq_true_eq] at h
  have hmod : n % 2 ^ (t + 1) = 2 ^ t := by
    rw [Nat.pow_succ, Nat.mod_mul, hlow, hmid, Nat.zero_add, Nat.mul_one]
  have := Nat.div_add_mod n (2 ^ (t + 1))
  omega

/-- `v & (v - 1)` clears the lowest set bit of a non-zero `v`. -/
theorem getLsbD_and_sub_one {v : BitVec w} (hv : v ≠ 0) (j : Nat) :
    (v &&& (v - 1)).getLsbD j = (v.getLsbD j && decide (j ≠ countrZero v)) := by
  obtain ⟨-, hbit, hbelow⟩ := countrZero_spec hv
  generalize countrZero v = t at hbit hbelow ⊢
  have hn : v.toNat = 2 ^ (t + 1) * (v.toNat / 2 ^ (t + 1)) + 2 ^ t := eq_of_lowest_bit hbit hbelow
  have hpos : 0 < w := by
    rcases Nat.eq_zero_or_pos w with rfl | h
    · exact absurd (BitVec.eq_of_getLsbD_eq (x := v) (y := 0) fun _ h => absurd h (Nat.not_lt_zero _)) hv
    · exact h
  -- `v - 1` keeps the bits above `t`, clears bit `t` and sets those below
  have hsub : (v - 1).toNat = 2 ^ (t + 1) * (v.toNat / 2 ^ (t + 1)) + (2 ^ t - 1) := by
    have hone : (1 : BitVec w).toNat = 1 := by simp [Nat.one_mod_two_pow hpos]
    have hle : (1 : BitVec w) ≤ v := by
      rw [BitVec.le_def, hone]
      have := Nat.one_le_two_pow (n := t)
      omega
    rw [BitVec.toNat_sub_of_le hle, hone]
    have := Nat.one_le_two_pow (n := t)
    omega
  have htlt : 2 ^ t < 2 ^ (t + 1) := Nat.pow_lt_pow_right (by decide) (by omega)
  generalize v.toNat / 2 ^ (t + 1) = q at hn hsub
  rw [BitVec.getLsbD_and, BitVec.getLsbD, BitVec.getLsbD, hsub, hn, Nat.testBit_two_pow_mul_add _ htlt,
    Nat.testBit_two_pow_mul_add _ (by omega)]
  by_cases hj : j < t + 1
  · rw [if_pos hj, if_pos hj, Nat.testBit_two_pow, Nat.testBit_two_pow_sub_one]
    by_cases hjt : j = t
    · simp [hjt]
    · simp [hjt, Ne.symm hjt]
  · rw [if_neg hj, if_neg hj]
    simp [show j ≠ t by omega]

/-- The highest set bit of a non-zero vector is at `bitWidth v - 1`, below `w`. -/
theorem bitWidth_spec {v : BitVec w} (hv : v ≠ 0) :
    0 < bitWidth v ∧ bitWidth v ≤ w ∧ v.getLsbD (bitWidth v - 1) = true ∧
      ∀ j, bitWidth v ≤ j → v.getLsbD j = false := by
  have hn : v.toNat ≠ 0 := fun h => hv (BitVec.eq_of_toNat_eq (by simp [h]))
  have hpos : 0 < v.toNat.size := Nat.size_pos.mpr (Nat.pos_of_ne_zero hn)
  unfold bitWidth
  refine ⟨hpos, Nat.size_le.mpr v.isLt, ?_, fun j hj => ?_⟩
  · exact Nat.testBit_of_two_pow_le_and_two_pow_add_one_gt (Nat.lt_size.mp (by omega))
      (by rw [Nat.sub_add_cancel hpos]; exact Nat.lt_size_self _)
  · exact Nat.testBit_lt_two_pow (Nat.lt_of_lt_of_le (Nat.lt_size_self _) (Nat.pow_le_pow_right (by decide) hj))

end BitScan
