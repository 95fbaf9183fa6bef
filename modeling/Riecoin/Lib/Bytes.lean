-- SUMMARY: Little-endian values of byte strings, and the reversal of the low binary digits of a number.
import Mathlib.Data.Nat.Digits.Defs

/-!
# Bytes as numbers

Two readings of a byte string as a natural number. The little-endian value reads
the first byte as the least significant one. The `w`-bit reversal of a number reads
its `w` low binary digits in the opposite order. Both are stated over `Nat` with the
lemmas that the models of hashing and serialisation code use: bounds, injectivity,
where each bit comes from, and how a loop that shifts one bit in at a time computes
the reversal.
-/

namespace Bytes

-- ---------------------------------------------------------------------------
-- Little-endian values
-- ---------------------------------------------------------------------------

/-- The number a byte string denotes when its first byte is the least significant. -/
def leValue (bytes : List UInt8) : Nat :=
  Nat.ofDigits 256 (bytes.map UInt8.toNat)

@[simp] theorem leValue_nil : leValue [] = 0 := rfl

@[simp] theorem leValue_cons (b : UInt8) (bytes : List UInt8) :
    leValue (b :: bytes) = b.toNat + 256 * leValue bytes := by
  simp [leValue, Nat.ofDigits_cons]

/-- A fact about every byte follows from its 256 cases, which `decide` can check. -/
theorem forall_uint8 {P : UInt8 → Prop} (h : ∀ n, n < 256 → P (UInt8.ofNat n)) (t : UInt8) :
    P t := by
  have := h t.toNat t.toNat_lt
  rwa [UInt8.ofNat_toNat] at this

theorem leValue_append (xs ys : List UInt8) :
    leValue (xs ++ ys) = leValue xs + 256 ^ xs.length * leValue ys := by
  simp [leValue, Nat.ofDigits_append]

private theorem toNat_mem_lt (bytes : List UInt8) : ∀ d ∈ bytes.map UInt8.toNat, d < 256 := by
  intro d hd
  obtain ⟨b, -, rfl⟩ := List.mem_map.mp hd
  exact b.toNat_lt

theorem leValue_lt (bytes : List UInt8) : leValue bytes < 256 ^ bytes.length := by
  have h := Nat.ofDigits_lt_base_pow_length (by decide : 1 < 256) (toNat_mem_lt bytes)
  simpa [leValue] using h

theorem leValue_injective {a b : List UInt8} (hlen : a.length = b.length)
    (h : leValue a = leValue b) : a = b := by
  have hmaps := Nat.ofDigits_inj_of_len_eq (by decide : 1 < 256)
    (by simpa using hlen) (toNat_mem_lt a) (toNat_mem_lt b) h
  exact (List.map_inj_right (fun x y hxy => UInt8.toNat_inj.mp hxy)).mp hmaps

/-- Bit `i` of the little-endian value is bit `i % 8` of byte `i / 8`; past the end
both are clear. -/
theorem testBit_leValue (bytes : List UInt8) (i : Nat) :
    (leValue bytes).testBit i = (bytes.getD (i / 8) 0).toNat.testBit (i % 8) := by
  induction bytes generalizing i with
  | nil => simp
  | cons b bytes ih =>
    have hb : b.toNat < 2 ^ 8 := b.toNat_lt
    rw [leValue_cons, Nat.add_comm, show (256 : Nat) = 2 ^ 8 from rfl,
      Nat.testBit_two_pow_mul_add _ hb]
    split
    · next hi =>
      simp [Nat.div_eq_of_lt hi, Nat.mod_eq_of_lt hi]
    · next hi =>
      rw [ih]
      have hdiv : i / 8 = (i - 8) / 8 + 1 := by omega
      have hmod : i % 8 = (i - 8) % 8 := by omega
      simp [hdiv, hmod]

/-- The `k` low bytes of `v`, the least significant first. -/
def leBytes : Nat → Nat → List UInt8
  | 0, _ => []
  | k + 1, v => UInt8.ofNat v :: leBytes k (v / 256)

@[simp] theorem length_leBytes (k v : Nat) : (leBytes k v).length = k := by
  induction k generalizing v with
  | zero => rfl
  | succ k ih => simp [leBytes, ih]

/-- Writing `k` bytes keeps the value below `256 ^ k`. -/
theorem leValue_leBytes (k v : Nat) : leValue (leBytes k v) = v % 256 ^ k := by
  induction k generalizing v with
  | zero => simp [leBytes, Nat.mod_one]
  | succ k ih =>
    rw [leBytes, leValue_cons, ih, UInt8.toNat_ofNat', show (2 : Nat) ^ 8 = 256 from rfl,
      Nat.pow_succ', Nat.mod_mul]

/-- A string of `k` bytes is its value written back as `k` bytes. -/
theorem leBytes_leValue {bytes : List UInt8} {k : Nat} (hk : bytes.length = k) :
    leBytes k (leValue bytes) = bytes := by
  subst hk
  apply leValue_injective (length_leBytes _ _)
  rw [leValue_leBytes, Nat.mod_eq_of_lt (leValue_lt bytes)]

/-- The bytes of an exclusive or are the exclusive ors of the bytes. -/
theorem leBytes_xor (k a b : Nat) : leBytes k (a ^^^ b) = List.zipWith (· ^^^ ·) (leBytes k a) (leBytes k b) := by
  induction k generalizing a b with
  | zero => rfl
  | succ k ih =>
    have hdiv : (a ^^^ b) / 256 = a / 256 ^^^ b / 256 := Nat.xor_div_two_pow (n := 8)
    rw [leBytes, leBytes, leBytes, hdiv, ih, UInt8.ofNat_xor, List.zipWith_cons_cons]

-- ---------------------------------------------------------------------------
-- Masks
-- ---------------------------------------------------------------------------

/-- XORing the same bytes in twice gives back what they were XORed into. -/
theorem zipWith_xor_xor_cancel : ∀ {a b : List UInt8}, a.length = b.length →
    List.zipWith (· ^^^ ·) (List.zipWith (· ^^^ ·) a b) a = b
  | [], [], _ => rfl
  | x :: a, y :: b, h => by
    rw [List.zipWith_cons_cons, List.zipWith_cons_cons, zipWith_xor_xor_cancel (Nat.succ.inj h),
      UInt8.xor_comm x y, UInt8.xor_assoc, UInt8.xor_self, UInt8.xor_zero]

/-- Clearing bit `j` of a number below `2 ^ (j + 1)` with the `w`-bit mask that has every
other bit set leaves its `j` low bits. -/
theorem and_mask_eq_mod {x j w : Nat} (hx : x < 2 ^ (j + 1)) (hj : j < w) :
    x &&& (2 ^ w - 1 - 2 ^ j) = x % 2 ^ j := by
  have hpow : 2 ^ j < 2 ^ w := Nat.pow_lt_pow_right (by decide) hj
  apply Nat.eq_of_testBit_eq
  intro i
  rw [Nat.testBit_and, show 2 ^ w - 1 - 2 ^ j = 2 ^ w - (2 ^ j + 1) by omega,
    Nat.testBit_two_pow_sub_succ hpow, Nat.testBit_two_pow, Nat.testBit_mod_two_pow]
  rcases Nat.lt_trichotomy i j with hi | rfl | hi
  · simp [hi, Nat.ne_of_gt hi, show i < w by omega]
  · simp
  · -- above bit `j` the number has no bits
    have hzero : x.testBit i = false :=
      Nat.testBit_lt_two_pow (Nat.lt_of_lt_of_le hx (Nat.pow_le_pow_right (by decide) hi))
    simp [hzero, show ¬i < j by omega]

-- ---------------------------------------------------------------------------
-- Bit reversal
-- ---------------------------------------------------------------------------

/-- The `w` low binary digits of `x` in the opposite order: digit `i` of `x` becomes
digit `w - 1 - i` of the result. -/
def bitReverse : Nat → Nat → Nat
  | 0, _ => 0
  | w + 1, x => 2 * bitReverse w x + (x.testBit w).toNat

theorem bitReverse_lt (w x : Nat) : bitReverse w x < 2 ^ w := by
  induction w with
  | zero => simp [bitReverse]
  | succ w ih =>
    have hbit : (x.testBit w).toNat ≤ 1 := Bool.toNat_le _
    simp only [bitReverse, Nat.pow_succ]
    omega

theorem testBit_bitReverse (x : Nat) {w j : Nat} (hj : j < w) :
    (bitReverse w x).testBit j = x.testBit (w - 1 - j) := by
  induction w generalizing j with
  | zero => omega
  | succ w ih =>
    have hbit : (x.testBit w).toNat < 2 ^ 1 := by
      have := Bool.toNat_le (x.testBit w); omega
    rw [bitReverse, show 2 * bitReverse w x = 2 ^ 1 * bitReverse w x by simp,
      Nat.testBit_two_pow_mul_add _ hbit]
    cases j with
    | zero => cases h : x.testBit w <;> simp [h]
    | succ j =>
      rw [if_neg (by omega), ih (by omega)]
      congr 1
      omega

/-- Reversing the `w` low bits is injective on numbers below `2 ^ w`. -/
theorem bitReverse_injective {w x y : Nat} (hx : x < 2 ^ w) (hy : y < 2 ^ w)
    (h : bitReverse w x = bitReverse w y) : x = y := by
  apply Nat.eq_of_testBit_eq
  intro i
  by_cases hi : i < w
  · have hj : w - 1 - i < w := by omega
    have hbits := congrArg (fun n => n.testBit (w - 1 - i)) h
    simp only [testBit_bitReverse _ hj, show w - 1 - (w - 1 - i) = i by omega] at hbits
    exact hbits
  · have hle : 2 ^ w ≤ 2 ^ i := Nat.pow_le_pow_right (by decide) (by omega)
    rw [Nat.testBit_lt_two_pow (by omega), Nat.testBit_lt_two_pow (by omega)]

/-- A loop that doubles an accumulator and adds bit `i` of `x` for `i = 0, …, w - 1`
appends the `w`-bit reversal of `x` to the start value. -/
theorem foldl_range_double_add (x w : Nat) (t : Int) (bit : Nat → Int)
    (hbit : ∀ i < w, bit i = (x.testBit i).toNat) :
    (List.range w).foldl (fun acc i => acc * 2 + bit i) t = t * 2 ^ w + bitReverse w x := by
  induction w with
  | zero => simp [bitReverse]
  | succ w ih =>
    rw [List.range_succ, List.foldl_append, ih (fun i hi => hbit i (by omega))]
    simp only [List.foldl_cons, List.foldl_nil, bitReverse, hbit w (by omega)]
    push_cast
    ring

end Bytes
