-- SUMMARY: Byte strings read as bit strings, most significant bit of the first byte first: masks that keep a prefix of the bits, and the strings whose set bits form a prefix.
import Mathlib.Data.Nat.Find
import Mathlib.Algebra.GroupWithZero.Nat

/-!
# Bit prefixes of byte strings

Network prefixes read a byte string as a string of bits, the most significant bit of the
first byte first. This module names bit `j` of a byte string (`bit`), the byte whose `k`
high bits are set (`highMask`), the `n` bytes whose first `m` bits are set
(`prefixMask`), the number of set bits (`ones`) and the strings whose set bits are a
prefix (`Contiguous`). The lemmas say which bits a mask keeps (`and_highMask_eq_iff`,
`forall_and_prefixMask_eq_iff`) and that a string with contiguous set bits is the prefix
mask of its number of set bits (`contiguous_iff`).
-/

namespace BitPrefix

/-- Bit `j` of a byte string: bit `7 - j % 8` of byte `j / 8`; bits past the end are clear. -/
def bit (bs : List UInt8) (j : Nat) : Bool :=
  (bs.getD (j / 8) 0).toNat.testBit (7 - j % 8)

/-- The byte whose `k` high bits are set, for `k ≤ 8`. -/
def highMask (k : Nat) : UInt8 := UInt8.ofNat (256 - 2 ^ (8 - k))

/-- `n` bytes whose first `m` bits are set and whose other bits are clear. -/
def prefixMask : Nat → Nat → List UInt8
  | 0, _ => []
  | n + 1, m => highMask (min m 8) :: prefixMask n (m - 8)

@[simp] theorem prefixMask_zero (m : Nat) : prefixMask 0 m = [] := rfl

theorem prefixMask_succ (n m : Nat) : prefixMask (n + 1) m = highMask (min m 8) :: prefixMask n (m - 8) := rfl

/-- The number of set bits of a byte. -/
def byteOnes (b : UInt8) : Nat := (List.range 8).countP fun i => b.toNat.testBit i

/-- The number of set bits of a byte string. -/
def ones (bs : List UInt8) : Nat := (bs.map byteOnes).sum

/-- No set bit of the string follows a clear one. -/
def Contiguous (bs : List UInt8) : Prop :=
  ∀ j < 8 * bs.length, bit bs j = true → ∀ i < j, bit bs i = true

instance (bs : List UInt8) : Decidable (Contiguous bs) :=
  inferInstanceAs (Decidable (∀ j < 8 * bs.length, bit bs j = true → ∀ i < j, bit bs i = true))

@[simp] theorem length_prefixMask (n m : Nat) : (prefixMask n m).length = n := by
  induction n generalizing m with
  | zero => rfl
  | succ n ih => simp [prefixMask_succ, ih]

@[simp] theorem ones_nil : ones [] = 0 := rfl

@[simp] theorem ones_cons (b : UInt8) (bs : List UInt8) : ones (b :: bs) = byteOnes b + ones bs := by
  simp [ones]

-- ---------------------------------------------------------------------------
-- The high-bit masks
-- ---------------------------------------------------------------------------

/-- The nine masks, bit by bit: bit `i` of `highMask k` is set exactly for the `k` high
positions. -/
theorem testBit_highMask {k i : Nat} (hk : k ≤ 8) (hi : i < 8) :
    (highMask k).toNat.testBit i = decide (8 - k ≤ i) := by
  have table : ∀ k ≤ 8, ∀ i < 8, (highMask k).toNat.testBit i = decide (8 - k ≤ i) := by
    decide
  exact table k hk i hi

/-- A byte has no bits from position 8 on. -/
theorem testBit_toNat_of_le (b : UInt8) {i : Nat} (hi : 8 ≤ i) : b.toNat.testBit i = false :=
  Nat.testBit_lt_two_pow (Nat.lt_of_lt_of_le (UInt8.toNat_lt b) (Nat.pow_le_pow_right (by decide) hi))

theorem byteOnes_highMask {k : Nat} (hk : k ≤ 8) : byteOnes (highMask k) = k := by
  have table : ∀ k ≤ 8, byteOnes (highMask k) = k := by decide
  exact table k hk

theorem highMask_eq_zero_iff {k : Nat} (hk : k ≤ 8) : highMask k = 0 ↔ k = 0 := by
  have table : ∀ k ≤ 8, (highMask k = 0 ↔ k = 0) := by decide
  exact table k hk

theorem byteOnes_le (b : UInt8) : byteOnes b ≤ 8 := by
  have h := List.countP_le_length (p := fun i => b.toNat.testBit i) (l := List.range 8)
  simpa [byteOnes] using h

theorem ones_le (bs : List UInt8) : ones bs ≤ 8 * bs.length := by
  induction bs with
  | nil => simp
  | cons b bs ih =>
    have hb := byteOnes_le b
    simp only [ones_cons, List.length_cons]
    omega

/-- A byte masked by `highMask k` keeps exactly its `k` high bits. -/
theorem and_highMask_eq_iff {k : Nat} (hk : k ≤ 8) (x y : UInt8) :
    (x &&& highMask k) = (y &&& highMask k) ↔ ∀ i < k, x.toNat.testBit (7 - i) = y.toNat.testBit (7 - i) := by
  rw [← UInt8.toNat_inj, UInt8.toNat_and, UInt8.toNat_and]
  constructor
  · intro h i hi
    have hbit := congrArg (Nat.testBit · (7 - i)) h
    simpa [Nat.testBit_and, testBit_highMask hk (show 7 - i < 8 by omega), show 8 - k ≤ 7 - i by omega]
      using hbit
  · intro h
    apply Nat.eq_of_testBit_eq
    intro t
    rw [Nat.testBit_and, Nat.testBit_and]
    by_cases ht : t < 8
    · by_cases hkt : 8 - k ≤ t
      · -- a kept bit: position `t` is the high bit `7 - t`
        have hxy := h (7 - t) (by omega)
        rw [show 7 - (7 - t) = t by omega] at hxy
        rw [hxy]
      · simp [testBit_highMask hk ht, hkt]
    · simp [testBit_toNat_of_le _ (show 8 ≤ t by omega)]

-- ---------------------------------------------------------------------------
-- Prefix masks
-- ---------------------------------------------------------------------------

theorem getD_prefixMask {n m x : Nat} (hx : x < n) :
    (prefixMask n m).getD x 0 = highMask (min (m - 8 * x) 8) := by
  induction n generalizing m x with
  | zero => omega
  | succ n ih =>
    cases x with
    | zero => simp [prefixMask_succ]
    | succ x =>
      rw [prefixMask_succ, List.getD_cons_succ, ih (by omega)]
      congr 2
      omega

theorem bit_of_length_le {bs : List UInt8} {j : Nat} (h : 8 * bs.length ≤ j) : bit bs j = false := by
  simp [bit, List.getD_eq_getElem?_getD, List.getElem?_eq_none (show bs.length ≤ j / 8 by omega)]

/-- The bits of a prefix mask: the first `m` are set. -/
theorem bit_prefixMask (n m j : Nat) : bit (prefixMask n m) j = decide (j < m ∧ j < 8 * n) := by
  by_cases hj : j < 8 * n
  · have hx : j / 8 < n := by omega
    rw [bit, getD_prefixMask hx, testBit_highMask (Nat.min_le_right _ _) (by omega)]
    -- the byte `j / 8` keeps `min (m - 8 * (j / 8)) 8` high bits
    by_cases hjm : j < m
    · simp [hjm, hj]
      omega
    · simp [hjm]
      omega
  · rw [bit_of_length_le (by simpa using Nat.le_of_not_lt hj)]
    simp [hj]

theorem ones_prefixMask (n m : Nat) : ones (prefixMask n m) = min m (8 * n) := by
  induction n generalizing m with
  | zero => simp
  | succ n ih =>
    rw [prefixMask_succ, ones_cons, byteOnes_highMask (Nat.min_le_right _ _), ih]
    omega

/-- Two strings agree under the prefix mask byte by byte exactly when their first `m` bits
agree. -/
theorem forall_and_prefixMask_eq_iff {a b : List UInt8} {n m : Nat} :
    (∀ x < n, (a.getD x 0 &&& (prefixMask n m).getD x 0) = (b.getD x 0 &&& (prefixMask n m).getD x 0)) ↔
      ∀ j < min m (8 * n), bit a j = bit b j := by
  constructor
  · intro h j hj
    have hx : j / 8 < n := by omega
    have hbyte := h (j / 8) hx
    rw [getD_prefixMask hx, and_highMask_eq_iff (Nat.min_le_right _ _)] at hbyte
    exact hbyte (j % 8) (by omega)
  · intro h x hx
    rw [getD_prefixMask hx, and_highMask_eq_iff (Nat.min_le_right _ _)]
    intro i hi
    -- bit `i` of byte `x` is bit `8 * x + i` of the string
    have hbit := h (8 * x + i) (by omega)
    simpa [bit, show (8 * x + i) / 8 = x by omega, show (8 * x + i) % 8 = i by omega] using hbit

-- ---------------------------------------------------------------------------
-- Strings with contiguous set bits
-- ---------------------------------------------------------------------------

/-- Byte strings of one length with the same bits are equal. -/
theorem eq_of_bit_eq {a b : List UInt8} (hlen : a.length = b.length) (h : ∀ j, bit a j = bit b j) :
    a = b := by
  apply List.ext_getElem hlen
  intro x hxa hxb
  apply UInt8.toNat_inj.mp
  apply Nat.eq_of_testBit_eq
  intro i
  by_cases hi : i < 8
  · have hbit := h (8 * x + (7 - i))
    simpa [bit, show (8 * x + (7 - i)) / 8 = x by omega, show (8 * x + (7 - i)) % 8 = 7 - i by omega,
      show 7 - (7 - i) = i by omega, List.getD_eq_getElem?_getD, List.getElem?_eq_getElem hxa,
      List.getElem?_eq_getElem hxb] using hbit
  · rw [testBit_toNat_of_le _ (by omega), testBit_toNat_of_le _ (by omega)]

theorem contiguous_prefixMask (n m : Nat) : Contiguous (prefixMask n m) := by
  intro j _ hj i hi
  simp only [bit_prefixMask, decide_eq_true_eq] at hj ⊢
  omega

/-- A string whose set bits are contiguous is the prefix mask of its length and number of
set bits. The prefix ends at the first clear bit. -/
theorem contiguous_iff {bs : List UInt8} : Contiguous bs ↔ bs = prefixMask bs.length (ones bs) := by
  refine ⟨fun hc => ?_, fun h => h ▸ contiguous_prefixMask _ _⟩
  have hex : ∃ m, 8 * bs.length ≤ m ∨ bit bs m = false := ⟨_, Or.inl le_rfl⟩
  classical
  -- `m`: the first clear bit, or the end of the string
  have hfirst_clear : ∃ m, (8 * bs.length ≤ m ∨ bit bs m = false) ∧
      ∀ j < m, ¬(8 * bs.length ≤ j ∨ bit bs j = false) :=
    ⟨Nat.find hex, Nat.find_spec hex, fun j hj => Nat.find_min hex hj⟩
  obtain ⟨m, hfound, hmin⟩ := hfirst_clear
  have hm_le : m ≤ 8 * bs.length := by
    by_contra hlt
    exact hmin _ (by omega) (Or.inl le_rfl)
  have hbits : ∀ j, bit bs j = decide (j < m ∧ j < 8 * bs.length) := by
    intro j
    by_cases hjm : j < m
    · have hset := hmin j hjm
      simp only [not_or, Bool.not_eq_false] at hset
      simp [hjm, hset.2, show j < 8 * bs.length by omega]
    · by_cases hj : j < 8 * bs.length
      · -- a set bit at or after `m` would set bit `m` too
        have hfirst : bit bs m = false := by
          rcases hfound with h | h
          · omega
          · exact h
        cases hjb : bit bs j
        · simp [hjm]
        · rcases Nat.lt_or_ge m j with hmj | hmj
          · have hset := hc j hj hjb m hmj
            simp [hset] at hfirst
          · obtain rfl : j = m := by omega
            simp [hfirst] at hjb
      · simp [bit_of_length_le (Nat.le_of_not_lt hj), hj]
  have hbs : bs = prefixMask bs.length m :=
    eq_of_bit_eq (by simp) fun j => by rw [hbits, bit_prefixMask]
  have hones : ones bs = m := by
    rw [hbs, ones_prefixMask]
    omega
  rw [hones]
  exact hbs

end BitPrefix
