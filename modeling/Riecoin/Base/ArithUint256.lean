-- SUMMARY: `base_uint<BITS>` as its 32-bit limbs, with `arith_uint256` the case of 256 bits: the shift loops, `bits()` and `GetLow64`, each proved against the number the limbs denote.
import Riecoin.Lib.Limbs
import Mathlib.Data.Nat.Bitwise

/-!
# base_uint and arith_uint256

`base_uint<BITS>` (`arith_uint256.h`) holds a `BITS`-bit number in `pn`, `WIDTH = BITS / 32`
limbs of 32 bits, least significant first; `arith_uint256` is `base_uint<256>`. The class's
`static_assert` (`BITS` a positive multiple of 32) is carried by every value. The model keeps
the limbs and translates the loops of `arith_uint256.cpp`: `operator<<=` and `operator>>=`,
which send each limb into the two limbs it straddles after the shift, and `bits()`, which
scans for the top set bit. Each is proved against `toNat`, the number the limbs denote: the
shifts are the shifts of that number cut to `BITS` bits (`toNat_shiftLeft`,
`toNat_shiftRight`), `bits()` is its bit length (`bits_eq_size`) and `GetLow64` its low
64 bits (`toNat_getLow64`).

A shift loop writes limb `j` in two iterations, so its proof follows the loop with an
invariant over the iterations that have run (`ShiftLeftLimbs`, `ShiftRightLimbs`): bit `t`
of limb `j` holds the contributions of exactly those iterations.
-/

namespace Riecoin

/-- `base_uint<BITS>`: `pn`, `WIDTH = BITS / 32` limbs of 32 bits, least significant first.
The class's `static_assert(BITS / 32 > 0 && BITS % 32 == 0)` is part of every value. -/
structure BaseUint (BITS : Nat) where
  pn : Vector UInt32 (BITS / 32)
  width_pos : 0 < BITS / 32
  bits_mod : BITS % 32 = 0
  deriving DecidableEq

/-- `arith_uint256`: `base_uint<256>`, eight limbs. -/
abbrev ArithUint256 := BaseUint 256

namespace BaseUint

variable {BITS : Nat}

/-- `pn[i]`, and zero past the last limb. -/
def word (a : BaseUint BITS) (i : Nat) : UInt32 := if h : i < BITS / 32 then a.pn[i] else 0

/-- The number the limbs denote. -/
def toNat (a : BaseUint BITS) : Nat := Limbs.value 32 (fun i => (a.word i).toNat) (BITS / 32)

/-- One iteration of the loop of `operator<<=(shift)`, for `k = shift / 32` and
`shift % 32` as `shift`: limb `i` goes into limb `i + k`, and its top `shift` bits into
limb `i + k + 1`. -/
def shiftLeftStep (a : BaseUint BITS) (k shift : Nat) (pn : Vector UInt32 (BITS / 32))
    (i : Fin (BITS / 32)) : Vector UInt32 (BITS / 32) :=
  let pn := if h : i.val + k + 1 < BITS / 32 ∧ shift ≠ 0 then
      pn.set (i.val + k + 1) (pn[i.val + k + 1] ||| a.pn[i] >>> (32 - shift).toUInt32) h.1
    else pn
  if h : i.val + k < BITS / 32 then pn.set (i.val + k) (pn[i.val + k] ||| a.pn[i] <<< shift.toUInt32) h
  else pn

/-- `operator<<=(shift)`: the loop over the limbs, into a zeroed copy. -/
def shiftLeft (a : BaseUint BITS) (shift : Nat) : BaseUint BITS :=
  ⟨(List.finRange (BITS / 32)).foldl (shiftLeftStep a (shift / 32) (shift % 32))
    (Vector.replicate (BITS / 32) 0), a.width_pos, a.bits_mod⟩

/-- One iteration of the loop of `operator>>=(shift)`: limb `i` goes into limb `i - k`, and
its low `shift` bits into limb `i - k - 1`. -/
def shiftRightStep (a : BaseUint BITS) (k shift : Nat) (pn : Vector UInt32 (BITS / 32))
    (i : Fin (BITS / 32)) : Vector UInt32 (BITS / 32) :=
  let pn := if h : k + 1 ≤ i.val ∧ shift ≠ 0 then
      pn.set (i.val - k - 1) (pn[i.val - k - 1] ||| a.pn[i] <<< (32 - shift).toUInt32) (by omega)
    else pn
  if h : k ≤ i.val then
    pn.set (i.val - k) (pn[i.val - k] ||| a.pn[i] >>> shift.toUInt32) (by omega)
  else pn

/-- `operator>>=(shift)`: the loop over the limbs, into a zeroed copy. -/
def shiftRight (a : BaseUint BITS) (shift : Nat) : BaseUint BITS :=
  ⟨(List.finRange (BITS / 32)).foldl (shiftRightStep a (shift / 32) (shift % 32))
    (Vector.replicate (BITS / 32) 0), a.width_pos, a.bits_mod⟩

/-- The inner loop of `bits()`: `nbits` runs from `n` down to `1` and stops at the first bit
set in `word`, returning `nbits + 1`; `1` once the loop runs out. -/
def topBit (word : UInt32) : Nat → Nat
  | 0 => 1
  | nbits + 1 =>
    if word &&& 1 <<< (nbits + 1).toUInt32 ≠ 0 then nbits + 2 else topBit word nbits

/-- The outer loop of `bits()`: `pos` runs from `n - 1` down to `0` and stops at the first
nonzero limb. -/
def bitsBelow (a : BaseUint BITS) : Nat → Nat
  | 0 => 0
  | pos + 1 => if a.word pos ≠ 0 then 32 * pos + topBit (a.word pos) 31 else bitsBelow a pos

/-- `bits()`: the position of the highest set bit plus one, or zero. -/
def bits (a : BaseUint BITS) : Nat := bitsBelow a (BITS / 32)

/-- `GetLow64()`: `pn[0] | (uint64_t)pn[1] << 32`. -/
def getLow64 (a : BaseUint BITS) : UInt64 := (a.word 0).toUInt64 ||| (a.word 1).toUInt64 <<< 32

-- ---------------------------------------------------------------------------
-- The limbs and the number
-- ---------------------------------------------------------------------------

theorem word_of_lt (a : BaseUint BITS) {i : Nat} (h : i < BITS / 32) : a.word i = a.pn[i] := dif_pos h

theorem word_of_le (a : BaseUint BITS) {i : Nat} (h : BITS / 32 ≤ i) : a.word i = 0 := dif_neg (by omega)

theorem word_fin (a : BaseUint BITS) (i : Fin (BITS / 32)) : a.word i = a.pn[i] := dif_pos i.isLt

theorem toNat_word_lt (a : BaseUint BITS) (i : Nat) : (a.word i).toNat < 2 ^ 32 :=
  UInt32.toNat_lt _

/-- Bit `i` of the number is bit `i % 32` of limb `i / 32`. -/
theorem testBit_toNat (a : BaseUint BITS) (i : Nat) :
    a.toNat.testBit i = (a.word (i / 32)).toNat.testBit (i % 32) := by
  rw [toNat, Limbs.testBit_value (toNat_word_lt a) (by decide)]
  by_cases h : i / 32 < BITS / 32
  · simp [h]
  · simp [h, word_of_le a (Nat.le_of_not_lt h)]

/-- The limbs hold exactly `BITS` bits. -/
theorem width_mul (a : BaseUint BITS) : 32 * (BITS / 32) = BITS :=
  Nat.mul_div_cancel' (Nat.dvd_of_mod_eq_zero a.bits_mod)

theorem toNat_lt (a : BaseUint BITS) : a.toNat < 2 ^ BITS := by
  have h := Limbs.value_lt (toNat_word_lt a) (BITS / 32)
  rwa [width_mul a] at h

/-- A 32-bit word has no bit at or above 32. -/
theorem testBit_uint32_of_le (x : UInt32) {t : Nat} (ht : 32 ≤ t) : x.toNat.testBit t = false :=
  Nat.testBit_lt_two_pow
    (lt_of_lt_of_le (UInt32.toNat_lt x) (Nat.pow_le_pow_right (by decide) ht))

theorem toNat_toUInt32_mod {n : Nat} (hn : n < 32) : n.toUInt32.toNat % 32 = n := by
  simp [Nat.toUInt32]
  omega

theorem testBit_uint32_shiftLeft (x : UInt32) {sh t : Nat} (hsh : sh < 32) (ht : t < 32) :
    (x <<< sh.toUInt32).toNat.testBit t = (decide (sh ≤ t) && x.toNat.testBit (t - sh)) := by
  rw [UInt32.toNat_shiftLeft, toNat_toUInt32_mod hsh, Nat.testBit_mod_two_pow,
    Nat.testBit_shiftLeft]
  simp [ht]

theorem testBit_uint32_shiftRight (x : UInt32) {sh : Nat} (hsh : sh < 32) (t : Nat) :
    (x >>> sh.toUInt32).toNat.testBit t = x.toNat.testBit (sh + t) := by
  rw [UInt32.toNat_shiftRight, toNat_toUInt32_mod hsh, Nat.testBit_shiftRight]

/-- An invariant over the iterations that have run, kept by each iteration, holds after the
loop over any list of iterations. -/
theorem foldl_prefix_invariant {α β : Type} {f : β → α → β} {P : List α → β → Prop}
    (hstep : ∀ S b i, P S b → P (S ++ [i]) (f b i)) (l : List α) {S : List α} {b : β}
    (h : P S b) : P (S ++ l) (l.foldl f b) := by
  induction l generalizing S b with
  | nil => simpa using h
  | cons i l ih => simpa using ih (hstep S b i h)

/-- Some iteration of a loop over the `n` limbs reaches limb `j` from `k` below. -/
theorem any_finRange_add_eq {n k j : Nat} (hj : j < n) :
    ((List.finRange n).any fun i => decide (i.val + k = j)) = decide (k ≤ j) := by
  by_cases hk : k ≤ j
  · simp only [hk, decide_true, List.any_eq_true, List.mem_finRange, true_and, decide_eq_true_eq]
    exact ⟨⟨j - k, by omega⟩, by simp; omega⟩
  · simp only [hk, decide_false, List.any_eq_false, List.mem_finRange, true_implies,
      decide_eq_true_eq]
    omega

/-- Some iteration of a loop over the `n` limbs is at limb `m`. -/
theorem any_finRange_eq {n : Nat} (m : Nat) :
    ((List.finRange n).any fun i => decide (i.val = m)) = decide (m < n) := by
  by_cases hm : m < n
  · simp only [hm, decide_true, List.any_eq_true, List.mem_finRange, true_and, decide_eq_true_eq]
    exact ⟨⟨m, hm⟩, rfl⟩
  · simp only [hm, decide_false, List.any_eq_false, List.mem_finRange, true_implies,
      decide_eq_true_eq]
    omega

/-- Reading limb `j` after a guarded `pn[p] |= v`: the write lands on `j` when the guard
holds and `p = j`. -/
theorem getElem_dite_set_or {n : Nat} (pn : Vector UInt32 n) {c : Prop} [Decidable c] {p : Nat}
    (hp : c → p < n) (v : UInt32) {j : Nat} (hj : j < n) :
    (if h : c then
      have hb : p < n := hp h
      pn.set p (pn[p] ||| v) hb else pn)[j] =
      (pn[j] ||| if c ∧ p = j then v else 0) := by
  by_cases hc : c
  · rw [dif_pos hc, Vector.getElem_set]
    by_cases hpj : p = j
    · subst hpj
      simp [hc]
    · simp [hc, hpj]
  · simp [hc]

-- ---------------------------------------------------------------------------
-- operator<<=
-- ---------------------------------------------------------------------------

section ShiftLeft

variable {a : BaseUint BITS} {k sh : Nat}

/-- Bit `t` of each limb of the `operator<<=` accumulator once the iterations `S` have run:
the top bits of limb `j - k - 1` if its iteration has run, and the low bits of limb `j - k`
if its iteration has run. -/
def ShiftLeftLimbs (a : BaseUint BITS) (k sh : Nat) (S : List (Fin (BITS / 32))) (pn : Vector UInt32 (BITS / 32)) :
    Prop :=
  ∀ (j : Nat) (hj : j < BITS / 32) (t : Nat), pn[j].toNat.testBit t =
    ((decide (sh ≠ 0) && S.any fun i => decide (i.val + k + 1 = j)) &&
        (a.word (j - k - 1) >>> (32 - sh).toUInt32).toNat.testBit t ||
      (S.any fun i => decide (i.val + k = j)) && (a.word (j - k) <<< sh.toUInt32).toNat.testBit t)

/-- One iteration ORs the top part of limb `i` into limb `i + k + 1` and its low part into
limb `i + k`. -/
theorem testBit_shiftLeftStep (pn : Vector UInt32 (BITS / 32)) (i : Fin (BITS / 32)) {j : Nat} (hj : j < BITS / 32)
    (t : Nat) :
    (shiftLeftStep a k sh pn i)[j].toNat.testBit t =
      (pn[j].toNat.testBit t ||
        (decide (i.val + k + 1 = j) && decide (sh ≠ 0)) &&
          (a.pn[i] >>> (32 - sh).toUInt32).toNat.testBit t ||
        decide (i.val + k = j) && (a.pn[i] <<< sh.toUInt32).toNat.testBit t) := by
  unfold shiftLeftStep
  dsimp only
  rw [getElem_dite_set_or _ (fun h => h) _ hj, getElem_dite_set_or _ (fun h => h.1) _ hj]
  -- the guards of the source against the limb read
  by_cases e1 : i.val + k + 1 = j <;> by_cases e2 : i.val + k = j <;> by_cases hsh : sh = 0 <;>
    simp [e1, e2, hsh, hj, UInt32.toNat_or, Nat.testBit_or]

theorem shiftLeftLimbs_step {S : List (Fin (BITS / 32))} {pn : Vector UInt32 (BITS / 32)}
    (h : ShiftLeftLimbs a k sh S pn) (i : Fin (BITS / 32)) :
    ShiftLeftLimbs a k sh (S ++ [i]) (shiftLeftStep a k sh pn i) := by
  intro j hj t
  rw [testBit_shiftLeftStep pn i hj, h j hj]
  by_cases e1 : i.val + k + 1 = j <;> by_cases e2 : i.val + k = j
  · omega
  · -- the new write is the top part of limb `i = j - k - 1`
    have hw : a.word (j - k - 1) = a.pn[i] := by rw [← word_fin]; congr 1; omega
    simp [e2, hw, List.any_append]
    grind
  · -- the new write is the low part of limb `i = j - k`
    have hw : a.word (j - k) = a.pn[i] := by rw [← word_fin]; congr 1; omega
    simp [e2, hw, List.any_append]
    grind
  · simp [e1, e2, List.any_append]

theorem shiftLeftLimbs_init : ShiftLeftLimbs a k sh [] (Vector.replicate (BITS / 32) 0) := by
  intro j hj t
  simp

/-- `operator<<=` shifts the number and drops the bits past `BITS`. -/
theorem toNat_shiftLeft (a : BaseUint BITS) (shift : Nat) :
    (a.shiftLeft shift).toNat = a.toNat <<< shift % 2 ^ BITS := by
  -- the limb count is `BITS / 32`, exactly
  have hmod := a.bits_mod
  have hlimbs : ShiftLeftLimbs a (shift / 32) (shift % 32) (List.finRange (BITS / 32))
      (a.shiftLeft shift).pn := by
    have h := foldl_prefix_invariant (P := ShiftLeftLimbs a (shift / 32) (shift % 32))
      (fun _ _ i h => shiftLeftLimbs_step h i) (List.finRange (BITS / 32)) shiftLeftLimbs_init
    rw [List.nil_append] at h
    exact h
  apply Nat.eq_of_testBit_eq
  intro i
  rw [testBit_toNat, Nat.testBit_mod_two_pow, Nat.testBit_shiftLeft, testBit_toNat]
  by_cases hi : i < BITS
  · have hj : i / 32 < BITS / 32 := by omega
    have hhi : ((List.finRange (BITS / 32)).any fun l => decide (l.val + shift / 32 + 1 = i / 32)) =
        decide (shift / 32 + 1 ≤ i / 32) := by
      simpa only [Nat.add_assoc] using any_finRange_add_eq (k := shift / 32 + 1) hj
    rw [word_of_lt _ hj, hlimbs _ hj, hhi, any_finRange_add_eq hj]
    by_cases hts : shift % 32 ≤ i % 32
    · -- the bit comes from the low part of limb `j - k`; the top part lands above it
      have hzero : (decide (shift % 32 ≠ 0) && decide (shift / 32 + 1 ≤ i / 32) &&
          (a.word (i / 32 - shift / 32 - 1) >>> (32 - shift % 32).toUInt32).toNat.testBit
            (i % 32)) = false := by
        by_cases hsh : shift % 32 = 0
        · simp [hsh]
        · rw [testBit_uint32_shiftRight _ (by omega), testBit_uint32_of_le _ (by omega)]
          simp
      rw [hzero, Bool.false_or, testBit_uint32_shiftLeft _ (by omega) (by omega)]
      by_cases hk : shift / 32 ≤ i / 32
      · have hq : (i - shift) / 32 = i / 32 - shift / 32 := by omega
        have hr : (i - shift) % 32 = i % 32 - shift % 32 := by omega
        simp [hi, hk, hts, hq, hr, show shift ≤ i by omega]
      · simp [hk, show ¬shift ≤ i by omega]
    · -- the bit comes from the top part of limb `j - k - 1`
      rw [testBit_uint32_shiftLeft _ (by omega) (by omega),
        testBit_uint32_shiftRight _ (by omega)]
      by_cases hk : shift / 32 + 1 ≤ i / 32
      · have hq : (i - shift) / 32 = i / 32 - shift / 32 - 1 := by omega
        have hr : (i - shift) % 32 = 32 - shift % 32 + i % 32 := by omega
        simp [hi, hk, hts, hq, hr, show shift ≤ i by omega, show shift % 32 ≠ 0 by omega]
      · simp [hk, hts, show ¬shift ≤ i by omega]
  · simp [hi, word_of_le _ (show BITS / 32 ≤ i / 32 by omega)]

end ShiftLeft

-- ---------------------------------------------------------------------------
-- operator>>=
-- ---------------------------------------------------------------------------

section ShiftRight

variable {a : BaseUint BITS} {k sh : Nat}

/-- Bit `t` of each limb of the `operator>>=` accumulator once the iterations `S` have run:
the high bits of limb `j + k` if its iteration has run, and the low bits of limb `j + k + 1`
if its iteration has run. -/
def ShiftRightLimbs (a : BaseUint BITS) (k sh : Nat) (S : List (Fin (BITS / 32))) (pn : Vector UInt32 (BITS / 32)) :
    Prop :=
  ∀ (j : Nat) (hj : j < BITS / 32) (t : Nat), pn[j].toNat.testBit t =
    ((S.any fun i => decide (i.val = j + k)) && (a.word (j + k) >>> sh.toUInt32).toNat.testBit t ||
      (decide (sh ≠ 0) && S.any fun i => decide (i.val = j + k + 1)) &&
        (a.word (j + k + 1) <<< (32 - sh).toUInt32).toNat.testBit t)

/-- One iteration ORs the low part of limb `i` into limb `i - k - 1` and its high part into
limb `i - k`. -/
theorem testBit_shiftRightStep (pn : Vector UInt32 (BITS / 32)) (i : Fin (BITS / 32)) {j : Nat} (hj : j < BITS / 32)
    (t : Nat) :
    (shiftRightStep a k sh pn i)[j].toNat.testBit t =
      (pn[j].toNat.testBit t ||
        (decide (i.val = j + k + 1) && decide (sh ≠ 0)) &&
          (a.pn[i] <<< (32 - sh).toUInt32).toNat.testBit t ||
        decide (i.val = j + k) && (a.pn[i] >>> sh.toUInt32).toNat.testBit t) := by
  unfold shiftRightStep
  dsimp only
  rw [getElem_dite_set_or _ (fun h => by omega) _ hj,
    getElem_dite_set_or _ (fun h => by omega) _ hj]
  -- the guards of the source against the limb read
  have c1 : ((k + 1 ≤ i.val ∧ sh ≠ 0) ∧ i.val - k - 1 = j) ↔ (i.val = j + k + 1 ∧ sh ≠ 0) := by
    omega
  have c2 : (k ≤ i.val ∧ i.val - k = j) ↔ i.val = j + k := by omega
  simp only [c1, c2]
  by_cases e1 : i.val = j + k + 1 <;> by_cases e2 : i.val = j + k <;> by_cases hsh : sh = 0 <;>
    simp [e1, e2, hsh, UInt32.toNat_or, Nat.testBit_or]

theorem shiftRightLimbs_step {S : List (Fin (BITS / 32))} {pn : Vector UInt32 (BITS / 32)}
    (h : ShiftRightLimbs a k sh S pn) (i : Fin (BITS / 32)) :
    ShiftRightLimbs a k sh (S ++ [i]) (shiftRightStep a k sh pn i) := by
  intro j hj t
  rw [testBit_shiftRightStep pn i hj, h j hj]
  by_cases e1 : i.val = j + k + 1 <;> by_cases e2 : i.val = j + k
  · omega
  · -- the new write is the low part of limb `i = j + k + 1`
    have hw : a.word (j + k + 1) = a.pn[i] := by rw [← word_fin, e1]
    simp [e2, hw, List.any_append]
    grind
  · -- the new write is the high part of limb `i = j + k`
    have hw : a.word (j + k) = a.pn[i] := by rw [← word_fin, e2]
    simp [e1, hw, List.any_append]
    grind
  · simp [e1, e2, List.any_append]

theorem shiftRightLimbs_init : ShiftRightLimbs a k sh [] (Vector.replicate (BITS / 32) 0) := by
  intro j hj t
  simp

/-- `operator>>=` shifts the number right. -/
theorem toNat_shiftRight (a : BaseUint BITS) (shift : Nat) :
    (a.shiftRight shift).toNat = a.toNat >>> shift := by
  -- the limb count is `BITS / 32`, exactly
  have hmod := a.bits_mod
  have hlimbs : ShiftRightLimbs a (shift / 32) (shift % 32) (List.finRange (BITS / 32))
      (a.shiftRight shift).pn := by
    have h := foldl_prefix_invariant (P := ShiftRightLimbs a (shift / 32) (shift % 32))
      (fun _ _ i h => shiftRightLimbs_step h i) (List.finRange (BITS / 32)) shiftRightLimbs_init
    rw [List.nil_append] at h
    exact h
  apply Nat.eq_of_testBit_eq
  intro i
  rw [testBit_toNat, Nat.testBit_shiftRight, testBit_toNat]
  by_cases hj : i / 32 < BITS / 32
  · rw [word_of_lt _ hj, hlimbs _ hj, any_finRange_eq, any_finRange_eq]
    by_cases hts : shift % 32 + i % 32 < 32
    · -- the bit comes from the high part of limb `j + k`; the low part of the next limb
      -- lands above it
      have hzero : (decide (shift % 32 ≠ 0) && decide (i / 32 + shift / 32 + 1 < BITS / 32) &&
          (a.word (i / 32 + shift / 32 + 1) <<< (32 - shift % 32).toUInt32).toNat.testBit
            (i % 32)) = false := by
        by_cases hsh : shift % 32 = 0
        · simp [hsh]
        · rw [testBit_uint32_shiftLeft _ (by omega) (by omega)]
          simp [show ¬32 - shift % 32 ≤ i % 32 by omega]
      have hq : (shift + i) / 32 = i / 32 + shift / 32 := by omega
      have hr : (shift + i) % 32 = shift % 32 + i % 32 := by omega
      rw [hzero, Bool.or_false, testBit_uint32_shiftRight _ (by omega), hq, hr]
      by_cases hk : i / 32 + shift / 32 < BITS / 32
      · simp [hk]
      · simp [hk, word_of_le _ (show BITS / 32 ≤ i / 32 + shift / 32 by omega)]
    · -- the bit comes from the low part of limb `j + k + 1`
      have hq : (shift + i) / 32 = i / 32 + shift / 32 + 1 := by omega
      have hr : (shift + i) % 32 = i % 32 - (32 - shift % 32) := by omega
      rw [testBit_uint32_shiftRight _ (by omega), testBit_uint32_of_le _ (by omega),
        testBit_uint32_shiftLeft _ (by omega) (by omega), hq, hr]
      by_cases hk : i / 32 + shift / 32 + 1 < BITS / 32
      · simp [hk, show shift % 32 ≠ 0 by omega, show 32 - shift % 32 ≤ i % 32 by omega]
      · simp [hk, word_of_le _ (show BITS / 32 ≤ i / 32 + shift / 32 + 1 by omega)]
  · simp [word_of_le _ (Nat.le_of_not_lt hj),
      word_of_le _ (show BITS / 32 ≤ (shift + i) / 32 by omega)]

end ShiftRight

-- ---------------------------------------------------------------------------
-- bits() and GetLow64
-- ---------------------------------------------------------------------------

theorem toNat_eq_zero_uint32 {x : UInt32} : x.toNat = 0 ↔ x = 0 := by
  rw [← UInt32.toNat_inj]
  simp

/-- The inner loop of `bits()` finds the top set bit of a nonzero word below `2 ^ (n + 1)`. -/
theorem topBit_eq_size (word : UInt32) {n : Nat} (hn : n < 32) (h0 : word ≠ 0)
    (hlt : word.toNat < 2 ^ (n + 1)) : topBit word n = word.toNat.size := by
  have hpos : word.toNat ≠ 0 := fun h => h0 (toNat_eq_zero_uint32.mp h)
  induction n with
  | zero =>
    have hone : word.toNat = 1 := by omega
    simp [topBit, hone, Nat.size_one]
  | succ n ih =>
    have hmask : (word &&& 1 <<< (n + 1).toUInt32).toNat = word.toNat &&& 2 ^ (n + 1) := by
      rw [UInt32.toNat_and, UInt32.toNat_shiftLeft, toNat_toUInt32_mod hn,
        show (1 : UInt32).toNat = 1 from rfl, Nat.one_shiftLeft,
        Nat.mod_eq_of_lt (Nat.pow_lt_pow_right (by decide) hn)]
    rw [topBit]
    by_cases hbit : word.toNat.testBit (n + 1)
    · -- bit `n + 1` is the top one: the word lies in `[2 ^ (n + 1), 2 ^ (n + 2))`
      have hne : word &&& 1 <<< (n + 1).toUInt32 ≠ 0 := by
        intro h
        have hzero := toNat_eq_zero_uint32.mpr h
        rw [hmask, Nat.and_two_pow, hbit] at hzero
        simp at hzero
      rw [if_pos hne]
      apply le_antisymm
      · exact Nat.lt_size.mpr (Nat.ge_two_pow_of_testBit hbit)
      · exact Nat.size_le.mpr hlt
    · -- the word is below `2 ^ (n + 1)`, and the loop goes on one bit lower
      have heq : word &&& 1 <<< (n + 1).toUInt32 = 0 := by
        rw [← toNat_eq_zero_uint32, hmask, Nat.and_two_pow]
        simp [hbit]
      rw [if_neg (not_not.mpr heq)]
      apply ih (by omega)
      by_contra hge
      exact hbit (Nat.testBit_of_two_pow_le_and_two_pow_add_one_gt (Nat.le_of_not_lt hge) hlt)

/-- The outer loop of `bits()` over the limbs below `pos` gives the bit length of the number
those limbs denote. -/
theorem bitsBelow_eq_size (a : BaseUint BITS) (pos : Nat) :
    a.bitsBelow pos = (Limbs.value 32 (fun i => (a.word i).toNat) pos).size := by
  induction pos with
  | zero => simp [bitsBelow, Nat.size_zero]
  | succ pos ih =>
    rw [bitsBelow, Limbs.size_value_succ (toNat_word_lt a)]
    by_cases h0 : a.word pos = 0
    · simp [h0, ih]
    · rw [if_pos h0, if_neg (fun h => h0 (toNat_eq_zero_uint32.mp h)),
        topBit_eq_size _ (by decide) h0 (toNat_word_lt a pos)]

/-- `bits()` is the bit length of the number. -/
theorem bits_eq_size (a : BaseUint BITS) : a.bits = a.toNat.size := bitsBelow_eq_size a (BITS / 32)

/-- `bits()` is the position of the highest set bit plus one, and `0` for zero. -/
theorem bits_spec (a : BaseUint BITS) :
    (a.toNat = 0 → a.bits = 0) ∧
      (a.toNat ≠ 0 → a.toNat.testBit (a.bits - 1) = true ∧ ∀ i, a.bits ≤ i → a.toNat.testBit i = false) := by
  rw [bits_eq_size]
  refine ⟨fun h => by rw [h]; rfl, fun h => ⟨?_, fun i hi => ?_⟩⟩
  · have hpos : 0 < a.toNat.size := Nat.size_pos.mpr (Nat.pos_of_ne_zero h)
    exact Nat.testBit_of_two_pow_le_and_two_pow_add_one_gt (Nat.lt_size.mp (by omega))
      (by rw [Nat.sub_add_cancel hpos]; exact Nat.lt_size_self _)
  · exact Nat.testBit_lt_two_pow
      (lt_of_lt_of_le (Nat.lt_size_self _) (Nat.pow_le_pow_right (by decide) hi))

/-- `GetLow64()` is the number modulo `2 ^ 64`, for the `WIDTH >= 2` its `static_assert`
asks for. -/
theorem toNat_getLow64 (a : BaseUint BITS) (hw : 2 ≤ BITS / 32) :
    a.getLow64.toNat = a.toNat % 2 ^ 64 := by
  have hlow : a.toNat % 2 ^ (32 * 2) = Limbs.value 32 (fun i => (a.word i).toNat) 2 :=
    Limbs.value_mod_two_pow (toNat_word_lt a) hw
  rw [show (2 : Nat) ^ 64 = 2 ^ (32 * 2) from rfl, hlow, getLow64]
  have h0 := toNat_word_lt a 0
  have h1 := toNat_word_lt a 1
  simp only [UInt64.toNat_or, UInt64.toNat_shiftLeft, UInt32.toNat_toUInt64, Limbs.value_succ,
    Limbs.value_zero]
  rw [show (32 : UInt64).toNat % 64 = 32 from rfl,
    Nat.mod_eq_of_lt (show (a.word 1).toNat <<< 32 < 2 ^ 64 by
      rw [Nat.shiftLeft_eq]; omega),
    Nat.or_comm, ← Nat.shiftLeft_add_eq_or_of_lt h0, Nat.shiftLeft_eq]
  omega

end BaseUint

namespace ArithUint256

open BaseUint

/-- `arith_uint256(uint64_t b)`, that is `base_uint(uint64_t b)`: the low and the high half
of `b` in the two low limbs. -/
def ofUInt64 (b : UInt64) : ArithUint256 :=
  ⟨#v[b.toUInt32, (b >>> 32).toUInt32, 0, 0, 0, 0, 0, 0], by decide, by decide⟩

/-- `base_uint(uint64_t b)` denotes `b`. -/
theorem toNat_ofUInt64 (b : UInt64) : (ofUInt64 b).toNat = b.toNat := by
  have hb := UInt64.toNat_lt b
  simp [BaseUint.toNat, ofUInt64, BaseUint.word, Limbs.value_succ]
  omega

end ArithUint256

end Riecoin
