-- SUMMARY: Two-bit labels kept in pairs of 64-bit words (the word formulas that read, set and wipe them) and labels that cycle through three generations, with what a wipe of the next generation keeps.
import Mathlib.Order.Basic
import Mathlib.Tactic.IntervalCases
import Mathlib.Tactic.NormNum

/-!
# Rolling labels

A list of 64-bit words, read in pairs, holds a table of 2-bit labels: the label of cell `(i, b)`
has bit `b` of word `2 i` as its low bit and bit `b` of word `2 i + 1` as its high bit. Label 0
means empty. The first section gives what the usual word formulas do to one cell: clearing a bit
and or-ing in a new one, a wipe by the mask `(p1 ^ m1) | (p2 ^ m2)`, and the test of a bit after a
shift.

The second section is the reason such a table is used: labels cycle through the generations
1, 2, 3, 1, ..., and moving to the next generation wipes the cells labelled with it. A cell written
in one of the last three generations then keeps a nonzero label: `Fresh` says that its label is
that of a generation between its writing and now, and a wipe of the next generation keeps it as
long as it was written at most one generation back. With `G` entries a generation, the last
section places the entries: the last `2 G` are in the last three generations, which hold no more
than the last `3 G`.
-/

namespace RollingLabels

-- ---------------------------------------------------------------------------
-- Bits of words
-- ---------------------------------------------------------------------------

/-- Bit `b` of a word. -/
def bit (w : UInt64) (b : Nat) : Bool := w.toNat.testBit b

/-- The formula `(w & ~(1 << b)) | (v << b)` sets bit `b` of `w` to `v`, for `v` 0 or 1. -/
theorem bit_setBit (w : UInt64) {v b b' : Nat} (hv : v ≤ 1) (hb : b < 64) (hb' : b' < 64) :
    bit ((w &&& ~~~((1 : UInt64) <<< UInt64.ofNat b)) ||| UInt64.ofNat v <<< UInt64.ofNat b) b' =
      if b' = b then decide (v = 1) else bit w b' := by
  show BitVec.getLsbD _ b' = if b' = b then decide (v = 1) else BitVec.getLsbD _ b'
  rcases Nat.lt_trichotomy b' b with h | rfl | h
  · interval_cases v <;> simp [Nat.mod_eq_of_lt hb, hb', h, Nat.ne_of_lt h]
  · interval_cases v <;> simp [Nat.mod_eq_of_lt hb, hb']
  · interval_cases v <;>
      simp [Nat.mod_eq_of_lt hb, hb', Nat.not_lt_of_gt h, Nat.ne_of_gt h, Nat.sub_eq_zero_iff_le, Nat.not_le_of_gt h]

/-- `0 - v` is the word of all `v`s, for `v` 0 or 1. -/
theorem bit_zero_sub {v b : Nat} (hv : v ≤ 1) (hb : b < 64) :
    bit ((0 : UInt64) - UInt64.ofNat v) b = decide (v = 1) := by
  show BitVec.getLsbD _ b = _
  interval_cases v
  · simp
  · have hones : ((0 : UInt64) - UInt64.ofNat 1).toBitVec = BitVec.allOnes 64 := by decide
    simp only [hones, BitVec.getLsbD_allOnes, hb]

@[simp] theorem bit_and (x y : UInt64) (b : Nat) : bit (x &&& y) b = (bit x b && bit y b) := by
  simp [bit, Nat.testBit_and]

@[simp] theorem bit_or (x y : UInt64) (b : Nat) : bit (x ||| y) b = (bit x b || bit y b) := by
  simp [bit, Nat.testBit_or]

@[simp] theorem bit_xor (x y : UInt64) (b : Nat) : bit (x ^^^ y) b = (bit x b ^^ bit y b) := by
  simp [bit, Nat.testBit_xor]

@[simp] theorem bit_zero (b : Nat) : bit 0 b = false := by
  simp [bit]

/-- The test `((x >> b) & 1) != 0` reads bit `b`. -/
theorem shiftRight_and_one_ne_zero (x : UInt64) {b : Nat} (hb : b < 64) :
    ((x >>> UInt64.ofNat b) &&& 1 != 0) = bit x b := by
  rw [bit, Bool.eq_iff_iff]
  simp [← UInt64.toNat_inj, Nat.testBit, Nat.mod_eq_of_lt hb]

-- ---------------------------------------------------------------------------
-- Two-bit cells
-- ---------------------------------------------------------------------------

/-- The words `pos & ~1` and `pos | 1` of a 32-bit position `pos` are the two words of its pair. -/
theorem toNat_and_not_one (pos : UInt32) : (pos &&& ~~~1).toNat = 2 * (pos.toNat / 2) := by
  have hnot : (~~~1 : UInt32).toNat = 4294967294 := by decide
  have hpos := pos.toNat_lt
  rw [UInt32.toNat_and, hnot]
  apply Nat.eq_of_testBit_eq
  intro i
  rcases i with _ | i
  · simp
  · have h_half : 2 * (pos.toNat / 2) / 2 = pos.toNat / 2 := by omega
    rw [Nat.testBit_and, Nat.testBit_succ, Nat.testBit_succ, Nat.testBit_succ, h_half,
      show (4294967294 : Nat) / 2 = 2 ^ 31 - 1 by norm_num, Nat.testBit_two_pow_sub_one]
    by_cases hi : i < 31
    · simp [hi]
    · -- the pair index has no bit at 31 or above
      have hhalf : pos.toNat / 2 < 2 ^ 31 := by omega
      have hlt : pos.toNat / 2 < 2 ^ i := lt_of_lt_of_le hhalf (Nat.pow_le_pow_right (by norm_num) (by omega))
      simp [Nat.testBit_lt_two_pow hlt]

theorem toNat_or_one (pos : UInt32) : (pos ||| 1).toNat = 2 * (pos.toNat / 2) + 1 := by
  rw [UInt32.toNat_or, UInt32.toNat_one]
  apply Nat.eq_of_testBit_eq
  intro i
  rcases i with _ | i
  · simp
  · have h_half : (2 * (pos.toNat / 2) + 1) / 2 = pos.toNat / 2 := by omega
    rw [Nat.testBit_or, Nat.testBit_succ, Nat.testBit_succ, Nat.testBit_succ, h_half]
    simp

/-- The label of cell `(i, b)`, 0 to 3. -/
def label (data : List UInt64) (i b : Nat) : Nat :=
  (bit (data.getD (2 * i) 0) b).toNat + 2 * (bit (data.getD (2 * i + 1) 0) b).toNat

theorem label_eq_zero_iff {data : List UInt64} {i b : Nat} :
    label data i b = 0 ↔ (bit (data.getD (2 * i) 0) b || bit (data.getD (2 * i + 1) 0) b) = false := by
  unfold label
  cases bit (data.getD (2 * i) 0) b <;> cases bit (data.getD (2 * i + 1) 0) b <;> simp

@[simp] theorem label_replicate_zero (n i b : Nat) : label (List.replicate n 0) i b = 0 := by
  simp [label, List.getD_eq_getElem?_getD, List.getElem?_replicate]
  split_ifs <;> simp

theorem label_cons_cons_zero (p1 p2 : UInt64) (rest : List UInt64) (b : Nat) :
    label (p1 :: p2 :: rest) 0 b = (bit p1 b).toNat + 2 * (bit p2 b).toNat := rfl

theorem label_cons_cons_succ (p1 p2 : UInt64) (rest : List UInt64) (i b : Nat) :
    label (p1 :: p2 :: rest) (i + 1) b = label rest i b := by
  simp only [label, show 2 * (i + 1) = 2 * i + 1 + 1 by omega, List.getD_cons_succ]

/-- Writing label `g` into cell `(i, b)` word by word: the low bit of `g` into word `2 i`, then its
high bit into word `2 i + 1`. No other cell changes. -/
theorem label_write {data : List UInt64} {i b g : Nat} (hi : 2 * i + 1 < data.length) (hb : b < 64) (hg : g < 4)
    (j b' : Nat) (hb' : b' < 64) :
    label ((data.set (2 * i) ((data.getD (2 * i) 0 &&& ~~~((1 : UInt64) <<< UInt64.ofNat b)) |||
        UInt64.ofNat (g &&& 1) <<< UInt64.ofNat b)).set (2 * i + 1)
        ((data.getD (2 * i + 1) 0 &&& ~~~((1 : UInt64) <<< UInt64.ofNat b)) |||
          UInt64.ofNat (g >>> 1) <<< UInt64.ofNat b)) j b' =
      if j = i ∧ b' = b then g else label data j b' := by
  have hlow : g &&& 1 ≤ 1 := by interval_cases g <;> decide
  have hhigh : g >>> 1 ≤ 1 := by interval_cases g <;> decide
  simp only [label, List.getD_eq_getElem?_getD, List.getElem?_set]
  by_cases hj : j = i
  · subst hj
    simp only [if_true, List.length_set, show 2 * j ≠ 2 * j + 1 by omega, show 2 * j + 1 ≠ 2 * j by omega,
      if_false, hi, show 2 * j < data.length by omega, Option.getD_some, List.getElem?_eq_getElem, true_and]
    rw [bit_setBit _ hlow hb hb', bit_setBit _ hhigh hb hb']
    by_cases hbb : b' = b
    · subst hbb
      interval_cases g <;> simp
    · simp [hbb]
  · simp only [show 2 * i ≠ 2 * j by omega, show 2 * i + 1 ≠ 2 * j by omega, show 2 * i ≠ 2 * j + 1 by omega,
      show 2 * i + 1 ≠ 2 * j + 1 by omega, if_false, hj, false_and]

/-- The wipe of a pair of words by the mask `(p1 ^ m1) | (p2 ^ m2)`, with `m1` and `m2` all low
and all high bits of `g`, empties the cells labelled `g` and keeps the others. -/
theorem label_wipe (p1 p2 m1 m2 : UInt64) {g b : Nat} (hg : g < 4)
    (hm1 : bit m1 b = decide (g &&& 1 = 1)) (hm2 : bit m2 b = decide (g >>> 1 = 1)) :
    (bit (p1 &&& ((p1 ^^^ m1) ||| (p2 ^^^ m2))) b).toNat + 2 * (bit (p2 &&& ((p1 ^^^ m1) ||| (p2 ^^^ m2))) b).toNat =
      if (bit p1 b).toNat + 2 * (bit p2 b).toNat = g then 0 else (bit p1 b).toNat + 2 * (bit p2 b).toNat := by
  simp only [bit_and, bit_or, bit_xor, hm1, hm2]
  interval_cases g <;> cases bit p1 b <;> cases bit p2 b <;> decide

-- ---------------------------------------------------------------------------
-- Three rolling generations
-- ---------------------------------------------------------------------------

/-- The label of generation `e`, counted from 0: 1, 2, 3, 1, 2, 3, ... -/
def gen (e : Nat) : Nat := e % 3 + 1

theorem gen_pos (e : Nat) : 0 < gen e := by
  unfold gen; omega

theorem gen_lt_four (e : Nat) : gen e < 4 := by
  unfold gen; omega

/-- The step from one generation's label to the next: up by one, and from 3 back to 1. -/
theorem gen_succ (e : Nat) : gen (e + 1) = if gen e + 1 = 4 then 1 else gen e + 1 := by
  unfold gen; split_ifs <;> omega

/-- A label written in generation `e` or later, up to generation `E`: that of one of these. -/
def Fresh (l e E : Nat) : Prop := ∃ e', e ≤ e' ∧ e' ≤ E ∧ l = gen e'

theorem fresh_gen {e E : Nat} (h : e ≤ E) : Fresh (gen E) e E := ⟨E, h, le_rfl, rfl⟩

theorem Fresh.ne_zero {l e E : Nat} (h : Fresh l e E) : l ≠ 0 := by
  obtain ⟨e', -, -, rfl⟩ := h
  exact Nat.ne_of_gt (gen_pos e')

theorem Fresh.succ {l e E : Nat} (h : Fresh l e E) : Fresh l e (E + 1) := by
  obtain ⟨e', he, hE, rfl⟩ := h
  exact ⟨e', he, Nat.le_succ_of_le hE, rfl⟩

/-- The next generation's label is none of the last two: a wipe of it keeps what they wrote. -/
theorem Fresh.ne_gen_succ {l e E : Nat} (h : Fresh l e E) (hE : E ≤ e + 1) : l ≠ gen (E + 1) := by
  obtain ⟨e', he, he', rfl⟩ := h
  unfold gen
  omega

-- ---------------------------------------------------------------------------
-- Generations of `G` entries
-- ---------------------------------------------------------------------------

-- The `m`-th entry, counted from 0, falls in generation `m / G`.

/-- An insert that finds room in its generation stays in it. -/
theorem succ_div_of_mod_lt {m G : Nat} (hG : 0 < G) (h : m % G + 1 < G) :
    (m + 1) / G = m / G ∧ (m + 1) % G = m % G + 1 := by
  have hdm := Nat.mod_add_div m G
  exact (Nat.div_mod_unique hG).mpr ⟨by omega, h⟩

/-- An insert that finds its generation full starts the next one. -/
theorem succ_div_of_mod_eq {m G : Nat} (hG : 0 < G) (h : m % G + 1 = G) :
    (m + 1) / G = m / G + 1 ∧ (m + 1) % G = 0 := by
  have hdm := Nat.mod_add_div m G
  refine (Nat.div_mod_unique hG).mpr ⟨?_, hG⟩
  rw [Nat.mul_add, Nat.mul_one]
  omega

/-- With generations of `G ≥ N / 2` inserts, the last `N` of `m` inserts are in the last
generation or the two before. -/
theorem div_le_div_add_two {i m G N : Nat} (hG : 0 < G) (hN : N ≤ 2 * G) (h : m ≤ i + N) :
    (m - 1) / G ≤ i / G + 2 := by
  calc (m - 1) / G ≤ (i + 2 * G) / G := Nat.div_le_div_right (by omega)
    _ = i / G + 2 := Nat.add_mul_div_right i 2 hG

/-- The inserts of the last generation and the two before are among the last `3 G`. -/
theorem le_add_three_mul {i m G : Nat} (hG : 0 < G) (h : (m - 1) / G ≤ i / G + 2) : m ≤ i + 3 * G := by
  have hlast : m - 1 < G * ((m - 1) / G + 1) := Nat.lt_mul_div_succ (m - 1) hG
  have hfirst : G * (i / G) ≤ i := Nat.mul_div_le i G
  have hmono : G * ((m - 1) / G + 1) ≤ G * (i / G) + 3 * G := by
    calc G * ((m - 1) / G + 1) ≤ G * (i / G + 3) := Nat.mul_le_mul_left G (by omega)
      _ = G * (i / G) + 3 * G := by rw [Nat.mul_add, Nat.mul_comm G 3]
  omega

end RollingLabels
