-- SUMMARY: The compact encoding of `arith_uint256` (`SetCompact`, `GetCompact`): a byte exponent over a 23-bit mantissa and a sign bit, its arithmetic meaning, and the round trips between the two directions.
import Riecoin.Base.ArithUint256

/-!
# The compact encoding

`GetCompact` writes a number as `nSize * 2 ^ 24 + mantissa`: `nSize` is its length in bytes
and the mantissa its three top bytes, moved down one more byte when the top one would set
the sign bit `0x00800000`. `SetCompact` reads such a word back, with the bytes below the
mantissa zero, and reports a set sign bit over a nonzero mantissa (`pfNegative`) and a
mantissa that does not fit in 256 bits (`pfOverflow`).

The proofs go through what `GetCompact` computes in arithmetic terms (`getCompact_eq`): the
exponent `compactExponent x` (zero for zero, otherwise the bit length divided by 8, plus
one) over the mantissa `compactMantissa x e`, the number scaled by `2 ^ 24 / 256 ^ e`. The
bit length of that mantissa is linear in the bit length of the number
(`size_compactMantissa`), so the bounds the source's asserts and flags test become linear
facts that `omega` settles.
-/

namespace Riecoin

namespace ArithUint256

open BaseUint

/-- `SetCompact(nCompact, pfNegative, pfOverflow)`: the number, `*pfNegative` and
`*pfOverflow`. -/
def setCompact (nCompact : UInt32) : ArithUint256 × Bool × Bool :=
  let nSize := (nCompact >>> 24).toNat
  let nWord := nCompact &&& 0x007fffff
  let nWord := if nSize ≤ 3 then nWord >>> (8 * (3 - nSize)).toUInt32 else nWord
  let value := if nSize ≤ 3 then ofUInt64 nWord.toUInt64
    else (ofUInt64 nWord.toUInt64).shiftLeft (8 * (nSize - 3))
  let fNegative := nWord != 0 && nCompact &&& 0x00800000 != 0
  let fOverflow := nWord != 0 && (decide (nSize > 34) || decide (nWord > 0xff) && decide (nSize > 33) ||
    decide (nWord > 0xffff) && decide (nSize > 32))
  (value, fNegative, fOverflow)

/-- The first step of `GetCompact` for a number `nSize` bytes long: the number moved so that
its top byte is byte 2 of the word, by `GetLow64() << 8 * (3 - nSize)` or by
`(*this >> 8 * (nSize - 3)).GetLow64()`. -/
def compactBytes (a : ArithUint256) (nSize : Nat) : UInt32 :=
  if nSize ≤ 3 then (a.getLow64 <<< (8 * (3 - nSize)).toUInt64).toUInt32
  else (a.shiftRight (8 * (nSize - 3))).getLow64.toUInt32

/-- `GetCompact(fNegative)`; `none` where one of its `assert`s would fail. -/
def getCompact (a : ArithUint256) (fNegative : Bool) : Option UInt32 := do
  -- `CeilDiv(bits(), 8u)`
  let nSize := (a.bits + 7) / 8
  let nCompact := compactBytes a nSize
  -- The 0x00800000 bit denotes the sign: a mantissa that would set it moves down a byte.
  let signBit : Bool := nCompact &&& 0x00800000 != 0
  let nCompact := if signBit then nCompact >>> 8 else nCompact
  let nSize := if signBit then nSize + 1 else nSize
  if nCompact &&& ~~~0x007fffff ≠ 0 then none
  if ¬nSize < 256 then none
  let nCompact := nCompact ||| nSize.toUInt32 <<< 24
  pure (nCompact ||| if fNegative && nCompact &&& 0x007fffff != 0 then 0x00800000 else 0)

-- ---------------------------------------------------------------------------
-- The encoding in arithmetic terms
-- ---------------------------------------------------------------------------

/-- The exponent `GetCompact` writes for `x`: zero for zero, otherwise its length in bytes,
plus one when its top byte would set the sign bit; both come to the bit length divided by
8, plus one. -/
def compactExponent (x : Nat) : Nat := if x = 0 then 0 else x.size / 8 + 1

/-- The mantissa of `x` under exponent `e`: `x` scaled by `2 ^ 24 / 256 ^ e`, the three bytes
of `x` below byte `e`. -/
def compactMantissa (x e : Nat) : Nat := x * 2 ^ 24 / 2 ^ (8 * e)

/-- The two branches of `GetCompact` and `SetCompact`: a left shift for the short numbers, a
right shift for the others. -/
theorem compactMantissa_eq (x e : Nat) :
    compactMantissa x e = if e ≤ 3 then x * 2 ^ (8 * (3 - e)) else x / 2 ^ (8 * (e - 3)) := by
  unfold compactMantissa
  split_ifs with he
  · have hpow : (2 : Nat) ^ 24 = 2 ^ (8 * e) * 2 ^ (8 * (3 - e)) := by
      rw [← Nat.pow_add]
      congr 1
      omega
    rw [hpow, Nat.mul_left_comm, Nat.mul_div_cancel_left _ (Nat.two_pow_pos _)]
  · have hpow : (2 : Nat) ^ (8 * e) = 2 ^ (8 * (e - 3)) * 2 ^ 24 := by
      rw [← Nat.pow_add]
      congr 1
      omega
    rw [hpow, Nat.mul_div_mul_right _ _ (Nat.two_pow_pos 24)]

@[simp] theorem compactMantissa_zero (e : Nat) : compactMantissa 0 e = 0 := by
  simp [compactMantissa]

/-- The bit length of the mantissa is linear in that of the number. -/
theorem size_compactMantissa {x : Nat} (hx : x ≠ 0) (e : Nat) :
    (compactMantissa x e).size = x.size + 24 - 8 * e := by
  rw [compactMantissa, Limbs.size_div_two_pow, Limbs.size_mul_two_pow hx]

/-- Moving the mantissa down a byte is raising the exponent by one. -/
theorem compactMantissa_div_256 (x e : Nat) :
    compactMantissa x e / 256 = compactMantissa x (e + 1) := by
  rw [compactMantissa, compactMantissa, Nat.div_div_eq_div_mul, Nat.mul_add, Nat.pow_add]

/-- The word `GetCompact` writes for `x`, in arithmetic terms. -/
def compactWord (x : Nat) (fNegative : Bool) : UInt32 :=
  UInt32.ofNat (compactMantissa x (compactExponent x) + compactExponent x * 2 ^ 24 +
    if fNegative = true ∧ compactMantissa x (compactExponent x) ≠ 0 then 2 ^ 23 else 0)

section Bounds

variable {x : Nat}

theorem compactExponent_le (hx : x < 2 ^ 256) : compactExponent x ≤ 33 := by
  have hb : x.size ≤ 256 := Nat.size_le.mpr hx
  unfold compactExponent
  split_ifs <;> omega

/-- The mantissa `GetCompact` writes leaves the sign bit clear. -/
theorem compactMantissa_lt (x : Nat) : compactMantissa x (compactExponent x) < 2 ^ 23 := by
  by_cases hx : x = 0
  · simp [hx]
  · rw [← Nat.size_le, size_compactMantissa hx, compactExponent, if_neg hx]
    omega

/-- The mantissa of a nonzero number has a nonzero top byte. -/
theorem le_compactMantissa (hx : x ≠ 0) : 2 ^ 15 ≤ compactMantissa x (compactExponent x) := by
  have hpos : 0 < x.size := Nat.size_pos.mpr (Nat.pos_of_ne_zero hx)
  rw [← Nat.lt_size, size_compactMantissa hx, compactExponent, if_neg hx]
  omega

/-- Before the sign check, with the length in bytes as exponent, the mantissa has three
bytes. -/
theorem compactMantissa_ceil_lt (x : Nat) : compactMantissa x ((x.size + 7) / 8) < 2 ^ 24 := by
  by_cases hx : x = 0
  · simp [hx]
  · rw [← Nat.size_le, size_compactMantissa hx]
    omega

/-- ... and sets the sign bit exactly when the bit length is a multiple of 8. -/
theorem two_pow_le_compactMantissa_ceil_iff :
    2 ^ 23 ≤ compactMantissa x ((x.size + 7) / 8) ↔ x ≠ 0 ∧ x.size % 8 = 0 := by
  by_cases hx : x = 0
  · simp [hx]
  · have hpos : 0 < x.size := Nat.size_pos.mpr (Nat.pos_of_ne_zero hx)
    rw [← Nat.lt_size, size_compactMantissa hx]
    omega

/-- The exponent is the length in bytes, plus one when the sign check moves the mantissa. -/
theorem compactExponent_eq_ceil (x : Nat) :
    compactExponent x = if x ≠ 0 ∧ x.size % 8 = 0 then (x.size + 7) / 8 + 1 else (x.size + 7) / 8 := by
  unfold compactExponent
  by_cases hx : x = 0
  · simp [hx, Nat.size_zero]
  · have hpos : 0 < x.size := Nat.size_pos.mpr (Nat.pos_of_ne_zero hx)
    simp only [hx, if_false, ne_eq, not_false_eq_true, true_and]
    split_ifs <;> omega

end Bounds

-- ---------------------------------------------------------------------------
-- The bits of the compact word
-- ---------------------------------------------------------------------------

section Word

variable {w : UInt32}

/-- For a word below `2 ^ 24`, the sign bit is set when the word reaches `2 ^ 23`. -/
theorem signBit_ne_zero_eq (hw : w.toNat < 2 ^ 24) :
    (w &&& 0x00800000 != 0) = decide (2 ^ 23 ≤ w.toNat) := by
  have hmask : (w &&& 0x00800000).toNat = (w.toNat.testBit 23).toNat * 2 ^ 23 := by
    rw [UInt32.toNat_and, show (0x00800000 : UInt32).toNat = 2 ^ 23 from rfl, Nat.and_two_pow]
  by_cases h : 2 ^ 23 ≤ w.toNat
  · have hbit : w.toNat.testBit 23 = true :=
      Nat.testBit_of_two_pow_le_and_two_pow_add_one_gt h hw
    rw [hbit] at hmask
    simp only [h, decide_true, bne_iff_ne, ne_eq]
    intro hzero
    rw [hzero] at hmask
    simp at hmask
  · have hbit : w.toNat.testBit 23 = false := Nat.testBit_lt_two_pow (Nat.lt_of_not_le h)
    rw [hbit] at hmask
    simp only [h, decide_false, bne_eq_false_iff_eq]
    exact UInt32.toNat_inj.mp (by simpa using hmask)

/-- A word below `2 ^ 23` passes the assert on the bits above the mantissa. -/
theorem and_not_mantissaMask (hw : w.toNat < 2 ^ 23) : w &&& ~~~0x007fffff = 0 := by
  apply UInt32.toNat_inj.mp
  have hlt : w.toNat &&& 0xff800000 < 2 ^ 23 := lt_of_le_of_lt Nat.and_le_left hw
  rw [UInt32.toNat_and, show (~~~0x007fffff : UInt32).toNat = 0xff800000 from rfl,
    ← Nat.mod_eq_of_lt hlt, Nat.and_mod_two_pow, show 0xff800000 % 2 ^ 23 = 0 from rfl,
    Nat.and_zero]
  rfl

theorem toNat_ne_zero_bne : (w != 0) = decide (w.toNat ≠ 0) := by
  rw [Bool.eq_iff_iff, bne_iff_ne, ne_eq, decide_eq_true_eq, ne_eq, toNat_eq_zero_uint32]

/-- Setting the sign bit above a 23-bit mantissa is an addition. -/
theorem or_signBit_eq_add {m e : Nat} (hm : m < 2 ^ 23) :
    (m + e * 2 ^ 24) ||| 2 ^ 23 = m + e * 2 ^ 24 + 2 ^ 23 := by
  have h1 : m + e * 2 ^ 24 = 2 ^ 24 * e ||| m := by
    rw [← Nat.two_pow_add_eq_or_of_lt (by omega)]
    omega
  calc (m + e * 2 ^ 24) ||| 2 ^ 23 = (2 ^ 24 * e ||| m) ||| 2 ^ 23 := by rw [h1]
    _ = 2 ^ 24 * e ||| (m + 2 ^ 23) := by rw [Nat.or_assoc, Nat.or_two_pow_eq_add_of_lt hm]
    _ = m + e * 2 ^ 24 + 2 ^ 23 := by
      rw [← Nat.two_pow_add_eq_or_of_lt (by omega)]
      omega

/-- Putting the exponent above a three-byte mantissa is an addition. -/
theorem toNat_or_exponent (hw : w.toNat < 2 ^ 24) {e : Nat} (he : e < 256) :
    (w ||| e.toUInt32 <<< 24).toNat = w.toNat + e * 2 ^ 24 := by
  have hel : e.toUInt32.toNat = e := by simp [Nat.toUInt32]; omega
  rw [UInt32.toNat_or, UInt32.toNat_shiftLeft, hel, show (24 : UInt32).toNat % 32 = 24 from rfl,
    Nat.mod_eq_of_lt (show e <<< 24 < 2 ^ 32 by rw [Nat.shiftLeft_eq]; omega), Nat.or_comm,
    ← Nat.shiftLeft_add_eq_or_of_lt hw, Nat.shiftLeft_eq]
  omega

end Word

-- ---------------------------------------------------------------------------
-- GetCompact
-- ---------------------------------------------------------------------------

theorem toNat_toUInt64_mod {n : Nat} (hn : n < 64) : n.toUInt64.toNat % 64 = n := by
  simp [Nat.toUInt64]
  omega

/-- The first step of `GetCompact` computes the mantissa for the length in bytes. -/
theorem toNat_compactBytes (a : ArithUint256) :
    (compactBytes a ((a.toNat.size + 7) / 8)).toNat =
      compactMantissa a.toNat ((a.toNat.size + 7) / 8) := by
  have hlt := compactMantissa_ceil_lt a.toNat
  rw [compactMantissa_eq] at hlt ⊢
  unfold compactBytes
  split_ifs at hlt ⊢ with hs
  · -- a short number: shifted left inside the low 64 bits
    have hsize : a.toNat.size ≤ 24 := by omega
    have hx : a.toNat < 2 ^ 64 :=
      lt_of_lt_of_le (Nat.size_le.mp hsize) (Nat.pow_le_pow_right (by decide) (by decide))
    rw [UInt64.toNat_toUInt32, UInt64.toNat_shiftLeft, toNat_toUInt64_mod (by omega),
      toNat_getLow64 _ (by decide), Nat.mod_eq_of_lt hx, Nat.shiftLeft_eq,
      Nat.mod_eq_of_lt (lt_trans hlt (by decide)), Nat.mod_eq_of_lt (lt_trans hlt (by decide))]
  · -- a long number: shifted right by the bytes below the mantissa
    rw [UInt64.toNat_toUInt32, toNat_getLow64 _ (by decide), toNat_shiftRight, Nat.shiftRight_eq_div_pow,
      Nat.mod_eq_of_lt (lt_trans hlt (by decide)), Nat.mod_eq_of_lt (lt_trans hlt (by decide))]

/-- `GetCompact` in arithmetic terms: no assert fails, and the word holds the exponent over
the mantissa, with the sign bit when `fNegative` and the mantissa is nonzero. -/
theorem getCompact_eq (a : ArithUint256) (fNegative : Bool) :
    a.getCompact fNegative = some (compactWord a.toNat fNegative) := by
  have hx := toNat_lt a
  have hm := compactMantissa_lt a.toNat
  have he := compactExponent_le hx
  have hw := toNat_compactBytes a
  have hw24 : (compactBytes a ((a.toNat.size + 7) / 8)).toNat < 2 ^ 24 :=
    hw ▸ compactMantissa_ceil_lt a.toNat
  have hsign := signBit_ne_zero_eq hw24
  simp only [hw, two_pow_le_compactMantissa_ceil_iff] at hsign
  have hexp := compactExponent_eq_ceil a.toNat
  unfold getCompact
  dsimp only
  rw [bits_eq_size]
  generalize compactBytes a ((a.toNat.size + 7) / 8) = W at hw hw24 hsign ⊢
  generalize a.toNat = x at *
  -- after the sign check the word holds the mantissa and `nSize` the exponent
  have hM : (if (W &&& 0x00800000 != 0) = true then W >>> 8 else W) =
      UInt32.ofNat (compactMantissa x (compactExponent x)) := by
    apply UInt32.toNat_inj.mp
    rw [UInt32.toNat_ofNat', Nat.mod_eq_of_lt (lt_trans hm (by decide)), hsign]
    by_cases hb : x ≠ 0 ∧ x.size % 8 = 0
    · rw [decide_eq_true hb, if_pos rfl, UInt32.toNat_shiftRight,
        show (8 : UInt32).toNat % 32 = 8 from rfl, Nat.shiftRight_eq_div_pow, hw, hexp, if_pos hb,
        ← compactMantissa_div_256]
    · rw [decide_eq_false hb, if_neg Bool.false_ne_true, hw, hexp, if_neg hb]
  have hE : (if (W &&& 0x00800000 != 0) = true then (x.size + 7) / 8 + 1 else (x.size + 7) / 8) =
      compactExponent x := by
    rw [hsign, hexp]
    by_cases hb : x ≠ 0 ∧ x.size % 8 = 0 <;> simp [hb]
  have hmw : (UInt32.ofNat (compactMantissa x (compactExponent x))).toNat =
      compactMantissa x (compactExponent x) := by
    rw [UInt32.toNat_ofNat', Nat.mod_eq_of_lt (lt_trans hm (by decide))]
  -- both asserts hold
  rw [hM, hE, if_neg (not_not.mpr (and_not_mantissaMask (by rw [hmw]; exact hm))),
    if_neg (by omega)]
  -- the exponent goes above the mantissa, and the sign bit between them
  have hor := toNat_or_exponent (w := UInt32.ofNat (compactMantissa x (compactExponent x)))
    (by rw [hmw]; omega) (show compactExponent x < 256 by omega)
  rw [hmw] at hor
  have hlow : ((UInt32.ofNat (compactMantissa x (compactExponent x)) |||
      (compactExponent x).toUInt32 <<< 24) &&& 8388607 != 0) =
      decide (compactMantissa x (compactExponent x) ≠ 0) := by
    have hand : ((UInt32.ofNat (compactMantissa x (compactExponent x)) |||
        (compactExponent x).toUInt32 <<< 24) &&& 8388607).toNat =
        compactMantissa x (compactExponent x) := by
      rw [UInt32.toNat_and, hor, show (8388607 : UInt32).toNat = 2 ^ 23 - 1 from rfl,
        Nat.and_two_pow_sub_one_eq_mod]
      omega
    rw [toNat_ne_zero_bne, hand]
  rw [hlow]
  show some _ = some _
  congr 1
  apply UInt32.toNat_inj.mp
  unfold compactWord
  rw [UInt32.toNat_ofNat', UInt32.toNat_or, hor]
  generalize compactMantissa x (compactExponent x) = m at *
  generalize compactExponent x = e at *
  by_cases hs : fNegative = true ∧ m ≠ 0
  · have hc : (fNegative && decide (m ≠ 0)) = true := by simpa using hs
    rw [if_pos hc, if_pos hs, show (8388608 : UInt32).toNat = 2 ^ 23 from rfl,
      or_signBit_eq_add hm, Nat.mod_eq_of_lt (by omega)]
  · have hc : ¬(fNegative && decide (m ≠ 0)) = true := by simpa using hs
    rw [if_neg hc, if_neg hs, show (0 : UInt32).toNat = 0 from rfl, Nat.or_zero, Nat.add_zero,
      Nat.mod_eq_of_lt (by omega)]

-- ---------------------------------------------------------------------------
-- SetCompact
-- ---------------------------------------------------------------------------

/-- `SetCompact` in arithmetic terms: the exponent is the top byte and the mantissa the low
23 bits, cut to the exponent's bytes when the exponent is at most 3. -/
theorem setCompact_spec (nCompact : UInt32) :
    let nSize := nCompact.toNat / 2 ^ 24
    let nWord := if nSize ≤ 3 then nCompact.toNat % 2 ^ 23 / 2 ^ (8 * (3 - nSize))
      else nCompact.toNat % 2 ^ 23
    (setCompact nCompact).1.toNat =
        (if nSize ≤ 3 then nWord else nWord * 2 ^ (8 * (nSize - 3)) % 2 ^ 256) ∧
      (setCompact nCompact).2.1 = (decide (nWord ≠ 0) && nCompact.toNat.testBit 23) ∧
      (setCompact nCompact).2.2 = (decide (nWord ≠ 0) && (decide (34 < nSize) ||
        decide (255 < nWord) && decide (33 < nSize) ||
        decide (65535 < nWord) && decide (32 < nSize))) := by
  have hsize : (nCompact >>> 24).toNat = nCompact.toNat / 2 ^ 24 := by
    rw [UInt32.toNat_shiftRight, show (24 : UInt32).toNat % 32 = 24 from rfl,
      Nat.shiftRight_eq_div_pow]
  have hword : (nCompact &&& 0x007fffff).toNat = nCompact.toNat % 2 ^ 23 := by
    rw [UInt32.toNat_and, show (0x007fffff : UInt32).toNat = 2 ^ 23 - 1 from rfl,
      Nat.and_two_pow_sub_one_eq_mod]
  have hsign : (nCompact &&& 0x00800000 != 0) = nCompact.toNat.testBit 23 := by
    rw [toNat_ne_zero_bne, UInt32.toNat_and, show (0x00800000 : UInt32).toNat = 2 ^ 23 from rfl,
      Nat.and_two_pow]
    cases nCompact.toNat.testBit 23 <;> simp
  have h255 : (255 : UInt32).toNat = 255 := rfl
  have h65535 : (65535 : UInt32).toNat = 65535 := rfl
  unfold setCompact
  dsimp only
  rw [hsize]
  split_ifs with hs
  · -- a short exponent: the mantissa is cut to its bytes
    have hshift : ((nCompact &&& 0x007fffff) >>>
        (8 * (3 - nCompact.toNat / 2 ^ 24)).toUInt32).toNat =
        nCompact.toNat % 2 ^ 23 / 2 ^ (8 * (3 - nCompact.toNat / 2 ^ 24)) := by
      rw [UInt32.toNat_shiftRight, toNat_toUInt32_mod (by omega), hword, Nat.shiftRight_eq_div_pow]
    simp only [toNat_ofUInt64, UInt32.toNat_toUInt64, hshift, toNat_ne_zero_bne, hsign,
      UInt32.lt_iff_toNat_lt, true_and, gt_iff_lt, h255, h65535]
  · simp only [toNat_shiftLeft, toNat_ofUInt64, UInt32.toNat_toUInt64, hword, Nat.shiftLeft_eq,
      toNat_ne_zero_bne, hsign, UInt32.lt_iff_toNat_lt, true_and, gt_iff_lt, h255, h65535]

-- ---------------------------------------------------------------------------
-- The round trips
-- ---------------------------------------------------------------------------

section RoundTrip

variable {x : Nat}

theorem toNat_compactWord_false (hx : x < 2 ^ 256) :
    (compactWord x false).toNat = compactMantissa x (compactExponent x) + compactExponent x * 2 ^ 24 := by
  have hm := compactMantissa_lt x
  have he := compactExponent_le hx
  rw [compactWord, if_neg (by simp), Nat.add_zero, UInt32.toNat_ofNat', Nat.mod_eq_of_lt (by omega)]

/-- The exponent byte of the word `GetCompact` writes. -/
theorem exponent_compactWord (hx : x < 2 ^ 256) :
    (compactWord x false >>> 24).toNat = compactExponent x := by
  have hm := compactMantissa_lt x
  rw [UInt32.toNat_shiftRight, show (24 : UInt32).toNat % 32 = 24 from rfl,
    Nat.shiftRight_eq_div_pow, toNat_compactWord_false hx]
  omega

/-- The mantissa of the top exponent, 33, has two bytes: the number has at most 256 bits. -/
theorem compactMantissa_lt_of_exponent_33 (hx : x < 2 ^ 256) (he : compactExponent x = 33) :
    compactMantissa x (compactExponent x) < 2 ^ 16 := by
  have hb : x.size ≤ 256 := Nat.size_le.mpr hx
  have hx0 : x ≠ 0 := by
    intro h
    simp [compactExponent, h] at he
  rw [← Nat.size_le, size_compactMantissa hx0, he]
  omega

/-- `SetCompact` reads back the number `GetCompact` encoded, with the bytes below the
mantissa cleared, and raises neither flag. -/
theorem setCompact_compactWord (hx : x < 2 ^ 256) :
    (setCompact (compactWord x false)).1.toNat =
        x / 2 ^ (8 * (compactExponent x - 3)) * 2 ^ (8 * (compactExponent x - 3)) ∧
      (setCompact (compactWord x false)).2 = (false, false) := by
  have hm := compactMantissa_lt x
  have he := compactExponent_le hx
  have h33 := compactMantissa_lt_of_exponent_33 hx
  have hmx := compactMantissa_eq x (compactExponent x)
  obtain ⟨hvalue, hneg, hover⟩ := setCompact_spec (compactWord x false)
  rw [toNat_compactWord_false hx] at hvalue hneg hover
  generalize compactMantissa x (compactExponent x) = m at *
  generalize compactExponent x = e at *
  -- the word is `m + e * 2 ^ 24` with `m` below the sign bit
  have hsize : (m + e * 2 ^ 24) / 2 ^ 24 = e := by omega
  have hword : (m + e * 2 ^ 24) % 2 ^ 23 = m := by omega
  have hbit : (m + e * 2 ^ 24).testBit 23 = false := by
    rw [show m + e * 2 ^ 24 = 2 ^ 24 * e + m by omega,
      Nat.testBit_two_pow_mul_add _ (show m < 2 ^ 24 by omega), if_pos (by decide)]
    exact Nat.testBit_lt_two_pow hm
  simp only [hsize, hword, hbit, Bool.and_false] at hvalue hneg hover
  refine ⟨?_, Prod.ext hneg ?_⟩
  · rw [hvalue]
    split_ifs at hmx ⊢ with hs
    · -- a short exponent: the mantissa holds the whole number
      rw [hmx, Nat.mul_div_cancel _ (Nat.two_pow_pos _), show e - 3 = 0 by omega]
      simp
    · -- a long one: the bytes below the mantissa are cleared
      rw [hmx]
      exact Nat.mod_eq_of_lt (lt_of_le_of_lt (Nat.div_mul_le_self _ _) hx)
  · -- the exponent is at most 33, and at 33 the mantissa has two bytes
    rw [hover]
    by_cases hs : e ≤ 3
    · simp [hs, show ¬34 < e by omega, show ¬33 < e by omega, show ¬32 < e by omega]
    · by_cases h33e : e = 33
      · simp [h33e, show ¬65535 < m by have := h33 h33e; omega]
      · simp [hs, show ¬34 < e by omega, show ¬33 < e by omega, show e ≤ 32 by omega]

/-- Clearing the bytes below the mantissa changes neither the exponent nor the mantissa, so
the number `SetCompact` reads back encodes to the same word. -/
theorem compactWord_clear_low (x : Nat) :
    compactWord (x / 2 ^ (8 * (compactExponent x - 3)) * 2 ^ (8 * (compactExponent x - 3))) false =
      compactWord x false := by
  by_cases hx0 : x = 0
  · simp [hx0]
  by_cases he : compactExponent x ≤ 3
  · rw [show compactExponent x - 3 = 0 by omega]
    simp
  -- a long number: the mantissa `x / 2 ^ k` has two or three bytes
  have hm := le_compactMantissa hx0
  have hsm := size_compactMantissa hx0 (compactExponent x)
  have hmx := compactMantissa_eq x (compactExponent x)
  rw [if_neg he] at hmx
  rw [hmx] at hm hsm
  -- the cleared number has the bit length of the number, so the same exponent
  have hexp : compactExponent (x / 2 ^ (8 * (compactExponent x - 3)) *
      2 ^ (8 * (compactExponent x - 3))) = compactExponent x := by
    generalize hk : 8 * (compactExponent x - 3) = k at hm hsm ⊢
    have hm0 : x / 2 ^ k ≠ 0 := by omega
    have h16 : 15 < (x / 2 ^ k).size := Nat.lt_size.mpr hm
    have hsize : (x / 2 ^ k * 2 ^ k).size = x.size := by
      rw [Limbs.size_mul_two_pow hm0, Limbs.size_div_two_pow]
      omega
    have hne : x / 2 ^ k * 2 ^ k ≠ 0 := Nat.mul_ne_zero hm0 (Nat.two_pow_pos _).ne'
    unfold compactExponent
    rw [if_neg hne, if_neg hx0, hsize]
  have hmant : compactMantissa (x / 2 ^ (8 * (compactExponent x - 3)) *
      2 ^ (8 * (compactExponent x - 3))) (compactExponent x) =
      compactMantissa x (compactExponent x) := by
    rw [compactMantissa_eq, hmx, if_neg he, Nat.mul_div_cancel _ (Nat.two_pow_pos _)]
  unfold compactWord
  rw [hexp, hmant]

/-- A word `GetCompact` wrote with the sign bit clear is the word it writes for `fNegative`
false. -/
theorem compactWord_of_signBit_clear (hx : x < 2 ^ 256) {fNegative : Bool}
    (h : compactWord x fNegative &&& 0x00800000 = 0) :
    compactWord x fNegative = compactWord x false := by
  have hm := compactMantissa_lt x
  have he := compactExponent_le hx
  unfold compactWord at h ⊢
  by_cases hs : fNegative = true ∧ compactMantissa x (compactExponent x) ≠ 0
  · -- the sign bit would be set
    exfalso
    rw [if_pos hs] at h
    have hbit := congrArg UInt32.toNat h
    rw [UInt32.toNat_and, UInt32.toNat_ofNat', show (0x00800000 : UInt32).toNat = 2 ^ 23 from rfl,
      Nat.and_two_pow, Nat.mod_eq_of_lt (by omega),
      show compactMantissa x (compactExponent x) + compactExponent x * 2 ^ 24 + 2 ^ 23 =
        2 ^ 24 * compactExponent x + (compactMantissa x (compactExponent x) + 2 ^ 23) by omega,
      Nat.testBit_two_pow_mul_add _ (by omega), if_pos (by decide),
      Nat.testBit_of_two_pow_le_and_two_pow_add_one_gt (by omega) (by omega)] at hbit
    simp at hbit
  · rw [if_neg hs, if_neg (by simp)]

end RoundTrip

/-- `SetCompact` after `GetCompact` gives back the number with its bytes below the mantissa
cleared and raises neither flag, where the exponent is the length in bytes, plus one when
the top byte would set the sign bit; and `GetCompact` after `SetCompact` gives back every
word `GetCompact` writes with the sign bit clear. -/
theorem setCompact_getCompact_round_trip :
    (∀ a : ArithUint256, ∃ c, a.getCompact false = some c ∧
      (c >>> 24).toNat = (a.bits + 7) / 8 + (if 0 < a.bits ∧ a.bits % 8 = 0 then 1 else 0) ∧
      (setCompact c).1.toNat =
        a.toNat / 2 ^ (8 * ((c >>> 24).toNat - 3)) * 2 ^ (8 * ((c >>> 24).toNat - 3)) ∧
      (setCompact c).2 = (false, false)) ∧
    (∀ (a : ArithUint256) (fNegative : Bool) (c : UInt32), a.getCompact fNegative = some c →
      c &&& 0x00800000 = 0 → (setCompact c).1.getCompact false = some c) := by
  refine ⟨fun a => ?_, fun a fNegative c hc hsign => ?_⟩
  · obtain ⟨hvalue, hflags⟩ := setCompact_compactWord (toNat_lt a)
    refine ⟨compactWord a.toNat false, getCompact_eq a false, ?_, ?_, hflags⟩
    · -- the exponent byte against `bits()`
      rw [exponent_compactWord (toNat_lt a), compactExponent_eq_ceil, bits_eq_size]
      have hzero : a.toNat.size = 0 ↔ a.toNat = 0 := Nat.size_eq_zero
      split_ifs <;> omega
    · rw [exponent_compactWord (toNat_lt a), hvalue]
  · rw [getCompact_eq, Option.some.injEq] at hc
    subst hc
    rw [compactWord_of_signBit_clear (toNat_lt a) hsign, getCompact_eq,
      (setCompact_compactWord (toNat_lt a)).1, compactWord_clear_low a.toNat]

theorem setCompact_getCompact_round_trip_sample :
    (ofUInt64 0x800000).getCompact false = some 0x04008000 ∧
      (0x04008000 : UInt32) &&& 0x00800000 = 0 ∧
      (setCompact 0x04008000).1.getCompact false = some 0x04008000 :=
  have h1 : (ofUInt64 0x800000).getCompact false = some 0x04008000 := by decide
  have h2 : (0x04008000 : UInt32) &&& 0x00800000 = 0 := by decide
  ⟨h1, h2, setCompact_getCompact_round_trip.2 _ false _ h1 h2⟩

end ArithUint256

end Riecoin