-- SUMMARY: CScriptNum of script/script.h on int64: serialize with its byte loop and sign byte, set_vch with its shifts and sign mask, the constructor's size and minimality checks, and the bijection between minimally encoded numbers of at most k bytes and the integers below 2^(8k-1).
import Riecoin.Lib.SignMagnitude
import Riecoin.Script.Solver

/-!
# Script numbers

`CScriptNum` (`script/script.h`) holds an `int64_t`. `serialize` writes it as a
little-endian magnitude with the sign in bit 7 of the last byte; `set_vch` reads such a
string back by OR-ing shifted bytes into an `int64_t` and masking the sign bit off; the
constructor from bytes throws `scriptnum_error` on a string longer than `nMaxNumSize` or, when
asked for minimal encodings, on a string that has a shorter form.

The model keeps the machine words: `serialize` negates through `~x + 1` on `uint64_t`,
`set_vch` shifts `uint64_t` words, and both are shown to compute the sign-magnitude
encoding of `SignMagnitude` (`serialize_eq_encode`, `toInt_setVch`). The constructor's test
is `SignMagnitude.minimal` (`nonMinimal_eq`). From these, minimally encoded numbers of at
most `k ≤ 8` bytes are in bijection with the integers of magnitude below `2 ^ (8 * k - 1)`.
Shifts by 64 bits or more, which `set_vch` would make for strings longer than 8 bytes (an
`nMaxNumSize` above 8, which no caller passes), are undefined in C++; the model shifts by the
amount modulo 64, as `uint64_t` shifts in Lean do.
-/

namespace Riecoin.Script

namespace CScriptNum

open Bytes SignMagnitude

/-- `CScriptNum::nDefaultMaxNumSize`. -/
def nDefaultMaxNumSize : Nat := 4

/-- The loop of `serialize`: `result.push_back(absvalue & 0xff); absvalue >>= 8;` while
`absvalue` is not zero. -/
def serializeBytes (absvalue : UInt64) : List UInt8 :=
  if absvalue = 0 then []
  else (absvalue &&& 0xff).toUInt8 :: serializeBytes (absvalue >>> 8)
termination_by absvalue.toNat
decreasing_by
  have hpos : absvalue.toNat ≠ 0 := fun h0 => ‹¬absvalue = 0› (UInt64.toNat_inj.mp h0)
  show absvalue.toNat >>> 8 < absvalue.toNat
  rw [Nat.shiftRight_eq_div_pow]
  exact Nat.div_lt_self (Nat.pos_of_ne_zero hpos) (by decide)

/-- `CScriptNum::serialize`. -/
def serialize (value : Int64) : List UInt8 :=
  if value = 0 then []
  else
    let neg : Bool := value < 0
    let absvalue : UInt64 := if neg then ~~~value.toUInt64 + 1 else value.toUInt64
    let result := serializeBytes absvalue
    let back := result.getLast?.getD 0
    if back &&& 0x80 != 0 then result ++ [if neg then 0x80 else 0]
    else if neg then result.dropLast ++ [back ||| 0x80]
    else result

/-- The loop of `set_vch`: `result |= static_cast<int64_t>(vch[i]) << 8*i` for every byte, on
the bits of the `int64_t`. -/
def setVchLoop (vch : List UInt8) : UInt64 :=
  (List.range vch.length).foldl
    (fun result i => result ||| (vch.getD i 0).toUInt64 <<< UInt64.ofNat (8 * i)) 0

/-- `CScriptNum::set_vch`: with the top bit of the last byte set, that bit is masked off and
the rest negated. -/
def setVch (vch : List UInt8) : Int64 :=
  if vch.isEmpty then 0
  else
    let result := setVchLoop vch
    if vch.getLast?.getD 0 &&& 0x80 != 0 then
      -(result &&& ~~~((0x80 : UInt64) <<< UInt64.ofNat (8 * (vch.length - 1)))).toInt64
    else result.toInt64

/-- The test of the constructor that throws "non-minimally encoded script number": the last
byte without its sign bit is zero, and there is no byte below it or that byte leaves bit 7
clear. -/
def nonMinimal (vch : List UInt8) : Bool :=
  vch.length > 0 && vch.getLast?.getD 0 &&& 0x7f == 0 &&
    (vch.length ≤ 1 || vch.getD (vch.length - 2) 0 &&& 0x80 == 0)

/-- `CScriptNum(vch, fRequireMinimal, nMaxNumSize)`: the value, or the text of the
`scriptnum_error` it throws. -/
def ofVch (vch : List UInt8) (fRequireMinimal : Bool) (nMaxNumSize : Nat) : Except String Int64 :=
  if vch.length > nMaxNumSize then .error "script number overflow"
  else if fRequireMinimal && nonMinimal vch then .error "non-minimally encoded script number"
  else .ok (setVch vch)

-- ---------------------------------------------------------------------------
-- serialize
-- ---------------------------------------------------------------------------

/-- The loop of `serialize` writes the base-256 digits of `absvalue`. -/
theorem serializeBytes_eq (absvalue : UInt64) :
    serializeBytes absvalue = digitBytes absvalue.toNat := by
  fun_induction serializeBytes absvalue with
  | case1 => rfl
  | case2 a h ih =>
    have hne : a.toNat ≠ 0 := fun h0 => h (UInt64.toNat_inj.mp h0)
    have hbyte : (a &&& 0xff).toUInt8 = UInt8.ofNat (a.toNat % 256) := by
      apply UInt8.toNat_inj.mp
      rw [UInt64.toNat_toUInt8, UInt64.toNat_and, UInt8.toNat_ofNat',
        show (0xff : UInt64).toNat = 2 ^ 8 - 1 from rfl, Nat.and_two_pow_sub_one_eq_mod]
    have hshift : (a >>> 8).toNat = a.toNat / 256 := by
      rw [UInt64.toNat_shiftRight]
      exact Nat.shiftRight_eq_div_pow _ 8
    rw [ih, hbyte, hshift, digitBytes_of_ne_zero hne]

/-- `~x + 1` on the `uint64_t` of a negative value is its magnitude, `INT64_MIN` included. -/
theorem toNat_absvalue (value : Int64) :
    (if decide (value < 0) = true then ~~~value.toUInt64 + 1 else value.toUInt64).toNat =
      value.toInt.natAbs := by
  have hcond := BitVec.toInt_eq_toNat_cond value.toBitVec
  have hN : value.toUInt64.toNat = value.toBitVec.toNat := rfl
  have hInt : value.toInt = value.toBitVec.toInt := rfl
  have hlt := value.toBitVec.isLt
  split
  · next hneg =>
    rw [decide_eq_true_eq, Int64.lt_iff_toInt_lt, Int64.toInt_zero] at hneg
    rw [← UInt64.neg_eq_not_add, UInt64.toNat_neg, hN, UInt64.size]
    split at hcond <;> omega
  · next hnonneg =>
    rw [decide_eq_true_eq, Int64.lt_iff_toInt_lt, Int64.toInt_zero] at hnonneg
    rw [hN]
    split at hcond <;> omega

/-- A non-negative `int64_t` has its value as its `uint64_t` bits. -/
theorem toNat_toUInt64_of_nonneg {x : Int64} (h : 0 ≤ x.toInt) :
    (x.toUInt64.toNat : Int) = x.toInt := by
  have hcond := BitVec.toInt_eq_toNat_cond x.toBitVec
  have hN : x.toUInt64.toNat = x.toBitVec.toNat := rfl
  have hInt : x.toInt = x.toBitVec.toInt := rfl
  have hlt := x.toBitVec.isLt
  rw [hN]
  split at hcond <;> omega

/-- `serialize` writes the sign-magnitude encoding of the value. -/
theorem serialize_eq_encode (value : Int64) : serialize value = encode value.toInt := by
  have hzero : value = 0 ↔ value.toInt = 0 := by rw [← Int64.toInt_inj, Int64.toInt_zero]
  have hneg : decide (value < 0) = decide (value.toInt < 0) :=
    decide_eq_decide.mpr (by rw [Int64.lt_iff_toInt_lt, Int64.toInt_zero])
  unfold serialize
  split
  · next h =>
    rw [hzero.mp h]
    rfl
  · next h =>
    dsimp only
    rw [serializeBytes_eq, toNat_absvalue, hneg]
    have hd : digitBytes value.toInt.natAbs ≠ [] := by
      rw [Ne, digitBytes_eq_nil_iff]
      have := hzero.not.mp h
      omega
    obtain ⟨d, top, hdtop⟩ := (List.eq_nil_or_concat' _).resolve_left hd
    unfold encode magnitudeBytes
    rw [hdtop]
    simp only [List.getLast?_concat, Option.getD_some, List.dropLast_concat]
    by_cases h80 : top &&& 0x80 = 0
    · -- the top digit leaves bit 7 free: the sign goes into it
      have hcond : ¬(top &&& 0x80 != 0) = true := by simp [h80]
      have h7f := and_7f_of_and_80 top h80
      rw [if_neg hcond, if_neg hcond, withSign_concat]
      cases decide (value.toInt < 0) <;> simp [h7f]
    · -- a byte is added on top for the sign
      have hcond : (top &&& 0x80 != 0) = true := by simp [h80]
      rw [if_pos hcond, if_pos hcond, withSign_concat]
      cases decide (value.toInt < 0) <;> simp

-- ---------------------------------------------------------------------------
-- set_vch
-- ---------------------------------------------------------------------------

/-- Up to 8 bytes, the OR of the shifted bytes is their little-endian value: each byte lands
above the bits the earlier ones fill. -/
theorem toNat_setVchLoop_take (vch : List UInt8) :
    ∀ n, n ≤ vch.length → n ≤ 8 →
      ((List.range n).foldl
        (fun result i => result ||| (vch.getD i 0).toUInt64 <<< UInt64.ofNat (8 * i)) 0).toNat =
        leValue (vch.take n)
  | 0, _, _ => rfl
  | n + 1, hlen, h8 => by
    have ih := toNat_setVchLoop_take vch n (by omega) (by omega)
    have hb := (vch.getD n 0).toNat_lt
    have hacc : leValue (vch.take n) < 2 ^ (8 * n) := by
      have := leValue_lt (vch.take n)
      rw [List.length_take_of_le (by omega)] at this
      rwa [Nat.pow_mul]
    have hshift : ((vch.getD n 0).toUInt64 <<< UInt64.ofNat (8 * n)).toNat =
        (vch.getD n 0).toNat <<< (8 * n) := by
      rw [UInt64.toNat_shiftLeft, UInt8.toNat_toUInt64, UInt64.toNat_ofNat',
        Nat.mod_eq_of_lt (by omega : 8 * n < 2 ^ 64), Nat.mod_eq_of_lt (by omega : 8 * n < 64)]
      apply Nat.mod_eq_of_lt
      rw [Nat.shiftLeft_eq]
      calc (vch.getD n 0).toNat * 2 ^ (8 * n) < 2 ^ 8 * 2 ^ (8 * n) :=
            Nat.mul_lt_mul_of_pos_right hb (Nat.two_pow_pos _)
        _ = 2 ^ (8 * n + 8) := by rw [← Nat.pow_add, Nat.add_comm]
        _ ≤ 2 ^ 64 := Nat.pow_le_pow_right (by decide) (by omega)
    have htake : vch.take (n + 1) = vch.take n ++ [vch.getD n 0] := by
      have hget : vch[n]? = some (vch.getD n 0) := by
        rw [List.getD_eq_getElem?_getD, List.getElem?_eq_getElem (by omega : n < vch.length)]
        rfl
      rw [List.take_add_one, hget]
      rfl
    rw [List.range_succ, List.foldl_append, List.foldl_cons, List.foldl_nil, UInt64.toNat_or, ih,
      hshift, Nat.or_comm, ← Nat.shiftLeft_add_eq_or_of_lt hacc, htake, leValue_append,
      List.length_take_of_le (by omega), Nat.shiftLeft_eq, Nat.pow_mul]
    simp only [leValue_cons, leValue_nil, Nat.mul_zero, Nat.add_zero]
    ring

theorem toNat_setVchLoop {vch : List UInt8} (h : vch.length ≤ 8) :
    (setVchLoop vch).toNat = leValue vch := by
  rw [setVchLoop, toNat_setVchLoop_take vch vch.length (Nat.le_refl _) h, List.take_length]

theorem toInt64_eq_ofNat (m : UInt64) : m.toInt64 = Int64.ofNat m.toNat :=
  Int64.toBitVec_inj.mp (by simp)

/-- A word below `2 ^ 63` is read as the same non-negative `int64_t`. -/
theorem toInt_toInt64 {m : UInt64} (h : m.toNat < 2 ^ 63) : m.toInt64.toInt = m.toNat := by
  rw [toInt64_eq_ofNat, Int64.toInt_ofNat_of_lt h]

/-- The mask `~(0x80ULL << 8 * (n - 1))` clears bit `8 * n - 1` of a value of `n` bytes. -/
theorem toNat_and_signMask {result : UInt64} {n : Nat} (hn : 1 ≤ n) (h8 : n ≤ 8)
    (hresult : result.toNat < 2 ^ (8 * n)) :
    (result &&& ~~~((0x80 : UInt64) <<< UInt64.ofNat (8 * (n - 1)))).toNat =
      result.toNat % 2 ^ (8 * n - 1) := by
  have hbit : ((0x80 : UInt64) <<< UInt64.ofNat (8 * (n - 1))).toNat = 2 ^ (8 * n - 1) := by
    rw [UInt64.toNat_shiftLeft, UInt64.toNat_ofNat', Nat.mod_eq_of_lt (by omega : 8 * (n - 1) < 2 ^ 64),
      Nat.mod_eq_of_lt (by omega : 8 * (n - 1) < 64), Nat.shiftLeft_eq,
      show (0x80 : UInt64).toNat = 2 ^ 7 from rfl, ← Nat.pow_add,
      show 7 + 8 * (n - 1) = 8 * n - 1 by omega]
    exact Nat.mod_eq_of_lt (Nat.pow_lt_pow_right (by decide) (by omega))
  rw [UInt64.toNat_and, UInt64.toNat_not, hbit, show UInt64.size = 2 ^ 64 from rfl]
  exact and_mask_eq_mod (by rwa [show 8 * n - 1 + 1 = 8 * n by omega]) (by omega)

/-- Up to 8 bytes, `set_vch` reads the sign-magnitude value of the string. -/
theorem toInt_setVch {vch : List UInt8} (h : vch.length ≤ 8) : (setVch vch).toInt = decode vch := by
  rcases List.eq_nil_or_concat' vch with rfl | ⟨init, t, rfl⟩
  · rfl
  · have hne : init ++ [t] ≠ [] := by simp
    have hn : 1 ≤ (init ++ [t]).length := by simp
    have hloop := toNat_setVchLoop h
    have hvalue : leValue (init ++ [t]) < 2 ^ (8 * (init ++ [t]).length) := by
      rw [Nat.pow_mul]
      exact leValue_lt _
    have hmag := magnitude_lt hne
    have hsmall : 2 ^ (8 * (init ++ [t]).length - 1) ≤ 2 ^ 63 :=
      Nat.pow_le_pow_right (by decide) (by omega)
    unfold setVch
    rw [if_neg (by simp)]
    dsimp only
    rw [List.getLast?_concat, Option.getD_some]
    by_cases ht : t &&& 0x80 = 0
    · -- a clear sign bit: the value is read as it is
      have hsign : signBit (init ++ [t]) = false := by simp [ht]
      have hmag' : magnitude (init ++ [t]) = leValue (init ++ [t]) := by
        rw [magnitude, withSign_false_of_signBit hsign]
      rw [if_neg (by simp [ht]), toInt_toInt64 (by omega), hloop, decode, hsign, ← hmag']
      rfl
    · -- a set sign bit: masked off, and the rest negated
      have hsign : signBit (init ++ [t]) = true := by simp [ht]
      have hmask := toNat_and_signMask hn h (hloop ▸ hvalue)
      rw [hloop, ← magnitude_eq_mod hne] at hmask
      rw [if_pos (by simpa using ht), toInt64_eq_ofNat, hmask,
        Int64.toInt_neg_ofNat_of_le (by omega), decode, hsign]
      rfl

-- ---------------------------------------------------------------------------
-- The constructor
-- ---------------------------------------------------------------------------

/-- The constructor's test is the negation of `SignMagnitude.minimal`. -/
theorem nonMinimal_eq (vch : List UInt8) : nonMinimal vch = !minimal vch := by
  rcases List.eq_nil_or_concat' vch with rfl | ⟨init, t, rfl⟩
  · rfl
  · rcases List.eq_nil_or_concat' init with rfl | ⟨init', u, rfl⟩
    · rw [minimal_concat]
      simp [nonMinimal, bne]
    · rw [minimal_concat]
      simp [nonMinimal, bne]

/-- Within the size limit, the constructor asked for a minimal encoding throws exactly on
strings that are not minimal. -/
theorem ofVch_true_of_le {vch : List UInt8} {k : Nat} (hlen : vch.length ≤ k) :
    ofVch vch true k =
      if minimal vch then .ok (setVch vch) else .error "non-minimally encoded script number" := by
  rw [ofVch, if_neg (by omega), Bool.true_and, nonMinimal_eq]
  cases minimal vch <;> rfl

theorem length_le_of_ofVch_eq_ok {vch : List UInt8} {fRequireMinimal : Bool} {k : Nat}
    {v : Int64} (h : ofVch vch fRequireMinimal k = .ok v) : vch.length ≤ k := by
  by_contra hlen
  rw [ofVch, if_pos (by omega)] at h
  cases h

-- ---------------------------------------------------------------------------
-- Minimal script numbers
-- ---------------------------------------------------------------------------

/-- For `k` from 1 to 8, every `int64_t` of magnitude below `2 ^ (8 * k - 1)` serializes to at
most `k` bytes that the constructor reads back; the constructor throws for a string of at
most `k` bytes exactly when serializing what it reads does not give the string back; and what
it accepts is in that range and serializes to the string it read. -/
theorem scriptNum_serialize_bijection (k : Nat) (hk : 1 ≤ k) (hk8 : k ≤ 8) :
    (∀ v : Int64, -2 ^ (8 * k - 1) < v.toInt → v.toInt < 2 ^ (8 * k - 1) →
      (serialize v).length ≤ k ∧ ofVch (serialize v) true k = .ok v) ∧
    (∀ vch : List UInt8, vch.length ≤ k →
      (ofVch vch true k = .error "non-minimally encoded script number" ↔
        serialize (setVch vch) ≠ vch)) ∧
    (∀ (vch : List UInt8) (v : Int64), ofVch vch true k = .ok v →
      -2 ^ (8 * k - 1) < v.toInt ∧ v.toInt < 2 ^ (8 * k - 1) ∧ serialize v = vch) := by
  have hcast : ((2 ^ (8 * k - 1) : Nat) : Int) = 2 ^ (8 * k - 1) := by push_cast; rfl
  refine ⟨?_, ?_, ?_⟩
  · intro v hlo hhi
    have hlen : (encode v.toInt).length ≤ k := length_encode_le hk (by omega)
    rw [serialize_eq_encode]
    refine ⟨hlen, ?_⟩
    rw [ofVch_true_of_le hlen, minimal_encode, if_pos rfl]
    apply congrArg
    apply Int64.toInt_inj.mp
    rw [toInt_setVch (by omega), decode_encode]
  · intro vch hlen
    rw [ofVch_true_of_le hlen, serialize_eq_encode, toInt_setVch (by omega)]
    cases hmin : minimal vch
    · -- not minimal: the constructor throws, and no encoding is this string
      refine iff_of_true rfl ?_
      intro heq
      have := minimal_encode (decode vch)
      rw [heq, hmin] at this
      cases this
    · -- minimal: the constructor reads the value whose encoding is the string
      refine iff_of_false (fun h => nomatch h) ?_
      exact not_not.mpr (encode_decode hmin)
  · intro vch v h
    have hlen := length_le_of_ofVch_eq_ok h
    rw [ofVch_true_of_le hlen] at h
    cases hmin : minimal vch
    · rw [hmin] at h
      cases h
    · rw [hmin, if_pos rfl] at h
      cases h
      have hvalue := toInt_setVch (Nat.le_trans hlen hk8)
      -- the magnitude of `n ≤ k` bytes stays below `2 ^ (8 * k - 1)`
      have hbound : (decode vch).natAbs < 2 ^ (8 * k - 1) := by
        rcases List.eq_nil_or_concat' vch with rfl | ⟨init, t, rfl⟩
        · simp
        · have := natAbs_decode_lt (List.concat_ne_nil t init)
          exact Nat.lt_of_lt_of_le this (Nat.pow_le_pow_right (by decide) (by omega))
      refine ⟨by omega, by omega, ?_⟩
      rw [serialize_eq_encode, hvalue, encode_decode hmin]

theorem scriptNum_serialize_bijection_five :
    1 ≤ 5 ∧ 5 ≤ 8 ∧
      ((∀ v : Int64, -2 ^ (8 * 5 - 1) < v.toInt → v.toInt < 2 ^ (8 * 5 - 1) →
        (serialize v).length ≤ 5 ∧ ofVch (serialize v) true 5 = .ok v) ∧
      (∀ vch : List UInt8, vch.length ≤ 5 →
        (ofVch vch true 5 = .error "non-minimally encoded script number" ↔
          serialize (setVch vch) ≠ vch)) ∧
      (∀ (vch : List UInt8) (v : Int64), ofVch vch true 5 = .ok v →
        -2 ^ (8 * 5 - 1) < v.toInt ∧ v.toInt < 2 ^ (8 * 5 - 1) ∧ serialize v = vch)) :=
  ⟨by decide, by decide, scriptNum_serialize_bijection 5 (by decide) (by decide)⟩

-- ---------------------------------------------------------------------------
-- The reading of `Solver`
-- ---------------------------------------------------------------------------

end CScriptNum

end Riecoin.Script
