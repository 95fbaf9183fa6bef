-- SUMMARY: Little-endian sign-magnitude byte strings: the encoding of an integer with the sign in bit 7 of the last byte, its decoding, the minimality test, and the bijection between minimal strings and integers.
import Riecoin.Lib.Bytes
import Mathlib.Data.Nat.Digits.Lemmas

/-!
# Sign-magnitude byte strings

A byte string stands for an integer: its little-endian value with bit 7 of the last byte
cleared is the magnitude, and that bit is the sign (`decode`). The empty string is zero.
`encode` writes the base-256 digits of the magnitude, adds a zero byte on top where the top
digit already uses bit 7, and then sets the sign bit.

Many strings decode to one integer (a zero byte on top, a negative zero). The `minimal`
ones are those whose last byte, without its sign bit, is not zero, unless the byte below it
uses bit 7. `encode` is a bijection from the integers onto the minimal strings
(`decode_encode`, `minimal_encode`, `encode_decode`), and the strings of at most `k` bytes
are the integers of magnitude below `2 ^ (8 * k - 1)` (`length_encode_le`,
`natAbs_decode_lt`).
-/

namespace SignMagnitude

open Bytes

-- ---------------------------------------------------------------------------
-- Bit 7 of a byte
-- ---------------------------------------------------------------------------

-- Each fact is checked on the 256 bytes.

set_option maxRecDepth 4096 in
theorem or_80_and_7f (t : UInt8) : (t ||| 0x80) &&& 0x7f = t &&& 0x7f := by
  revert t
  apply forall_uint8
  decide

set_option maxRecDepth 4096 in
theorem and_7f_and_7f (t : UInt8) : (t &&& 0x7f) &&& 0x7f = t &&& 0x7f := by
  revert t
  apply forall_uint8
  decide

set_option maxRecDepth 4096 in
theorem and_7f_or_80 (t : UInt8) : (t &&& 0x7f) ||| 0x80 = t ||| 0x80 := by
  revert t
  apply forall_uint8
  decide

set_option maxRecDepth 4096 in
theorem or_80_or_80 (t : UInt8) : (t ||| 0x80) ||| 0x80 = t ||| 0x80 := by
  revert t
  apply forall_uint8
  decide

set_option maxRecDepth 4096 in
theorem and_7f_of_and_80 (t : UInt8) : t &&& 0x80 = 0 → t &&& 0x7f = t := by
  revert t
  apply forall_uint8
  decide

set_option maxRecDepth 4096 in
/-- Where bit 7 is set, clearing it and setting it again gives the byte back. -/
theorem or_80_of_and_80 (t : UInt8) : t &&& 0x80 ≠ 0 → t ||| 0x80 = t := by
  revert t
  apply forall_uint8
  decide

set_option maxRecDepth 4096 in
/-- Bit 7 of a byte is set iff the byte is at least `0x80`. -/
theorem and_80_ne_zero_iff (t : UInt8) : t &&& 0x80 ≠ 0 ↔ 128 ≤ t.toNat := by
  revert t
  apply forall_uint8
  decide

set_option maxRecDepth 4096 in
theorem toNat_and_7f (t : UInt8) : (t &&& 0x7f).toNat = t.toNat % 128 := by
  revert t
  apply forall_uint8
  decide

set_option maxRecDepth 4096 in
theorem or_80_and_80 (t : UInt8) : (t ||| 0x80) &&& 0x80 ≠ 0 := by
  revert t
  apply forall_uint8
  decide

set_option maxRecDepth 4096 in
theorem and_7f_and_80 (t : UInt8) : (t &&& 0x7f) &&& 0x80 = 0 := by
  revert t
  apply forall_uint8
  decide

-- ---------------------------------------------------------------------------
-- Minimal base-256 digits
-- ---------------------------------------------------------------------------

/-- The base-256 digits of `n`, the least significant first, with no zero on top. -/
def digitBytes (n : Nat) : List UInt8 := (Nat.digits 256 n).map UInt8.ofNat

theorem map_toNat_digitBytes (n : Nat) : (digitBytes n).map UInt8.toNat = Nat.digits 256 n := by
  rw [digitBytes, List.map_map]
  conv_rhs => rw [← List.map_id (Nat.digits 256 n)]
  apply List.map_congr_left
  intro d hd
  exact UInt8.toNat_ofNat_of_lt' (Nat.digits_lt_base (by decide) hd)

@[simp] theorem leValue_digitBytes (n : Nat) : leValue (digitBytes n) = n := by
  rw [leValue, map_toNat_digitBytes, Nat.ofDigits_digits]

@[simp] theorem digitBytes_zero : digitBytes 0 = [] := rfl

theorem digitBytes_eq_nil_iff {n : Nat} : digitBytes n = [] ↔ n = 0 := by
  simp [digitBytes, Nat.digits_eq_nil_iff_eq_zero]

/-- A string whose last byte is not zero is the digits of its value. -/
theorem digitBytes_leValue {bytes : List UInt8} (h : ∀ t, bytes.getLast? = some t → t ≠ 0) :
    digitBytes (leValue bytes) = bytes := by
  have hlt : ∀ d ∈ bytes.map UInt8.toNat, d < 256 := by
    intro d hd
    obtain ⟨b, -, rfl⟩ := List.mem_map.mp hd
    exact b.toNat_lt
  have hlast : ∀ (hne : bytes.map UInt8.toNat ≠ []), (bytes.map UInt8.toNat).getLast hne ≠ 0 := by
    intro hne h0
    rw [List.getLast_map] at h0
    exact h _ (List.getLast?_eq_some_getLast _) (UInt8.toNat_inj.mp (h0.trans rfl))
  rw [digitBytes, leValue, Nat.digits_ofDigits 256 (by decide) _ hlt hlast, List.map_map]
  conv_rhs => rw [← List.map_id bytes]
  apply List.map_congr_left
  intro b _
  exact UInt8.ofNat_toNat

/-- The top digit of a non-zero number is not zero. -/
theorem getLast_digitBytes_ne_zero {n : Nat} {t : UInt8} (h : (digitBytes n).getLast? = some t) :
    t ≠ 0 := by
  intro ht
  subst ht
  have hn : n ≠ 0 := by
    rintro rfl
    simp at h
  have hne := Nat.getLast_digit_ne_zero 256 hn
  obtain ⟨init, hinit⟩ := List.getLast?_eq_some_iff.mp h
  have hdigits := map_toNat_digitBytes n
  rw [hinit, List.map_append, List.map_singleton] at hdigits
  simp only [← hdigits, List.getLast_append_singleton] at hne
  exact hne rfl

/-- The digits of a non-zero number: its low byte, then the digits of the rest. -/
theorem digitBytes_of_ne_zero {n : Nat} (hn : n ≠ 0) :
    digitBytes n = UInt8.ofNat (n % 256) :: digitBytes (n / 256) := by
  rw [digitBytes, Nat.digits_def' (by decide) (Nat.pos_of_ne_zero hn), List.map_cons]
  rfl

theorem length_digitBytes_le_iff {n k : Nat} : (digitBytes n).length ≤ k ↔ n < 256 ^ k := by
  rw [digitBytes, List.length_map]
  exact Nat.digits_length_le_iff (by decide) n

/-- A string is at least its last byte times the weight of that byte. -/
theorem le_leValue_concat (init : List UInt8) (t : UInt8) :
    256 ^ init.length * t.toNat ≤ leValue (init ++ [t]) := by
  rw [leValue_append]
  simp

-- ---------------------------------------------------------------------------
-- The sign bit
-- ---------------------------------------------------------------------------

/-- The string with bit 7 of its last byte set to `neg`; the empty string has no sign bit. -/
def withSign (neg : Bool) (bytes : List UInt8) : List UInt8 :=
  match bytes.getLast? with
  | none => []
  | some t => bytes.dropLast ++ [if neg then t ||| 0x80 else t &&& 0x7f]

/-- Bit 7 of the last byte. -/
def signBit (bytes : List UInt8) : Bool := bytes.getLast?.getD 0 &&& 0x80 != 0

@[simp] theorem withSign_nil (neg : Bool) : withSign neg [] = [] := rfl

@[simp] theorem withSign_concat (neg : Bool) (init : List UInt8) (t : UInt8) :
    withSign neg (init ++ [t]) = init ++ [if neg then t ||| 0x80 else t &&& 0x7f] := by
  simp [withSign]

@[simp] theorem signBit_concat (init : List UInt8) (t : UInt8) :
    signBit (init ++ [t]) = (t &&& 0x80 != 0) := by
  simp [signBit]

@[simp] theorem length_withSign (neg : Bool) (bytes : List UInt8) :
    (withSign neg bytes).length = bytes.length := by
  rcases List.eq_nil_or_concat' bytes with rfl | ⟨init, t, rfl⟩ <;> simp

/-- Only the last sign written counts. -/
theorem withSign_withSign (neg neg' : Bool) (bytes : List UInt8) :
    withSign neg (withSign neg' bytes) = withSign neg bytes := by
  rcases List.eq_nil_or_concat' bytes with rfl | ⟨init, t, rfl⟩
  · rfl
  · cases neg <;> cases neg' <;> simp [or_80_and_7f, and_7f_and_7f, and_7f_or_80, or_80_or_80]

theorem signBit_withSign (neg : Bool) {bytes : List UInt8} (h : bytes ≠ []) :
    signBit (withSign neg bytes) = neg := by
  obtain ⟨init, t, rfl⟩ := (List.eq_nil_or_concat' bytes).resolve_left h
  cases neg <;> simp [or_80_and_80, and_7f_and_80]

theorem withSign_signBit (bytes : List UInt8) : withSign (signBit bytes) bytes = bytes := by
  rcases List.eq_nil_or_concat' bytes with rfl | ⟨init, t, rfl⟩
  · rfl
  · by_cases h : t &&& 0x80 = 0
    · simp [h, and_7f_of_and_80]
    · simp [h, or_80_of_and_80]

/-- A string whose top bit is clear is its own unsigned form. -/
theorem withSign_false_of_signBit {bytes : List UInt8} (h : signBit bytes = false) :
    withSign false bytes = bytes := by
  simpa [h] using withSign_signBit bytes

-- ---------------------------------------------------------------------------
-- Decoding
-- ---------------------------------------------------------------------------

/-- The magnitude: the little-endian value without the sign bit. -/
def magnitude (bytes : List UInt8) : Nat := leValue (withSign false bytes)

/-- The integer a string stands for. -/
def decode (bytes : List UInt8) : Int :=
  if signBit bytes then -(magnitude bytes : Int) else magnitude bytes

@[simp] theorem decode_nil : decode [] = 0 := rfl

theorem natAbs_decode (bytes : List UInt8) : (decode bytes).natAbs = magnitude bytes := by
  unfold decode
  split <;> simp

/-- Bit 7 of the last of `n` bytes is bit `8 * n - 1` of the value. -/
theorem two_pow_length_concat (init : List UInt8) (t : UInt8) :
    2 ^ (8 * (init ++ [t]).length - 1) = 256 ^ init.length * 128 := by
  rw [List.length_append, List.length_singleton, show 8 * (init.length + 1) - 1 =
    8 * init.length + 7 by omega, Nat.pow_add, Nat.pow_mul]

/-- Without its sign bit, the last of `n` bytes leaves `8 * n - 1` bits. -/
theorem magnitude_lt {bytes : List UInt8} (h : bytes ≠ []) :
    magnitude bytes < 2 ^ (8 * bytes.length - 1) := by
  obtain ⟨init, t, rfl⟩ := (List.eq_nil_or_concat' bytes).resolve_left h
  have hinit := leValue_lt init
  have ht : (t &&& 0x7f).toNat < 128 := by
    rw [toNat_and_7f]
    exact Nat.mod_lt _ (by decide)
  rw [magnitude, withSign_concat, if_neg Bool.false_ne_true, leValue_append,
    two_pow_length_concat]
  simp only [leValue_cons, leValue_nil, Nat.mul_zero, Nat.add_zero]
  calc leValue init + 256 ^ init.length * (t &&& 0x7f).toNat
      < 256 ^ init.length + 256 ^ init.length * (t &&& 0x7f).toNat := by omega
    _ = 256 ^ init.length * ((t &&& 0x7f).toNat + 1) := by ring
    _ ≤ 256 ^ init.length * 128 := Nat.mul_le_mul_left _ ht

/-- The magnitude is the value's `8 * n - 1` low bits. -/
theorem magnitude_eq_mod {bytes : List UInt8} (h : bytes ≠ []) :
    magnitude bytes = leValue bytes % 2 ^ (8 * bytes.length - 1) := by
  obtain ⟨init, t, rfl⟩ := (List.eq_nil_or_concat' bytes).resolve_left h
  have hinit := leValue_lt init
  have hsplit : t.toNat = t.toNat % 128 + 128 * (t.toNat / 128) := (Nat.mod_add_div _ _).symm
  have hmod : t.toNat % 128 < 128 := Nat.mod_lt _ (by decide)
  rw [magnitude, withSign_concat, if_neg Bool.false_ne_true, leValue_append, leValue_append,
    two_pow_length_concat]
  simp only [leValue_cons, leValue_nil, Nat.mul_zero, Nat.add_zero, toNat_and_7f]
  have hlt : leValue init + 256 ^ init.length * (t.toNat % 128) < 256 ^ init.length * 128 := by
    calc leValue init + 256 ^ init.length * (t.toNat % 128)
        < 256 ^ init.length + 256 ^ init.length * (t.toNat % 128) := by omega
      _ = 256 ^ init.length * (t.toNat % 128 + 1) := by ring
      _ ≤ 256 ^ init.length * 128 := Nat.mul_le_mul_left _ hmod
  -- the sign bit is a multiple of the modulus
  calc leValue init + 256 ^ init.length * (t.toNat % 128)
      = (leValue init + 256 ^ init.length * (t.toNat % 128)) % (256 ^ init.length * 128) :=
        (Nat.mod_eq_of_lt hlt).symm
    _ = (leValue init + 256 ^ init.length * (t.toNat % 128) +
          256 ^ init.length * 128 * (t.toNat / 128)) % (256 ^ init.length * 128) :=
        (Nat.add_mul_mod_self_left _ _ _).symm
    _ = (leValue init + 256 ^ init.length * t.toNat) % (256 ^ init.length * 128) := by
        conv_rhs => rw [hsplit]
        ring_nf

theorem natAbs_decode_lt {bytes : List UInt8} (h : bytes ≠ []) :
    (decode bytes).natAbs < 2 ^ (8 * bytes.length - 1) := by
  rw [natAbs_decode]
  exact magnitude_lt h

-- ---------------------------------------------------------------------------
-- Encoding
-- ---------------------------------------------------------------------------

/-- The digits of `n` with a zero byte on top where the top digit uses bit 7, so that bit 7
of the last byte is free for the sign. -/
def magnitudeBytes (n : Nat) : List UInt8 :=
  if (digitBytes n).getLast?.getD 0 &&& 0x80 != 0 then digitBytes n ++ [0] else digitBytes n

/-- The string of an integer: the bytes of its magnitude with the sign bit set to its sign. -/
def encode (x : Int) : List UInt8 := withSign (decide (x < 0)) (magnitudeBytes x.natAbs)

@[simp] theorem leValue_magnitudeBytes (n : Nat) : leValue (magnitudeBytes n) = n := by
  unfold magnitudeBytes
  split <;> simp [leValue_append]

theorem signBit_magnitudeBytes (n : Nat) : signBit (magnitudeBytes n) = false := by
  unfold magnitudeBytes
  split
  · simp
  · next h => simpa [signBit] using h

theorem magnitudeBytes_eq_nil_iff {n : Nat} : magnitudeBytes n = [] ↔ n = 0 := by
  unfold magnitudeBytes
  split
  · next h =>
    simp only [List.append_eq_nil_iff, List.cons_ne_nil, and_false, false_iff]
    rintro rfl
    exact absurd h (by decide)
  · exact digitBytes_eq_nil_iff

/-- Decoding inverts encoding. -/
theorem decode_encode (x : Int) : decode (encode x) = x := by
  by_cases hx : x = 0
  · subst hx
    rfl
  · have hm : magnitudeBytes x.natAbs ≠ [] := by
      rw [Ne, magnitudeBytes_eq_nil_iff]
      omega
    rw [decode, encode, signBit_withSign _ hm, magnitude, withSign_withSign,
      withSign_false_of_signBit (signBit_magnitudeBytes _), leValue_magnitudeBytes]
    by_cases hneg : x < 0
    · simp only [decide_eq_true hneg, ↓reduceIte]
      omega
    · simp only [decide_eq_false hneg, Bool.false_eq_true, ↓reduceIte]
      omega

/-- The shortest-string test: the last byte, without its sign bit, is not zero, or the byte
below it uses bit 7. -/
def minimal (bytes : List UInt8) : Bool :=
  bytes.isEmpty || bytes.getLast?.getD 0 &&& 0x7f != 0 ||
    bytes.dropLast.getLast?.getD 0 &&& 0x80 != 0

@[simp] theorem minimal_concat (init : List UInt8) (t : UInt8) :
    minimal (init ++ [t]) = (t &&& 0x7f != 0 || init.getLast?.getD 0 &&& 0x80 != 0) := by
  have hne : (init ++ [t]).isEmpty = false := by cases init <;> rfl
  simp [minimal, hne]

/-- Every encoding is minimal. -/
theorem minimal_encode (x : Int) : minimal (encode x) = true := by
  by_cases hx : x = 0
  · subst hx
    rfl
  · have hd : digitBytes x.natAbs ≠ [] := by
      rw [Ne, digitBytes_eq_nil_iff]
      omega
    obtain ⟨d, top, hdtop⟩ := (List.eq_nil_or_concat' _).resolve_left hd
    have hlast : (digitBytes x.natAbs).getLast? = some top := by simp [hdtop]
    have htop : top ≠ 0 := getLast_digitBytes_ne_zero hlast
    by_cases h80 : top &&& 0x80 = 0
    · -- the top digit leaves bit 7 free: it carries the sign
      have hm : magnitudeBytes x.natAbs = d ++ [top] := by
        rw [magnitudeBytes, hdtop]
        simp [h80]
      have h7f := and_7f_of_and_80 top h80
      rw [encode, hm]
      cases decide (x < 0) <;> simp [h7f, or_80_and_7f, htop]
    · -- a byte is added on top for the sign; the top digit below it uses bit 7
      have hm : magnitudeBytes x.natAbs = (d ++ [top]) ++ [0] := by
        rw [magnitudeBytes, hdtop]
        simp [h80]
      rw [encode, hm, withSign_concat, minimal_concat]
      simp [h80]

/-- The magnitude of a minimal string is written back as the string without its sign bit. -/
theorem magnitudeBytes_magnitude {bytes : List UInt8} (h : minimal bytes = true) :
    magnitudeBytes (magnitude bytes) = withSign false bytes := by
  rcases List.eq_nil_or_concat' bytes with rfl | ⟨init, t, rfl⟩
  · rfl
  · rw [magnitude, withSign_concat, if_neg Bool.false_ne_true]
    by_cases h7f : t &&& 0x7f = 0
    · -- a zero top byte is minimal only above a byte that uses bit 7
      have hu : init.getLast?.getD 0 &&& 0x80 ≠ 0 := by simpa [h7f] using h
      have hinit : init ≠ [] := by
        rintro rfl
        exact hu rfl
      obtain ⟨init', u, rfl⟩ := (List.eq_nil_or_concat' init).resolve_left hinit
      have hu' : u &&& 0x80 ≠ 0 := by simpa using hu
      have hu0 : u ≠ 0 := by
        rintro rfl
        exact hu' rfl
      have hdigits : digitBytes (leValue (init' ++ [u])) = init' ++ [u] :=
        digitBytes_leValue (by simpa using hu0)
      rw [h7f, leValue_append (init' ++ [u]), magnitudeBytes]
      simp [hdigits, hu']
    · have hdigits : digitBytes (leValue (init ++ [t &&& 0x7f])) = init ++ [t &&& 0x7f] :=
        digitBytes_leValue (by simpa using h7f)
      rw [magnitudeBytes, hdigits]
      simp [and_7f_and_80]

/-- Encoding inverts decoding on minimal strings. -/
theorem encode_decode {bytes : List UInt8} (h : minimal bytes = true) :
    encode (decode bytes) = bytes := by
  rcases List.eq_nil_or_concat' bytes with rfl | ⟨init, t, rfl⟩
  · rfl
  · have hmb := magnitudeBytes_magnitude h
    have hm : magnitude (init ++ [t]) ≠ 0 := by
      intro h0
      rw [h0, magnitudeBytes] at hmb
      simp at hmb
    have hsign : decide (decode (init ++ [t]) < 0) = signBit (init ++ [t]) := by
      unfold decode
      cases signBit (init ++ [t])
      · simp
      · simp only [↓reduceIte, decide_eq_true_eq]
        omega
    rw [encode, hsign, natAbs_decode, hmb, withSign_withSign, withSign_signBit]

/-- An integer of magnitude below `2 ^ (8 * k - 1)` takes at most `k` bytes. -/
theorem length_encode_le {x : Int} {k : Nat} (hk : 1 ≤ k) (hx : x.natAbs < 2 ^ (8 * k - 1)) :
    (encode x).length ≤ k := by
  have h256 : 256 ^ k = 2 ^ (8 * k) := by rw [Nat.pow_mul]
  rw [encode, length_withSign, magnitudeBytes]
  split
  · next h =>
    -- the top digit uses bit 7, so the digits take fewer than `k` bytes
    have hd : digitBytes x.natAbs ≠ [] := by
      intro hnil
      rw [hnil] at h
      exact absurd h (by decide)
    obtain ⟨d, top, hdtop⟩ := (List.eq_nil_or_concat' _).resolve_left hd
    have htop : 128 ≤ top.toNat := (and_80_ne_zero_iff top).mp (by simpa [hdtop] using h)
    have hle : 2 ^ (8 * d.length + 7) ≤ x.natAbs := by
      calc 2 ^ (8 * d.length + 7) = 256 ^ d.length * 128 := by rw [Nat.pow_add, Nat.pow_mul]
        _ ≤ 256 ^ d.length * top.toNat := Nat.mul_le_mul_left _ htop
        _ ≤ leValue (d ++ [top]) := le_leValue_concat d top
        _ = x.natAbs := by rw [← hdtop, leValue_digitBytes]
    have hexp : 8 * d.length + 7 < 8 * k - 1 :=
      (Nat.pow_lt_pow_iff_right (by decide)).mp (Nat.lt_of_le_of_lt hle hx)
    rw [hdtop]
    simp only [List.length_append, List.length_singleton]
    omega
  · have hlt : x.natAbs < 256 ^ k := by
      rw [h256]
      exact Nat.lt_of_lt_of_le hx (Nat.pow_le_pow_right (by decide) (by omega))
    exact length_digitBytes_le_iff.mpr hlt

end SignMagnitude
