-- SUMMARY: Big-endian byte strings: the value of a string, a value written as k bytes, and leading zero bytes, which change neither the value nor whether it fits in k bytes; with the top bit of a byte.
import Riecoin.Lib.BitPack
import Mathlib.Data.Nat.Bitwise

/-!
# Big-endian byte strings

A byte string read most significant byte first denotes `beValue`; `beBytes k n` writes `n`
back as `k` bytes. Parsers of length-prefixed integers skip the leading zero bytes of a
field and then check how many bytes are left: `beValue_stripZeros` says that the skipped
bytes do not change the value, and `length_stripZeros_le_iff` that what is left fits in `k`
bytes exactly when the value is below `2 ^ (8 * k)`. A field that fits, right-aligned in `k`
zero bytes, is the value written as `k` bytes (`beBytes_beValue`). All of it rests on the
digit packing of `BitPack` at width `8`.
-/

namespace BigEndian

/-- The value of a byte string read most significant byte first. -/
def beValue (bytes : List UInt8) : Nat := BitPack.pack 8 (bytes.map UInt8.toNat)

/-- The value `n`, cut to `k` bytes, written most significant byte first. -/
def beBytes (k n : Nat) : List UInt8 := (BitPack.digits 8 k n).map UInt8.ofNat

/-- The string without its leading zero bytes. -/
def stripZeros (bytes : List UInt8) : List UInt8 := bytes.dropWhile (· == 0)

-- ---------------------------------------------------------------------------
-- Values
-- ---------------------------------------------------------------------------

theorem bounded_toNat (bytes : List UInt8) : BitPack.Bounded 8 (bytes.map UInt8.toNat) := by
  intro d hd
  obtain ⟨b, -, rfl⟩ := List.mem_map.mp hd
  exact b.toNat_lt

theorem beValue_cons (b : UInt8) (bytes : List UInt8) :
    beValue (b :: bytes) = b.toNat * 2 ^ (8 * bytes.length) + beValue bytes := by
  rw [beValue, List.map_cons, BitPack.pack_cons, List.length_map]
  rfl

theorem beValue_lt (bytes : List UInt8) : beValue bytes < 2 ^ (8 * bytes.length) := by
  have h := BitPack.pack_lt (bounded_toNat bytes)
  rwa [List.length_map] at h

theorem beValue_replicate_zero_append (m : Nat) (bytes : List UInt8) :
    beValue (List.replicate m 0 ++ bytes) = beValue bytes := by
  induction m with
  | zero => rfl
  | succ m ih =>
    rw [List.replicate_succ, List.cons_append, beValue_cons, ih, UInt8.toNat_zero, Nat.zero_mul,
      Nat.zero_add]

/-- A string with a nonzero first byte is at least the weight of that byte. -/
theorem two_pow_le_beValue {b : UInt8} (hb : b ≠ 0) (bytes : List UInt8) :
    2 ^ (8 * bytes.length) ≤ beValue (b :: bytes) := by
  have hpos : 0 < b.toNat := by
    rcases Nat.eq_zero_or_pos b.toNat with h | h
    · exact absurd (UInt8.toNat_inj.mp (h.trans UInt8.toNat_zero.symm)) hb
    · exact h
  rw [beValue_cons]
  calc 2 ^ (8 * bytes.length) ≤ b.toNat * 2 ^ (8 * bytes.length) := Nat.le_mul_of_pos_left _ hpos
    _ ≤ _ := Nat.le_add_right _ _

-- ---------------------------------------------------------------------------
-- Leading zero bytes
-- ---------------------------------------------------------------------------

theorem stripZeros_cons_zero (bytes : List UInt8) : stripZeros (0 :: bytes) = stripZeros bytes := by
  simp [stripZeros]

theorem stripZeros_cons_of_ne {b : UInt8} (hb : b ≠ 0) (bytes : List UInt8) :
    stripZeros (b :: bytes) = b :: bytes := by
  simp [stripZeros, hb]

theorem length_stripZeros_le (bytes : List UInt8) : (stripZeros bytes).length ≤ bytes.length :=
  (List.dropWhile_suffix _).length_le

/-- The string is its leading zero bytes followed by the rest. -/
theorem replicate_append_stripZeros (bytes : List UInt8) :
    List.replicate (bytes.length - (stripZeros bytes).length) 0 ++ stripZeros bytes = bytes := by
  induction bytes with
  | nil => rfl
  | cons b bytes ih =>
    by_cases hb : b = 0
    · subst hb
      have hle := length_stripZeros_le bytes
      rw [stripZeros_cons_zero, List.length_cons,
        show bytes.length + 1 - (stripZeros bytes).length =
          bytes.length - (stripZeros bytes).length + 1 by omega,
        List.replicate_succ, List.cons_append, ih]
    · rw [stripZeros_cons_of_ne hb, Nat.sub_self, List.replicate_zero, List.nil_append]

theorem beValue_stripZeros (bytes : List UInt8) : beValue (stripZeros bytes) = beValue bytes := by
  conv => rhs; rw [← replicate_append_stripZeros bytes]
  rw [beValue_replicate_zero_append]

/-- What is left after the leading zero bytes is empty or starts with a nonzero byte. -/
theorem stripZeros_eq_nil_or (bytes : List UInt8) :
    stripZeros bytes = [] ∨ ∃ b rest, stripZeros bytes = b :: rest ∧ b ≠ 0 := by
  induction bytes with
  | nil => exact .inl rfl
  | cons b bytes ih =>
    by_cases hb : b = 0
    · subst hb
      rw [stripZeros_cons_zero]
      exact ih
    · exact .inr ⟨b, bytes, stripZeros_cons_of_ne hb bytes, hb⟩

/-- Without its leading zero bytes, a string fits in `k` bytes exactly when its value is
below `2 ^ (8 * k)`. -/
theorem length_stripZeros_le_iff (bytes : List UInt8) (k : Nat) :
    (stripZeros bytes).length ≤ k ↔ beValue bytes < 2 ^ (8 * k) := by
  rw [← beValue_stripZeros]
  constructor
  · intro hk
    exact Nat.lt_of_lt_of_le (beValue_lt _) (Nat.pow_le_pow_right (by omega) (by omega))
  · intro hlt
    rcases stripZeros_eq_nil_or bytes with h | ⟨b, rest, h, hb⟩
    · rw [h]
      exact Nat.zero_le k
    · rw [h] at hlt ⊢
      have hle := Nat.lt_of_le_of_lt (two_pow_le_beValue hb rest) hlt
      have := (Nat.pow_lt_pow_iff_right (by omega)).mp hle
      rw [List.length_cons]
      omega

-- ---------------------------------------------------------------------------
-- Writing a value back
-- ---------------------------------------------------------------------------

/-- A string of at most `k` bytes, right-aligned in `k` zero bytes, is its value written as
`k` bytes. -/
theorem beBytes_beValue {bytes : List UInt8} {k : Nat} (hk : bytes.length ≤ k) :
    beBytes k (beValue bytes) = List.replicate (k - bytes.length) 0 ++ bytes := by
  have hlen : (List.replicate (k - bytes.length) (0 : UInt8) ++ bytes).length = k := by
    rw [List.length_append, List.length_replicate]
    omega
  have hdig := BitPack.digits_pack (bounded_toNat (List.replicate (k - bytes.length) 0 ++ bytes))
  rw [List.length_map, hlen] at hdig
  rw [beBytes, ← beValue_replicate_zero_append (k - bytes.length), beValue, hdig, List.map_map]
  simp [Function.comp_def]

-- ---------------------------------------------------------------------------
-- The top bit of a byte
-- ---------------------------------------------------------------------------

/-- The top bit of a byte value, as the test `x & 0x80` makes it. -/
theorem and_0x80_ne_zero_iff {x : Nat} (hx : x < 256) : x &&& 0x80 ≠ 0 ↔ 0x80 ≤ x := by
  rw [show (0x80 : Nat) = 2 ^ 7 from rfl, Nat.and_two_pow, Nat.testBit_eq_decide_div_mod_eq]
  by_cases h : x / 2 ^ 7 % 2 = 1
  · simp only [h, decide_true, Bool.toNat_true]
    omega
  · simp only [h, decide_false, Bool.toNat_false]
    omega

/-- The same test on a `UInt8`. -/
theorem uint8_and_0x80_eq_zero_iff (b : UInt8) : b &&& 0x80 = 0 ↔ b < 0x80 := by
  have h := and_0x80_ne_zero_iff b.toNat_lt
  rw [← UInt8.toNat_inj, UInt8.toNat_and, UInt8.lt_iff_toNat_lt]
  exact ⟨fun h0 => Nat.lt_of_not_le fun hle => h.mpr hle h0,
    fun hlt => Classical.byContradiction fun hne => Nat.not_le_of_lt hlt (h.mp hne)⟩

end BigEndian
