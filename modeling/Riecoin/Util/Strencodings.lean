-- SUMMARY: ConvertBits, HexStr, ParseHex and ToLower of util/strencodings, with the regrouping and hex round trips.
import Riecoin.Lib.BitPack

/-!
# String encodings

`ConvertBits` (`util/strencodings.h`) regroups a sequence of `frombits`-bit digits into
`tobits`-bit digits through a bit accumulator; with `pad` it appends the last partial
digit padded with zeros, without it it fails unless the leftover bits are fewer than
`frombits` and all zero. Its loop keeps the invariant that the digits put out so far,
followed by the pending bits of the accumulator, spell the input read so far
(`convertBitsLoop_inv`); from it the padded conversion followed by the unpadded one in
the other direction gives the input back (`convertBits_roundtrip`) whenever
`tobits ≤ frombits`, the case of the 8-to-5 regrouping of Bech32 addresses.

`HexStr` writes two lowercase hex digits per byte and `TryParseHex` reads them back,
skipping white space before each pair (`tryParseHex_hexStr`).

Strings are lists of characters, one per byte of the `std::string`.
-/

namespace Riecoin

open BitPack

-- ---------------------------------------------------------------------------
-- ConvertBits
-- ---------------------------------------------------------------------------

/-- The inner `while (bits >= tobits)` loop of `ConvertBits`: put out the `tobits`-bit
digit of `acc` that ends at bit `bits - tobits`, until fewer than `tobits` bits are
pending. -/
def convertBitsDrain (tobits : Nat) (htobits : 0 < tobits) (acc bits : Nat) (out : List Nat) :
    Nat × List Nat :=
  if bits ≥ tobits then
    convertBitsDrain tobits htobits acc (bits - tobits)
      (out ++ [(acc >>> (bits - tobits)) &&& ((1 <<< tobits) - 1)])
  else (bits, out)
termination_by bits
decreasing_by omega

/-- The outer loop of `ConvertBits` over the input digits, on the state
`(acc, bits, out)`. The input digits come from bytes, so the `v < 0` exit of the source
never fires and is not modelled. -/
def convertBitsLoop (frombits tobits : Nat) (htobits : 0 < tobits) :
    Nat × Nat × List Nat → List Nat → Nat × Nat × List Nat
  | st, [] => st
  | (acc, bits, out), v :: rest =>
    let acc := ((acc <<< frombits) ||| v) &&& ((1 <<< (frombits + tobits - 1)) - 1)
    let (bits, out) := convertBitsDrain tobits htobits acc (bits + frombits) out
    convertBitsLoop frombits tobits htobits (acc, bits, out) rest

/-- `ConvertBits<frombits, tobits, pad>`: the success flag and the digits passed to
`outfn`. -/
def convertBits (frombits tobits : Nat) (pad : Bool) (htobits : 0 < tobits) (input : List Nat) :
    Bool × List Nat :=
  let (acc, bits, out) := convertBitsLoop frombits tobits htobits (0, 0, []) input
  if pad then
    (true, if bits ≠ 0 then out ++ [(acc <<< (tobits - bits)) &&& ((1 <<< tobits) - 1)] else out)
  else if bits ≥ frombits ∨ ((acc <<< (tobits - bits)) &&& ((1 <<< tobits) - 1)) ≠ 0 then
    (false, out)
  else (true, out)

/-- The last digit of a list of `k + 1` digits is the low digit. -/
theorem digits_succ_cons (w k n : Nat) :
    digits w (k + 1) n = (n / 2 ^ (w * k) % 2 ^ w) :: digits w k n := by
  induction k generalizing n with
  | zero => simp [digits]
  | succ k ih =>
    rw [digits, ih, digits, Nat.div_div_eq_div_mul, ← Nat.pow_add, Nat.mul_succ, Nat.add_comm w]
    rfl

/-- The inner loop in closed form: it puts out the `bits / tobits` whole digits above the
`bits % tobits` bits that stay pending. -/
theorem convertBitsDrain_eq (tobits : Nat) (htobits : 0 < tobits) (acc : Nat) :
    ∀ bits out, convertBitsDrain tobits htobits acc bits out =
      (bits % tobits, out ++ digits tobits (bits / tobits) (acc / 2 ^ (bits % tobits))) := by
  intro bits
  induction bits using Nat.strongRecOn with
  | ind bits ih =>
    intro out
    rw [convertBitsDrain]
    split
    · case isTrue hge =>
      -- one digit goes out and `bits - tobits` keeps the same remainder
      obtain ⟨q, hq⟩ : ∃ q, bits / tobits = q + 1 :=
        ⟨bits / tobits - 1, by have := Nat.div_pos hge htobits; omega⟩
      have hsplit : bits - tobits = bits % tobits + tobits * q := by
        have := Nat.div_add_mod bits tobits
        rw [hq, Nat.mul_succ] at this
        omega
      have hmod : (bits - tobits) % tobits = bits % tobits := by
        rw [hsplit, Nat.add_mul_mod_self_left, Nat.mod_mod]
      have hdiv : (bits - tobits) / tobits = q := by
        rw [hsplit, Nat.add_mul_div_left _ _ htobits, Nat.div_eq_of_lt (Nat.mod_lt _ htobits),
          Nat.zero_add]
      rw [ih _ (by omega), hmod, hdiv, hq, digits_succ_cons, List.append_assoc, List.singleton_append]
      congr
      rw [Nat.one_shiftLeft, Nat.and_two_pow_sub_one_eq_mod, Nat.shiftRight_eq_div_pow,
        Nat.div_div_eq_div_mul, ← Nat.pow_add, ← hsplit]
    · case isFalse hlt =>
      simp [Nat.mod_eq_of_lt (Nat.lt_of_not_le hlt), Nat.div_eq_of_lt (Nat.lt_of_not_le hlt)]

/-- Shifting `a` past `k` low bits `v` and cutting to `b + k` bits keeps the `b` low bits
of `a`. -/
theorem shift_add_mod {a v k : Nat} (b : Nat) (hv : v < 2 ^ k) :
    (a * 2 ^ k + v) % 2 ^ (b + k) = a % 2 ^ b * 2 ^ k + v := by
  have hpos : 0 < 2 ^ k := Nat.two_pow_pos k
  rw [Nat.pow_add, Nat.mul_comm (2 ^ b), Nat.mod_mul, Nat.add_comm (a * _), Nat.add_mul_mod_self_right,
    Nat.mod_eq_of_lt hv, Nat.add_mul_div_right _ _ hpos, Nat.div_eq_of_lt hv, Nat.zero_add,
    Nat.mul_comm (2 ^ k), Nat.add_comm]

/-- Division with remainder is unique. -/
theorem eq_of_mul_add_eq {a b c d n : Nat} (hb : b < n) (hd : d < n) (h : a * n + b = c * n + d) :
    a = c ∧ b = d := by
  have hn : 0 < n := by omega
  have hdiv := congrArg (· / n) h
  have hmod := congrArg (· % n) h
  simp only [Nat.add_comm (_ * n), Nat.add_mul_div_right _ _ hn, Nat.div_eq_of_lt hb,
    Nat.div_eq_of_lt hd, Nat.add_mul_mod_self_right, Nat.mod_eq_of_lt hb, Nat.mod_eq_of_lt hd] at hdiv hmod
  exact ⟨by simpa using hdiv, hmod⟩

/-- The invariant of the `ConvertBits` loop after reading `xs`: fewer than `tobits` bits
pend, and the digits put out followed by the pending bits of `acc` spell `xs`. -/
structure ConvertBitsInv (frombits tobits : Nat) (xs : List Nat) (st : Nat × Nat × List Nat) :
    Prop where
  bits_lt : st.2.1 < tobits
  value : pack tobits st.2.2 * 2 ^ st.2.1 + st.1 % 2 ^ st.2.1 = pack frombits xs
  length : st.2.2.length * tobits + st.2.1 = frombits * xs.length
  bounded : Bounded tobits st.2.2

theorem convertBitsInv_init (frombits tobits : Nat) (htobits : 0 < tobits) :
    ConvertBitsInv frombits tobits [] (0, 0, []) :=
  ⟨htobits, by simp, by simp, by simp [Bounded]⟩

/-- One input digit: the masked accumulator still holds the pending bits, and the inner
loop moves whole digits from them to the output. -/
theorem convertBitsInv_step {frombits tobits : Nat} (htobits : 0 < tobits) {xs : List Nat}
    {acc bits : Nat} {out : List Nat} {v : Nat} (hinv : ConvertBitsInv frombits tobits xs (acc, bits, out))
    (hv : v < 2 ^ frombits) :
    let acc' := ((acc <<< frombits) ||| v) &&& ((1 <<< (frombits + tobits - 1)) - 1)
    ConvertBitsInv frombits tobits (xs ++ [v])
      (acc', convertBitsDrain tobits htobits acc' (bits + frombits) out) := by
  intro acc'
  obtain ⟨hbits, hvalue, hlength, hbounded⟩ := hinv
  dsimp only at hbits hvalue hlength hbounded
  -- the mask keeps `frombits + tobits - 1` bits, enough for the `bits + frombits` pending ones
  have hacc : acc' % 2 ^ (bits + frombits) = acc % 2 ^ bits * 2 ^ frombits + v := by
    have hdvd : 2 ^ (bits + frombits) ∣ 2 ^ (frombits + tobits - 1) :=
      Nat.pow_dvd_pow 2 (by omega)
    simp only [acc']
    rw [Nat.one_shiftLeft, Nat.and_two_pow_sub_one_eq_mod, ← Nat.shiftLeft_add_eq_or_of_lt hv,
      Nat.shiftLeft_eq, Nat.mod_mod_of_dvd _ hdvd]
    exact shift_add_mod bits hv
  have hsplit : (bits + frombits) / tobits * tobits + (bits + frombits) % tobits = bits + frombits :=
    Nat.div_add_mod' _ _
  have hr := Nat.mod_lt (bits + frombits) htobits
  rw [convertBitsDrain_eq]
  generalize (bits + frombits) / tobits = q at hsplit ⊢
  generalize (bits + frombits) % tobits = r at hsplit hr ⊢
  refine ⟨hr, ?_, ?_, bounded_append.mpr ⟨hbounded, bounded_digits _ _ _⟩⟩
  · -- the new digits and the bits still pending make up the `bits + frombits` pending bits
    have hlow : acc' / 2 ^ r % 2 ^ (tobits * q) * 2 ^ r + acc' % 2 ^ r = acc' % 2 ^ (bits + frombits) := by
      rw [← hsplit, show q * tobits + r = r + tobits * q by rw [Nat.mul_comm, Nat.add_comm],
        Nat.pow_add, Nat.mod_mul, Nat.mul_comm (2 ^ r)]
      exact Nat.add_comm _ _
    calc pack tobits (out ++ digits tobits q (acc' / 2 ^ r)) * 2 ^ r + acc' % 2 ^ r
        = pack tobits out * 2 ^ (q * tobits + r) + (acc' / 2 ^ r % 2 ^ (tobits * q) * 2 ^ r + acc' % 2 ^ r) := by
          rw [pack_append, pack_digits, length_digits, Nat.add_mul, Nat.mul_comm q, Nat.pow_add,
            Nat.mul_assoc, Nat.add_assoc]
      _ = pack tobits out * 2 ^ (bits + frombits) + acc' % 2 ^ (bits + frombits) := by
          rw [hsplit, hlow]
      _ = (pack tobits out * 2 ^ bits + acc % 2 ^ bits) * 2 ^ frombits + v := by
          rw [hacc, Nat.pow_add, Nat.add_mul, Nat.mul_assoc, Nat.add_assoc]
      _ = pack frombits (xs ++ [v]) := by
          rw [pack_append_singleton, hvalue]
  · dsimp only
    rw [List.length_append, length_digits, List.length_append, List.length_singleton, Nat.add_mul,
      Nat.mul_succ]
    omega

/-- The loop keeps the invariant over the whole input. -/
theorem convertBitsLoop_inv {frombits tobits : Nat} (htobits : 0 < tobits) :
    ∀ (rest xs : List Nat) (st : Nat × Nat × List Nat), ConvertBitsInv frombits tobits xs st →
      Bounded frombits rest →
      ConvertBitsInv frombits tobits (xs ++ rest) (convertBitsLoop frombits tobits htobits st rest)
  | [], xs, st, hinv, _ => by simpa [convertBitsLoop] using hinv
  | v :: rest, xs, (acc, bits, out), hinv, hrest => by
    obtain ⟨hv, hrest'⟩ := bounded_cons.mp hrest
    have := convertBitsLoop_inv htobits rest (xs ++ [v]) _ (convertBitsInv_step htobits hinv hv) hrest'
    rw [List.append_assoc, List.singleton_append] at this
    exact this

/-- The state after the whole input. -/
theorem convertBitsLoop_init_inv {frombits tobits : Nat} (htobits : 0 < tobits) {xs : List Nat}
    (hxs : Bounded frombits xs) :
    ConvertBitsInv frombits tobits xs (convertBitsLoop frombits tobits htobits (0, 0, []) xs) := by
  simpa using convertBitsLoop_inv htobits xs [] _ (convertBitsInv_init frombits tobits htobits) hxs

/-- The last digit of the padded conversion: the pending bits followed by zeros. -/
theorem last_digit_eq {acc bits tobits : Nat} (hbits : bits ≤ tobits) :
    (acc <<< (tobits - bits)) &&& ((1 <<< tobits) - 1) = acc % 2 ^ bits * 2 ^ (tobits - bits) := by
  have := @shift_add_mod acc 0 (tobits - bits) bits (Nat.two_pow_pos _)
  rw [Nat.add_zero, Nat.add_zero, Nat.add_sub_cancel' hbits] at this
  rw [Nat.one_shiftLeft, Nat.and_two_pow_sub_one_eq_mod, Nat.shiftLeft_eq, this]

/-- The padded conversion succeeds, and its digits spell the input followed by fewer than
`tobits` zero bits. -/
theorem convertBits_pad {frombits tobits : Nat} (htobits : 0 < tobits) {xs : List Nat}
    (hxs : Bounded frombits xs) :
    ∃ ys p, convertBits frombits tobits true htobits xs = (true, ys) ∧ Bounded tobits ys ∧
      pack tobits ys = pack frombits xs * 2 ^ p ∧ ys.length * tobits = frombits * xs.length + p ∧
      p < tobits := by
  have hinv := convertBitsLoop_init_inv htobits hxs
  unfold convertBits
  generalize convertBitsLoop frombits tobits htobits (0, 0, []) xs = st at hinv ⊢
  obtain ⟨acc, bits, out⟩ := st
  obtain ⟨hbits, hvalue, hlength, hbounded⟩ := hinv
  dsimp only at hbits hvalue hlength hbounded ⊢
  by_cases hb : bits = 0
  · subst hb
    exact ⟨out, 0, by simp, hbounded, by simpa [Nat.mod_one] using hvalue, by simpa using hlength,
      htobits⟩
  · -- the last partial digit is padded with `tobits - bits` zero bits
    have hpow : 2 ^ bits * 2 ^ (tobits - bits) = 2 ^ tobits := by
      rw [← Nat.pow_add, Nat.add_sub_cancel' (Nat.le_of_lt hbits)]
    refine ⟨out ++ [acc % 2 ^ bits * 2 ^ (tobits - bits)], tobits - bits, ?_, ?_, ?_, ?_, by omega⟩
    · simp [hb, last_digit_eq (Nat.le_of_lt hbits)]
    · refine bounded_append.mpr ⟨hbounded, ?_⟩
      have hlt : acc % 2 ^ bits * 2 ^ (tobits - bits) < 2 ^ bits * 2 ^ (tobits - bits) :=
        Nat.mul_lt_mul_of_pos_right (Nat.mod_lt _ (Nat.two_pow_pos _)) (Nat.two_pow_pos _)
      simpa [Bounded, hpow] using hlt
    · rw [pack_append_singleton, ← hvalue, ← hpow, Nat.add_mul, Nat.mul_assoc]
    · rw [List.length_append, List.length_singleton, Nat.succ_mul]
      omega

/-- The unpadded conversion succeeds exactly when fewer than `frombits` bits are left
over and they are all zero. -/
theorem convertBits_unpad {frombits tobits : Nat} (htobits : 0 < tobits) {ys : List Nat}
    (hys : Bounded frombits ys) :
    ∃ acc bits out, ConvertBitsInv frombits tobits ys (acc, bits, out) ∧
      convertBits frombits tobits false htobits ys = (decide (bits < frombits ∧ acc % 2 ^ bits = 0), out) := by
  have hinv := convertBitsLoop_init_inv htobits hys
  unfold convertBits
  generalize convertBitsLoop frombits tobits htobits (0, 0, []) ys = st at hinv ⊢
  obtain ⟨acc, bits, out⟩ := st
  refine ⟨acc, bits, out, hinv, ?_⟩
  have hbits : bits < tobits := hinv.bits_lt
  have hpos : 0 < 2 ^ (tobits - bits) := Nat.two_pow_pos _
  dsimp only
  rw [last_digit_eq (Nat.le_of_lt hbits)]
  -- the padded last digit is nonzero exactly when the leftover bits are
  have hmul : acc % 2 ^ bits * 2 ^ (tobits - bits) ≠ 0 ↔ acc % 2 ^ bits ≠ 0 :=
    ⟨fun h hz => h (by rw [hz, Nat.zero_mul]), fun h => Nat.mul_ne_zero h (Nat.pos_iff_ne_zero.mp hpos)⟩
  simp only [hmul]
  by_cases hlt : bits < frombits <;> by_cases hz : acc % 2 ^ bits = 0 <;> simp [hlt, hz]

/-- Regrouping to a narrower width with padding and back without it gives the input
back. -/
theorem convertBits_roundtrip {frombits tobits : Nat} (hf : 0 < frombits) (ht : 0 < tobits)
    (hle : tobits ≤ frombits) {xs : List Nat} (hxs : Bounded frombits xs) :
    convertBits tobits frombits false hf (convertBits frombits tobits true ht xs).2 = (true, xs) := by
  obtain ⟨ys, p, hpad, hys, hpack, hlen, hp⟩ := convertBits_pad ht hxs
  obtain ⟨acc, bits, out, ⟨hbits, hvalue, hlength, hbounded⟩, hunpad⟩ := convertBits_unpad hf hys
  dsimp only at hbits hvalue hlength hbounded
  rw [hpad, hunpad]
  -- as many whole digits come back as went in, with the `p` padding bits left over
  obtain ⟨hlen', rfl⟩ : out.length = xs.length ∧ bits = p := by
    refine eq_of_mul_add_eq hbits (by omega) ?_
    rw [hlength, Nat.mul_comm tobits, hlen, Nat.mul_comm]
  obtain ⟨hout, hzero⟩ : pack frombits out = pack frombits xs ∧ acc % 2 ^ bits = 0 := by
    refine eq_of_mul_add_eq (Nat.mod_lt _ (Nat.two_pow_pos _)) (Nat.two_pow_pos _) ?_
    rw [hvalue, hpack, Nat.add_zero]
  rw [pack_injective hlen' hbounded hxs hout]
  simp [hp, hzero]

/-- The padded conversion into `b`-bit digits puts out `ceil(a n / b)` of them for `n` digits
of `a` bits. -/
theorem length_convertBits_pad {a b : Nat} (hb : 0 < b) {xs : List Nat} (hxs : Bounded a xs) :
    (convertBits a b true hb xs).2.length = (a * xs.length + b - 1) / b := by
  obtain ⟨ys, p, hpad, -, -, hlen, hp⟩ := convertBits_pad hb hxs
  rw [hpad]
  dsimp only
  symm
  apply Nat.div_eq_of_lt_le
  · omega
  · rw [Nat.succ_mul]
    omega

/-- The unpadded conversion from `b`-bit digits `ds` fails or succeeds on the last
`b * ds.length % a` bits; when it succeeds, the padded conversion back gives `ds`. -/
theorem convertBits_unpad_pad {a b : Nat} (ha : 0 < a) (hb : 0 < b) {ds : List Nat} (hds : Bounded b ds) :
    ((convertBits b a false ha ds).1 = true ↔
      b * ds.length % a < b ∧ pack b ds % 2 ^ (b * ds.length % a) = 0) ∧
    ((convertBits b a false ha ds).1 = true → (convertBits a b true hb (convertBits b a false ha ds).2).2 = ds) := by
  obtain ⟨acc, bits, out, ⟨hbits, hvalue, hlength, hbounded⟩, hunpad⟩ := convertBits_unpad ha hds
  dsimp only at hbits hvalue hlength hbounded
  -- the bits left over are the last `b * ds.length % a` bits of the input
  have hrem : bits = b * ds.length % a := by
    rw [← hlength, Nat.add_comm, Nat.add_mul_mod_self_right, Nat.mod_eq_of_lt hbits]
  have hlow : acc % 2 ^ bits = pack b ds % 2 ^ bits := by
    rw [← hvalue, Nat.add_comm, Nat.add_mul_mod_self_right, Nat.mod_mod]
  rw [hunpad, ← hrem, ← hlow]
  refine ⟨by simp, fun hok => ?_⟩
  obtain ⟨hlt, hzero⟩ : bits < b ∧ acc % 2 ^ bits = 0 := by simpa using hok
  obtain ⟨ys, p, hpad, hys, hpack, hlen, hp⟩ := convertBits_pad hb hbounded
  rw [hpad]
  -- the padding puts back exactly the `bits` zero bits that were left over
  obtain ⟨hlen', rfl⟩ : ys.length = ds.length ∧ bits = p := by
    refine eq_of_mul_add_eq hlt hp ?_
    rw [hlen, Nat.mul_comm ds.length b, ← hlength, Nat.mul_comm out.length a]
    omega
  refine pack_injective hlen' hys hds ?_
  rw [hpack, ← hvalue, hzero, Nat.add_zero]

/-- Regrouping between `a`-bit and `b`-bit digits, `b ≤ a`, padding into the narrower width:
the padded conversion puts out `ceil(a n / b)` digits of `b` bits that convert back to the
input; and the unpadded conversion from `b`-bit digits succeeds exactly when the leftover bits
are fewer than `b` and all zero, and then converts back with padding to its input. -/
theorem convertBits_regroup {a b : Nat} (hb : 0 < b) (hba : b ≤ a) :
    (∀ xs : List Nat, Bounded a xs →
      (convertBits a b true hb xs).1 = true ∧
      (convertBits a b true hb xs).2.length = (a * xs.length + b - 1) / b ∧
      Bounded b (convertBits a b true hb xs).2 ∧
      convertBits b a false (Nat.lt_of_lt_of_le hb hba) (convertBits a b true hb xs).2 = (true, xs)) ∧
    ∀ ds : List Nat, Bounded b ds →
      ((convertBits b a false (Nat.lt_of_lt_of_le hb hba) ds).1 = true ↔
        b * ds.length % a < b ∧ pack b ds % 2 ^ (b * ds.length % a) = 0) ∧
      ((convertBits b a false (Nat.lt_of_lt_of_le hb hba) ds).1 = true →
        (convertBits a b true hb (convertBits b a false (Nat.lt_of_lt_of_le hb hba) ds).2).2 = ds) := by
  refine ⟨fun xs hxs => ?_, fun ds hds => convertBits_unpad_pad _ hb hds⟩
  obtain ⟨ys, p, hpad, hys, -, -, -⟩ := convertBits_pad hb hxs
  refine ⟨by rw [hpad], length_convertBits_pad hb hxs, by rw [hpad]; exact hys, ?_⟩
  exact convertBits_roundtrip (Nat.lt_of_lt_of_le hb hba) hb hba hxs

theorem convertBits_regroup_bech32 :
    0 < 5 ∧ 5 ≤ 8 ∧
    (∀ xs : List Nat, Bounded 8 xs →
      (convertBits 8 5 true (by decide) xs).1 = true ∧
      (convertBits 8 5 true (by decide) xs).2.length = (8 * xs.length + 5 - 1) / 5 ∧
      Bounded 5 (convertBits 8 5 true (by decide) xs).2 ∧
      convertBits 5 8 false (by decide) (convertBits 8 5 true (by decide) xs).2 = (true, xs)) ∧
    ∀ ds : List Nat, Bounded 5 ds →
      ((convertBits 5 8 false (by decide) ds).1 = true ↔
        5 * ds.length % 8 < 5 ∧ pack 5 ds % 2 ^ (5 * ds.length % 8) = 0) ∧
      ((convertBits 5 8 false (by decide) ds).1 = true →
        (convertBits 8 5 true (by decide) (convertBits 5 8 false (by decide) ds).2).2 = ds) :=
  ⟨by decide, by decide, convertBits_regroup (a := 8) (b := 5) (by decide) (by decide)⟩

/-- Bytes are 8-bit digits. -/
theorem bounded_map_toNat (bytes : List UInt8) : Bounded 8 (bytes.map UInt8.toNat) := by
  intro d hd
  obtain ⟨b, -, rfl⟩ := List.mem_map.mp hd
  exact b.toNat_lt

/-- Digits of at most 8 bits come back from bytes as they went in. -/
theorem map_toNat_map_ofNat {ds : List Nat} (h : Bounded 8 ds) :
    (ds.map UInt8.ofNat).map UInt8.toNat = ds := by
  rw [List.map_map]
  conv => rhs; rw [← List.map_id ds]
  refine List.map_congr_left fun d hd => ?_
  rw [Function.comp_apply, UInt8.toNat_ofNat', Nat.mod_eq_of_lt (h d hd), id]

-- ---------------------------------------------------------------------------
-- Hex
-- ---------------------------------------------------------------------------

/-- `hexmap` of `CreateByteToHexMap`: the sixteen lowercase hex digits. -/
def hexmap : List Char :=
  ['0', '1', '2', '3', '4', '5', '6', '7', '8', '9', 'a', 'b', 'c', 'd', 'e', 'f']

/-- `HexStr`: each byte as two hex digits, the high nibble first. -/
def hexStr (s : List UInt8) : List Char :=
  s.flatMap fun (v : UInt8) => [hexmap.getD (v >>> 4).toNat '0', hexmap.getD (v &&& 15).toNat '0']

/-- `HexDigit`: the value of a hex digit of either case, `none` where the table
`p_util_hexdigit` holds `-1`. -/
def hexDigit (c : Char) : Option Nat :=
  if '0' ≤ c ∧ c ≤ '9' then some (c.toNat - '0'.toNat)
  else if 'a' ≤ c ∧ c ≤ 'f' then some (c.toNat - 'a'.toNat + 10)
  else if 'A' ≤ c ∧ c ≤ 'F' then some (c.toNat - 'A'.toNat + 10)
  else none

/-- `IsSpace`: the six white-space characters of the C locale. -/
def isSpace (c : Char) : Bool :=
  c == ' ' || c == '\x0c' || c == '\n' || c == '\r' || c == '\t' || c == '\x0b'

/-- `TryParseHex`: pairs of hex digits, white space allowed before each pair; `none` on a
character that is not a hex digit and on a lone digit at the end. -/
def tryParseHex : List Char → Option (List UInt8)
  | [] => some []
  | [c] => if isSpace c then some [] else none
  | c :: c' :: rest =>
    if isSpace c then tryParseHex (c' :: rest)
    else
      match hexDigit c, hexDigit c' with
      | some c1, some c2 =>
        (tryParseHex rest).map fun vch => (UInt8.ofNat (c1 <<< 4) ||| UInt8.ofNat c2) :: vch
      | _, _ => none

/-- `ParseHex`: `TryParseHex`, or nothing on invalid input. -/
def parseHex (str : List Char) : List UInt8 :=
  (tryParseHex str).getD []

/-- `ToLower` of one character: only `A` to `Z` change. -/
def toLower (c : Char) : Char :=
  if 'A' ≤ c ∧ c ≤ 'Z' then Char.ofNat (c.toNat - 'A'.toNat + 'a'.toNat) else c

/-- A character `HexStr` can write. -/
def IsLowerHex (c : Char) : Prop := c ∈ hexmap

instance : DecidablePred IsLowerHex := fun c => inferInstanceAs (Decidable (c ∈ hexmap))

theorem hexDigit_hexmap : ∀ i < 16, hexDigit (hexmap.getD i '0') = some i := by decide

theorem isSpace_hexmap : ∀ i < 16, isSpace (hexmap.getD i '0') = false := by decide

theorem hexmap_mem : ∀ i < 16, hexmap.getD i '0' ∈ hexmap := by decide

/-- A byte is its two nibbles put back together. -/
theorem byte_nibbles (v : UInt8) :
    UInt8.ofNat ((v >>> 4).toNat <<< 4) ||| UInt8.ofNat (v &&& 15).toNat = v := by
  apply UInt8.toNat_inj.mp
  have hv := v.toNat_lt
  have hlo : v.toNat % 2 ^ 4 < 2 ^ 4 := Nat.mod_lt _ (Nat.two_pow_pos 4)
  have hhi : v.toNat >>> 4 <<< 4 < 2 ^ 8 := by
    rw [Nat.shiftLeft_eq, Nat.shiftRight_eq_div_pow]
    omega
  simp only [UInt8.toNat_or, UInt8.toNat_ofNat', UInt8.toNat_shiftRight, UInt8.toNat_and]
  rw [show (15 : UInt8).toNat = 2 ^ 4 - 1 from rfl, show (4 : UInt8).toNat % 8 = 4 from rfl,
    Nat.and_two_pow_sub_one_eq_mod, Nat.mod_eq_of_lt hhi,
    Nat.mod_eq_of_lt (by omega : v.toNat % 2 ^ 4 < 2 ^ 8), ← Nat.shiftLeft_add_eq_or_of_lt hlo,
    Nat.shiftLeft_eq, Nat.shiftRight_eq_div_pow]
  omega

theorem nibbles_lt (v : UInt8) : (v >>> 4).toNat < 16 ∧ (v &&& 15).toNat < 16 := by
  have hv := v.toNat_lt
  simp only [UInt8.toNat_shiftRight, UInt8.toNat_and, Nat.shiftRight_eq_div_pow]
  refine ⟨by rw [show (4 : UInt8).toNat % 8 = 4 from rfl]; omega, ?_⟩
  rw [show (15 : UInt8).toNat = 2 ^ 4 - 1 from rfl, Nat.and_two_pow_sub_one_eq_mod]
  omega

theorem hexStr_cons (v : UInt8) (s : List UInt8) :
    hexStr (v :: s) = hexmap.getD (v >>> 4).toNat '0' :: hexmap.getD (v &&& 15).toNat '0' :: hexStr s :=
  rfl

@[simp] theorem length_hexStr (s : List UInt8) : (hexStr s).length = 2 * s.length := by
  induction s with
  | nil => simp [hexStr]
  | cons v s ih =>
    rw [hexStr_cons, List.length_cons, List.length_cons, ih, List.length_cons]
    omega

/-- `HexStr` writes only lowercase hex digits. -/
theorem isLowerHex_of_mem_hexStr {s : List UInt8} {c : Char} (h : c ∈ hexStr s) : IsLowerHex c := by
  obtain ⟨v, -, hc⟩ := List.mem_flatMap.mp h
  obtain ⟨hhi, hlo⟩ := nibbles_lt v
  simp only [List.mem_cons, List.not_mem_nil, or_false] at hc
  rcases hc with rfl | rfl
  · exact hexmap_mem _ hhi
  · exact hexmap_mem _ hlo

/-- `ToLower` leaves what `HexStr` writes as it is. -/
theorem toLower_of_isLowerHex {c : Char} (h : IsLowerHex c) : toLower c = c := by
  -- checked as a Boolean over the table, not as a proposition over all characters
  have hall : hexmap.all (fun c => toLower c == c) = true := by decide
  exact beq_iff_eq.mp (List.all_eq_true.mp hall c h)

/-- Every character of a literal is a hex digit when the Boolean check says so; on a
literal the check runs by `decide`. -/
theorem forall_isLowerHex_of_all {s : List Char} (h : s.all (fun c => decide (IsLowerHex c)) = true) :
    ∀ c ∈ s, IsLowerHex c :=
  fun c hc => of_decide_eq_true (List.all_eq_true.mp h c hc)

/-- `TryParseHex` reads back what `HexStr` writes. -/
theorem tryParseHex_hexStr (s : List UInt8) : tryParseHex (hexStr s) = some s := by
  induction s with
  | nil => simp [hexStr, tryParseHex]
  | cons v s ih =>
    obtain ⟨hhi, hlo⟩ := nibbles_lt v
    rw [hexStr_cons, tryParseHex, isSpace_hexmap _ hhi, hexDigit_hexmap _ hhi, hexDigit_hexmap _ hlo]
    simp only [Bool.false_eq_true, ↓reduceIte, ih, Option.map_some, byte_nibbles]

theorem parseHex_hexStr (s : List UInt8) : parseHex (hexStr s) = s := by
  simp [parseHex, tryParseHex_hexStr]

example : hexStr [0x76, 0xa9] = ['7', '6', 'a', '9'] := by decide

end Riecoin
