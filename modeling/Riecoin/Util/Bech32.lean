-- SUMMARY: Bech32m encoding and decoding of bech32.cpp, the checksum theorem, and the decode-of-encode round trip.
import Riecoin.Util.Strencodings

/-!
# Bech32m

`Encode` writes the human-readable part, the separator `1`, one character of `CHARSET`
per 5-bit value and six checksum characters; `Decode` checks the characters, finds the
last separator, reads the values back and verifies the checksum. Riecoin keeps only the
Bech32m constant and applies it to every witness version.

The checksum is the remainder `PolyMod` of a polynomial over GF(32). Each step of
`PolyMod` is affine: a new value is added in the low symbol (`polyModStep_eq_xor`), and a
state that differs in its five low symbols leads to a state that differs in the same
symbols shifted up by one (`polyModStep_xor`). Six steps over the checksum symbols
therefore add the symbols, packed, to what six steps over zeros give
(`foldl_polyModStep_xor`), which is why the symbols `CreateChecksum` derives from the
zero-padded remainder make the remainder equal to the constant (`polyMod_checksum`).
-/

namespace Riecoin.Bech32

open BitPack

/-- `Encoding`. -/
inductive Encoding where
  | INVALID
  | BECH32M
  deriving DecidableEq, Repr

/-- The Bech32m character set for encoding. -/
def CHARSET : List Char :=
  ['q', 'p', 'z', 'r', 'y', '9', 'x', '8', 'g', 'f', '2', 't', 'v', 'd', 'w', '0',
   's', '3', 'j', 'n', '5', '4', 'k', 'h', 'c', 'e', '6', 'm', 'u', 'a', '7', 'l']

/-- The Bech32m character set for decoding, indexed by character code below 128. -/
def CHARSET_REV : List Int :=
  [-1, -1, -1, -1, -1, -1, -1, -1, -1, -1, -1, -1, -1, -1, -1, -1,
   -1, -1, -1, -1, -1, -1, -1, -1, -1, -1, -1, -1, -1, -1, -1, -1,
   -1, -1, -1, -1, -1, -1, -1, -1, -1, -1, -1, -1, -1, -1, -1, -1,
   15, -1, 10, 17, 21, 20, 26, 30,  7,  5, -1, -1, -1, -1, -1, -1,
   -1, 29, -1, 24, 13, 25,  9,  8, 23, -1, 18, 22, 31, 27, 19, -1,
    1,  0,  3, 16, 11, 28, 12, 14,  6,  4,  2, -1, -1, -1, -1, -1,
   -1, 29, -1, 24, 13, 25,  9,  8, 23, -1, 18, 22, 31, 27, 19, -1,
    1,  0,  3, 16, 11, 28, 12, 14,  6,  4,  2, -1, -1, -1, -1, -1]

/-- The final constant of the Bech32m encoding. -/
def ENCODING_CONSTANT : UInt32 := 0x2bc830a3

/-- `CHECKSUM_SIZE`. -/
def CHECKSUM_SIZE : Nat := 6

/-- `SEPARATOR`. -/
def SEPARATOR : Char := '1'

/-- `CharLimit::BECH32`, the default limit of `Decode`. -/
def BECH32 : Nat := 90

/-- `CHARSET[i]` for a 5-bit value `i`. -/
def charsetAt (i : UInt8) : Char := CHARSET.getD i.toNat '\x00'

/-- `CHARSET_REV[c]`, `none` where the table holds `-1`. -/
def charsetRev (c : Char) : Option UInt8 :=
  let rev := CHARSET_REV.getD c.toNat (-1)
  if rev = -1 then none else some (UInt8.ofNat rev.toNat)

-- ---------------------------------------------------------------------------
-- The checksum
-- ---------------------------------------------------------------------------

/-- For each set bit `n` of `c0`, add `{2^n}k(x)`, where `k(x) = x^6 mod g(x)`. -/
def addGenerator (c0 : UInt8) (c : UInt32) : UInt32 :=
  let c := if c0 &&& 1 != 0 then c ^^^ 0x3b6a57b2 else c
  let c := if c0 &&& 2 != 0 then c ^^^ 0x26508e6d else c
  let c := if c0 &&& 4 != 0 then c ^^^ 0x1ea119fa else c
  let c := if c0 &&& 8 != 0 then c ^^^ 0x3d4233dd else c
  if c0 &&& 16 != 0 then c ^^^ 0x2a1462b3 else c

/-- One iteration of the `PolyMod` loop: `c'(x) = (c(x) * x + v_i) mod g(x)`. -/
def polyModStep (c : UInt32) (v_i : UInt8) : UInt32 :=
  let c0 : UInt8 := (c >>> 25).toUInt8
  addGenerator c0 (((c &&& 0x1ffffff) <<< 5) ^^^ v_i.toUInt32)

/-- `PolyMod`: the packed remainder of `1 x^n + v_0 x^(n-1) + … + v_(n-1)` mod `g(x)`. -/
def polyMod (v : List UInt8) : UInt32 :=
  v.foldl polyModStep 1

/-- `PreparePolynomialCoefficients`: the expanded human-readable part, then the values. -/
def preparePolynomialCoefficients (hrp : List Char) (values : List UInt8) : List UInt8 :=
  hrp.map (fun c => UInt8.ofNat (c.toNat >>> 5)) ++ [0] ++
    hrp.map (fun c => UInt8.ofNat (c.toNat &&& 0x1f)) ++ values

/-- `VerifyChecksum`. -/
def verifyChecksum (hrp : List Char) (values : List UInt8) : Encoding :=
  if polyMod (preparePolynomialCoefficients hrp values) = ENCODING_CONSTANT then .BECH32M
  else .INVALID

set_option linter.unusedVariables false in
/-- `CreateChecksum`: the six 5-bit groups of what to add to six zero values to make the
remainder the constant. As in the source, `encoding` is not read: every checksum is Bech32m. -/
def createChecksum (encoding : Encoding) (hrp : List Char) (values : List UInt8) : List UInt8 :=
  let enc := preparePolynomialCoefficients hrp values ++ List.replicate CHECKSUM_SIZE 0
  let mod := polyMod enc ^^^ ENCODING_CONSTANT
  (List.range CHECKSUM_SIZE).map fun i => ((mod >>> UInt32.ofNat (5 * (5 - i))) &&& 31).toUInt8

theorem ite_xor_right (p : Prop) [Decidable p] (c x k : UInt32) :
    (if p then c ^^^ x ^^^ k else c ^^^ x) = (if p then c ^^^ k else c) ^^^ x := by
  split <;> simp [UInt32.xor_assoc, UInt32.xor_comm x]

theorem addGenerator_xor (c0 : UInt8) (c x : UInt32) :
    addGenerator c0 (c ^^^ x) = addGenerator c0 c ^^^ x := by
  simp only [addGenerator, ite_xor_right]

/-- A step adds its value to the low symbol. -/
theorem polyModStep_eq_xor (c : UInt32) (v : UInt8) :
    polyModStep c v = polyModStep c 0 ^^^ v.toUInt32 := by
  simp only [polyModStep, ← addGenerator_xor]
  simp

theorem shiftRight_xor_of_lt {c x : UInt32} (hx : x.toNat < 2 ^ 25) : (c ^^^ x) >>> 25 = c >>> 25 := by
  apply UInt32.toNat_inj.mp
  simp only [UInt32.toNat_shiftRight, UInt32.toNat_xor, Nat.shiftRight_xor_distrib]
  rw [show (25 : UInt32).toNat % 32 = 25 from rfl, Nat.shiftRight_eq_div_pow x.toNat,
    Nat.div_eq_of_lt hx, Nat.xor_zero]

theorem mask_shift_xor_of_lt {c x : UInt32} (hx : x.toNat < 2 ^ 25) :
    ((c ^^^ x) &&& 0x1ffffff) <<< 5 = ((c &&& 0x1ffffff) <<< 5) ^^^ (x <<< 5) := by
  apply UInt32.toNat_inj.mp
  simp only [UInt32.toNat_shiftLeft, UInt32.toNat_xor, UInt32.toNat_and]
  rw [show (0x1ffffff : UInt32).toNat = 2 ^ 25 - 1 from rfl, show (5 : UInt32).toNat % 32 = 5 from rfl,
    Nat.and_two_pow_sub_one_eq_mod, Nat.and_two_pow_sub_one_eq_mod, Nat.xor_mod_two_pow,
    Nat.mod_eq_of_lt hx, Nat.shiftLeft_xor_distrib, Nat.xor_mod_two_pow]

/-- A difference in the five low symbols of the state moves up one symbol: the feedback
symbol `c0` does not see it. -/
theorem polyModStep_xor {c x : UInt32} (hx : x.toNat < 2 ^ 25) :
    polyModStep (c ^^^ x) 0 = polyModStep c 0 ^^^ (x <<< 5) := by
  simp only [polyModStep, shiftRight_xor_of_lt hx, mask_shift_xor_of_lt hx, ← addGenerator_xor]
  simp

/-- Shifting a small state up one symbol and adding a symbol is packing. -/
theorem toNat_shift_xor {x : UInt32} {d : UInt8} (hx : x.toNat < 2 ^ 25) (hd : d.toNat < 2 ^ 5) :
    ((x <<< 5) ^^^ d.toUInt32).toNat = x.toNat * 2 ^ 5 + d.toNat := by
  have hlt : x.toNat <<< 5 < 2 ^ 32 := by
    rw [Nat.shiftLeft_eq]
    omega
  simp only [UInt32.toNat_xor, UInt32.toNat_shiftLeft, UInt8.toNat_toUInt32]
  rw [show (5 : UInt32).toNat % 32 = 5 from rfl, Nat.mod_eq_of_lt hlt, shiftLeft_xor_eq_add hd,
    Nat.shiftLeft_eq]

/-- Over at most six symbols, the steps add the symbols, packed and shifted past what
follows, to what the same number of zero symbols gives. -/
theorem foldl_polyModStep_xor :
    ∀ (ds : List UInt8) (c x : UInt32), ds.length ≤ 6 → (∀ d ∈ ds, d.toNat < 2 ^ 5) →
      x.toNat < 2 ^ (30 - 5 * ds.length) →
      ds.foldl polyModStep (c ^^^ x) =
        (List.replicate ds.length 0).foldl polyModStep c ^^^
          UInt32.ofNat (x.toNat * 2 ^ (5 * ds.length) + pack 5 (ds.map UInt8.toNat))
  | [], c, x, _, _, _ => by simp [UInt32.ofNat_toNat]
  | d :: ds, c, x, hlen, hds, hx => by
    have hlen' : ds.length ≤ 5 := by
      rw [List.length_cons] at hlen
      omega
    have hd : d.toNat < 2 ^ 5 := hds d (List.mem_cons_self ..)
    have hx25 : x.toNat < 2 ^ 25 :=
      Nat.lt_of_lt_of_le hx (Nat.pow_le_pow_right (by decide) (by simp; omega))
    have hx' : ((x <<< 5) ^^^ d.toUInt32).toNat < 2 ^ (30 - 5 * ds.length) := by
      rw [toNat_shift_xor hx25 hd]
      have hexp : 30 - 5 * ds.length = (30 - 5 * (ds.length + 1)) + 5 := by omega
      simp only [List.length_cons] at hx
      rw [hexp, Nat.pow_add]
      calc x.toNat * 2 ^ 5 + d.toNat < x.toNat * 2 ^ 5 + 2 ^ 5 := by omega
        _ = (x.toNat + 1) * 2 ^ 5 := by rw [Nat.succ_mul]
        _ ≤ 2 ^ (30 - 5 * (ds.length + 1)) * 2 ^ 5 := Nat.mul_le_mul_right _ hx
    -- one step: the new symbol joins the packed difference
    have hstep : polyModStep (c ^^^ x) d = polyModStep c 0 ^^^ ((x <<< 5) ^^^ d.toUInt32) := by
      rw [polyModStep_eq_xor, polyModStep_xor hx25, UInt32.xor_assoc]
    rw [List.foldl_cons, hstep,
      foldl_polyModStep_xor ds _ _ (by omega) (fun d hd => hds d (List.mem_cons_of_mem _ hd)) hx',
      List.length_cons, List.replicate_succ, List.foldl_cons, List.map_cons, pack_cons,
      List.length_map, toNat_shift_xor hx25 hd]
    congr 2
    rw [Nat.add_mul, Nat.mul_assoc, ← Nat.pow_add, Nat.add_assoc, Nat.mul_succ, Nat.add_comm 5]

theorem ite_xor_lt (p : Prop) [Decidable p] {c k : UInt32} (hc : c.toNat < 2 ^ 30)
    (hk : k.toNat < 2 ^ 30) : (if p then c ^^^ k else c).toNat < 2 ^ 30 := by
  split
  · rw [UInt32.toNat_xor]
    exact Nat.xor_lt_two_pow hc hk
  · exact hc

/-- The state always fits in six symbols. -/
theorem polyModStep_lt (c : UInt32) (v : UInt8) : (polyModStep c v).toNat < 2 ^ 30 := by
  have hbase : (((c &&& 0x1ffffff) <<< 5) ^^^ v.toUInt32).toNat < 2 ^ 30 := by
    have hv := v.toNat_lt
    have hmask : (c &&& 0x1ffffff).toNat < 2 ^ 25 := by
      rw [UInt32.toNat_and, show (0x1ffffff : UInt32).toNat = 2 ^ 25 - 1 from rfl,
        Nat.and_two_pow_sub_one_eq_mod]
      exact Nat.mod_lt _ (Nat.two_pow_pos 25)
    have hshift : ((c &&& 0x1ffffff) <<< 5).toNat < 2 ^ 30 := by
      rw [UInt32.toNat_shiftLeft, show (5 : UInt32).toNat % 32 = 5 from rfl, Nat.shiftLeft_eq]
      omega
    rw [UInt32.toNat_xor, UInt8.toNat_toUInt32]
    exact Nat.xor_lt_two_pow hshift (by omega)
  simp only [polyModStep, addGenerator]
  refine ite_xor_lt _ (ite_xor_lt _ (ite_xor_lt _ (ite_xor_lt _ (ite_xor_lt _ hbase ?_) ?_) ?_) ?_) ?_ <;>
    decide

theorem foldl_polyModStep_lt :
    ∀ (ds : List UInt8) (c : UInt32), c.toNat < 2 ^ 30 → (ds.foldl polyModStep c).toNat < 2 ^ 30
  | [], _, hc => hc
  | d :: ds, c, _ => foldl_polyModStep_lt ds _ (polyModStep_lt c d)

theorem preparePolynomialCoefficients_append (hrp : List Char) (values extra : List UInt8) :
    preparePolynomialCoefficients hrp (values ++ extra) =
      preparePolynomialCoefficients hrp values ++ extra := by
  simp [preparePolynomialCoefficients]

/-- The checksum symbols are the digits of `mod`. -/
theorem createChecksum_eq_digits (encoding : Encoding) (hrp : List Char) (values : List UInt8) :
    (createChecksum encoding hrp values).map UInt8.toNat =
      digits 5 6 (polyMod (preparePolynomialCoefficients hrp values ++ List.replicate 6 0) ^^^
        ENCODING_CONSTANT).toNat := by
  rw [createChecksum, digits_eq_map_range, List.map_map]
  refine List.map_congr_left fun i hi => ?_
  have hi6 : i < 6 := List.mem_range.mp hi
  have hshift : (UInt32.ofNat (5 * (5 - i))).toNat % 32 = 5 * (6 - 1 - i) := by
    rw [UInt32.toNat_ofNat', Nat.mod_eq_of_lt (show 5 * (5 - i) < 2 ^ 32 by omega),
      Nat.mod_eq_of_lt (show 5 * (5 - i) < 32 by omega)]
  simp only [Function.comp, UInt32.toNat_toUInt8, UInt32.toNat_and, UInt32.toNat_shiftRight, hshift]
  rw [show (31 : UInt32).toNat = 2 ^ 5 - 1 from rfl, Nat.and_two_pow_sub_one_eq_mod,
    Nat.shiftRight_eq_div_pow,
    Nat.mod_eq_of_lt (Nat.lt_trans (Nat.mod_lt _ (Nat.two_pow_pos 5)) (by decide : 2 ^ 5 < 2 ^ 8))]
  rfl

@[simp] theorem length_createChecksum (encoding : Encoding) (hrp : List Char) (values : List UInt8) :
    (createChecksum encoding hrp values).length = 6 := by
  simp [createChecksum, CHECKSUM_SIZE]

theorem createChecksum_lt (encoding : Encoding) (hrp : List Char) (values : List UInt8) :
    ∀ d ∈ createChecksum encoding hrp values, d.toNat < 2 ^ 5 := fun d hd =>
  bounded_digits 5 6 _ d.toNat (createChecksum_eq_digits encoding hrp values ▸ List.mem_map_of_mem hd)

/-- The values followed by their checksum verify: the remainder is the constant. -/
theorem polyMod_checksum (encoding : Encoding) (hrp : List Char) (values : List UInt8) :
    polyMod (preparePolynomialCoefficients hrp (values ++ createChecksum encoding hrp values)) =
      ENCODING_CONSTANT := by
  -- `Z` is the state after the prefix and six zero symbols, `Z ^^^ K` the packed checksum
  generalize hZ : (List.replicate 6 (0 : UInt8)).foldl polyModStep
    (polyMod (preparePolynomialCoefficients hrp values)) = Z
  have hZpoly : polyMod (preparePolynomialCoefficients hrp values ++ List.replicate 6 0) = Z := by
    rw [polyMod, List.foldl_append, ← hZ]
    rfl
  have hmod_lt : (Z ^^^ ENCODING_CONSTANT).toNat < 2 ^ 30 := by
    rw [UInt32.toNat_xor]
    refine Nat.xor_lt_two_pow ?_ (by decide)
    rw [← hZ, List.replicate_succ, List.foldl_cons]
    exact foldl_polyModStep_lt _ _ (polyModStep_lt _ _)
  have hdigits := createChecksum_eq_digits encoding hrp values
  rw [hZpoly] at hdigits
  have hpack : pack 5 ((createChecksum encoding hrp values).map UInt8.toNat) = (Z ^^^ ENCODING_CONSTANT).toNat := by
    rw [hdigits, pack_digits, Nat.mod_eq_of_lt hmod_lt]
  have hfold := foldl_polyModStep_xor (createChecksum encoding hrp values)
    (polyMod (preparePolynomialCoefficients hrp values)) 0 (by simp) (createChecksum_lt encoding hrp values)
    (by rw [UInt32.toNat_zero]; exact Nat.two_pow_pos _)
  rw [UInt32.xor_zero, length_createChecksum encoding, hZ, UInt32.toNat_zero, Nat.zero_mul, Nat.zero_add, hpack,
    UInt32.ofNat_toNat, ← UInt32.xor_assoc, UInt32.xor_self, UInt32.zero_xor] at hfold
  rw [preparePolynomialCoefficients_append, polyMod, List.foldl_append]
  exact hfold

/-- Six symbols after a prefix add their packed value to the remainder of the prefix followed by
six zeros. -/
theorem polyMod_append_six (pre : List UInt8) {check : List UInt8} (hlen : check.length = 6)
    (hlt : ∀ d ∈ check, d.toNat < 2 ^ 5) :
    polyMod (pre ++ check) =
      polyMod (pre ++ List.replicate 6 0) ^^^ UInt32.ofNat (pack 5 (check.map UInt8.toNat)) := by
  have hfold := foldl_polyModStep_xor check (polyMod pre) 0 (by omega) hlt
    (by rw [UInt32.toNat_zero]; exact Nat.two_pow_pos _)
  rw [UInt32.xor_zero, hlen, UInt32.toNat_zero, Nat.zero_mul, Nat.zero_add] at hfold
  rw [polyMod, List.foldl_append, polyMod, List.foldl_append]
  exact hfold

/-- The checksum is the only six symbols that make the remainder the constant. -/
theorem createChecksum_unique (encoding : Encoding) (hrp : List Char) (values : List UInt8)
    {check : List UInt8} (hlen : check.length = 6) (hlt : ∀ d ∈ check, d.toNat < 2 ^ 5)
    (hverify : polyMod (preparePolynomialCoefficients hrp (values ++ check)) = ENCODING_CONSTANT) :
    createChecksum encoding hrp values = check := by
  have hsix := polyMod_append_six (preparePolynomialCoefficients hrp values) hlen hlt
  rw [← preparePolynomialCoefficients_append, hverify] at hsix
  have hbounded : Bounded 5 (check.map UInt8.toNat) := by
    intro d hd
    obtain ⟨c, hc, rfl⟩ := List.mem_map.mp hd
    exact hlt c hc
  have hpack_lt : pack 5 (check.map UInt8.toNat) < 2 ^ 32 :=
    Nat.lt_of_lt_of_le (pack_lt hbounded) (Nat.pow_le_pow_right (by decide) (by simp [hlen]))
  -- the zero-padded remainder and the constant differ by the packed symbols
  have hmod : polyMod (preparePolynomialCoefficients hrp values ++ List.replicate 6 0) ^^^ ENCODING_CONSTANT =
      UInt32.ofNat (pack 5 (check.map UInt8.toNat)) := by
    rw [hsix, ← UInt32.xor_assoc, UInt32.xor_self, UInt32.zero_xor]
  have hdigits := createChecksum_eq_digits encoding hrp values
  rw [hmod, UInt32.toNat_ofNat', Nat.mod_eq_of_lt hpack_lt,
    show 6 = (check.map UInt8.toNat).length by simp [hlen], digits_pack hbounded] at hdigits
  exact (List.map_inj_right fun a b h => UInt8.toNat_inj.mp h).mp hdigits

-- ---------------------------------------------------------------------------
-- Encoding and decoding
-- ---------------------------------------------------------------------------

/-- `LowerCase`: the same map as `ToLower`. -/
def lowerCase (c : Char) : Char := toLower c

/-- The loop of `CheckCharacters` from position `i`, with the flags `lower` and `upper`
saying whether a letter of either case was seen: the positions it reports. -/
def checkCharactersFrom (lower upper : Bool) (i : Nat) : List Char → List Nat
  | [] => []
  | c :: rest =>
    if 'a' ≤ c ∧ c ≤ 'z' then
      if upper then i :: checkCharactersFrom lower upper (i + 1) rest
      else checkCharactersFrom true upper (i + 1) rest
    else if 'A' ≤ c ∧ c ≤ 'Z' then
      if lower then i :: checkCharactersFrom lower upper (i + 1) rest
      else checkCharactersFrom lower true (i + 1) rest
    else if c.toNat < 33 ∨ c.toNat > 126 then i :: checkCharactersFrom lower upper (i + 1) rest
    else checkCharactersFrom lower upper (i + 1) rest

/-- `CheckCharacters`: the positions of invalid characters (outside `33..126`, or of the
other case than the first letter); the string passes when there are none. -/
def checkCharacters (str : List Char) : List Nat :=
  checkCharactersFrom false false 0 str

/-- `std::string::rfind` of one character: the position of its last occurrence. -/
def rfind (c : Char) : List Char → Option Nat
  | [] => none
  | x :: xs =>
    match rfind c xs with
    | some i => some (i + 1)
    | none => if x = c then some 0 else none

/-- `Encode`: the human-readable part, the separator, then the values and the checksum as
characters. The source asserts that `hrp` holds no uppercase letter. -/
def encode (encoding : Encoding) (hrp : List Char) (values : List UInt8) : List Char :=
  hrp ++ [SEPARATOR] ++ values.map charsetAt ++ (createChecksum encoding hrp values).map charsetAt

/-- `DecodeResult`. -/
structure DecodeResult where
  encoding : Encoding
  hrp : List Char
  data : List UInt8
  deriving DecidableEq, Repr

/-- `DecodeResult{}`, the result of a failed decoding. -/
def DecodeResult.invalid : DecodeResult := ⟨.INVALID, [], []⟩

/-- `Decode`, with the character limit `limit`. -/
def decode (str : List Char) (limit : Nat) : DecodeResult :=
  if checkCharacters str ≠ [] then .invalid
  else
    let pos := rfind SEPARATOR str
    if str.length > limit then .invalid
    else
      match pos with
      | none => .invalid
      | some pos =>
        if pos = 0 ∨ pos + CHECKSUM_SIZE ≥ str.length then .invalid
        else
          match (str.drop (pos + 1)).mapM charsetRev with
          | none => .invalid
          | some values =>
            let hrp := (str.take pos).map lowerCase
            match verifyChecksum hrp values with
            | .INVALID => .invalid
            | result => ⟨result, hrp, values.take (values.length - CHECKSUM_SIZE)⟩

/-- A human-readable part that `Encode` accepts and `Decode` gives back as it is. -/
structure ValidHrp (hrp : List Char) : Prop where
  ne_nil : hrp ≠ []
  printable : ∀ c ∈ hrp, 33 ≤ c.toNat ∧ c.toNat ≤ 126
  not_upper : ∀ c ∈ hrp, ¬('A' ≤ c ∧ c ≤ 'Z')

/-- A character `CheckCharacters` lets through in a lowercase string. -/
def LowerPrintable (c : Char) : Prop :=
  33 ≤ c.toNat ∧ c.toNat ≤ 126 ∧ ¬('A' ≤ c ∧ c ≤ 'Z')

instance : DecidablePred LowerPrintable := fun c =>
  inferInstanceAs (Decidable (33 ≤ c.toNat ∧ c.toNat ≤ 126 ∧ ¬('A' ≤ c ∧ c ≤ 'Z')))

/-- A nonempty human-readable part whose characters pass the Boolean check is valid; on a
literal the check runs by `decide`. -/
theorem ValidHrp.of_all {hrp : List Char} (hne : hrp ≠ [])
    (hall : hrp.all (fun c => decide (LowerPrintable c)) = true) : ValidHrp hrp := by
  have h : ∀ c ∈ hrp, LowerPrintable c := fun c hc => of_decide_eq_true (List.all_eq_true.mp hall c hc)
  exact ⟨hne, fun c hc => ⟨(h c hc).1, (h c hc).2.1⟩, fun c hc => (h c hc).2.2⟩

theorem checkCharactersFrom_eq_nil (lower : Bool) :
    ∀ (i : Nat) (str : List Char), (∀ c ∈ str, LowerPrintable c) →
      checkCharactersFrom lower false i str = []
  | _, [], _ => rfl
  | i, c :: rest, h => by
    obtain ⟨hlo, hhi, hup⟩ := h c (List.mem_cons_self ..)
    have hrest : ∀ c ∈ rest, LowerPrintable c := fun c hc => h c (List.mem_cons_of_mem _ hc)
    have hprint : ¬(c.toNat < 33 ∨ c.toNat > 126) := by omega
    unfold checkCharactersFrom
    by_cases hlow : 'a' ≤ c ∧ c ≤ 'z'
    · simp only [hlow, and_self, ↓reduceIte, Bool.false_eq_true]
      exact checkCharactersFrom_eq_nil true _ rest hrest
    · simp only [hlow, hup, hprint, ↓reduceIte]
      exact checkCharactersFrom_eq_nil lower _ rest hrest

theorem rfind_eq_none {c : Char} : ∀ {str : List Char}, c ∉ str → rfind c str = none
  | [], _ => rfl
  | x :: xs, h => by
    have hx : x ≠ c := fun hx => h (hx ▸ List.mem_cons_self ..)
    simp [rfind, rfind_eq_none (fun hm => h (List.mem_cons_of_mem _ hm)), hx]

/-- The last occurrence is found past a prefix that may hold more. -/
theorem rfind_append_cons {c : Char} {rest : List Char} (h : c ∉ rest) :
    ∀ pre : List Char, rfind c (pre ++ c :: rest) = some pre.length
  | [] => by simp [rfind, rfind_eq_none h]
  | x :: pre => by simp [rfind, rfind_append_cons h pre]

theorem lowerCase_of_not_upper {c : Char} (h : ¬('A' ≤ c ∧ c ≤ 'Z')) : lowerCase c = c := by
  simp [lowerCase, toLower, h]

theorem charset_lowerPrintable : ∀ c ∈ CHARSET, LowerPrintable c ∧ c ≠ SEPARATOR := by
  have hall : CHARSET.all (fun c => decide (LowerPrintable c ∧ c ≠ SEPARATOR)) = true := by decide
  exact fun c hc => of_decide_eq_true (List.all_eq_true.mp hall c hc)

theorem charsetAt_mem : ∀ n < 32, CHARSET.getD n '\x00' ∈ CHARSET := by
  decide

theorem charsetRev_getD : ∀ n < 32, charsetRev (CHARSET.getD n '\x00') = some (UInt8.ofNat n) := by
  decide

theorem charsetRev_charsetAt {v : UInt8} (hv : v.toNat < 2 ^ 5) : charsetRev (charsetAt v) = some v := by
  rw [charsetAt, charsetRev_getD _ hv, UInt8.ofNat_toNat]

theorem mapM_charsetRev_charsetAt :
    ∀ {vs : List UInt8}, (∀ v ∈ vs, v.toNat < 2 ^ 5) → (vs.map charsetAt).mapM charsetRev = some vs
  | [], _ => rfl
  | v :: vs, h => by
    rw [List.map_cons, List.mapM_cons, charsetRev_charsetAt (h v (List.mem_cons_self ..)),
      mapM_charsetRev_charsetAt (fun w hw => h w (List.mem_cons_of_mem _ hw))]
    rfl

/-- A valid human-readable part is its own lowercase. -/
theorem ValidHrp.map_lowerCase {hrp : List Char} (hhrp : ValidHrp hrp) : hrp.map lowerCase = hrp := by
  conv => rhs; rw [← List.map_id hrp]
  exact List.map_congr_left fun c hc => lowerCase_of_not_upper (hhrp.not_upper c hc)

theorem take_encode (encoding : Encoding) (hrp : List Char) (values : List UInt8) :
    (encode encoding hrp values).take hrp.length = hrp := by
  simp [encode]

/-- `Decode` reads back what `Encode` writes, for a valid human-readable part, 5-bit
values and a string within the limit. -/
theorem decode_encode (encoding : Encoding) {hrp : List Char} (hhrp : ValidHrp hrp) {values : List UInt8}
    (hvalues : ∀ v ∈ values, v.toNat < 2 ^ 5) {limit : Nat}
    (hlimit : hrp.length + 1 + values.length + CHECKSUM_SIZE ≤ limit) :
    decode (encode encoding hrp values) limit = ⟨.BECH32M, hrp, values⟩ := by
  -- the values and their checksum, all 5-bit
  have hdata : ∀ v ∈ values ++ createChecksum encoding hrp values, v.toNat < 2 ^ 5 := by
    intro v hv
    rcases List.mem_append.mp hv with hv | hv
    · exact hvalues v hv
    · exact createChecksum_lt encoding hrp values v hv
  have hchars : ∀ c ∈ (values ++ createChecksum encoding hrp values).map charsetAt, c ∈ CHARSET := by
    intro c hc
    obtain ⟨v, hv, rfl⟩ := List.mem_map.mp hc
    exact charsetAt_mem _ (hdata v hv)
  have hstr : encode encoding hrp values = hrp ++ SEPARATOR :: (values ++ createChecksum encoding hrp values).map charsetAt := by
    simp [encode]
  have hsep : SEPARATOR ∉ (values ++ createChecksum encoding hrp values).map charsetAt :=
    fun h => (charset_lowerPrintable _ (hchars _ h)).2 rfl
  have hlen : (encode encoding hrp values).length = hrp.length + 1 + values.length + CHECKSUM_SIZE := by
    simp [hstr, CHECKSUM_SIZE]
    omega
  have hcheck : checkCharacters (encode encoding hrp values) = [] := by
    refine checkCharactersFrom_eq_nil false 0 _ fun c hc => ?_
    rw [hstr] at hc
    rcases List.mem_append.mp hc with hc | hc
    · exact ⟨(hhrp.printable c hc).1, (hhrp.printable c hc).2, hhrp.not_upper c hc⟩
    · rcases List.mem_cons.mp hc with rfl | hc
      · decide
      · exact (charset_lowerPrintable c (hchars c hc)).1
  have hpos : hrp.length ≠ 0 := fun h => hhrp.ne_nil (List.eq_nil_of_length_eq_zero h)
  have hdrop : (encode encoding hrp values).drop (hrp.length + 1) =
      (values ++ createChecksum encoding hrp values).map charsetAt := by
    simp [hstr]
  have hverify : verifyChecksum hrp (values ++ createChecksum encoding hrp values) = .BECH32M := by
    simp [verifyChecksum, polyMod_checksum]
  unfold decode
  rw [if_neg (by simp [hcheck]), hstr, rfind_append_cons hsep, ← hstr, if_neg (by omega)]
  dsimp only
  rw [if_neg (by omega), hdrop, mapM_charsetRev_charsetAt hdata]
  dsimp only
  rw [take_encode, hhrp.map_lowerCase, hverify]
  simp [CHECKSUM_SIZE]

-- ---------------------------------------------------------------------------
-- What Decode accepts
-- ---------------------------------------------------------------------------

theorem not_mem_of_rfind_eq_none {c : Char} : ∀ {str : List Char}, rfind c str = none → c ∉ str
  | [], _ => List.not_mem_nil
  | x :: xs, h => by
    unfold rfind at h
    cases hxs : rfind c xs with
    | some i =>
      rw [hxs] at h
      simp at h
    | none =>
      rw [hxs] at h
      dsimp only at h
      have hx : x ≠ c := fun hx => by simp [hx] at h
      intro hm
      rcases List.mem_cons.mp hm with rfl | hm
      · exact hx rfl
      · exact not_mem_of_rfind_eq_none hxs hm

/-- `rfind` finds the last occurrence. -/
theorem rfind_eq_some {c : Char} : ∀ {str : List Char} {pos : Nat}, rfind c str = some pos →
    ∃ pre rest, str = pre ++ c :: rest ∧ pre.length = pos ∧ c ∉ rest
  | [], _, h => by simp [rfind] at h
  | x :: xs, pos, h => by
    unfold rfind at h
    cases hxs : rfind c xs with
    | some i =>
      rw [hxs] at h
      obtain ⟨pre, rest, rfl, hlen, hnot⟩ := rfind_eq_some hxs
      refine ⟨x :: pre, rest, rfl, ?_, hnot⟩
      simp only [Option.some.injEq] at h
      simp [hlen, ← h]
    | none =>
      rw [hxs] at h
      dsimp only at h
      -- no later occurrence, so the head is the one found
      by_cases hx : x = c
      · simp only [hx, if_true, Option.some.injEq] at h
        exact ⟨[], xs, by rw [hx]; rfl, by simp [← h], not_mem_of_rfind_eq_none hxs⟩
      · simp [hx] at h

/-- Every character `CHARSET_REV` reads is, lowercased, the character of its value. -/
theorem charsetRev_eq_some {c : Char} {v : UInt8} (h : charsetRev c = some v) :
    v.toNat < 2 ^ 5 ∧ charsetAt v = lowerCase c := by
  have hc : c.toNat < 128 := by
    by_cases hge : 128 ≤ c.toNat
    · have hnone : CHARSET_REV[c.toNat]? = none := List.getElem?_eq_none (by simpa [CHARSET_REV] using hge)
      simp [charsetRev, hnone] at h
    · omega
  -- the 128 entries of the table, checked one by one
  have htable : ∀ n < 128, (charsetRev (Char.ofNat n)).all
      (fun v => decide (v.toNat < 2 ^ 5) && charsetAt v == lowerCase (Char.ofNat n)) = true := by
    decide
  have := htable c.toNat hc
  rw [Char.ofNat_toNat, h] at this
  simpa using this

/-- The values read from a data part: one per character, each 5-bit, each written back as the
character lowercased. -/
theorem mapM_charsetRev_eq_some : ∀ {xs : List Char} {vs : List UInt8}, xs.mapM charsetRev = some vs →
    vs.length = xs.length ∧ (∀ v ∈ vs, v.toNat < 2 ^ 5) ∧ vs.map charsetAt = xs.map lowerCase
  | [], vs, h => by
    simp only [List.mapM_nil, Option.pure_def, Option.some.injEq] at h
    subst h
    simp
  | x :: xs, vs, h => by
    simp only [List.mapM_cons, Option.pure_def, Option.bind_eq_bind, Option.bind_eq_some_iff,
      Option.some.injEq] at h
    obtain ⟨v, hv, vs', hvs', rfl⟩ := h
    obtain ⟨hlen, hlt, hmap⟩ := mapM_charsetRev_eq_some hvs'
    obtain ⟨hvlt, hvc⟩ := charsetRev_eq_some hv
    refine ⟨by simp [hlen], fun w hw => ?_, by simp [hvc, hmap]⟩
    rcases List.mem_cons.mp hw with rfl | hw
    · exact hvlt
    · exact hlt w hw

/-- What a successful `Decode` read: a human-readable part, the last separator, and a data
part of at least six characters that all decode, with a verifying checksum. -/
theorem decode_ne_invalid {str : List Char} {limit : Nat} (h : (decode str limit).encoding ≠ .INVALID) :
    ∃ pre rest values, str = pre ++ SEPARATOR :: rest ∧ rest.mapM charsetRev = some values ∧
      CHECKSUM_SIZE ≤ values.length ∧ verifyChecksum (pre.map lowerCase) values = .BECH32M ∧
      decode str limit = ⟨.BECH32M, pre.map lowerCase, values.take (values.length - CHECKSUM_SIZE)⟩ := by
  generalize hd : decode str limit = r at h
  unfold decode at hd
  -- each failed check gives the invalid result
  split at hd
  · subst hd
    exact absurd rfl h
  split at hd
  · subst hd
    exact absurd rfl h
  dsimp only at hd
  split at hd
  · subst hd
    exact absurd rfl h
  rename_i pos hpos
  split at hd
  · subst hd
    exact absurd rfl h
  rename_i hbounds
  split at hd
  · subst hd
    exact absurd rfl h
  rename_i values hvalues
  obtain ⟨pre, rest, rfl, hlen, -⟩ := rfind_eq_some hpos
  have hdrop : (pre ++ SEPARATOR :: rest).drop (pos + 1) = rest := by simp [← hlen]
  have htake : (pre ++ SEPARATOR :: rest).take pos = pre := by simp [← hlen]
  rw [hdrop] at hvalues
  rw [htake] at hd
  have hvlen := (mapM_charsetRev_eq_some hvalues).1
  have hsix : CHECKSUM_SIZE ≤ values.length := by
    simp only [List.length_append, List.length_cons] at hbounds
    omega
  split at hd
  · subst hd
    exact absurd rfl h
  rename_i hvalid
  -- the only other encoding is Bech32m
  cases hverify : verifyChecksum (pre.map lowerCase) values with
  | INVALID => exact absurd hverify hvalid
  | BECH32M =>
    rw [hverify] at hd
    exact ⟨pre, rest, values, rfl, hvalues, hsix, hverify, hd.symm⟩

/-- `Encode` writes back, lowercased, every string `Decode` accepts. -/
theorem encode_decode {str : List Char} {limit : Nat} (h : (decode str limit).encoding ≠ .INVALID) :
    encode .BECH32M (decode str limit).hrp (decode str limit).data = str.map lowerCase := by
  obtain ⟨pre, rest, values, rfl, hvalues, hsix, hverify, hdec⟩ := decode_ne_invalid h
  obtain ⟨-, hlt, hmap⟩ := mapM_charsetRev_eq_some hvalues
  rw [hdec]
  dsimp only
  -- the last six values are the checksum of the others
  have hsplit := List.take_append_drop (values.length - CHECKSUM_SIZE) values
  have hcheck : createChecksum .BECH32M (pre.map lowerCase) (values.take (values.length - CHECKSUM_SIZE)) =
      values.drop (values.length - CHECKSUM_SIZE) := by
    refine createChecksum_unique _ _ _ (by simp [CHECKSUM_SIZE] at hsix ⊢; omega)
      (fun d hd => hlt d (List.mem_of_mem_drop hd)) ?_
    rw [hsplit]
    simpa [verifyChecksum] using hverify
  rw [encode, hcheck, List.append_assoc, ← List.map_append, hsplit, hmap]
  simp [SEPARATOR, lowerCase, toLower]

/-- `Decode` reads back what `Encode` writes, whatever encoding is asked for, and `Encode`
writes back, up to case, every string `Decode` accepts. -/
theorem bech32_roundtrip :
    (∀ (encoding : Encoding) (hrp : List Char) (values : List UInt8) (limit : Nat), ValidHrp hrp →
      (∀ v ∈ values, v.toNat < 2 ^ 5) → hrp.length + 1 + values.length + CHECKSUM_SIZE ≤ limit →
      decode (encode encoding hrp values) limit = ⟨.BECH32M, hrp, values⟩) ∧
    ∀ (str : List Char) (limit : Nat), (decode str limit).encoding ≠ .INVALID →
      encode .BECH32M (decode str limit).hrp (decode str limit).data = str.map lowerCase :=
  ⟨fun encoding _ _ _ hhrp hvalues hlimit => decode_encode encoding hhrp hvalues hlimit,
    fun _ _ h => encode_decode h⟩

/-- `ric` with the values `0, 31` encodes and decodes back, and the upper-case address
`RIC1QW50Q7AZTZ` decodes and encodes again in lower case. -/
theorem bech32_roundtrip_ric :
    ValidHrp ['r', 'i', 'c'] ∧ (∀ v ∈ ([0, 31] : List UInt8), v.toNat < 2 ^ 5) ∧
      decode (encode .BECH32M ['r', 'i', 'c'] [0, 31]) BECH32 = ⟨.BECH32M, ['r', 'i', 'c'], [0, 31]⟩ ∧
      (decode ['R', 'I', 'C', '1', 'Q', 'W', '5', '0', 'Q', '7', 'A', 'Z', 'T', 'Z'] BECH32).encoding ≠ .INVALID ∧
      encode .BECH32M (decode ['R', 'I', 'C', '1', 'Q', 'W', '5', '0', 'Q', '7', 'A', 'Z', 'T', 'Z'] BECH32).hrp
          (decode ['R', 'I', 'C', '1', 'Q', 'W', '5', '0', 'Q', '7', 'A', 'Z', 'T', 'Z'] BECH32).data =
        ['R', 'I', 'C', '1', 'Q', 'W', '5', '0', 'Q', '7', 'A', 'Z', 'T', 'Z'].map lowerCase :=
  have hhrp : ValidHrp ['r', 'i', 'c'] := ValidHrp.of_all (by decide) (by decide)
  have hvalues : ∀ v ∈ ([0, 31] : List UInt8), v.toNat < 2 ^ 5 := by simp
  have hvalid : (decode ['R', 'I', 'C', '1', 'Q', 'W', '5', '0', 'Q', '7', 'A', 'Z', 'T', 'Z'] BECH32).encoding ≠
      .INVALID := by decide +kernel
  ⟨hhrp, hvalues, bech32_roundtrip.1 .BECH32M _ _ BECH32 hhrp hvalues (by decide), hvalid,
    bech32_roundtrip.2 _ BECH32 hvalid⟩

end Riecoin.Bech32
