-- SUMMARY: LocateErrors of bech32.cpp: the GF(32) and GF(1024) tables, the syndrome of a checksum residue, the one- and two-error search, and that it reports no error exactly where Decode succeeds and only positions of the string.
import Riecoin.Util.Bech32
import Mathlib.Tactic.SplitIfs

/-!
# Locating errors in a Bech32m string

`LocateErrors` repeats the checks of `Decode`, and where one fails it names the failed check
and the positions it blames. When only the checksum fails, the residue of the string's
polynomial modulo the generator is the residue of the error polynomial alone; its syndrome,
the values at `e^997`, `e^998` and `e^999` in GF(1024), locates one error directly or, trying
each first position, two errors.

GF(1024) is a degree 2 extension of GF(32), and both fields are handled by exponent and
logarithm tables that `GenerateGFTables` builds at compile time (`gf32Tables`,
`gf1024Tables`); `SYNDROME_CONSTS` holds the syndrome of each residue bit.

* `locateErrors_eq_nil_iff` says that `LocateErrors` reports no error, with the empty message,
  exactly on the strings `Decode` accepts at the default limit (`DecodeChecks`).
* `locateErrors_lt` says that every position it reports is a position of the string.
-/

namespace Riecoin.Bech32

-- ---------------------------------------------------------------------------
-- The GF(32) and GF(1024) tables
-- ---------------------------------------------------------------------------

/-- `fmod`: the defining polynomial `x^5 + x^3 + 1` of GF(32) over GF(2), packed as `101001`. -/
def fmod : Nat := 41

/-- The GF(32) loop of `GenerateGFTables` at `i` with `v = x^(i-1)`: multiplication by `x` is a
shift, reduced by `fmod`, and then `GF32_EXP[i] = v` and `GF32_LOG[v] = i`. -/
def gf32Loop : Nat → Nat → Nat → List Nat × List Int → List Nat × List Int
  | 0, _, _, tables => tables
  | fuel + 1, i, v, (gf32Exp, gf32Log) =>
    let v := v <<< 1
    let v := if v &&& 32 ≠ 0 then v ^^^ fmod else v
    gf32Loop fuel (i + 1) v (gf32Exp.set i v, gf32Log.set v i)

/-- `GF32_EXP` (31 entries) and `GF32_LOG` (32 entries, `-1` at `0`). -/
def gf32Tables : List Nat × List Int :=
  gf32Loop 30 1 1 ((List.replicate 31 0).set 0 1, ((List.replicate 32 0).set 0 (-1)).set 1 0)

/-- The GF(1024) loop of `GenerateGFTables` at `i` with `v = e^(i-1)`, written `v1 || v0` over
GF(32): `e * v = (9 v1 + v0) || 23 v1`, the GF(32) products taken with its tables. A GF(32)
logarithm read here is of a nonzero element, so nonnegative. -/
def gf1024Loop (gf32Exp : List Nat) (gf32Log : List Int) :
    Nat → Nat → Nat → List Nat × List Int → List Nat × List Int
  | 0, _, _, tables => tables
  | fuel + 1, i, v, (gf1024Exp, gf1024Log) =>
    let v0 := v &&& 31
    let v1 := v >>> 5
    let v0n := if v1 ≠ 0 then gf32Exp.getD ((gf32Log.getD v1 0 + gf32Log.getD 23 0).tmod 31).toNat 0 else 0
    let v1n := (if v1 ≠ 0 then gf32Exp.getD ((gf32Log.getD v1 0 + gf32Log.getD 9 0).tmod 31).toNat 0 else 0) ^^^ v0
    let v := v1n <<< 5 ||| v0n
    gf1024Loop gf32Exp gf32Log fuel (i + 1) v (gf1024Exp.set i v, gf1024Log.set v i)

/-- `GenerateGFTables`: `GF1024_EXP` (1023 entries) and `GF1024_LOG` (1024 entries, `-1` at
`0`). -/
def gf1024Tables : List Nat × List Int :=
  gf1024Loop gf32Tables.1 gf32Tables.2 1022 1 1
    ((List.replicate 1023 0).set 0 1, ((List.replicate 1024 0).set 0 (-1)).set 1 0)

/-- `GF1024_EXP`. -/
def GF1024_EXP : List Nat := gf1024Tables.1

/-- `GF1024_LOG`. -/
def GF1024_LOG : List Int := gf1024Tables.2

/-- `GenerateSyndromeConstants`: entry `5 * (k - 1) + shift` packs the values at `e^997`,
`e^998` and `e^999` of the residue bit `2^shift` of the coefficient of `x^k`. -/
def SYNDROME_CONSTS : List UInt32 :=
  (List.range 5).flatMap fun k' =>
    let k := k' + 1
    (List.range 5).map fun shift =>
      let b := GF1024_LOG.getD (1 <<< shift) 0
      let c0 := GF1024_EXP.getD ((997 * k + b).tmod 1023).toNat 0
      let c1 := GF1024_EXP.getD ((998 * k + b).tmod 1023).toNat 0
      let c2 := GF1024_EXP.getD ((999 * k + b).tmod 1023).toNat 0
      UInt32.ofNat (c2 <<< 20 ||| c1 <<< 10 ||| c0)

/-- `Syndrome(residue)`: `s_997`, `s_998` and `s_999` packed in 10-bit groups, the constant
coefficient added to all three and the constant of each set bit of the others. -/
def syndrome (residue : UInt32) : UInt32 :=
  let low := residue &&& 0x1f
  let result := low ^^^ (low <<< 10) ^^^ (low <<< 20)
  (List.range 25).foldl (fun result i =>
    result ^^^ (if (residue >>> UInt32.ofNat (5 + i)) &&& 1 ≠ 0 then SYNDROME_CONSTS.getD i 0 else 0)) result

-- ---------------------------------------------------------------------------
-- LocateErrors
-- ---------------------------------------------------------------------------

/-- The loop of `LocateErrors` that reads the data part from position `i`: its values, or the
position of the first character outside the character set. -/
def readValues (i : Nat) : List Char → Except Nat (List UInt8)
  | [] => .ok []
  | c :: rest =>
    match charsetRev c with
    | none => .error i
    | some v => (readValues (i + 1) rest).map (v :: ·)

/-- One error: `s1^2 = s0 s2` and the position `p1 = log s1 - log s0`, kept when it lies in the
data part and the error value `s0 / e^(997 p1)` lies in GF(32), the subgroup of index 33. -/
def singleError (size length : Nat) (l_s0 l_s1 : Int) : List Nat :=
  let p1 := ((l_s1 - l_s0 + 1023).tmod 1023).toNat
  let l_e1 := l_s0 + (1023 - 997) * p1
  if p1 < length ∧ l_e1.tmod 33 = 0 then [size - p1 - 1] else []

/-- The body of the two-error loop at the first position `p1`: the second position `p2` from
`(s2 + s1 e^p1) / (s1 + s0 e^p1)`, kept when it lies in the data part and both error values
lie in GF(32). `none` is `continue`. A logarithm read here is of a nonzero value, so
nonnegative. -/
def twoErrorsAt (length s0 s1 s2 : Nat) (l_s0 l_s1 : Int) (p1 : Nat) : Option Nat :=
  let s2_s1p1 := s2 ^^^ (if s1 = 0 then 0 else GF1024_EXP.getD ((l_s1 + p1).tmod 1023).toNat 0)
  if s2_s1p1 = 0 then none else
  let l_s2_s1p1 := GF1024_LOG.getD s2_s1p1 (-1)
  let s1_s0p1 := s1 ^^^ (if s0 = 0 then 0 else GF1024_EXP.getD ((l_s0 + p1).tmod 1023).toNat 0)
  if s1_s0p1 = 0 then none else
  let l_s1_s0p1 := GF1024_LOG.getD s1_s0p1 (-1)
  let p2 := ((l_s2_s1p1 - l_s1_s0p1 + 1023).tmod 1023).toNat
  if p2 ≥ length ∨ p1 = p2 then none else
  let s1_s0p2 := s1 ^^^ (if s0 = 0 then 0 else GF1024_EXP.getD ((l_s0 + p2).tmod 1023).toNat 0)
  if s1_s0p2 = 0 then none else
  let l_s1_s0p2 := GF1024_LOG.getD s1_s0p2 (-1)
  let inv_p1_p2 := 1023 - GF1024_LOG.getD (GF1024_EXP.getD p1 0 ^^^ GF1024_EXP.getD p2 0) (-1)
  let l_e2 := l_s1_s0p1 + inv_p1_p2 + (1023 - 997) * p2
  if l_e2.tmod 33 ≠ 0 then none else
  let l_e1 := l_s1_s0p2 + inv_p1_p2 + (1023 - 997) * p1
  if l_e1.tmod 33 ≠ 0 then none else
  some p2

/-- The two-error loop over the first positions from `p1` on: the first pair found, as
positions from the left, the larger first; none if no first position gives one. -/
def twoErrors (size length s0 s1 s2 : Nat) (l_s0 l_s1 : Int) : Nat → Nat → List Nat
  | 0, _ => []
  | fuel + 1, p1 =>
    match twoErrorsAt length s0 s1 s2 l_s0 l_s1 p1 with
    | some p2 => if p1 > p2 then [size - p1 - 1, size - p2 - 1] else [size - p2 - 1, size - p1 - 1]
    | none => twoErrors size length s0 s1 s2 l_s0 l_s1 fuel (p1 + 1)

/-- The checksum part of `LocateErrors` for a nonzero residue: one error where the syndrome
allows it, otherwise the two-error search. -/
def possibleErrors (size length : Nat) (residue : UInt32) : List Nat :=
  let syn := syndrome residue
  let s0 := (syn &&& 0x3FF).toNat
  let s1 := ((syn >>> 10) &&& 0x3FF).toNat
  let s2 := (syn >>> 20).toNat
  let l_s0 := GF1024_LOG.getD s0 (-1)
  let l_s1 := GF1024_LOG.getD s1 (-1)
  let l_s2 := GF1024_LOG.getD s2 (-1)
  if l_s0 ≠ -1 ∧ l_s1 ≠ -1 ∧ l_s2 ≠ -1 ∧ (2 * l_s1 - l_s2 - l_s0 + 2046).tmod 1023 = 0 then
    singleError size length l_s0 l_s1
  else twoErrors size length s0 s1 s2 l_s0 l_s1 length 0

/-- `LocateErrors(str)` at its default limit `CharLimit::BECH32`: the message and the positions
of the errors. The checks come in the order of the source; the loop over the encodings runs
once, for Bech32m, with no positions found before it, so its result is taken as it is. -/
def locateErrors (str : List Char) : String × List Nat :=
  if str.length > BECH32 then ("Bech32 string too long", List.range' BECH32 (str.length - BECH32))
  else if checkCharacters str ≠ [] then ("Invalid character or mixed case", checkCharacters str)
  else
    match rfind SEPARATOR str with
    | none => ("Missing separator", [])
    | some pos =>
      if pos = 0 ∨ pos + CHECKSUM_SIZE ≥ str.length then ("Invalid separator position", [pos])
      else
        let hrp := (str.take pos).map lowerCase
        let length := str.length - 1 - pos
        match readValues (pos + 1) (str.drop (pos + 1)) with
        | .error i => ("Invalid Base 32 character", [i])
        | .ok values =>
          let residue := polyMod (preparePolynomialCoefficients hrp values) ^^^ ENCODING_CONSTANT
          if residue = 0 then ("", [])
          else
            let errors := possibleErrors str.length length residue
            (if errors ≠ [] then "Invalid Bech32m checksum" else "Invalid checksum", errors)

-- ---------------------------------------------------------------------------
-- What Decode checks
-- ---------------------------------------------------------------------------

/-- The checks of `Decode`, all passed: the characters, the length, a separator with a
nonempty human-readable part before it and at least six characters after it, a data part
that reads, and the checksum. -/
def DecodeChecks (str : List Char) (limit : Nat) : Prop :=
  checkCharacters str = [] ∧ str.length ≤ limit ∧
    ∃ pos values, rfind SEPARATOR str = some pos ∧ pos ≠ 0 ∧ pos + CHECKSUM_SIZE < str.length ∧
      (str.drop (pos + 1)).mapM charsetRev = some values ∧
      verifyChecksum ((str.take pos).map lowerCase) values = .BECH32M

/-- `Decode` succeeds exactly when all its checks pass. -/
theorem decode_ne_invalid_iff {str : List Char} {limit : Nat} :
    (decode str limit).encoding ≠ .INVALID ↔ DecodeChecks str limit := by
  unfold decode DecodeChecks
  by_cases hchars : checkCharacters str ≠ []
  · rw [if_pos hchars]
    exact iff_of_false (absurd rfl) fun h => hchars h.1
  rw [if_neg hchars]
  have hchars' := Decidable.of_not_not hchars
  by_cases hlen : str.length > limit
  · rw [if_pos hlen]
    exact iff_of_false (absurd rfl) fun h => absurd h.2.1 (by omega)
  rw [if_neg hlen]
  cases hpos : rfind SEPARATOR str with
  | none => exact iff_of_false (absurd rfl) fun ⟨_, _, _, _, h, _⟩ => by cases h
  | some pos =>
    dsimp only
    by_cases hbounds : pos = 0 ∨ pos + CHECKSUM_SIZE ≥ str.length
    · rw [if_pos hbounds]
      exact iff_of_false (absurd rfl) fun ⟨_, _, _, _, h, h0, hlt, _⟩ => by cases h; omega
    rw [if_neg hbounds]
    cases hvalues : (str.drop (pos + 1)).mapM charsetRev with
    | none =>
      refine iff_of_false (absurd rfl) fun ⟨_, _, _, _, h, _, _, hv, _⟩ => ?_
      cases h
      rw [hvalues] at hv
      cases hv
    | some values =>
      dsimp only
      cases hverify : verifyChecksum ((str.take pos).map lowerCase) values with
      | INVALID =>
        refine iff_of_false (absurd rfl) fun ⟨_, _, _, _, h, _, _, hv, hver⟩ => ?_
        cases h
        rw [hvalues] at hv
        cases hv
        rw [hverify] at hver
        cases hver
      | BECH32M =>
        exact ⟨fun _ => ⟨hchars', by omega, pos, values, rfl, by omega, by omega, hvalues, hverify⟩,
          fun _ => nofun⟩

-- ---------------------------------------------------------------------------
-- What LocateErrors reports
-- ---------------------------------------------------------------------------

theorem readValues_eq_ok_iff : ∀ {i : Nat} {cs : List Char} {values : List UInt8},
    readValues i cs = .ok values ↔ cs.mapM charsetRev = some values
  | _, [], values => by
    simp only [readValues, List.mapM_nil, Option.pure_def, Option.some.injEq, Except.ok.injEq]
  | i, c :: rest, values => by
    unfold readValues
    cases hc : charsetRev c with
    | none => simp [hc]
    | some v =>
      simp only [List.mapM_cons, hc, Option.bind_eq_bind, Option.bind_some]
      cases hrest : readValues (i + 1) rest with
      | error j =>
        have hnone : rest.mapM charsetRev = none := by
          cases hm : rest.mapM charsetRev with
          | none => rfl
          | some vs => rw [← readValues_eq_ok_iff, hrest] at hm; cases hm
        simp [hnone, Except.map]
      | ok vs =>
        rw [readValues_eq_ok_iff.mp hrest]
        simp [Except.map, eq_comm]

/-- The position `readValues` blames lies in the part it read. -/
theorem readValues_eq_error : ∀ {i : Nat} {cs : List Char} {j : Nat},
    readValues i cs = .error j → i ≤ j ∧ j < i + cs.length
  | _, [], _, h => by simp [readValues] at h
  | i, c :: rest, j, h => by
    unfold readValues at h
    cases hc : charsetRev c with
    | none =>
      rw [hc] at h
      cases h
      simp
    | some v =>
      rw [hc] at h
      cases hrest : readValues (i + 1) rest with
      | error k =>
        rw [hrest] at h
        cases h
        have := readValues_eq_error hrest
        simp only [List.length_cons]
        omega
      | ok vs =>
        rw [hrest] at h
        cases h

/-- The positions `CheckCharacters` reports from `i` on lie in the part it read. -/
theorem mem_checkCharactersFrom : ∀ {lower upper : Bool} {i : Nat} {cs : List Char} {n : Nat},
    n ∈ checkCharactersFrom lower upper i cs → i ≤ n ∧ n < i + cs.length
  | _, _, _, [], _, h => by simp [checkCharactersFrom] at h
  | lower, upper, i, c :: rest, n, h => by
    have hrest : ∀ lower' upper', n ∈ checkCharactersFrom lower' upper' (i + 1) rest →
        i ≤ n ∧ n < i + (c :: rest).length := fun _ _ hn => by
      have := mem_checkCharactersFrom hn
      simp only [List.length_cons]
      omega
    have hhead : n = i → i ≤ n ∧ n < i + (c :: rest).length := fun hn => by
      simp only [List.length_cons]
      omega
    unfold checkCharactersFrom at h
    -- each branch reports the head, or goes on with the rest
    by_cases hlow : 'a' ≤ c ∧ c ≤ 'z'
    · rw [if_pos hlow] at h
      cases upper
      · exact hrest _ _ (by simpa using h)
      · rcases List.mem_cons.mp (by simpa using h) with hn | hn
        · exact hhead hn
        · exact hrest _ _ hn
    rw [if_neg hlow] at h
    by_cases hup : 'A' ≤ c ∧ c ≤ 'Z'
    · rw [if_pos hup] at h
      cases lower
      · exact hrest _ _ (by simpa using h)
      · rcases List.mem_cons.mp (by simpa using h) with hn | hn
        · exact hhead hn
        · exact hrest _ _ hn
    rw [if_neg hup] at h
    by_cases hbad : c.toNat < 33 ∨ c.toNat > 126
    · rw [if_pos hbad] at h
      rcases List.mem_cons.mp h with hn | hn
      · exact hhead hn
      · exact hrest _ _ hn
    · rw [if_neg hbad] at h
      exact hrest _ _ h

/-- The two-error search reports positions of a string of `size` characters: its first
positions run below `length ≤ size`. -/
theorem mem_twoErrors {size length s0 s1 s2 : Nat} {l_s0 l_s1 : Int} (hlen : length ≤ size) :
    ∀ {fuel p1 n : Nat}, p1 + fuel ≤ length → n ∈ twoErrors size length s0 s1 s2 l_s0 l_s1 fuel p1 → n < size
  | 0, _, _, _, h => by simp [twoErrors] at h
  | fuel + 1, p1, n, hfuel, h => by
    unfold twoErrors at h
    cases hat : twoErrorsAt length s0 s1 s2 l_s0 l_s1 p1 with
    | none =>
      rw [hat] at h
      exact mem_twoErrors hlen (by omega) h
    | some p2 =>
      rw [hat] at h
      dsimp only at h
      -- both positions are counted back from the end of a nonempty string
      have hsize : 0 < size := by omega
      split_ifs at h <;> simp only [List.mem_cons, List.not_mem_nil, or_false] at h <;> omega

/-- Every position the checksum part reports is a position of the string. -/
theorem mem_possibleErrors {size length : Nat} {residue : UInt32} (hlen : length ≤ size) {n : Nat}
    (h : n ∈ possibleErrors size length residue) : n < size := by
  unfold possibleErrors at h
  dsimp only at h
  split_ifs at h
  · unfold singleError at h
    dsimp only at h
    split_ifs at h with hp
    · simp only [List.mem_cons, List.not_mem_nil, or_false] at h
      omega
    · simp at h
  · exact mem_twoErrors hlen (by omega) h

/-- `LocateErrors` reports only positions of the string. -/
theorem locateErrors_lt (str : List Char) : ∀ n ∈ (locateErrors str).2, n < str.length := by
  intro n hn
  unfold locateErrors at hn
  by_cases hlong : str.length > BECH32
  · rw [if_pos hlong] at hn
    simp only [List.mem_range'_1] at hn
    omega
  rw [if_neg hlong] at hn
  by_cases hchars : checkCharacters str ≠ []
  · rw [if_pos hchars] at hn
    have := mem_checkCharactersFrom hn
    omega
  rw [if_neg hchars] at hn
  cases hpos : rfind SEPARATOR str with
  | none =>
    rw [hpos] at hn
    simp at hn
  | some pos =>
    rw [hpos] at hn
    obtain ⟨pre, rest, hstr, hlen, -⟩ := rfind_eq_some hpos
    have hposlt : pos < str.length := by
      rw [hstr, List.length_append, List.length_cons]
      omega
    dsimp only at hn
    by_cases hbounds : pos = 0 ∨ pos + CHECKSUM_SIZE ≥ str.length
    · rw [if_pos hbounds] at hn
      simp only [List.mem_cons, List.not_mem_nil, or_false] at hn
      omega
    rw [if_neg hbounds] at hn
    cases hread : readValues (pos + 1) (str.drop (pos + 1)) with
    | error i =>
      rw [hread] at hn
      obtain ⟨-, hi⟩ := readValues_eq_error hread
      rw [List.length_drop] at hi
      simp only [List.mem_cons, List.not_mem_nil, or_false] at hn
      omega
    | ok values =>
      rw [hread] at hn
      dsimp only at hn
      by_cases hres : polyMod (preparePolynomialCoefficients ((str.take pos).map lowerCase) values) ^^^
          ENCODING_CONSTANT = 0
      · rw [if_pos hres] at hn
        simp at hn
      · rw [if_neg hres] at hn
        dsimp only at hn
        exact mem_possibleErrors (show str.length - 1 - pos ≤ str.length by omega) hn

/-- A branch of `LocateErrors` with a message, taken on strings that fail a check of `Decode`. -/
theorem msg_eq_empty_iff_of_ne {msg : String} {errors : List Nat} {P : Prop} (hmsg : msg ≠ "") (hP : ¬ P) :
    (msg = "" ↔ P) ∧ (msg = "" → errors = []) :=
  ⟨iff_of_false hmsg hP, fun h => absurd h hmsg⟩

/-- `LocateErrors` reports no error, with the empty message, exactly on the strings `Decode`
accepts at the default limit; every failure has a nonempty message. -/
theorem locateErrors_eq_nil_iff (str : List Char) :
    ((locateErrors str).1 = "" ↔ (decode str BECH32).encoding ≠ .INVALID) ∧
      ((locateErrors str).1 = "" → (locateErrors str).2 = []) := by
  rw [decode_ne_invalid_iff]
  unfold locateErrors DecodeChecks
  -- each check of `LocateErrors` is one of `Decode`, in the same order
  by_cases hlong : str.length > BECH32
  · rw [if_pos hlong]
    exact msg_eq_empty_iff_of_ne (by simp) fun h => absurd h.2.1 (by omega)
  rw [if_neg hlong]
  by_cases hchars : checkCharacters str ≠ []
  · rw [if_pos hchars]
    exact msg_eq_empty_iff_of_ne (by simp) fun h => hchars h.1
  rw [if_neg hchars]
  have hchars' := Decidable.of_not_not hchars
  cases hpos : rfind SEPARATOR str with
  | none =>
    dsimp only
    exact msg_eq_empty_iff_of_ne (by simp) fun ⟨_, _, _, _, h, _⟩ => by cases h
  | some pos =>
    dsimp only
    by_cases hbounds : pos = 0 ∨ pos + CHECKSUM_SIZE ≥ str.length
    · rw [if_pos hbounds]
      exact msg_eq_empty_iff_of_ne (by simp) fun ⟨_, _, _, _, h, h0, hlt, _⟩ => by cases h; omega
    rw [if_neg hbounds]
    cases hread : readValues (pos + 1) (str.drop (pos + 1)) with
    | error i =>
      dsimp only
      refine msg_eq_empty_iff_of_ne (by simp) fun ⟨_, _, _, values, h, _, _, hv, _⟩ => ?_
      cases h
      rw [← readValues_eq_ok_iff, hread] at hv
      cases hv
    | ok values =>
      dsimp only
      have hv := readValues_eq_ok_iff.mp hread
      -- a zero residue is a verifying checksum
      have hverify : verifyChecksum ((str.take pos).map lowerCase) values = .BECH32M ↔
          polyMod (preparePolynomialCoefficients ((str.take pos).map lowerCase) values) ^^^
            ENCODING_CONSTANT = 0 := by
        rw [UInt32.xor_eq_zero_iff, verifyChecksum]
        by_cases hc : polyMod (preparePolynomialCoefficients ((str.take pos).map lowerCase) values) =
            ENCODING_CONSTANT
        · rw [if_pos hc]
          exact iff_of_true rfl hc
        · rw [if_neg hc]
          exact iff_of_false (by decide) hc
      by_cases hres : polyMod (preparePolynomialCoefficients ((str.take pos).map lowerCase) values) ^^^
          ENCODING_CONSTANT = 0
      · rw [if_pos hres]
        exact ⟨⟨fun _ => ⟨hchars', by omega, pos, values, rfl, by omega, by omega, hv, hverify.mpr hres⟩,
          fun _ => rfl⟩, fun _ => rfl⟩
      · rw [if_neg hres]
        have hmsg : (if possibleErrors str.length (str.length - 1 - pos)
            (polyMod (preparePolynomialCoefficients ((str.take pos).map lowerCase) values) ^^^
              ENCODING_CONSTANT) ≠ [] then "Invalid Bech32m checksum" else "Invalid checksum") ≠ "" := by
          split_ifs <;> decide
        dsimp only
        refine msg_eq_empty_iff_of_ne hmsg fun ⟨_, _, _, values', h, _, _, hv', hver⟩ => ?_
        cases h
        rw [hv] at hv'
        cases hv'
        exact absurd (hverify.mp hver) hres

end Riecoin.Bech32
