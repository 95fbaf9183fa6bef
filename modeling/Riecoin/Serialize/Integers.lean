-- SUMMARY: The integer encodings of serialize.h, fixed-width little-endian data, CompactSize and VarInt, and the vectors counted by a CompactSize, with the round trips of their readers.
import Riecoin.Lib.Codec
import Riecoin.Lib.Bytes

/-!
# Integer encodings

`serialize.h` writes integers three ways: fixed-width little-endian (`ser_writedata*`),
`CompactSize` (the count in front of a vector: one byte, or a marker and 2, 4 or 8 bytes)
and `VarInt` (base 128, most significant digit first, every digit but the last with its
high bit set and one less than its value, so that each number has one encoding). The
readers check what the source checks: a `CompactSize` written longer than it needs to be
or above `MAX_SIZE` is refused, and `ReadVarInt` refuses a number that overflows the
integer type it reads into, of `w` bits. A vector is its `CompactSize` count and its
items one after another (`VectorFormatter`).

Every value is a `Nat`; the integer types of the source only bound them, and the bounds
are the hypotheses of the round trips `readCompactSize_readsBack` and
`readVarInt_readsBack`.
-/

namespace Riecoin

open Codec Bytes

/-- `MAX_SIZE`: the largest size a `CompactSize` may announce. -/
def MAX_SIZE : Nat := 0x02000000

-- ---------------------------------------------------------------------------
-- Fixed width
-- ---------------------------------------------------------------------------

/-- `ser_writedata8`, `16`, `32` and `64`: the `width` low bytes of `obj`, least
significant first. -/
def serWriteData (width obj : Nat) : List UInt8 := leBytes width obj

/-- `ser_readdata8`, `16`, `32` and `64`. -/
def serReadData (width : Nat) : Reader Nat := do
  let bytes ← readBytes width
  pure (leValue bytes)

theorem serReadData_readsBack (width : Nat) {obj : Nat} (h : obj < 256 ^ width) :
    ReadsBack (serReadData width) (serWriteData width obj) obj := by
  refine (readBytes_readsBack (length_leBytes width obj)).bind_end ?_
  show ReadsBack (pure (leValue (leBytes width obj))) [] obj
  rw [leValue_leBytes, Nat.mod_eq_of_lt h]
  exact ReadsBack.pure obj

/-- `ser_readdata*` accepts any `width` bytes, and they are their value written back. -/
theorem serReadData_canonical (width : Nat) :
    Canonical (serReadData width) (· < 256 ^ width) (serWriteData width) := by
  intro bytes v rest h
  obtain ⟨xs, mid, hxs, h⟩ := run_bind_eq_ok h
  obtain ⟨rfl, rfl⟩ := run_pure_eq_ok h
  obtain ⟨hlen, rfl⟩ := readBytes_canonical width hxs
  refine ⟨hlen ▸ leValue_lt xs, ?_⟩
  rw [serWriteData, leBytes_leValue hlen, id]

-- ---------------------------------------------------------------------------
-- CompactSize
-- ---------------------------------------------------------------------------

/-- `WriteCompactSize`. -/
def writeCompactSize (nSize : Nat) : List UInt8 :=
  if nSize < 253 then serWriteData 1 nSize
  else if nSize ≤ 0xffff then serWriteData 1 253 ++ serWriteData 2 nSize
  else if nSize ≤ 0xffffffff then serWriteData 1 254 ++ serWriteData 4 nSize
  else serWriteData 1 255 ++ serWriteData 8 nSize

/-- The payload after a `CompactSize` marker: `width` bytes, refused below `least`, the
smallest value the marker is used for. -/
def readCompactPayload (width least : Nat) : Reader Nat := do
  let n ← serReadData width
  if n < least then throw "non-canonical ReadCompactSize()" else pure n

/-- The size a `CompactSize` holds after its first byte `chSize`: the byte itself, or
the payload its marker announces. -/
def readCompactSizeAfter (chSize : Nat) : Reader Nat :=
  if chSize < 253 then pure chSize
  else if chSize = 253 then readCompactPayload 2 253
  else if chSize = 254 then readCompactPayload 4 0x10000
  else readCompactPayload 8 0x100000000

/-- `ReadCompactSize(is, range_check)`. -/
def readCompactSize (range_check : Bool) : Reader Nat := do
  let chSize ← serReadData 1
  let nSizeRet ← readCompactSizeAfter chSize
  if range_check && nSizeRet > MAX_SIZE then throw "ReadCompactSize(): size too large"
  else pure nSizeRet

/-- A size that is not zero starts with a byte that is not zero: the size itself, or a
marker. -/
theorem writeCompactSize_eq_cons {n : Nat} (hn : 0 < n) :
    ∃ b bs, writeCompactSize n = b :: bs ∧ b ≠ 0 := by
  unfold writeCompactSize
  by_cases h1 : n < 253
  · rw [if_pos h1]
    refine ⟨UInt8.ofNat n, [], rfl, ?_⟩
    rw [Ne, ← UInt8.toNat_inj, UInt8.toNat_ofNat_of_lt' (by simp only [UInt8.size]; omega)]
    simp only [UInt8.toNat_zero]
    omega
  rw [if_neg h1]
  by_cases h2 : n ≤ 0xffff
  · exact ⟨253, _, by rw [if_pos h2]; rfl, by decide⟩
  rw [if_neg h2]
  by_cases h3 : n ≤ 0xffffffff
  · exact ⟨254, _, by rw [if_pos h3]; rfl, by decide⟩
  · exact ⟨255, _, by rw [if_neg h3]; rfl, by decide⟩

theorem readCompactPayload_readsBack {width least n : Nat} (hlo : least ≤ n)
    (hhi : n < 256 ^ width) :
    ReadsBack (readCompactPayload width least) (serWriteData width n) n := by
  refine (serReadData_readsBack width hhi).bind_end ?_
  show ReadsBack (if n < least then throw _ else pure n) [] n
  rw [if_neg (Nat.not_lt.mpr hlo)]
  exact ReadsBack.pure n

theorem readCompactPayload_canonical (width least : Nat) :
    Canonical (readCompactPayload width least) (fun n => least ≤ n ∧ n < 256 ^ width)
      (serWriteData width) := by
  intro bytes n rest h
  obtain ⟨m, mid, hm, h⟩ := run_bind_eq_ok h
  obtain ⟨hlo, h⟩ := run_ite_throw_eq_ok h
  obtain ⟨rfl, rfl⟩ := run_pure_eq_ok h
  obtain ⟨hhi, hbytes⟩ := serReadData_canonical width hm
  exact ⟨⟨Nat.not_lt.mp hlo, hhi⟩, hbytes⟩

/-- What `readCompactSizeAfter` reads after a first byte is what `WriteCompactSize` writes
after it: a marker stands only before a value too large for the byte, and each payload is
refused below the range of its marker, so no value has two encodings. -/
theorem readCompactSizeAfter_canonical {chSize n : Nat} {bytes rest : List UInt8}
    (hch : chSize < 256) (h : (readCompactSizeAfter chSize).run bytes = .ok (n, rest)) :
    n < 2 ^ 64 ∧ serWriteData 1 chSize ++ bytes = writeCompactSize n ++ rest := by
  unfold readCompactSizeAfter at h
  by_cases h1 : chSize < 253
  · rw [if_pos h1] at h
    obtain ⟨rfl, rfl⟩ := run_pure_eq_ok h
    refine ⟨by omega, ?_⟩
    rw [writeCompactSize, if_pos h1]
  rw [if_neg h1] at h
  by_cases h2 : chSize = 253
  · rw [if_pos h2] at h
    obtain ⟨⟨hlo, hhi⟩, rfl⟩ := readCompactPayload_canonical 2 253 h
    have hlt : n < 2 ^ 64 := by omega
    refine ⟨hlt, ?_⟩
    rw [writeCompactSize, if_neg (by omega), if_pos (by omega), h2, List.append_assoc]
  rw [if_neg h2] at h
  by_cases h3 : chSize = 254
  · rw [if_pos h3] at h
    obtain ⟨⟨hlo, hhi⟩, rfl⟩ := readCompactPayload_canonical 4 0x10000 h
    have hlt : n < 2 ^ 64 := by omega
    refine ⟨hlt, ?_⟩
    rw [writeCompactSize, if_neg (by omega), if_neg (by omega), if_pos (by omega), h3,
      List.append_assoc]
  rw [if_neg h3] at h
  -- the last marker, `255`, is the only byte left
  have h4 : chSize = 255 := by omega
  obtain ⟨⟨hlo, hhi⟩, rfl⟩ := readCompactPayload_canonical 8 0x100000000 h
  refine ⟨by omega, ?_⟩
  rw [writeCompactSize, if_neg (by omega), if_neg (by omega), if_neg (by omega), h4,
    List.append_assoc]

/-- `ReadCompactSize` accepts only the encoding `WriteCompactSize` writes. -/
theorem readCompactSize_canonical (range_check : Bool) :
    Canonical (readCompactSize range_check)
      (fun n => n < 2 ^ 64 ∧ (range_check = true → n ≤ MAX_SIZE)) writeCompactSize := by
  intro bytes n rest h
  obtain ⟨chSize, mid, hch, h⟩ := run_bind_eq_ok h
  obtain ⟨m, mid', hm, h⟩ := run_bind_eq_ok h
  obtain ⟨hrange, h⟩ := run_ite_throw_eq_ok h
  obtain ⟨rfl, rfl⟩ := run_pure_eq_ok h
  obtain ⟨hchlt, rfl⟩ := serReadData_canonical 1 hch
  obtain ⟨hlt, hbytes⟩ := readCompactSizeAfter_canonical hchlt hm
  refine ⟨⟨hlt, fun hrc => ?_⟩, hbytes⟩
  subst hrc
  simpa using hrange

/-- `WriteCompactSize` writes a first byte and then what `readCompactSizeAfter` reads
back from that byte on. -/
theorem writeCompactSize_split {nSize : Nat} (hlt : nSize < 2 ^ 64) :
    ∃ chSize payload, writeCompactSize nSize = serWriteData 1 chSize ++ payload ∧
      chSize < 256 ∧ ReadsBack (readCompactSizeAfter chSize) payload nSize := by
  unfold writeCompactSize
  by_cases h1 : nSize < 253
  · refine ⟨nSize, [], by rw [if_pos h1, List.append_nil], by omega, ?_⟩
    rw [readCompactSizeAfter, if_pos h1]
    exact ReadsBack.pure nSize
  by_cases h2 : nSize ≤ 0xffff
  · refine ⟨253, serWriteData 2 nSize, by rw [if_neg h1, if_pos h2], by decide, ?_⟩
    rw [readCompactSizeAfter, if_neg (by decide), if_pos rfl]
    exact readCompactPayload_readsBack (by omega) (by omega)
  by_cases h3 : nSize ≤ 0xffffffff
  · refine ⟨254, serWriteData 4 nSize, by rw [if_neg h1, if_neg h2, if_pos h3], by decide, ?_⟩
    rw [readCompactSizeAfter, if_neg (by decide), if_neg (by decide), if_pos rfl]
    exact readCompactPayload_readsBack (by omega) (by omega)
  refine ⟨255, serWriteData 8 nSize, by rw [if_neg h1, if_neg h2, if_neg h3], by decide, ?_⟩
  rw [readCompactSizeAfter, if_neg (by decide), if_neg (by decide), if_neg (by decide)]
  exact readCompactPayload_readsBack (by omega) (by omega)

/-- `ReadCompactSize` reads back what `WriteCompactSize` writes, for a size that fits in
the `uint64_t` it is written from and, when the range is checked, is at most `MAX_SIZE`. -/
theorem readCompactSize_readsBack {range_check : Bool} {nSize : Nat} (hlt : nSize < 2 ^ 64)
    (hmax : range_check = true → nSize ≤ MAX_SIZE) :
    ReadsBack (readCompactSize range_check) (writeCompactSize nSize) nSize := by
  -- the range check at the end lets the size through
  have hcheck : ReadsBack (if range_check && nSize > MAX_SIZE then
      throw "ReadCompactSize(): size too large" else pure nSize : Reader Nat) [] nSize := by
    rw [if_neg]
    · exact ReadsBack.pure nSize
    · cases range_check with
      | false => simp
      | true => simpa using hmax rfl
  obtain ⟨chSize, payload, hsplit, hch, hafter⟩ := writeCompactSize_split hlt
  rw [hsplit]
  exact (serReadData_readsBack 1 hch).bind (hafter.bind_end hcheck)

/-- `GetSizeOfCompactSize`. -/
def getSizeOfCompactSize (nSize : Nat) : Nat :=
  if nSize < 253 then 1
  else if nSize ≤ 0xffff then 1 + 2
  else if nSize ≤ 0xffffffff then 1 + 4
  else 1 + 8

theorem length_writeCompactSize (nSize : Nat) :
    (writeCompactSize nSize).length = getSizeOfCompactSize nSize := by
  unfold writeCompactSize getSizeOfCompactSize
  split
  · rfl
  split
  · simp [serWriteData]
  split
  · simp [serWriteData]
  · simp [serWriteData]

/-- What `ReadCompactSize` makes of what `WriteCompactSize` writes: the size, unless the
range is checked and the size is above `MAX_SIZE`. -/
theorem readCompactSize_run_writeCompactSize {range_check : Bool} {nSize : Nat}
    (hlt : nSize < 2 ^ 64) (rest : List UInt8) :
    (readCompactSize range_check).run (writeCompactSize nSize ++ rest) =
      if (range_check && decide (nSize > MAX_SIZE)) = true then
        .error "ReadCompactSize(): size too large"
      else .ok (nSize, rest) := by
  obtain ⟨chSize, payload, hsplit, hch, hafter⟩ := writeCompactSize_split hlt
  unfold readCompactSize
  rw [hsplit, List.append_assoc, (serReadData_readsBack 1 hch).run_bind, hafter.run_bind]
  by_cases hc : (range_check && decide (nSize > MAX_SIZE)) = true
  · rw [if_pos hc, if_pos hc]
    rfl
  · rw [if_neg hc, if_neg hc]
    rfl

theorem compactSize_round_trip_canonical :
    (∀ (n : UInt64) (rest : List UInt8),
      (readCompactSize false).run (writeCompactSize n.toNat ++ rest) = .ok (n.toNat, rest) ∧
        (writeCompactSize n.toNat).length = getSizeOfCompactSize n.toNat) ∧
    (∀ (n : UInt64) (rest : List UInt8),
      (readCompactSize true).run (writeCompactSize n.toNat ++ rest) =
        if n.toNat ≤ MAX_SIZE then .ok (n.toNat, rest)
        else .error "ReadCompactSize(): size too large") ∧
    (∀ (range_check : Bool) (bytes : List UInt8) (n : Nat) (rest : List UInt8),
      (readCompactSize range_check).run bytes = .ok (n, rest) →
        bytes = writeCompactSize n ++ rest) := by
  refine ⟨fun n rest => ⟨?_, length_writeCompactSize _⟩, fun n rest => ?_,
    fun range_check bytes n rest h => (readCompactSize_canonical range_check h).2⟩
  · rw [readCompactSize_run_writeCompactSize n.toNat_lt rest, if_neg (by simp)]
  · rw [readCompactSize_run_writeCompactSize n.toNat_lt rest]
    by_cases hmax : n.toNat ≤ MAX_SIZE
    · rw [if_neg (by simpa using hmax), if_pos hmax]
    · rw [if_pos (by simpa using hmax), if_neg hmax]

/-- A three-byte size read back with a byte after it, a size past `MAX_SIZE` refused by the
range check, and the bytes `fd fd 00` read as 253 being its encoding. -/
theorem compactSize_round_trip_canonical_253 :
    ((readCompactSize false).run (writeCompactSize (253 : UInt64).toNat ++ [7]) = .ok ((253 : UInt64).toNat, [7]) ∧
      (writeCompactSize (253 : UInt64).toNat).length = getSizeOfCompactSize (253 : UInt64).toNat) ∧
    (readCompactSize true).run (writeCompactSize (0x02000001 : UInt64).toNat ++ []) =
      (if (0x02000001 : UInt64).toNat ≤ MAX_SIZE then .ok ((0x02000001 : UInt64).toNat, [])
        else .error "ReadCompactSize(): size too large") ∧
    (readCompactSize true).run [0xfd, 0xfd, 0x00, 7] = .ok (253, [7]) ∧
    [0xfd, 0xfd, 0x00, 7] = writeCompactSize 253 ++ [7] :=
  have hread : (readCompactSize true).run [0xfd, 0xfd, 0x00, 7] = .ok (253, [7]) := by decide
  ⟨compactSize_round_trip_canonical.1 253 [7], compactSize_round_trip_canonical.2.1 0x02000001 [],
    hread, compactSize_round_trip_canonical.2.2 true _ _ _ hread⟩

-- ---------------------------------------------------------------------------
-- VarInt
-- ---------------------------------------------------------------------------

/-- The array `tmp` of `WriteVarInt` from index `len` on: the base-128 digits of `n`, the
least significant first, each but `tmp[0]` with its high bit set; past a digit the
number goes on as one less than what is left of it. -/
def varIntTmp (n len : Nat) : List UInt8 :=
  UInt8.ofNat (n &&& 0x7F ||| (if len ≠ 0 then 0x80 else 0)) ::
    if n ≤ 0x7F then [] else varIntTmp ((n >>> 7) - 1) (len + 1)
termination_by n
decreasing_by
  rw [Nat.shiftRight_eq_div_pow]
  omega

/-- `WriteVarInt`: `tmp[len]` down to `tmp[0]`. -/
def writeVarInt (n : Nat) : List UInt8 := (varIntTmp n 0).reverse

/-- The loop of `ReadVarInt` into an unsigned integer of `w` bits, from the value `n`
read so far. -/
def readVarIntFrom (w n : Nat) : List UInt8 → Except String (Nat × List UInt8)
  | [] => .error "end of data"
  | chData :: rest =>
    if n > (2 ^ w - 1) >>> 7 then .error "ReadVarInt(): size too large"
    else
      let n := n <<< 7 ||| (chData.toNat &&& 0x7F)
      if chData.toNat &&& 0x80 ≠ 0 then
        if n = 2 ^ w - 1 then .error "ReadVarInt(): size too large"
        else readVarIntFrom w (n + 1) rest
      else .ok (n, rest)

/-- `ReadVarInt` into an unsigned integer of `w` bits. -/
def readVarInt (w : Nat) : Reader Nat := fun bytes => readVarIntFrom w 0 bytes

/-- The bits of a digit below `0x80`, with and without the high bit. -/
theorem varIntDigit_table : ∀ r < 128, (r ||| 0x80) &&& 0x7F = r ∧ (r ||| 0x80) &&& 0x80 = 0x80 ∧
    r ||| 0x80 < 256 ∧ (r ||| 0) &&& 0x7F = r ∧ (r ||| 0) &&& 0x80 = 0 ∧ r ||| 0 < 256 := by
  decide

/-- A digit of `tmp`: its low seven bits are the digit, its high bit is `high`. -/
theorem varIntDigit_bits (n high : Nat) (hhigh : high = 0x80 ∨ high = 0) :
    (UInt8.ofNat (n &&& 0x7F ||| high)).toNat &&& 0x7F = n % 128 ∧
      (UInt8.ofNat (n &&& 0x7F ||| high)).toNat &&& 0x80 = high := by
  have hlow : n &&& 0x7F = n % 128 := Nat.and_two_pow_sub_one_eq_mod n 7
  obtain ⟨h1, h2, h3, h4, h5, h6⟩ := varIntDigit_table (n % 128) (Nat.mod_lt n (by decide))
  rw [hlow, UInt8.toNat_ofNat']
  rcases hhigh with rfl | rfl
  · rw [Nat.mod_eq_of_lt h3]
    exact ⟨h1, h2⟩
  · rw [Nat.mod_eq_of_lt h6]
    exact ⟨h4, h5⟩

/-- The digits put back together: the high part shifted past the low seven bits. -/
theorem shiftRight_shiftLeft_or_mod (n : Nat) : n >>> 7 <<< 7 ||| n % 128 = n := by
  rw [← Nat.shiftLeft_add_eq_or_of_lt (Nat.mod_lt n (by decide : 0 < 2 ^ 7)), Nat.shiftLeft_eq,
    Nat.shiftRight_eq_div_pow, show (2 : Nat) ^ 7 = 128 from rfl]
  omega

theorem varIntTmp_small {n : Nat} (len : Nat) (h : n ≤ 0x7F) :
    varIntTmp n len = [UInt8.ofNat (n &&& 0x7F ||| (if len ≠ 0 then 0x80 else 0))] := by
  rw [varIntTmp, if_pos h]

theorem varIntTmp_large {n : Nat} (len : Nat) (h : ¬n ≤ 0x7F) :
    varIntTmp n len = UInt8.ofNat (n &&& 0x7F ||| (if len ≠ 0 then 0x80 else 0)) ::
      varIntTmp ((n >>> 7) - 1) (len + 1) := by
  rw [varIntTmp, if_neg h]

/-- A number below `0x80` is written as one byte. -/
theorem writeVarInt_small {n : Nat} (h : n ≤ 0x7F) : writeVarInt n = [UInt8.ofNat n] := by
  have hlow : n &&& 0x7F = n % 128 := Nat.and_two_pow_sub_one_eq_mod n 7
  rw [writeVarInt, varIntTmp_small 0 h, if_neg (by decide), List.reverse_singleton, Nat.or_zero,
    hlow, Nat.mod_eq_of_lt (by omega)]

/-- Reading the digits of `tmp` from `len ≠ 0` on, all with the high bit set, leaves the
loop with one more than the number they hold, when that stays below the overflow check. -/
theorem readVarIntFrom_tmp {w : Nat} (m len : Nat) (hlen : len ≠ 0)
    (hm : m + 1 ≤ (2 ^ w - 1) >>> 7) (rest : List UInt8) :
    readVarIntFrom w 0 ((varIntTmp m len).reverse ++ rest) = readVarIntFrom w (m + 1) rest := by
  induction m, len using varIntTmp.induct generalizing rest with
  | case1 m len ih =>
    have hmax : m < 2 ^ w - 1 := Nat.lt_of_lt_of_le (Nat.lt_succ_self m)
      (Nat.le_trans hm (Nat.shiftRight_le _ _))
    obtain ⟨hlow, hhigh⟩ := varIntDigit_bits m 0x80 (.inl rfl)
    by_cases hsmall : m ≤ 0x7F
    · -- the last digit read is the most significant one
      rw [varIntTmp_small len hsmall, if_pos hlen, List.reverse_singleton, List.singleton_append,
        readVarIntFrom, if_neg (by omega)]
      simp only [Nat.zero_shiftLeft, Nat.zero_or, hlow, hhigh, ne_eq, Nat.mod_eq_of_lt
        (by omega : m < 128)]
      rw [if_pos (by decide), if_neg (by omega)]
    · -- the digits above this one leave the loop at `m >>> 7`
      have hhi : m >>> 7 ≥ 1 := by
        rw [Nat.shiftRight_eq_div_pow]
        omega
      have hle : m >>> 7 ≤ m := Nat.shiftRight_le _ _
      rw [varIntTmp_large len hsmall, if_pos hlen, List.reverse_cons, List.append_assoc,
        List.singleton_append, ih hsmall (by omega) (by omega), Nat.sub_add_cancel hhi,
        readVarIntFrom, if_neg (by omega)]
      simp only [hlow, hhigh, ne_eq, shiftRight_shiftLeft_or_mod]
      rw [if_pos (by decide), if_neg (by omega)]

/-- `ReadVarInt` into `w` bits reads back what `WriteVarInt` writes, for a number that
fits in `w` bits. -/
theorem readVarInt_readsBack {w n : Nat} (hn : n < 2 ^ w) :
    ReadsBack (readVarInt w) (writeVarInt n) n := by
  intro rest
  show readVarIntFrom w 0 ((varIntTmp n 0).reverse ++ rest) = .ok (n, rest)
  obtain ⟨hlow, hhigh⟩ := varIntDigit_bits n 0 (.inr rfl)
  by_cases hsmall : n ≤ 0x7F
  · rw [varIntTmp_small 0 hsmall, if_neg (by decide), List.reverse_singleton,
      List.singleton_append, readVarIntFrom, if_neg (by omega)]
    simp only [Nat.zero_shiftLeft, Nat.zero_or, hlow, hhigh, ne_eq, Nat.mod_eq_of_lt
      (by omega : n < 128)]
    rw [if_neg (by decide)]
  · have hhi : n >>> 7 ≥ 1 := by
      rw [Nat.shiftRight_eq_div_pow]
      omega
    have hle : n >>> 7 ≤ (2 ^ w - 1) >>> 7 := by
      rw [Nat.shiftRight_eq_div_pow, Nat.shiftRight_eq_div_pow]
      exact Nat.div_le_div_right (by omega)
    rw [varIntTmp_large 0 hsmall, if_neg (by decide), List.reverse_cons, List.append_assoc,
      List.singleton_append, readVarIntFrom_tmp _ 1 (by decide) (by omega), Nat.sub_add_cancel hhi,
      readVarIntFrom, if_neg (by omega)]
    simp only [hlow, hhigh, ne_eq, shiftRight_shiftLeft_or_mod]
    rw [if_neg (by decide)]

/-- `VarIntMode`: `DEFAULT` for unsigned types, `NONNEGATIVE_SIGNED` for signed ones, of
which only the values from `0` up are encoded correctly. -/
inductive VarIntMode
  | DEFAULT
  | NONNEGATIVE_SIGNED
  deriving DecidableEq, Repr

/-- The bits of `std::numeric_limits<I>::max()` for the integer type `I` of `w` bits that a
mode takes (`CheckVarIntMode`): every bit of an unsigned type, all but the sign bit of a
signed one. On values from `0` to that maximum the shifts, masks and comparisons of
`WriteVarInt` and `ReadVarInt` compute as they do on `Nat`, so `readVarInt` at these bits
is `ReadVarInt<I>`. -/
def VarIntMode.valueBits : VarIntMode → Nat → Nat
  | .DEFAULT, w => w
  | .NONNEGATIVE_SIGNED, w => w - 1

/-- `GetSizeOfVarInt`: one byte, and one more for each digit above the last. -/
def getSizeOfVarInt (n : Nat) : Nat :=
  if n ≤ 0x7F then 1 else getSizeOfVarInt ((n >>> 7) - 1) + 1
termination_by n
decreasing_by
  rw [Nat.shiftRight_eq_div_pow]
  omega

/-- The number a `VarInt` encoding denotes, as the comment on `VarIntMode` in `serialize.h`
defines it, read after digits of value `n`: a byte with the high bit set continues the
number with its low seven bits plus one, the first byte without it ends the number with
its low seven bits. Returns the value of the longest such prefix, and the bytes after it
when a final byte ends it. -/
def varIntValue (n : Nat) : List UInt8 → Nat × Option (List UInt8)
  | [] => (n, none)
  | b :: rest =>
    if b.toNat &&& 0x80 ≠ 0 then varIntValue (n * 128 + (b.toNat &&& 0x7F) + 1) rest
    else (n * 128 + (b.toNat &&& 0x7F), some rest)

/-- What `ReadVarInt` into `w` bits does, stated on the denoted number: it refuses a number
above the maximum, fails at the end of the data when no final byte comes, and otherwise
returns the number. -/
def readVarIntSpec (w : Nat) (value : Nat × Option (List UInt8)) :
    Except String (Nat × List UInt8) :=
  if 2 ^ w - 1 < value.1 then .error "ReadVarInt(): size too large"
  else match value.2 with
    | some rest => .ok (value.1, rest)
    | none => .error "end of data"

theorem length_varIntTmp (n len : Nat) : (varIntTmp n len).length = getSizeOfVarInt n := by
  induction n, len using varIntTmp.induct with
  | case1 n len ih =>
    rw [varIntTmp, getSizeOfVarInt]
    by_cases h : n ≤ 0x7F
    · rw [if_pos h, if_pos h]
      rfl
    · rw [if_neg h, if_neg h, List.length_cons, ih h]

theorem length_writeVarInt (n : Nat) : (writeVarInt n).length = getSizeOfVarInt n := by
  rw [writeVarInt, List.length_reverse, length_varIntTmp]

/-- A byte is its low seven bits and its high bit, which is `0x80` or `0`. -/
theorem byte_split_table : ∀ x < 256, x &&& 0x80 = x / 128 * 128 ∧ x &&& 0x7F ||| x &&& 0x80 = x := by
  decide +kernel

/-- Past the first digit, `tmp` does not depend on the index it starts at. -/
theorem varIntTmp_eq_of_ne_zero (m : Nat) {len len' : Nat} (hlen : len ≠ 0) (hlen' : len' ≠ 0) :
    varIntTmp m len = varIntTmp m len' := by
  induction m using Nat.strong_induction_on generalizing len len' with
  | _ m ih =>
    rw [varIntTmp.eq_1 m len, varIntTmp.eq_1 m len', if_pos hlen, if_pos hlen']
    by_cases h : m ≤ 0x7F
    · rw [if_pos h, if_pos h]
    · have hlt : (m >>> 7) - 1 < m := by
        rw [Nat.shiftRight_eq_div_pow]
        omega
      rw [if_neg h, if_neg h, ih _ hlt (Nat.succ_ne_zero len) (Nat.succ_ne_zero len')]

/-- The byte with low seven bits `d` and the high bit set or clear, as `WriteVarInt`
makes it, is the byte `d` was read from. -/
theorem ofNat_digit_high {b : UInt8} (h : b.toNat &&& 0x80 ≠ 0) :
    UInt8.ofNat (b.toNat &&& 0x7F ||| 0x80) = b := by
  have hx : b.toNat < 256 := b.toNat_lt
  obtain ⟨hhigh, hsplit⟩ := byte_split_table b.toNat hx
  have h80 : b.toNat &&& 0x80 = 0x80 := by omega
  rw [← h80, hsplit, UInt8.ofNat_toNat]

theorem ofNat_digit_low {b : UInt8} (h : ¬b.toNat &&& 0x80 ≠ 0) :
    UInt8.ofNat (b.toNat &&& 0x7F ||| 0) = b := by
  obtain ⟨-, hsplit⟩ := byte_split_table b.toNat b.toNat_lt
  have h0 : b.toNat &&& 0x80 = 0 := not_not.mp h
  rw [← h0, hsplit, UInt8.ofNat_toNat]

theorem digit_lt (b : UInt8) : b.toNat &&& 0x7F < 128 := by
  rw [show (0x7F : Nat) = 2 ^ 7 - 1 from rfl, Nat.and_two_pow_sub_one_eq_mod]
  exact Nat.mod_lt _ (by decide)

/-- The reader's `(n << 7) | digit` is `n * 128 + digit`. -/
theorem shiftLeft_or_digit (n : Nat) {d : Nat} (hd : d < 128) : n <<< 7 ||| d = n * 128 + d := by
  rw [← Nat.shiftLeft_add_eq_or_of_lt (by simpa using hd : d < 2 ^ 7), Nat.shiftLeft_eq]

/-- `tmp` of a number with low digit `d`: that digit, then the digits of one less than what
is above it. -/
theorem varIntTmp_digit (n : Nat) {d : Nat} (hd : d < 128) (len : Nat) :
    varIntTmp (n * 128 + d) len = UInt8.ofNat (d ||| (if len ≠ 0 then 0x80 else 0)) ::
      (if n = 0 then [] else varIntTmp (n - 1) (len + 1)) := by
  have hlow : (n * 128 + d) &&& 0x7F = d := by
    rw [show (0x7F : Nat) = 2 ^ 7 - 1 from rfl, Nat.and_two_pow_sub_one_eq_mod]
    omega
  have hhigh : (n * 128 + d) >>> 7 = n := by
    rw [Nat.shiftRight_eq_div_pow]
    omega
  rw [varIntTmp, hlow]
  by_cases hn : n = 0
  · rw [if_pos (show n * 128 + d ≤ 0x7F by omega), if_pos hn]
  · rw [if_neg (show ¬n * 128 + d ≤ 0x7F by omega), if_neg hn, hhigh]

theorem le_varIntValue (n : Nat) (bytes : List UInt8) : n ≤ (varIntValue n bytes).1 := by
  induction bytes generalizing n with
  | nil => exact Nat.le_refl n
  | cons b rest ih =>
    rw [varIntValue]
    split
    · exact Nat.le_trans (by omega) (ih _)
    · show n ≤ n * 128 + _
      omega

/-- A digit after `n` puts the value at `n * 128` at least. -/
theorem mul_le_varIntValue (n : Nat) (b : UInt8) (rest : List UInt8) :
    n * 128 ≤ (varIntValue n (b :: rest)).1 := by
  rw [varIntValue]
  split
  · exact Nat.le_trans (by omega) (le_varIntValue _ rest)
  · exact Nat.le_add_right _ _

/-- The loop of `ReadVarInt` from a value within the maximum does what the denoted number
says: the overflow checks refuse exactly the numbers above the maximum, for a type of at
least seven value bits, whose maximum has its seven low bits set. -/
theorem readVarIntFrom_eq_spec {w : Nat} (hw : 7 ≤ w) {n : Nat} (hn : n ≤ 2 ^ w - 1)
    (bytes : List UInt8) : readVarIntFrom w n bytes = readVarIntSpec w (varIntValue n bytes) := by
  have hdvd : 2 ^ 7 ∣ 2 ^ w := Nat.pow_dvd_pow 2 hw
  have hpos := Nat.two_pow_pos w
  induction bytes generalizing n with
  | nil =>
    rw [readVarIntFrom, varIntValue, readVarIntSpec, if_neg (by omega)]
  | cons b rest ih =>
    have hd := digit_lt b
    rw [readVarIntFrom, Nat.shiftRight_eq_div_pow]
    by_cases hbig : n > (2 ^ w - 1) / 2 ^ 7
    · -- the next digit would take the number past the maximum
      have hge := mul_le_varIntValue n b rest
      rw [if_pos hbig, readVarIntSpec, if_pos (by omega)]
    · rw [if_neg hbig]
      dsimp only
      rw [shiftLeft_or_digit n hd]
      have hle : n * 128 + (b.toNat &&& 0x7F) ≤ 2 ^ w - 1 := by omega
      by_cases hhigh : b.toNat &&& 0x80 ≠ 0
      · rw [if_pos hhigh]
        by_cases hmax : n * 128 + (b.toNat &&& 0x7F) = 2 ^ w - 1
        · -- one more would pass the maximum
          have hge := le_varIntValue (n * 128 + (b.toNat &&& 0x7F) + 1) rest
          rw [if_pos hmax, readVarIntSpec, varIntValue, if_pos hhigh, if_pos (by omega)]
        · rw [if_neg hmax, ih (by omega), varIntValue, if_pos hhigh]
      · rw [if_neg hhigh, varIntValue, if_neg hhigh, readVarIntSpec, if_neg (by omega)]

/-- The continuation bytes that leave the value `n` when read: none for `0`, otherwise the
digits of `tmp` for `n - 1`, which all have the high bit set. -/
def varIntCont (n : Nat) : List UInt8 := if n = 0 then [] else (varIntTmp (n - 1) 1).reverse

theorem varIntCont_succ {b : UInt8} (h : b.toNat &&& 0x80 ≠ 0) (n : Nat) :
    varIntCont (n * 128 + (b.toNat &&& 0x7F) + 1) = varIntCont n ++ [b] := by
  rw [varIntCont, if_neg (by omega), Nat.add_sub_cancel, varIntTmp_digit n (digit_lt b),
    if_pos (by decide), ofNat_digit_high h, varIntCont]
  by_cases hn : n = 0
  · rw [if_pos hn, if_pos hn]
    rfl
  · rw [if_neg hn, if_neg hn, List.reverse_cons, varIntTmp_eq_of_ne_zero _ (by decide) one_ne_zero]

theorem writeVarInt_digit {b : UInt8} (h : ¬b.toNat &&& 0x80 ≠ 0) (n : Nat) :
    writeVarInt (n * 128 + (b.toNat &&& 0x7F)) = varIntCont n ++ [b] := by
  rw [writeVarInt, varIntTmp_digit n (digit_lt b), if_neg (by decide), ofNat_digit_low h,
    varIntCont]
  by_cases hn : n = 0
  · rw [if_pos hn, if_pos hn]
    rfl
  · rw [if_neg hn, if_neg hn, List.reverse_cons, varIntTmp_eq_of_ne_zero _ (by decide) one_ne_zero]

/-- The bytes of a denoted number, after the continuation bytes of the digits before it,
are what `WriteVarInt` writes of it. -/
theorem writeVarInt_of_varIntValue {n v : Nat} {bytes rest : List UInt8}
    (h : varIntValue n bytes = (v, some rest)) : writeVarInt v ++ rest = varIntCont n ++ bytes := by
  induction bytes generalizing n with
  | nil => cases h
  | cons b bs ih =>
    rw [varIntValue] at h
    by_cases hhigh : b.toNat &&& 0x80 ≠ 0
    · rw [if_pos hhigh] at h
      rw [ih h, varIntCont_succ hhigh, List.append_assoc]
      rfl
    · rw [if_neg hhigh] at h
      cases h
      rw [writeVarInt_digit hhigh, List.append_assoc]
      rfl

theorem varInt_round_trip_canonical (mode : VarIntMode) (w : Nat) (hw : 8 ≤ w) :
    (∀ n, n < 2 ^ mode.valueBits w → ∀ rest : List UInt8,
      (readVarInt (mode.valueBits w)).run (writeVarInt n ++ rest) = .ok (n, rest) ∧
        (writeVarInt n).length = getSizeOfVarInt n) ∧
    (∀ bytes : List UInt8,
      ((readVarInt (mode.valueBits w)).run bytes = .error "ReadVarInt(): size too large" ↔
        2 ^ mode.valueBits w - 1 < (varIntValue 0 bytes).1) ∧
      (∀ v rest, varIntValue 0 bytes = (v, some rest) → v ≤ 2 ^ mode.valueBits w - 1 →
        (readVarInt (mode.valueBits w)).run bytes = .ok (v, rest)) ∧
      (∀ v rest, (readVarInt (mode.valueBits w)).run bytes = .ok (v, rest) →
        bytes = writeVarInt v ++ rest)) := by
  have hbits : 7 ≤ mode.valueBits w := by
    cases mode <;> simp only [VarIntMode.valueBits] <;> omega
  have hspec (bytes : List UInt8) : (readVarInt (mode.valueBits w)).run bytes =
      readVarIntSpec (mode.valueBits w) (varIntValue 0 bytes) :=
    readVarIntFrom_eq_spec hbits (Nat.zero_le _) bytes
  refine ⟨fun n hn rest => ⟨readVarInt_readsBack hn rest, length_writeVarInt n⟩,
    fun bytes => ⟨?_, ?_, ?_⟩⟩
  · rw [hspec, readVarIntSpec]
    constructor
    · intro h
      by_contra hle
      rw [if_neg hle] at h
      cases hv : (varIntValue 0 bytes).2 <;> simp [hv] at h
    · intro hlt
      rw [if_pos hlt]
  · intro v rest hv hle
    rw [hspec, hv, readVarIntSpec, if_neg (by simpa using hle)]
  · intro v rest h
    rw [hspec, readVarIntSpec] at h
    by_cases hlt : 2 ^ mode.valueBits w - 1 < (varIntValue 0 bytes).1
    · rw [if_pos hlt] at h
      cases h
    · rw [if_neg hlt] at h
      cases hv : varIntValue 0 bytes with
      | mk v' r =>
        rw [hv] at h
        cases r with
        | none => cases h
        | some r =>
          cases h
          have := writeVarInt_of_varIntValue hv
          rw [varIntCont, if_pos rfl, List.nil_append] at this
          exact this.symm

/-- The whole statement for `uint8_t`, eight value bits. -/
theorem varInt_round_trip_canonical_uint8 :
    8 ≤ 8 ∧
    (∀ n, n < 2 ^ VarIntMode.DEFAULT.valueBits 8 → ∀ rest : List UInt8,
      (readVarInt (VarIntMode.DEFAULT.valueBits 8)).run (writeVarInt n ++ rest) = .ok (n, rest) ∧
        (writeVarInt n).length = getSizeOfVarInt n) ∧
    (∀ bytes : List UInt8,
      ((readVarInt (VarIntMode.DEFAULT.valueBits 8)).run bytes = .error "ReadVarInt(): size too large" ↔
        2 ^ VarIntMode.DEFAULT.valueBits 8 - 1 < (varIntValue 0 bytes).1) ∧
      (∀ v rest, varIntValue 0 bytes = (v, some rest) → v ≤ 2 ^ VarIntMode.DEFAULT.valueBits 8 - 1 →
        (readVarInt (VarIntMode.DEFAULT.valueBits 8)).run bytes = .ok (v, rest)) ∧
      (∀ v rest, (readVarInt (VarIntMode.DEFAULT.valueBits 8)).run bytes = .ok (v, rest) →
        bytes = writeVarInt v ++ rest)) :=
  ⟨le_refl 8, varInt_round_trip_canonical .DEFAULT 8 (le_refl 8)⟩

-- ---------------------------------------------------------------------------
-- Vectors
-- ---------------------------------------------------------------------------

/-- `VectorFormatter::Ser`: the size, then each item. -/
def vectorSer {α : Type} (ser : α → List UInt8) (v : List α) : List UInt8 :=
  writeCompactSize v.length ++ v.flatMap ser

/-- `VectorFormatter::Unser`: the size, range checked, then that many items. The source
reserves the vector in batches of `MAX_VECTOR_ALLOCATE` bytes; the items it reads are the
same. -/
def vectorUnser {α : Type} (unser : Reader α) : Reader (List α) := do
  let size ← readCompactSize true
  readMany unser size

/-- A vector of at most `MAX_SIZE` items reads back when each of its items does. -/
theorem vectorUnser_readsBack {α : Type} {ser : α → List UInt8} {unser : Reader α} {v : List α}
    (hlen : v.length ≤ MAX_SIZE) (h : ∀ a ∈ v, ReadsBack unser (ser a) a) :
    ReadsBack (vectorUnser unser) (vectorSer ser v) v := by
  have hsize : v.length < 2 ^ 64 := by
    rw [MAX_SIZE] at hlen
    omega
  exact (readCompactSize_readsBack hsize fun _ => hlen).bind (readMany_readsBack ser v h)

/-- A vector read back is at most `MAX_SIZE` items, each of which their reader could
return, written with its count. -/
theorem vectorUnser_canonical {α : Type} {unser : Reader α} {P : α → Prop}
    {ser : α → List UInt8} (h : Canonical unser P ser) :
    Canonical (vectorUnser unser) (fun v => v.length ≤ MAX_SIZE ∧ ∀ a ∈ v, P a)
      (vectorSer ser) := by
  intro bytes v rest hv
  obtain ⟨size, mid, hsize, hitems⟩ := run_bind_eq_ok hv
  obtain ⟨⟨-, hmax⟩, rfl⟩ := readCompactSize_canonical true hsize
  obtain ⟨⟨hlen, hP⟩, rfl⟩ := readMany_canonical h size hitems
  refine ⟨⟨by rw [hlen]; exact hmax rfl, hP⟩, ?_⟩
  rw [vectorSer, hlen, List.append_assoc]

end Riecoin
