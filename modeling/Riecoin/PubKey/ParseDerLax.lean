-- SUMMARY: ecdsa_signature_parse_der_lax of pubkey.cpp with its reads of the input made explicit: no input makes it read outside input[0 .. inputlen), and on every signature that IsValidSignatureEncoding accepts it returns 1 and hands parse_compact R and S as 32 big-endian bytes each.
import Riecoin.Script.SignatureEncoding
import Riecoin.Lib.ExceptPost

/-!
# The lax DER parser

`ecdsa_signature_parse_der_lax` (`pubkey.cpp`) parses a DER signature while accepting format
violations: long-form lengths, leading zero bytes, garbage after the sequence. It reads its
input at positions it computes from length bytes, and it hands a 64-byte buffer to
`secp256k1_ecdsa_signature_parse_compact`, whose result decides whether it hands it the
all-zero buffer once more. The model runs in `Except LaxExit`: `return 0` is the error
`reject`, and a read outside `input[0 .. inputlen)` the error `outOfBounds`, which the C code
must never reach. `parse_compact` is a parameter, seen through its return value, and the
model returns the buffers it is handed, in order: the signature it leaves is the last call's.

`ecdsaSignatureParseDerLax_isSome` says that no input makes the parser read outside it;
`ecdsaSignatureParseDerLax_derSignature` that on a signature of strict integers, the ones
`IsValidSignatureEncoding` accepts, it returns `1` and hands `parse_compact` the two integers
written as 32 big-endian bytes each, when both fit.
-/

namespace Riecoin.PubKey

open BigEndian ExceptPost Riecoin.Script

/-- How the straight-line code of `ecdsa_signature_parse_der_lax` leaves early. -/
inductive LaxExit where
  /-- `return 0`. -/
  | reject
  /-- A read outside `input[0 .. inputlen)`. -/
  | outOfBounds
  deriving DecidableEq, Repr

/-- `input[pos]`. -/
def readAt (input : List UInt8) (pos : Nat) : Except LaxExit UInt8 :=
  match input[pos]? with
  | some b => .ok b
  | none => .error .outOfBounds

/-- What `memcpy` reads: `input[pos .. pos + len)`. -/
def readRange (input : List UInt8) (pos len : Nat) : Except LaxExit (List UInt8) :=
  if pos + len ≤ input.length then .ok ((input.drop pos).take len) else .error .outOfBounds

/-- `while (len > 0 && input[pos] == 0) { pos++; len--; }`: the loop that skips the leading
zero bytes of a long-form length and, later, of the values of `R` and `S`. -/
def skipZeros (input : List UInt8) : Nat → Nat → Except LaxExit (Nat × Nat)
  | pos, 0 => .ok (pos, 0)
  | pos, len + 1 => do
    if (← readAt input pos) = 0 then skipZeros input (pos + 1) len else return (pos, len + 1)

/-- `while (lenbyte > 0) { rlen = (rlen << 8) + input[pos]; pos++; lenbyte--; }`. -/
def readLength (input : List UInt8) : Nat → Nat → Nat → Except LaxExit (Nat × Nat)
  | pos, 0, rlen => .ok (pos, rlen)
  | pos, lenbyte + 1, rlen => do
    let b ← readAt input pos
    readLength input (pos + 1) lenbyte ((rlen <<< 8) + b.toNat)

/-- The length of an integer at `pos`: one byte, or in long form a count of big-endian
length bytes after leading zeros, of which at most three may be left. Returns the position
after the length and the length. -/
def integerLength (input : List UInt8) (pos : Nat) : Except LaxExit (Nat × Nat) := do
  if pos = input.length then throw .reject
  let lenbyte := (← readAt input pos).toNat
  let pos := pos + 1
  if lenbyte &&& 0x80 ≠ 0 then
    let lenbyte := lenbyte - 0x80
    if lenbyte > input.length - pos then throw .reject
    let (pos, lenbyte) ← skipZeros input pos lenbyte
    if lenbyte ≥ 4 then throw .reject
    readLength input pos lenbyte 0
  else
    return (pos, lenbyte)

/-- The integer tag byte, the length, and the check that the value is inside the input, for
`R` and then for `S`: returns the position of the value and its length. -/
def integerField (input : List UInt8) (pos : Nat) : Except LaxExit (Nat × Nat) := do
  if pos = input.length then throw .reject
  if (← readAt input pos) ≠ 0x02 then throw .reject
  let (pos, len) ← integerLength input (pos + 1)
  if len > input.length - pos then throw .reject
  return (pos, len)

/-- The sequence tag byte and the sequence length, whose value is skipped, not checked. -/
def sequenceHeader (input : List UInt8) : Except LaxExit Nat := do
  if 0 = input.length then throw .reject
  if (← readAt input 0) ≠ 0x30 then throw .reject
  if 1 = input.length then throw .reject
  let lenbyte := (← readAt input 1).toNat
  if lenbyte &&& 0x80 ≠ 0 then
    let lenbyte := lenbyte - 0x80
    if lenbyte > input.length - 2 then throw .reject
    return 2 + lenbyte
  else
    return 2

/-- A value without its leading zeros, right-aligned in its 32-byte half of `tmpsig`; `none`
is an overflow, a value of more than 32 bytes. -/
def copyValue (input : List UInt8) (pos len : Nat) : Except LaxExit (Option (List UInt8)) := do
  let (pos, len) ← skipZeros input pos len
  if len > 32 then return none
  let bytes ← readRange input pos len
  return some (List.replicate (32 - len) 0 ++ bytes)

/-- The all-zero `tmpsig`. -/
def zeros64 : List UInt8 := List.replicate 64 0

/-- The parser after the first call of `parse_compact`: the buffers it hands it next. -/
def parseDerLaxBody (parseCompact : List UInt8 → Bool) (input : List UInt8) :
    Except LaxExit (List (List UInt8)) := do
  let pos ← sequenceHeader input
  let (rpos, rlen) ← integerField input pos
  let (spos, slen) ← integerField input (rpos + rlen)
  let r ← copyValue input rpos rlen
  let s ← copyValue input spos slen
  match r, s with
  | some r, some s =>
    -- a buffer that `parse_compact` rejects is followed by the all-zero one
    if parseCompact (r ++ s) then return [r ++ s] else return [r ++ s, zeros64]
  | _, _ => return [zeros64]

/-- `ecdsa_signature_parse_der_lax(sig, input, inputlen)`: the value it returns and the
buffers it hands `parse_compact`, the first being the all-zero one it starts with; `none`
for a read outside the input. -/
def ecdsaSignatureParseDerLax (parseCompact : List UInt8 → Bool) (input : List UInt8) :
    Option (Nat × List (List UInt8)) :=
  match parseDerLaxBody parseCompact input with
  | .ok calls => some (1, zeros64 :: calls)
  | .error .reject => some (0, [zeros64])
  | .error .outOfBounds => none

/-- What `ecdsa_signature_parse_der_lax` is to hand `parse_compact` after the all-zero
buffer, for integers `r` and `s`: both written as 32 big-endian bytes, followed by the all-zero
buffer if `parse_compact` rejects them, and only the all-zero buffer if either does not fit. -/
def compactBuffers (parseCompact : List UInt8 → Bool) (r s : Nat) : List (List UInt8) :=
  if r < 2 ^ 256 ∧ s < 2 ^ 256 then
    if parseCompact (beBytes 32 r ++ beBytes 32 s) then [beBytes 32 r ++ beBytes 32 s]
    else [beBytes 32 r ++ beBytes 32 s, zeros64]
  else [zeros64]

-- ---------------------------------------------------------------------------
-- Reads inside the input
-- ---------------------------------------------------------------------------

section Reads

variable {input : List UInt8}

theorem readAt_of_lt {pos : Nat} (h : pos < input.length) : readAt input pos = .ok input[pos] := by
  simp [readAt, List.getElem?_eq_getElem h]

theorem readAt_append (pre : List UInt8) (b : UInt8) (post : List UInt8) :
    readAt (pre ++ b :: post) pre.length = .ok b := by
  simp [readAt]

/-- The zero-skipping loop stays inside a window that fits in the input; it only reads. -/
theorem skipZeros_post : ∀ (len pos : Nat), pos + len ≤ input.length →
    Post (fun r : Nat × Nat => r.1 + r.2 ≤ input.length) (· = LaxExit.reject)
      (skipZeros input pos len)
  | 0, pos, h => post_ok h
  | len + 1, pos, h => by
    rw [skipZeros, readAt_of_lt (by omega), ok_bind]
    refine post_ite (fun _ => skipZeros_post len (pos + 1) (by omega)) fun _ => post_pure ?_
    exact h

/-- On a field, the loop skips exactly the field's leading zero bytes. -/
theorem skipZeros_append (post : List UInt8) :
    ∀ (X pre : List UInt8), skipZeros (pre ++ X ++ post) pre.length X.length =
      .ok (pre.length + (X.length - (stripZeros X).length), (stripZeros X).length)
  | [], pre => rfl
  | x :: X, pre => by
    have hle := length_stripZeros_le X
    rw [List.length_cons, skipZeros, List.append_assoc, List.cons_append, readAt_append,
      ok_bind]
    by_cases hx : x = 0
    · -- a zero byte: the loop goes on with it in the prefix
      subst hx
      rw [if_pos rfl, stripZeros_cons_zero, show pre ++ 0 :: (X ++ post) = pre ++ [0] ++ X ++ post
        by simp, show pre.length + 1 = (pre ++ [0]).length by simp,
        skipZeros_append post X (pre ++ [0]), List.length_append, List.length_singleton]
      congr 2
      omega
    · rw [if_neg hx, stripZeros_cons_of_ne hx, List.length_cons, Nat.sub_self, Nat.add_zero]
      rfl

theorem readLength_post : ∀ (lenbyte pos rlen : Nat), pos + lenbyte ≤ input.length →
    Post (fun r : Nat × Nat => r.1 ≤ input.length) (· = LaxExit.reject)
      (readLength input pos lenbyte rlen)
  | 0, pos, rlen, h => post_ok h
  | lenbyte + 1, pos, rlen, h => by
    rw [readLength, readAt_of_lt (by omega), ok_bind]
    exact readLength_post lenbyte (pos + 1) _ (by omega)

/-- A length, short or long, ends inside the input. -/
theorem integerLength_post {pos : Nat} (hpos : pos ≤ input.length) :
    Post (fun r : Nat × Nat => r.1 ≤ input.length) (· = LaxExit.reject)
      (integerLength input pos) := by
  unfold integerLength
  refine post_ite (fun _ => post_throw_bind rfl) fun hne => ?_
  have hlt : pos < input.length := Nat.lt_of_le_of_ne hpos hne
  rw [readAt_of_lt hlt, ok_bind]
  refine post_ite (fun _ => ?_) fun _ => post_pure hlt
  -- the long form: the count of length bytes is checked against what is left; the count is
  -- named, as a subtraction of `0x80` from a byte that stays in the goal unfolds 128 times
  dsimp only
  generalize input[pos].toNat - 0x80 = lenbyte
  refine post_ite (fun _ => post_throw_bind rfl) fun hle => ?_
  refine post_bind (skipZeros_post _ _ (by omega)) fun ⟨p, l⟩ hpl => ?_
  exact post_ite (fun _ => post_throw_bind rfl) fun _ => readLength_post l p 0 hpl

/-- An integer's value lies inside the input. -/
theorem integerField_post {pos : Nat} (hpos : pos ≤ input.length) :
    Post (fun r : Nat × Nat => r.1 + r.2 ≤ input.length) (· = LaxExit.reject)
      (integerField input pos) := by
  unfold integerField
  refine post_ite (fun _ => post_throw_bind rfl) fun hne => ?_
  rw [readAt_of_lt (Nat.lt_of_le_of_ne hpos hne), ok_bind]
  refine post_ite (fun _ => post_throw_bind rfl) fun _ => ?_
  refine post_bind (integerLength_post (Nat.lt_of_le_of_ne hpos hne)) fun ⟨p, l⟩ hp => ?_
  exact post_ite (fun _ => post_throw_bind rfl) fun hl => post_pure (by dsimp only at hp ⊢; omega)

theorem sequenceHeader_post :
    Post (· ≤ input.length) (· = LaxExit.reject) (sequenceHeader input) := by
  unfold sequenceHeader
  refine post_ite (fun _ => post_throw_bind rfl) fun h0 => ?_
  rw [readAt_of_lt (by omega), ok_bind]
  refine post_ite (fun _ => post_throw_bind rfl) fun _ => ?_
  refine post_ite (fun _ => post_throw_bind rfl) fun h1 => ?_
  have h2 : 2 ≤ input.length := by omega
  rw [readAt_of_lt (by omega), ok_bind]
  refine post_ite (fun _ => ?_) fun _ => post_pure h2
  dsimp only
  generalize input[1].toNat - 0x80 = lenbyte
  exact post_ite (fun _ => post_throw_bind rfl) fun _ => post_pure (by omega)

theorem copyValue_post {pos len : Nat} (h : pos + len ≤ input.length) :
    Post (fun _ => True) (· = LaxExit.reject) (copyValue input pos len) := by
  unfold copyValue
  refine post_bind (skipZeros_post _ _ h) fun ⟨p, l⟩ hpl => ?_
  refine post_ite (fun _ => post_pure trivial) fun _ => ?_
  -- `memcpy` reads the value where the zero-skipping loop left it
  rw [readRange, if_pos hpl, ok_bind]
  exact post_pure trivial

/-- Whatever the input, the parser returns or fails with `return 0`: it never reads outside
`input[0 .. inputlen)`. -/
theorem parseDerLaxBody_post (parseCompact : List UInt8 → Bool) :
    Post (fun _ => True) (· = LaxExit.reject) (parseDerLaxBody parseCompact input) := by
  unfold parseDerLaxBody
  refine post_bind sequenceHeader_post fun pos hpos => ?_
  refine post_bind (integerField_post hpos) fun ⟨rpos, rlen⟩ hr => ?_
  refine post_bind (integerField_post hr) fun ⟨spos, slen⟩ hs => ?_
  refine post_bind (copyValue_post hr) fun r _ => post_bind (copyValue_post hs) fun s _ => ?_
  split
  · exact post_ite (fun _ => post_pure trivial) fun _ => post_pure trivial
  · exact post_pure trivial

end Reads

/-- No input makes `ecdsa_signature_parse_der_lax` read outside `input[0 .. inputlen)`. -/
theorem ecdsaSignatureParseDerLax_isSome (parseCompact : List UInt8 → Bool) (input : List UInt8) :
    (ecdsaSignatureParseDerLax parseCompact input).isSome = true := by
  have hpost : Post (fun _ => True) (· = LaxExit.reject) (parseDerLaxBody parseCompact input) :=
    parseDerLaxBody_post parseCompact
  unfold ecdsaSignatureParseDerLax
  cases hbody : parseDerLaxBody parseCompact input with
  | ok calls => rfl
  | error e =>
    -- the only error is `return 0`
    rw [hpost.of_error hbody]
    rfl

/-- A long-form sequence length, a long-form integer length and no sighash byte to spare: the
lax parser still returns `1`. -/
example : (ecdsaSignatureParseDerLax (fun _ => true)
    [0x30, 0x80, 0x02, 0x81, 0x01, 0x05, 0x02, 0x01, 0x07]).map Prod.fst = some 1 := by
  decide

-- ---------------------------------------------------------------------------
-- On a strict signature
-- ---------------------------------------------------------------------------

section Strict

theorem readRange_append (pre X post : List UInt8) :
    readRange (pre ++ X ++ post) pre.length X.length = .ok X := by
  rw [readRange, if_pos (by simp), List.append_assoc, List.drop_left, List.take_left]

/-- A value's leading zeros skipped, the rest right-aligned in 32 bytes is the value written
as 32 bytes, if it fits. -/
theorem copyValue_append (pre X post : List UInt8) :
    copyValue (pre ++ X ++ post) pre.length X.length =
      .ok (if beValue X < 2 ^ 256 then some (beBytes 32 (beValue X)) else none) := by
  have hle := length_stripZeros_le X
  have hfit := length_stripZeros_le_iff X 32
  rw [copyValue, skipZeros_append, ok_bind]
  dsimp only
  by_cases hX : (stripZeros X).length ≤ 32
  · -- the bytes after the zeros are where `memcpy` reads
    have hsplit : pre ++ X ++ post =
        pre ++ List.replicate (X.length - (stripZeros X).length) 0 ++ stripZeros X ++ post := by
      rw [List.append_assoc pre (List.replicate _ 0), replicate_append_stripZeros]
    rw [if_neg (by omega), hsplit, show pre.length + (X.length - (stripZeros X).length) =
      (pre ++ List.replicate (X.length - (stripZeros X).length) 0).length by simp,
      readRange_append, ok_bind, if_pos (hfit.mp hX), ← beValue_stripZeros X, beBytes_beValue hX]
    rfl
  · rw [if_pos (by omega), if_neg (fun h => hX (hfit.mpr h))]
    rfl

theorem not_and_0x80_of_lt {b : UInt8} (hb : b.toNat < 0x80) : ¬b.toNat &&& 0x80 ≠ 0 :=
  fun h => Nat.not_le_of_lt hb ((and_0x80_ne_zero_iff b.toNat_lt).mp h)

/-- A short-form sequence length is skipped over. -/
theorem sequenceHeader_short {L : UInt8} (hL : L.toNat < 0x80) (rest : List UInt8) :
    sequenceHeader (0x30 :: L :: rest) = .ok 2 := by
  have h0 : readAt (0x30 :: L :: rest) 0 = .ok 0x30 := rfl
  have h1 : readAt (0x30 :: L :: rest) 1 = .ok L := rfl
  simp only [sequenceHeader, h0, h1, ok_bind, List.length_cons, Nat.zero_ne_add_one, if_false,
    ne_eq, not_true_eq_false, not_and_0x80_of_lt hL]
  rfl

/-- A short-form integer length is its byte. -/
theorem integerLength_short (pre : List UInt8) {b : UInt8} (hb : b.toNat < 0x80)
    (post : List UInt8) :
    integerLength (pre ++ b :: post) pre.length = .ok (pre.length + 1, b.toNat) := by
  unfold integerLength
  rw [if_neg (by simp), readAt_append, ok_bind]
  exact if_neg (not_and_0x80_of_lt hb)

/-- An integer field with a short-form length: the value follows the length byte. -/
theorem integerField_short (pre X post : List UInt8) (hX : X.length < 0x80) :
    integerField (pre ++ 0x02 :: UInt8.ofNat X.length :: (X ++ post)) pre.length =
      .ok (pre.length + 2, X.length) := by
  have hlen : (UInt8.ofNat X.length).toNat = X.length :=
    UInt8.toNat_ofNat_of_lt' (by simp only [UInt8.size]; omega)
  unfold integerField
  rw [if_neg (by simp), readAt_append, ok_bind, if_neg (by decide),
    show pre ++ 0x02 :: UInt8.ofNat X.length :: (X ++ post) =
      (pre ++ [0x02]) ++ UInt8.ofNat X.length :: (X ++ post) by simp,
    show pre.length + 1 = (pre ++ [0x02]).length by simp,
    integerLength_short _ (by rw [hlen]; exact hX), ok_bind, hlen]
  dsimp only
  rw [if_neg (by simp; omega)]
  simp

/-- On a DER sequence with short-form lengths, as every strict signature has, the parser
finds `R` and `S` where the grammar puts them. -/
theorem parseDerLaxBody_derSequence (parseCompact : List UInt8 → Bool) (R S : List UInt8)
    (hlen : R.length + S.length + 7 ≤ 73) :
    parseDerLaxBody parseCompact (0x30 :: UInt8.ofNat (R.length + S.length + 4) :: 0x02 ::
        UInt8.ofNat R.length :: (R ++ 0x02 :: UInt8.ofNat S.length :: S)) =
      .ok (compactBuffers parseCompact (beValue R) (beValue S)) := by
  have hL : (UInt8.ofNat (R.length + S.length + 4)).toNat < 0x80 := by
    rw [UInt8.toNat_ofNat_of_lt' (by simp only [UInt8.size]; omega)]
    omega
  -- each step of the parser on this input, at the positions the grammar gives
  have hRfield : integerField (0x30 :: UInt8.ofNat (R.length + S.length + 4) :: 0x02 ::
      UInt8.ofNat R.length :: (R ++ 0x02 :: UInt8.ofNat S.length :: S)) 2 = .ok (4, R.length) :=
    integerField_short [0x30, UInt8.ofNat (R.length + S.length + 4)] R
      (0x02 :: UInt8.ofNat S.length :: S) (by omega)
  have hSfield : integerField (0x30 :: UInt8.ofNat (R.length + S.length + 4) :: 0x02 ::
      UInt8.ofNat R.length :: (R ++ 0x02 :: UInt8.ofNat S.length :: S)) (4 + R.length) =
      .ok (R.length + 6, S.length) := by
    have h := integerField_short (0x30 :: UInt8.ofNat (R.length + S.length + 4) :: 0x02 ::
      UInt8.ofNat R.length :: R) S [] (by omega)
    rw [List.append_nil] at h
    rw [Nat.add_comm 4 R.length]
    exact h
  have hRcopy := copyValue_append [0x30, UInt8.ofNat (R.length + S.length + 4), 0x02,
    UInt8.ofNat R.length] R (0x02 :: UInt8.ofNat S.length :: S)
  have hScopy := copyValue_append (0x30 :: UInt8.ofNat (R.length + S.length + 4) :: 0x02 ::
    UInt8.ofNat R.length :: (R ++ [0x02, UInt8.ofNat S.length])) S []
  simp only [List.append_nil, List.cons_append, List.nil_append, List.append_assoc,
    List.length_cons, List.length_append, List.length_nil] at hRcopy hScopy
  rw [show R.length + (0 + 1 + 1) + 1 + 1 + 1 + 1 = R.length + 6 by omega] at hScopy
  unfold parseDerLaxBody
  rw [sequenceHeader_short hL, ok_bind]
  simp only [hRfield, hSfield, ok_bind, hRcopy, hScopy]
  -- the buffers, as both integers fit or not
  by_cases hr : beValue R < 2 ^ 256
  · by_cases hs : beValue S < 2 ^ 256
    · simp only [hr, hs, compactBuffers, if_true, and_self]
      split <;> rfl
    · simp only [hr, hs, compactBuffers, if_true, if_false, and_false]
      rfl
  · simp only [hr, compactBuffers, if_false, false_and]
    rfl

/-- On a signature of at most `73` bytes without its sighash byte, the parser returns `1` and
hands `parse_compact` the integers written as 32 big-endian bytes each, if both fit. -/
theorem ecdsaSignatureParseDerLax_derSignature (parseCompact : List UInt8 → Bool)
    {R S : List UInt8} {h : UInt8} (hlen : (derSignature R S h).length ≤ 73) :
    ecdsaSignatureParseDerLax parseCompact (derSignature R S h).dropLast =
      some (1, zeros64 :: compactBuffers parseCompact (beValue R) (beValue S)) := by
  have hdrop : (derSignature R S h).dropLast = 0x30 :: UInt8.ofNat (R.length + S.length + 4) ::
      0x02 :: UInt8.ofNat R.length :: (R ++ 0x02 :: UInt8.ofNat S.length :: S) := by
    rw [show derSignature R S h = (0x30 :: UInt8.ofNat (R.length + S.length + 4) :: 0x02 ::
      UInt8.ofNat R.length :: (R ++ 0x02 :: UInt8.ofNat S.length :: S)) ++ [h] by
      simp [derSignature], List.dropLast_concat]
  rw [length_derSignature] at hlen
  rw [ecdsaSignatureParseDerLax, hdrop, parseDerLaxBody_derSequence parseCompact R S hlen]

end Strict

/-- `IsValidSignatureEncoding` reads only inside the signature and accepts exactly the DER
signatures of strict integers in at most `73` bytes; on such a signature without its sighash
byte, `ecdsa_signature_parse_der_lax` returns `1` and hands `parse_compact` `R` and `S` as 32
big-endian bytes each (the all-zero buffer if either does not fit); and on no input at all does
it read outside the input. -/
theorem isValidSignatureEncoding_strict_der (parseCompact : List UInt8 → Bool)
    (sig : List UInt8) :
    (isValidSignatureEncoding sig).isSome = true ∧
    (isValidSignatureEncoding sig = some true ↔
      ∃ R S h, sig = derSignature R S h ∧ IsStrictInt R ∧ IsStrictInt S ∧ sig.length ≤ 73) ∧
    (isValidSignatureEncoding sig = some true → ∀ R S h, sig = derSignature R S h →
      ecdsaSignatureParseDerLax parseCompact sig.dropLast =
        some (1, zeros64 :: compactBuffers parseCompact (beValue R) (beValue S))) ∧
    ∀ input, (ecdsaSignatureParseDerLax parseCompact input).isSome = true := by
  have hlen : isValidSignatureEncoding sig = some true → sig.length ≤ 73 :=
    fun hv => (isValidSignatureEncoding_eq_true_iff.mp hv).2.1
  refine ⟨isValidSignatureEncoding_isSome sig, ⟨fun hv => ?_, ?_⟩, ?_,
    ecdsaSignatureParseDerLax_isSome parseCompact⟩
  · obtain ⟨R, S, h, hsig, hR, hS⟩ := eq_derSignature_of_isValidSignatureEncoding hv
    exact ⟨R, S, h, hsig, hR, hS, hlen hv⟩
  · rintro ⟨R, S, h, rfl, hR, hS, hle⟩
    exact isValidSignatureEncoding_derSignature h hR hS hle
  · rintro hv R S h rfl
    exact ecdsaSignatureParseDerLax_derSignature parseCompact (hlen hv)

theorem isValidSignatureEncoding_strict_der_sample :
    isValidSignatureEncoding [0x30, 0x07, 0x02, 0x01, 0x01, 0x02, 0x02, 0x00, 0x80, 0x01] =
      some true ∧
    [0x30, 0x07, 0x02, 0x01, 0x01, 0x02, 0x02, 0x00, 0x80, 0x01] =
      derSignature [0x01] [0x00, 0x80] 0x01 ∧
    ecdsaSignatureParseDerLax (fun _ => true)
        [0x30, 0x07, 0x02, 0x01, 0x01, 0x02, 0x02, 0x00, 0x80, 0x01].dropLast =
      some (1, zeros64 :: compactBuffers (fun _ => true) (beValue [0x01]) (beValue [0x00, 0x80])) :=
  ⟨by decide, rfl, (isValidSignatureEncoding_strict_der (fun _ => true)
    [0x30, 0x07, 0x02, 0x01, 0x01, 0x02, 0x02, 0x00, 0x80, 0x01]).2.2.1 (by decide)
    [0x01] [0x00, 0x80] 0x01 rfl⟩

end Riecoin.PubKey
