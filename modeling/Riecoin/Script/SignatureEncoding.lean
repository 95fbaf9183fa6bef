-- SUMMARY: IsValidSignatureEncoding, the BIP66 check of a signature's strict DER encoding, as its sequence of reads of the vector: no read leaves the vector, and it accepts exactly 0x30 L 0x02 lenR R 0x02 lenS S h with R and S minimally encoded non-negative integers, in at most 73 bytes.
import Riecoin.Lib.BigEndian
import Mathlib.Data.List.Basic

/-!
# Strict DER signatures

`IsValidSignatureEncoding` (`script/interpreter.cpp`) reads the signature vector at indices
it computes from two length bytes, `sig[3]` and `sig[5 + lenR]`, and the order of its checks
is what keeps those reads inside the vector. The model reads with `sig[i]?`, so a read
outside the vector would make the result `none`: `isValidSignatureEncoding_isSome` says there
is none. Its checks on `R` and on `S` are the same ones at other offsets, modelled once as
`checkInteger`.

The abstract grammar is `derSignature R S h`, the bytes
`0x30 L 0x02 lenR R 0x02 lenS S h`, with `IsStrictInt` for the integers as the source's
comment states it. `isValidSignatureEncoding_derSignature` and
`eq_derSignature_of_isValidSignatureEncoding` are the two directions: the check accepts
exactly the signatures of this grammar with strict integers and at most `73` bytes.
-/

namespace Riecoin.Script

open BigEndian

/-- The checks of `IsValidSignatureEncoding` on one integer element, the same for `R` (at
`pos = 4`) and `S` (at `pos = lenR + 6`): its tag two bytes before it, a nonzero length, a
first byte without the sign bit, and a null first byte only before one with the sign bit. -/
def checkInteger (sig : List UInt8) (pos len : Nat) : Option Bool := do
  -- Check whether the element is an integer.
  if (← sig[pos - 2]?) ≠ 0x02 then return false
  -- Zero-length integers are not allowed.
  if len = 0 then return false
  -- Negative numbers are not allowed.
  if (← sig[pos]?) &&& 0x80 ≠ 0 then return false
  -- Null bytes at the start are not allowed, unless the number would otherwise be negative.
  if len > 1 then
    if (← sig[pos]?) = 0x00 then
      if (← sig[pos + 1]?) &&& 0x80 = 0 then return false
  return true

/-- `IsValidSignatureEncoding(sig)`; `none` stands for a read outside `sig`. -/
def isValidSignatureEncoding (sig : List UInt8) : Option Bool := do
  -- Minimum and maximum size constraints.
  if sig.length < 9 then return false
  if sig.length > 73 then return false
  -- A signature is of type 0x30 (compound).
  if (← sig[0]?) ≠ 0x30 then return false
  -- Make sure the length covers the entire signature.
  if (← sig[1]?).toNat ≠ sig.length - 3 then return false
  let lenR := (← sig[3]?).toNat
  -- Make sure the length of the S element is still inside the signature.
  if 5 + lenR ≥ sig.length then return false
  let lenS := (← sig[5 + lenR]?).toNat
  -- Verify that the length of the signature matches the sum of the length of the elements.
  if lenR + lenS + 7 ≠ sig.length then return false
  if !(← checkInteger sig 4 lenR) then return false
  checkInteger sig (lenR + 6) lenS

-- ---------------------------------------------------------------------------
-- The grammar
-- ---------------------------------------------------------------------------

/-- A strictly encoded DER integer, as the comment of `IsValidSignatureEncoding` states it: at
least one byte, the first without the sign bit, and a null first byte only where the next
byte has the sign bit. -/
def IsStrictInt : List UInt8 → Prop
  | [] => False
  | [r] => r < 0x80
  | r :: r' :: _ => r < 0x80 ∧ (r = 0 → 0x80 ≤ r')

instance : DecidablePred IsStrictInt := fun
  | [] => inferInstanceAs (Decidable False)
  | [r] => inferInstanceAs (Decidable (r < 0x80))
  | r :: r' :: _ => inferInstanceAs (Decidable (r < 0x80 ∧ (r = 0 → 0x80 ≤ r')))

example : IsStrictInt [0x00, 0x80] ∧ ¬IsStrictInt [0x00, 0x7f] ∧ ¬IsStrictInt [0x80] := by
  decide

theorem IsStrictInt.length_pos {X : List UInt8} (h : IsStrictInt X) : 0 < X.length := by
  cases X with
  | nil => exact absurd h id
  | cons r X => exact Nat.succ_pos _

/-- `0x30 L 0x02 lenR R 0x02 lenS S h`: the DER sequence of the integers `R` and `S` with the
sighash byte `h` after it. -/
def derSignature (R S : List UInt8) (h : UInt8) : List UInt8 :=
  0x30 :: UInt8.ofNat (R.length + S.length + 4) :: 0x02 :: UInt8.ofNat R.length ::
    (R ++ 0x02 :: UInt8.ofNat S.length :: (S ++ [h]))

theorem length_derSignature (R S : List UInt8) (h : UInt8) :
    (derSignature R S h).length = R.length + S.length + 7 := by
  simp [derSignature]
  omega

-- ---------------------------------------------------------------------------
-- Reads
-- ---------------------------------------------------------------------------

/-- A list long enough for a signature with elements of `m` and `k` bytes is one. -/
theorem exists_frame {α : Type} {sig : List α} {m k : Nat} (hlen : sig.length = m + k + 7) :
    ∃ a b c d R e f S h, sig = a :: b :: c :: d :: (R ++ e :: f :: (S ++ [h])) ∧
      R.length = m ∧ S.length = k := by
  match sig, hlen with
  | a :: b :: c :: d :: rest, hlen =>
    have hrest : (rest.drop m).length = k + 3 := by
      simp only [List.length_cons] at hlen
      simp only [List.length_drop]
      omega
    match hd : rest.drop m, hrest with
    | e :: f :: tail, htail =>
      rcases List.eq_nil_or_concat' tail with rfl | ⟨S, h, rfl⟩
      · simp at htail
      · refine ⟨a, b, c, d, rest.take m, e, f, S, h, ?_, ?_, ?_⟩
        · rw [← hd, List.take_append_drop]
        · simp only [List.length_cons] at hlen
          simp only [List.length_take]
          omega
        · simp only [List.length_cons, List.length_append, List.length_nil] at htail
          omega

/-- The byte after `R` in a signature-shaped list. -/
theorem frame_getElem?_after {α : Type} (a b c d e f h : α) (R S : List α) :
    (a :: b :: c :: d :: (R ++ e :: f :: (S ++ [h])))[5 + R.length]? = some f := by
  rw [show 5 + R.length = R.length + 1 + 1 + 1 + 1 + 1 by omega]
  simp

/-- The checks of one integer element read its tag and its bytes and nothing else. -/
theorem checkInteger_append (pre X post : List UInt8) (hpre : 2 ≤ pre.length) :
    checkInteger (pre ++ X ++ post) pre.length X.length =
      some (decide (pre[pre.length - 2]? = some 0x02 ∧ IsStrictInt X)) := by
  have htag : (pre ++ X ++ post)[pre.length - 2]? = pre[pre.length - 2]? := by
    rw [List.append_assoc, List.getElem?_append_left (by omega)]
  have hX : ∀ i, i < X.length → (pre ++ X ++ post)[pre.length + i]? = X[i]? := by
    intro i hi
    rw [List.append_assoc, List.getElem?_append_right (by omega), Nat.add_sub_cancel_left,
      List.getElem?_append_left hi]
  obtain ⟨t, ht⟩ : ∃ t, pre[pre.length - 2]? = some t :=
    Option.isSome_iff_exists.mp (by simp; omega)
  simp only [checkInteger, htag, ht]
  -- the cases of `IsStrictInt`: the second byte is read only after a null first byte
  cases X with
  | nil => simp [IsStrictInt]
  | cons r X =>
    have h0 := hX 0 (by simp)
    simp only [Nat.add_zero] at h0
    cases X with
    | nil =>
      simp only [h0, Option.bind_eq_bind, Option.bind_some]
      by_cases ht2 : t = 2 <;> by_cases hr : r < 0x80 <;>
        simp [ht2, hr, IsStrictInt, uint8_and_0x80_eq_zero_iff]
    | cons r' rest =>
      have h1 := hX 1 (by simp)
      simp only [h0, h1, Option.bind_eq_bind, Option.bind_some]
      by_cases ht2 : t = 2 <;> by_cases hr : r < 0x80 <;> by_cases hr0 : r = 0 <;>
        by_cases hr' : r' < 0x80 <;>
        simp [ht2, hr, hr0, hr', IsStrictInt, uint8_and_0x80_eq_zero_iff] <;>
        exact UInt8.not_lt.mp hr'

theorem isSome_ite {α : Type} {c : Prop} [Decidable c] {t e : Option α} :
    (if c then t else e).isSome = true ↔ (c → t.isSome = true) ∧ (¬c → e.isSome = true) := by
  by_cases hc : c <;> simp [hc]

theorem isSome_bind {α β : Type} {x : Option α} {f : α → Option β} :
    (x >>= f).isSome = true ↔ x.isSome = true ∧ ∀ a, x = some a → (f a).isSome = true := by
  cases x <;> simp

theorem checkInteger_isSome {sig : List UInt8} {pos len : Nat} (h2 : pos - 2 < sig.length)
    (hlen : pos + len ≤ sig.length) : (checkInteger sig pos len).isSome = true := by
  simp only [checkInteger, isSome_bind, isSome_ite, isSome_getElem?]
  -- each read is inside: the tag by `h2`, the integer's bytes by `hlen`
  grind

/-- `IsValidSignatureEncoding` never reads outside the signature: each index it computes is
inside once the checks before the read have passed. -/
theorem isValidSignatureEncoding_isSome (sig : List UInt8) :
    (isValidSignatureEncoding sig).isSome = true := by
  simp only [isValidSignatureEncoding, isSome_bind, isSome_ite, isSome_getElem?]
  grind [checkInteger_isSome]

-- ---------------------------------------------------------------------------
-- What the check accepts
-- ---------------------------------------------------------------------------

theorem ite_pure_false_eq_some_true {c : Prop} [Decidable c] {r : Option Bool} :
    (if c then (pure false : Option Bool) else r) = some true ↔ ¬c ∧ r = some true := by
  by_cases hc : c <;> simp [hc]

/-- Everything an accepted signature satisfies, read by read, and conversely. -/
theorem isValidSignatureEncoding_eq_true_iff {sig : List UInt8} :
    isValidSignatureEncoding sig = some true ↔
      9 ≤ sig.length ∧ sig.length ≤ 73 ∧ sig[0]? = some 0x30 ∧
      ∃ b d f, sig[1]? = some b ∧ b.toNat = sig.length - 3 ∧ sig[3]? = some d ∧
        5 + d.toNat < sig.length ∧ sig[5 + d.toNat]? = some f ∧
        d.toNat + f.toNat + 7 = sig.length ∧ checkInteger sig 4 d.toNat = some true ∧
        checkInteger sig (d.toNat + 6) f.toNat = some true := by
  simp only [isValidSignatureEncoding, ite_pure_false_eq_some_true, bind,
    Option.bind_eq_some_iff]
  constructor
  · rintro ⟨h9, h73, a, h0, ha, b, h1, hb, d, h3, hd, f, h5, hf, c, hR, hc, hS⟩
    simp only [ne_eq, Decidable.not_not] at ha
    simp only [Bool.not_eq_true', Bool.not_eq_false] at hc
    subst ha hc
    exact ⟨by omega, by omega, h0, b, d, f, h1, by omega, h3, by omega, h5, by omega, hR, hS⟩
  · rintro ⟨h9, h73, h0, b, d, f, h1, hb, h3, hd, h5, hf, hR, hS⟩
    exact ⟨by omega, by omega, 0x30, h0, by simp, b, h1, by omega, d, h3, by omega, f, h5,
      by omega, true, hR, by simp, hS⟩

/-- A signature of strict integers in at most `73` bytes passes the check. -/
theorem isValidSignatureEncoding_derSignature {R S : List UInt8} (h : UInt8)
    (hR : IsStrictInt R) (hS : IsStrictInt S) (hlen : (derSignature R S h).length ≤ 73) :
    isValidSignatureEncoding (derSignature R S h) = some true := by
  have hn := length_derSignature R S h
  have hRpos := hR.length_pos
  have hSpos := hS.length_pos
  -- the three length bytes hold their lengths: all are below `73`
  have hL : (UInt8.ofNat (R.length + S.length + 4)).toNat = R.length + S.length + 4 :=
    UInt8.toNat_ofNat_of_lt' (by simp only [UInt8.size]; omega)
  have hlR : (UInt8.ofNat R.length).toNat = R.length :=
    UInt8.toNat_ofNat_of_lt' (by simp only [UInt8.size]; omega)
  have hlS : (UInt8.ofNat S.length).toNat = S.length :=
    UInt8.toNat_ofNat_of_lt' (by simp only [UInt8.size]; omega)
  -- the integers as the fields `checkInteger` reads
  have hRfield : checkInteger (derSignature R S h) 4 R.length = some true :=
    (checkInteger_append [0x30, UInt8.ofNat (R.length + S.length + 4), 0x02,
      UInt8.ofNat R.length] R (0x02 :: UInt8.ofNat S.length :: (S ++ [h])) (by simp)).trans
      (by simp [hR])
  have hSfield : checkInteger (derSignature R S h) (R.length + 6) S.length = some true := by
    have hsplit : derSignature R S h = (0x30 :: UInt8.ofNat (R.length + S.length + 4) :: 0x02 ::
        UInt8.ofNat R.length :: (R ++ [0x02, UInt8.ofNat S.length])) ++ S ++ [h] := by
      simp [derSignature]
    rw [hsplit, show R.length + 6 = (0x30 :: UInt8.ofNat (R.length + S.length + 4) :: 0x02 ::
        UInt8.ofNat R.length :: (R ++ [0x02, UInt8.ofNat S.length])).length by simp,
      checkInteger_append _ _ _ (by simp)]
    simp [hS]
  refine isValidSignatureEncoding_eq_true_iff.mpr ⟨by omega, hlen, rfl,
    UInt8.ofNat (R.length + S.length + 4), UInt8.ofNat R.length, UInt8.ofNat S.length, rfl,
    by omega, rfl, by omega, ?_, by omega, by rw [hlR]; exact hRfield,
    by rw [hlR, hlS]; exact hSfield⟩
  rw [hlR]
  exact frame_getElem?_after ..

/-- An accepted signature is a DER signature of strict integers. -/
theorem eq_derSignature_of_isValidSignatureEncoding {sig : List UInt8}
    (hv : isValidSignatureEncoding sig = some true) :
    ∃ R S h, sig = derSignature R S h ∧ IsStrictInt R ∧ IsStrictInt S := by
  obtain ⟨-, -, h0, b, d, f, h1, hb, h3, -, h5, hf, hR, hS⟩ :=
    isValidSignatureEncoding_eq_true_iff.mp hv
  -- cut the signature where its two length bytes say
  obtain ⟨a', b', c', d', R, e', f', S, h, rfl, hRlen, hSlen⟩ :=
    exists_frame (m := d.toNat) (k := f.toNat) hf.symm
  simp only [List.getElem?_cons_zero, List.getElem?_cons_succ, Option.some.injEq] at h0 h1 h3
  subst h0 h1 h3
  rw [← hRlen, frame_getElem?_after, Option.some.injEq] at h5
  subst h5
  -- the tags and the integers, from the two element checks
  rw [← hRlen] at hR
  have hRtag := (checkInteger_append [0x30, b', c', d'] R (e' :: f' :: (S ++ [h]))
    (by simp)).symm.trans hR
  have hsplit : 0x30 :: b' :: c' :: d' :: (R ++ e' :: f' :: (S ++ [h])) =
      (0x30 :: b' :: c' :: d' :: (R ++ [e', f'])) ++ S ++ [h] := by
    simp
  rw [hsplit, ← hSlen, ← hRlen,
    show R.length + 6 = (0x30 :: b' :: c' :: d' :: (R ++ [e', f'])).length by simp,
    checkInteger_append _ _ _ (by simp)] at hS
  simp only [Option.some.injEq, decide_eq_true_eq] at hRtag hS
  obtain ⟨hc, hRstrict⟩ := hRtag
  obtain ⟨he, hSstrict⟩ := hS
  simp only [List.length_cons, List.length_nil] at hc he
  rw [show (R ++ [e', f']).length + 1 + 1 + 1 + 1 - 2 = R.length + 1 + 1 + 1 + 1 by simp] at he
  simp at hc he
  -- the length bytes are the lengths, which fit in a byte
  simp only [List.length_cons, List.length_append, List.length_nil] at hb
  have hb' : b' = UInt8.ofNat (R.length + S.length + 4) := by
    rw [← UInt8.ofNat_toNat (x := b'), hb]
    congr 1
  have hd' : d' = UInt8.ofNat R.length := by rw [hRlen, UInt8.ofNat_toNat]
  have hf' : f' = UInt8.ofNat S.length := by rw [hSlen, UInt8.ofNat_toNat]
  subst hc he hb' hd' hf'
  exact ⟨R, S, h, rfl, hRstrict, hSstrict⟩

end Riecoin.Script
