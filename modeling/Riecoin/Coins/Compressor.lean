-- SUMMARY: compressor.cpp: amount compression, the special scripts (P2PKH, P2SH, P2PK) and ScriptCompression and TxOutCompression, with their round trips under the key-decompression assumption.
import Riecoin.Serialize.Integers
import Riecoin.Script.Solver
import Riecoin.Coins.Coin

/-!
# Compressed outputs

The undo data stores each spent output compressed (`compressor.h`). The amount is
rewritten so that round amounts are short (`CompressAmount`) and written as a `VarInt`.
A script of one of six special forms (a P2PKH or P2SH script, a P2PK script with a
compressed key or with an uncompressed key that is fully valid) is written as its type,
`0` to `5`, and 20 or 32 bytes; any other script as its size plus six, as a `VarInt`, and
its bytes. A script longer than `MAX_SCRIPT_SIZE` is read back as `OP_RETURN`.

An uncompressed key is stored as its `x` coordinate and the parity of `y`, and read back by
`CPubKey::Decompress`, which computes `y` on the curve (`libsecp256k1`). The key
operations are parameters (`PubKeyOps`), and the round trip of such a script assumes that
decompressing gives back every fully valid key (`PubKeyOps.DecompressInverts`).

`scriptCompression_readsBack` and `txOutCompression_readsBack` are the round trips: exact
for every script of at most `MAX_SCRIPT_SIZE` bytes and every amount in `[0, MAX_MONEY]`.
-/

namespace Riecoin

open Codec

-- ---------------------------------------------------------------------------
-- Amounts
-- ---------------------------------------------------------------------------

/-- `COIN`. -/
def COIN : Int := 100000000

/-- `MAX_MONEY`. -/
def MAX_MONEY : Int := 84000000 * COIN

/-- `MoneyRange`. -/
def MoneyRange (nValue : Int) : Bool := nValue ≥ 0 && nValue ≤ MAX_MONEY

/-- A `CAmount` passed as a `uint64_t`: two's complement. -/
def amountToUInt64 (v : Int) : Nat := (v % 2 ^ 64).toNat

/-- A `uint64_t` stored into a `CAmount`. -/
def uint64ToAmount (x : Nat) : Int := if x < 2 ^ 63 then x else x - 2 ^ 64

/-- The loop of `CompressAmount`: divide out trailing decimal zeros, at most nine. -/
def compressAmountStrip (n e : Nat) : Nat × Nat :=
  if n % 10 = 0 ∧ e < 9 then compressAmountStrip (n / 10) (e + 1) else (n, e)
termination_by 9 - e

/-- `CompressAmount`, in `uint64_t` arithmetic. With `e < 9` the last digit `d` left is
not zero and is folded in with the rest `n`; with nine zeros divided out, only `n` is
kept. -/
def compressAmount (n : Nat) : Nat :=
  if n = 0 then 0
  else
    match compressAmountStrip n 0 with
    | (n, e) =>
      if e < 9 then
        let d := n % 10
        (1 + (n / 10 * 9 + d - 1) * 10 + e) % 2 ^ 64
      else (1 + (n - 1) * 10 + 9) % 2 ^ 64

/-- The loop of `DecompressAmount`: multiply by ten `e` times, in `uint64_t`. -/
def decompressAmountLoop : Nat → Nat → Nat
  | 0, n => n
  | e + 1, n => decompressAmountLoop e (n * 10 % 2 ^ 64)

/-- `DecompressAmount`, in `uint64_t` arithmetic. -/
def decompressAmount (x : Nat) : Nat :=
  if x = 0 then 0
  else
    let x := x - 1
    let e := x % 10
    let x := x / 10
    let n :=
      if e < 9 then
        let d := x % 9 + 1
        (x / 9 * 10 + d) % 2 ^ 64
      else (x + 1) % 2 ^ 64
    decompressAmountLoop e n

theorem compressAmountStrip_spec :
    ∀ (n e : Nat), n ≠ 0 → e ≤ 9 →
      (compressAmountStrip n e).1 * 10 ^ (compressAmountStrip n e).2 = n * 10 ^ e ∧
        (compressAmountStrip n e).2 ≤ 9 ∧
        ((compressAmountStrip n e).2 < 9 → (compressAmountStrip n e).1 % 10 ≠ 0) ∧
        (compressAmountStrip n e).1 ≠ 0 := by
  intro n e
  induction n, e using compressAmountStrip.induct with
  | case1 n e hstep ih =>
    intro hn he
    rw [compressAmountStrip, if_pos hstep]
    obtain ⟨hval, hle, hlast, hne⟩ := ih (by omega) (by omega)
    refine ⟨?_, hle, hlast, hne⟩
    rw [hval, Nat.pow_succ, ← Nat.mul_assoc, Nat.mul_right_comm,
      Nat.div_mul_cancel (Nat.dvd_of_mod_eq_zero hstep.1)]
  | case2 n e hstop =>
    intro hn he
    rw [compressAmountStrip, if_neg hstop]
    exact ⟨rfl, he, fun h => fun h0 => hstop ⟨h0, h⟩, hn⟩

theorem decompressAmountLoop_eq : ∀ (e n : Nat), n < 2 ^ 64 →
    decompressAmountLoop e n = n * 10 ^ e % 2 ^ 64
  | 0, n, hn => by rw [decompressAmountLoop, Nat.pow_zero, Nat.mul_one, Nat.mod_eq_of_lt hn]
  | e + 1, n, _ => by
    rw [decompressAmountLoop, decompressAmountLoop_eq e _ (Nat.mod_lt _ (by decide)),
      Nat.mod_mul_mod, show 10 ^ (e + 1) = 10 * 10 ^ e from Nat.pow_succ', Nat.mul_assoc]

/-- `DecompressAmount` undoes `CompressAmount` on every amount that `uint64_t` arithmetic
cannot overflow on the way, in particular on every amount up to `MAX_MONEY`. -/
theorem decompressAmount_compressAmount {n : Nat} (hn : 9 * n + 90 ≤ 2 ^ 64) :
    decompressAmount (compressAmount n) = n := by
  by_cases h0 : n = 0
  · subst h0
    rfl
  unfold compressAmount
  rw [if_neg h0]
  obtain ⟨hval, hle, hlast, hne⟩ := compressAmountStrip_spec n 0 h0 (by decide)
  generalize compressAmountStrip n 0 = r at hval hle hlast hne
  obtain ⟨m, e⟩ := r
  simp only [Nat.pow_zero, Nat.mul_one] at hval hle hlast hne
  -- the stripped number and its exponent put the amount back
  have hm : m ≤ n := by
    rw [← hval]
    exact Nat.le_mul_of_pos_right m (Nat.pow_pos (by decide))
  dsimp only
  by_cases he : e < 9
  · rw [if_pos he]
    have hd := hlast he
    have hcode : 1 + (m / 10 * 9 + m % 10 - 1) * 10 + e < 2 ^ 64 := by omega
    rw [Nat.mod_eq_of_lt hcode, decompressAmount, if_neg (by omega)]
    have hx : (1 + (m / 10 * 9 + m % 10 - 1) * 10 + e - 1) % 10 = e := by omega
    have hq : (1 + (m / 10 * 9 + m % 10 - 1) * 10 + e - 1) / 10 = m / 10 * 9 + m % 10 - 1 := by
      omega
    simp only [hx, hq, if_pos he]
    have hdigit : (m / 10 * 9 + m % 10 - 1) % 9 + 1 = m % 10 := by omega
    have hrest : (m / 10 * 9 + m % 10 - 1) / 9 = m / 10 := by omega
    rw [hdigit, hrest, show m / 10 * 10 + m % 10 = m by omega, Nat.mod_eq_of_lt (by omega),
      decompressAmountLoop_eq e m (by omega), hval, Nat.mod_eq_of_lt (by omega)]
  · rw [if_neg he]
    have he9 : e = 9 := by omega
    subst he9
    have hcode : 1 + (m - 1) * 10 + 9 < 2 ^ 64 := by omega
    rw [Nat.mod_eq_of_lt hcode, decompressAmount, if_neg (by omega)]
    have hx : (1 + (m - 1) * 10 + 9 - 1) % 10 = 9 := by omega
    have hq : (1 + (m - 1) * 10 + 9 - 1) / 10 = m - 1 := by omega
    simp only [hx, hq, if_neg (by decide : ¬(9 < 9))]
    rw [show m - 1 + 1 = m by omega, Nat.mod_eq_of_lt (by omega),
      decompressAmountLoop_eq 9 m (by omega), hval, Nat.mod_eq_of_lt (by omega)]

/-- The amount a code denotes, by the formula of the comment above `CompressAmount`, in
exact arithmetic: where this is below `2 ^ 64`, `DecompressAmount` computes it without
overflow. -/
def decompressAmountExact (x : Nat) : Nat :=
  if x = 0 then 0
  else
    let e := (x - 1) % 10
    let q := (x - 1) / 10
    (if e < 9 then q / 9 * 10 + (q % 9 + 1) else q + 1) * 10 ^ e

/-- Stripping the zeros of `m * 10 ^ k` gives back `m` and `k`, when `m` has no trailing zero
or the strip stops at nine. -/
theorem compressAmountStrip_mul_pow (m : Nat) (hm : m ≠ 0) :
    ∀ k e, k + e ≤ 9 → (k + e < 9 → m % 10 ≠ 0) →
      compressAmountStrip (m * 10 ^ k) e = (m, k + e)
  | 0, e, _, hlast => by
    rw [Nat.pow_zero, Nat.mul_one, compressAmountStrip, if_neg (fun h => hlast (by omega) h.1),
      Nat.zero_add]
  | k + 1, e, hle, hlast => by
    have hdiv : m * 10 ^ (k + 1) / 10 = m * 10 ^ k := by
      rw [Nat.pow_succ, ← Nat.mul_assoc, Nat.mul_div_cancel _ (by decide)]
    have hmod : m * 10 ^ (k + 1) % 10 = 0 := by
      rw [Nat.pow_succ, ← Nat.mul_assoc, Nat.mul_mod_left]
    rw [compressAmountStrip, if_pos ⟨hmod, by omega⟩, hdiv,
      compressAmountStrip_mul_pow m hm k (e + 1) (by omega) (fun h => hlast (by omega))]
    congr 1
    omega

/-- Without overflow, `DecompressAmount` is the denoted amount. -/
theorem decompressAmount_eq_exact {x : Nat} (hx : decompressAmountExact x < 2 ^ 64) :
    decompressAmount x = decompressAmountExact x := by
  unfold decompressAmount decompressAmountExact at *
  by_cases h0 : x = 0
  · rw [if_pos h0, if_pos h0]
  rw [if_neg h0] at hx
  rw [if_neg h0, if_neg h0]
  dsimp only at hx ⊢
  generalize (x - 1) % 10 = e at hx ⊢
  generalize (x - 1) / 10 = q at hx ⊢
  -- the number before the trailing zeros is at most the amount, so neither overflows
  have hpow : 1 ≤ 10 ^ e := Nat.one_le_pow _ _ (by decide)
  by_cases he : e < 9
  · rw [if_pos he] at hx
    rw [if_pos he, if_pos he]
    have hm : q / 9 * 10 + (q % 9 + 1) < 2 ^ 64 :=
      Nat.lt_of_le_of_lt (Nat.le_mul_of_pos_right _ hpow) hx
    rw [Nat.mod_eq_of_lt hm, decompressAmountLoop_eq e _ hm, Nat.mod_eq_of_lt hx]
  · rw [if_neg he] at hx
    rw [if_neg he, if_neg he]
    have hm : q + 1 < 2 ^ 64 := Nat.lt_of_le_of_lt (Nat.le_mul_of_pos_right _ hpow) hx
    rw [Nat.mod_eq_of_lt hm, decompressAmountLoop_eq e _ hm, Nat.mod_eq_of_lt hx]

/-- `CompressAmount` gives back every code from the amount it denotes. -/
theorem compressAmount_decompressAmountExact {x : Nat} (hx : x < 2 ^ 64) :
    compressAmount (decompressAmountExact x) = x := by
  unfold decompressAmountExact
  by_cases h0 : x = 0
  · rw [if_pos h0, h0]
    rfl
  rw [if_neg h0]
  dsimp only
  have hx1 : x - 1 = (x - 1) / 10 * 10 + (x - 1) % 10 := (Nat.div_add_mod' _ _).symm
  generalize hq : (x - 1) / 10 = q at hx1
  generalize he : (x - 1) % 10 = e at hx1
  have he10 : e < 10 := he ▸ Nat.mod_lt _ (by decide)
  have hpos : 0 < 10 ^ e := Nat.pow_pos (by decide)
  unfold compressAmount
  by_cases he9 : e < 9
  · -- the last digit `q % 9 + 1` is not zero, so exactly `e` zeros are stripped
    rw [if_pos he9]
    have hm : q / 9 * 10 + (q % 9 + 1) ≠ 0 := by omega
    rw [if_neg (Nat.mul_ne_zero hm (Nat.pos_iff_ne_zero.mp hpos)),
      compressAmountStrip_mul_pow _ hm e 0 (by omega) (fun _ => by omega)]
    dsimp only
    rw [Nat.add_zero, if_pos he9]
    have hd : (q / 9 * 10 + (q % 9 + 1)) % 10 = q % 9 + 1 := by omega
    have hn : (q / 9 * 10 + (q % 9 + 1)) / 10 = q / 9 := by omega
    rw [hd, hn, Nat.mod_eq_of_lt (by omega)]
    omega
  · -- nine zeros are stripped whatever is left
    rw [if_neg he9]
    have he' : e = 9 := by omega
    rw [if_neg (Nat.mul_ne_zero (Nat.succ_ne_zero q) (Nat.pos_iff_ne_zero.mp hpos)), he',
      compressAmountStrip_mul_pow _ (Nat.succ_ne_zero q) 9 0 (by decide)
        (fun h => absurd h (by decide))]
    dsimp only
    rw [if_neg (by decide), Nat.mod_eq_of_lt (by omega)]
    omega

/-- A code denotes at most itself times `10 ^ 9`. -/
theorem decompressAmountExact_le (x : Nat) : decompressAmountExact x ≤ x * 10 ^ 9 := by
  unfold decompressAmountExact
  split
  · exact Nat.zero_le _
  · dsimp only
    have hpow : 10 ^ ((x - 1) % 10) ≤ 10 ^ 9 :=
      Nat.pow_le_pow_right (by decide) (by omega)
    refine Nat.mul_le_mul ?_ hpow
    split <;> omega

/-- `MAX_MONEY` is `8400000` with nine zeros: its code is `84000000`. -/
theorem compressAmount_MAX_MONEY : compressAmount MAX_MONEY.toNat = 84000000 := by
  have hmoney : MAX_MONEY.toNat = 8400000 * 10 ^ 9 := by decide
  rw [hmoney, compressAmount, if_neg (by decide),
    compressAmountStrip_mul_pow 8400000 (by decide) 9 0 (by decide) (by decide)]
  rfl

theorem compressAmount_lt (n : Nat) : compressAmount n < 2 ^ 64 := by
  unfold compressAmount
  split
  · exact Nat.pow_pos (by decide)
  · dsimp only
    split <;> exact Nat.mod_lt _ (Nat.pow_pos (by decide))

theorem amountToUInt64_of_nonneg {v : Int} (h0 : 0 ≤ v) (h : v < 2 ^ 64) :
    amountToUInt64 v = v.toNat := by
  rw [amountToUInt64, Int.emod_eq_of_lt h0 h]

theorem uint64ToAmount_toNat {v : Int} (h0 : 0 ≤ v) (h : v < 2 ^ 63) :
    uint64ToAmount v.toNat = v := by
  rw [uint64ToAmount, if_pos (by omega)]
  omega

-- ---------------------------------------------------------------------------
-- Special scripts
-- ---------------------------------------------------------------------------

/-- The key operations of `CPubKey` that compression uses, computed by `libsecp256k1`. -/
structure PubKeyOps where
  /-- `CPubKey::IsFullyValid` of a serialized key. -/
  isFullyValid : List UInt8 → Bool
  /-- `CPubKey::Decompress` of a serialized key: its uncompressed serialization, or `none`
  when it is not a valid key. -/
  decompress : List UInt8 → Option (List UInt8)

/-- The compressed serialization of an uncompressed key `04 x y`: `02` or `03` by the
parity of `y`, then `x`. -/
def compressedKey (key : List UInt8) : List UInt8 :=
  (2 + (key.getD 64 0 &&& 1)) :: (key.drop 1).take 32

/-- The assumption on `libsecp256k1`: decompression gives back every fully valid
uncompressed key from its compressed serialization. -/
def PubKeyOps.DecompressInverts (pk : PubKeyOps) : Prop :=
  ∀ key : List UInt8, key.length = 65 → key[0]? = some 0x04 → pk.isFullyValid key = true →
    pk.decompress (compressedKey key) = some key

/-- `ScriptCompression::nSpecialScripts`. -/
def nSpecialScripts : Nat := 6

/-- `IsToKeyID`: the same test as `MatchPayToPubkeyHash`. -/
def isToKeyID (script : List UInt8) : Option (List UInt8) :=
  matchPayToPubkeyHash script

/-- `IsToScriptID`: the test of `IsPayToScriptHash`, and the hash. -/
def isToScriptID (script : List UInt8) : Option (List UInt8) :=
  if isPayToScriptHash script then some ((script.drop 2).take 20) else none

/-- `IsToPubKey`: the key of a P2PK script with a compressed key, or with an uncompressed
key that is fully valid (the one an invalid key could not be compressed from). -/
def isToPubKey (pk : PubKeyOps) (script : List UInt8) : Option (List UInt8) :=
  if script.length = 35 ∧ script[0]? = some 33 ∧ script[34]? = some OP_CHECKSIG ∧
      (script[1]? = some 0x02 ∨ script[1]? = some 0x03) then
    some ((script.drop 1).take 33)
  else if script.length = 67 ∧ script[0]? = some 65 ∧ script[66]? = some OP_CHECKSIG ∧
      script[1]? = some 0x04 then
    let pubkey := (script.drop 1).take 65
    if pk.isFullyValid pubkey then some pubkey else none
  else none

/-- `CompressScript`: the type byte, then the hash or the `x` coordinate of the key. -/
def compressScript (pk : PubKeyOps) (script : List UInt8) : Option (List UInt8) :=
  match isToKeyID script with
  | some hash => some (0x00 :: hash)
  | none =>
    match isToScriptID script with
    | some hash => some (0x01 :: hash)
    | none =>
      match isToPubKey pk script with
      | some pubkey =>
        if pubkey[0]? = some 0x02 ∨ pubkey[0]? = some 0x03 then
          some (pubkey.getD 0 0 :: (pubkey.drop 1).take 32)
        else if pubkey[0]? = some 0x04 then
          some ((0x04 ||| (pubkey.getD 64 0 &&& 0x01)) :: (pubkey.drop 1).take 32)
        else none
      | none => none

/-- `GetSpecialScriptSize`. -/
def getSpecialScriptSize (nSize : Nat) : Nat :=
  if nSize = 0 ∨ nSize = 1 then 20
  else if nSize = 2 ∨ nSize = 3 ∨ nSize = 4 ∨ nSize = 5 then 32
  else 0

/-- `DecompressScript`: the script of type `nSize` from its stored bytes; `none` where the
source returns `false`. -/
def decompressScript (pk : PubKeyOps) (nSize : Nat) (input : List UInt8) : Option (List UInt8) :=
  if nSize = 0x00 then
    some ([OP_DUP, OP_HASH160, 20] ++ input.take 20 ++ [OP_EQUALVERIFY, OP_CHECKSIG])
  else if nSize = 0x01 then some ([OP_HASH160, 20] ++ input.take 20 ++ [OP_EQUAL])
  else if nSize = 0x02 ∨ nSize = 0x03 then
    some ([33, UInt8.ofNat nSize] ++ input.take 32 ++ [OP_CHECKSIG])
  else if nSize = 0x04 ∨ nSize = 0x05 then
    match pk.decompress (UInt8.ofNat (nSize - 2) :: input.take 32) with
    | some pubkey => some ([65] ++ pubkey ++ [OP_CHECKSIG])
    | none => none
  else none

/-- A P2PK script that `IsToPubKey` accepts: the push of the key and `OP_CHECKSIG`, with a
compressed key or a fully valid uncompressed one. -/
theorem isToPubKey_eq_some {pk : PubKeyOps} {script pubkey : List UInt8}
    (h : isToPubKey pk script = some pubkey) :
    script = [UInt8.ofNat pubkey.length] ++ pubkey ++ [OP_CHECKSIG] ∧
      ((pubkey.length = 33 ∧ (pubkey[0]? = some 0x02 ∨ pubkey[0]? = some 0x03)) ∨
        (pubkey.length = 65 ∧ pubkey[0]? = some 0x04 ∧ pk.isFullyValid pubkey = true)) := by
  unfold isToPubKey at h
  split at h
  · next hs =>
    obtain ⟨hlen, h0, h34, h1⟩ := hs
    cases h
    have hkey : ((script.drop 1).take 33).length = 33 := by simp [hlen]
    have hshape := @eq_template script [33] [OP_CHECKSIG] 33 (by simp [hlen])
      (fun i hi => by
        match i, hi with
        | 0, _ => exact h0)
      (fun i hi => by
        match i, hi with
        | 0, _ => exact h34)
    refine ⟨by rw [hkey]; exact hshape, .inl ⟨hkey, ?_⟩⟩
    simpa using h1
  · split at h
    · next hs =>
      obtain ⟨hlen, h0, h66, h1⟩ := hs
      dsimp only at h
      split at h
      · next hvalid =>
        cases h
        have hkey : ((script.drop 1).take 65).length = 65 := by simp [hlen]
        have hshape := @eq_template script [65] [OP_CHECKSIG] 65 (by simp [hlen])
          (fun i hi => by
            match i, hi with
            | 0, _ => exact h0)
          (fun i hi => by
            match i, hi with
            | 0, _ => exact h66)
        refine ⟨by rw [hkey]; exact hshape, .inr ⟨hkey, by simpa using h1, hvalid⟩⟩
      · cases h
    · cases h

/-- The type byte of an uncompressed key: `4` or `5`, and two more than the first byte
of its compressed serialization. -/
theorem uncompressed_type_byte (b : UInt8) :
    ((0x04 ||| (b &&& 0x01)).toNat = 4 ∨ (0x04 ||| (b &&& 0x01)).toNat = 5) ∧
      UInt8.ofNat ((0x04 ||| (b &&& 0x01)).toNat - 2) = 2 + (b &&& 1) := by
  have hbit : b &&& 1 = 0 ∨ b &&& 1 = 1 := by
    have h : (b &&& 1).toNat = b.toNat % 2 := by
      rw [UInt8.toNat_and, show UInt8.toNat 1 = 1 from rfl, Nat.and_one_is_mod]
    rcases Nat.mod_two_eq_zero_or_one b.toNat with h2 | h2
    · exact .inl (UInt8.toNat_inj.mp (by rw [h, h2]; rfl))
    · exact .inr (UInt8.toNat_inj.mp (by rw [h, h2]; rfl))
  rcases hbit with hbit | hbit <;> rw [hbit] <;> decide

/-- What `CompressScript` writes is a type below `nSpecialScripts`, then as many bytes as
that type has, from which `DecompressScript` rebuilds the script. -/
theorem compressScript_eq_some {pk : PubKeyOps} (hinv : pk.DecompressInverts)
    {script compr : List UInt8} (h : compressScript pk script = some compr) :
    ∃ nSize payload, compr = UInt8.ofNat nSize :: payload ∧ nSize < nSpecialScripts ∧
      payload.length = getSpecialScriptSize nSize ∧ decompressScript pk nSize payload = some script := by
  unfold compressScript at h
  split at h
  · -- P2PKH
    next hash hkey =>
    cases h
    obtain ⟨hlen, hshape⟩ := matchPayToPubkeyHash_eq_some hkey
    refine ⟨0, hash, rfl, by decide, by rw [hlen]; rfl, ?_⟩
    rw [decompressScript, if_pos rfl, hshape, pushData_of_lt (by omega), hlen,
      List.take_of_length_le (by omega)]
    rfl
  · split at h
    · -- P2SH
      next hash hid =>
      cases h
      unfold isToScriptID at hid
      split at hid
      · next hp2sh =>
        cases hid
        obtain ⟨hlen, hshape⟩ := isPayToScriptHash_eq_true hp2sh
        refine ⟨1, _, rfl, by decide, by rw [hlen]; rfl, ?_⟩
        rw [decompressScript, if_neg (by decide), if_pos rfl, List.take_of_length_le (by omega)]
        conv => rhs; rw [hshape, pushData_of_lt (by omega), hlen]
        rfl
      · cases hid
    · split at h
      · -- P2PK
        next pubkey hpub =>
        obtain ⟨hshape, hkind⟩ := isToPubKey_eq_some hpub
        rcases hkind with ⟨hlen, hfirst⟩ | ⟨hlen, hfirst, hvalid⟩
        · -- a compressed key is stored as it is
          rw [if_pos hfirst] at h
          cases h
          obtain ⟨b, rest, rfl⟩ : ∃ b rest, pubkey = b :: rest := by
            cases pubkey with
            | nil => cases hlen
            | cons b rest => exact ⟨b, rest, rfl⟩
          simp only [List.length_cons] at hlen
          simp only [List.getElem?_cons_zero, Option.some.injEq] at hfirst
          have hb : b.toNat = 2 ∨ b.toNat = 3 := by
            rcases hfirst with rfl | rfl <;> decide
          have hrest : rest.length = 32 := by omega
          refine ⟨b.toNat, rest, by simp [List.take_of_length_le (Nat.le_of_eq hrest)],
            by rw [nSpecialScripts]; omega, ?_, ?_⟩
          · rw [hrest]
            rcases hb with hb | hb <;> simp [getSpecialScriptSize, hb]
          · rw [decompressScript, if_neg (by omega), if_neg (by omega), if_pos (by omega),
              List.take_of_length_le (by omega), hshape, UInt8.ofNat_toNat]
            simp [hrest]
        · -- an uncompressed key is stored as its `x` and the parity of `y`
          have hnot : ¬(pubkey[0]? = some 0x02 ∨ pubkey[0]? = some 0x03) := by
            rw [hfirst]
            decide
          rw [if_neg hnot, if_pos hfirst] at h
          cases h
          obtain ⟨htype, hfirstbyte⟩ := uncompressed_type_byte (pubkey.getD 64 0)
          have hpayload : ((pubkey.drop 1).take 32).length = 32 := by simp [hlen]
          refine ⟨(0x04 ||| (pubkey.getD 64 0 &&& 0x01)).toNat, (pubkey.drop 1).take 32,
            by rw [UInt8.ofNat_toNat], by rw [nSpecialScripts]; omega, ?_, ?_⟩
          · rcases htype with htype | htype <;> rw [hpayload, htype] <;> rfl
          · rw [decompressScript, if_neg (by omega), if_neg (by omega), if_neg (by omega),
              if_pos (by omega), List.take_of_length_le (by omega), hfirstbyte]
            have hdec : pk.decompress (compressedKey pubkey) = some pubkey :=
              hinv pubkey hlen hfirst hvalid
            rw [compressedKey] at hdec
            rw [hdec, hshape, hlen]
            rfl
      · cases h

-- ---------------------------------------------------------------------------
-- ScriptCompression and TxOutCompression
-- ---------------------------------------------------------------------------

/-- `ScriptCompression::Ser`: a special script compressed, any other as its size plus
`nSpecialScripts` (an `unsigned int`) and its bytes. -/
def scriptCompressionSer (pk : PubKeyOps) (script : List UInt8) : List UInt8 :=
  match compressScript pk script with
  | some compr => compr
  | none => writeVarInt ((script.length + nSpecialScripts) % 2 ^ 32) ++ script

/-- `ScriptCompression::Unser` into a new script. A special script that does not
decompress is left empty; an overly long one is skipped and replaced by `OP_RETURN`. -/
def scriptCompressionUnser (pk : PubKeyOps) : Reader (List UInt8) := do
  let nSize ← readVarInt 32
  if nSize < nSpecialScripts then
    let vch ← readBytes (getSpecialScriptSize nSize)
    pure ((decompressScript pk nSize vch).getD [])
  else
    let nSize := nSize - nSpecialScripts
    if nSize > MAX_SCRIPT_SIZE then
      let _ ← readBytes nSize
      pure [OP_RETURN]
    else readBytes nSize

/-- `ScriptCompression` reads back every script of at most `MAX_SCRIPT_SIZE` bytes. -/
theorem scriptCompression_readsBack {pk : PubKeyOps} (hinv : pk.DecompressInverts)
    {script : List UInt8} (hlen : script.length ≤ MAX_SCRIPT_SIZE) :
    ReadsBack (scriptCompressionUnser pk) (scriptCompressionSer pk script) script := by
  unfold scriptCompressionSer scriptCompressionUnser
  split
  · -- a special script: its type is a one-byte `VarInt`
    next compr hcompr =>
    obtain ⟨nSize, payload, rfl, hlt, hpay, hdec⟩ := compressScript_eq_some hinv hcompr
    have hsmall : nSize ≤ 0x7F := by
      rw [nSpecialScripts] at hlt
      omega
    rw [show UInt8.ofNat nSize :: payload = writeVarInt nSize ++ payload by
      rw [writeVarInt_small hsmall, List.singleton_append]]
    refine (readVarInt_readsBack (by omega)).bind ?_
    rw [if_pos hlt]
    refine (readBytes_readsBack hpay).bind_end ?_
    rw [hdec]
    exact ReadsBack.pure script
  · -- any other script: its size is offset past the special types
    have hsize : script.length + nSpecialScripts < 2 ^ 32 := by
      rw [nSpecialScripts]
      rw [MAX_SCRIPT_SIZE] at hlen
      omega
    rw [Nat.mod_eq_of_lt hsize]
    refine (readVarInt_readsBack hsize).bind ?_
    rw [if_neg (by omega), Nat.add_sub_cancel, if_neg (by omega)]
    exact readBytes_readsBack rfl

/-- A script longer than any special one is not compressed. -/
theorem compressScript_of_long {pk : PubKeyOps} {script : List UInt8} (h : 67 < script.length) :
    compressScript pk script = none := by
  have hkey : isToKeyID script = none := by
    rw [isToKeyID, matchPayToPubkeyHash, if_neg (fun hs => by omega)]
  have hsh : isToScriptID script = none := by
    rw [isToScriptID, if_neg]
    simp [isPayToScriptHash, show script.length ≠ 23 by omega]
  have hpub : isToPubKey pk script = none := by
    rw [isToPubKey, if_neg (fun hs => by omega), if_neg (fun hs => by omega)]
  rw [compressScript, hkey]
  dsimp only
  rw [hsh]
  dsimp only
  rw [hpub]

/-- A script longer than `MAX_SCRIPT_SIZE` reads back as `OP_RETURN`, its bytes skipped.
Its size plus `nSpecialScripts` fits the `unsigned int` it is written as: a `CScript` is a
`prevector<36, uint8_t>`, whose `uint32_t` size field holds the size plus `37` when the
bytes are on the heap. -/
theorem scriptCompression_readsBack_long {pk : PubKeyOps} {script : List UInt8}
    (hlong : MAX_SCRIPT_SIZE < script.length) (hmax : script.length ≤ 2 ^ 32 - 38) :
    ReadsBack (scriptCompressionUnser pk) (scriptCompressionSer pk script) [OP_RETURN] := by
  have hsize : script.length + nSpecialScripts < 2 ^ 32 := by
    rw [nSpecialScripts]
    omega
  unfold scriptCompressionSer scriptCompressionUnser
  rw [compressScript_of_long (by rw [MAX_SCRIPT_SIZE] at hlong; omega)]
  dsimp only
  rw [Nat.mod_eq_of_lt hsize]
  refine (readVarInt_readsBack hsize).bind ?_
  rw [if_neg (by omega), Nat.add_sub_cancel, if_pos hlong]
  exact (readBytes_readsBack rfl).bind_end (ReadsBack.pure _)

/-- `TxOutCompression::Ser`: the compressed amount as a `VarInt`, then the script. -/
def txOutCompressionSer (pk : PubKeyOps) (out : CTxOut) : List UInt8 :=
  writeVarInt (compressAmount (amountToUInt64 out.nValue)) ++ scriptCompressionSer pk out.scriptPubKey

/-- `TxOutCompression::Unser`: `AmountCompression` into a `uint64_t`, then the script. -/
def txOutCompressionUnser (pk : PubKeyOps) : Reader CTxOut := do
  let v ← readVarInt 64
  let nValue := uint64ToAmount (decompressAmount v)
  let scriptPubKey ← scriptCompressionUnser pk
  pure ⟨nValue, scriptPubKey⟩

/-- `TxOutCompression` reads back every output with an amount in `[0, MAX_MONEY]` and a
script of at most `MAX_SCRIPT_SIZE` bytes. -/
theorem txOutCompression_readsBack {pk : PubKeyOps} (hinv : pk.DecompressInverts) {out : CTxOut}
    (hv0 : 0 ≤ out.nValue) (hvmax : out.nValue ≤ MAX_MONEY)
    (hlen : out.scriptPubKey.length ≤ MAX_SCRIPT_SIZE) :
    ReadsBack (txOutCompressionUnser pk) (txOutCompressionSer pk out) out := by
  have hmoney : out.nValue ≤ 8400000000000000 := hvmax
  have hamount : decompressAmount (compressAmount (amountToUInt64 out.nValue)) = out.nValue.toNat := by
    rw [amountToUInt64_of_nonneg hv0 (by omega), decompressAmount_compressAmount (by omega)]
  unfold txOutCompressionSer txOutCompressionUnser
  rw [← List.append_nil (scriptCompressionSer pk out.scriptPubKey)]
  refine (readVarInt_readsBack (compressAmount_lt _)).bind ?_
  refine (scriptCompression_readsBack hinv hlen).bind ?_
  rw [hamount, uint64ToAmount_toNat hv0 (by omega)]
  exact ReadsBack.pure out

/-- `TxOutCompression` reads back every output with an amount in `[0, MAX_MONEY]`, with its
script when that is at most `MAX_SCRIPT_SIZE` bytes and with `OP_RETURN` otherwise. -/
theorem txOutCompression_readsBack_any {pk : PubKeyOps} (hinv : pk.DecompressInverts)
    {out : CTxOut} (hv0 : 0 ≤ out.nValue) (hvmax : out.nValue ≤ MAX_MONEY)
    (hmax : out.scriptPubKey.length ≤ 2 ^ 32 - 38) :
    ReadsBack (txOutCompressionUnser pk) (txOutCompressionSer pk out)
      (if out.scriptPubKey.length ≤ MAX_SCRIPT_SIZE then out else ⟨out.nValue, [OP_RETURN]⟩) := by
  by_cases hlen : out.scriptPubKey.length ≤ MAX_SCRIPT_SIZE
  · rw [if_pos hlen]
    exact txOutCompression_readsBack hinv hv0 hvmax hlen
  · rw [if_neg hlen]
    have hmoney : out.nValue ≤ 8400000000000000 := hvmax
    have hamount : decompressAmount (compressAmount (amountToUInt64 out.nValue)) =
        out.nValue.toNat := by
      rw [amountToUInt64_of_nonneg hv0 (by omega), decompressAmount_compressAmount (by omega)]
    unfold txOutCompressionSer txOutCompressionUnser
    rw [← List.append_nil (scriptCompressionSer pk out.scriptPubKey)]
    refine (readVarInt_readsBack (compressAmount_lt _)).bind ?_
    refine (scriptCompression_readsBack_long (Nat.lt_of_not_le hlen) hmax).bind ?_
    rw [hamount, uint64ToAmount_toNat hv0 (by omega)]
    exact ReadsBack.pure _

theorem compressAmount_txOut_round_trip :
    (∀ n : Nat, n ≤ MAX_MONEY.toNat → decompressAmount (compressAmount n) = n) ∧
    (∀ x : Nat, x < 2 ^ 64 → decompressAmountExact x < 2 ^ 64 →
      compressAmount (decompressAmount x) = x) ∧
    (∀ x : Nat, x ≤ compressAmount MAX_MONEY.toNat → compressAmount (decompressAmount x) = x) ∧
    (∀ pk : PubKeyOps, pk.DecompressInverts → ∀ out : CTxOut, 0 ≤ out.nValue →
      out.nValue ≤ MAX_MONEY → out.scriptPubKey.length ≤ 2 ^ 32 - 38 →
      ReadsBack (txOutCompressionUnser pk) (txOutCompressionSer pk out)
        (if out.scriptPubKey.length ≤ MAX_SCRIPT_SIZE then out else ⟨out.nValue, [OP_RETURN]⟩)) := by
  refine ⟨fun n hn => decompressAmount_compressAmount ?_, fun x hx hexact => ?_,
    fun x hx => ?_, fun pk hinv out hv0 hvmax hmax => txOutCompression_readsBack_any hinv hv0 hvmax hmax⟩
  · have hmoney : MAX_MONEY.toNat = 8400000000000000 := by decide
    omega
  · rw [decompressAmount_eq_exact hexact, compressAmount_decompressAmountExact hx]
  · -- a code up to that of `MAX_MONEY` denotes at most `84000000 * 10 ^ 9`
    rw [compressAmount_MAX_MONEY] at hx
    have hexact : decompressAmountExact x < 2 ^ 64 :=
      Nat.lt_of_le_of_lt (decompressAmountExact_le x) (by omega)
    rw [decompressAmount_eq_exact hexact, compressAmount_decompressAmountExact (by omega)]

/-- Key operations that find no key valid: the assumption on `libsecp256k1` holds vacuously. -/
def noValidKeys : PubKeyOps := ⟨fun _ => false, fun _ => none⟩

/-- A pay-to-pubkey-hash script with the zero key hash. -/
def zeroKeyHashScript : List UInt8 := [0x76, 0xa9, 20] ++ List.replicate 20 0 ++ [0x88, 0xac]

/-- One coin, the code 9, the code of `MAX_MONEY`, and a pay-to-pubkey-hash output of one coin. -/
theorem compressAmount_txOut_round_trip_coin :
    (COIN.toNat ≤ MAX_MONEY.toNat ∧ decompressAmount (compressAmount COIN.toNat) = COIN.toNat) ∧
    ((9 : Nat) < 2 ^ 64 ∧ decompressAmountExact 9 < 2 ^ 64 ∧ compressAmount (decompressAmount 9) = 9) ∧
    compressAmount (decompressAmount (compressAmount MAX_MONEY.toNat)) = compressAmount MAX_MONEY.toNat ∧
    (noValidKeys.DecompressInverts ∧ 0 ≤ COIN ∧ COIN ≤ MAX_MONEY ∧ zeroKeyHashScript.length ≤ 2 ^ 32 - 38 ∧
      ReadsBack (txOutCompressionUnser noValidKeys) (txOutCompressionSer noValidKeys ⟨COIN, zeroKeyHashScript⟩)
        (if zeroKeyHashScript.length ≤ MAX_SCRIPT_SIZE then ⟨COIN, zeroKeyHashScript⟩ else ⟨COIN, [OP_RETURN]⟩)) :=
  have hcoin : COIN.toNat ≤ MAX_MONEY.toNat := by decide
  have h9 : decompressAmountExact 9 < 2 ^ 64 := by decide
  have hinv : noValidKeys.DecompressInverts := fun _ _ _ h => absurd h Bool.false_ne_true
  ⟨⟨hcoin, compressAmount_txOut_round_trip.1 _ hcoin⟩, ⟨by decide, h9, compressAmount_txOut_round_trip.2.1 9 (by decide) h9⟩,
    compressAmount_txOut_round_trip.2.2.1 _ le_rfl,
    ⟨hinv, by decide, by decide, by decide,
      compressAmount_txOut_round_trip.2.2.2 noValidKeys hinv _ (by decide) (by decide) (by decide)⟩⟩

end Riecoin
