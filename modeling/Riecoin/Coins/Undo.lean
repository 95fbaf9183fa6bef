-- SUMMARY: undo.h: TxInUndoFormatter, CTxUndo and CBlockUndo, and the round trip of the undo data of a block.
import Riecoin.Coins.Compressor

/-!
# Undo data

The undo data of a block (`undo.h`) holds, for every transaction but the coinbase, the
coins its inputs spent. A coin is written as `nCode`, its height shifted left past the
coinbase flag, as a `VarInt`; then, for a coin with a height, a zero byte where older
versions wrote the version of the transaction; then its output, compressed. The lists
are vectors.

`blockUndo_readsBack` reads back the undo data of every block whose coins fit the format
(`Coin.FitsUndo`: a height within the 31 bits of `Coin::nHeight`, an amount in
`[0, MAX_MONEY]`, a script of at most `MAX_SCRIPT_SIZE` bytes) and whose lists have at
most `MAX_SIZE` items.
-/

namespace Riecoin

open Codec

-- ---------------------------------------------------------------------------
-- One spent coin
-- ---------------------------------------------------------------------------

/-- `nCode` of `TxInUndoFormatter`: the height and the coinbase flag, in a `uint32_t`. -/
def undoCode (txout : Coin) : UInt32 :=
  (txout.nHeight <<< 1) ||| (if txout.fCoinBase then 1 else 0)

/-- `TxInUndoFormatter::Ser`. -/
def txInUndoSer (pk : PubKeyOps) (txout : Coin) : List UInt8 :=
  writeVarInt (undoCode txout).toNat ++ (if txout.nHeight > 0 then [0] else []) ++
    txOutCompressionSer pk txout.out

/-- The `VARINT` that stands for the old transaction version, read only after a height. -/
def readVersionDummy (nHeight : UInt32) : Reader Nat :=
  if nHeight > 0 then readVarInt 32 else pure 0

/-- `TxInUndoFormatter::Unser` into a new coin. -/
def txInUndoUnser (pk : PubKeyOps) : Reader Coin := do
  let nCode ← readVarInt 32
  let nHeight := UInt32.ofNat (nCode >>> 1)
  let fCoinBase := nCode &&& 1 != 0
  let _ ← readVersionDummy nHeight
  let out ← txOutCompressionUnser pk
  pure ⟨out, fCoinBase, nHeight⟩

/-- The coins that the undo format writes exactly: a height that fits the bit-field
`Coin::nHeight`, an amount in `[0, MAX_MONEY]` and a script that `ScriptCompression`
reads back. -/
structure Coin.FitsUndo (coin : Coin) : Prop where
  height_lt : coin.nHeight.toNat < 2 ^ 31
  value_nonneg : 0 ≤ coin.out.nValue
  value_le : coin.out.nValue ≤ MAX_MONEY
  script_le : coin.out.scriptPubKey.length ≤ MAX_SCRIPT_SIZE

/-- A coin that fits the format has an amount, so it is unspent. -/
theorem Coin.FitsUndo.isSpent_eq_false {coin : Coin} (h : coin.FitsUndo) : coin.isSpent = false := by
  have hne : coin.out.nValue ≠ -1 := by
    have := h.value_nonneg
    omega
  simpa [Coin.isSpent, CTxOut.isNull] using hne

/-- `nCode` is twice the height plus the flag, when the height has 31 bits. -/
theorem undoCode_toNat {txout : Coin} (h : txout.nHeight.toNat < 2 ^ 31) :
    (undoCode txout).toNat = txout.nHeight.toNat <<< 1 + (if txout.fCoinBase then 1 else 0) := by
  have hshift : (txout.nHeight <<< 1).toNat = txout.nHeight.toNat <<< 1 := by
    rw [UInt32.toNat_shiftLeft, show (1 : UInt32).toNat % 32 = 1 from rfl, Nat.shiftLeft_eq,
      Nat.mod_eq_of_lt (by omega)]
  have hflag : (if txout.fCoinBase then (1 : UInt32) else 0).toNat =
      if txout.fCoinBase then 1 else 0 := by
    cases txout.fCoinBase <;> rfl
  rw [undoCode, UInt32.toNat_or, hshift, hflag, Nat.shiftLeft_add_eq_or_of_lt]
  cases txout.fCoinBase <;> decide

/-- The height and the flag come back out of `nCode`. -/
theorem undoCode_fields {txout : Coin} (h : txout.nHeight.toNat < 2 ^ 31) :
    UInt32.ofNat ((undoCode txout).toNat >>> 1) = txout.nHeight ∧
      ((undoCode txout).toNat &&& 1 != 0) = txout.fCoinBase := by
  have hflag : (if txout.fCoinBase then 1 else 0) < 2 := by
    cases txout.fCoinBase <;> decide
  rw [undoCode_toNat h, Nat.shiftLeft_eq, Nat.shiftRight_eq_div_pow, Nat.and_one_is_mod]
  refine ⟨?_, ?_⟩
  · rw [show (txout.nHeight.toNat * 2 ^ 1 + (if txout.fCoinBase then 1 else 0)) / 2 ^ 1 =
      txout.nHeight.toNat by omega, UInt32.ofNat_toNat]
  · cases txout.fCoinBase <;> simp

/-- A coin that fits the format reads back. -/
theorem txInUndo_readsBack {pk : PubKeyOps} (hinv : pk.DecompressInverts) {txout : Coin}
    (h : txout.FitsUndo) : ReadsBack (txInUndoUnser pk) (txInUndoSer pk txout) txout := by
  obtain ⟨hheight, hflag⟩ := undoCode_fields h.height_lt
  -- the dummy version reads the zero byte that stands after a height
  have hdummy : ReadsBack (readVersionDummy txout.nHeight) (if txout.nHeight > 0 then [0] else [])
      (if txout.nHeight > 0 then 0 else 0) := by
    unfold readVersionDummy
    split
    · rw [show ([0] : List UInt8) = writeVarInt 0 from (writeVarInt_small (by decide)).symm]
      exact readVarInt_readsBack (by decide)
    · exact ReadsBack.pure 0
  have hcode : (undoCode txout).toNat < 2 ^ 32 := UInt32.toNat_lt _
  unfold txInUndoSer txInUndoUnser
  rw [List.append_assoc, ← List.append_nil (txOutCompressionSer pk txout.out)]
  refine (readVarInt_readsBack hcode).bind ?_
  rw [hheight, hflag]
  refine hdummy.bind ((txOutCompression_readsBack hinv h.value_nonneg h.value_le h.script_le).bind ?_)
  exact ReadsBack.pure txout

-- ---------------------------------------------------------------------------
-- Transactions and blocks
-- ---------------------------------------------------------------------------

/-- `CTxUndo`: the coins spent by the inputs of a transaction, in the order of the inputs. -/
structure CTxUndo where
  vprevout : List Coin

/-- `CBlockUndo`: the undo data of every transaction of a block but the coinbase. -/
structure CBlockUndo where
  vtxundo : List CTxUndo

/-- `CTxUndo::Serialize`: a vector of coins by `TxInUndoFormatter`. -/
def txUndoSer (pk : PubKeyOps) (txundo : CTxUndo) : List UInt8 :=
  vectorSer (txInUndoSer pk) txundo.vprevout

def txUndoUnser (pk : PubKeyOps) : Reader CTxUndo :=
  CTxUndo.mk <$> vectorUnser (txInUndoUnser pk)

/-- `CBlockUndo::Serialize`: a vector of `CTxUndo`. -/
def blockUndoSer (pk : PubKeyOps) (blockundo : CBlockUndo) : List UInt8 :=
  vectorSer (txUndoSer pk) blockundo.vtxundo

def blockUndoUnser (pk : PubKeyOps) : Reader CBlockUndo :=
  CBlockUndo.mk <$> vectorUnser (txUndoUnser pk)

/-- The undo data the format writes exactly: vectors of at most `MAX_SIZE` items, and
coins that fit. -/
def CTxUndo.FitsUndo (txundo : CTxUndo) : Prop :=
  txundo.vprevout.length ≤ MAX_SIZE ∧ ∀ coin ∈ txundo.vprevout, coin.FitsUndo

def CBlockUndo.FitsUndo (blockundo : CBlockUndo) : Prop :=
  blockundo.vtxundo.length ≤ MAX_SIZE ∧ ∀ txundo ∈ blockundo.vtxundo, txundo.FitsUndo

theorem txUndo_readsBack {pk : PubKeyOps} (hinv : pk.DecompressInverts) {txundo : CTxUndo}
    (h : txundo.FitsUndo) : ReadsBack (txUndoUnser pk) (txUndoSer pk txundo) txundo :=
  (vectorUnser_readsBack h.1 fun coin hc => txInUndo_readsBack hinv (h.2 coin hc)).map

/-- The undo data of a block reads back from what is written, whatever follows it. -/
theorem blockUndo_readsBack {pk : PubKeyOps} (hinv : pk.DecompressInverts)
    {blockundo : CBlockUndo} (h : blockundo.FitsUndo) :
    ReadsBack (blockUndoUnser pk) (blockUndoSer pk blockundo) blockundo :=
  (vectorUnser_readsBack h.1 fun txundo ht => txUndo_readsBack hinv (h.2 txundo ht)).map

end Riecoin
