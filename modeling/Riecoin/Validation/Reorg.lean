-- SUMMARY: Connecting a block, writing its undo data and disconnecting it again puts back the coins it was connected on, when every coin it spends has a height; a coin without one makes it fail.
import Riecoin.Validation.Disconnect

/-!
# Connecting and disconnecting a block

A reorganisation disconnects blocks that were connected earlier. This module puts the
pieces together: `connectBlockCoins` of a block collects a `CBlockUndo`
(`connectBlockCoins_spec`), the undo data written for it reads back as the same
`CBlockUndo` (`blockUndo_readsBack`), and `disconnectBlock` with that data undoes the
transactions one by one (`disconnectTxs_spec`).

`BlockConnectable` gathers what the block must satisfy for all three: the conditions of
`BlockRevertible`, the coinbase as the first transaction and only there, coins and
amounts that fit the undo format, and sizes that the formats can count. Disconnecting then
also needs every coin the block spends from the set it was connected on to have a height:
the undo format writes a coin of height `0` as the legacy format did, without its
metadata, and `ApplyTxInUndo` then looks for another unspent output of its transaction,
which the block has just spent.
-/

namespace Riecoin

variable {base : COutPoint → Option Coin}

/-- A spendable script has at most `MAX_SCRIPT_SIZE` bytes. -/
theorem length_le_of_spendable {script : List UInt8} (h : isUnspendable script = false) :
    script.length ≤ MAX_SCRIPT_SIZE := by
  unfold isUnspendable at h
  simp only [Bool.or_eq_false_iff, decide_eq_false_iff_not] at h
  omega

/-- The conditions on a block and the UTXO set before it under which connecting the block
succeeds and its undo data reads back: a revertible block whose first transaction, and
only that one, is a coinbase, whose spent coins and new outputs fit the undo format, and
whose transactions, inputs and outputs can be counted by the formats. -/
structure BlockConnectable (utxo : COutPoint → Option Coin) (block : List CTransaction) : Prop where
  revertible : BlockRevertible utxo block
  coinbase_first : ∃ coinbase rest, block = coinbase :: rest ∧ coinbase.isCoinBase = true ∧
    ∀ tx ∈ rest, tx.isCoinBase = false
  spent_fit : ∀ tx ∈ block, ∀ p ∈ tx.spends, ∀ coin, utxo p = some coin → coin.FitsUndo
  outputs_money : ∀ tx ∈ block, ∀ out ∈ tx.vout, 0 ≤ out.nValue ∧ out.nValue ≤ MAX_MONEY
  block_size : block.length ≤ MAX_SIZE + 1
  vin_size : ∀ tx ∈ block, tx.vin.length ≤ MAX_SIZE
  vout_size : ∀ tx ∈ block, tx.vout.length ≤ 2 ^ 32

namespace BlockConnectable

variable {utxo : COutPoint → Option Coin} {block pre post : List CTransaction} {tx : CTransaction}
  {nHeight : Int}

theorem isCoinBase_iff (h : BlockConnectable utxo block) (hsplit : block = pre ++ tx :: post) :
    tx.isCoinBase = true ↔ pre.length = 0 := by
  obtain ⟨coinbase, rest, rfl, hcb, hrest⟩ := h.coinbase_first
  cases pre with
  | nil =>
    obtain ⟨rfl, -⟩ := List.cons.inj hsplit
    simp [hcb]
  | cons t pre =>
    obtain ⟨-, hrest'⟩ := List.cons.inj hsplit
    have htx : tx ∈ rest := by
      rw [hrest']
      simp
    simp [hrest tx htx]

/-- The coin an input finds on the UTXO set its transaction is connected on fits the undo
format, and is the coin of the set before the block or has the block's height. -/
theorem spent_coin (h : BlockConnectable utxo block) (h0 : 0 ≤ nHeight) (h2 : nHeight < 2 ^ 31)
    (hsplit : block = pre ++ tx :: post) {p : COutPoint} (hp : p ∈ tx.spends) :
    ∃ coin, applyTxs utxo pre nHeight p = some coin ∧ coin.FitsUndo ∧
      (utxo p = some coin ∨ coin.nHeight = coinHeight nHeight) := by
  have htx : tx ∈ block := by
    rw [hsplit]
    simp
  rcases applyTxs_spends h.revertible hsplit hp with ⟨coin, hcoin, hutxo, -⟩ |
    ⟨t, ht, out, hout, hcoin⟩
  · exact ⟨coin, hcoin, h.spent_fit tx htx p hp coin hutxo, .inl hutxo⟩
  · -- an output of an earlier transaction: its amount and script fit, and so does the height
    obtain ⟨-, hvout, hspend⟩ := spendableOutput_eq_some hout
    have ht' : t ∈ block := by
      rw [hsplit]
      exact List.mem_append_left _ ht
    obtain ⟨hv0, hvmax⟩ := h.outputs_money t ht' out (List.mem_of_getElem? hvout)
    have hheight := coinHeight_toNat h0 h2
    refine ⟨_, hcoin, ⟨?_, hv0, hvmax, length_le_of_spendable hspend⟩, .inr rfl⟩
    show (coinHeight nHeight).toNat < 2 ^ 31
    omega

theorem txConnectable (h : BlockConnectable utxo block) (hsplit : block = pre ++ tx :: post) :
    TxConnectable (applyTxs utxo pre nHeight) tx := by
  have hrev : TxRevertible (applyTxs utxo pre nHeight) tx := txRevertible_of_block h.revertible hsplit
  have htx : tx ∈ block := by
    rw [hsplit]
    simp
  refine ⟨hrev.spends_nodup, fun p hp => ?_, fun _ n => hrev.txid_unused n, fun out hout => ?_,
    h.vout_size tx htx⟩
  · obtain ⟨coin, hcoin, -⟩ := hrev.spends_unspent p hp
    rw [hcoin]
    rfl
  · have := (h.outputs_money tx htx out hout).1
    omega

/-- Each transaction can be undone on the UTXO set it is connected on, when every coin the
block spends from the set before it has a height. -/
theorem txUndoable (h : BlockConnectable utxo block) (h1 : 1 ≤ nHeight) (h2 : nHeight < 2 ^ 31)
    (hheights : ∀ tx ∈ block, ∀ p ∈ tx.spends, ∀ coin, utxo p = some coin → coin.nHeight ≠ 0)
    (hsplit : block = pre ++ tx :: post) :
    TxUndoable (applyTxs utxo pre nHeight) tx := by
  have htx : tx ∈ block := by
    rw [hsplit]
    simp
  refine ⟨txRevertible_of_block h.revertible hsplit, fun p hp coin hcoin => ?_, h.vout_size tx htx⟩
  obtain ⟨c, hc, hfits, hsource⟩ := h.spent_coin (by omega) h2 hsplit hp
  rw [hc, Option.some.injEq] at hcoin
  subst hcoin
  refine ⟨?_, hfits.isSpent_eq_false⟩
  rcases hsource with hutxo | hheight
  · exact hheights tx htx p hp c hutxo
  · -- a coin of the block itself has the block's height
    intro hzero
    have := coinHeight_toNat (show 0 ≤ nHeight by omega) h2
    rw [← hheight, hzero] at this
    simp at this
    omega

/-- The undo data connecting the block collects fits the format. -/
theorem blockUndo_fitsUndo (h : BlockConnectable utxo block) (h0 : 0 ≤ nHeight)
    (h2 : nHeight < 2 ^ 31) : (CBlockUndo.mk (blockUndoOf nHeight 0 utxo block)).FitsUndo := by
  unfold CBlockUndo.FitsUndo
  refine ⟨?_, fun txundo hmem => ?_⟩
  · rw [length_blockUndoOf, if_pos rfl]
    have := h.block_size
    omega
  · obtain ⟨pre, tx, post, hsplit, rfl⟩ := mem_blockUndoOf hmem
    have htx : tx ∈ block := by
      rw [hsplit]
      simp
    unfold CTxUndo.FitsUndo
    refine ⟨?_, fun coin hc => ?_⟩
    · -- one coin per input
      have hspends : tx.spends.length ≤ tx.vin.length := by
        unfold CTransaction.spends
        split <;> simp
      rw [spentCoins, List.length_map]
      exact le_trans hspends (h.vin_size tx htx)
    · obtain ⟨p, hp, rfl⟩ := List.mem_map.mp hc
      obtain ⟨c, hcoin, hfits, -⟩ := h.spent_coin h0 h2 hsplit hp
      rw [hcoin]
      exact hfits

/-- Connecting the block succeeds and refines `applyTxs`, and the undo data written for it
reads back as the `CBlockUndo` it collected. -/
theorem connect_readsBack {pk : PubKeyOps} (hpk : pk.DecompressInverts) {view : CacheView}
    (hview : view.Inv base) (h0 : 0 ≤ nHeight) (h2 : nHeight < 2 ^ 31)
    (h : BlockConnectable (view.coins base) block) :
    ∃ view₁, connectBlockCoins base nHeight 0 block ⟨[]⟩ view =
        .ok (⟨blockUndoOf nHeight 0 (view.coins base) block⟩, view₁) ∧
      view₁.Inv base ∧ view₁.coins base = applyTxs (view.coins base) block nHeight ∧
      readBlockUndo pk (blockUndoSer pk ⟨blockUndoOf nHeight 0 (view.coins base) block⟩) =
        some ⟨blockUndoOf nHeight 0 (view.coins base) block⟩ := by
  obtain ⟨view₁, hconnect, hinv₁, hview₁⟩ :=
    connectBlockCoins_spec block 0 ⟨[]⟩ view hview fun _ _ _ hsplit => h.txConnectable hsplit
  refine ⟨view₁, by rw [hconnect, List.nil_append], hinv₁, hview₁, ?_⟩
  have hread := blockUndo_readsBack hpk (h.blockUndo_fitsUndo h0 h2) []
  rw [List.append_nil] at hread
  rw [readBlockUndo, hread]

end BlockConnectable

/-- Connecting a block, writing its undo data and reading it back, then disconnecting the
block from the view it was connected to, reports a clean disconnection and puts back the
coins the view showed before: the same coin, or none, at every outpoint. -/
theorem disconnectBlock_connectBlockCoins {pk : PubKeyOps} (hpk : pk.DecompressInverts)
    {view : CacheView} (hview : view.Inv base) {nHeight : Int} (h1 : 1 ≤ nHeight)
    (h2 : nHeight ≤ 2 ^ 31 - 1) {block : List CTransaction}
    (hblock : BlockConnectable (view.coins base) block)
    (hheights : ∀ tx ∈ block, ∀ p ∈ tx.spends, ∀ coin, view.coins base p = some coin →
      coin.nHeight ≠ 0) :
    ∃ blockundo view₁ view₂,
      connectBlockCoins base nHeight 0 block ⟨[]⟩ view = .ok (blockundo, view₁) ∧
      disconnectBlock pk base block nHeight (blockUndoSer pk blockundo) view₁ =
        .ok (.DISCONNECT_OK, view₂) ∧
      view₂.Inv base ∧ view₂.coins base = view.coins base := by
  have h2' : nHeight < 2 ^ 31 := by omega
  obtain ⟨view₁, hconnect, hinv₁, hview₁, hread⟩ :=
    hblock.connect_readsBack hpk hview (by omega) h2'
  -- one `CTxUndo` per transaction but the coinbase
  have hlen : (blockUndoOf nHeight 0 (view.coins base) block).length + 1 = block.length := by
    obtain ⟨coinbase, rest, hb, -⟩ := hblock.coinbase_first
    rw [length_blockUndoOf, if_pos rfl, hb, List.length_cons]
    omega
  have hheight : ((coinHeight nHeight).toNat : Int) = nHeight := by
    rw [coinHeight_toNat (by omega) h2']
    omega
  have hsteps : ∀ pre tx post, block = pre ++ tx :: post →
      TxUndoable (applyTxs (view.coins base) pre nHeight) tx ∧
        (tx.isCoinBase = true ↔ pre.length = 0) ∧
        (0 < pre.length → (CBlockUndo.mk (blockUndoOf nHeight 0 (view.coins base) block)).vtxundo[
          pre.length - 1]? = some ⟨spentCoins (applyTxs (view.coins base) pre nHeight) tx⟩) := by
    intro pre tx post hsplit
    refine ⟨hblock.txUndoable h1 h2' hheights hsplit, hblock.isCoinBase_iff hsplit, fun hpre => ?_⟩
    rw [hsplit]
    exact blockUndoOf_getElem? hpre
  obtain ⟨view₂, hdis, hinv₂, hview₂⟩ := disconnectTxs_spec hheight hsteps block.length le_rfl true
    view₁ hinv₁ (by rw [List.take_length]; exact hview₁)
  refine ⟨_, view₁, view₂, hconnect, ?_, hinv₂, hview₂⟩
  rw [disconnectBlock, hread]
  dsimp only
  rw [if_neg (not_not.mpr hlen), hdis]
  rfl

-- ---------------------------------------------------------------------------
-- A block over a coin without a height
-- ---------------------------------------------------------------------------

/-- The txid whose first byte is `k` and the others zero. -/
def exampleTxid (k : UInt8) : Uint256 := ⟨k :: List.replicate 31 0, rfl⟩

/-- An output of no value and an empty script, at height `nHeight`. -/
def exampleCoin (nHeight : UInt32) : Coin := ⟨⟨0, []⟩, false, nHeight⟩

/-- The base view that holds `exampleCoin nHeight` at output `0` of `exampleTxid 1`. -/
def exampleBase (nHeight : UInt32) (o : COutPoint) : Option Coin :=
  if o = ⟨exampleTxid 1, 0⟩ then some (exampleCoin nHeight) else none

/-- An empty cache straight over the base view. -/
def exampleView : CacheView := ⟨CCoinsViewCache.empty, []⟩

/-- A coinbase without outputs. -/
def exampleCoinbase : CTransaction :=
  ⟨[⟨⟨BaseBlob.zero 256, COutPoint.NULL_INDEX⟩⟩], [], exampleTxid 2⟩

/-- A transaction without outputs that spends the coin of `exampleBase`. -/
def exampleSpend : CTransaction := ⟨[⟨⟨exampleTxid 1, 0⟩⟩], [], exampleTxid 3⟩

def exampleBlock : List CTransaction := [exampleCoinbase, exampleSpend]

/-- Key operations under which no key is fully valid. -/
def examplePubKeyOps : PubKeyOps := ⟨fun _ => false, fun _ => none⟩

theorem examplePubKeyOps_decompressInverts : examplePubKeyOps.DecompressInverts := by
  intro key _ _ hvalid
  cases hvalid

theorem exampleView_inv (nHeight : UInt32) : exampleView.Inv (exampleBase nHeight) := by
  unfold CacheView.Inv exampleView StackInv
  refine ⟨fun _ _ hentry => ?_, trivial⟩
  cases hentry

theorem exampleView_coins (nHeight : UInt32) (o : COutPoint) :
    exampleView.coins (exampleBase nHeight) o =
      if o = ⟨exampleTxid 1, 0⟩ then some (exampleCoin nHeight) else none := by
  unfold CacheView.coins exampleView
  rw [peekCoin_cons, CCoinsViewCache.cacheCoins_empty, overlay, peekCoin_nil, baseGetCoin,
    exampleBase]
  split <;> rfl

theorem exampleBlock_spends : ∀ tx ∈ exampleBlock, ∀ p ∈ tx.spends, p = ⟨exampleTxid 1, 0⟩ := by
  decide

theorem exampleBlock_connectable (nHeight : UInt32) (h : nHeight.toNat < 2 ^ 31) :
    BlockConnectable (exampleView.coins (exampleBase nHeight)) exampleBlock := by
  have hcoin : ∀ tx ∈ exampleBlock, ∀ p ∈ tx.spends, ∀ coin,
      exampleView.coins (exampleBase nHeight) p = some coin → coin = exampleCoin nHeight := by
    intro tx htx p hp coin hcoin
    rw [exampleBlock_spends tx htx p hp, exampleView_coins, if_pos rfl] at hcoin
    exact (Option.some.inj hcoin).symm
  refine ⟨⟨by decide, fun tx htx n => ?_, by decide, fun pre tx post hsplit p hp => ?_⟩,
    ⟨exampleCoinbase, [exampleSpend], rfl, by decide, by decide⟩, fun tx htx p hp coin hc => ?_,
    by decide, by decide, by decide, by decide⟩
  · -- no txid of the block is the coin's
    have hne : ∀ t ∈ exampleBlock, t.hash ≠ exampleTxid 1 := by decide
    rw [exampleView_coins, if_neg fun heq => hne tx htx (COutPoint.mk.inj heq).1]
  · have htx : tx ∈ exampleBlock := by
      rw [hsplit]
      simp
    rw [exampleBlock_spends tx htx p hp, exampleView_coins, if_pos rfl]
    exact .inl ⟨_, rfl, rfl⟩
  · rw [hcoin tx htx p hp coin hc]
    exact ⟨h, le_rfl, show (0 : Int) ≤ MAX_MONEY by decide, Nat.zero_le _⟩

theorem disconnectBlock_connectBlockCoins_spend :
    ∃ blockundo view₁ view₂,
      connectBlockCoins (exampleBase 5) 5 0 exampleBlock ⟨[]⟩ exampleView =
        .ok (blockundo, view₁) ∧
      disconnectBlock examplePubKeyOps (exampleBase 5) exampleBlock 5
        (blockUndoSer examplePubKeyOps blockundo) view₁ = .ok (.DISCONNECT_OK, view₂) ∧
      view₂.Inv (exampleBase 5) ∧
      view₂.coins (exampleBase 5) = exampleView.coins (exampleBase 5) :=
  disconnectBlock_connectBlockCoins examplePubKeyOps_decompressInverts (exampleView_inv 5)
    (by decide) (by decide) (exampleBlock_connectable 5 (by decide))
    fun tx htx p hp coin hcoin => by
      rw [exampleBlock_spends tx htx p hp, exampleView_coins, if_pos rfl] at hcoin
      rw [← Option.some.inj hcoin]
      decide

/-- Connecting `exampleBlock` at height `1` spends every coin the view shows. -/
theorem exampleBlock_applyTxs (o : COutPoint) :
    applyTxs (exampleView.coins (exampleBase 0)) exampleBlock 1 o = none := by
  have hcoinbase : applyTx (exampleView.coins (exampleBase 0)) exampleCoinbase 1 =
      exampleView.coins (exampleBase 0) := by
    funext o
    have hnil : exampleCoinbase.spends = [] := by decide
    exact applyTx_of_untouched (spendableOutput_of_length_le (Nat.zero_le _))
      (by rw [hnil]; exact List.not_mem_nil)
  have hspends : exampleSpend.spends = [⟨exampleTxid 1, 0⟩] := by decide
  rw [exampleBlock, applyTxs_cons, hcoinbase, applyTxs_cons, applyTxs_nil]
  by_cases ho : o = ⟨exampleTxid 1, 0⟩
  · subst ho
    exact applyTx_of_spends (spendableOutput_of_length_le (Nat.zero_le _)) (by rw [hspends]; simp)
  · rw [applyTx_of_untouched (spendableOutput_of_length_le (Nat.zero_le _))
      (by rw [hspends]; simpa using ho), exampleView_coins, if_neg ho]

/-- The undo data of `exampleBlock`: the coin its second transaction spent. -/
theorem exampleBlock_blockUndoOf :
    blockUndoOf 1 0 (exampleView.coins (exampleBase 0)) exampleBlock = [⟨[exampleCoin 0]⟩] := by
  have hcoin : applyTx (exampleView.coins (exampleBase 0)) exampleCoinbase 1 ⟨exampleTxid 1, 0⟩ =
      some (exampleCoin 0) := by
    rw [applyTx_of_untouched (spendableOutput_of_length_le (Nat.zero_le _)) (by decide),
      exampleView_coins, if_pos rfl]
  have hspends : exampleSpend.spends = [⟨exampleTxid 1, 0⟩] := by decide
  simp only [exampleBlock, blockUndoOf, spentCoins, hspends, List.map_cons, List.map_nil, hcoin]
  rfl

theorem disconnectBlock_height_zero_failed :
    examplePubKeyOps.DecompressInverts ∧ exampleView.Inv (exampleBase 0) ∧
      BlockConnectable (exampleView.coins (exampleBase 0)) exampleBlock ∧
      ∃ blockundo view₁ view₂,
        connectBlockCoins (exampleBase 0) 1 0 exampleBlock ⟨[]⟩ exampleView =
          .ok (blockundo, view₁) ∧
        disconnectBlock examplePubKeyOps (exampleBase 0) exampleBlock 1
          (blockUndoSer examplePubKeyOps blockundo) view₁ = .ok (.DISCONNECT_FAILED, view₂) := by
  have hblock := exampleBlock_connectable 0 (by decide)
  refine ⟨examplePubKeyOps_decompressInverts, exampleView_inv 0, hblock, ?_⟩
  obtain ⟨view₁, hconnect, hinv₁, hview₁, hread⟩ :=
    hblock.connect_readsBack examplePubKeyOps_decompressInverts (exampleView_inv 0)
      (show (0 : Int) ≤ 1 by decide) (by decide)
  -- the block spent the coin, and no other output of its transaction is left
  have hmeta : undoMetadataView (view₁.coins (exampleBase 0)) (exampleCoin 0)
      ⟨exampleTxid 1, 0⟩ = none := by
    have hnone : firstUnspentOutput (view₁.coins (exampleBase 0)) (exampleTxid 1) = none := by
      rw [firstUnspentOutput, List.findSome?_eq_none_iff]
      intro k _
      rw [hview₁]
      exact exampleBlock_applyTxs _
    rw [undoMetadataView, if_pos (show (exampleCoin 0).nHeight = 0 from rfl)]
    dsimp only
    rw [hnone]
    rfl
  obtain ⟨view₂, hfail, -, -⟩ := applyTxInUndo_failed hinv₁ hmeta
  -- the spending transaction has no outputs to check, and its one input fails
  have hspend : disconnectTx (exampleBase 0) exampleSpend 1 1 ⟨[⟨[exampleCoin 0]⟩]⟩ true view₁ =
      .ok (none, view₂) := by
    have hout : spendOutputsFrom (exampleBase 0) exampleSpend 1 0 exampleSpend.vout true view₁ =
        (true, view₁) := rfl
    rw [disconnectTx, hout]
    dsimp only
    rw [if_pos (by decide),
      show ([⟨[exampleCoin 0]⟩] : List CTxUndo)[1 - 1]? = some ⟨[exampleCoin 0]⟩ from rfl]
    dsimp only
    rw [if_neg (by decide)]
    show restoreInputs (exampleBase 0) [(⟨⟨exampleTxid 1, 0⟩⟩, exampleCoin 0)] true view₁ = _
    rw [restoreInputs, hfail]
  have htxs : disconnectTxs (exampleBase 0) exampleBlock 1 ⟨[⟨[exampleCoin 0]⟩]⟩ 2 true view₁ =
      .ok (none, view₂) := by
    rw [disconnectTxs, show exampleBlock[1]? = some exampleSpend from rfl]
    dsimp only
    rw [hspend]
  refine ⟨_, view₁, view₂, hconnect, ?_⟩
  rw [disconnectBlock, hread, exampleBlock_blockUndoOf]
  dsimp only
  rw [if_neg (by decide), show exampleBlock.length = 2 from rfl, htxs]

end Riecoin
