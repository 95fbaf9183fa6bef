-- SUMMARY: AccessByTxid, ApplyTxInUndo and DisconnectBlock on a cache over the layers under it, with the legacy branch for undo coins without a height; disconnecting a transaction refines revertTx.
import Riecoin.Validation.Connect
import Mathlib.Data.List.Nodup

/-!
# Disconnecting a block from the coins cache

`DisconnectBlock` reads the undo data of a block and undoes its transactions, the last
first: the spendable outputs of each are spent again, and must be the coins the block
created; then, for all but the coinbase, `ApplyTxInUndo` puts back the coin of each input
from the undo data, the last input first. An undo coin written without a height (by old
versions, for all but the last spend of a transaction) takes the height and the coinbase
flag of another unspent output of its transaction, found by `AccessByTxid`; without one,
disconnecting fails.

The spec lemmas say what each step does to the UTXO set the view shows:
`applyTxInUndo_restored` and `applyTxInUndo_failed` for the two outcomes of
`ApplyTxInUndo` (`undoMetadataView`), `disconnectTx_spec` that one pass of the loop
refines `revertTx`, and `disconnectTxs_spec` that the loop puts back the UTXO set that
the block was connected on.
-/

namespace Riecoin

variable {base : COutPoint → Option Coin}

/-- `DisconnectResult`. -/
inductive DisconnectResult where
  | DISCONNECT_OK
  | DISCONNECT_UNCLEAN
  | DISCONNECT_FAILED
  deriving DecidableEq, Repr

/-- `MAX_BLOCK_WEIGHT`. -/
def MAX_BLOCK_WEIGHT : Nat := 2000000

/-- `WITNESS_SCALE_FACTOR`. -/
def WITNESS_SCALE_FACTOR : Nat := 4

/-- `MIN_TRANSACTION_OUTPUT_WEIGHT`: the weight of `CTxOut()` serialized, an eight-byte
amount and the one-byte size of its empty script. -/
def MIN_TRANSACTION_OUTPUT_WEIGHT : Nat := WITNESS_SCALE_FACTOR * 9

/-- `MAX_OUTPUTS_PER_BLOCK`. -/
def MAX_OUTPUTS_PER_BLOCK : Nat := MAX_BLOCK_WEIGHT / MIN_TRANSACTION_OUTPUT_WEIGHT

-- ---------------------------------------------------------------------------
-- ApplyTxInUndo
-- ---------------------------------------------------------------------------

/-- The loop of `AccessByTxid` from `iter.n = n`, with `fuel` the iterations left before
`MAX_OUTPUTS_PER_BLOCK`: the first unspent coin of the txid, or `coinEmpty`. -/
def accessByTxidFrom (base : COutPoint → Option Coin) (txid : Uint256) :
    Nat → Nat → CacheView → Coin × CacheView
  | 0, _, view => (Coin.empty, view)
  | fuel + 1, n, view =>
    match accessCoin base view.cache view.below ⟨txid, UInt32.ofNat n⟩ with
    | (alternate, cache', below') =>
      if alternate.isSpent then accessByTxidFrom base txid fuel (n + 1) ⟨cache', below'⟩
      else (alternate, ⟨cache', below'⟩)

/-- `AccessByTxid`. -/
def accessByTxid (base : COutPoint → Option Coin) (view : CacheView) (txid : Uint256) :
    Coin × CacheView :=
  accessByTxidFrom base txid MAX_OUTPUTS_PER_BLOCK 0 view

/-- The legacy branch of `ApplyTxInUndo`: an undo coin without a height takes the height
and the coinbase flag of an unspent output of its transaction; `none` when there is none,
for which `ApplyTxInUndo` returns `DISCONNECT_FAILED`. -/
def undoWithMetadata (base : COutPoint → Option Coin) (undo : Coin) (out : COutPoint)
    (view : CacheView) : Option Coin × CacheView :=
  if undo.nHeight = 0 then
    match accessByTxid base view out.hash with
    | (alternate, view') =>
      if alternate.isSpent then (none, view')
      else (some { undo with nHeight := alternate.nHeight, fCoinBase := alternate.fCoinBase }, view')
  else (some undo, view)

/-- `ApplyTxInUndo`: put the undo coin back at its outpoint, which is unclean when the view
already shows a coin there. -/
def applyTxInUndo (base : COutPoint → Option Coin) (undo : Coin) (view : CacheView)
    (out : COutPoint) : Except String (DisconnectResult × CacheView) :=
  match haveCoin base view.cache view.below out with
  | (found, cache, below) =>
    let fClean := !found
    match undoWithMetadata base undo out ⟨cache, below⟩ with
    | (none, view') => .ok (.DISCONNECT_FAILED, view')
    | (some undo, view') =>
      match addCoin view'.cache out undo !fClean with
      | .ok cache' =>
        .ok (if fClean then .DISCONNECT_OK else .DISCONNECT_UNCLEAN, ⟨cache', view'.below⟩)
      | .error e => .error e

/-- The first unspent output of the transaction `txid` among those `AccessByTxid` looks
at, on the UTXO set `utxo`. -/
def firstUnspentOutput (utxo : COutPoint → Option Coin) (txid : Uint256) : Option Coin :=
  (List.range MAX_OUTPUTS_PER_BLOCK).findSome? fun k => utxo ⟨txid, UInt32.ofNat k⟩

/-- The coin that `ApplyTxInUndo` puts back, on the UTXO set `utxo`: the undo coin, with
the height and the coinbase flag of `firstUnspentOutput` when it has no height. -/
def undoMetadataView (utxo : COutPoint → Option Coin) (undo : Coin) (out : COutPoint) :
    Option Coin :=
  if undo.nHeight = 0 then
    (firstUnspentOutput utxo out.hash).map fun alternate =>
      { undo with nHeight := alternate.nHeight, fCoinBase := alternate.fCoinBase }
  else some undo

/-- The loop of `AccessByTxid` returns the first unspent coin of the outpoints it looks at,
and the view shows the same after it. -/
theorem accessByTxidFrom_spec (txid : Uint256) :
    ∀ (fuel n : Nat) (view : CacheView) (coin : Coin) (view' : CacheView), view.Inv base →
      accessByTxidFrom base txid fuel n view = (coin, view') →
      view'.Inv base ∧ view'.coins base = view.coins base ∧
        coin.unspent = (List.range' n fuel).findSome? fun k => view.coins base ⟨txid, UInt32.ofNat k⟩
  | 0, _, view, coin, view', h, ha => by
    cases ha
    exact ⟨h, rfl, rfl⟩
  | fuel + 1, n, view, coin, view', h, ha => by
    rcases hacc : accessCoin base view.cache view.below ⟨txid, UInt32.ofNat n⟩ with
      ⟨alternate, cache₁, below₁⟩
    obtain ⟨hinv₁, hview₁, halt⟩ := accessCoin_spec h hacc
    rw [accessByTxidFrom, hacc] at ha
    dsimp only at ha
    rw [List.range'_succ, List.findSome?_cons, ← halt]
    split at ha
    · -- a spent coin: the search goes on at `n + 1`
      next hspent =>
      obtain ⟨hinv', hview', hcoin⟩ := accessByTxidFrom_spec txid fuel (n + 1) _ coin view' hinv₁ ha
      rw [Coin.unspent_eq_none_iff.mpr hspent, hcoin, hview₁]
      exact ⟨hinv', hview'.trans hview₁, rfl⟩
    · next hspent =>
      simp only [Prod.mk.injEq] at ha
      obtain ⟨rfl, rfl⟩ := ha
      have hsome : alternate.unspent = some alternate :=
        Coin.unspent_eq_some_iff.mpr ⟨by simpa using hspent, rfl⟩
      rw [hsome]
      exact ⟨hinv₁, hview₁, rfl⟩

/-- The legacy branch of `ApplyTxInUndo` computes `undoMetadataView`, and the view shows the
same after it. -/
theorem undoWithMetadata_spec {undo : Coin} {out : COutPoint} {view view' : CacheView}
    {r : Option Coin} (h : view.Inv base) (hu : undoWithMetadata base undo out view = (r, view')) :
    view'.Inv base ∧ view'.coins base = view.coins base ∧
      r = undoMetadataView (view.coins base) undo out := by
  unfold undoWithMetadata at hu
  unfold undoMetadataView
  split at hu
  · next h0 =>
    rw [if_pos h0]
    rcases hacc : accessByTxid base view out.hash with ⟨alternate, view₁⟩
    obtain ⟨hinv₁, hview₁, halt⟩ := accessByTxidFrom_spec out.hash MAX_OUTPUTS_PER_BLOCK 0 view
      alternate view₁ h hacc
    rw [← List.range_eq_range'] at halt
    rw [hacc] at hu
    dsimp only at hu
    unfold firstUnspentOutput
    rw [← halt]
    split at hu
    · next hspent =>
      cases hu
      rw [Coin.unspent_eq_none_iff.mpr hspent]
      exact ⟨hinv₁, hview₁, rfl⟩
    · next hspent =>
      cases hu
      rw [Coin.unspent_eq_some_iff.mpr ⟨by simpa using hspent, rfl⟩]
      exact ⟨hinv₁, hview₁, rfl⟩
  · next h0 =>
    cases hu
    rw [if_neg h0]
    exact ⟨h, rfl, rfl⟩

/-- `ApplyTxInUndo` of an unspent coin for which the view gives metadata puts it back: the
result is unclean when the view showed a coin at the outpoint. -/
theorem applyTxInUndo_restored {undo u : Coin} {out : COutPoint} {view : CacheView}
    (h : view.Inv base) (hspent : undo.isSpent = false)
    (hmeta : undoMetadataView (view.coins base) undo out = some u) :
    ∃ view', applyTxInUndo base undo view out =
        .ok (if (view.coins base out).isSome then .DISCONNECT_UNCLEAN else .DISCONNECT_OK, view') ∧
      view'.Inv base ∧
      view'.coins base = if isUnspendable u.out.scriptPubKey then view.coins base
        else Function.update (view.coins base) out (some u) := by
  rcases hh : haveCoin base view.cache view.below out with ⟨found, cache₁, below₁⟩
  obtain ⟨hinv₁, hview₁, hfound⟩ := haveCoin_spec h hh
  rcases hm : undoWithMetadata base undo out ⟨cache₁, below₁⟩ with ⟨r, view₂⟩
  obtain ⟨hinv₂, hview₂, hr⟩ := undoWithMetadata_spec hinv₁ hm
  rw [hview₁, hmeta] at hr
  subst hr
  -- the metadata keep the output of the undo coin, so it is still unspent
  have hspent' : u.isSpent = false := by
    unfold undoMetadataView at hmeta
    split at hmeta
    · obtain ⟨alternate, -, rfl⟩ := Option.map_eq_some_iff.mp hmeta
      exact hspent
    · cases hmeta
      exact hspent
  obtain ⟨cache', hadd, hinv', hview'⟩ := addCoin_view_spec out found hinv₂ hspent' fun hf => by
      rw [hview₂, hview₁]
      rw [hf] at hfound
      exact Option.not_isSome_iff_eq_none.mp (by rw [← hfound]; decide)
  refine ⟨⟨cache', view₂.below⟩, ?_, hinv', by rw [hview', hview₂, hview₁]⟩
  rw [applyTxInUndo, hh]
  dsimp only
  rw [hm]
  dsimp only
  rw [Bool.not_not, hadd, ← hfound]
  cases found <;> rfl

/-- `ApplyTxInUndo` fails when the undo coin has no height and the view shows no unspent
output of its transaction. -/
theorem applyTxInUndo_failed {undo : Coin} {out : COutPoint} {view : CacheView}
    (h : view.Inv base) (hmeta : undoMetadataView (view.coins base) undo out = none) :
    ∃ view', applyTxInUndo base undo view out = .ok (.DISCONNECT_FAILED, view') ∧
      view'.Inv base ∧ view'.coins base = view.coins base := by
  rcases hh : haveCoin base view.cache view.below out with ⟨found, cache₁, below₁⟩
  obtain ⟨hinv₁, hview₁, -⟩ := haveCoin_spec h hh
  rcases hm : undoWithMetadata base undo out ⟨cache₁, below₁⟩ with ⟨r, view₂⟩
  obtain ⟨hinv₂, hview₂, hr⟩ := undoWithMetadata_spec hinv₁ hm
  rw [hview₁, hmeta] at hr
  subst hr
  refine ⟨view₂, ?_, hinv₂, hview₂.trans hview₁⟩
  rw [applyTxInUndo, hh]
  dsimp only
  rw [hm]

-- ---------------------------------------------------------------------------
-- DisconnectBlock
-- ---------------------------------------------------------------------------

/-- The output check of `DisconnectBlock` for `tx` from output `o` on: each spendable output
is spent, and the block is unclean unless the coin moved out was unspent, is the output,
has the height of the block and the coinbase flag of `tx`. -/
def spendOutputsFrom (base : COutPoint → Option Coin) (tx : CTransaction) (nHeight : Int) :
    Nat → List CTxOut → Bool → CacheView → Bool × CacheView
  | _, [], fClean, view => (fClean, view)
  | o, out :: vout, fClean, view =>
    if isUnspendable out.scriptPubKey then spendOutputsFrom base tx nHeight (o + 1) vout fClean view
    else
      match spendCoinMoveout base view ⟨tx.hash, UInt32.ofNat o⟩ Coin.empty with
      | (is_spent, coin, view') =>
        let mismatch := !is_spent || out != coin.out || nHeight != (coin.nHeight.toNat : Int) ||
          tx.isCoinBase != coin.fCoinBase
        spendOutputsFrom base tx nHeight (o + 1) vout (fClean && !mismatch) view'

/-- The input loop of `DisconnectBlock`: `ApplyTxInUndo` of the undo coin of each input;
`none` when one fails, and the block with it. -/
def restoreInputs (base : COutPoint → Option Coin) :
    List (CTxIn × Coin) → Bool → CacheView → Except String (Option Bool × CacheView)
  | [], fClean, view => .ok (some fClean, view)
  | (txin, undo) :: rest, fClean, view =>
    match applyTxInUndo base undo view txin.prevout with
    | .ok (.DISCONNECT_FAILED, view') => .ok (none, view')
    | .ok (res, view') => restoreInputs base rest (fClean && res != .DISCONNECT_UNCLEAN) view'
    | .error e => .error e

/-- One pass of the loop of `DisconnectBlock`, for `tx = block.vtx[i]`: the output check,
then, but for the coinbase at `i = 0`, the inputs from `vin.size()` down, each with its coin
in `blockUndo.vtxundo[i - 1]`, which must have one coin per input. `none` stands for the
return of `DISCONNECT_FAILED`. -/
def disconnectTx (base : COutPoint → Option Coin) (tx : CTransaction) (nHeight : Int) (i : Nat)
    (blockUndo : CBlockUndo) (fClean : Bool) (view : CacheView) :
    Except String (Option Bool × CacheView) :=
  match spendOutputsFrom base tx nHeight 0 tx.vout fClean view with
  | (fClean, view) =>
    if i > 0 then
      match blockUndo.vtxundo[i - 1]? with
      | some txundo =>
        if txundo.vprevout.length ≠ tx.vin.length then .ok (none, view)
        else restoreInputs base (tx.vin.zip txundo.vprevout).reverse fClean view
      | none => .ok (none, view)
    else .ok (some fClean, view)

/-- The loop of `DisconnectBlock`: the transactions `block.vtx[i]` for `i` from the one
below the count given down to `0`. -/
def disconnectTxs (base : COutPoint → Option Coin) (block : List CTransaction) (nHeight : Int)
    (blockUndo : CBlockUndo) : Nat → Bool → CacheView → Except String (Option Bool × CacheView)
  | 0, fClean, view => .ok (some fClean, view)
  | i + 1, fClean, view =>
    match block[i]? with
    | some tx =>
      match disconnectTx base tx nHeight i blockUndo fClean view with
      | .ok (some fClean, view) => disconnectTxs base block nHeight blockUndo i fClean view
      | r => r
    | none => .ok (none, view)

/-- `ReadBlockUndo` of the undo data of a block as written: the `CBlockUndo` at its front.
The position in the file, and the checksum written after the data with the hash of the
previous block, are left out. -/
def readBlockUndo (pk : PubKeyOps) (undoData : List UInt8) : Option CBlockUndo :=
  match (blockUndoUnser pk).run undoData with
  | .ok (blockUndo, _) => some blockUndo
  | .error _ => none

/-- `Chainstate::DisconnectBlock` on the coins: read the undo data, check that it has one
`CTxUndo` per transaction but the coinbase, then undo the transactions, the last first.
`SetBestBlock` at the end is left out. -/
def disconnectBlock (pk : PubKeyOps) (base : COutPoint → Option Coin) (block : List CTransaction)
    (nHeight : Int) (undoData : List UInt8) (view : CacheView) :
    Except String (DisconnectResult × CacheView) :=
  match readBlockUndo pk undoData with
  | none => .ok (.DISCONNECT_FAILED, view)
  | some blockUndo =>
    if blockUndo.vtxundo.length + 1 ≠ block.length then .ok (.DISCONNECT_FAILED, view)
    else
      match disconnectTxs base block nHeight blockUndo block.length true view with
      | .ok (some fClean, view) =>
        .ok (if fClean then .DISCONNECT_OK else .DISCONNECT_UNCLEAN, view)
      | .ok (none, view) => .ok (.DISCONNECT_FAILED, view)
      | .error e => .error e

-- ---------------------------------------------------------------------------
-- The loop of DisconnectBlock refines revertTx
-- ---------------------------------------------------------------------------

/-- The output check from output `o` on spends the spendable outputs from `o` on and keeps
the block clean, when the view shows each as the coin the block created. -/
theorem spendOutputsFrom_spec {tx : CTransaction} {nHeight : Int} (hlen : tx.vout.length ≤ 2 ^ 32)
    (hheight : ((coinHeight nHeight).toNat : Int) = nHeight) :
    ∀ (vout : List CTxOut) (o : Nat) (fClean : Bool) (view : CacheView), vout = tx.vout.drop o →
      view.Inv base →
      (∀ p out, o ≤ p.n.toNat → spendableOutput tx p = some out →
        view.coins base p = some ⟨out, tx.isCoinBase, coinHeight nHeight⟩) →
      ∃ view', spendOutputsFrom base tx nHeight o vout fClean view = (fClean, view') ∧
        view'.Inv base ∧ ∀ p, view'.coins base p =
          if o ≤ p.n.toNat ∧ (spendableOutput tx p).isSome then none else view.coins base p
  | [], o, fClean, view, hdrop, h, _ => by
    refine ⟨view, rfl, h, fun p => ?_⟩
    -- no output is left from `o` on
    have hge := List.drop_eq_nil_iff.mp hdrop.symm
    by_cases hp : o ≤ p.n.toNat
    · simp [spendableOutput_of_length_le (show tx.vout.length ≤ p.n.toNat by omega)]
    · simp [hp]
  | out :: vout, o, fClean, view, hdrop, h, hmatch => by
    obtain ⟨ho, rfl, hrest⟩ := cons_eq_drop hdrop
    have hindex := spendableOutput_index ho hlen
    -- an outpoint at another index is left to the rest of the loop
    have hiff : ∀ p : COutPoint, p.n.toNat ≠ o → (o + 1 ≤ p.n.toNat ↔ o ≤ p.n.toNat) := by
      intro p hp
      omega
    by_cases hu : isUnspendable tx.vout[o].scriptPubKey
    · -- an unspendable output is skipped
      obtain ⟨view', hrun, hinv', hview'⟩ := spendOutputsFrom_spec hlen hheight vout (o + 1) fClean
        view hrest h fun p out hp hout => hmatch p out (by omega) hout
      refine ⟨view', by rw [spendOutputsFrom, if_pos hu]; exact hrun, hinv', fun p => ?_⟩
      rw [hview' p]
      by_cases hpo : p.n.toNat = o
      · have hnone : spendableOutput tx p = none := by
          by_cases hhash : p.hash = tx.hash
          · rw [COutPoint.eq_of_index hhash hpo, hindex, if_pos hu]
          · exact spendableOutput_of_hash_ne hhash
        simp [hnone]
      · simp only [hiff p hpo]
    · -- a spendable output: the view shows the coin the block created, which is moved out
      have hout : spendableOutput tx ⟨tx.hash, UInt32.ofNat o⟩ = some tx.vout[o] := by
        rw [hindex, if_neg hu]
      have hn := toNat_ofNat_index ho hlen
      rcases hs : spendCoinMoveout base view ⟨tx.hash, UInt32.ofNat o⟩ Coin.empty with
        ⟨b, coin, view₁⟩
      obtain ⟨hinv₁, hview₁, hmoved⟩ := spendCoinMoveout_spec h hs
      obtain ⟨rfl, rfl⟩ := hmoved _ (hmatch _ _ (by rw [hn]) hout)
      have hframe : ∀ p : COutPoint, p.n.toNat ≠ o → view₁.coins base p = view.coins base p := by
        intro p hp
        rw [hview₁, Function.update_of_ne (COutPoint.ne_of_index_ne hn hp)]
      obtain ⟨view', hrun, hinv', hview'⟩ := spendOutputsFrom_spec hlen hheight vout (o + 1) fClean
        view₁ hrest hinv₁ fun p out hp hout' => by
          rw [hframe p (by omega)]
          exact hmatch p out (by omega) hout'
      refine ⟨view', ?_, hinv', fun p => ?_⟩
      · rw [spendOutputsFrom, if_neg hu, hs]
        dsimp only
        have hclean : (fClean && !(!true || tx.vout[o] != tx.vout[o] ||
            nHeight != ((coinHeight nHeight).toNat : Int) || tx.isCoinBase != tx.isCoinBase)) =
            fClean := by
          simp [hheight]
        rw [hclean]
        exact hrun
      · rw [hview' p]
        by_cases hpo : p.n.toNat = o
        · by_cases hhash : p.hash = tx.hash
          · rw [COutPoint.eq_of_index hhash hpo, hview₁]
            simp [hn, hout]
          · simp [spendableOutput_of_hash_ne hhash, hview₁,
              Function.update_of_ne (COutPoint.ne_of_hash_ne hhash)]
        · rw [hframe p hpo]
          simp only [hiff p hpo]

/-- The input loop puts back the undo coins, which have heights and are unspent, at
distinct outpoints where the view shows nothing, and keeps the block clean. -/
theorem restoreInputs_spec :
    ∀ (ps : List (CTxIn × Coin)) (fClean : Bool) (view : CacheView), view.Inv base →
      (ps.map (·.1.prevout)).Nodup →
      (∀ x ∈ ps, x.2.nHeight ≠ 0 ∧ x.2.isSpent = false ∧ view.coins base x.1.prevout = none) →
      ∃ view', restoreInputs base ps fClean view = .ok (some fClean, view') ∧ view'.Inv base ∧
        view'.coins base = restoreView (view.coins base) (ps.map (·.1.prevout)) (ps.map (·.2))
  | [], fClean, view, h, _, _ => ⟨view, rfl, h, rfl⟩
  | (txin, u) :: rest, fClean, view, h, hnd, hcoins => by
    obtain ⟨hheight, hspent, hnone⟩ := hcoins (txin, u) List.mem_cons_self
    rw [List.map_cons, List.nodup_cons] at hnd
    have hmeta : undoMetadataView (view.coins base) u txin.prevout = some u := by
      rw [undoMetadataView, if_neg hheight]
    obtain ⟨view₁, happly, hinv₁, hview₁⟩ := applyTxInUndo_restored h hspent hmeta
    rw [hnone] at happly
    -- the other inputs still find nothing at their outpoints
    have hframe : ∀ x ∈ rest, view₁.coins base x.1.prevout = view.coins base x.1.prevout := by
      intro x hx
      have hne : x.1.prevout ≠ txin.prevout := fun heq => hnd.1 (heq ▸ List.mem_map_of_mem hx)
      rw [hview₁]
      split
      · rfl
      · exact Function.update_of_ne hne _ _
    obtain ⟨view', hrun, hinv', hview'⟩ := restoreInputs_spec rest fClean view₁ hinv₁ hnd.2
      fun x hx => by
        obtain ⟨h1, h2, h3⟩ := hcoins x (List.mem_cons_of_mem _ hx)
        exact ⟨h1, h2, by rw [hframe x hx]; exact h3⟩
    refine ⟨view', ?_, hinv', ?_⟩
    · have hres : (fClean && DisconnectResult.DISCONNECT_OK != .DISCONNECT_UNCLEAN) = fClean := by
        cases fClean <;> rfl
      rw [restoreInputs, happly]
      simp only [Option.isSome_none, Bool.false_eq_true, if_false, hres]
      exact hrun
    · rw [hview', hview₁, List.map_cons, List.map_cons, restoreView_cons _ u _ hnd.1]

/-- What disconnecting `tx` after connecting it on `utxo` needs besides `TxRevertible`: the
coins it spent have heights, so that `ApplyTxInUndo` does not look for metadata, and are
unspent; its outputs have indices that fit `COutPoint::n`. -/
structure TxUndoable (utxo : COutPoint → Option Coin) (tx : CTransaction) : Prop where
  revertible : TxRevertible utxo tx
  spent_height : ∀ p ∈ tx.spends, ∀ coin, utxo p = some coin →
    coin.nHeight ≠ 0 ∧ coin.isSpent = false
  vout_length : tx.vout.length ≤ 2 ^ 32

/-- One pass of the loop of `DisconnectBlock` refines `revertTx`: on the view of `utxo`
after `tx`, with the coins `tx` spent as its undo data, it puts back `utxo` and keeps the
block clean. -/
theorem disconnectTx_spec {utxo : COutPoint → Option Coin} {tx : CTransaction} {nHeight : Int}
    {i : Nat} {blockUndo : CBlockUndo} {view : CacheView} (h : view.Inv base)
    (hview : view.coins base = applyTx utxo tx nHeight) (hu : TxUndoable utxo tx)
    (hheight : ((coinHeight nHeight).toNat : Int) = nHeight) (hcb : tx.isCoinBase = true ↔ i = 0)
    (hundo : 0 < i → blockUndo.vtxundo[i - 1]? = some ⟨spentCoins utxo tx⟩) (fClean : Bool) :
    ∃ view', disconnectTx base tx nHeight i blockUndo fClean view = .ok (some fClean, view') ∧
      view'.Inv base ∧ view'.coins base = utxo := by
  -- the output check leaves `spendOutputsView` of the view
  obtain ⟨view₁, hout, hinv₁, hview₁⟩ := spendOutputsFrom_spec hu.vout_length hheight tx.vout 0
    fClean view List.drop_zero.symm h fun p out _ hsp => by
      rw [hview]
      exact applyTx_of_spendableOutput hsp
  have hview₁' : view₁.coins base = spendOutputsView (applyTx utxo tx nHeight) tx := by
    funext p
    rw [hview₁ p, hview]
    simp [spendOutputsView]
  have hrevert := revertTx_applyTx nHeight hu.revertible
  unfold disconnectTx
  rw [hout]
  dsimp only
  by_cases hi : 0 < i
  · -- a transaction with inputs: its coins go back
    rw [if_pos hi, hundo hi]
    dsimp only
    have hncb : tx.isCoinBase = false := by
      cases hc : tx.isCoinBase
      · rfl
      · exact absurd (hcb.mp hc) (by omega)
    have hspends := CTransaction.spends_of_not_coinBase hncb
    have hlen : (spentCoins utxo tx).length = tx.vin.length := by
      simp [spentCoins, hspends]
    rw [if_neg (by simpa using hlen)]
    have hnd := hu.revertible.spends_nodup
    rw [hspends] at hnd
    -- the outpoints and coins of the loop, the last input first
    have hkeys : (tx.vin.zip (spentCoins utxo tx)).reverse.map (·.1.prevout) =
        (tx.vin.map (·.prevout)).reverse := by
      rw [List.map_reverse,
        show (fun x : CTxIn × Coin => x.1.prevout) = (·.prevout) ∘ Prod.fst from rfl,
        ← List.map_map, List.map_fst_zip (Nat.le_of_eq hlen.symm)]
    have hvals : (tx.vin.zip (spentCoins utxo tx)).reverse.map (·.2) =
        (spentCoins utxo tx).reverse := by
      rw [List.map_reverse, List.map_snd_zip (Nat.le_of_eq hlen)]
    obtain ⟨view', hrun, hinv', hview'⟩ := restoreInputs_spec (tx.vin.zip (spentCoins utxo tx)).reverse
      fClean view₁ hinv₁ (by rw [hkeys]; exact List.nodup_reverse.mpr hnd) fun x hx => by
        obtain ⟨hin, hcoin⟩ := List.of_mem_zip (List.mem_reverse.mp hx)
        have hp : x.1.prevout ∈ tx.spends := by
          rw [hspends]
          exact List.mem_map_of_mem hin
        -- the coin is one that an input spent
        obtain ⟨q, hq, hqc⟩ := List.mem_map.mp hcoin
        obtain ⟨c, hc, -⟩ := hu.revertible.spends_unspent q hq
        rw [hc, Option.getD_some] at hqc
        subst hqc
        refine ⟨(hu.spent_height q hq _ hc).1, (hu.spent_height q hq _ hc).2, ?_⟩
        -- and the view shows nothing at the input any more
        rw [hview₁']
        unfold spendOutputsView
        split
        · rfl
        · next hnone =>
          exact applyTx_of_spends (by simpa using hnone) hp
    refine ⟨view', hrun, hinv', ?_⟩
    rw [hview', hview₁', hkeys, hvals, restoreView_reverse _ hnd (by rw [List.length_map, hlen]),
      ← hspends]
    exact hrevert
  · -- the coinbase spends nothing
    rw [if_neg hi]
    have hnil : tx.spends = [] := by
      simp [CTransaction.spends, hcb.mpr (by omega)]
    have hnothing : revertTx (applyTx utxo tx nHeight) tx (spentCoins utxo tx) =
        spendOutputsView (applyTx utxo tx nHeight) tx := by
      unfold revertTx restoreView spentCoins
      rw [hnil]
      rfl
    refine ⟨view₁, rfl, hinv₁, ?_⟩
    rw [hview₁', ← hnothing, hrevert]

/-- The loop of `DisconnectBlock` from transaction `k` down puts back the UTXO set that the
block was connected on, when every transaction can be undone on the set it was connected
on, the coinbase comes first, and the undo data holds the coins each other transaction
spent. -/
theorem disconnectTxs_spec {utxo : COutPoint → Option Coin} {block : List CTransaction}
    {nHeight : Int} {blockUndo : CBlockUndo} (hheight : ((coinHeight nHeight).toNat : Int) = nHeight)
    (hsteps : ∀ pre tx post, block = pre ++ tx :: post →
      TxUndoable (applyTxs utxo pre nHeight) tx ∧ (tx.isCoinBase = true ↔ pre.length = 0) ∧
        (0 < pre.length →
          blockUndo.vtxundo[pre.length - 1]? = some ⟨spentCoins (applyTxs utxo pre nHeight) tx⟩)) :
    ∀ k, k ≤ block.length → ∀ (fClean : Bool) (view : CacheView), view.Inv base →
      view.coins base = applyTxs utxo (block.take k) nHeight →
      ∃ view', disconnectTxs base block nHeight blockUndo k fClean view = .ok (some fClean, view') ∧
        view'.Inv base ∧ view'.coins base = utxo
  | 0, _, fClean, view, h, hview => ⟨view, rfl, h, by rw [hview]; rfl⟩
  | k + 1, hk, fClean, view, h, hview => by
    have hlt : k < block.length := by omega
    have hsplit : block = block.take k ++ block[k] :: block.drop (k + 1) := by
      rw [← List.drop_eq_getElem_cons hlt, List.take_append_drop]
    have hlen : (block.take k).length = k := List.length_take_of_le (by omega)
    obtain ⟨hu, hcb, hundo⟩ := hsteps _ _ _ hsplit
    rw [hlen] at hcb hundo
    have hview' : view.coins base = applyTx (applyTxs utxo (block.take k) nHeight) block[k] nHeight := by
      rw [hview, List.take_succ_eq_append_getElem hlt, applyTxs_append]
      rfl
    obtain ⟨view₁, hdis, hinv₁, hview₁⟩ := disconnectTx_spec h hview' hu hheight hcb hundo fClean
    obtain ⟨view', hrun, hinv', hview''⟩ :=
      disconnectTxs_spec hheight hsteps k (by omega) fClean view₁ hinv₁ hview₁
    refine ⟨view', ?_, hinv', hview''⟩
    rw [disconnectTxs, List.getElem?_eq_getElem hlt]
    dsimp only
    rw [hdis]
    exact hrun

end Riecoin
