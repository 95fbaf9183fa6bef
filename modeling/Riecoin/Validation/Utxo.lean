-- SUMMARY: Transactions, and the UTXO set that a block moves, as a plain map: connecting a transaction spends its inputs and adds its spendable outputs, and disconnecting it with the coins it spent puts the map back.
import Riecoin.Coins.Undo

/-!
# The UTXO set of a block

What connecting and disconnecting a block do, stated on the UTXO set alone: a map from
outpoints to unspent coins. `applyTx` is `UpdateCoins`: the outpoints its inputs spend
are removed, then every output with a spendable script is added as a coin of the height
of the block. `revertTx` is one pass of the loop of `DisconnectBlock`: the spendable
outputs are removed, then the coins of the undo data are put back at the inputs.

`revertTx_applyTx` says that disconnecting a transaction with the coins it spent puts the
map back, when its inputs spend distinct coins and no output of its txid is unspent yet
(`TxRevertible`). `txRevertible_of_block` derives that for every transaction of a block
from conditions on the map before the block (`BlockRevertible`): distinct txids with no
unspent output, and inputs that spend distinct outpoints, each an unspent coin or a
spendable output of an earlier transaction. The cache code refines these maps in
`Connect` and `Disconnect`.
-/

namespace Riecoin

/-- `base_blob::IsNull`: every byte is zero. -/
def BaseBlob.isNull {bits : Nat} (b : BaseBlob bits) : Bool := b.data.all (· == 0)

namespace COutPoint

/-- `COutPoint::NULL_INDEX`. -/
def NULL_INDEX : UInt32 := 0xffffffff

/-- `COutPoint::IsNull`: the outpoint of the input of a coinbase. -/
def isNull (outpoint : COutPoint) : Bool := outpoint.hash.isNull && outpoint.n == NULL_INDEX

end COutPoint

/-- `CTxIn`: of an input, only the outpoint it spends is read here. -/
structure CTxIn where
  prevout : COutPoint
  deriving DecidableEq

/-- `CTransaction`: its inputs, its outputs and `hash`, the txid it computes from its
serialization when it is built. -/
structure CTransaction where
  vin : List CTxIn
  vout : List CTxOut
  hash : Uint256
  deriving DecidableEq

namespace CTransaction

/-- `CTransaction::IsCoinBase`: `vin.size() == 1 && vin[0].prevout.IsNull()`. -/
def isCoinBase (tx : CTransaction) : Bool :=
  match tx.vin with
  | [txin] => txin.prevout.isNull
  | _ => false

/-- The outpoints that `UpdateCoins` spends: those of the inputs, none for a coinbase. -/
def spends (tx : CTransaction) : List COutPoint :=
  if tx.isCoinBase then [] else tx.vin.map (·.prevout)

theorem spends_of_not_coinBase {tx : CTransaction} (h : tx.isCoinBase = false) :
    tx.spends = tx.vin.map (·.prevout) := by
  rw [spends, if_neg (by simp [h])]

end CTransaction

/-- The bit-field `Coin::nHeight`, of 31 bits, assigned from the `int` height of a block. -/
def coinHeight (nHeight : Int) : UInt32 := UInt32.ofNat (nHeight % 2 ^ 31).toNat

theorem coinHeight_toNat {nHeight : Int} (h0 : 0 ≤ nHeight) (h : nHeight < 2 ^ 31) :
    (coinHeight nHeight).toNat = nHeight.toNat := by
  rw [coinHeight, Int.emod_eq_of_lt h0 h, UInt32.toNat_ofNat', Nat.mod_eq_of_lt (by omega)]

/-- The output of `tx` that `outpoint` names, when its script is spendable: the outputs
that `AddCoin` keeps and that `DisconnectBlock` spends again. -/
def spendableOutput (tx : CTransaction) (outpoint : COutPoint) : Option CTxOut :=
  if outpoint.hash = tx.hash then
    (tx.vout[outpoint.n.toNat]?).filter fun out => !isUnspendable out.scriptPubKey
  else none

theorem spendableOutput_eq_some {tx : CTransaction} {outpoint : COutPoint} {out : CTxOut}
    (h : spendableOutput tx outpoint = some out) :
    outpoint.hash = tx.hash ∧ tx.vout[outpoint.n.toNat]? = some out ∧
      isUnspendable out.scriptPubKey = false := by
  unfold spendableOutput at h
  split at h
  · next hhash =>
    rw [Option.filter_eq_some_iff] at h
    obtain ⟨hout, hspend⟩ := h
    exact ⟨hhash, hout, by simpa using hspend⟩
  · cases h

theorem spendableOutput_of_hash_ne {tx : CTransaction} {outpoint : COutPoint}
    (h : outpoint.hash ≠ tx.hash) : spendableOutput tx outpoint = none := by
  rw [spendableOutput, if_neg h]

/-- An outpoint is the `COutPoint(txid, i)` its fields name. -/
theorem COutPoint.eq_of_index {o : COutPoint} {txid : Uint256} {i : Nat} (hhash : o.hash = txid)
    (hn : o.n.toNat = i) : o = ⟨txid, UInt32.ofNat i⟩ := by
  cases o
  simp only at hhash hn
  subst hhash hn
  rw [UInt32.ofNat_toNat]

/-- The index of an output of a transaction with at most `2^32` outputs fits `COutPoint::n`. -/
theorem toNat_ofNat_index {i n : Nat} (hi : i < n) (hlen : n ≤ 2 ^ 32) :
    (UInt32.ofNat i).toNat = i := by
  rw [UInt32.toNat_ofNat', Nat.mod_eq_of_lt (by omega)]

/-- An outpoint at another index is not `COutPoint(txid, i)`. -/
theorem COutPoint.ne_of_index_ne {o : COutPoint} {txid : Uint256} {i : Nat}
    (hn : (UInt32.ofNat i).toNat = i) (ho : o.n.toNat ≠ i) : o ≠ ⟨txid, UInt32.ofNat i⟩ := by
  intro heq
  exact ho (heq ▸ hn)

/-- An outpoint of another transaction is not `COutPoint(txid, n)`. -/
theorem COutPoint.ne_of_hash_ne {o : COutPoint} {txid : Uint256} {n : UInt32} (h : o.hash ≠ txid) :
    o ≠ ⟨txid, n⟩ := by
  intro heq
  exact h (heq ▸ rfl)

/-- The outpoint `COutPoint(txid, i)` of an output, for an index that fits `COutPoint::n`. -/
theorem spendableOutput_index {tx : CTransaction} {i : Nat} (hi : i < tx.vout.length)
    (hlen : tx.vout.length ≤ 2 ^ 32) :
    spendableOutput tx ⟨tx.hash, UInt32.ofNat i⟩ =
      if isUnspendable tx.vout[i].scriptPubKey then none else some tx.vout[i] := by
  rw [spendableOutput, if_pos rfl, toNat_ofNat_index hi hlen, List.getElem?_eq_getElem hi,
    Option.filter_some]
  cases isUnspendable tx.vout[i].scriptPubKey <;> rfl

theorem spendableOutput_of_length_le {tx : CTransaction} {outpoint : COutPoint}
    (h : tx.vout.length ≤ outpoint.n.toNat) : spendableOutput tx outpoint = none := by
  unfold spendableOutput
  rw [List.getElem?_eq_none_iff.mpr h]
  split <;> rfl

/-- A loop over the outputs from index `i` on, at one more output. -/
theorem cons_eq_drop {α : Type} {l rest : List α} {i : Nat} {a : α} (h : a :: rest = l.drop i) :
    ∃ hi : i < l.length, a = l[i] ∧ rest = l.drop (i + 1) := by
  have hi : i < l.length := by
    by_contra hge
    rw [List.drop_eq_nil_of_le (by omega)] at h
    cases h
  rw [List.drop_eq_getElem_cons hi, List.cons.injEq] at h
  exact ⟨hi, h⟩

-- ---------------------------------------------------------------------------
-- Connecting and disconnecting one transaction
-- ---------------------------------------------------------------------------

/-- The input loop of `UpdateCoins`: the outpoints `tx` spends are removed. -/
def spendInputsView (utxo : COutPoint → Option Coin) (tx : CTransaction) :
    COutPoint → Option Coin := fun o =>
  if o ∈ tx.spends then none else utxo o

/-- `AddCoins` of `tx` at `nHeight`: its spendable outputs added as coins of that height. -/
def addOutputsView (utxo : COutPoint → Option Coin) (tx : CTransaction) (nHeight : Int) :
    COutPoint → Option Coin := fun o =>
  match spendableOutput tx o with
  | some out => some ⟨out, tx.isCoinBase, coinHeight nHeight⟩
  | none => utxo o

/-- The UTXO set after `UpdateCoins` of `tx` at `nHeight`. -/
def applyTx (utxo : COutPoint → Option Coin) (tx : CTransaction) (nHeight : Int) :
    COutPoint → Option Coin :=
  addOutputsView (spendInputsView utxo tx) tx nHeight

/-- The coins that `UpdateCoins` moves into the undo data of `tx`: those its inputs spend. -/
def spentCoins (utxo : COutPoint → Option Coin) (tx : CTransaction) : List Coin :=
  tx.spends.map fun p => (utxo p).getD Coin.empty

/-- The output check of `DisconnectBlock`: every spendable output of `tx` is spent. -/
def spendOutputsView (utxo : COutPoint → Option Coin) (tx : CTransaction) :
    COutPoint → Option Coin := fun o =>
  if (spendableOutput tx o).isSome then none else utxo o

/-- `ApplyTxInUndo` of the coins `undo` at the outpoints `spends`: each coin is put back,
unless its script is unspendable, which `AddCoin` skips. -/
def restoreView (utxo : COutPoint → Option Coin) (spends : List COutPoint) (undo : List Coin) :
    COutPoint → Option Coin := fun o =>
  match (spends.zip undo).lookup o with
  | some coin => if isUnspendable coin.out.scriptPubKey then utxo o else some coin
  | none => utxo o

/-- One pass of the loop of `DisconnectBlock`, for `tx` with the coins `undo`. -/
def revertTx (utxo : COutPoint → Option Coin) (tx : CTransaction) (undo : List Coin) :
    COutPoint → Option Coin :=
  restoreView (spendOutputsView utxo tx) tx.spends undo

theorem applyTx_of_spendableOutput {utxo : COutPoint → Option Coin} {tx : CTransaction}
    {nHeight : Int} {o : COutPoint} {out : CTxOut} (h : spendableOutput tx o = some out) :
    applyTx utxo tx nHeight o = some ⟨out, tx.isCoinBase, coinHeight nHeight⟩ := by
  simp only [applyTx, addOutputsView, h]

theorem applyTx_of_spends {utxo : COutPoint → Option Coin} {tx : CTransaction} {nHeight : Int}
    {o : COutPoint} (hout : spendableOutput tx o = none) (h : o ∈ tx.spends) :
    applyTx utxo tx nHeight o = none := by
  simp only [applyTx, addOutputsView, spendInputsView, hout, if_pos h]

theorem applyTx_of_untouched {utxo : COutPoint → Option Coin} {tx : CTransaction}
    {nHeight : Int} {o : COutPoint} (hout : spendableOutput tx o = none) (h : o ∉ tx.spends) :
    applyTx utxo tx nHeight o = utxo o := by
  simp only [applyTx, addOutputsView, spendInputsView, hout, if_neg h]

/-- Looking up a key in the list of keys paired with their images. -/
theorem lookup_zip_map_self {α β : Type} [DecidableEq α] (f : α → β) (k : α) :
    ∀ keys : List α, (keys.zip (keys.map f)).lookup k = if k ∈ keys then some (f k) else none
  | [] => rfl
  | a :: keys => by
    by_cases hk : k = a
    · subst hk
      simp
    · have hne : (k == a) = false := by simpa using hk
      simp [List.lookup_cons, hne, hk, lookup_zip_map_self f k keys]

/-- Looking up a key in a reversed list whose keys are distinct. -/
theorem lookup_reverse_of_nodup {α β : Type} [DecidableEq α] (k : α) :
    ∀ l : List (α × β), (l.map Prod.fst).Nodup → l.reverse.lookup k = l.lookup k
  | [] => fun _ => rfl
  | (a, b) :: l => fun h => by
    rw [List.map_cons, List.nodup_cons] at h
    rw [List.reverse_cons, List.lookup_append, lookup_reverse_of_nodup k l h.2]
    by_cases hk : k = a
    · subst hk
      have hnone : l.lookup k = none :=
        List.lookup_eq_none_iff.mpr fun q hq => bne_iff_ne.mpr fun heq =>
          h.1 (by rw [heq]; exact List.mem_map.mpr ⟨q, hq, rfl⟩)
      simp [hnone]
    · have hne : (k == a) = false := by simpa using hk
      simp [List.lookup_cons, hne]

/-- Putting back the first coin, at an outpoint the others do not name, then the others. -/
theorem restoreView_cons (utxo : COutPoint → Option Coin) {p : COutPoint} {spends : List COutPoint}
    (u : Coin) (undo : List Coin) (hp : p ∉ spends) :
    restoreView utxo (p :: spends) (u :: undo) =
      restoreView (if isUnspendable u.out.scriptPubKey then utxo
        else Function.update utxo p (some u)) spends undo := by
  funext o
  unfold restoreView
  rw [List.zip_cons_cons, List.lookup_cons]
  by_cases ho : o = p
  · subst ho
    have hnone : (spends.zip undo).lookup o = none :=
      List.lookup_eq_none_iff.mpr fun ⟨q₁, q₂⟩ hq => bne_iff_ne.mpr fun heq =>
        hp (by rw [heq]; exact (List.of_mem_zip hq).1)
    simp only [beq_self_eq_true, hnone]
    split <;> simp
  · -- elsewhere the first coin changes nothing
    have hne : (o == p) = false := by simpa using ho
    have hother : (if isUnspendable u.out.scriptPubKey then utxo
        else Function.update utxo p (some u)) o = utxo o := by
      split
      · rfl
      · exact Function.update_of_ne ho _ _
    simp only [hne, hother]

/-- The order in which the coins are put back does not matter when the outpoints are
distinct. -/
theorem restoreView_reverse (utxo : COutPoint → Option Coin) {spends : List COutPoint}
    {undo : List Coin} (hnd : spends.Nodup) (hlen : spends.length = undo.length) :
    restoreView utxo spends.reverse undo.reverse = restoreView utxo spends undo := by
  funext o
  unfold restoreView
  have hzip : spends.reverse.zip undo.reverse = (spends.zip undo).reverse :=
    (List.reverse_zipWith hlen).symm
  rw [hzip, lookup_reverse_of_nodup o _ (by rw [List.map_fst_zip (Nat.le_of_eq hlen)]; exact hnd)]

/-- What `revertTx_applyTx` needs of a transaction and of the UTXO set it is connected on:
its inputs spend distinct unspent coins with spendable scripts, and no output of its txid
is unspent. -/
structure TxRevertible (utxo : COutPoint → Option Coin) (tx : CTransaction) : Prop where
  spends_nodup : tx.spends.Nodup
  spends_unspent : ∀ p ∈ tx.spends,
    ∃ coin, utxo p = some coin ∧ isUnspendable coin.out.scriptPubKey = false
  txid_unused : ∀ n, utxo ⟨tx.hash, n⟩ = none

/-- Disconnecting a transaction with the coins it spent gives back the UTXO set it was
connected on. -/
theorem revertTx_applyTx {utxo : COutPoint → Option Coin} {tx : CTransaction} (nHeight : Int)
    (h : TxRevertible utxo tx) : revertTx (applyTx utxo tx nHeight) tx (spentCoins utxo tx) = utxo := by
  funext o
  unfold revertTx restoreView spentCoins
  rw [lookup_zip_map_self]
  by_cases hs : o ∈ tx.spends
  · -- a spent outpoint gets its coin back
    obtain ⟨coin, hcoin, hspend⟩ := h.spends_unspent o hs
    simp [hs, hcoin, hspend]
  · -- elsewhere only the outputs changed, and they were not unspent before
    rw [if_neg hs]
    dsimp only
    unfold spendOutputsView
    cases hout : spendableOutput tx o with
    | some out =>
      obtain ⟨hhash, -, -⟩ := spendableOutput_eq_some hout
      have hunused := h.txid_unused o.n
      rw [← hhash] at hunused
      simpa using hunused.symm
    | none => simp [applyTx_of_untouched hout hs]

-- ---------------------------------------------------------------------------
-- A block
-- ---------------------------------------------------------------------------

/-- The UTXO set after the transactions `txs`, in order. -/
def applyTxs (utxo : COutPoint → Option Coin) (txs : List CTransaction) (nHeight : Int) :
    COutPoint → Option Coin :=
  txs.foldl (fun utxo tx => applyTx utxo tx nHeight) utxo

@[simp] theorem applyTxs_nil (utxo : COutPoint → Option Coin) (nHeight : Int) :
    applyTxs utxo [] nHeight = utxo := rfl

theorem applyTxs_cons (utxo : COutPoint → Option Coin) (tx : CTransaction)
    (txs : List CTransaction) (nHeight : Int) :
    applyTxs utxo (tx :: txs) nHeight = applyTxs (applyTx utxo tx nHeight) txs nHeight := rfl

theorem applyTxs_append (utxo : COutPoint → Option Coin) (txs txs' : List CTransaction)
    (nHeight : Int) :
    applyTxs utxo (txs ++ txs') nHeight = applyTxs (applyTxs utxo txs nHeight) txs' nHeight :=
  List.foldl_append

/-- An outpoint that no transaction of `txs` spends or creates keeps its coin. -/
theorem applyTxs_of_untouched {o : COutPoint} {nHeight : Int} :
    ∀ (txs : List CTransaction) (utxo : COutPoint → Option Coin),
      (∀ t ∈ txs, spendableOutput t o = none ∧ o ∉ t.spends) → applyTxs utxo txs nHeight o = utxo o
  | [], _, _ => rfl
  | t :: txs, utxo, h => by
    obtain ⟨hout, hs⟩ := h t List.mem_cons_self
    rw [applyTxs_cons, applyTxs_of_untouched txs _ fun t' ht' => h t' (List.mem_cons_of_mem t ht'),
      applyTx_of_untouched hout hs]

/-- An outpoint without a coin that no transaction of `txs` creates stays without one. -/
theorem applyTxs_eq_none {o : COutPoint} {nHeight : Int} :
    ∀ (txs : List CTransaction) (utxo : COutPoint → Option Coin), utxo o = none →
      (∀ t ∈ txs, spendableOutput t o = none) → applyTxs utxo txs nHeight o = none
  | [], _, h, _ => h
  | t :: txs, utxo, h, hout => by
    have hstep : applyTx utxo t nHeight o = none := by
      simp only [applyTx, addOutputsView, spendInputsView, hout t List.mem_cons_self, h, ite_self]
    rw [applyTxs_cons]
    exact applyTxs_eq_none txs _ hstep fun t' ht' => hout t' (List.mem_cons_of_mem t ht')

/-- The conditions on a block and the UTXO set before it under which disconnecting the
block restores that set: distinct txids without unspent outputs, and inputs that spend
distinct outpoints, each an unspent coin with a spendable script or a spendable output
of an earlier transaction of the block. -/
structure BlockRevertible (utxo : COutPoint → Option Coin) (block : List CTransaction) : Prop where
  txids_nodup : (block.map (·.hash)).Nodup
  txids_unused : ∀ tx ∈ block, ∀ n, utxo ⟨tx.hash, n⟩ = none
  spends_nodup : (block.flatMap (·.spends)).Nodup
  spends_available : ∀ pre tx post, block = pre ++ tx :: post → ∀ p ∈ tx.spends,
    (∃ coin, utxo p = some coin ∧ isUnspendable coin.out.scriptPubKey = false) ∨
      ∃ t ∈ pre, (spendableOutput t p).isSome

/-- The element in the middle of a list without duplicate images has an image of its own. -/
theorem ne_of_nodup_map_middle {α β : Type} {f : α → β} {pre post : List α} {x : α}
    (h : ((pre ++ x :: post).map f).Nodup) : ∀ y ∈ pre ++ post, f y ≠ f x := by
  rw [List.map_append, List.map_cons, List.nodup_append] at h
  obtain ⟨-, hafter, hdisj⟩ := h
  intro y hy
  rcases List.mem_append.mp hy with hy | hy
  · exact hdisj (f y) (List.mem_map_of_mem hy) (f x) List.mem_cons_self
  · intro hxy
    exact (List.nodup_cons.mp hafter).1 (hxy ▸ List.mem_map_of_mem hy)

/-- The list in the middle of a concatenation without duplicates shares no element with
the others. -/
theorem not_mem_of_nodup_flatMap_middle {α β : Type} {f : α → List β} {pre post : List α} {x : α}
    (h : ((pre ++ x :: post).flatMap f).Nodup) {b : β} (hb : b ∈ f x) :
    ∀ y ∈ pre ++ post, b ∉ f y := by
  rw [List.flatMap_append, List.flatMap_cons, List.nodup_append] at h
  obtain ⟨-, hafter, hdisj⟩ := h
  intro y hy hby
  rcases List.mem_append.mp hy with hy | hy
  · exact hdisj b (List.mem_flatMap.mpr ⟨y, hy, hby⟩) b (List.mem_append_left _ hb) rfl
  · exact (List.nodup_append.mp hafter).2.2 b hb b (List.mem_flatMap.mpr ⟨y, hy, hby⟩) rfl

section Block

variable {utxo : COutPoint → Option Coin} {block pre post : List CTransaction} {tx : CTransaction}
  {nHeight : Int}

/-- Where an input of a transaction of a revertible block finds its coin, on the UTXO set
its transaction is connected on: it is still the coin it was before the block, or the
coin an earlier transaction created. -/
theorem applyTxs_spends (h : BlockRevertible utxo block) (hsplit : block = pre ++ tx :: post)
    {p : COutPoint} (hp : p ∈ tx.spends) :
    (∃ coin, applyTxs utxo pre nHeight p = some coin ∧ utxo p = some coin ∧
        isUnspendable coin.out.scriptPubKey = false) ∨
      ∃ t ∈ pre, ∃ out, spendableOutput t p = some out ∧
        applyTxs utxo pre nHeight p = some ⟨out, t.isCoinBase, coinHeight nHeight⟩ := by
  have hspends := h.spends_nodup
  have htxids := h.txids_nodup
  rw [hsplit] at hspends htxids
  -- no earlier transaction spends the input again
  have hnot : ∀ t ∈ pre, p ∉ t.spends := fun t ht =>
    not_mem_of_nodup_flatMap_middle hspends hp t (List.mem_append_left _ ht)
  rcases h.spends_available pre tx post hsplit p hp with ⟨coin, hcoin, hspend⟩ | ⟨t, ht, hsome⟩
  · -- a coin of the set before the block: no transaction of the block has its txid
    refine .inl ⟨coin, ?_, hcoin, hspend⟩
    rw [applyTxs_of_untouched pre utxo fun t ht' => ⟨?_, hnot t ht'⟩, hcoin]
    apply spendableOutput_of_hash_ne
    intro hhash
    have hunused := h.txids_unused t (hsplit ▸ List.mem_append_left _ ht') p.n
    rw [← hhash] at hunused
    rw [hunused] at hcoin
    cases hcoin
  · -- an output of `t`: later transactions have other txids
    obtain ⟨out, hout⟩ := Option.isSome_iff_exists.mp hsome
    obtain ⟨pre₁, pre₂, rfl⟩ := List.append_of_mem ht
    refine .inr ⟨t, ht, out, hout, ?_⟩
    have hhash := (spendableOutput_eq_some hout).1
    have htxids' : ((pre₁ ++ t :: pre₂).map (·.hash)).Nodup :=
      (List.nodup_append.mp (List.map_append ▸ htxids)).1
    rw [applyTxs_append, applyTxs_cons, applyTxs_of_untouched pre₂ _ fun t' ht' => ⟨?_, ?_⟩,
      applyTx_of_spendableOutput hout]
    · apply spendableOutput_of_hash_ne
      rw [hhash]
      exact (ne_of_nodup_map_middle htxids' t' (List.mem_append_right _ ht')).symm
    · exact hnot t' (List.mem_append_right _ (List.mem_cons_of_mem t ht'))

/-- Every transaction of a revertible block is revertible on the UTXO set it is
connected on. -/
theorem txRevertible_of_block (h : BlockRevertible utxo block) (hsplit : block = pre ++ tx :: post) :
    TxRevertible (applyTxs utxo pre nHeight) tx := by
  have hspends := h.spends_nodup
  have htxids := h.txids_nodup
  rw [hsplit] at hspends htxids
  refine ⟨?_, fun p hp => ?_, fun n => ?_⟩
  · rw [List.flatMap_append, List.flatMap_cons] at hspends
    exact (List.nodup_append.mp (List.nodup_append.mp hspends).2.1).1
  · rcases applyTxs_spends h hsplit hp with ⟨coin, hcoin, -, hspend⟩ | ⟨t, -, out, hout, hcoin⟩
    · exact ⟨coin, hcoin, hspend⟩
    · exact ⟨_, hcoin, (spendableOutput_eq_some hout).2.2⟩
  · -- the txid is new, and earlier transactions have other txids
    refine applyTxs_eq_none pre utxo (h.txids_unused tx (by simp [hsplit]) n) fun t ht => ?_
    exact spendableOutput_of_hash_ne (ne_of_nodup_map_middle htxids t (List.mem_append_left _ ht)).symm

end Block

end Riecoin
