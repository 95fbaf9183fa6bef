-- SUMMARY: SpendCoin with moveout, UpdateCoins, AddCoins and the loop of ConnectBlock that collects the undo data, on a cache over the layers under it; each refines the UTXO-set transitions of Utxo.
import Riecoin.Validation.Utxo
import Riecoin.Coins.Invariant

/-!
# Connecting a block to the coins cache

`validation.cpp` connects a block to a `CCoinsViewCache` called `view`, which sits over the
caches and the base view under it (`CacheView`). `UpdateCoins` spends the inputs of a
transaction with `SpendCoin`, moving each spent coin into the undo data of the
transaction, and adds its outputs with `AddCoins`; `ConnectBlock` does so for every
transaction in order and keeps the undo data of all but the coinbase.

Each function has a spec lemma on the UTXO set that the view shows (`CacheView.coins`):
`updateCoins_spec` says that `UpdateCoins` succeeds, keeps the DIRTY/FRESH invariant,
shows `applyTx` of what the view showed and records `spentCoins`, when the transaction is
`TxConnectable` there; `connectBlockCoins_spec` lifts that to a block.
-/

namespace Riecoin

/-- The cache `view` that validation works on, and the caches under it, the next first. -/
structure CacheView where
  cache : CCoinsViewCache
  below : List CCoinsViewCache

namespace CacheView

/-- The UTXO set that the view shows: its coins laid over those of the layers under it. -/
def coins (base : COutPoint → Option Coin) (view : CacheView) : COutPoint → Option Coin :=
  peekCoin base (view.cache :: view.below)

/-- The DIRTY/FRESH invariant of the view and of every layer under it. -/
def Inv (base : COutPoint → Option Coin) (view : CacheView) : Prop :=
  StackInv base (view.cache :: view.below)

end CacheView

variable {base : COutPoint → Option Coin}

-- ---------------------------------------------------------------------------
-- The cache operations on a view
-- ---------------------------------------------------------------------------

/-- `CCoinsViewCache::SpendCoin` with `moveout`: also the coin of the entry it spends,
moved out, or `moveout` unchanged when there is no entry. -/
def spendCoinMoveout (base : COutPoint → Option Coin) (view : CacheView) (outpoint : COutPoint)
    (moveout : Coin) : Bool × Coin × CacheView :=
  match fetchCoin base view.cache view.below outpoint with
  | (none, cache', below') => (false, moveout, ⟨cache', below'⟩)
  | (some entry, cache', below') =>
    if entry.fresh then (true, entry.coin, ⟨cache'.store outpoint none, below'⟩)
    else (true, entry.coin,
      ⟨cache'.store outpoint (some { entry with coin := entry.coin.clear, dirty := true }), below'⟩)

/-- Without the coin moved out, `SpendCoin` with `moveout` is `SpendCoin`. -/
theorem spendCoin_eq_spendCoinMoveout (base : COutPoint → Option Coin) (view : CacheView)
    (outpoint : COutPoint) (moveout : Coin) :
    spendCoin base view.cache view.below outpoint =
      ((spendCoinMoveout base view outpoint moveout).1,
        (spendCoinMoveout base view outpoint moveout).2.2.cache,
        (spendCoinMoveout base view outpoint moveout).2.2.below) := by
  unfold spendCoin spendCoinMoveout
  rcases fetchCoin base view.cache view.below outpoint with ⟨_ | entry, cache', below'⟩
  · rfl
  · dsimp only
    split <;> rfl

/-- `SpendCoin` with `moveout` removes the coin from the view, and moves out the coin the
view showed. -/
theorem spendCoinMoveout_spec {view view' : CacheView} {outpoint : COutPoint} {moveout coin : Coin}
    {b : Bool} (h : view.Inv base)
    (hs : spendCoinMoveout base view outpoint moveout = (b, coin, view')) :
    view'.Inv base ∧ view'.coins base = Function.update (view.coins base) outpoint none ∧
      ∀ c, view.coins base outpoint = some c → b = true ∧ coin = c := by
  have hspend := spendCoin_eq_spendCoinMoveout base view outpoint moveout
  rw [hs] at hspend
  obtain ⟨hinv, hgone, hframe, -⟩ := spendCoin_spec h hspend
  refine ⟨hinv, funext fun o => ?_, fun c hc => ?_⟩
  · by_cases ho : o = outpoint
    · subst ho
      rw [Function.update_self]
      exact hgone
    · rw [Function.update_of_ne ho]
      exact hframe o ho
  · -- the entry that `FetchCoin` finds holds the coin the view shows
    unfold spendCoinMoveout at hs
    rcases hf : fetchCoin base view.cache view.below outpoint with ⟨entry, cache₁, below₁⟩
    obtain ⟨-, -, -, hbind, -⟩ := fetchCoin_spec h hf
    rw [hf] at hs
    unfold CacheView.coins at hc
    rw [← hbind] at hc
    cases entry with
    | none => cases hc
    | some e =>
      have hcoin : e.coin = c := (Coin.unspent_eq_some_iff.mp hc).2
      dsimp only at hs
      split at hs <;>
      · cases hs
        exact ⟨rfl, hcoin⟩

/-- `HaveCoin` on the view: whether it shows a coin; the view shows the same after it. -/
theorem haveCoin_spec {view : CacheView} {outpoint : COutPoint} {b : Bool}
    {cache' : CCoinsViewCache} {below' : List CCoinsViewCache} (h : view.Inv base)
    (hh : haveCoin base view.cache view.below outpoint = (b, cache', below')) :
    CacheView.Inv base ⟨cache', below'⟩ ∧ CacheView.coins base ⟨cache', below'⟩ = view.coins base ∧
      b = (view.coins base outpoint).isSome := by
  unfold haveCoin at hh
  rcases hf : fetchCoin base view.cache view.below outpoint with ⟨entry, cache₁, below₁⟩
  rw [hf] at hh
  cases hh
  obtain ⟨hinv, hview, -, hbind, -⟩ := fetchCoin_spec h hf
  exact ⟨hinv, funext hview, by rw [have_accessed, hbind]; rfl⟩

/-- `AccessCoin` on the view: a coin that shows what the view shows; the view shows the same
after it. -/
theorem accessCoin_spec {view : CacheView} {outpoint : COutPoint} {coin : Coin}
    {cache' : CCoinsViewCache} {below' : List CCoinsViewCache} (h : view.Inv base)
    (ha : accessCoin base view.cache view.below outpoint = (coin, cache', below')) :
    CacheView.Inv base ⟨cache', below'⟩ ∧ CacheView.coins base ⟨cache', below'⟩ = view.coins base ∧
      coin.unspent = view.coins base outpoint := by
  unfold accessCoin at ha
  rcases hf : fetchCoin base view.cache view.below outpoint with ⟨entry, cache₁, below₁⟩
  rw [hf] at ha
  cases ha
  obtain ⟨hinv, hview, -, hbind, -⟩ := fetchCoin_spec h hf
  exact ⟨hinv, funext hview, by rw [unspent_accessed, hbind]; rfl⟩

/-- `AddCoin` on the view of an unspent coin, overwriting only when allowed to or where the
view shows nothing: it succeeds, and the view shows the coin unless its script is
unspendable. -/
theorem addCoin_view_spec {view : CacheView} (outpoint : COutPoint) {coin : Coin}
    (possibleOverwrite : Bool) (h : view.Inv base) (hcoin : coin.isSpent = false)
    (hnone : possibleOverwrite = false → view.coins base outpoint = none) :
    ∃ cache', addCoin view.cache outpoint coin possibleOverwrite = .ok cache' ∧
      CacheView.Inv base ⟨cache', view.below⟩ ∧
      CacheView.coins base ⟨cache', view.below⟩ =
        if isUnspendable coin.out.scriptPubKey then view.coins base
        else Function.update (view.coins base) outpoint (some coin) := by
  have hnone' : possibleOverwrite = false →
      overlay (view.cache.cacheCoins outpoint) (peekCoin base view.below outpoint) = none := by
    intro hpo
    rw [← peekCoin_cons]
    exact hnone hpo
  obtain ⟨cache', hadd, hinv, hshow, hframe⟩ := addCoin_spec h.1 hcoin hnone'
  refine ⟨cache', hadd, ⟨hinv, h.2⟩, funext fun o => ?_⟩
  simp only [CacheView.coins, peekCoin_cons]
  split
  · next hu => rw [hframe o (.inr hu), peekCoin_cons]
  · next hu =>
    have hu' : isUnspendable coin.out.scriptPubKey = false := by simpa using hu
    by_cases ho : o = outpoint
    · subst ho
      rw [hshow hu', Function.update_self]
    · rw [hframe o (.inl ho), Function.update_of_ne ho, peekCoin_cons]

-- ---------------------------------------------------------------------------
-- UpdateCoins
-- ---------------------------------------------------------------------------

/-- The input loop of `UpdateCoins`: for each input a new coin at the back of
`txundo.vprevout`, into which `SpendCoin` moves the spent coin, then `assert(is_spent)`. -/
def spendInputs (base : COutPoint → Option Coin) :
    List CTxIn → CTxUndo → CacheView → Except String (CTxUndo × CacheView)
  | [], txundo, view => .ok (txundo, view)
  | txin :: vin, txundo, view =>
    match spendCoinMoveout base view txin.prevout Coin.empty with
    | (is_spent, coin, view') =>
      if is_spent then spendInputs base vin ⟨txundo.vprevout ++ [coin]⟩ view'
      else .error "assert(is_spent)"

@[simp] theorem spendInputs_nil (base : COutPoint → Option Coin) (txundo : CTxUndo) (view : CacheView) :
    spendInputs base [] txundo view = .ok (txundo, view) := rfl

theorem spendInputs_cons (base : COutPoint → Option Coin) (txin : CTxIn) (vin : List CTxIn)
    (txundo : CTxUndo) (view : CacheView) :
    spendInputs base (txin :: vin) txundo view =
      match spendCoinMoveout base view txin.prevout Coin.empty with
      | (is_spent, coin, view') =>
        if is_spent then spendInputs base vin ⟨txundo.vprevout ++ [coin]⟩ view'
        else .error "assert(is_spent)" := rfl

/-- The loop of `AddCoins` from output `i` on: each output becomes a coin of the height and
the coinbase flag of `tx` at `COutPoint(txid, i)`, which may overwrite an unspent coin when
`check_for_overwrite` finds one there or, without the check, for a coinbase. -/
def addCoinsFrom (base : COutPoint → Option Coin) (tx : CTransaction) (nHeight : Int)
    (check_for_overwrite : Bool) : Nat → List CTxOut → CacheView → Except String CacheView
  | _, [], view => .ok view
  | i, out :: vout, view =>
    let outpoint : COutPoint := ⟨tx.hash, UInt32.ofNat i⟩
    match (if check_for_overwrite then haveCoin base view.cache view.below outpoint
      else (tx.isCoinBase, view.cache, view.below)) with
    | (overwrite, cache, below) =>
      match addCoin cache outpoint ⟨out, tx.isCoinBase, coinHeight nHeight⟩ overwrite with
      | .ok cache' => addCoinsFrom base tx nHeight check_for_overwrite (i + 1) vout ⟨cache', below⟩
      | .error e => .error e

theorem addCoinsFrom_cons (base : COutPoint → Option Coin) (tx : CTransaction) (nHeight : Int)
    (check_for_overwrite : Bool) (i : Nat) (out : CTxOut) (vout : List CTxOut) (view : CacheView) :
    addCoinsFrom base tx nHeight check_for_overwrite i (out :: vout) view =
      match (if check_for_overwrite then haveCoin base view.cache view.below ⟨tx.hash, UInt32.ofNat i⟩
        else (tx.isCoinBase, view.cache, view.below)) with
      | (overwrite, cache, below) =>
        match addCoin cache ⟨tx.hash, UInt32.ofNat i⟩ ⟨out, tx.isCoinBase, coinHeight nHeight⟩ overwrite with
        | .ok cache' => addCoinsFrom base tx nHeight check_for_overwrite (i + 1) vout ⟨cache', below⟩
        | .error e => .error e := rfl

/-- `AddCoins`. -/
def addCoins (base : COutPoint → Option Coin) (view : CacheView) (tx : CTransaction)
    (nHeight : Int) (check_for_overwrite : Bool) : Except String CacheView :=
  addCoinsFrom base tx nHeight check_for_overwrite 0 tx.vout view

/-- The inputs half of `UpdateCoins`: a coinbase spends nothing. -/
def spendTxInputs (base : COutPoint → Option Coin) (tx : CTransaction) (txundo : CTxUndo)
    (view : CacheView) : Except String (CTxUndo × CacheView) :=
  if tx.isCoinBase then .ok (txundo, view) else spendInputs base tx.vin txundo view

/-- `UpdateCoins`: the inputs spent into `txundo`, then `AddCoins` without the overwrite
check. -/
def updateCoins (base : COutPoint → Option Coin) (tx : CTransaction) (view : CacheView)
    (txundo : CTxUndo) (nHeight : Int) : Except String (CTxUndo × CacheView) := do
  let (txundo, view) ← spendTxInputs base tx txundo view
  let view ← addCoins base view tx nHeight false
  pure (txundo, view)

/-- The input loop spends distinct inputs that the view shows coins at: they are gone from
the view, and their coins are at the back of the undo data, in order. -/
theorem spendInputs_spec :
    ∀ (vin : List CTxIn) (txundo : CTxUndo) (view : CacheView), view.Inv base →
      (vin.map (·.prevout)).Nodup → (∀ txin ∈ vin, (view.coins base txin.prevout).isSome) →
      ∃ view', spendInputs base vin txundo view =
          .ok (⟨txundo.vprevout ++ vin.map fun txin => (view.coins base txin.prevout).getD Coin.empty⟩,
            view') ∧
        view'.Inv base ∧
        view'.coins base = fun o => if o ∈ vin.map (·.prevout) then none else view.coins base o
  | [], txundo, view, h, _, _ => ⟨view, by simp, h, by simp⟩
  | txin :: vin, txundo, view, h, hnd, hsome => by
    obtain ⟨c, hc⟩ := Option.isSome_iff_exists.mp (hsome txin List.mem_cons_self)
    rcases hs : spendCoinMoveout base view txin.prevout Coin.empty with ⟨b, coin, view₁⟩
    obtain ⟨hinv₁, hview₁, hmoved⟩ := spendCoinMoveout_spec h hs
    obtain ⟨rfl, rfl⟩ := hmoved c hc
    rw [List.map_cons, List.nodup_cons] at hnd
    -- the other inputs still see their coins after the first is spent
    have hrest : ∀ t ∈ vin, view₁.coins base t.prevout = view.coins base t.prevout := by
      intro t ht
      rw [hview₁, Function.update_of_ne]
      intro heq
      exact hnd.1 (heq ▸ List.mem_map_of_mem ht)
    obtain ⟨view', hrun, hinv', hview'⟩ := spendInputs_spec vin ⟨txundo.vprevout ++ [coin]⟩ view₁
      hinv₁ hnd.2 fun t ht => by
        rw [hrest t ht]
        exact hsome t (List.mem_cons_of_mem _ ht)
    refine ⟨view', ?_, hinv', ?_⟩
    · rw [spendInputs_cons, hs]
      dsimp only
      rw [if_pos rfl, hrun, List.map_congr_left fun t ht => by rw [hrest t ht]]
      simp [hc]
    · funext o
      rw [hview', hview₁]
      by_cases ho : o = txin.prevout
      · simp [ho]
      · simp [ho]

/-- The loop of `AddCoins` from output `i` on, without the overwrite check, adds the
spendable outputs from `i` on, when their indices fit `COutPoint::n` and, but for a
coinbase, the view shows no coin at them. -/
theorem addCoinsFrom_spec {tx : CTransaction} (nHeight : Int) (hlen : tx.vout.length ≤ 2 ^ 32)
    (hvalue : ∀ out ∈ tx.vout, out.nValue ≠ -1) :
    ∀ (vout : List CTxOut) (i : Nat) (view : CacheView), vout = tx.vout.drop i → view.Inv base →
      (tx.isCoinBase = false → ∀ n : UInt32, i ≤ n.toNat → view.coins base ⟨tx.hash, n⟩ = none) →
      ∃ view', addCoinsFrom base tx nHeight false i vout view = .ok view' ∧ view'.Inv base ∧
        ∀ o, view'.coins base o =
          if i ≤ o.n.toNat then addOutputsView (view.coins base) tx nHeight o else view.coins base o
  | [], i, view, hdrop, h, _ => by
    refine ⟨view, rfl, h, fun o => ?_⟩
    split
    · -- no output is left from `i` on
      next hi =>
      have hge := List.drop_eq_nil_iff.mp hdrop.symm
      simp [addOutputsView, spendableOutput_of_length_le (show tx.vout.length ≤ o.n.toNat by omega)]
    · rfl
  | out :: vout, i, view, hdrop, h, hfresh => by
    obtain ⟨hi, rfl, hrest⟩ := cons_eq_drop hdrop
    have hn := toNat_ofNat_index hi hlen
    -- the output at `i` is added
    have hcoin : Coin.isSpent ⟨tx.vout[i], tx.isCoinBase, coinHeight nHeight⟩ = false := by
      simpa [Coin.isSpent, CTxOut.isNull] using hvalue _ (List.getElem_mem hi)
    obtain ⟨cache₁, hadd, hinv₁, hview₁⟩ := addCoin_view_spec ⟨tx.hash, UInt32.ofNat i⟩
      tx.isCoinBase h hcoin fun hpo => hfresh hpo _ (by rw [hn])
    have hframe : ∀ o, o.n.toNat ≠ i →
        CacheView.coins base ⟨cache₁, view.below⟩ o = view.coins base o := by
      intro o ho
      rw [hview₁]
      split
      · rfl
      · rw [Function.update_of_ne (COutPoint.ne_of_index_ne hn ho)]
    obtain ⟨view', hrun, hinv', hview'⟩ := addCoinsFrom_spec nHeight hlen hvalue vout (i + 1)
      ⟨cache₁, view.below⟩ hrest hinv₁ fun hcb n hni => by
        rw [hframe _ (show n.toNat ≠ i by omega)]
        exact hfresh hcb n (by omega)
    refine ⟨view', ?_, hinv', fun o => ?_⟩
    · simp only [addCoinsFrom_cons, if_neg Bool.false_ne_true, hadd]
      exact hrun
    rw [hview' o]
    by_cases hlt : i + 1 ≤ o.n.toNat
    · rw [if_pos hlt, if_pos (by omega)]
      unfold addOutputsView
      split
      · rfl
      · exact hframe o (by omega)
    · rw [if_neg hlt]
      by_cases heq : o.n.toNat = i
      · -- the outpoint of output `i`
        rw [if_pos (by omega), hview₁]
        by_cases hhash : o.hash = tx.hash
        · rw [COutPoint.eq_of_index hhash heq]
          unfold addOutputsView
          rw [spendableOutput_index hi hlen]
          cases hu : isUnspendable tx.vout[i].scriptPubKey <;> simp
        · simp only [addOutputsView, spendableOutput_of_hash_ne hhash]
          split
          · rfl
          · rw [Function.update_of_ne (COutPoint.ne_of_hash_ne hhash)]
      · rw [if_neg (by omega)]
        exact hframe o heq

/-- What `UpdateCoins` of `tx` needs of the UTXO set that the view shows: distinct inputs
with coins, no unspent output of its txid but for a coinbase, which overwrites, and
unspent outputs whose indices fit `COutPoint::n`. -/
structure TxConnectable (utxo : COutPoint → Option Coin) (tx : CTransaction) : Prop where
  spends_nodup : tx.spends.Nodup
  spends_unspent : ∀ p ∈ tx.spends, (utxo p).isSome
  txid_unused : tx.isCoinBase = false → ∀ n, utxo ⟨tx.hash, n⟩ = none
  vout_unspent : ∀ out ∈ tx.vout, out.nValue ≠ -1
  vout_length : tx.vout.length ≤ 2 ^ 32

/-- `UpdateCoins` refines `applyTx`: it succeeds, keeps the invariant, shows `applyTx` of
what the view showed, and puts the spent coins at the back of the undo data. -/
theorem updateCoins_spec {tx : CTransaction} {view : CacheView} (nHeight : Int)
    (txundo : CTxUndo) (h : view.Inv base) (hc : TxConnectable (view.coins base) tx) :
    ∃ view', updateCoins base tx view txundo nHeight =
        .ok (⟨txundo.vprevout ++ spentCoins (view.coins base) tx⟩, view') ∧
      view'.Inv base ∧ view'.coins base = applyTx (view.coins base) tx nHeight := by
  -- the inputs half shows `spendInputsView`
  obtain ⟨view₁, hspend, hinv₁, hview₁⟩ : ∃ view₁, spendTxInputs base tx txundo view =
      .ok (⟨txundo.vprevout ++ spentCoins (view.coins base) tx⟩, view₁) ∧ view₁.Inv base ∧
      view₁.coins base = spendInputsView (view.coins base) tx := by
    unfold spendTxInputs spentCoins spendInputsView
    cases hcb : tx.isCoinBase
    · have hspends := CTransaction.spends_of_not_coinBase hcb
      have hnd := hc.spends_nodup
      rw [hspends] at hnd
      obtain ⟨view₁, hrun, hinv₁, hview₁⟩ := spendInputs_spec tx.vin txundo view h hnd
        fun txin ht => hc.spends_unspent _ (by rw [hspends]; exact List.mem_map_of_mem ht)
      refine ⟨view₁, ?_, hinv₁, by rw [hview₁, hspends]⟩
      rw [if_neg Bool.false_ne_true, hrun, hspends, List.map_map]
      rfl
    · refine ⟨view, ?_, h, ?_⟩
      · simp [CTransaction.spends, hcb]
      · simp [CTransaction.spends, hcb]
  -- then `AddCoins` lays the outputs over it
  obtain ⟨view₂, hadd, hinv₂, hview₂⟩ := addCoinsFrom_spec nHeight hc.vout_length
    hc.vout_unspent tx.vout 0 view₁ List.drop_zero.symm hinv₁ fun hcb n _ => by
      rw [hview₁, spendInputsView]
      split
      · rfl
      · exact hc.txid_unused hcb n
  refine ⟨view₂, ?_, hinv₂, funext fun o => ?_⟩
  · unfold updateCoins
    simp only [hspend, except_ok_bind]
    rw [addCoins, hadd]
    rfl
  · rw [hview₂ o, if_pos (Nat.zero_le _), hview₁]
    rfl

-- ---------------------------------------------------------------------------
-- ConnectBlock
-- ---------------------------------------------------------------------------

/-- The loop of `ConnectBlock` over `block[i]` from the `i` given: `UpdateCoins` of each
transaction, into `undoDummy` for the coinbase (`i = 0`) and into a new `CTxUndo` at the
back of `blockundo.vtxundo` for any other. The checks the loop makes before `UpdateCoins`
are left out. -/
def connectBlockCoins (base : COutPoint → Option Coin) (nHeight : Int) :
    Nat → List CTransaction → CBlockUndo → CacheView → Except String (CBlockUndo × CacheView)
  | _, [], blockundo, view => .ok (blockundo, view)
  | i, tx :: txs, blockundo, view =>
    match updateCoins base tx view ⟨[]⟩ nHeight with
    | .ok (txundo, view) =>
      connectBlockCoins base nHeight (i + 1) txs
        (if i = 0 then blockundo else ⟨blockundo.vtxundo ++ [txundo]⟩) view
    | .error e => .error e

@[simp] theorem connectBlockCoins_nil (base : COutPoint → Option Coin) (nHeight : Int) (i : Nat)
    (blockundo : CBlockUndo) (view : CacheView) :
    connectBlockCoins base nHeight i [] blockundo view = .ok (blockundo, view) := rfl

theorem connectBlockCoins_cons (base : COutPoint → Option Coin) (nHeight : Int) (i : Nat) (tx : CTransaction)
    (txs : List CTransaction) (blockundo : CBlockUndo) (view : CacheView) :
    connectBlockCoins base nHeight i (tx :: txs) blockundo view =
      match updateCoins base tx view ⟨[]⟩ nHeight with
      | .ok (txundo, view) =>
        connectBlockCoins base nHeight (i + 1) txs
          (if i = 0 then blockundo else ⟨blockundo.vtxundo ++ [txundo]⟩) view
      | .error e => .error e := rfl

/-- The undo data that connecting `txs` from index `i` on collects, on the UTXO set
`utxo`: the spent coins of each transaction but the one at index `0`. -/
def blockUndoOf (nHeight : Int) : Nat → (COutPoint → Option Coin) → List CTransaction → List CTxUndo
  | _, _, [] => []
  | i, utxo, tx :: txs =>
    (if i = 0 then [] else [⟨spentCoins utxo tx⟩]) ++ blockUndoOf nHeight (i + 1) (applyTx utxo tx nHeight) txs

@[simp] theorem blockUndoOf_nil (nHeight : Int) (i : Nat) (utxo : COutPoint → Option Coin) :
    blockUndoOf nHeight i utxo [] = [] := rfl

theorem blockUndoOf_cons (nHeight : Int) (i : Nat) (utxo : COutPoint → Option Coin) (tx : CTransaction)
    (txs : List CTransaction) :
    blockUndoOf nHeight i utxo (tx :: txs) =
      (if i = 0 then [] else [⟨spentCoins utxo tx⟩]) ++ blockUndoOf nHeight (i + 1) (applyTx utxo tx nHeight) txs :=
  rfl

theorem blockUndoOf_append (nHeight : Int) :
    ∀ (i : Nat) (utxo : COutPoint → Option Coin) (txs txs' : List CTransaction),
      blockUndoOf nHeight i utxo (txs ++ txs') =
        blockUndoOf nHeight i utxo txs ++
          blockUndoOf nHeight (i + txs.length) (applyTxs utxo txs nHeight) txs'
  | _, _, [], _ => rfl
  | i, utxo, tx :: txs, txs' => by
    rw [List.cons_append, blockUndoOf_cons, blockUndoOf_cons, blockUndoOf_append nHeight (i + 1), List.append_assoc,
      List.length_cons, applyTxs_cons, Nat.add_assoc, Nat.add_comm 1]

/-- One `CTxUndo` per transaction, but for the one at index `0`. -/
theorem length_blockUndoOf (nHeight : Int) :
    ∀ (i : Nat) (utxo : COutPoint → Option Coin) (txs : List CTransaction),
      (blockUndoOf nHeight i utxo txs).length = if i = 0 then txs.length - 1 else txs.length
  | _, _, [] => by simp
  | i, utxo, tx :: txs => by
    rw [blockUndoOf_cons, List.length_append, length_blockUndoOf nHeight (i + 1),
      if_neg (Nat.succ_ne_zero i), List.length_cons]
    by_cases hi : i = 0 <;> simp [hi, Nat.add_comm]

/-- Every `CTxUndo` collected holds the coins that a transaction spent, on the UTXO set
it was connected on. -/
theorem mem_blockUndoOf {nHeight : Int} {txundo : CTxUndo} :
    ∀ {i : Nat} {utxo : COutPoint → Option Coin} {txs : List CTransaction},
      txundo ∈ blockUndoOf nHeight i utxo txs →
      ∃ pre tx post, txs = pre ++ tx :: post ∧ txundo = ⟨spentCoins (applyTxs utxo pre nHeight) tx⟩
  | _, _, [], h => by cases h
  | i, utxo, tx :: txs, h => by
    rw [blockUndoOf_cons, List.mem_append] at h
    rcases h with h | h
    · split at h
      · cases h
      · rw [List.mem_singleton.mp h]
        exact ⟨[], tx, txs, rfl, rfl⟩
    · obtain ⟨pre, t, post, rfl, rfl⟩ := mem_blockUndoOf h
      exact ⟨tx :: pre, t, post, rfl, rfl⟩

/-- The `CTxUndo` of a transaction other than the first is at one less than its index. -/
theorem blockUndoOf_getElem? {nHeight : Int} {utxo : COutPoint → Option Coin}
    {pre post : List CTransaction} {tx : CTransaction} (hpre : 0 < pre.length) :
    (blockUndoOf nHeight 0 utxo (pre ++ tx :: post))[pre.length - 1]? =
      some ⟨spentCoins (applyTxs utxo pre nHeight) tx⟩ := by
  rw [blockUndoOf_append, Nat.zero_add, blockUndoOf_cons, if_neg (by omega),
    List.getElem?_append_right (by rw [length_blockUndoOf, if_pos rfl])]
  simp [length_blockUndoOf]

/-- The loop of `ConnectBlock` refines `applyTxs`, when every transaction is connectable on
the UTXO set it is connected on, and collects `blockUndoOf`. -/
theorem connectBlockCoins_spec {nHeight : Int} :
    ∀ (txs : List CTransaction) (i : Nat) (blockundo : CBlockUndo) (view : CacheView),
      view.Inv base →
      (∀ pre tx post, txs = pre ++ tx :: post →
        TxConnectable (applyTxs (view.coins base) pre nHeight) tx) →
      ∃ view', connectBlockCoins base nHeight i txs blockundo view =
          .ok (⟨blockundo.vtxundo ++ blockUndoOf nHeight i (view.coins base) txs⟩, view') ∧
        view'.Inv base ∧ view'.coins base = applyTxs (view.coins base) txs nHeight
  | [], _, blockundo, view, h, _ => ⟨view, by simp, h, rfl⟩
  | tx :: txs, i, blockundo, view, h, hc => by
    obtain ⟨view₁, hupdate, hinv₁, hview₁⟩ := updateCoins_spec nHeight ⟨[]⟩ h
      (hc [] tx txs rfl)
    obtain ⟨view', hrun, hinv', hview'⟩ := connectBlockCoins_spec txs (i + 1)
      (if i = 0 then blockundo else ⟨blockundo.vtxundo ++ [⟨spentCoins (view.coins base) tx⟩]⟩)
      view₁ hinv₁ fun pre t post hsplit => by
        rw [hview₁, ← applyTxs_cons]
        exact hc (tx :: pre) t post (by rw [hsplit, List.cons_append])
    refine ⟨view', ?_, hinv', by rw [hview', hview₁, applyTxs_cons]⟩
    rw [connectBlockCoins_cons, hupdate]
    dsimp only
    rw [List.nil_append, hrun, hview₁, blockUndoOf_cons]
    split <;> simp

end Riecoin
