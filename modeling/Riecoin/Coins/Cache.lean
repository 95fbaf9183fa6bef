-- SUMMARY: A stack of `CCoinsViewCache` layers over a base view: FetchCoin and GetCoin with their caching, AddCoin, EmplaceCoinInternalDANGER, SpendCoin, AccessCoin, HaveCoin, PeekCoin, Uncache, BatchWrite with its cursor, Flush and Sync, and one step function over all of them.
import Riecoin.Coins.Coin

/-!
# The coins cache

`coins.cpp`. A stack of caches is a base view (the table of `CCoinsViewDB`, a function from
outpoints to stored coins) and a list of `CCoinsViewCache` layers, the top one first; each
layer's `base` is the next layer, the last one's is the base view. `GetCoin` on a layer is
`FetchCoin`, which asks the layer under it only when the outpoint is missing and caches
what it gets, so a lookup on the top can change every layer on the way down.

`BatchWrite` walks the cursor of a child layer, the flagged list in its order; each step
reads and writes one outpoint of the parent and, for `Sync`, erases or cleans that entry
in the child (`NextAndMaybeErase`). A `std::logic_error` is an `Except.error` with its
message; an `assert` is an error as well.
-/

namespace Riecoin

/-- The base view: the coins its table holds. -/
structure CoinsStack where
  base : COutPoint → Option Coin
  /-- The cache layers, the top one first. -/
  layers : List CCoinsViewCache

/-- `CCoinsViewDB::GetCoin`: only an unspent coin is returned. -/
def baseGetCoin (base : COutPoint → Option Coin) (outpoint : COutPoint) : Option Coin :=
  (base outpoint).bind Coin.unspent

/-- `CCoinsViewCache::PeekCoin` on the top of `layers`: the first layer with an entry
decides, without caching anything. -/
def peekCoin (base : COutPoint → Option Coin) : List CCoinsViewCache → COutPoint → Option Coin
  | [], outpoint => baseGetCoin base outpoint
  | cache :: below, outpoint =>
    match cache.cacheCoins outpoint with
    | some entry => entry.coin.unspent
    | none => peekCoin base below outpoint

/-- `CCoinsViewCache::FetchCoin` on `cache`, where `getBelow` is `base->GetCoin` of the view
under it and returns that view's new state: a missing outpoint is fetched from below and
cached clean. -/
def fetchCoinWith {σ : Type} (getBelow : COutPoint → Option Coin × σ) (below : σ)
    (cache : CCoinsViewCache) (outpoint : COutPoint) :
    Option CCoinsCacheEntry × CCoinsViewCache × σ :=
  match cache.cacheCoins outpoint with
  | some entry => (some entry, cache, below)
  | none =>
    match getBelow outpoint with
    | (some coin, below') =>
      (some ⟨coin, false, false⟩, cache.store outpoint (some ⟨coin, false, false⟩), below')
    | (none, below') => (none, cache, below')

/-- `CCoinsViewCache::GetCoin` on the top of `layers` (the base's `GetCoin` for no layer),
with the layers after the `FetchCoin` calls. -/
def getCoin (base : COutPoint → Option Coin) :
    List CCoinsViewCache → COutPoint → Option Coin × List CCoinsViewCache
  | [], outpoint => (baseGetCoin base outpoint, [])
  | cache :: below, outpoint =>
    match fetchCoinWith (getCoin base below) below cache outpoint with
    | (entry, cache', below') => (entry.bind fun e => e.coin.unspent, cache' :: below')

/-- `FetchCoin` on the top layer `cache` of the stack `cache :: below`. -/
def fetchCoin (base : COutPoint → Option Coin) (cache : CCoinsViewCache)
    (below : List CCoinsViewCache) (outpoint : COutPoint) :
    Option CCoinsCacheEntry × CCoinsViewCache × List CCoinsViewCache :=
  fetchCoinWith (getCoin base below) below cache outpoint

/-- `CCoinsViewCache::AddCoin`. A new entry is default constructed (a spent coin, no flags);
without `possible_overwrite` an unspent entry is an error and the new coin is FRESH when
the entry was not DIRTY. -/
def addCoin (cache : CCoinsViewCache) (outpoint : COutPoint) (coin : Coin)
    (possibleOverwrite : Bool) : Except String CCoinsViewCache :=
  if coin.isSpent then .error "assert(!coin.IsSpent())"
  else if isUnspendable coin.out.scriptPubKey then .ok cache
  else
    let entry := (cache.cacheCoins outpoint).getD ⟨Coin.empty, false, false⟩
    if !possibleOverwrite && !entry.coin.isSpent then
      .error "Attempted to overwrite an unspent coin (when possible_overwrite is false)"
    else
      let fresh := !possibleOverwrite && !entry.dirty
      .ok (cache.store outpoint (some ⟨coin, true, entry.fresh || fresh⟩))

/-- `CCoinsViewCache::EmplaceCoinInternalDANGER`: insert the coin DIRTY unless the outpoint
already has an entry. -/
def emplaceCoinInternalDANGER (cache : CCoinsViewCache) (outpoint : COutPoint) (coin : Coin) :
    CCoinsViewCache :=
  match cache.cacheCoins outpoint with
  | some _ => cache
  | none => cache.store outpoint (some ⟨coin, true, false⟩)

/-- `CCoinsViewCache::SpendCoin` on the top layer: `false` when `FetchCoin` finds nothing;
otherwise a FRESH entry is erased and any other is made DIRTY and cleared. -/
def spendCoin (base : COutPoint → Option Coin) (cache : CCoinsViewCache)
    (below : List CCoinsViewCache) (outpoint : COutPoint) :
    Bool × CCoinsViewCache × List CCoinsViewCache :=
  match fetchCoin base cache below outpoint with
  | (none, cache', below') => (false, cache', below')
  | (some entry, cache', below') =>
    if entry.fresh then (true, cache'.store outpoint none, below')
    else (true, cache'.store outpoint (some { entry with coin := entry.coin.clear, dirty := true }),
      below')

/-- `CCoinsViewCache::AccessCoin`: the fetched entry's coin, or `coinEmpty`. -/
def accessCoin (base : COutPoint → Option Coin) (cache : CCoinsViewCache)
    (below : List CCoinsViewCache) (outpoint : COutPoint) :
    Coin × CCoinsViewCache × List CCoinsViewCache :=
  match fetchCoin base cache below outpoint with
  | (entry, cache', below') => ((entry.map (·.coin)).getD Coin.empty, cache', below')

/-- `CCoinsViewCache::HaveCoin`: the fetched entry is unspent. -/
def haveCoin (base : COutPoint → Option Coin) (cache : CCoinsViewCache)
    (below : List CCoinsViewCache) (outpoint : COutPoint) :
    Bool × CCoinsViewCache × List CCoinsViewCache :=
  match fetchCoin base cache below outpoint with
  | (entry, cache', below') => (entry.any fun e => !e.coin.isSpent, cache', below')

/-- `CCoinsViewCache::Uncache`: drop the entry unless it is DIRTY. -/
def uncache (cache : CCoinsViewCache) (outpoint : COutPoint) : CCoinsViewCache :=
  match cache.cacheCoins outpoint with
  | some entry => if entry.dirty then cache else cache.store outpoint none
  | none => cache

@[simp] theorem except_ok_bind {α β : Type} (a : α) (f : α → Except String β) :
    (Except.ok a >>= f) = f a := rfl

@[simp] theorem except_map_ok {α β : Type} (f : α → β) (a : α) :
    Except.map f (Except.ok a : Except String α) = .ok (f a) := rfl

def batchWriteEntry (child : CCoinsCacheEntry) (parent : Option CCoinsCacheEntry) :
    Except String (Option CCoinsCacheEntry) :=
  match parent with
  | none =>
    -- the parent has no entry: drop a spent FRESH coin, else move it up DIRTY
    if child.fresh && child.coin.isSpent then .ok none
    else .ok (some ⟨child.coin, true, child.fresh⟩)
  | some entry =>
    if child.fresh && !entry.coin.isSpent then
      .error "FRESH flag misapplied to coin that exists in parent cache"
    else if entry.fresh && child.coin.isSpent then .ok none
    else .ok (some { entry with coin := child.coin, dirty := true })

/-- One cursor entry in `CCoinsViewCache::BatchWrite`; entries that are not DIRTY are skipped. -/
def batchWriteVisit (parent : CCoinsViewCache) (outpoint : COutPoint) (child : CCoinsCacheEntry) :
    Except String CCoinsViewCache :=
  if child.dirty then (batchWriteEntry child (parent.cacheCoins outpoint)).map (parent.store outpoint)
  else .ok parent

/-- One cursor entry in `CCoinsViewDB::BatchWrite`: a DIRTY spent coin is erased from the
table, a DIRTY unspent one written. -/
def baseWriteVisit (base : COutPoint → Option Coin) (outpoint : COutPoint)
    (child : CCoinsCacheEntry) : Except String (COutPoint → Option Coin) :=
  if child.dirty then
    .ok (Function.update base outpoint (if child.coin.isSpent then none else some child.coin))
  else .ok base

/-- `CoinsViewCacheCursor::NextAndMaybeErase` on the child: when the caller keeps the child
(`Sync`), a spent entry is erased and any other loses its flags. -/
def nextAndMaybeErase (willErase : Bool) (child : CCoinsViewCache) (outpoint : COutPoint)
    (entry : CCoinsCacheEntry) : CCoinsViewCache :=
  if willErase then child
  else if entry.coin.isSpent then child.store outpoint none
  else child.store outpoint (some { entry with dirty := false, fresh := false })

/-- One step of the cursor loop: hand the entry to the parent's `visit`, then move on. -/
def cursorStep {σ : Type} (visit : σ → COutPoint → CCoinsCacheEntry → Except String σ)
    (willErase : Bool) (st : σ × CCoinsViewCache) (outpoint : COutPoint) :
    Except String (σ × CCoinsViewCache) :=
  match st.2.cacheCoins outpoint with
  | none => .ok st
  | some entry => do
    let parent ← visit st.1 outpoint entry
    pure (parent, nextAndMaybeErase willErase st.2 outpoint entry)

/-- A `BatchWrite` of the child's cursor into a parent whose loop body is `visit`. -/
def walkCursor {σ : Type} (visit : σ → COutPoint → CCoinsCacheEntry → Except String σ)
    (willErase : Bool) (parent : σ) (child : CCoinsViewCache) :
    Except String (σ × CCoinsViewCache) :=
  child.flagged.foldlM (cursorStep visit willErase) (parent, child)

/-- What `Flush` and `Sync` do with the child after the `BatchWrite`: `Flush` clears the map;
`Sync` checks that the cursor left no flagged entry. -/
def finishWrite (willErase : Bool) (child : CCoinsViewCache) : Except String CCoinsViewCache :=
  if willErase then .ok CCoinsViewCache.empty
  else if child.flagged.isEmpty then .ok child
  else .error "Not all unspent flagged entries were cleared"

/-- `Flush` (`willErase`) or `Sync` of the layer at depth `layer` (the top is depth 0)
into the layer under it, or into the base for the last layer. -/
def flushAt (willErase : Bool) (base : COutPoint → Option Coin) :
    Nat → List CCoinsViewCache →
      Except String ((COutPoint → Option Coin) × List CCoinsViewCache)
  | _, [] => .error "no such cache"
  | 0, [child] => do
    let (base', child') ← walkCursor baseWriteVisit willErase base child
    let child'' ← finishWrite willErase child'
    pure (base', [child''])
  | 0, child :: parent :: rest => do
    let (parent', child') ← walkCursor batchWriteVisit willErase parent child
    let child'' ← finishWrite willErase child'
    pure (base, child'' :: parent' :: rest)
  | layer + 1, cache :: below => do
    let (base', below') ← flushAt willErase base layer below
    pure (base', cache :: below')

/-- `Uncache` on the layer at depth `layer`. -/
def uncacheAt (outpoint : COutPoint) : Nat → List CCoinsViewCache → List CCoinsViewCache
  | _, [] => []
  | 0, cache :: below => uncache cache outpoint :: below
  | layer + 1, cache :: below => cache :: uncacheAt outpoint layer below

/-- The operations of the coins simulation (`SimulationTest` in `coins_tests.cpp`). -/
inductive CoinsOp where
  | addCoin (outpoint : COutPoint) (coin : Coin) (possibleOverwrite : Bool)
  | emplaceCoin (outpoint : COutPoint) (coin : Coin)
  | spendCoin (outpoint : COutPoint)
  | accessCoin (outpoint : COutPoint)
  | getCoin (outpoint : COutPoint)
  | haveCoin (outpoint : COutPoint)
  | peekCoin (outpoint : COutPoint)
  | uncache (layer : Nat) (outpoint : COutPoint)
  | flush (layer : Nat)
  | sync (layer : Nat)
  /-- A new cache on top of the stack. -/
  | push
  /-- `Flush` (`erase`) or `Sync` of the top cache, which is then destroyed. -/
  | pop (erase : Bool)

/-- What an operation returns. -/
inductive CoinsReply where
  | done
  | coin (coin : Coin)
  | found (coin : Option Coin)
  | flag (b : Bool)
  deriving DecidableEq, Repr

/-- One operation on the stack. -/
def step (s : CoinsStack) : CoinsOp → Except String (CoinsStack × CoinsReply)
  | .push => .ok (⟨s.base, CCoinsViewCache.empty :: s.layers⟩, .done)
  | .pop erase => do
    let (base', layers') ← flushAt erase s.base 0 s.layers
    pure (⟨base', layers'.tail⟩, .done)
  | .flush layer => do
    let (base', layers') ← flushAt true s.base layer s.layers
    pure (⟨base', layers'⟩, .done)
  | .sync layer => do
    let (base', layers') ← flushAt false s.base layer s.layers
    pure (⟨base', layers'⟩, .done)
  | .uncache layer outpoint => .ok (⟨s.base, uncacheAt outpoint layer s.layers⟩, .done)
  | .peekCoin outpoint => .ok (s, .found (peekCoin s.base s.layers outpoint))
  | .getCoin outpoint =>
    match getCoin s.base s.layers outpoint with
    | (coin, layers') => .ok (⟨s.base, layers'⟩, .found coin)
  | op =>
    match s.layers, op with
    | [], _ => .error "no cache"
    | cache :: below, .addCoin outpoint coin possibleOverwrite => do
      let cache' ← addCoin cache outpoint coin possibleOverwrite
      pure (⟨s.base, cache' :: below⟩, .done)
    | cache :: below, .emplaceCoin outpoint coin =>
      .ok (⟨s.base, emplaceCoinInternalDANGER cache outpoint coin :: below⟩, .done)
    | cache :: below, .spendCoin outpoint =>
      match spendCoin s.base cache below outpoint with
      | (b, cache', below') => .ok (⟨s.base, cache' :: below'⟩, .flag b)
    | cache :: below, .accessCoin outpoint =>
      match accessCoin s.base cache below outpoint with
      | (coin, cache', below') => .ok (⟨s.base, cache' :: below'⟩, .coin coin)
    | cache :: below, .haveCoin outpoint =>
      match haveCoin s.base cache below outpoint with
      | (b, cache', below') => .ok (⟨s.base, cache' :: below'⟩, .flag b)
    | _ :: _, _ => .error "no cache"

section StepEquations

/-! Equations of `step`, one for each operation the proofs take apart; later proofs rewrite
with these instead of unfolding `step`, whose catch-all arm makes its own equations costly. -/

variable (base : COutPoint → Option Coin) (cache : CCoinsViewCache) (below : List CCoinsViewCache)
  (outpoint : COutPoint)

theorem step_pop (s : CoinsStack) (erase : Bool) :
    step s (.pop erase) = flushAt erase s.base 0 s.layers >>= fun (base', layers') =>
      pure (⟨base', layers'.tail⟩, .done) := rfl

theorem step_flush (s : CoinsStack) (layer : Nat) :
    step s (.flush layer) = flushAt true s.base layer s.layers >>= fun (base', layers') =>
      pure (⟨base', layers'⟩, .done) := rfl

theorem step_sync (s : CoinsStack) (layer : Nat) :
    step s (.sync layer) = flushAt false s.base layer s.layers >>= fun (base', layers') =>
      pure (⟨base', layers'⟩, .done) := rfl

theorem step_getCoin (s : CoinsStack) :
    step s (.getCoin outpoint) =
      .ok (⟨s.base, (getCoin s.base s.layers outpoint).2⟩, .found (getCoin s.base s.layers outpoint).1) :=
  rfl

theorem step_addCoin (coin : Coin) (possibleOverwrite : Bool) :
    step ⟨base, cache :: below⟩ (.addCoin outpoint coin possibleOverwrite) =
      addCoin cache outpoint coin possibleOverwrite >>= fun cache' =>
        pure (⟨base, cache' :: below⟩, .done) := rfl

theorem step_spendCoin :
    step ⟨base, cache :: below⟩ (.spendCoin outpoint) =
      let r := spendCoin base cache below outpoint
      .ok (⟨base, r.2.1 :: r.2.2⟩, .flag r.1) := rfl

theorem step_accessCoin :
    step ⟨base, cache :: below⟩ (.accessCoin outpoint) =
      let r := accessCoin base cache below outpoint
      .ok (⟨base, r.2.1 :: r.2.2⟩, .coin r.1) := rfl

theorem step_haveCoin :
    step ⟨base, cache :: below⟩ (.haveCoin outpoint) =
      let r := haveCoin base cache below outpoint
      .ok (⟨base, r.2.1 :: r.2.2⟩, .flag r.1) := rfl

theorem accessCoin_eq :
    accessCoin base cache below outpoint =
      let r := fetchCoin base cache below outpoint
      ((r.1.map (·.coin)).getD Coin.empty, r.2.1, r.2.2) := rfl

theorem haveCoin_eq :
    haveCoin base cache below outpoint =
      let r := fetchCoin base cache below outpoint
      (r.1.any fun e => !e.coin.isSpent, r.2.1, r.2.2) := rfl

end StepEquations

/-- A sequence of operations, with the replies in order. -/
def runOps : CoinsStack → List CoinsOp → Except String (CoinsStack × List CoinsReply)
  | s, [] => .ok (s, [])
  | s, op :: ops => do
    let (s', reply) ← step s op
    let (s'', replies) ← runOps s' ops
    pure (s'', reply :: replies)

end Riecoin
