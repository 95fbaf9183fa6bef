-- SUMMARY: A stack of coins caches refines a plain map from outpoints to coins: along every run of operations the interface allows, no operation throws and every reply agrees with the map.
import Riecoin.Coins.Flush

/-!
# The coins cache against a reference map

`SimulationTest` (`coins_tests.cpp`) drives a stack of caches over a base view with random
operations and checks every reply against a `std::map<COutPoint, Coin>`. `Reachable` is
every pair of a stack and such a map that a run of allowed operations reaches from a base
view with no cache; `refStep` is how the map follows each operation. The invariant
`CacheInv` is the DIRTY/FRESH invariant of every layer together with the fact that the view
of the whole stack is the unspent part of the map; `cacheInv_step` shows that one step keeps
it, from the lemmas of `Invariant` and `Flush`.
-/

namespace Riecoin

/-- How the reference map follows an operation: `AddCoin` of an unspendable script does
nothing, `SpendCoin` clears the coin. -/
def refStep (ref : COutPoint → Coin) : CoinsOp → COutPoint → Coin
  | .addCoin outpoint coin _ =>
    if isUnspendable coin.out.scriptPubKey then ref else Function.update ref outpoint coin
  | .emplaceCoin outpoint coin => Function.update ref outpoint coin
  | .spendCoin outpoint => Function.update ref outpoint (ref outpoint).clear
  | _ => ref

/-- The reference map of a base view: its unspent coins, `Coin()` elsewhere. -/
def refOfBase (base : COutPoint → Option Coin) : COutPoint → Coin :=
  fun outpoint => (baseGetCoin base outpoint).getD Coin.empty

/-- The operations the interface allows: the top-layer operations need a cache; `AddCoin`
asserts an unspent coin and may only skip `possible_overwrite` where the view holds no
unspent coin; `EmplaceCoinInternalDANGER` needs an outpoint the top cache does not hold;
`Uncache`, `Flush` and `Sync` name an existing layer. -/
def allowed (s : CoinsStack) : CoinsOp → Bool
  | .addCoin outpoint coin possibleOverwrite =>
    !s.layers.isEmpty && !coin.isSpent &&
      (possibleOverwrite || (peekCoin s.base s.layers outpoint).isNone)
  | .emplaceCoin outpoint _ =>
    match s.layers with
    | cache :: _ => (cache.cacheCoins outpoint).isNone
    | [] => false
  | .spendCoin _ | .accessCoin _ | .getCoin _ | .haveCoin _ | .peekCoin _ => !s.layers.isEmpty
  | .uncache layer _ | .flush layer | .sync layer => decide (layer < s.layers.length)
  | .push => true
  | .pop _ => !s.layers.isEmpty

theorem allowed_addCoin (s : CoinsStack) (outpoint : COutPoint) (coin : Coin) (possibleOverwrite : Bool) :
    allowed s (.addCoin outpoint coin possibleOverwrite) =
      (!s.layers.isEmpty && !coin.isSpent &&
        (possibleOverwrite || (peekCoin s.base s.layers outpoint).isNone)) := rfl

theorem allowed_emplaceCoin_cons (base : COutPoint → Option Coin) (cache : CCoinsViewCache)
    (below : List CCoinsViewCache) (outpoint : COutPoint) (coin : Coin) :
    allowed ⟨base, cache :: below⟩ (.emplaceCoin outpoint coin) = (cache.cacheCoins outpoint).isNone :=
  rfl

/-- The stacks and reference maps that runs of allowed operations reach from a base view. -/
inductive Reachable : CoinsStack → (COutPoint → Coin) → Prop where
  | init (base : COutPoint → Option Coin) : Reachable ⟨base, []⟩ (refOfBase base)
  | step {s s' : CoinsStack} {ref : COutPoint → Coin} {reply : CoinsReply} (op : CoinsOp) :
      Reachable s ref → allowed s op = true → step s op = .ok (s', reply) →
      Reachable s' (refStep ref op)

/-- The top cache holds an entry for the outpoint. -/
def topHolds (s : CoinsStack) (outpoint : COutPoint) : Bool :=
  match s.layers with
  | cache :: _ => (cache.cacheCoins outpoint).isSome
  | [] => false

/-- The replies the reference map predicts: `AccessCoin` returns the map's coin when that is
unspent and a spent coin otherwise; `GetCoin` and `PeekCoin` its unspent coin; `HaveCoin`
whether it is unspent; `SpendCoin` whether it was unspent or the top cache held an entry. -/
def ReplyAgrees (s : CoinsStack) (ref : COutPoint → Coin) : CoinsOp → CoinsReply → Prop
  | .accessCoin outpoint, .coin coin => coin.unspent = (ref outpoint).unspent
  | .getCoin outpoint, .found coin => coin = (ref outpoint).unspent
  | .peekCoin outpoint, .found coin => coin = (ref outpoint).unspent
  | .haveCoin outpoint, .flag b => b = !(ref outpoint).isSpent
  | .spendCoin outpoint, .flag b =>
    (b = true ↔ (ref outpoint).isSpent = false ∨ topHolds s outpoint = true)
  | .addCoin .., .done | .emplaceCoin .., .done | .uncache .., .done | .flush _, .done
  | .sync _, .done | .push, .done | .pop _, .done => True
  | _, _ => False

section ReplyEquations

variable {s : CoinsStack} {ref : COutPoint → Coin} {outpoint : COutPoint}

theorem replyAgrees_spendCoin {b : Bool} :
    ReplyAgrees s ref (.spendCoin outpoint) (.flag b) ↔
      (b = true ↔ (ref outpoint).isSpent = false ∨ topHolds s outpoint = true) := Iff.rfl

theorem replyAgrees_accessCoin {coin : Coin} :
    ReplyAgrees s ref (.accessCoin outpoint) (.coin coin) ↔
      coin.unspent = (ref outpoint).unspent := Iff.rfl

theorem replyAgrees_haveCoin {b : Bool} :
    ReplyAgrees s ref (.haveCoin outpoint) (.flag b) ↔ b = !(ref outpoint).isSpent := Iff.rfl

end ReplyEquations

/-- The invariant of the simulation: every layer keeps the DIRTY/FRESH invariant, and the
stack shows the unspent part of the reference map. -/
structure CacheInv (s : CoinsStack) (ref : COutPoint → Coin) : Prop where
  stack : StackInv s.base s.layers
  view : ∀ outpoint, peekCoin s.base s.layers outpoint = (ref outpoint).unspent

theorem cacheInv_init (base : COutPoint → Option Coin) : CacheInv ⟨base, []⟩ (refOfBase base) := by
  refine ⟨trivial, fun o => ?_⟩
  rw [peekCoin_nil, refOfBase]
  cases h : baseGetCoin base o with
  | none => rfl
  | some coin =>
    have hpeek : peekCoin base [] o = some coin := h
    simp only [Option.getD_some]
    exact (Coin.unspent_eq_some_iff.mpr ⟨isSpent_of_peekCoin hpeek, rfl⟩).symm

theorem stackInv_tail {base : COutPoint → Option Coin} :
    ∀ {layers : List CCoinsViewCache}, StackInv base layers → StackInv base layers.tail
  | [], _ => trivial
  | _ :: _, h => h.2

theorem isSome_unspent_iff (coin : Coin) : coin.unspent.isSome = true ↔ coin.isSpent = false := by
  unfold Coin.unspent
  cases coin.isSpent <;> simp

section TopLayer

variable {base : COutPoint → Option Coin} {cache : CCoinsViewCache} {below : List CCoinsViewCache}
  {ref : COutPoint → Coin}

/-- `AddCoin` on the top cache: the map takes the coin unless its script is unspendable. -/
theorem cacheInv_addCoin (h : CacheInv ⟨base, cache :: below⟩ ref) {outpoint : COutPoint}
    {coin : Coin} {possibleOverwrite : Bool}
    (ha : allowed ⟨base, cache :: below⟩ (.addCoin outpoint coin possibleOverwrite) = true) :
    ∃ s' reply, step ⟨base, cache :: below⟩ (.addCoin outpoint coin possibleOverwrite) =
        .ok (s', reply) ∧ CacheInv s' (refStep ref (.addCoin outpoint coin possibleOverwrite)) ∧
      ReplyAgrees ⟨base, cache :: below⟩ ref (.addCoin outpoint coin possibleOverwrite) reply := by
  simp only [allowed_addCoin, List.isEmpty_cons, Bool.not_false, Bool.true_and, Bool.and_eq_true,
    Bool.not_eq_eq_eq_not, Bool.not_true, Bool.or_eq_true, Option.isNone_iff_eq_none] at ha
  obtain ⟨hcoin, hover⟩ := ha
  have hnone : possibleOverwrite = false →
      overlay (cache.cacheCoins outpoint) (peekCoin base below outpoint) = none := by
    intro hpo
    rw [← peekCoin_cons]
    exact hover.resolve_left (by simp [hpo])
  obtain ⟨cache', hadd, hinv, hshow, hframe⟩ := addCoin_spec h.stack.1 hcoin hnone
  refine ⟨⟨base, cache' :: below⟩, .done, by rw [step_addCoin, hadd]; rfl, ⟨⟨hinv, h.stack.2⟩, fun o => ?_⟩,
    trivial⟩
  have hunchanged : ∀ o, (o ≠ outpoint ∨ isUnspendable coin.out.scriptPubKey = true) →
      peekCoin base (cache' :: below) o = (ref o).unspent := by
    intro o ho
    rw [peekCoin_cons, hframe o ho, ← peekCoin_cons]
    exact h.view o
  simp only [refStep]
  split
  · exact hunchanged o (.inr ‹_›)
  · next hu =>
    by_cases ho : o = outpoint
    · subst ho
      rw [peekCoin_cons, hshow (by simpa using hu), Function.update_self,
        Coin.unspent_eq_some_iff.mpr ⟨hcoin, rfl⟩]
    · rw [Function.update_of_ne ho]
      exact hunchanged o (.inl ho)

/-- `EmplaceCoinInternalDANGER` on the top cache: the map takes the coin. -/
theorem cacheInv_emplaceCoin (h : CacheInv ⟨base, cache :: below⟩ ref) {outpoint : COutPoint}
    {coin : Coin} (ha : allowed ⟨base, cache :: below⟩ (.emplaceCoin outpoint coin) = true) :
    ∃ s' reply, step ⟨base, cache :: below⟩ (.emplaceCoin outpoint coin) = .ok (s', reply) ∧
      CacheInv s' (refStep ref (.emplaceCoin outpoint coin)) ∧
      ReplyAgrees ⟨base, cache :: below⟩ ref (.emplaceCoin outpoint coin) reply := by
  have hmiss : cache.cacheCoins outpoint = none := by
    rwa [allowed_emplaceCoin_cons, Option.isNone_iff_eq_none] at ha
  obtain ⟨hinv, hshow, hframe⟩ := emplaceCoin_spec coin h.stack.1 hmiss
  refine ⟨_, .done, rfl, ⟨⟨hinv, h.stack.2⟩, fun o => ?_⟩, trivial⟩
  simp only [refStep]
  by_cases ho : o = outpoint
  · subst ho
    rw [peekCoin_cons, hshow, Function.update_self, overlay]
  · rw [peekCoin_cons, hframe o ho, ← peekCoin_cons, Function.update_of_ne ho]
    exact h.view o

/-- `SpendCoin` on the top cache: the map clears the coin, and the reply is `true` when the
map held an unspent coin or the top cache an entry. -/
theorem cacheInv_spendCoin (h : CacheInv ⟨base, cache :: below⟩ ref) (outpoint : COutPoint) :
    ∃ s' reply, step ⟨base, cache :: below⟩ (.spendCoin outpoint) = .ok (s', reply) ∧
      CacheInv s' (refStep ref (.spendCoin outpoint)) ∧
      ReplyAgrees ⟨base, cache :: below⟩ ref (.spendCoin outpoint) reply := by
  rcases hs : spendCoin base cache below outpoint with ⟨b, cache', below'⟩
  obtain ⟨hinv, hgone, hframe, hb⟩ := spendCoin_spec h.stack hs
  refine ⟨⟨base, cache' :: below'⟩, .flag b, by rw [step_spendCoin, hs], ⟨hinv, fun o => ?_⟩, ?_⟩
  · simp only [refStep]
    by_cases ho : o = outpoint
    · subst ho
      rw [hgone, Function.update_self, Coin.clear_eq_empty, Coin.unspent_empty]
    · rw [hframe o ho, Function.update_of_ne ho]
      exact h.view o
  · rw [replyAgrees_spendCoin, topHolds, hb, h.view outpoint, isSome_unspent_iff]
    exact or_comm

/-- `AccessCoin` on the top cache: the coin shows what the map holds. -/
theorem cacheInv_accessCoin (h : CacheInv ⟨base, cache :: below⟩ ref) (outpoint : COutPoint) :
    ∃ s' reply, step ⟨base, cache :: below⟩ (.accessCoin outpoint) = .ok (s', reply) ∧
      CacheInv s' (refStep ref (.accessCoin outpoint)) ∧
      ReplyAgrees ⟨base, cache :: below⟩ ref (.accessCoin outpoint) reply := by
  rcases hf : fetchCoin base cache below outpoint with ⟨entry, cache', below'⟩
  obtain ⟨hinv, hview, -, hbind, -⟩ := fetchCoin_spec h.stack hf
  refine ⟨⟨base, cache' :: below'⟩, .coin ((entry.map (·.coin)).getD Coin.empty),
    by rw [step_accessCoin, accessCoin_eq, hf], ⟨hinv, fun o => (hview o).trans (h.view o)⟩, ?_⟩
  rw [replyAgrees_accessCoin, unspent_accessed, hbind, h.view outpoint]

/-- `HaveCoin` on the top cache: whether the map holds an unspent coin. -/
theorem cacheInv_haveCoin (h : CacheInv ⟨base, cache :: below⟩ ref) (outpoint : COutPoint) :
    ∃ s' reply, step ⟨base, cache :: below⟩ (.haveCoin outpoint) = .ok (s', reply) ∧
      CacheInv s' (refStep ref (.haveCoin outpoint)) ∧
      ReplyAgrees ⟨base, cache :: below⟩ ref (.haveCoin outpoint) reply := by
  rcases hf : fetchCoin base cache below outpoint with ⟨entry, cache', below'⟩
  obtain ⟨hinv, hview, -, hbind, -⟩ := fetchCoin_spec h.stack hf
  refine ⟨⟨base, cache' :: below'⟩, .flag (entry.any fun e => !e.coin.isSpent),
    by rw [step_haveCoin, haveCoin_eq, hf], ⟨hinv, fun o => (hview o).trans (h.view o)⟩, ?_⟩
  rw [replyAgrees_haveCoin, have_accessed, hbind, h.view outpoint]
  unfold Coin.unspent
  cases (ref outpoint).isSpent <;> rfl

end TopLayer

/-- `Flush` or `Sync` of a layer, alone or to pop the top cache, keeps the invariant. -/
theorem cacheInv_flushAt {base : COutPoint → Option Coin} {layers : List CCoinsViewCache}
    {ref : COutPoint → Coin} (h : CacheInv ⟨base, layers⟩ ref) (willErase : Bool) {layer : Nat}
    (hlayer : layer < layers.length) :
    ∃ base' layers', flushAt willErase base layer layers = .ok (base', layers') ∧
      CacheInv ⟨base', layers'⟩ ref ∧ (layer = 0 → CacheInv ⟨base', layers'.tail⟩ ref) := by
  obtain ⟨base', layers', hflush, hinv, hview, htail⟩ := flushAt_spec willErase layer h.stack hlayer
  exact ⟨base', layers', hflush, ⟨hinv, fun o => (hview o).trans (h.view o)⟩,
    fun h0 => ⟨stackInv_tail hinv, fun o => (htail h0 o).trans (h.view o)⟩⟩

/-- One allowed operation: it does not throw, keeps the invariant with the reference map
updated, and replies as the map predicts. -/
theorem cacheInv_step {s : CoinsStack} {ref : COutPoint → Coin} (h : CacheInv s ref)
    (op : CoinsOp) (ha : allowed s op = true) :
    ∃ s' reply, step s op = .ok (s', reply) ∧ CacheInv s' (refStep ref op) ∧
      ReplyAgrees s ref op reply := by
  obtain ⟨base, layers⟩ := s
  cases op with
  | push =>
    refine ⟨_, .done, rfl, ⟨⟨(fun _ _ he => nomatch he), h.stack⟩, fun o => ?_⟩, trivial⟩
    rw [peekCoin_cons]
    exact h.view o
  | pop erase =>
    have hpos : 0 < layers.length := by
      cases layers
      · exact absurd ha Bool.false_ne_true
      · simp
    obtain ⟨base', layers', hflush, -, htail⟩ := cacheInv_flushAt h erase hpos
    exact ⟨_, .done, by rw [step_pop, hflush]; rfl, htail rfl, trivial⟩
  | flush layer =>
    obtain ⟨base', layers', hflush, hinv, -⟩ := cacheInv_flushAt h true (of_decide_eq_true ha)
    exact ⟨_, .done, by rw [step_flush, hflush]; rfl, hinv, trivial⟩
  | sync layer =>
    obtain ⟨base', layers', hflush, hinv, -⟩ := cacheInv_flushAt h false (of_decide_eq_true ha)
    exact ⟨_, .done, by rw [step_sync, hflush]; rfl, hinv, trivial⟩
  | uncache layer outpoint =>
    obtain ⟨hinv, hview⟩ := uncacheAt_spec outpoint layer h.stack
    exact ⟨_, .done, rfl, ⟨hinv, fun o => (hview o).trans (h.view o)⟩, trivial⟩
  | peekCoin outpoint => exact ⟨_, .found _, rfl, h, h.view outpoint⟩
  | getCoin outpoint =>
    rcases hg : getCoin base layers outpoint with ⟨coin, layers'⟩
    obtain ⟨hcoin, hinv, hview⟩ := getCoin_spec h.stack coin layers' hg
    refine ⟨⟨base, layers'⟩, .found coin, by rw [step_getCoin, hg], ⟨hinv, fun o => (hview o).trans (h.view o)⟩, ?_⟩
    exact hcoin.trans (h.view outpoint)
  | addCoin outpoint coin possibleOverwrite =>
    cases layers with
    | nil => exact absurd ha Bool.false_ne_true
    | cons cache below => exact cacheInv_addCoin h ha
  | emplaceCoin outpoint coin =>
    cases layers with
    | nil => exact absurd ha Bool.false_ne_true
    | cons cache below => exact cacheInv_emplaceCoin h ha
  | spendCoin outpoint =>
    cases layers with
    | nil => exact absurd ha Bool.false_ne_true
    | cons cache below => exact cacheInv_spendCoin h outpoint
  | accessCoin outpoint =>
    cases layers with
    | nil => exact absurd ha Bool.false_ne_true
    | cons cache below => exact cacheInv_accessCoin h outpoint
  | haveCoin outpoint =>
    cases layers with
    | nil => exact absurd ha Bool.false_ne_true
    | cons cache below => exact cacheInv_haveCoin h outpoint

/-- Every reachable stack keeps the invariant against its reference map. -/
theorem cacheInv_of_reachable {s : CoinsStack} {ref : COutPoint → Coin} (h : Reachable s ref) :
    CacheInv s ref := by
  induction h with
  | init base => exact cacheInv_init base
  | step op _ ha hs ih =>
    obtain ⟨s', reply, hs', hinv, -⟩ := cacheInv_step ih op ha
    rw [hs] at hs'
    cases hs'
    exact hinv

/-- Along every run of allowed operations over any base view, with caches pushed, flushed,
synced and popped in any order, no operation throws (in particular no `BatchWrite` finds a
misapplied FRESH flag) and every reply agrees with the reference map. -/
theorem coinsCache_refines {s : CoinsStack} {ref : COutPoint → Coin} (h : Reachable s ref)
    (op : CoinsOp) (ha : allowed s op = true) :
    ∃ s' reply, step s op = .ok (s', reply) ∧ ReplyAgrees s ref op reply := by
  obtain ⟨s', reply, hs, -, hreply⟩ := cacheInv_step (cacheInv_of_reachable h) op ha
  exact ⟨s', reply, hs, hreply⟩

/-- The first coin added, without `possible_overwrite`, to a new cache over an empty base. -/
theorem coinsCache_refines_first_coin :
    ∃ s' reply, step ⟨fun _ => none, [CCoinsViewCache.empty]⟩
        (.addCoin ⟨BaseBlob.zero 256, 0⟩ ⟨⟨1, []⟩, false, 1⟩ false) = .ok (s', reply) ∧
      ReplyAgrees ⟨fun _ => none, [CCoinsViewCache.empty]⟩ (refOfBase fun _ => none)
        (.addCoin ⟨BaseBlob.zero 256, 0⟩ ⟨⟨1, []⟩, false, 1⟩ false) reply :=
  coinsCache_refines (.step .push (.init fun _ => none) rfl rfl) _ rfl

/-- A coin added with `possible_overwrite` to a cache over an empty base is DIRTY but not FRESH,
so `SpendCoin` keeps it as a spent DIRTY entry. `HaveCoin` then says the coin is spent, yet a
second `SpendCoin` finds the entry and returns `true` again. -/
theorem spendCoin_spent_entry_returns_true :
    ∃ s ref, Reachable s ref ∧ (ref ⟨BaseBlob.zero 256, 0⟩).isSpent = true ∧
      runOps ⟨fun _ => none, []⟩ [.push, .addCoin ⟨BaseBlob.zero 256, 0⟩ ⟨⟨1, []⟩, false, 1⟩ true,
        .spendCoin ⟨BaseBlob.zero 256, 0⟩] = .ok (s, [.done, .done, .flag true]) ∧
      ∃ s', runOps s [.haveCoin ⟨BaseBlob.zero 256, 0⟩, .spendCoin ⟨BaseBlob.zero 256, 0⟩] =
        .ok (s', [.flag false, .flag true]) := by
  refine ⟨_, _, .step (.spendCoin ⟨BaseBlob.zero 256, 0⟩)
    (.step (.addCoin ⟨BaseBlob.zero 256, 0⟩ ⟨⟨1, []⟩, false, 1⟩ true)
      (.step .push (.init fun _ => none) rfl rfl) rfl rfl) rfl rfl, ?_, rfl, _, rfl⟩
  decide

end Riecoin
