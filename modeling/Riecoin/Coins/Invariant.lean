-- SUMMARY: The DIRTY/FRESH invariant of a stack of coins caches, with one lemma per cache operation saying that it keeps the invariant and what it does to the view of the stack.
import Riecoin.Coins.Cache
import Riecoin.Lib.KeyedFold

/-!
# The DIRTY/FRESH invariant

What the flags of `coins.h` promise, as a relation between an entry and the coin `below`
that the layers under its cache show for the same outpoint:

* FRESH entries are DIRTY, hold an unspent coin, and nothing unspent lies below them;
* an entry that is not DIRTY holds an unspent coin and is exactly what lies below it.

`StackInv` asks this of every layer against the view of the layers under it (`peekCoin`).
Each operation below keeps `StackInv` and changes the view of the stack only where the
operation says; the view of a layer is one entry laid over the view under it
(`overlay`), so most of the argument is about one outpoint at a time.
-/

namespace Riecoin

/-- The view at one outpoint of an entry laid over the coin `below` it. -/
def overlay : Option CCoinsCacheEntry → Option Coin → Option Coin
  | some entry, _ => entry.coin.unspent
  | none, below => below

/-- The invariant of one cache entry against the coin the layers under its cache show. -/
structure EntryInv (below : Option Coin) (entry : CCoinsCacheEntry) : Prop where
  dirty_of_fresh : entry.fresh = true → entry.dirty = true
  unspent_of_fresh : entry.fresh = true → entry.coin.isSpent = false
  below_of_fresh : entry.fresh = true → below = none
  below_of_clean : entry.dirty = false → entry.coin.isSpent = false ∧ below = some entry.coin

/-- Every entry of `cache` keeps `EntryInv` against the view `below` of the layers under it. -/
def LayerInv (below : COutPoint → Option Coin) (cache : CCoinsViewCache) : Prop :=
  ∀ outpoint entry, cache.cacheCoins outpoint = some entry → EntryInv (below outpoint) entry

/-- Every layer of the stack keeps `LayerInv` against the layers under it. -/
def StackInv (base : COutPoint → Option Coin) : List CCoinsViewCache → Prop
  | [] => True
  | cache :: below => LayerInv (peekCoin base below) cache ∧ StackInv base below

@[simp] theorem peekCoin_nil (base : COutPoint → Option Coin) (outpoint : COutPoint) :
    peekCoin base [] outpoint = baseGetCoin base outpoint := rfl

theorem peekCoin_cons (base : COutPoint → Option Coin) (cache : CCoinsViewCache)
    (below : List CCoinsViewCache) (outpoint : COutPoint) :
    peekCoin base (cache :: below) outpoint =
      overlay (cache.cacheCoins outpoint) (peekCoin base below outpoint) := by
  simp only [peekCoin]
  cases cache.cacheCoins outpoint <;> rfl

/-- The view never shows a spent coin. -/
theorem isSpent_of_peekCoin {base : COutPoint → Option Coin} :
    ∀ {layers : List CCoinsViewCache} {outpoint : COutPoint} {coin : Coin},
      peekCoin base layers outpoint = some coin → coin.isSpent = false
  | [], outpoint, coin, h => by
    simp only [peekCoin, baseGetCoin, Option.bind_eq_some_iff] at h
    obtain ⟨c, -, hc⟩ := h
    exact ((Coin.unspent_eq_some_iff.mp hc).2 ▸ (Coin.unspent_eq_some_iff.mp hc).1)
  | cache :: below, outpoint, coin, h => by
    rw [peekCoin_cons] at h
    cases he : cache.cacheCoins outpoint with
    | none => exact isSpent_of_peekCoin (by simpa [he, overlay] using h)
    | some entry =>
      rw [he, overlay, Coin.unspent_eq_some_iff] at h
      exact h.2 ▸ h.1

/-- An entry laid over the coin below it hides that coin exactly when the invariant lets
it differ: a clean entry shows what lies below. -/
theorem overlay_eq_of_clean {below : Option Coin} {entry : CCoinsCacheEntry}
    (h : EntryInv below entry) (hclean : entry.dirty = false) :
    overlay (some entry) below = below := by
  obtain ⟨hunspent, hbelow⟩ := h.below_of_clean hclean
  rw [overlay, Coin.unspent_eq_some_iff.mpr ⟨hunspent, rfl⟩, hbelow]

/-- `LayerInv` only depends on the view below through its values. -/
theorem layerInv_congr {below below' : COutPoint → Option Coin} {cache : CCoinsViewCache}
    (h : LayerInv below cache) (hview : ∀ o, below' o = below o) : LayerInv below' cache := by
  intro o entry he
  rw [hview o]
  exact h o entry he

/-- Storing an entry that keeps the invariant keeps the layer's invariant. -/
theorem layerInv_store {below : COutPoint → Option Coin} {cache : CCoinsViewCache}
    (h : LayerInv below cache) {outpoint : COutPoint} {new : Option CCoinsCacheEntry}
    (hnew : ∀ entry, new = some entry → EntryInv (below outpoint) entry) :
    LayerInv below (cache.store outpoint new) := by
  intro o entry he
  by_cases ho : o = outpoint
  · subst ho
    rw [CCoinsViewCache.cacheCoins_store_self] at he
    exact hnew entry he
  · rw [CCoinsViewCache.cacheCoins_store_of_ne cache new ho] at he
    exact h o entry he

theorem peekCoin_store_of_ne (base : COutPoint → Option Coin) (cache : CCoinsViewCache)
    (below : List CCoinsViewCache) {outpoint o : COutPoint} (new : Option CCoinsCacheEntry)
    (h : o ≠ outpoint) :
    peekCoin base (cache.store outpoint new :: below) o = peekCoin base (cache :: below) o := by
  rw [peekCoin_cons, peekCoin_cons, CCoinsViewCache.cacheCoins_store_of_ne cache new h]

/-- `FetchCoin` under `LayerInv`: the view under the cache is the one `getBelow` reads and
keeps; the fetched entry is cached and shows the view of the cache; the cache keeps its
invariant and its view; the layers below either are not asked or are `getBelow`'s. -/
theorem fetchCoinWith_spec {σ : Type} {getBelow : COutPoint → Option Coin × σ} {below : σ}
    {view : σ → COutPoint → Option Coin} {cache : CCoinsViewCache} {outpoint : COutPoint}
    {entry : Option CCoinsCacheEntry} {cache' : CCoinsViewCache} {below' : σ}
    (hget : (getBelow outpoint).1 = view below outpoint)
    (hunspent : ∀ coin, view below outpoint = some coin → coin.isSpent = false)
    (hinv : LayerInv (view below) cache)
    (h : fetchCoinWith getBelow below cache outpoint = (entry, cache', below')) :
    (below' = below ∨ below' = (getBelow outpoint).2) ∧ LayerInv (view below) cache' ∧
      (∀ o, overlay (cache'.cacheCoins o) (view below o) =
        overlay (cache.cacheCoins o) (view below o)) ∧
      cache'.cacheCoins outpoint = entry ∧
      entry.bind (fun e => e.coin.unspent) = overlay (cache.cacheCoins outpoint) (view below outpoint) ∧
      (entry = none ↔ cache.cacheCoins outpoint = none ∧ view below outpoint = none) := by
  unfold fetchCoinWith at h
  cases hc : cache.cacheCoins outpoint with
  | some e =>
    -- the entry is cached: nothing below is asked
    simp only [hc, Prod.mk.injEq] at h
    obtain ⟨rfl, rfl, rfl⟩ := h
    exact ⟨.inl rfl, hinv, fun _ => rfl, hc, by simp [overlay], by simp⟩
  | none =>
    rcases hg : getBelow outpoint with ⟨_ | coin, below''⟩ <;> simp only [hc, hg, Prod.mk.injEq] at h
    · obtain ⟨rfl, rfl, rfl⟩ := h
      have hnone : view below outpoint = none := by rw [← hget, hg]
      exact ⟨.inr rfl, hinv, fun _ => rfl, hc, by simp [overlay, hnone], by simp [hnone]⟩
    · -- fetched from below: cached as a clean entry showing the same coin
      obtain ⟨rfl, rfl, rfl⟩ := h
      have hsome : view below outpoint = some coin := by rw [← hget, hg]
      have hspent := hunspent coin hsome
      have hcoin : coin.unspent = some coin := Coin.unspent_eq_some_iff.mpr ⟨hspent, rfl⟩
      refine ⟨.inr rfl, layerInv_store hinv ?_, fun o => ?_, by simp, ?_, by simp [hsome]⟩
      · rintro e ⟨⟩
        exact ⟨by simp, by simp, by simp, fun _ => ⟨hspent, hsome⟩⟩
      · by_cases ho : o = outpoint
        · subst ho
          simp [overlay, hc, hsome, hcoin]
        · rw [CCoinsViewCache.cacheCoins_store_of_ne cache _ ho]
      · simp [overlay, hcoin, hsome]

/-- What `GetCoin` on a stack does: it returns the view, and keeps the invariant and the view. -/
def GetCoinSpec (base : COutPoint → Option Coin) (layers : List CCoinsViewCache)
    (outpoint : COutPoint) : Prop :=
  ∀ coin layers', getCoin base layers outpoint = (coin, layers') →
    coin = peekCoin base layers outpoint ∧ StackInv base layers' ∧
      ∀ o, peekCoin base layers' o = peekCoin base layers o

/-- `FetchCoin` on the top of a stack whose lower layers answer `GetCoin` as they should: the
stack keeps its invariant and its view, the entry is cached in the top layer, and it shows
the view; there is no entry only when neither the top nor the layers below hold a coin. -/
theorem fetchCoin_spec_of {base : COutPoint → Option Coin} {cache cache' : CCoinsViewCache}
    {below below' : List CCoinsViewCache} {outpoint : COutPoint} {entry : Option CCoinsCacheEntry}
    (hget : GetCoinSpec base below outpoint) (h : StackInv base (cache :: below))
    (hf : fetchCoin base cache below outpoint = (entry, cache', below')) :
    StackInv base (cache' :: below') ∧
      (∀ o, peekCoin base (cache' :: below') o = peekCoin base (cache :: below) o) ∧
      cache'.cacheCoins outpoint = entry ∧
      entry.bind (fun e => e.coin.unspent) = peekCoin base (cache :: below) outpoint ∧
      (entry = none ↔ cache.cacheCoins outpoint = none ∧ peekCoin base below outpoint = none) := by
  obtain ⟨hcache, hbelow⟩ := h
  obtain ⟨hcoin, hinv', hview⟩ := hget _ _ rfl
  obtain ⟨hbelow', hlayer, hover, hcached, hbind, hnone⟩ :=
    fetchCoinWith_spec hcoin (fun _ hc => isSpent_of_peekCoin hc) hcache hf
  -- the layers below are either untouched or those `GetCoin` left
  have hview' : ∀ o, peekCoin base below' o = peekCoin base below o := by
    rcases hbelow' with rfl | rfl
    · exact fun _ => rfl
    · exact hview
  have hstack' : StackInv base below' := by
    rcases hbelow' with rfl | rfl
    · exact hbelow
    · exact hinv'
  refine ⟨⟨layerInv_congr hlayer hview', hstack'⟩, fun o => ?_, hcached, ?_, hnone⟩
  · rw [peekCoin_cons, peekCoin_cons, hview' o, hover o]
  · rw [hbind, peekCoin_cons]

/-- `GetCoin` on a stack returns its view, and keeps the invariant and the view. -/
theorem getCoin_spec {base : COutPoint → Option Coin} {outpoint : COutPoint} :
    ∀ {layers : List CCoinsViewCache}, StackInv base layers → GetCoinSpec base layers outpoint
  | [], _, coin, layers', h => by
    simp only [getCoin, Prod.mk.injEq] at h
    obtain ⟨rfl, rfl⟩ := h
    exact ⟨rfl, trivial, fun _ => rfl⟩
  | cache :: below, hinv, coin, layers', h => by
    simp only [getCoin] at h
    rcases hf : fetchCoin base cache below outpoint with ⟨entry, cache', below'⟩
    rw [fetchCoin] at hf
    rw [hf] at h
    simp only [Prod.mk.injEq] at h
    obtain ⟨rfl, rfl⟩ := h
    obtain ⟨hinv', hview, -, hbind, -⟩ := fetchCoin_spec_of (getCoin_spec hinv.2) hinv hf
    exact ⟨hbind, hinv', hview⟩

/-- `FetchCoin` on the top of a stack that keeps the invariant. -/
theorem fetchCoin_spec {base : COutPoint → Option Coin} {cache cache' : CCoinsViewCache}
    {below below' : List CCoinsViewCache} {outpoint : COutPoint} {entry : Option CCoinsCacheEntry}
    (h : StackInv base (cache :: below))
    (hf : fetchCoin base cache below outpoint = (entry, cache', below')) :
    StackInv base (cache' :: below') ∧
      (∀ o, peekCoin base (cache' :: below') o = peekCoin base (cache :: below) o) ∧
      cache'.cacheCoins outpoint = entry ∧
      entry.bind (fun e => e.coin.unspent) = peekCoin base (cache :: below) outpoint ∧
      (entry = none ↔ cache.cacheCoins outpoint = none ∧ peekCoin base below outpoint = none) :=
  fetchCoin_spec_of (getCoin_spec h.2) h hf

/-- `AddCoin` of an unspent coin, overwriting only when allowed to or when the view holds
no unspent coin: it succeeds, keeps the invariant, and the view shows the coin unless its
script is unspendable. -/
theorem addCoin_spec {below : COutPoint → Option Coin} {cache : CCoinsViewCache}
    {outpoint : COutPoint} {coin : Coin} {possibleOverwrite : Bool} (hinv : LayerInv below cache)
    (hcoin : coin.isSpent = false)
    (hnone : possibleOverwrite = false → overlay (cache.cacheCoins outpoint) (below outpoint) = none) :
    ∃ cache', addCoin cache outpoint coin possibleOverwrite = .ok cache' ∧ LayerInv below cache' ∧
      (isUnspendable coin.out.scriptPubKey = false →
        overlay (cache'.cacheCoins outpoint) (below outpoint) = some coin) ∧
      ∀ o, (o ≠ outpoint ∨ isUnspendable coin.out.scriptPubKey = true) →
        cache'.cacheCoins o = cache.cacheCoins o := by
  unfold addCoin
  rw [if_neg (by simp [hcoin])]
  by_cases hu : isUnspendable coin.out.scriptPubKey = true
  · rw [if_pos hu]
    exact ⟨cache, rfl, hinv, fun h => absurd (h.symm.trans hu) nofun, fun _ _ => rfl⟩
  rw [if_neg hu]
  -- the new entry keeps the invariant as soon as a FRESH flag has nothing below it
  have hnew : ∀ fresh, (fresh = true → below outpoint = none) →
      LayerInv below (cache.store outpoint (some ⟨coin, true, fresh⟩)) ∧
        overlay ((cache.store outpoint (some ⟨coin, true, fresh⟩)).cacheCoins outpoint)
          (below outpoint) = some coin ∧
        ∀ o, o ≠ outpoint →
          (cache.store outpoint (some ⟨coin, true, fresh⟩)).cacheCoins o = cache.cacheCoins o := by
    intro fresh hfresh
    refine ⟨layerInv_store hinv ?_, ?_, fun o ho => CCoinsViewCache.cacheCoins_store_of_ne cache _ ho⟩
    · rintro e ⟨⟩
      exact ⟨fun _ => rfl, fun _ => hcoin, hfresh, (fun h => by cases h)⟩
    · simp [overlay, Coin.unspent_eq_some_iff, hcoin]
  dsimp only
  generalize hentry : (cache.cacheCoins outpoint).getD ⟨Coin.empty, false, false⟩ = entry
  -- the entry is the default one of a missing outpoint, or the cached one
  have hcases : (cache.cacheCoins outpoint = none ∧ entry = ⟨Coin.empty, false, false⟩) ∨
      cache.cacheCoins outpoint = some entry := by
    cases he : cache.cacheCoins outpoint with
    | none => exact .inl ⟨rfl, by simpa [he] using hentry.symm⟩
    | some e => exact .inr (by simpa [he] using hentry)
  split
  · -- overwriting an unspent entry without `possible_overwrite` is excluded
    next hcheck =>
    simp only [Bool.and_eq_true, Bool.not_eq_eq_eq_not, Bool.not_true] at hcheck
    have hview := hnone hcheck.1
    rcases hcases with ⟨-, rfl⟩ | he
    · simp at hcheck
    · simp only [he, overlay, Coin.unspent_eq_none_iff] at hview
      simp [hview] at hcheck
  · next hcheck =>
    have hF : (entry.fresh || (!possibleOverwrite && !entry.dirty)) = true →
        below outpoint = none := by
      intro hf
      rcases hcases with ⟨he, rfl⟩ | he
      · have hpo : possibleOverwrite = false := by simpa using hf
        simpa [he, overlay] using hnone hpo
      · rcases Bool.or_eq_true _ _ ▸ hf with hf | hf
        · exact (hinv outpoint entry he).below_of_fresh hf
        · -- a clean entry is unspent, which the check excludes
          simp only [Bool.and_eq_true, Bool.not_eq_eq_eq_not, Bool.not_true] at hf
          have := ((hinv outpoint entry he).below_of_clean hf.2).1
          simp [hf.1, this] at hcheck
    obtain ⟨hinv', hview, hframe⟩ := hnew _ hF
    exact ⟨_, rfl, hinv', fun _ => hview, fun o ho => hframe o (ho.resolve_right hu)⟩

/-- `EmplaceCoinInternalDANGER` on an outpoint the cache does not hold keeps the invariant
and shows the coin. -/
theorem emplaceCoin_spec {below : COutPoint → Option Coin} {cache : CCoinsViewCache}
    {outpoint : COutPoint} (coin : Coin) (hinv : LayerInv below cache)
    (hmiss : cache.cacheCoins outpoint = none) :
    LayerInv below (emplaceCoinInternalDANGER cache outpoint coin) ∧
      (emplaceCoinInternalDANGER cache outpoint coin).cacheCoins outpoint =
        some ⟨coin, true, false⟩ ∧
      ∀ o, o ≠ outpoint →
        (emplaceCoinInternalDANGER cache outpoint coin).cacheCoins o = cache.cacheCoins o := by
  unfold emplaceCoinInternalDANGER
  rw [hmiss]
  refine ⟨layerInv_store hinv ?_, by simp, fun o ho => CCoinsViewCache.cacheCoins_store_of_ne cache _ ho⟩
  rintro e ⟨⟩
  exact ⟨fun _ => rfl, (fun h => by cases h), (fun h => by cases h), (fun h => by cases h)⟩

/-- `SpendCoin` on the top of a stack keeps the invariant, leaves no unspent coin at the
outpoint and changes nothing else in the view; it returns `true` exactly when the top
layer holds an entry for the outpoint or the view holds a coin there. -/
theorem spendCoin_spec {base : COutPoint → Option Coin} {cache cache' : CCoinsViewCache}
    {below below' : List CCoinsViewCache} {outpoint : COutPoint} {b : Bool}
    (h : StackInv base (cache :: below))
    (hs : spendCoin base cache below outpoint = (b, cache', below')) :
    StackInv base (cache' :: below') ∧ peekCoin base (cache' :: below') outpoint = none ∧
      (∀ o, o ≠ outpoint → peekCoin base (cache' :: below') o = peekCoin base (cache :: below) o) ∧
      (b = true ↔ (cache.cacheCoins outpoint).isSome ∨
        (peekCoin base (cache :: below) outpoint).isSome) := by
  unfold spendCoin at hs
  rcases hf : fetchCoin base cache below outpoint with ⟨entry, cache₁, below₁⟩
  rw [hf] at hs
  obtain ⟨⟨hlayer, hstack⟩, hview, hcached, hbind, hnone⟩ := fetchCoin_spec h hf
  cases entry with
  | none =>
    simp only [Prod.mk.injEq] at hs
    obtain ⟨rfl, rfl, rfl⟩ := hs
    obtain ⟨hmiss, hbelow⟩ := hnone.mp rfl
    have hpeek : peekCoin base (cache :: below) outpoint = none := by
      rw [peekCoin_cons, hmiss, overlay, hbelow]
    refine ⟨⟨hlayer, hstack⟩, by rw [hview, hpeek], fun o _ => hview o, ?_⟩
    simp [hmiss, hpeek]
  | some e =>
    have he := hlayer outpoint e hcached
    -- `FetchCoin` found an entry, so the top held one or the view held a coin
    have hfound : (cache.cacheCoins outpoint).isSome ∨
        (peekCoin base (cache :: below) outpoint).isSome := by
      cases hc : cache.cacheCoins outpoint with
      | some _ => exact .inl rfl
      | none =>
        have hb : peekCoin base below outpoint ≠ none := fun hb => by cases hnone.mpr ⟨hc, hb⟩
        right
        rw [peekCoin_cons, hc, overlay, Option.isSome_iff_ne_none]
        exact hb
    -- the new entry at the outpoint: erased when FRESH, else cleared and DIRTY
    have hnew : ∀ new : Option CCoinsCacheEntry,
        (∀ e', new = some e' → EntryInv (peekCoin base below₁ outpoint) e') →
        overlay new (peekCoin base below₁ outpoint) = none →
        StackInv base (cache₁.store outpoint new :: below₁) ∧
          peekCoin base (cache₁.store outpoint new :: below₁) outpoint = none ∧
          ∀ o, o ≠ outpoint →
            peekCoin base (cache₁.store outpoint new :: below₁) o = peekCoin base (cache :: below) o := by
      intro new hinv hover
      refine ⟨⟨layerInv_store hlayer hinv, hstack⟩, ?_, fun o ho => ?_⟩
      · rw [peekCoin_cons, CCoinsViewCache.cacheCoins_store_self, hover]
      · rw [peekCoin_store_of_ne base cache₁ below₁ new ho, hview o]
    dsimp only at hs
    split at hs
    · next hfresh =>
      simp only [Prod.mk.injEq] at hs
      obtain ⟨rfl, rfl, rfl⟩ := hs
      obtain ⟨h₁, h₂, h₃⟩ := hnew none (fun _ h => by cases h) (by rw [overlay, he.below_of_fresh hfresh])
      exact ⟨h₁, h₂, h₃, by simp [hfound]⟩
    · next hfresh =>
      simp only [Prod.mk.injEq] at hs
      obtain ⟨rfl, rfl, rfl⟩ := hs
      obtain ⟨h₁, h₂, h₃⟩ := hnew (some { e with coin := e.coin.clear, dirty := true }) (by
        rintro e' ⟨⟩
        exact ⟨fun _ => rfl, fun h => absurd h hfresh, fun h => absurd h hfresh, (fun h => by cases h)⟩)
        (by simp [overlay, Coin.unspent])
      exact ⟨h₁, h₂, h₃, by simp [hfound]⟩

/-- What `AccessCoin` returns shows the same as the view: the coin when unspent. -/
theorem unspent_accessed (entry : Option CCoinsCacheEntry) :
    ((entry.map (·.coin)).getD Coin.empty).unspent = entry.bind fun e => e.coin.unspent := by
  cases entry <;> rfl

/-- What `HaveCoin` returns: the view holds a coin. -/
theorem have_accessed (entry : Option CCoinsCacheEntry) :
    (entry.any fun e => !e.coin.isSpent) = (entry.bind fun e => e.coin.unspent).isSome := by
  cases entry with
  | none => rfl
  | some e =>
    simp only [Option.any_some, Option.bind_some, Coin.unspent]
    cases e.coin.isSpent <;> rfl

/-- `Uncache` keeps the invariant and the view of its layer. -/
theorem uncache_spec {below : COutPoint → Option Coin} {cache : CCoinsViewCache}
    (outpoint : COutPoint) (hinv : LayerInv below cache) :
    LayerInv below (uncache cache outpoint) ∧
      ∀ o, overlay ((uncache cache outpoint).cacheCoins o) (below o) =
        overlay (cache.cacheCoins o) (below o) := by
  unfold uncache
  cases he : cache.cacheCoins outpoint with
  | none => exact ⟨hinv, fun _ => rfl⟩
  | some e =>
    dsimp only
    split
    · exact ⟨hinv, fun _ => rfl⟩
    · -- a clean entry shows what lies below, so dropping it changes nothing
      next hd =>
      have hclean : e.dirty = false := by simpa using hd
      refine ⟨layerInv_store hinv (fun _ h => by cases h), fun o => ?_⟩
      by_cases ho : o = outpoint
      · subst ho
        rw [CCoinsViewCache.cacheCoins_store_self, he,
          overlay_eq_of_clean (hinv o e he) hclean, overlay]
      · rw [CCoinsViewCache.cacheCoins_store_of_ne cache none ho]

/-- `Uncache` on any layer keeps the invariant and the view of the stack. -/
theorem uncacheAt_spec {base : COutPoint → Option Coin} (outpoint : COutPoint) :
    ∀ (layer : Nat) {layers : List CCoinsViewCache}, StackInv base layers →
      StackInv base (uncacheAt outpoint layer layers) ∧
        ∀ o, peekCoin base (uncacheAt outpoint layer layers) o = peekCoin base layers o
  | layer, [], _ => by cases layer <;> exact ⟨trivial, fun _ => rfl⟩
  | 0, cache :: below, ⟨hcache, hbelow⟩ => by
    obtain ⟨hinv, hview⟩ := uncache_spec outpoint hcache
    refine ⟨⟨hinv, hbelow⟩, fun o => ?_⟩
    simp only [uncacheAt, peekCoin_cons, hview o]
  | layer + 1, cache :: below, ⟨hcache, hbelow⟩ => by
    obtain ⟨hinv, hview⟩ := uncacheAt_spec outpoint layer hbelow
    refine ⟨⟨layerInv_congr hcache hview, hinv⟩, fun o => ?_⟩
    simp only [uncacheAt, peekCoin_cons, hview o]

end Riecoin
