-- SUMMARY: Coins, outpoints, the DIRTY/FRESH cache entries of `coins.h`, and a cache layer whose list of flagged entries is kept well formed by construction.
import Riecoin.Base.Uint256
import Mathlib.Logic.Function.Basic

/-!
# Coins and cache entries

`Coin`, `CTxOut` and `COutPoint` with the operations the coins cache uses, and the state of
one `CCoinsViewCache`: its map `cacheCoins` and the linked list of flagged entries that
hangs off `m_sentinel`. The map is a function from outpoints. The list is kept in its
order (an entry that gains its first flag goes to the tail, one that loses its flags or is
erased is unlinked); the structure carries the fact that the list holds each flagged
outpoint exactly once, so every `BatchWrite` cursor walks distinct outpoints.
-/

namespace Riecoin

/-- `CTxOut`: an amount (`CAmount`) and a locking script. -/
structure CTxOut where
  nValue : Int
  scriptPubKey : List UInt8
  deriving DecidableEq, Repr

namespace CTxOut

/-- The output `SetNull()` leaves, and the default one. -/
def null : CTxOut := ⟨-1, []⟩

/-- `CTxOut::IsNull`: only the amount is looked at. -/
def isNull (out : CTxOut) : Bool := out.nValue == -1

end CTxOut

/-- The opcode `OP_RETURN`. -/
def OP_RETURN : UInt8 := 0x6a

/-- `MAX_SCRIPT_SIZE` (`script/script.h`). -/
def MAX_SCRIPT_SIZE : Nat := 10000

/-- `CScript::IsUnspendable`: the script starts with `OP_RETURN` or is too large. -/
def isUnspendable (script : List UInt8) : Bool :=
  (decide (script.length > 0) && script.head? == some OP_RETURN) ||
    decide (script.length > MAX_SCRIPT_SIZE)

/-- `Coin` (`coins.h`): an output with its coinbase flag and height. -/
structure Coin where
  out : CTxOut
  fCoinBase : Bool
  nHeight : UInt32
  deriving DecidableEq, Repr

namespace Coin

/-- `Coin()`, also the `coinEmpty` that `AccessCoin` returns for a missing coin. -/
def empty : Coin := ⟨CTxOut.null, false, 0⟩

/-- `Coin::IsSpent`: the output is null. -/
def isSpent (coin : Coin) : Bool := coin.out.isNull

/-- `Coin::Clear`. -/
def clear (coin : Coin) : Coin := { coin with out := CTxOut.null, fCoinBase := false, nHeight := 0 }

/-- The coin as `GetCoin` returns it: nothing when it is spent. -/
def unspent (coin : Coin) : Option Coin := if coin.isSpent then none else some coin

@[simp] theorem isSpent_empty : empty.isSpent = true := rfl

@[simp] theorem clear_eq_empty (coin : Coin) : coin.clear = empty := rfl

theorem unspent_eq_some_iff {coin c : Coin} :
    coin.unspent = some c ↔ coin.isSpent = false ∧ coin = c := by
  unfold unspent
  cases coin.isSpent <;> simp

theorem unspent_eq_none_iff {coin : Coin} : coin.unspent = none ↔ coin.isSpent = true := by
  unfold unspent
  cases coin.isSpent <;> simp

@[simp] theorem unspent_empty : empty.unspent = none := rfl

end Coin

/-- `COutPoint`: a transaction id and an output index. -/
structure COutPoint where
  hash : Uint256
  n : UInt32
  deriving DecidableEq

/-- `CCoinsCacheEntry`: the cached coin and the two bits of `m_flags`. -/
structure CCoinsCacheEntry where
  coin : Coin
  dirty : Bool
  fresh : Bool
  deriving DecidableEq, Repr

/-- An entry is on the flagged list when it has a flag. -/
def flaggedAt : Option CCoinsCacheEntry → Bool
  | some e => e.dirty || e.fresh
  | none => false

/-- One layer `CCoinsViewCache`: the map `cacheCoins` and the flagged list of `m_sentinel`,
which holds each flagged outpoint once. -/
structure CCoinsViewCache where
  cacheCoins : COutPoint → Option CCoinsCacheEntry
  flagged : List COutPoint
  nodup_flagged : flagged.Nodup
  mem_flagged : ∀ outpoint, outpoint ∈ flagged ↔ flaggedAt (cacheCoins outpoint) = true

namespace CCoinsViewCache

/-- A new cache, with nothing cached. -/
def empty : CCoinsViewCache where
  cacheCoins := fun _ => none
  flagged := []
  nodup_flagged := List.nodup_nil
  mem_flagged := by simp [flaggedAt]

/-- The flagged list after the entry for `outpoint` changes from `old` to `new`:
`AddFlags` appends an entry that gains its first flag, `SetClean` (also run by the
destructor of an erased entry) unlinks one that loses them. -/
def relink (flagged : List COutPoint) (outpoint : COutPoint) (old new : Option CCoinsCacheEntry) :
    List COutPoint :=
  match flaggedAt old, flaggedAt new with
  | false, true => flagged ++ [outpoint]
  | true, false => flagged.erase outpoint
  | _, _ => flagged

theorem relink_wf {flagged : List COutPoint} {m : COutPoint → Option CCoinsCacheEntry}
    (hnd : flagged.Nodup) (hmem : ∀ o, o ∈ flagged ↔ flaggedAt (m o) = true)
    (outpoint : COutPoint) (new : Option CCoinsCacheEntry) :
    (relink flagged outpoint (m outpoint) new).Nodup ∧
      ∀ o, o ∈ relink flagged outpoint (m outpoint) new ↔
        flaggedAt (Function.update m outpoint new o) = true := by
  have hupd : ∀ o, o ≠ outpoint → flaggedAt (Function.update m outpoint new o) = flaggedAt (m o) :=
    fun o ho => by simp [ho]
  unfold relink
  cases hold : flaggedAt (m outpoint) <;> cases hnew : flaggedAt new
  · -- unflagged before and after: the list does not change
    refine ⟨hnd, fun o => ?_⟩
    by_cases ho : o = outpoint
    · subst ho
      simp [hmem, hold, hnew]
    · rw [hupd o ho, hmem]
  · -- the first flag: append at the tail
    have hout : outpoint ∉ flagged := fun h => by simp [(hmem outpoint).mp h] at hold
    refine ⟨List.nodup_append.mpr ⟨hnd, List.nodup_cons.mpr ⟨List.not_mem_nil, List.nodup_nil⟩, ?_⟩, fun o => ?_⟩
    · intro a ha b hb
      rw [List.mem_singleton.mp hb]
      exact fun h => hout (h ▸ ha)
    · by_cases ho : o = outpoint
      · subst ho
        simp [hnew]
      · rw [hupd o ho, List.mem_append, ← hmem]
        simp [ho]
  · -- the last flag gone: unlink
    refine ⟨hnd.erase outpoint, fun o => ?_⟩
    rw [hnd.mem_erase_iff]
    by_cases ho : o = outpoint
    · subst ho
      simp [hnew]
    · rw [hupd o ho, ← hmem]
      simp [ho]
  · -- flagged before and after
    refine ⟨hnd, fun o => ?_⟩
    by_cases ho : o = outpoint
    · subst ho
      simp [hmem, hold, hnew]
    · rw [hupd o ho, hmem]

/-- Set the entry for `outpoint` to `entry` (`none` erases it), relinking the flagged list. -/
def store (cache : CCoinsViewCache) (outpoint : COutPoint) (entry : Option CCoinsCacheEntry) :
    CCoinsViewCache where
  cacheCoins := Function.update cache.cacheCoins outpoint entry
  flagged := relink cache.flagged outpoint (cache.cacheCoins outpoint) entry
  nodup_flagged := (relink_wf cache.nodup_flagged cache.mem_flagged outpoint entry).1
  mem_flagged := (relink_wf cache.nodup_flagged cache.mem_flagged outpoint entry).2

@[simp] theorem cacheCoins_empty (outpoint : COutPoint) : empty.cacheCoins outpoint = none := rfl

@[simp] theorem cacheCoins_store_self (cache : CCoinsViewCache) (outpoint : COutPoint)
    (entry : Option CCoinsCacheEntry) : (cache.store outpoint entry).cacheCoins outpoint = entry := by
  simp [store]

theorem cacheCoins_store_of_ne (cache : CCoinsViewCache) {outpoint o : COutPoint}
    (entry : Option CCoinsCacheEntry) (h : o ≠ outpoint) :
    (cache.store outpoint entry).cacheCoins o = cache.cacheCoins o := by
  simp [store, h]

/-- A flagged outpoint has an entry. -/
theorem exists_of_mem_flagged {cache : CCoinsViewCache} {outpoint : COutPoint}
    (h : outpoint ∈ cache.flagged) : ∃ e, cache.cacheCoins outpoint = some e ∧ (e.dirty || e.fresh) := by
  have := (cache.mem_flagged outpoint).mp h
  cases he : cache.cacheCoins outpoint with
  | none => simp [he, flaggedAt] at this
  | some e => exact ⟨e, rfl, by simpa [he, flaggedAt] using this⟩

end CCoinsViewCache

end Riecoin
