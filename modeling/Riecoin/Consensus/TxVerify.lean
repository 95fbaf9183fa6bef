-- SUMMARY: IsFinalTx, CalculateSequenceLocks, EvaluateSequenceLocks and SequenceLocks over the block index tree: SequenceLocks is the BIP 68 first-valid rule, and both checks stay true for descendants when the median time past does not decrease.
import Riecoin.Chain.MedianTime
import Riecoin.Lib.CheckedInt

/-!
# Lock times and sequence locks

`IsFinalTx` checks a transaction's absolute lock time against a block height or time.
`CalculateSequenceLocks` turns each input's BIP 68 relative lock into the last invalid
height or time (`nLockTime` semantics, hence the `- 1`s and the initial `-1`), measured
from the coin's height or from the median time past of the block before the coin's;
`EvaluateSequenceLocks` compares them with `>=` against the block's height and its parent's
median time past.

`sequenceLocks_spec` says what the pair computes: with BIP 68 enforced, `SequenceLocks`
holds exactly when every input satisfies the first-valid rule `Bip68InputOk`, stated with
the ancestor that following `pprev` reaches. The ancestor the code finds with
`GetAncestor` is that one (`getAncestor_eq`).
-/

namespace Riecoin.Consensus

open Chain

/-- The fields of `CTransaction` that `IsFinalTx` and `SequenceLocks` read: the version,
the lock time and the `nSequence` of each input, in order. -/
structure LockTx where
  version : UInt32
  nLockTime : UInt32
  nSequences : List UInt32
  deriving DecidableEq

/-- `LOCKTIME_THRESHOLD`: lock times below it are heights, others times. -/
def LOCKTIME_THRESHOLD : Int := 500000000

/-- `CTxIn::SEQUENCE_FINAL`. -/
def SEQUENCE_FINAL : UInt32 := 0xffffffff

/-- `CTxIn::SEQUENCE_LOCKTIME_DISABLE_FLAG`. -/
def SEQUENCE_LOCKTIME_DISABLE_FLAG : UInt32 := (1 : UInt32) <<< 31

/-- `CTxIn::SEQUENCE_LOCKTIME_TYPE_FLAG`. -/
def SEQUENCE_LOCKTIME_TYPE_FLAG : UInt32 := (1 : UInt32) <<< 22

/-- `CTxIn::SEQUENCE_LOCKTIME_MASK`. -/
def SEQUENCE_LOCKTIME_MASK : UInt32 := 0x0000ffff

/-- `CTxIn::SEQUENCE_LOCKTIME_GRANULARITY`. -/
def SEQUENCE_LOCKTIME_GRANULARITY : UInt32 := 9

/-- `LOCKTIME_VERIFY_SEQUENCE`, a bit of the verification flags. -/
def LOCKTIME_VERIFY_SEQUENCE : UInt32 := (1 : UInt32) <<< 0

/-- `IsFinalTx`: the lock time is unset or already past, or every input is final. -/
def isFinalTx (tx : LockTx) (nBlockHeight nBlockTime : Int) : Bool :=
  if tx.nLockTime = 0 then true
  else if (tx.nLockTime.toNat : Int) <
      (if (tx.nLockTime.toNat : Int) < LOCKTIME_THRESHOLD then nBlockHeight else nBlockTime) then
    true
  else tx.nSequences.all (· == SEQUENCE_FINAL)

section SequenceLocks

variable {ι : Type} (index : ι → CBlockIndex ι)

/-- One pass of the loop of `CalculateSequenceLocks` for `block`, over an input with
`nSequence` that spends a coin of height `nCoinHeight`: the pair `(nMinHeight, nMinTime)`
after it; `none` where the `Assert` on the ancestor fails or where the `int` arithmetic on
the height, or the `int64_t` arithmetic on the time, overflows. -/
def sequenceLockStep (block : ι) (lock : Int × Int) (nSequence : UInt32) (nCoinHeight : Int) :
    Option (Int × Int) :=
  if nSequence &&& SEQUENCE_LOCKTIME_DISABLE_FLAG ≠ 0 then some lock
  else if nSequence &&& SEQUENCE_LOCKTIME_TYPE_FLAG ≠ 0 then
    (CheckedInt.sub? 32 nCoinHeight 1).bind fun nPrevHeight =>
    (getAncestor index block (max nPrevHeight 0)).bind fun ancestor =>
      let nCoinTime := getMedianTimePast index ancestor
      (CheckedInt.add? 64 nCoinTime
          ((nSequence &&& SEQUENCE_LOCKTIME_MASK) <<< SEQUENCE_LOCKTIME_GRANULARITY).toNat).bind
        fun nTime => (CheckedInt.sub? 64 nTime 1).map fun nTime => (lock.1, max lock.2 nTime)
  else
    (CheckedInt.add? 32 nCoinHeight (nSequence &&& SEQUENCE_LOCKTIME_MASK).toNat).bind
      fun nHeight => (CheckedInt.sub? 32 nHeight 1).map fun nHeight => (max lock.1 nHeight, lock.2)

/-- The heights `CalculateSequenceLocks` leaves in `prevHeights`: `0` for the inputs whose
relative lock is disabled. -/
def zeroDisabledHeights (nSequences : List UInt32) (prevHeights : List Int) : List Int :=
  List.zipWith (fun nSequence nCoinHeight =>
    if nSequence &&& SEQUENCE_LOCKTIME_DISABLE_FLAG ≠ 0 then 0 else nCoinHeight) nSequences prevHeights

/-- `CalculateSequenceLocks`: the pair `(nMinHeight, nMinTime)`, with `prevHeights` as the
function leaves it; `none` where an assert fails. -/
def calculateSequenceLocks (tx : LockTx) (flags : UInt32) (prevHeights : List Int) (block : ι) :
    Option ((Int × Int) × List Int) :=
  if prevHeights.length ≠ tx.nSequences.length then none
  else if ¬(tx.version ≥ 2 ∧ flags &&& LOCKTIME_VERIFY_SEQUENCE ≠ 0) then some ((-1, -1), prevHeights)
  else
    ((tx.nSequences.zip prevHeights).foldlM
        (fun lock input => sequenceLockStep index block lock input.1 input.2) (-1, -1)).map
      fun lock => (lock, zeroDisabledHeights tx.nSequences prevHeights)

/-- `EvaluateSequenceLocks`: the block's height and its parent's median time past are past
both lock values; `none` where the block has no parent. -/
def evaluateSequenceLocks (block : ι) (lockPair : Int × Int) : Option Bool :=
  (index block).pprev.map fun pprev =>
    let nBlockTime := getMedianTimePast index pprev
    !decide (lockPair.1 ≥ (index block).nHeight ∨ lockPair.2 ≥ nBlockTime)

/-- `SequenceLocks`. -/
def sequenceLocks (tx : LockTx) (flags : UInt32) (prevHeights : List Int) (block : ι) : Option Bool :=
  (calculateSequenceLocks index tx flags prevHeights block).bind fun result =>
    evaluateSequenceLocks index block result.1

/-- The BIP 68 rule for one input of a transaction in `block`, whose parent is `pprev`, in
first-valid form: unless its relative lock is disabled, with `v` the masked lock value, a
time lock needs the parent's median time past to be `v * 512` seconds past that of the
ancestor of `block` at `max(nCoinHeight - 1, 0)`, and a height lock needs the block to be
`v` above the coin. -/
def Bip68InputOk (block pprev : ι) (nSequence : UInt32) (nCoinHeight : Int) : Prop :=
  nSequence &&& SEQUENCE_LOCKTIME_DISABLE_FLAG = 0 →
    if nSequence &&& SEQUENCE_LOCKTIME_TYPE_FLAG ≠ 0 then
      ∀ ancestor, Ancestry.up (pprevOf index) block
          ((index block).nHeight - max (nCoinHeight - 1) 0).toNat = some ancestor →
        getMedianTimePast index ancestor + (nSequence &&& SEQUENCE_LOCKTIME_MASK).toNat * 512 ≤
          getMedianTimePast index pprev
    else nCoinHeight + (nSequence &&& SEQUENCE_LOCKTIME_MASK).toNat ≤ (index block).nHeight

-- ---------------------------------------------------------------------------
-- SequenceLocks is the BIP 68 rule
-- ---------------------------------------------------------------------------

theorem SEQUENCE_LOCKTIME_MASK_toNat : SEQUENCE_LOCKTIME_MASK.toNat = 0xffff := rfl

/-- The masked lock value is at most the mask, 16 bits. -/
theorem lockTime_mask_le (nSequence : UInt32) : (nSequence &&& SEQUENCE_LOCKTIME_MASK).toNat ≤ 0xffff := by
  rw [UInt32.toNat_and, ← SEQUENCE_LOCKTIME_MASK_toNat]
  exact Nat.and_le_right

/-- The shifted lock value is `512` seconds per unit: the masked value has 16 bits, so the
shift by `SEQUENCE_LOCKTIME_GRANULARITY` does not wrap. -/
theorem lockTime_shift_toNat (nSequence : UInt32) :
    ((nSequence &&& SEQUENCE_LOCKTIME_MASK) <<< SEQUENCE_LOCKTIME_GRANULARITY).toNat =
      (nSequence &&& SEQUENCE_LOCKTIME_MASK).toNat * 512 := by
  have hmask := lockTime_mask_le nSequence
  rw [UInt32.toNat_shiftLeft, show SEQUENCE_LOCKTIME_GRANULARITY.toNat % 32 = 9 from rfl,
    Nat.shiftLeft_eq, Nat.mod_eq_of_lt (by omega)]

variable {index}

/-- A disabled relative lock leaves the pair as it is. -/
theorem sequenceLockStep_of_disabled {block : ι} {lock : Int × Int} {nSequence : UInt32}
    {nCoinHeight : Int} (hdis : nSequence &&& SEQUENCE_LOCKTIME_DISABLE_FLAG ≠ 0) :
    sequenceLockStep index block lock nSequence nCoinHeight = some lock := by
  rw [sequenceLockStep, if_pos hdis]

/-- A time lock moves `nMinTime` to one second before the lock's end, measured from the
median time past of the ancestor at the coin's height minus one: a 32-bit time plus at most
`2^25` seconds, which no `int64_t` overflows. -/
theorem sequenceLockStep_of_time {block ancestor : ι} {lock : Int × Int} {nSequence : UInt32}
    {nCoinHeight : Int} (hdis : nSequence &&& SEQUENCE_LOCKTIME_DISABLE_FLAG = 0)
    (htype : nSequence &&& SEQUENCE_LOCKTIME_TYPE_FLAG ≠ 0) (h0 : 0 ≤ nCoinHeight)
    (hint : nCoinHeight < 2 ^ 31)
    (hget : getAncestor index block (max (nCoinHeight - 1) 0) = some ancestor) :
    sequenceLockStep index block lock nSequence nCoinHeight =
      some (lock.1, max lock.2 (getMedianTimePast index ancestor +
        (nSequence &&& SEQUENCE_LOCKTIME_MASK).toNat * 512 - 1)) := by
  have hmask := lockTime_mask_le nSequence
  have htime : 0 ≤ getMedianTimePast index ancestor ∧ getMedianTimePast index ancestor < 2 ^ 32 :=
    getMedianTimePast_range ancestor
  rw [sequenceLockStep, if_neg (not_not_intro hdis), if_pos htype,
    CheckedInt.sub?_eq (CheckedInt.inRange_32 (by omega) (by omega)), Option.bind_some, hget,
    Option.bind_some]
  dsimp only
  rw [lockTime_shift_toNat, CheckedInt.add?_eq (CheckedInt.inRange_64 (by omega) (by omega)), Option.bind_some,
    CheckedInt.sub?_eq (CheckedInt.inRange_64 (by omega) (by omega)), Option.map_some]
  simp only [Int.natCast_mul, Nat.cast_ofNat]

/-- A height lock moves `nMinHeight` to one block before the lock's end, which stays within
`int` where the coin's height leaves room for the largest lock. -/
theorem sequenceLockStep_of_height {block : ι} {lock : Int × Int} {nSequence : UInt32}
    {nCoinHeight : Int} (hdis : nSequence &&& SEQUENCE_LOCKTIME_DISABLE_FLAG = 0)
    (htype : nSequence &&& SEQUENCE_LOCKTIME_TYPE_FLAG = 0) (h0 : 0 ≤ nCoinHeight)
    (hint : nCoinHeight + SEQUENCE_LOCKTIME_MASK.toNat < 2 ^ 31) :
    sequenceLockStep index block lock nSequence nCoinHeight =
      some (max lock.1 (nCoinHeight + (nSequence &&& SEQUENCE_LOCKTIME_MASK).toNat - 1), lock.2) := by
  have hmask := lockTime_mask_le nSequence
  rw [SEQUENCE_LOCKTIME_MASK_toNat] at hint
  rw [sequenceLockStep, if_neg (not_not_intro hdis), if_neg (not_not_intro htype),
    CheckedInt.add?_eq (CheckedInt.inRange_32 (by omega) (by omega)), Option.bind_some,
    CheckedInt.sub?_eq (CheckedInt.inRange_32 (by omega) (by omega)), Option.map_some]

variable (hwf : WellFormed index)
include hwf

/-- One input moves the pair of last invalid values past the block's height and its
parent's median time past exactly when the input also satisfies the first-valid rule. -/
theorem sequenceLockStep_spec {block : ι} (pprev : ι) {nSequence : UInt32} {nCoinHeight : Int}
    (h0 : 0 ≤ nCoinHeight) (hle : nCoinHeight ≤ (index block).nHeight)
    (hint : nCoinHeight + SEQUENCE_LOCKTIME_MASK.toNat < 2 ^ 31) (lock : Int × Int) :
    ∃ lock', sequenceLockStep index block lock nSequence nCoinHeight = some lock' ∧
      ((lock'.1 < (index block).nHeight ∧ lock'.2 < getMedianTimePast index pprev) ↔
        (lock.1 < (index block).nHeight ∧ lock.2 < getMedianTimePast index pprev ∧
          Bip68InputOk index block pprev nSequence nCoinHeight)) := by
  unfold Bip68InputOk
  by_cases hdis : nSequence &&& SEQUENCE_LOCKTIME_DISABLE_FLAG ≠ 0
  · -- a disabled relative lock constrains nothing
    exact ⟨lock, sequenceLockStep_of_disabled hdis,
      ⟨fun h => ⟨h.1, h.2, fun h' => absurd h' hdis⟩, fun h => ⟨h.1, h.2.1⟩⟩⟩
  have hdis' : nSequence &&& SEQUENCE_LOCKTIME_DISABLE_FLAG = 0 := Classical.not_not.mp hdis
  by_cases htype : nSequence &&& SEQUENCE_LOCKTIME_TYPE_FLAG ≠ 0
  · -- a time lock, measured from the ancestor `GetAncestor` finds, which is the one up `pprev`
    have hb0 := hwf.height_nonneg block
    obtain ⟨ancestor, hget, -, -⟩ :=
      getAncestor_spec hwf block (le_max_right (nCoinHeight - 1) 0) (max_le (by omega) hb0)
    have hup := getAncestor_eq hwf block (le_max_right (nCoinHeight - 1) 0) (max_le (by omega) hb0)
    rw [hget] at hup
    refine ⟨_, sequenceLockStep_of_time hdis' htype h0 (by omega) hget, ?_⟩
    dsimp only
    rw [Int.max_lt]
    constructor
    · rintro ⟨h1, h2, h3⟩
      refine ⟨h1, h2, fun _ => ?_⟩
      rw [if_pos htype]
      intro a ha
      rw [← hup, Option.some.injEq] at ha
      subst ha
      omega
    · rintro ⟨h1, h2, h3⟩
      have h3 := h3 hdis'
      rw [if_pos htype] at h3
      have := h3 ancestor hup.symm
      exact ⟨h1, h2, by omega⟩
  · -- a height lock
    have htype' : nSequence &&& SEQUENCE_LOCKTIME_TYPE_FLAG = 0 := Classical.not_not.mp htype
    refine ⟨_, sequenceLockStep_of_height hdis' htype' h0 hint, ?_⟩
    dsimp only
    rw [Int.max_lt]
    constructor
    · rintro ⟨⟨h1, h2⟩, h3⟩
      refine ⟨h1, h3, fun _ => ?_⟩
      rw [if_neg htype]
      omega
    · rintro ⟨h1, h2, h3⟩
      have h3 := h3 hdis'
      rw [if_neg htype] at h3
      exact ⟨⟨h1, by omega⟩, h2⟩

/-- The loop of `CalculateSequenceLocks` over inputs whose coins are not above the block. -/
theorem foldlM_sequenceLockStep_spec {block : ι} (pprev : ι) :
    ∀ (inputs : List (UInt32 × Int)) (lock : Int × Int),
      (∀ input ∈ inputs, 0 ≤ input.2 ∧ input.2 ≤ (index block).nHeight ∧
        input.2 + SEQUENCE_LOCKTIME_MASK.toNat < 2 ^ 31) →
      ∃ lock', inputs.foldlM (fun lock input => sequenceLockStep index block lock input.1 input.2)
          lock = some lock' ∧
        ((lock'.1 < (index block).nHeight ∧ lock'.2 < getMedianTimePast index pprev) ↔
          (lock.1 < (index block).nHeight ∧ lock.2 < getMedianTimePast index pprev ∧
            ∀ input ∈ inputs, Bip68InputOk index block pprev input.1 input.2))
  | [], lock, _ => ⟨lock, rfl, by simp⟩
  | input :: inputs, lock, hheights => by
    obtain ⟨h0, hle, hint⟩ := hheights input List.mem_cons_self
    obtain ⟨lock₁, hstep, hiff₁⟩ := sequenceLockStep_spec hwf pprev h0 hle hint lock
    obtain ⟨lock', hfold, hiff'⟩ := foldlM_sequenceLockStep_spec pprev inputs lock₁
      fun input' h => hheights input' (List.mem_cons_of_mem input h)
    refine ⟨lock', by rw [List.foldlM_cons, hstep]; exact hfold, ?_⟩
    rw [hiff', ← and_assoc, hiff₁, List.forall_mem_cons]
    constructor
    · rintro ⟨⟨h1, h2, h3⟩, h4⟩
      exact ⟨h1, h2, h3, h4⟩
    · rintro ⟨h1, h2, h3, h4⟩
      exact ⟨⟨h1, h2, h3⟩, h4⟩

/-- `SequenceLocks` of a block with a parent returns, and holds exactly when BIP 68 is not
enforced or every input satisfies the first-valid rule. -/
theorem sequenceLocks_spec (tx : LockTx) (flags : UInt32) (prevHeights : List Int) {block pprev : ι}
    (hprev : (index block).pprev = some pprev) (hlen : prevHeights.length = tx.nSequences.length)
    (hheights : ∀ h ∈ prevHeights, 0 ≤ h ∧ h ≤ (index block).nHeight ∧
      h + SEQUENCE_LOCKTIME_MASK.toNat < 2 ^ 31) :
    ∃ r, sequenceLocks index tx flags prevHeights block = some r ∧
      (r = true ↔ (tx.version < 2 ∨ flags &&& LOCKTIME_VERIFY_SEQUENCE = 0 ∨
        ∀ input ∈ tx.nSequences.zip prevHeights, Bip68InputOk index block pprev input.1 input.2)) := by
  have h0 := hwf.height_nonneg block
  have hmtp0 : 0 ≤ getMedianTimePast index pprev := getMedianTimePast_nonneg pprev
  have hevaluate : ∀ lockPair, evaluateSequenceLocks index block lockPair =
      some (decide (lockPair.1 < (index block).nHeight ∧ lockPair.2 < getMedianTimePast index pprev)) := by
    intro lockPair
    rw [evaluateSequenceLocks, hprev, Option.map_some]
    congr 1
    rw [← decide_not]
    simp only [ge_iff_le, not_or, Int.not_le]
  unfold sequenceLocks calculateSequenceLocks
  rw [if_neg (by omega)]
  by_cases henforce : tx.version ≥ 2 ∧ flags &&& LOCKTIME_VERIFY_SEQUENCE ≠ 0
  · rw [if_neg (not_not.mpr henforce)]
    obtain ⟨lock', hfold, hiff⟩ := foldlM_sequenceLockStep_spec hwf pprev
      (tx.nSequences.zip prevHeights) (-1, -1) fun input h => hheights _ (List.of_mem_zip h).2
    rw [hfold, Option.map_some, Option.bind_some, hevaluate]
    refine ⟨_, rfl, ?_⟩
    rw [decide_eq_true_iff, hiff]
    constructor
    · rintro ⟨-, -, h⟩
      exact .inr (.inr h)
    · rintro (h | h | h)
      · exact absurd henforce.1 (by simpa using h)
      · exact absurd h henforce.2
      · exact ⟨by omega, by omega, h⟩
  · -- without enforcement the pair stays at `-1`, below any height and median time past
    rw [if_pos henforce, Option.bind_some, hevaluate]
    refine ⟨_, rfl, ?_⟩
    rw [decide_eq_true_iff]
    constructor
    · intro _
      rcases not_and_or.mp henforce with h | h
      · exact .inl (by simpa using h)
      · exact .inr (.inl (Classical.not_not.mp h))
    · intro _
      exact ⟨by simp; omega, by simp; omega⟩

-- ---------------------------------------------------------------------------
-- Both checks stay true for descendants
-- ---------------------------------------------------------------------------

omit hwf in
/-- The parent of a descendant descends from the parent. -/
theorem pprev_isAncestor_of_isAncestor {b d p q : ι} (hb : (index b).pprev = some p)
    (hd : (index d).pprev = some q) (h : Ancestry.IsAncestor (pprevOf index) b d) :
    Ancestry.IsAncestor (pprevOf index) p q := by
  obtain ⟨k, hk⟩ := h
  cases k with
  | zero =>
    cases hk
    rw [hb, Option.some.injEq] at hd
    subst hd
    exact Ancestry.IsAncestor.refl _ p
  | succ k =>
    rw [Ancestry.up_succ', show pprevOf index d = some q from hd, Option.bind_some] at hk
    exact Ancestry.IsAncestor.trans _ (Ancestry.IsAncestor.of_parent _ hb) ⟨k, hk⟩

/-- An input that satisfies the first-valid rule in a block satisfies it in every
descendant, when the median time past does not decrease: the descendant is at least as
high, its parent's median time past at least as late, and its ancestor at the coin's
height is the same block. -/
theorem bip68InputOk_of_isAncestor
    (hmtp : ∀ b p, (index b).pprev = some p → getMedianTimePast index p ≤ getMedianTimePast index b)
    {b p d q : ι} (hb : (index b).pprev = some p) (hd : (index d).pprev = some q)
    (hbd : Ancestry.IsAncestor (pprevOf index) b d) {nSequence : UInt32} {nCoinHeight : Int}
    (hle : nCoinHeight ≤ (index b).nHeight) (hok : Bip68InputOk index b p nSequence nCoinHeight) :
    Bip68InputOk index d q nSequence nCoinHeight := by
  intro hdis
  have hok := hok hdis
  have hheight := hwf.height_of_isAncestor hbd
  have hmtp' : getMedianTimePast index p ≤ getMedianTimePast index q :=
    getMedianTimePast_le_of_isAncestor hmtp (pprev_isAncestor_of_isAncestor hb hd hbd)
  by_cases htype : nSequence &&& SEQUENCE_LOCKTIME_TYPE_FLAG ≠ 0
  · rw [if_pos htype] at hok ⊢
    intro a ha
    -- the ancestor of `d` at the coin's height is the ancestor of `b` there
    have h0 := hwf.height_nonneg b
    obtain ⟨a', ha'⟩ := Ancestry.up_isSome hwf.leveled b
      ((index b).nHeight - max (nCoinHeight - 1) 0).toNat (by simp only [nHeightOf]; omega)
    have hla := Ancestry.level_up hwf.leveled ha
    have hla' := Ancestry.level_up hwf.leveled ha'
    simp only [nHeightOf] at hla hla'
    have heq : a = a' := Ancestry.IsAncestor.eq_of_level_eq hwf.leveled ⟨_, ha⟩
      (Ancestry.IsAncestor.trans _ ⟨_, ha'⟩ hbd) (by simp only [nHeightOf]; omega)
    subst heq
    have := hok a ha'
    omega
  · rw [if_neg htype] at hok ⊢
    omega

omit hwf in
/-- `IsFinalTx` stays true at a later height and a later time. -/
theorem isFinalTx_mono {tx : LockTx} {h h' t t' : Int} (hh : h ≤ h') (ht : t ≤ t')
    (hfinal : isFinalTx tx h t = true) : isFinalTx tx h' t' = true := by
  unfold isFinalTx at hfinal ⊢
  by_cases h0 : tx.nLockTime = 0
  · rw [if_pos h0]
  rw [if_neg h0] at hfinal ⊢
  by_cases hlt : (tx.nLockTime.toNat : Int) <
      (if (tx.nLockTime.toNat : Int) < LOCKTIME_THRESHOLD then h else t)
  · -- the lock time, already past at `h` or `t`, is past at `h'` or `t'`
    have hlt' : (tx.nLockTime.toNat : Int) <
        (if (tx.nLockTime.toNat : Int) < LOCKTIME_THRESHOLD then h' else t') := by
      by_cases hthr : (tx.nLockTime.toNat : Int) < LOCKTIME_THRESHOLD
      · rw [if_pos hthr] at hlt ⊢
        omega
      · rw [if_neg hthr] at hlt ⊢
        omega
    rw [if_pos hlt']
  · rw [if_neg hlt] at hfinal
    by_cases hlt' : (tx.nLockTime.toNat : Int) <
        (if (tx.nLockTime.toNat : Int) < LOCKTIME_THRESHOLD then h' else t')
    · rw [if_pos hlt']
    · rw [if_neg hlt']
      exact hfinal

end SequenceLocks

/-- `SequenceLocks` of a transaction in a block with a parent, with each input's coin at a
height not above the block, returns and holds exactly when the version is below `2`,
`LOCKTIME_VERIFY_SEQUENCE` is off, or every input satisfies the BIP 68 first-valid rule.
Where the median time past never decreases along the chain, `SequenceLocks` and
`IsFinalTx` at the block's height and its parent's median time past, once true for a
block, are true for every descendant. The block's height leaves room in an `int` for the
largest relative height lock, so that no lock height overflows. -/
theorem sequenceLocks_bip68_monotone {ι : Type} {index : ι → CBlockIndex ι}
    (hwf : WellFormed index) (tx : LockTx) (flags : UInt32) (prevHeights : List Int)
    {block pprev : ι} (hprev : (index block).pprev = some pprev)
    (hlen : prevHeights.length = tx.nSequences.length)
    (hheights : ∀ h ∈ prevHeights, 0 ≤ h ∧ h ≤ (index block).nHeight)
    (hbound : (index block).nHeight + SEQUENCE_LOCKTIME_MASK.toNat < 2 ^ 31) :
    (∃ r, sequenceLocks index tx flags prevHeights block = some r ∧
      (r = true ↔ (tx.version < 2 ∨ flags &&& LOCKTIME_VERIFY_SEQUENCE = 0 ∨
        ∀ input ∈ tx.nSequences.zip prevHeights, Bip68InputOk index block pprev input.1 input.2))) ∧
    ((∀ b p, (index b).pprev = some p → getMedianTimePast index p ≤ getMedianTimePast index b) →
      ∀ d dprev, Ancestry.IsAncestor (pprevOf index) block d → (index d).pprev = some dprev →
        (sequenceLocks index tx flags prevHeights block = some true →
          sequenceLocks index tx flags prevHeights d = some true) ∧
        (isFinalTx tx (index block).nHeight (getMedianTimePast index pprev) = true →
          isFinalTx tx (index d).nHeight (getMedianTimePast index dprev) = true)) := by
  -- every coin is at most the block's height, so the bound on the block bounds each lock
  have hcoins : ∀ h ∈ prevHeights, 0 ≤ h ∧ h ≤ (index block).nHeight ∧
      h + SEQUENCE_LOCKTIME_MASK.toNat < 2 ^ 31 := fun h hh =>
    ⟨(hheights h hh).1, (hheights h hh).2, by have := (hheights h hh).2; omega⟩
  refine ⟨sequenceLocks_spec hwf tx flags prevHeights hprev hlen hcoins,
    fun hmtp d dprev hbd hd => ⟨?_, ?_⟩⟩
  · intro hlocks
    obtain ⟨r, hr, hiff⟩ := sequenceLocks_spec hwf tx flags prevHeights hprev hlen hcoins
    have hheight := hwf.height_of_isAncestor hbd
    obtain ⟨r', hr', hiff'⟩ := sequenceLocks_spec hwf tx flags prevHeights hd hlen
      fun h hh => ⟨(hcoins h hh).1, Int.le_trans (hcoins h hh).2.1 hheight, (hcoins h hh).2.2⟩
    rw [hlocks, Option.some.injEq] at hr
    subst hr
    rw [hr', Option.some.injEq, hiff']
    rcases hiff.mp rfl with h | h | h
    · exact .inl h
    · exact .inr (.inl h)
    · exact .inr (.inr fun input hinput => bip68InputOk_of_isAncestor hwf hmtp hprev hd hbd
        (hheights _ (List.of_mem_zip hinput).2).2 (h input hinput))
  · intro hfinal
    exact isFinalTx_mono (hwf.height_of_isAncestor hbd)
      (getMedianTimePast_le_of_isAncestor hmtp (pprev_isAncestor_of_isAncestor hprev hd hbd)) hfinal

/-- A version-2 transaction with one input under a relative height lock of one block. -/
def exampleLockTx : LockTx := ⟨2, 0, [1]⟩

theorem sequenceLocks_bip68_monotone_chain :
    (∃ r, sequenceLocks exampleChain exampleLockTx 1 [1] 2 = some r ∧
      (r = true ↔ (exampleLockTx.version < 2 ∨ (1 : UInt32) &&& LOCKTIME_VERIFY_SEQUENCE = 0 ∨
        ∀ input ∈ exampleLockTx.nSequences.zip [1],
          Bip68InputOk exampleChain 2 1 input.1 input.2))) ∧
    ((∀ b p, (exampleChain b).pprev = some p →
        getMedianTimePast exampleChain p ≤ getMedianTimePast exampleChain b) →
      ∀ d dprev, Ancestry.IsAncestor (pprevOf exampleChain) 2 d → (exampleChain d).pprev = some dprev →
        (sequenceLocks exampleChain exampleLockTx 1 [1] 2 = some true →
          sequenceLocks exampleChain exampleLockTx 1 [1] d = some true) ∧
        (isFinalTx exampleLockTx (exampleChain 2).nHeight (getMedianTimePast exampleChain 1) = true →
          isFinalTx exampleLockTx (exampleChain d).nHeight (getMedianTimePast exampleChain dprev) =
            true)) :=
  sequenceLocks_bip68_monotone exampleChain_wellFormed exampleLockTx 1 [1]
    (show (exampleChain 2).pprev = some 1 from rfl) rfl (by decide) (by decide)

end Riecoin.Consensus
