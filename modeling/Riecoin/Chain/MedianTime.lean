-- SUMMARY: GetMedianTimePast as the upper median of at most eleven block times, and its monotonicity along a chain whose blocks keep the time-too-old rule.
import Riecoin.Chain.BlockIndex
import Riecoin.Lib.Median
import Mathlib.Data.Int.Order.Basic
import Mathlib.Algebra.Group.Int.Defs

/-!
# The median time past

`GetMedianTimePast` sorts the times of an entry and of up to ten of its ancestors and
takes the element at half their number. `ContextualCheckBlockHeader` rejects a block whose
time is not above the median time past of its parent ("time-too-old"). Under that rule the
median time past never decreases from a parent to its child
(`getMedianTimePast_le_of_pprev`): the child's window is the parent's with the child's time
in front and, once the parent's window is full, its oldest time dropped, which is
`Median.upperMedian_le_cons_take`.
-/

namespace Riecoin.Chain

variable {ι : Type} (index : ι → CBlockIndex ι)

/-- `GetBlockTime`: `nTime` as an `int64_t`. -/
def getBlockTime (p : ι) : Int := (index p).nTime.toNat

/-- The block times that the loop of `GetMedianTimePast` collects from `pindex` on, at most
`n` of them. -/
def medianTimes : Nat → Option ι → List Int
  | 0, _ => []
  | _ + 1, none => []
  | n + 1, some p => getBlockTime index p :: medianTimes n (index p).pprev

/-- `CBlockIndex::nMedianTimeSpan`. -/
def nMedianTimeSpan : Nat := 11

/-- `GetMedianTimePast`: the upper median of the times of the entry and of its ancestors,
`nMedianTimeSpan` of them at most. The code fills its array from the back; the sort makes
the order irrelevant. -/
def getMedianTimePast (p : ι) : Int :=
  Median.upperMedian (getBlockTime index p) (medianTimes index (nMedianTimeSpan - 1) (index p).pprev)

theorem length_medianTimes_le : ∀ (n : Nat) (q : Option ι), (medianTimes index n q).length ≤ n
  | 0, _ => Nat.le_refl 0
  | _ + 1, none => Nat.zero_le _
  | n + 1, some p => Nat.succ_le_succ (length_medianTimes_le n (index p).pprev)

/-- A shorter window is the front of a longer one. -/
theorem medianTimes_eq_take : ∀ (n : Nat) (q : Option ι),
    medianTimes index n q = (medianTimes index (n + 1) q).take n
  | 0, _ => rfl
  | _ + 1, none => rfl
  | n + 1, some p => by
    rw [medianTimes, medianTimes, List.take_succ_cons, ← medianTimes_eq_take n (index p).pprev]

variable {index}

/-- A block whose time is not below its parent's median time past has a median time past no
smaller than its parent's. -/
theorem getMedianTimePast_le_of_pprev {b p : ι} (hprev : (index b).pprev = some p)
    (htime : getMedianTimePast index p ≤ getBlockTime index b) :
    getMedianTimePast index p ≤ getMedianTimePast index b := by
  -- the window of `b` is its time in front of the newest ten of the window of `p`
  have hwindow : medianTimes index (nMedianTimeSpan - 1) (index b).pprev =
      (getBlockTime index p :: medianTimes index (nMedianTimeSpan - 1) (index p).pprev).take
        (nMedianTimeSpan - 1) := by
    rw [hprev, show nMedianTimeSpan - 1 = 9 + 1 from rfl, medianTimes, List.take_succ_cons,
      medianTimes_eq_take index 9]
  unfold getMedianTimePast at htime ⊢
  rw [hwindow]
  exact Median.upperMedian_le_cons_take _ (length_medianTimes_le index _ _) htime

/-- The times of the window are 32-bit `nTime`s. -/
theorem mem_medianTimes_range : ∀ (n : Nat) (q : Option ι), ∀ t ∈ medianTimes index n q,
    0 ≤ t ∧ t < 2 ^ 32
  | 0, _, _, ht => by cases ht
  | _ + 1, none, _, ht => by cases ht
  | n + 1, some p, t, ht => by
    rw [medianTimes, List.mem_cons] at ht
    rcases ht with rfl | ht
    · exact ⟨Int.natCast_nonneg _, by have := (index p).nTime.toNat_lt; unfold getBlockTime; omega⟩
    · exact mem_medianTimes_range n (index p).pprev t ht

/-- The median time past is one of the block times of its window, so it is a 32-bit
value too. -/
theorem getMedianTimePast_range (p : ι) :
    0 ≤ getMedianTimePast index p ∧ getMedianTimePast index p < 2 ^ 32 := by
  unfold getMedianTimePast
  rcases List.mem_cons.mp (Median.upperMedian_mem (getBlockTime index p)
    (medianTimes index (nMedianTimeSpan - 1) (index p).pprev)) with h | h
  · rw [h]
    exact mem_medianTimes_range 1 (some p) _ List.mem_cons_self
  · exact mem_medianTimes_range _ _ _ h

/-- Block times are not negative, so neither is their median. -/
theorem getMedianTimePast_nonneg (p : ι) : 0 ≤ getMedianTimePast index p :=
  (getMedianTimePast_range p).1

/-- Where the median time past does not decrease from parent to child, it does not
decrease from an ancestor to its descendants. -/
theorem getMedianTimePast_le_of_isAncestor
    (hmtp : ∀ b p, (index b).pprev = some p → getMedianTimePast index p ≤ getMedianTimePast index b)
    {a b : ι} (h : Ancestry.IsAncestor (pprevOf index) a b) :
    getMedianTimePast index a ≤ getMedianTimePast index b := by
  obtain ⟨k, hk⟩ := h
  induction k generalizing b with
  | zero =>
    cases hk
    exact Int.le_refl _
  | succ k ih =>
    rw [Ancestry.up_succ'] at hk
    obtain ⟨p, hp, hpa⟩ := Option.bind_eq_some_iff.mp hk
    exact Int.le_trans (ih hpa) (hmtp b p hp)

/-- The blocks of `exampleChain` keep the time-too-old rule. -/
theorem exampleChain_medianTimePast_lt : ∀ b p, (exampleChain b).pprev = some p →
    getMedianTimePast exampleChain p < getBlockTime exampleChain b := by
  simp only [getMedianTimePast, Median.upperMedian_lt_iff]
  decide

theorem exampleChain_medianTimePast_le : ∀ b p, (exampleChain b).pprev = some p →
    getMedianTimePast exampleChain p ≤ getMedianTimePast exampleChain b :=
  fun b p hprev =>
    getMedianTimePast_le_of_pprev hprev (Int.le_of_lt (exampleChain_medianTimePast_lt b p hprev))

/-- Along a chain whose every block with a parent keeps the time-too-old rule, the median
time past never decreases from a parent to its child. -/
theorem getMedianTimePast_nondecreasing
    (htime : ∀ b p, (index b).pprev = some p → getMedianTimePast index p < getBlockTime index b) :
    ∀ b p, (index b).pprev = some p → getMedianTimePast index p ≤ getMedianTimePast index b := by
  intro b p hprev
  apply getMedianTimePast_le_of_pprev hprev
  exact Int.le_of_lt (htime b p hprev)

theorem getMedianTimePast_nondecreasing_chain :
    (∀ b p, (exampleChain b).pprev = some p →
      getMedianTimePast exampleChain p < getBlockTime exampleChain b) ∧
    (∀ b p, (exampleChain b).pprev = some p →
      getMedianTimePast exampleChain p ≤ getMedianTimePast exampleChain b) :=
  ⟨exampleChain_medianTimePast_lt, getMedianTimePast_nondecreasing exampleChain_medianTimePast_lt⟩

end Riecoin.Chain
