-- SUMMARY: The correctness of the CoinGrinder search: the invariants of its loop (the selection and its sums, the best selection found, and that every set of positions before the next selection cannot improve on it), one lemma per step of an iteration (select, evaluate, cut, shift with clone skipping, explore), the run lemma over the whole loop, and the result of CoinGrinder on every pool.
import Riecoin.Wallet.CoinGrinder

/-!
# Correctness of CoinGrinder

The search loop of `CoinGrinder` walks the inclusion tree of the sorted pool
(`Riecoin.Lib.InclusionTree`). Its invariant at the top of the loop (`TopInv`) has three parts:

* the current selection is an increasing list of positions before `next_utxo`, and
  `curr_amount`, `curr_weight` are its sums (`SelInv`);
* the best selection is empty, with the weight limit and `MAX_MONEY` as its weight and amount,
  or a funded set of positions with its sums (`BestInv`);
* every set of positions before the next selection in the walk does not improve on the best
  selection (`Covered` of `NoBetter`).

`evaluate_spec` says what one evaluation guarantees, one lemma per rule of `evaluate`; the
`while (should_shift)` loop keeps `ShiftInv`, the same invariant with the walk closed at the
current selection, and its clone skipping moves past groups dominated by an omitted
predecessor (`noBetter_cloneClosed`). `grindIter_spec` is the step lemma and `grindLoop_spec` the run
lemma. A loop that ends by exhausting the tree has dealt with every set of positions, so the
best selection is optimal (`grindSorted_spec`).
-/

namespace Riecoin

namespace Wallet

open InclusionTree OutputGroup CheckedInt

-- ---------------------------------------------------------------------------
-- The invariants
-- ---------------------------------------------------------------------------

/-- The set of positions `T` improves on the best selection of `st`: it funds the target with
less weight, or with equal weight and less amount. -/
def Improves (c : GrinderInput) (st : GrinderState) (T : List Nat) : Prop :=
  c.total_target ≤ amountOf c.utxo_pool T ∧
    Beats (weightOf c.utxo_pool T) (amountOf c.utxo_pool T) st.best_selection_weight st.best_selection_amount

/-- `T` does not improve on the best selection of `st`; the property the walk establishes for
every set of positions it has passed. -/
def NoBetter (c : GrinderInput) (st : GrinderState) (T : List Nat) : Prop := ¬ Improves c st T

/-- What the search loop reads is set up as `CoinGrinder` sets it up: a sorted pool and its
two precomputed vectors. -/
structure GrinderReady (c : GrinderInput) : Prop where
  pool : SortedPool c.utxo_pool
  lookahead : c.lookahead = (grinderTails c.utxo_pool).1
  min_tail_weight : c.min_tail_weight = (grinderTails c.utxo_pool).2.1

/-- The current selection: increasing positions, with `curr_amount` and `curr_weight` its sums. -/
structure SelInv (c : GrinderInput) (st : GrinderState) : Prop where
  increasing : st.curr_selection.reverse.Pairwise (· < ·)
  amount_eq : st.curr_amount = amountOf c.utxo_pool st.curr_selection
  weight_eq : st.curr_weight = weightOf c.utxo_pool st.curr_selection

/-- The best selection: none yet, with the weight limit and `MAX_MONEY` in its place, or a
funded set of positions within the weight limit with its sums. -/
structure BestInv (c : GrinderInput) (st : GrinderState) : Prop where
  weight_le : st.best_selection_weight ≤ c.max_selection_weight
  of_nil : st.best_selection = [] →
    st.best_selection_weight = c.max_selection_weight ∧ st.best_selection_amount = MAX_MONEY
  node : st.best_selection ≠ [] → Node c.utxo_pool.length st.best_selection.reverse
  funds : st.best_selection ≠ [] → c.total_target ≤ amountOf c.utxo_pool st.best_selection
  weight_eq : st.best_selection ≠ [] → st.best_selection_weight = weightOf c.utxo_pool st.best_selection
  amount_eq : st.best_selection ≠ [] → st.best_selection_amount = amountOf c.utxo_pool st.best_selection

/-- The invariant at the top of the search loop. -/
structure TopInv (c : GrinderInput) (st : GrinderState) : Prop where
  sel : SelInv c st
  best : BestInv c st
  lt_next : ∀ j ∈ st.curr_selection, j < st.next_utxo
  next_lt : st.next_utxo < c.utxo_pool.length
  covered : Covered c.utxo_pool.length (NoBetter c st) (st.curr_selection.reverse ++ [st.next_utxo])

/-- The invariant of the `while (should_shift)` loop: the walk is closed at the current
selection, none of whose groups is the last of the pool. -/
structure ShiftInv (c : GrinderInput) (st : GrinderState) : Prop where
  sel : SelInv c st
  best : BestInv c st
  lt_last : ∀ j ∈ st.curr_selection, j + 1 < c.utxo_pool.length
  closed : Closed c.utxo_pool.length (NoBetter c st) st.curr_selection.reverse

/-- Two states that agree on the walk: the selection, its sums, `next_utxo` and `curr_try`. -/
structure SameWalk (st st' : GrinderState) : Prop where
  curr_selection : st'.curr_selection = st.curr_selection
  curr_amount : st'.curr_amount = st.curr_amount
  curr_weight : st'.curr_weight = st.curr_weight
  next_utxo : st'.next_utxo = st.next_utxo
  curr_try : st'.curr_try = st.curr_try

/-- Two states with the same best selection. -/
structure SameBest (st st' : GrinderState) : Prop where
  best_selection : st'.best_selection = st.best_selection
  best_selection_weight : st'.best_selection_weight = st.best_selection_weight
  best_selection_amount : st'.best_selection_amount = st.best_selection_amount

theorem NoBetter.congr {c : GrinderInput} {st st' : GrinderState} (h : SameBest st st') :
    NoBetter c st' = NoBetter c st := by
  funext T
  rw [NoBetter, NoBetter, Improves, Improves, h.best_selection_weight, h.best_selection_amount]

theorem BestInv.of_sameBest {c : GrinderInput} {st st' : GrinderState} (hb : BestInv c st) (h : SameBest st st') :
    BestInv c st' := by
  obtain ⟨h₁, h₂, h₃⟩ := h
  exact ⟨h₂ ▸ hb.weight_le, h₁ ▸ h₂ ▸ h₃ ▸ hb.of_nil, h₁ ▸ hb.node, h₁ ▸ hb.funds, h₁ ▸ h₂ ▸ hb.weight_eq,
    h₁ ▸ h₃ ▸ hb.amount_eq⟩

theorem SelInv.of_sameWalk {c : GrinderInput} {st st' : GrinderState} (h : SelInv c st) (hw : SameWalk st st') :
    SelInv c st' where
  increasing := hw.curr_selection ▸ h.increasing
  amount_eq := by rw [hw.curr_amount, hw.curr_selection, h.amount_eq]
  weight_eq := by rw [hw.curr_weight, hw.curr_selection, h.weight_eq]

theorem SelInv.lt_of_cons {c : GrinderInput} {st : GrinderState} {k : Nat} {S : List Nat} (h : SelInv c st)
    (hsel : st.curr_selection = k :: S) : ∀ j ∈ S, j < k := by
  have := h.increasing
  rw [hsel, List.reverse_cons, List.pairwise_append] at this
  exact fun j hj => this.2.2 j (List.mem_reverse.mpr hj) k (List.mem_singleton_self k)

-- ---------------------------------------------------------------------------
-- The precomputed vectors of a ready search
-- ---------------------------------------------------------------------------

namespace GrinderReady

variable {c : GrinderInput} (hr : GrinderReady c)
include hr

theorem lookahead_eq {k : Nat} (hk : k < c.utxo_pool.length) :
    c.lookahead[k]! = ((c.utxo_pool.drop (k + 1)).map GetSelectionAmount).sum := by
  rw [hr.lookahead, lookahead_grinderTails _ hk]

theorem lookahead_nonneg {k : Nat} (hk : k < c.utxo_pool.length) : 0 ≤ c.lookahead[k]! := by
  rw [hr.lookahead_eq hk]
  exact List.sum_nonneg fun a ha => by
    obtain ⟨g, hg, rfl⟩ := List.mem_map.mp ha
    exact (hr.pool.amount_pos g (List.mem_of_mem_drop hg)).le

/-- `min_tail_weight[k]` is at most the weight of every group after `k`. -/
theorem minTail_le {k j : Nat} (hkj : k < j) (hj : j < c.utxo_pool.length) :
    c.min_tail_weight[k]! ≤ wt c.utxo_pool j := by
  rw [hr.min_tail_weight, minTail_grinderTails _ (by omega), wt, getElem!_pos c.utxo_pool j hj]
  apply foldr_min_le
  refine List.mem_map.mpr ⟨c.utxo_pool[j], ?_, rfl⟩
  have hd : j - (k + 1) < (c.utxo_pool.drop (k + 1)).length := by simp only [List.length_drop]; omega
  exact List.mem_iff_getElem.mpr ⟨j - (k + 1), hd, by rw [List.getElem_drop]; congr 1; omega⟩

theorem minTail_nonneg {k : Nat} (hk : k < c.utxo_pool.length) : 0 ≤ c.min_tail_weight[k]! := by
  rw [hr.min_tail_weight, minTail_grinderTails _ hk]
  refine le_foldr_min (by unfold INT_MAX; omega) fun x hx => ?_
  obtain ⟨g, hg, rfl⟩ := List.mem_map.mp hx
  exact hr.pool.weight_nonneg g (List.mem_of_mem_drop hg)

/-- The groups after `k` hold at most the amount of `k` each: the lookahead is at most their
number times that amount. -/
theorem lookahead_le_mul {k : Nat} (hk : k < c.utxo_pool.length) :
    c.lookahead[k]! ≤ (c.utxo_pool.length - (k + 1) : Nat) * amt c.utxo_pool k := by
  rw [hr.lookahead_eq hk]
  have := List.sum_le_card_nsmul ((c.utxo_pool.drop (k + 1)).map GetSelectionAmount) (amt c.utxo_pool k)
    fun x hx => by
      obtain ⟨g, hg, rfl⟩ := List.mem_map.mp hx
      obtain ⟨i, hi, rfl⟩ := List.mem_drop_iff_getElem.mp hg
      have := (hr.pool.amt_le (show k < k + 1 + i by omega) (by omega)).1
      rwa [amt, getElem!_pos c.utxo_pool _ (by omega)] at this
  simpa [nsmul_eq_mul] using this

/-- The groups after `k` weigh at least `min_tail_weight[k]` each. -/
theorem mul_minTail_le {k : Nat} :
    (c.utxo_pool.length - (k + 1) : Nat) * c.min_tail_weight[k]! ≤
      ((c.utxo_pool.drop (k + 1)).map OutputGroup.m_weight).sum := by
  have := List.card_nsmul_le_sum ((c.utxo_pool.drop (k + 1)).map OutputGroup.m_weight) c.min_tail_weight[k]!
    fun x hx => by
      obtain ⟨g, hg, rfl⟩ := List.mem_map.mp hx
      obtain ⟨i, hi, rfl⟩ := List.mem_drop_iff_getElem.mp hg
      have := hr.minTail_le (show k < k + 1 + i by omega) (by omega)
      rwa [wt, getElem!_pos c.utxo_pool _ (by omega)] at this
  simpa [nsmul_eq_mul] using this

end GrinderReady

-- ---------------------------------------------------------------------------
-- Selecting and deselecting
-- ---------------------------------------------------------------------------

namespace GrinderState

variable (pool : List OutputGroup) (st : GrinderState)

@[simp] theorem select_curr_selection : (st.select pool).curr_selection = st.next_utxo :: st.curr_selection := rfl
@[simp] theorem select_curr_amount : (st.select pool).curr_amount = st.curr_amount + amt pool st.next_utxo := rfl
@[simp] theorem select_curr_weight : (st.select pool).curr_weight = st.curr_weight + wt pool st.next_utxo := rfl

theorem deselectLast_of_cons {i : Nat} {rest : List Nat} (h : st.curr_selection = i :: rest) :
    st.deselectLast pool = { st with
      curr_amount := st.curr_amount - amt pool i
      curr_weight := st.curr_weight - wt pool i
      curr_selection := rest } := by
  rw [deselectLast, h]
  rfl

theorem sameBest_deselectLast : SameBest st (st.deselectLast pool) := by
  unfold deselectLast
  split <;> exact ⟨rfl, rfl, rfl⟩

theorem deselectLast_curr_selection {i : Nat} {rest : List Nat} (h : st.curr_selection = i :: rest) :
    (st.deselectLast pool).curr_selection = rest := by
  rw [st.deselectLast_of_cons pool h]

end GrinderState

theorem SelInv.select {c : GrinderInput} {st : GrinderState} (h : SelInv c st)
    (hlt : ∀ j ∈ st.curr_selection, j < st.next_utxo) : SelInv c (st.select c.utxo_pool) where
  increasing := by
    rw [GrinderState.select_curr_selection, List.reverse_cons, List.pairwise_append]
    exact ⟨h.increasing, List.pairwise_singleton _ _, fun a ha b hb => by
      rw [List.mem_singleton.mp hb]; exact hlt a (List.mem_reverse.mp ha)⟩
  amount_eq := by simp [h.amount_eq, Int.add_comm]
  weight_eq := by simp [h.weight_eq, Int.add_comm]

theorem SelInv.deselectLast {c : GrinderInput} {st : GrinderState} {i : Nat} {rest : List Nat}
    (h : SelInv c st) (hsel : st.curr_selection = i :: rest) : SelInv c (st.deselectLast c.utxo_pool) := by
  rw [st.deselectLast_of_cons c.utxo_pool hsel]
  have hinc := h.increasing
  rw [hsel, List.reverse_cons, List.pairwise_append] at hinc
  exact ⟨hinc.1, by rw [h.amount_eq, hsel]; simp, by rw [h.weight_eq, hsel]; simp⟩

-- ---------------------------------------------------------------------------
-- Sets that do not improve
-- ---------------------------------------------------------------------------

section NoBetter

variable {c : GrinderInput} {st : GrinderState} {T : List Nat}

/-- A set that does not fund the target does not improve. -/
theorem noBetter_of_lt (h : amountOf c.utxo_pool T < c.total_target) : NoBetter c st T :=
  fun hi => absurd hi.1 (Int.not_le.mpr h)

/-- A set heavier than the best selection does not improve. -/
theorem noBetter_of_heavier (h : st.best_selection_weight < weightOf c.utxo_pool T) : NoBetter c st T := by
  rintro ⟨-, hb⟩
  unfold Beats at hb
  omega

/-- A set at least as heavy and as large as one that does not beat the best selection does not
improve. -/
theorem noBetter_of_le {X : List Nat}
    (hX : ¬ Beats (weightOf c.utxo_pool X) (amountOf c.utxo_pool X) st.best_selection_weight st.best_selection_amount)
    (hw : weightOf c.utxo_pool X ≤ weightOf c.utxo_pool T) (ha : amountOf c.utxo_pool X ≤ amountOf c.utxo_pool T) :
    NoBetter c st T :=
  fun hi => not_beats_of_le hw ha hX hi.2

/-- A set with the amount of `T'` and at least its weight does not improve where `T'` does not. -/
theorem NoBetter.of_dominated {T' : List Nat} (h : NoBetter c st T')
    (ha : amountOf c.utxo_pool T' = amountOf c.utxo_pool T) (hw : weightOf c.utxo_pool T' ≤ weightOf c.utxo_pool T) :
    NoBetter c st T := by
  rintro ⟨hf, hb⟩
  refine h ⟨ha ▸ hf, ?_⟩
  by_contra hn
  exact not_beats_of_le hw ha.le hn hb

end NoBetter

-- ---------------------------------------------------------------------------
-- EVALUATE
-- ---------------------------------------------------------------------------

/-- What `evaluate` guarantees for the selection `P ++ [k]` it has just made, with the flags
`cut`, `shift` and the state `st'` it returns: the walk is unchanged, the best selection stays
valid and only improves, the selection itself does not improve on it, and the region the flags
leave (after `P ++ [k]` for a SHIFT, after `P` with every group from `k` on for a CUT) does not
either. -/
structure EvalSpec (c : GrinderInput) (P : List Nat) (k : Nat) (st : GrinderState) (cut shift : Bool)
    (st' : GrinderState) : Prop where
  walk : SameWalk st st'
  best : BestInv c st'
  mono : ∀ T, NoBetter c st T → NoBetter c st' T
  self : NoBetter c st' (P ++ [k])
  cut : cut = true → ∀ y W, k ≤ y → Node c.utxo_pool.length (P ++ y :: W) → NoBetter c st' (P ++ y :: W)
  shift : shift = true → ∀ W, Node c.utxo_pool.length (P ++ k :: W) → NoBetter c st' (P ++ k :: W)

section Evaluate

variable {c : GrinderInput} {st : GrinderState} {P : List Nat} {k : Nat}

/-- The outcomes that keep the best selection: only the weight flag may change. -/
theorem EvalSpec.keep {cut shift : Bool} (hbest : BestInv c st) (b : Bool) (hself : NoBetter c st (P ++ [k]))
    (hcut : cut = true → ∀ y W, k ≤ y → Node c.utxo_pool.length (P ++ y :: W) → NoBetter c st (P ++ y :: W))
    (hshift : shift = true → ∀ W, Node c.utxo_pool.length (P ++ k :: W) → NoBetter c st (P ++ k :: W)) :
    EvalSpec c P k st cut shift { st with max_tx_weight_exceeded := b } where
  walk := ⟨rfl, rfl, rfl, rfl, rfl⟩
  best := hbest.of_sameBest ⟨rfl, rfl, rfl⟩
  mono _ h := h
  self := hself
  cut := hcut
  shift := hshift

/-- The CUT-or-SHIFT choice where the selection can no longer improve: with `k` the lightest
group after it a CUT leaves the region `y = k ∨ k < y`, otherwise a SHIFT leaves `y = k`; both
lie within the branch the weight bounds cover. -/
theorem cutShift_of_branch {R : List Nat → Prop} {n : Nat} {w μ : Int}
    (hR : ∀ y W, (y = k ∨ (k < y ∧ w ≤ μ)) → Node n (P ++ y :: W) → R (P ++ y :: W)) :
    (decide (w ≤ μ) = true → ∀ y W, k ≤ y → Node n (P ++ y :: W) → R (P ++ y :: W)) ∧
      ((!decide (w ≤ μ)) = true → ∀ W, Node n (P ++ k :: W) → R (P ++ k :: W)) := by
  constructor
  · intro hlight y W hky hT
    rcases Nat.eq_or_lt_of_le hky with rfl | hlt
    · exact hR _ W (.inl rfl) hT
    · exact hR y W (.inr ⟨hlt, of_decide_eq_true hlight⟩) hT
  · intro _ W hT
    exact hR k W (.inl rfl) hT

variable (hr : GrinderReady c) (hbest : BestInv c st) (hX : Node c.utxo_pool.length (P ++ [k]))
  (hA : st.curr_amount = amountOf c.utxo_pool (P ++ [k])) (hW : st.curr_weight = weightOf c.utxo_pool (P ++ [k]))

include hr hbest hX hA in
/-- Insufficient funds with lookahead: CUT. -/
theorem evalSpec_lookahead (h : st.curr_amount + c.lookahead[k]! < c.total_target) :
    EvalSpec c P k st true false st := by
  have hk : k < c.utxo_pool.length := hX.lt k (by simp)
  -- every set from `P ++ [k]` on, with no group before `k` after `P`, lacks funds
  have hcut : ∀ y W, k ≤ y → Node c.utxo_pool.length (P ++ y :: W) → NoBetter c st (P ++ y :: W) :=
    fun y W hky hT => noBetter_of_lt (by
      have := amountOf_le_lookahead hr.pool.amount_pos hT hky
      rw [← hr.lookahead_eq hk, ← hA] at this
      omega)
  exact EvalSpec.keep hbest st.max_tx_weight_exceeded (hcut k [] le_rfl hX) (fun _ => hcut) (by simp)

include hr hbest hW in
/-- Worse weight than the best selection: CUT if `k` is the lightest group after it, else SHIFT. -/
theorem evalSpec_heavier (h : st.curr_weight > st.best_selection_weight) (b : Bool) :
    EvalSpec c P k st (decide (wt c.utxo_pool k ≤ c.min_tail_weight[k]!))
      (!decide (wt c.utxo_pool k ≤ c.min_tail_weight[k]!)) { st with max_tx_weight_exceeded := b } := by
  have hregion := cutShift_of_branch (P := P) (k := k) (R := NoBetter c st) (n := c.utxo_pool.length)
    (w := wt c.utxo_pool k) (μ := c.min_tail_weight[k]!) fun y W hy hT => noBetter_of_heavier (by
      have := weightOf_le_of_branch hr.pool hT (fun j hkj hj => hr.minTail_le hkj hj) hy
      omega)
  exact EvalSpec.keep hbest b (noBetter_of_heavier (by omega)) hregion.1 hregion.2

include hbest hA hW in
/-- A funded selection that does not beat the best one: SHIFT, keeping the best selection. -/
theorem evalSpec_funded_keep (hs : SortedPool c.utxo_pool)
    (h : ¬ (st.curr_weight < st.best_selection_weight ∨
      (st.curr_weight = st.best_selection_weight ∧ st.curr_amount < st.best_selection_amount))) :
    EvalSpec c P k st false true st := by
  have hself : ¬ Beats (weightOf c.utxo_pool (P ++ [k])) (amountOf c.utxo_pool (P ++ [k]))
      st.best_selection_weight st.best_selection_amount := by
    rwa [← hA, ← hW]
  -- what extends the selection is at least as heavy and as large
  have hshift : ∀ W, Node c.utxo_pool.length (P ++ k :: W) → NoBetter c st (P ++ k :: W) := by
    intro W hT
    have hle := le_of_extends hs.amount_pos hs.weight_nonneg hT
    exact noBetter_of_le hself hle.1 hle.2
  exact EvalSpec.keep hbest st.max_tx_weight_exceeded (noBetter_of_le hself le_rfl le_rfl) (by simp) (fun _ => hshift)

include hbest hX hA hW in
/-- A funded selection that beats the best one: it becomes the best selection, and SHIFT. -/
theorem evalSpec_improve (hs : SortedPool c.utxo_pool) (hrev : st.curr_selection.reverse = P ++ [k])
    (hlight : ¬ st.curr_weight > st.best_selection_weight) (hf : st.curr_amount ≥ c.total_target)
    (himp : st.curr_weight < st.best_selection_weight ∨
      (st.curr_weight = st.best_selection_weight ∧ st.curr_amount < st.best_selection_amount)) :
    EvalSpec c P k st false true { st with
      best_selection := st.curr_selection
      best_selection_weight := st.curr_weight
      best_selection_amount := st.curr_amount } := by
  have hA' : st.curr_amount = amountOf c.utxo_pool st.curr_selection := by
    rw [hA, ← hrev, amountOf_reverse]
  have hW' : st.curr_weight = weightOf c.utxo_pool st.curr_selection := by
    rw [hW, ← hrev, weightOf_reverse]
  have hne : st.curr_selection ≠ [] := fun h => by simp [h] at hrev
  -- the new best selection does not beat itself, nor does what extends it
  have hself : ¬ Beats (weightOf c.utxo_pool (P ++ [k])) (amountOf c.utxo_pool (P ++ [k]))
      st.curr_weight st.curr_amount := by
    rw [← hA, ← hW]
    unfold Beats
    omega
  refine ⟨⟨rfl, rfl, rfl, rfl, rfl⟩, ⟨?_, fun h => absurd h hne, fun _ => hrev ▸ hX, fun _ => hA' ▸ hf,
    fun _ => hW', fun _ => hA'⟩, ?_, fun hi => hself hi.2, by simp, fun _ W hT => ?_⟩
  · have := hbest.weight_le
    dsimp only
    omega
  · -- a set that beats the new best selection beats the old one
    rintro T hT ⟨hfT, hb⟩
    exact hT ⟨hfT, Beats.trans hb himp⟩
  · have hle := le_of_extends hs.amount_pos hs.weight_nonneg hT
    exact noBetter_of_le hself hle.1 hle.2

include hr hbest hX hA hW in
/-- A selection that needs more groups after `k` than the best selection's weight leaves room
for: CUT if `k` is the lightest group after it, else SHIFT. -/
theorem evalSpec_lower_bound (hshort : ¬ st.curr_amount ≥ c.total_target)
    (h : st.curr_weight + c.min_tail_weight[k]! *
        Int.tdiv (c.total_target - st.curr_amount + amt c.utxo_pool k - 1) (amt c.utxo_pool k) >
      st.best_selection_weight) :
    EvalSpec c P k st (decide (wt c.utxo_pool k ≤ c.min_tail_weight[k]!))
      (!decide (wt c.utxo_pool k ≤ c.min_tail_weight[k]!)) st := by
  have hk : k < c.utxo_pool.length := hX.lt k (by simp)
  have hregion := cutShift_of_branch (P := P) (k := k) (R := NoBetter c st) (n := c.utxo_pool.length)
    (w := wt c.utxo_pool k) (μ := c.min_tail_weight[k]!) fun y W hy hT => by
      by_cases hf : c.total_target ≤ amountOf c.utxo_pool (P ++ y :: W)
      · -- a funded set of the branch is at least as heavy as the bound
        have := lower_bound hr.pool hT (fun j hkj hj => hr.minTail_le hkj hj) hy (hr.minTail_nonneg hk)
          (by rw [← hA]; omega) hf
        rw [← hA, ← hW] at this
        exact noBetter_of_heavier (by omega)
      · exact noBetter_of_lt (by omega)
  exact EvalSpec.keep hbest st.max_tx_weight_exceeded (noBetter_of_lt (by rw [← hA]; omega)) hregion.1 hregion.2

include hbest hA in
/-- Nothing to conclude yet: EXPLORE. -/
theorem evalSpec_explore (hshort : ¬ st.curr_amount ≥ c.total_target) : EvalSpec c P k st false false st :=
  EvalSpec.keep hbest st.max_tx_weight_exceeded (noBetter_of_lt (by rw [← hA]; omega)) (by simp) (by simp)

end Evaluate

/-- EVALUATE, for the selection `S.reverse ++ [k]` just made: one case per rule. -/
theorem evaluate_spec {c : GrinderInput} {st : GrinderState} {k : Nat} {S : List Nat} (hr : GrinderReady c)
    (hsel : SelInv c st) (hbest : BestInv c st) (hcurr : st.curr_selection = k :: S) (hk : k < c.utxo_pool.length) :
    EvalSpec c S.reverse k st (evaluate c k st).1 (evaluate c k st).2.1 (evaluate c k st).2.2 := by
  have hrev : st.curr_selection.reverse = S.reverse ++ [k] := by rw [hcurr, List.reverse_cons]
  have hX : Node c.utxo_pool.length (S.reverse ++ [k]) := by
    refine ⟨by simp, hrev ▸ hsel.increasing, fun i hi => ?_⟩
    rcases List.mem_append.mp hi with hi | hi
    · exact (hsel.lt_of_cons hcurr i (List.mem_reverse.mp hi)).trans hk
    · rw [List.mem_singleton.mp hi]; exact hk
  have hA : st.curr_amount = amountOf c.utxo_pool (S.reverse ++ [k]) := by
    rw [← hrev, amountOf_reverse, hsel.amount_eq]
  have hW : st.curr_weight = weightOf c.utxo_pool (S.reverse ++ [k]) := by
    rw [← hrev, weightOf_reverse, hsel.weight_eq]
  unfold evaluate
  dsimp only
  split_ifs with h1 h2 h3 h4 h5 h6
  · exact evalSpec_lookahead hr hbest hX hA h1
  · exact evalSpec_heavier hr hbest hW h2 true
  · exact evalSpec_heavier hr hbest hW h2 st.max_tx_weight_exceeded
  · exact evalSpec_improve hbest hX hA hW hr.pool hrev h2 h4 h5
  · exact evalSpec_funded_keep hbest hA hW hr.pool h5
  · exact evalSpec_lower_bound hr hbest hX hA hW h4 h6.2
  · exact evalSpec_explore hbest hA h4

-- ---------------------------------------------------------------------------
-- SHIFT and clone skipping
-- ---------------------------------------------------------------------------

section Shift

variable {c : GrinderInput} {st : GrinderState}

/-- A set that takes a clone of an omitted predecessor is dominated by the set with the
predecessor in its place: the same amount, and by the sorted order no more weight. -/
theorem noBetter_cloneClosed (hs : SortedPool c.utxo_pool) : CloneClosed c.utxo_pool (NoBetter c st) := by
  intro Q W j hj heq hT h
  have hjn := hT.cons_right.2.1
  have hw : wt c.utxo_pool (j - 1) ≤ wt c.utxo_pool j := (hs.amt_le (by omega) hjn).2 heq.symm
  refine h.of_dominated (by simp [heq]) ?_
  simp only [weightOf_append, weightOf_cons]
  omega

/-- The `while (should_shift)` loop: it ends with the tree exhausted and every set of positions
dealt with, or at a new top of the search loop. -/
theorem shiftLoop_spec (hs : SortedPool c.utxo_pool) (fuel : Nat) (st : GrinderState) (hinv : ShiftInv c st)
    (hfuel : st.curr_selection.length < fuel) :
    (shiftLoop c.utxo_pool fuel st = none → ∀ T, Node c.utxo_pool.length T → NoBetter c st T) ∧
      (∀ st', shiftLoop c.utxo_pool fuel st = some st' → TopInv c st') := by
  induction fuel generalizing st with
  | zero => omega
  | succ fuel ih =>
    cases hcs : st.curr_selection with
    | nil =>
      -- the selection ran empty: the walk is closed at the root
      have hclosed := hinv.closed
      rw [hcs, List.reverse_nil] at hclosed
      simp only [shiftLoop, hcs]
      exact ⟨fun _ => hclosed.all, by simp⟩
    | cons i rest =>
      have hclosed := hinv.closed
      rw [hcs, List.reverse_cons] at hclosed
      have hi : i + 1 < c.utxo_pool.length := hinv.lt_last i (by simp [hcs])
      have hrest := hinv.sel.lt_of_cons hcs
      have hskip := skipClones_spec (noBetter_cloneClosed hs) c.utxo_pool.length (i + 1) (Q := rest.reverse)
        (fun q hq => by have := hrest q (List.mem_reverse.mp hq); omega) (by omega) hi (by omega)
        hclosed.covered_next
      simp only [shiftLoop, hcs]
      generalize skipClones c.utxo_pool c.utxo_pool.length (i + 1) = r at hskip ⊢
      obtain ⟨j, sh⟩ := r
      rw [st.deselectLast_of_cons c.utxo_pool hcs]
      -- the state after dropping `i`, with `next_utxo` at `j`
      have hsel := hinv.sel.deselectLast hcs
      rw [st.deselectLast_of_cons c.utxo_pool hcs] at hsel
      set st' : GrinderState := { st with
          curr_amount := st.curr_amount - amt c.utxo_pool i
          curr_weight := st.curr_weight - wt c.utxo_pool i
          curr_selection := rest
          next_utxo := j } with hst'
      have hsel' : SelInv c st' := ⟨hsel.increasing, hsel.amount_eq, hsel.weight_eq⟩
      have hsame : SameBest st st' := ⟨rfl, rfl, rfl⟩
      have hcurr' : st'.curr_selection = rest := rfl
      cases sh with
      | true =>
        have hinv' : ShiftInv c st' :=
          ⟨hsel', hinv.best.of_sameBest hsame, fun q hq => by rw [hcurr'] at hq; have := hrest q hq; omega,
            (NoBetter.congr hsame).symm ▸ hcurr' ▸ hskip.1 rfl⟩
        have hnext := ih st' hinv' (by simp only [hcs, List.length_cons] at hfuel; rw [hcurr']; omega)
        rw [NoBetter.congr hsame] at hnext
        simpa using hnext
      | false =>
        obtain ⟨hij, hjn, hcov⟩ := hskip.2 rfl
        refine ⟨by simp, fun st'' hst'' => ?_⟩
        simp only [Bool.false_eq_true, ↓reduceIte, Option.some.injEq] at hst''
        subst hst''
        exact ⟨hsel', hinv.best.of_sameBest hsame,
          fun q hq => by rw [hcurr'] at hq; have := hrest q hq; show q < j; omega, hjn,
          (NoBetter.congr hsame).symm ▸ hcurr' ▸ hcov⟩

end Shift

-- ---------------------------------------------------------------------------
-- The iteration and the loop
-- ---------------------------------------------------------------------------

/-- What an iteration of the search loop leaves: the next top of the loop; or the end of the
loop, with the best selection valid and, when the tree is exhausted, improved on by no set of
positions. -/
def IterPost (c : GrinderInput) : GrinderState × Option Bool → Prop
  | (st, none) => TopInv c st
  | (st, some true) => BestInv c st ∧ ∀ T, Node c.utxo_pool.length T → NoBetter c st T
  | (st, some false) => BestInv c st

section Iteration

variable {c : GrinderInput} {st : GrinderState}

theorem iterPost_none : IterPost c (st, none) = TopInv c st := rfl

theorem iterPost_true :
    IterPost c (st, some true) = (BestInv c st ∧ ∀ T, Node c.utxo_pool.length T → NoBetter c st T) := rfl

theorem iterPost_false : IterPost c (st, some false) = BestInv c st := rfl

/-- Entering the `while (should_shift)` loop with its invariant ends the iteration as
`IterPost` says. -/
theorem iterPost_of_shiftInv (hs : SortedPool c.utxo_pool) (hinv : ShiftInv c st) :
    IterPost c (match shiftLoop c.utxo_pool (st.curr_selection.length + 1) st with
      | none => (st, some true)
      | some st => (st, none)) := by
  have hspec := shiftLoop_spec hs (st.curr_selection.length + 1) st hinv (Nat.lt_succ_self _)
  split
  · next heq => exact iterPost_true ▸ ⟨hinv.best, hspec.1 heq⟩
  · next st' heq => exact iterPost_none ▸ hspec.2 st' heq

variable (hr : GrinderReady c) (hinv : TopInv c st)
include hr hinv

/-- The step lemma: one iteration of the search loop keeps its invariant, or ends the loop as
`IterPost` says. -/
theorem grindIter_spec : IterPost c (grindIter c st) := by
  have hk := hinv.next_lt
  have hsel1 := hinv.sel.select hinv.lt_next
  have hbest1 : BestInv c (st.select c.utxo_pool) := hinv.best.of_sameBest ⟨rfl, rfl, rfl⟩
  have hev := evaluate_spec hr hsel1 hbest1 (GrinderState.select_curr_selection _ _) hk
  unfold grindIter
  dsimp only
  generalize evaluate c st.next_utxo (st.select c.utxo_pool) = out at hev ⊢
  obtain ⟨cut, shift, st2⟩ := out
  dsimp only at hev ⊢
  -- the state after EVALUATE: the selection `P ++ [k]`, with the walk covered up to it
  have hw := hev.walk
  have hcurr2 : st2.curr_selection = st.next_utxo :: st.curr_selection := hw.curr_selection
  have hnext2 : st2.next_utxo = st.next_utxo + 1 := hw.next_utxo
  have hsel2 := hsel1.of_sameWalk hw
  have hrev2 : st2.curr_selection.reverse = st.curr_selection.reverse ++ [st.next_utxo] := by
    rw [hcurr2, List.reverse_cons]
  have hcov2 : Covered c.utxo_pool.length (NoBetter c st2) (st.curr_selection.reverse ++ [st.next_utxo]) :=
    hinv.covered.mono fun T _ hT => hev.mono T hT
  by_cases htries : st2.curr_try ≥ TOTAL_TRIES
  · rw [if_pos htries]
    exact iterPost_false ▸ hev.best
  rw [if_neg htries]
  by_cases hcut : (cut || st2.next_utxo == c.utxo_pool.length) = true
  · -- CUT: drop `k`, the walk is closed at `P`
    rw [if_pos hcut]
    dsimp only
    rw [if_pos rfl]
    have hsame := st2.sameBest_deselectLast c.utxo_pool
    have hcurr3 := st2.deselectLast_curr_selection c.utxo_pool hcurr2
    have hclosed : Closed c.utxo_pool.length (NoBetter c st2) st.curr_selection.reverse := by
      refine hcov2.closed_cut fun y W hky hT => ?_
      rcases Bool.or_eq_true_iff.mp hcut with hcut | hend
      · exact hev.cut hcut y W hky hT
      · -- the last group of the pool was added: the region is `P ++ [k]` alone
        have hend : st.next_utxo + 1 = c.utxo_pool.length := by rw [← hnext2]; exact beq_iff_eq.mp hend
        obtain ⟨hyW, hyn, -⟩ := hT.cons_right
        have hy : y = st.next_utxo := by omega
        have hW : W = [] := List.eq_nil_iff_forall_not_mem.mpr fun q hq => by
          have := hyW q hq; have := hT.lt q (by simp [hq]); omega
        subst hy hW
        exact hev.self
    refine iterPost_of_shiftInv hr.pool ⟨hsel2.deselectLast hcurr2, hev.best.of_sameBest hsame, ?_, ?_⟩
    · intro q hq
      rw [hcurr3] at hq
      have := hinv.lt_next q hq
      omega
    · rw [hcurr3, NoBetter.congr hsame]
      exact hclosed
  rw [if_neg hcut]
  dsimp only
  have hend : st.next_utxo + 1 < c.utxo_pool.length := by
    have := (Bool.or_eq_false_iff.mp (eq_false_of_ne_true hcut)).2
    rw [hnext2] at this
    have := beq_eq_false_iff_ne.mp this
    omega
  cases shift with
  | true =>
    -- SHIFT: leave the subtree of `P ++ [k]`
    rw [if_pos rfl]
    refine iterPost_of_shiftInv hr.pool ⟨hsel2, hev.best, fun q hq => ?_, ?_⟩
    · rw [hcurr2] at hq
      rcases List.mem_cons.mp hq with rfl | hq
      · exact hend
      · have := hinv.lt_next q hq; omega
    · rw [hrev2]
      exact hcov2.closed_shift (hev.shift rfl)
  | false =>
    -- EXPLORE: go on with the next group
    rw [if_neg Bool.false_ne_true, iterPost_none]
    refine ⟨hsel2, hev.best, fun q hq => ?_, by rw [hnext2]; exact hend, ?_⟩
    · rw [hcurr2] at hq
      rw [hnext2]
      rcases List.mem_cons.mp hq with rfl | hq
      · omega
      · have := hinv.lt_next q hq; omega
    · rw [hrev2, hnext2]
      exact hcov2.explore hev.self

end Iteration

/-- What the search loop leaves: a valid best selection, improved on by no set of positions
when the loop completed. -/
def LoopPost (c : GrinderInput) : GrinderState × Bool → Prop
  | (st, true) => BestInv c st ∧ ∀ T, Node c.utxo_pool.length T → NoBetter c st T
  | (st, false) => BestInv c st

theorem LoopPost.best {c : GrinderInput} {st : GrinderState} {completed : Bool} (h : LoopPost c (st, completed)) :
    BestInv c st := by
  cases completed
  · exact h
  · exact h.1

/-- The run lemma: from the top of the loop, every run of the search loop ends as `LoopPost`
says. -/
theorem grindLoop_spec {c : GrinderInput} (hr : GrinderReady c) (fuel : Nat) (st : GrinderState)
    (hinv : TopInv c st) : LoopPost c (grindLoop c fuel st) := by
  induction fuel generalizing st with
  | zero => exact hinv.best
  | succ fuel ih =>
    have hiter := grindIter_spec hr hinv
    unfold grindLoop
    split
    · next st' completed heq =>
      rw [heq] at hiter
      cases completed
      · exact hiter
      · exact hiter
    · next st' heq =>
      rw [heq] at hiter
      exact ih st' hiter

/-- The variables before the loop satisfy its invariant: nothing comes before the first
selection `[0]`. -/
theorem topInv_init {c : GrinderInput} (hn : 0 < c.utxo_pool.length) :
    TopInv c (GrinderState.init c.max_selection_weight) where
  sel := ⟨List.Pairwise.nil, rfl, rfl⟩
  best := ⟨le_rfl, fun _ => ⟨rfl, rfl⟩, fun h => absurd rfl h, fun h => absurd rfl h, fun h => absurd rfl h,
    fun h => absurd rfl h⟩
  lt_next _ h := absurd h List.not_mem_nil
  next_lt := hn
  covered := covered_zero

-- ---------------------------------------------------------------------------
-- The result
-- ---------------------------------------------------------------------------

/-- `CoinGrinder` on a sorted pool: a result is built from a funded set of distinct positions
within the weight limit, with no funded set lighter, or as light and smaller, when the search
completed; and, where the pool holds less than `MAX_MONEY`, the error of a completed search
means that every funded set is over the weight limit. -/
theorem grindSorted_spec {utxo_pool : List OutputGroup} {selection_target change_target max_selection_weight : Int}
    (hs : SortedPool utxo_pool) (htarget : 0 < selection_target + change_target) :
    (∀ r, (grindSorted utxo_pool selection_target change_target max_selection_weight).1 = .ok r →
      ∃ T, Node utxo_pool.length T ∧ r.m_selected_inputs = ((T.map (utxo_pool[·]!)).map m_outputs).flatten ∧
        r.m_weight = weightOf utxo_pool T ∧ selection_target + change_target ≤ amountOf utxo_pool T ∧
        weightOf utxo_pool T ≤ max_selection_weight ∧
        ((grindSorted utxo_pool selection_target change_target max_selection_weight).2 = true →
          ∀ T', Node utxo_pool.length T' → selection_target + change_target ≤ amountOf utxo_pool T' →
            ¬ Beats (weightOf utxo_pool T') (amountOf utxo_pool T') (weightOf utxo_pool T) (amountOf utxo_pool T))) ∧
    ((utxo_pool.map GetSelectionAmount).sum < MAX_MONEY →
      ∀ e, (grindSorted utxo_pool selection_target change_target max_selection_weight).1 = .error e →
      (grindSorted utxo_pool selection_target change_target max_selection_weight).2 = true →
      ∀ T, Node utxo_pool.length T → selection_target + change_target ≤ amountOf utxo_pool T →
        max_selection_weight < weightOf utxo_pool T) := by
  -- every set of positions holds at most the amount of the pool
  have hle_total : ∀ T, Node utxo_pool.length T → amountOf utxo_pool T ≤ (utxo_pool.map GetSelectionAmount).sum :=
    fun T hT => by simpa using amountOf_le_drop hs.amount_pos (k := 0) hT.increasing fun j hj => ⟨Nat.zero_le j, hT.lt j hj⟩
  unfold grindSorted
  split
  next la mtw total mgw hg =>
  have htotal : total = (utxo_pool.map GetSelectionAmount).sum := by rw [← total_grinderTails, hg]
  subst htotal
  by_cases hlow : (utxo_pool.map GetSelectionAmount).sum < selection_target + change_target
  · -- insufficient funds
    rw [if_pos hlow]
    refine ⟨fun r h => by simp at h, fun _ _ _ _ T hT hf => ?_⟩
    have := hle_total T hT
    omega
  rw [if_neg hlow]
  -- the search loop, set up as `CoinGrinder` sets it up
  have hn : 0 < utxo_pool.length := List.length_pos_iff.mpr fun h => by simp [h] at hlow; omega
  have hr : GrinderReady ⟨utxo_pool, la, mtw, selection_target + change_target, max_selection_weight⟩ :=
    ⟨hs, by rw [hg], by rw [hg]⟩
  extract_lets c
  split
  next st completed hL =>
  have hpost := hL ▸ grindLoop_spec hr TOTAL_TRIES _ (topInv_init hn)
  have hbest := hpost.best
  dsimp only
  by_cases hnil : st.best_selection = []
  · -- no best selection: with the search completed, no funded set is within the weight limit
    rw [if_pos hnil]
    refine ⟨fun r h => by simp at h, fun hmoney _ _ hcomp T hT hf => ?_⟩
    subst hcomp
    obtain ⟨hw, ha⟩ := hbest.of_nil hnil
    have hw' : st.best_selection_weight = max_selection_weight := hw
    have hno : ¬ Beats (weightOf utxo_pool T) (amountOf utxo_pool T) max_selection_weight MAX_MONEY := by
      rw [← hw', ← ha]
      exact fun hb => hpost.2 T hT ⟨hf, hb⟩
    have := hle_total T hT
    unfold Beats at hno
    omega
  · -- the result of the best selection
    rw [if_neg hnil]
    refine ⟨fun r h => ?_, fun _ e h => by simp at h⟩
    simp only [Except.ok.injEq] at h
    subst h
    rw [← List.foldl_map]
    have hres := SelectionResult.addInputs_spec
      (((SelectionResult.init selection_target .CG).SetAlgoCompleted completed).SetSelectionsEvaluated st.curr_try)
      (st.best_selection.reverse.map (utxo_pool[·]!))
    refine ⟨st.best_selection.reverse, hbest.node hnil, by rw [hres.1]; rfl, ?_, ?_, ?_, fun hcomp T' hT' hf' => ?_⟩
    · rw [hres.2, ← weightOf_eq_map]
      exact Int.zero_add _
    · rw [amountOf_reverse]
      exact hbest.funds hnil
    · rw [weightOf_reverse, ← hbest.weight_eq hnil]
      exact hbest.weight_le
    · -- the completed search: no funded set beats the best selection
      subst hcomp
      rw [weightOf_reverse, amountOf_reverse, ← hbest.weight_eq hnil, ← hbest.amount_eq hnil]
      exact fun hb => hpost.2 T' hT' ⟨hf', hb⟩

-- ---------------------------------------------------------------------------
-- The arithmetic of the search fits its types
-- ---------------------------------------------------------------------------

/-- The states at the top of the search loop: the variables before it, and each state an
iteration leaves without ending the loop. -/
inductive Reaches (c : GrinderInput) : GrinderState → Prop
  | init : Reaches c (GrinderState.init c.max_selection_weight)
  | step {st st' : GrinderState} : Reaches c st → grindIter c st = (st', none) → Reaches c st'

/-- Every state at the top of the loop satisfies its invariant. -/
theorem Reaches.topInv {c : GrinderInput} (hr : GrinderReady c) (hn : 0 < c.utxo_pool.length)
    {st : GrinderState} (h : Reaches c st) : TopInv c st := by
  induction h with
  | init => exact topInv_init hn
  | step _ heq ih =>
    have hiter := grindIter_spec hr ih
    rw [heq] at hiter
    exact hiter

/-- A part of the selection `select` makes: positions of the pool, increasing read backwards. -/
theorem TopInv.part {c : GrinderInput} {st : GrinderState} (hinv : TopInv c st) {T : List Nat}
    (hT : T <:+ st.next_utxo :: st.curr_selection) :
    T.reverse.Pairwise (· < ·) ∧ ∀ j ∈ T, j < c.utxo_pool.length := by
  refine ⟨(hinv.sel.select hinv.lt_next).increasing.sublist (List.reverse_prefix.mpr hT).sublist,
    fun j hj => ?_⟩
  rcases List.mem_cons.mp (hT.subset hj) with rfl | hj
  · exact hinv.next_lt
  · exact (hinv.lt_next j hj).trans hinv.next_lt

/-- Each step of the lower bound `curr_weight + int64_t{μ} * ((missing + a - 1) / a)` of
`evaluate` within `int64_t`, `missing` being `total_target - curr_amount` and `a` the amount
of the last group selected. -/
def LowerBoundFits (missing a μ w : Int) : Prop :=
  InRange 64 missing ∧ InRange 64 (missing + a) ∧ InRange 64 (missing + a - 1) ∧
    InRange 64 (Int.tdiv (missing + a - 1) a) ∧ InRange 64 (μ * Int.tdiv (missing + a - 1) a) ∧
    InRange 64 (w + μ * Int.tdiv (missing + a - 1) a)

/-- The `CAmount` and `int` arithmetic of one iteration of the search loop from `st`, each
within its type: the sums `select` forms, the lookahead sum, the steps of the lower bound where
`evaluate` gets to it, and the sums that each `deselect_last` of the iteration leaves (it
removes the last group of a selection that ends in `i :: rest`). -/
structure IterFits (c : GrinderInput) (st : GrinderState) : Prop where
  select_amount : InRange 64 (st.curr_amount + amt c.utxo_pool st.next_utxo)
  select_weight : InRange 32 (st.curr_weight + wt c.utxo_pool st.next_utxo)
  lookahead : InRange 64 (st.curr_amount + amt c.utxo_pool st.next_utxo + c.lookahead[st.next_utxo]!)
  lower_bound : c.total_target ≤ st.curr_amount + amt c.utxo_pool st.next_utxo + c.lookahead[st.next_utxo]! →
    st.curr_amount + amt c.utxo_pool st.next_utxo < c.total_target →
    LowerBoundFits (c.total_target - (st.curr_amount + amt c.utxo_pool st.next_utxo))
      (amt c.utxo_pool st.next_utxo) c.min_tail_weight[st.next_utxo]!
      (st.curr_weight + wt c.utxo_pool st.next_utxo)
  deselect : ∀ i rest, i :: rest <:+ st.next_utxo :: st.curr_selection →
    InRange 64 (amountOf c.utxo_pool rest) ∧ InRange 32 (weightOf c.utxo_pool rest)

/-- The lower bound fits where the missing amount and the amount of the group are positive
`MoneyRange` amounts and the bound, a weight, is an `int` twice over. -/
theorem lowerBoundFits_of {missing a μ w : Int} (hm : 0 < missing) (hmM : missing ≤ MAX_MONEY)
    (ha : 0 < a) (haM : a ≤ MAX_MONEY) (hμ : 0 ≤ μ) (hprod : μ * Int.tdiv (missing + a - 1) a ≤ INT_MAX)
    (hw : 0 ≤ w) (hwM : w ≤ INT_MAX) : LowerBoundFits missing a μ w := by
  have hq0 : 0 ≤ Int.tdiv (missing + a - 1) a := Int.tdiv_nonneg (by omega) ha.le
  have hq : Int.tdiv (missing + a - 1) a ≤ missing + a - 1 := Int.tdiv_le_self _ (by omega)
  have hprod0 : 0 ≤ μ * Int.tdiv (missing + a - 1) a := Int.mul_nonneg hμ hq0
  rw [MAX_MONEY_eq] at hmM haM
  unfold INT_MAX at hprod hwM
  exact ⟨CheckedInt.inRange_64 (by omega) (by omega), CheckedInt.inRange_64 (by omega) (by omega),
    CheckedInt.inRange_64 (by omega) (by omega), CheckedInt.inRange_64 (by omega) (by omega),
    CheckedInt.inRange_64 (by omega) (by omega), CheckedInt.inRange_64 (by omega) (by omega)⟩

/-- The lookahead, an amount of the pool, is a `MoneyRange` amount. -/
theorem GrinderReady.lookahead_le {c : GrinderInput} (hr : GrinderReady c) (hrange : PoolRange c.utxo_pool)
    {k : Nat} (hk : k < c.utxo_pool.length) : c.lookahead[k]! ≤ MAX_MONEY := by
  rw [hr.lookahead_eq hk]
  exact (le_abs_self _).trans (hrange.abs_drop_le _)

section Fits

variable {c : GrinderInput} {st : GrinderState} (hr : GrinderReady c) (hrange : PoolRange c.utxo_pool)
  (hinv : TopInv c st)
include hr hrange hinv

/-- The selection `select` makes holds distinct positions, so its sums stay within the pool's. -/
theorem selected_bounds :
    |st.curr_amount + amt c.utxo_pool st.next_utxo| ≤ MAX_MONEY ∧
      0 ≤ st.curr_weight + wt c.utxo_pool st.next_utxo ∧
      st.curr_weight + wt c.utxo_pool st.next_utxo ≤ INT_MAX := by
  have hsel := hinv.sel.select hinv.lt_next
  obtain ⟨hinc, hlt⟩ := hinv.part (List.suffix_refl _)
  have hA := hrange.abs_amountOf_le hinc hlt
  have hW := hrange.abs_weightOf_le hinc hlt
  have hW0 := weightOf_nonneg hr.pool.weight_nonneg hlt
  rw [← GrinderState.select_curr_amount, hsel.amount_eq]
  rw [← GrinderState.select_curr_weight, hsel.weight_eq]
  exact ⟨hA, hW0, (le_abs_self _).trans hW⟩

/-- The lower bound of `evaluate` fits: the missing amount is at most the lookahead, so at most
as many groups as there are after `k` are counted, each at most as heavy as they are. -/
theorem lowerBoundFits_of_topInv
    (hfund : c.total_target ≤ st.curr_amount + amt c.utxo_pool st.next_utxo + c.lookahead[st.next_utxo]!)
    (hshort : st.curr_amount + amt c.utxo_pool st.next_utxo < c.total_target) :
    LowerBoundFits (c.total_target - (st.curr_amount + amt c.utxo_pool st.next_utxo))
      (amt c.utxo_pool st.next_utxo) c.min_tail_weight[st.next_utxo]!
      (st.curr_weight + wt c.utxo_pool st.next_utxo) := by
  have hk := hinv.next_lt
  obtain ⟨-, hW0, hWM⟩ := selected_bounds hr hrange hinv
  have ha := amt_pos hr.pool.amount_pos hk
  have hL := hr.lookahead_le hrange hk
  have haM := (le_abs_self _).trans (hrange.abs_amt_le hk)
  -- at most one group for each group after `k`, each of weight at least `min_tail_weight[k]`
  have hm : 0 < c.total_target - (st.curr_amount + amt c.utxo_pool st.next_utxo) := by omega
  have hmiss : c.total_target - (st.curr_amount + amt c.utxo_pool st.next_utxo) ≤
      (c.utxo_pool.length - (st.next_utxo + 1) : Nat) * amt c.utxo_pool st.next_utxo :=
    (show _ ≤ c.lookahead[st.next_utxo]! by omega).trans (hr.lookahead_le_mul hk)
  have hq := tdiv_ceil_le hm ha hmiss
  have hμ := hr.minTail_nonneg hk
  have hprod : c.min_tail_weight[st.next_utxo]! *
      Int.tdiv (c.total_target - (st.curr_amount + amt c.utxo_pool st.next_utxo) +
        amt c.utxo_pool st.next_utxo - 1) (amt c.utxo_pool st.next_utxo) ≤ INT_MAX :=
    calc _ ≤ c.min_tail_weight[st.next_utxo]! * ((c.utxo_pool.length - (st.next_utxo + 1) : Nat) : Int) :=
          Int.mul_le_mul_of_nonneg_left hq hμ
      _ ≤ ((c.utxo_pool.drop (st.next_utxo + 1)).map OutputGroup.m_weight).sum := by
          rw [Int.mul_comm]
          exact hr.mul_minTail_le
      _ ≤ INT_MAX := (le_abs_self _).trans (hrange.abs_drop_weight_le _)
  exact lowerBoundFits_of hm (by omega) ha haM hμ hprod hW0 hWM

omit hr in
/-- The sums a `deselect_last` of the iteration leaves are those of a part of the selection
just made, so they stay within the pool's. -/
theorem deselect_bounds {i : Nat} {rest : List Nat}
    (hsuf : i :: rest <:+ st.next_utxo :: st.curr_selection) :
    |amountOf c.utxo_pool rest| ≤ MAX_MONEY ∧ |weightOf c.utxo_pool rest| ≤ INT_MAX := by
  obtain ⟨hinc, hlt⟩ := hinv.part ((List.suffix_cons i rest).trans hsuf)
  exact ⟨hrange.abs_amountOf_le hinc hlt, hrange.abs_weightOf_le hinc hlt⟩

/-- One iteration from a state that satisfies the invariant computes within its types. -/
theorem iterFits_of_topInv : IterFits c st := by
  obtain ⟨hA, hW0, hWM⟩ := selected_bounds hr hrange hinv
  have hL0 := hr.lookahead_nonneg hinv.next_lt
  have hL := hr.lookahead_le hrange hinv.next_lt
  obtain ⟨hA1, hA2⟩ := abs_le.mp hA
  refine ⟨inRange_of_abs_le (by omega), inRange_of_abs_le_int (abs_le.mpr ⟨by unfold INT_MAX at *; omega, hWM⟩),
    inRange_of_abs_le (abs_le.mpr ⟨by omega, by omega⟩), lowerBoundFits_of_topInv hr hrange hinv,
    fun i rest hsuf => ?_⟩
  obtain ⟨hR, hRW⟩ := deselect_bounds hrange hinv hsuf
  exact ⟨inRange_of_abs_le (by omega), inRange_of_abs_le_int hRW⟩

end Fits

/-- On a pool within the types of its sums, no iteration of the search loop, from any state it
reaches, overflows. -/
theorem Reaches.iterFits {c : GrinderInput} (hr : GrinderReady c) (hrange : PoolRange c.utxo_pool)
    (hn : 0 < c.utxo_pool.length) {st : GrinderState} (h : Reaches c st) : IterFits c st :=
  iterFits_of_topInv hr hrange (h.topInv hr hn)

-- ---------------------------------------------------------------------------
-- CoinGrinder on every pool
-- ---------------------------------------------------------------------------

section Pool

variable {utxo_pool : List OutputGroup}

theorem perm_sortEffvalWeight : (sortEffvalWeight utxo_pool).Perm utxo_pool :=
  List.perm_insertionSort _ _

theorem sortedPool_sortEffvalWeight (hamount : ∀ g ∈ utxo_pool, 0 < g.GetSelectionAmount)
    (hweight : ∀ g ∈ utxo_pool, 0 ≤ g.m_weight) : SortedPool (sortEffvalWeight utxo_pool) where
  sorted := List.pairwise_insertionSort _ _
  amount_pos g hg := hamount g (perm_sortEffvalWeight.subset hg)
  weight_nonneg g hg := hweight g (perm_sortEffvalWeight.subset hg)

/-- The search loop of `CoinGrinder` on `utxo_pool`, set up as `grindSorted` sets it up. -/
def grinderInput (utxo_pool : List OutputGroup) (selection_target change_target max_selection_weight : Int) :
    GrinderInput :=
  ⟨sortEffvalWeight utxo_pool, (grinderTails (sortEffvalWeight utxo_pool)).1,
    (grinderTails (sortEffvalWeight utxo_pool)).2.1, selection_target + change_target, max_selection_weight⟩

/-- No `CAmount` or `int` arithmetic of `CoinGrinder` on `utxo_pool` overflows: the running
total of the precomputation loop, the target with change, and, where the search loop runs,
every iteration from every state it reaches. -/
def CoinGrinderFits (utxo_pool : List OutputGroup) (selection_target change_target max_selection_weight : Int) :
    Prop :=
  (∀ k, InRange 64 (((sortEffvalWeight utxo_pool).drop k).map GetSelectionAmount).sum) ∧
    InRange 64 (selection_target + change_target) ∧
    (selection_target + change_target ≤ (utxo_pool.map GetSelectionAmount).sum →
      ∀ st, Reaches (grinderInput utxo_pool selection_target change_target max_selection_weight) st →
        IterFits (grinderInput utxo_pool selection_target change_target max_selection_weight) st)

/-- On a pool within the types of its sums and with `MoneyRange` targets, `CoinGrinder` computes
within its types. -/
theorem coinGrinderFits_of_poolRange (hamount : ∀ g ∈ utxo_pool, 0 < g.GetSelectionAmount)
    (hweight : ∀ g ∈ utxo_pool, 0 ≤ g.m_weight) (hrange : PoolRange utxo_pool)
    {selection_target change_target max_selection_weight : Int} (htarget : 0 < selection_target + change_target)
    (hselection : MoneyRange selection_target = true) (hchange : MoneyRange change_target = true) :
    CoinGrinderFits utxo_pool selection_target change_target max_selection_weight := by
  have hsorted := hrange.perm perm_sortEffvalWeight.symm
  simp only [MoneyRange, Bool.and_eq_true, decide_eq_true_eq] at hselection hchange
  refine ⟨fun k => inRange_of_abs_le ?_, inRange_of_abs_le (abs_le.mpr ⟨by omega, by omega⟩),
    fun hfund st hst => ?_⟩
  · have := hsorted.abs_drop_le k
    rw [MAX_MONEY_eq] at this ⊢
    omega
  · -- the loop runs on a non-empty pool
    have hn : 0 < (sortEffvalWeight utxo_pool).length := by
      rw [perm_sortEffvalWeight.length_eq]
      refine List.length_pos_iff.mpr fun h => ?_
      rw [h, List.map_nil, List.sum_nil] at hfund
      omega
    exact hst.iterFits ⟨sortedPool_sortEffvalWeight hamount hweight, rfl, rfl⟩ hsorted hn

/-- A result of `CoinGrinder` is made of distinct groups of the pool, with their outputs and
their weight, that fund the target within the weight limit; when the search completed, no
sub-multiset of the pool that funds the target is lighter, or as light and smaller. On such a
pool, within the types of its sums and with `MoneyRange` targets, no arithmetic of the search
overflows, so the exact sums above are those the code computes. -/
theorem coinGrinder_ok (hamount : ∀ g ∈ utxo_pool, 0 < g.GetSelectionAmount)
    (hweight : ∀ g ∈ utxo_pool, 0 ≤ g.m_weight) (hrange : PoolRange utxo_pool)
    {selection_target change_target max_selection_weight : Int}
    (htarget : 0 < selection_target + change_target) (hselection : MoneyRange selection_target = true)
    (hchange : MoneyRange change_target = true) {r : SelectionResult}
    (hr : CoinGrinder utxo_pool selection_target change_target max_selection_weight = .ok r) :
    (∃ S : List OutputGroup, S.Subperm utxo_pool ∧ r.m_selected_inputs = (S.map m_outputs).flatten ∧
      r.m_weight = (S.map OutputGroup.m_weight).sum ∧
      selection_target + change_target ≤ (S.map GetSelectionAmount).sum ∧
      (S.map OutputGroup.m_weight).sum ≤ max_selection_weight ∧
      (CoinGrinderCompletes utxo_pool selection_target change_target max_selection_weight = true →
        ∀ S' : List OutputGroup, S'.Subperm utxo_pool →
          selection_target + change_target ≤ (S'.map GetSelectionAmount).sum →
          ¬ Beats (S'.map OutputGroup.m_weight).sum (S'.map GetSelectionAmount).sum
            (S.map OutputGroup.m_weight).sum (S.map GetSelectionAmount).sum)) ∧
    CoinGrinderFits utxo_pool selection_target change_target max_selection_weight := by
  refine ⟨?_, coinGrinderFits_of_poolRange hamount hweight hrange htarget hselection hchange⟩
  have hs := sortedPool_sortEffvalWeight hamount hweight
  obtain ⟨T, hT, hin, hw, hf, hle, hopt⟩ := (grindSorted_spec hs htarget).1 r hr
  obtain ⟨ha, hwt⟩ := sums_of_perm (List.Perm.refl (T.map ((sortEffvalWeight utxo_pool)[·]!)))
  refine ⟨_, subperm_of_indices perm_sortEffvalWeight hT.increasing hT.lt, hin, hwt ▸ hw, ha ▸ hf, hwt ▸ hle,
    fun hcomp S' hS' hf' => ?_⟩
  -- the sets that fund the target are non-empty, so they are sets of positions of the sorted pool
  have hne : S' ≠ [] := by
    rintro rfl
    simp only [List.map_nil, List.sum_nil] at hf'
    omega
  obtain ⟨T', hT', hperm⟩ := exists_node_of_subperm perm_sortEffvalWeight hS' hne
  obtain ⟨ha', hw'⟩ := sums_of_perm hperm
  rw [ha', hw', ha, hwt]
  exact hopt hcomp T' hT' (ha' ▸ hf')

/-- Four groups; two of amount 5 fund a target of 10 with the least weight, 3. -/
def samplePool : List OutputGroup :=
  [{ effective_value := 5, m_weight := 3 }, { effective_value := 5, m_weight := 1 },
    { effective_value := 5, m_weight := 2 }, { effective_value := 3, m_weight := 1 }]

theorem coinGrinder_ok_samplePool :
    ∃ r, CoinGrinder samplePool 10 0 100 = .ok r ∧ r.m_weight = 3 ∧
      (∃ S : List OutputGroup, S.Subperm samplePool ∧ 10 + 0 ≤ (S.map GetSelectionAmount).sum ∧
        (S.map OutputGroup.m_weight).sum ≤ 100) ∧ CoinGrinderFits samplePool 10 0 100 := by
  obtain ⟨hS, hfits⟩ := coinGrinder_ok (by decide) (by decide) ⟨by decide, by decide⟩ (by decide) rfl rfl
    (show CoinGrinder samplePool 10 0 100 = .ok _ from rfl)
  exact ⟨_, rfl, rfl, hS.imp fun _ h => ⟨h.1, h.2.2.2.1, h.2.2.2.2.1⟩, hfits⟩

/-- `CoinGrinder` fails after a completed search of a pool that holds less than `MAX_MONEY`
only where every sub-multiset of the pool that funds the target is over the weight limit. -/
theorem coinGrinder_error (hamount : ∀ g ∈ utxo_pool, 0 < g.GetSelectionAmount)
    (hweight : ∀ g ∈ utxo_pool, 0 ≤ g.m_weight) {selection_target change_target max_selection_weight : Int}
    (htarget : 0 < selection_target + change_target) (hmoney : (utxo_pool.map GetSelectionAmount).sum < MAX_MONEY)
    {e : String} (he : CoinGrinder utxo_pool selection_target change_target max_selection_weight = .error e)
    (hcomp : CoinGrinderCompletes utxo_pool selection_target change_target max_selection_weight = true)
    (S : List OutputGroup) (hS : S.Subperm utxo_pool)
    (hf : selection_target + change_target ≤ (S.map GetSelectionAmount).sum) :
    max_selection_weight < (S.map OutputGroup.m_weight).sum := by
  have hs := sortedPool_sortEffvalWeight hamount hweight
  have hmoney' : ((sortEffvalWeight utxo_pool).map GetSelectionAmount).sum < MAX_MONEY := by
    rwa [(perm_sortEffvalWeight.map _).sum_eq]
  have hne : S ≠ [] := by
    rintro rfl
    simp only [List.map_nil, List.sum_nil] at hf
    omega
  obtain ⟨T, hT, hperm⟩ := exists_node_of_subperm perm_sortEffvalWeight hS hne
  obtain ⟨ha, hw⟩ := sums_of_perm hperm
  rw [hw]
  exact (grindSorted_spec hs htarget).2 hmoney' e he hcomp T hT (ha ▸ hf)

/-- Two groups of amount 5 that fund a target of 10 only together, at weight 4. -/
def heavyPool : List OutputGroup := [{ effective_value := 5, m_weight := 3 }, { effective_value := 5, m_weight := 1 }]

theorem coinGrinder_error_heavyPool :
    CoinGrinder heavyPool 10 0 3 = .error ErrorMaxWeightExceeded ∧
      ∀ S : List OutputGroup, S.Subperm heavyPool → 10 + 0 ≤ (S.map GetSelectionAmount).sum →
        3 < (S.map OutputGroup.m_weight).sum :=
  ⟨rfl, coinGrinder_error (by decide) (by decide) (by decide) (by decide) rfl (by decide)⟩

end Pool

end Wallet

end Riecoin
