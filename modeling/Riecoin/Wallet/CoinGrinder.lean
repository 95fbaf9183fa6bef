-- SUMMARY: CoinGrinder of wallet/coinselection.cpp: the depth-first branch-and-bound search for the lightest input set that funds a transaction with change, with its lookahead, weight and lower-bound prunings and its clone skipping, shown to return a funded, weight-limited set of distinct pool groups and, when it completes, the lightest and then cheapest such set.
import Riecoin.Wallet.CoinSelection

/-!
# CoinGrinder

`CoinGrinder` sorts the pool by `descending_effval_weight`, precomputes for each position the
amount after it (`lookahead`) and the least weight after it (`min_tail_weight`), and walks the
inclusion tree of the pool depth first (`Riecoin.Lib.InclusionTree`): each iteration adds
`next_utxo` to the selection, evaluates the selection and then EXPLOREs (goes on with the next
group), SHIFTs (replaces the last group by the next one) or CUTs (drops the last group and
shifts the one before), skipping a group with the amount of an omitted predecessor.

The search keeps one invariant (`TopInv`): every non-empty set of pool positions that comes
before the next selection in the walk cannot improve on the best selection found so far
(`Improves`: fund the target with less weight, or with equal weight and less amount). Each
pruning rule of `evaluate` is justified by one lemma: the lookahead bound, the weight bound, the
stop after a solution, and the lower bound on how many more groups a selection still needs,
where a CUT also uses that the last group is the lightest of those after it. When the
selection runs empty the whole tree is dealt with (`Closed.all`), so a completed search returns
an optimal selection, and an error only when no set funds the target within the weight limit
(`grindSorted_spec`, in `Riecoin.Wallet.CoinGrinderSearch`).
-/

namespace Riecoin

namespace Wallet

open InclusionTree OutputGroup

/-- `std::numeric_limits<int>::max()`. -/
def INT_MAX : Int := 2147483647

/-- `TOTAL_TRIES`. -/
def TOTAL_TRIES : Nat := 100000

/-- "`a` may stand before `b`" in a pool sorted by `descending_effval_weight`. -/
def EffvalWeightLE (a b : OutputGroup) : Prop := descending_effval_weight b a = false

instance : DecidableRel EffvalWeightLE := fun _ _ => inferInstanceAs (Decidable (_ = _))

theorem effvalWeightLE_iff {a b : OutputGroup} :
    EffvalWeightLE a b ↔ b.GetSelectionAmount < a.GetSelectionAmount ∨
      (a.GetSelectionAmount = b.GetSelectionAmount ∧ a.m_weight ≤ b.m_weight) := by
  unfold EffvalWeightLE descending_effval_weight
  split_ifs with h
  · simp only [decide_eq_false_iff_not, Int.not_lt]
    omega
  · simp only [decide_eq_false_iff_not, gt_iff_lt, Int.not_lt]
    omega

/-- The order is total, so sorting with it puts every pair in order. -/
instance : Std.Total EffvalWeightLE where
  total a b := by
    rw [effvalWeightLE_iff, effvalWeightLE_iff]
    omega

instance : IsTrans OutputGroup EffvalWeightLE where
  trans a b c hab hbc := by
    rw [effvalWeightLE_iff] at *
    omega

/-- `std::sort(utxo_pool, descending_effval_weight)`: one sorted order of the pool (the searches
are proved for every sorted order). -/
def sortEffvalWeight (utxo_pool : List OutputGroup) : List OutputGroup :=
  utxo_pool.insertionSort EffvalWeightLE

/-- The precomputation loop of `CoinGrinder`, over the pool from its last group back to its
first: `lookahead[i]` is the amount after `i`, `min_tail_weight[i]` the least weight after `i`
(`INT_MAX` when there is none), and the third component the amount of the whole pool. -/
def grinderTails (utxo_pool : List OutputGroup) : List Int × List Int × Int × Int :=
  utxo_pool.foldr
    (fun g (lookahead, min_tail_weight, total_available, min_group_weight) =>
      (total_available :: lookahead, min_group_weight :: min_tail_weight,
        total_available + g.GetSelectionAmount, min min_group_weight g.m_weight))
    ([], [], 0, INT_MAX)

/-- What the search loop reads: the sorted pool, the two precomputed vectors, the target with
change and the weight limit. -/
structure GrinderInput where
  utxo_pool : List OutputGroup
  lookahead : List Int
  min_tail_weight : List Int
  total_target : Int
  max_selection_weight : Int

/-- The variables of the search loop. The two selections are the vectors of pool positions with
their `back()` at the head. -/
structure GrinderState where
  curr_selection : List Nat
  best_selection : List Nat
  curr_amount : Int
  best_selection_amount : Int
  curr_weight : Int
  best_selection_weight : Int
  max_tx_weight_exceeded : Bool
  next_utxo : Nat
  curr_try : Nat
  deriving DecidableEq, Repr

namespace GrinderState

/-- The variables before the loop; `best_selection_weight` starts at the weight limit. -/
def init (max_selection_weight : Int) : GrinderState :=
  ⟨[], [], 0, MAX_MONEY, 0, max_selection_weight, false, 0, 0⟩

/-- Select `next_utxo`, the first step of an iteration. -/
def select (pool : List OutputGroup) (st : GrinderState) : GrinderState :=
  let utxo := pool[st.next_utxo]!
  { st with
    curr_amount := st.curr_amount + utxo.GetSelectionAmount
    curr_weight := st.curr_weight + utxo.m_weight
    curr_selection := st.next_utxo :: st.curr_selection
    next_utxo := st.next_utxo + 1
    curr_try := st.curr_try + 1 }

/-- `deselect_last()`. -/
def deselectLast (pool : List OutputGroup) (st : GrinderState) : GrinderState :=
  match st.curr_selection with
  | [] => st
  | i :: rest =>
    { st with
      curr_amount := st.curr_amount - pool[i]!.GetSelectionAmount
      curr_weight := st.curr_weight - pool[i]!.m_weight
      curr_selection := rest }

end GrinderState

/-- EVALUATE the selection just extended by `curr_tail`: `(should_cut, should_shift)` and the
state with the best selection and the weight flag updated. Where the selection is too heavy or
can no longer become light enough, it CUTs if the last group is the lightest of those after it
and SHIFTs otherwise. -/
def evaluate (c : GrinderInput) (curr_tail : Nat) (st : GrinderState) : Bool × Bool × GrinderState :=
  let utxo := c.utxo_pool[curr_tail]!
  let cut_if_lightest : Bool := decide (utxo.m_weight ≤ c.min_tail_weight[curr_tail]!)
  if st.curr_amount + c.lookahead[curr_tail]! < c.total_target then (true, false, st)
  else if st.curr_weight > st.best_selection_weight then
    let st := if st.curr_weight > c.max_selection_weight then { st with max_tx_weight_exceeded := true } else st
    (cut_if_lightest, !cut_if_lightest, st)
  else if st.curr_amount ≥ c.total_target then
    if st.curr_weight < st.best_selection_weight ∨
        (st.curr_weight = st.best_selection_weight ∧ st.curr_amount < st.best_selection_amount) then
      (false, true, { st with
        best_selection := st.curr_selection
        best_selection_weight := st.curr_weight
        best_selection_amount := st.curr_amount })
    else (false, true, st)
  else if st.best_selection ≠ [] ∧
      st.curr_weight + c.min_tail_weight[curr_tail]! *
        Int.tdiv (c.total_target - st.curr_amount + utxo.GetSelectionAmount - 1) utxo.GetSelectionAmount >
        st.best_selection_weight then
    (cut_if_lightest, !cut_if_lightest, st)
  else (false, false, st)

/-- The clone-skipping loop after a SHIFT, from `next_utxo`: it moves past each group with the
amount of its predecessor, and returns `true` (SHIFT again) when that reaches the last group. -/
def skipClones (pool : List OutputGroup) : Nat → Nat → Nat × Bool
  | 0, next_utxo => (next_utxo, false)
  | fuel + 1, next_utxo =>
    if pool[next_utxo - 1]!.GetSelectionAmount = pool[next_utxo]!.GetSelectionAmount then
      if next_utxo ≥ pool.length - 1 then (next_utxo, true) else skipClones pool fuel (next_utxo + 1)
    else (next_utxo, false)

/-- The `while (should_shift)` loop: `none` when the selection runs empty, the search space
exhausted. Each round drops one group, so `curr_selection.length + 1` rounds are enough. -/
def shiftLoop (pool : List OutputGroup) : Nat → GrinderState → Option GrinderState
  | 0, _ => none
  | fuel + 1, st =>
    match st.curr_selection with
    | [] => none
    | i :: _ =>
      let (next_utxo, should_shift) := skipClones pool pool.length (i + 1)
      let st := { st.deselectLast pool with next_utxo := next_utxo }
      if should_shift then shiftLoop pool fuel st else some st

/-- One iteration of `while (!is_done)`: the next state, and `some completed` when the loop
ends (`SetAlgoCompleted(completed)`). -/
def grindIter (c : GrinderInput) (st : GrinderState) : GrinderState × Option Bool :=
  let curr_tail := st.next_utxo
  let st := st.select c.utxo_pool
  let (should_cut, should_shift, st) := evaluate c curr_tail st
  if st.curr_try ≥ TOTAL_TRIES then (st, some false)
  else
    -- the last group of the pool was added: nothing is left on either branch
    let should_cut := should_cut || st.next_utxo == c.utxo_pool.length
    let (st, should_shift) := if should_cut then (st.deselectLast c.utxo_pool, true) else (st, should_shift)
    if should_shift then
      match shiftLoop c.utxo_pool (st.curr_selection.length + 1) st with
      | none => (st, some true)
      | some st => (st, none)
    else (st, none)

/-- The search loop, at most `fuel` iterations; the loop itself stops after `TOTAL_TRIES`. -/
def grindLoop (c : GrinderInput) : Nat → GrinderState → GrinderState × Bool
  | 0, st => (st, false)
  | fuel + 1, st =>
    match grindIter c st with
    | (st, some completed) => (st, completed)
    | (st, none) => grindLoop c fuel st

/-- `CoinGrinder` on a pool already sorted: the result, and whether the search completed
(`GetAlgoCompleted()` of the result, returned or not). -/
def grindSorted (utxo_pool : List OutputGroup) (selection_target change_target : Int)
    (max_selection_weight : Int) : Except String SelectionResult × Bool :=
  let (lookahead, min_tail_weight, total_available, _) := grinderTails utxo_pool
  let total_target := selection_target + change_target
  if total_available < total_target then (.error ErrorNoSolution, true)
  else
    let c : GrinderInput := ⟨utxo_pool, lookahead, min_tail_weight, total_target, max_selection_weight⟩
    let (st, completed) := grindLoop c TOTAL_TRIES (GrinderState.init max_selection_weight)
    let result := ((SelectionResult.init selection_target .CG).SetAlgoCompleted completed).SetSelectionsEvaluated
      st.curr_try
    if st.best_selection = [] then
      (.error (if st.max_tx_weight_exceeded then ErrorMaxWeightExceeded else ErrorNoSolution), completed)
    else (.ok (st.best_selection.reverse.foldl (fun r i => r.AddInput utxo_pool[i]!) result), completed)

/-- `CoinGrinder(utxo_pool, selection_target, change_target, max_selection_weight)`. -/
def CoinGrinder (utxo_pool : List OutputGroup) (selection_target change_target : Int)
    (max_selection_weight : Int) : Except String SelectionResult :=
  (grindSorted (sortEffvalWeight utxo_pool) selection_target change_target max_selection_weight).1

/-- Whether the search of `CoinGrinder` completed before `TOTAL_TRIES`. -/
def CoinGrinderCompletes (utxo_pool : List OutputGroup) (selection_target change_target : Int)
    (max_selection_weight : Int) : Bool :=
  (grindSorted (sortEffvalWeight utxo_pool) selection_target change_target max_selection_weight).2

-- ---------------------------------------------------------------------------
-- The sorted pool
-- ---------------------------------------------------------------------------

/-- The amount of the group at position `i`. -/
def amt (pool : List OutputGroup) (i : Nat) : Int := pool[i]!.GetSelectionAmount

/-- The weight of the group at position `i`. -/
def wt (pool : List OutputGroup) (i : Nat) : Int := pool[i]!.m_weight

/-- The amount of a set of positions. -/
def amountOf (pool : List OutputGroup) (T : List Nat) : Int := (T.map (amt pool)).sum

/-- The weight of a set of positions. -/
def weightOf (pool : List OutputGroup) (T : List Nat) : Int := (T.map (wt pool)).sum

section Sums

variable (pool : List OutputGroup)

@[simp] theorem amountOf_nil : amountOf pool [] = 0 := rfl

@[simp] theorem weightOf_nil : weightOf pool [] = 0 := rfl

@[simp] theorem amountOf_cons (i : Nat) (T : List Nat) :
    amountOf pool (i :: T) = amt pool i + amountOf pool T := by
  simp [amountOf]

@[simp] theorem weightOf_cons (i : Nat) (T : List Nat) :
    weightOf pool (i :: T) = wt pool i + weightOf pool T := by
  simp [weightOf]

@[simp] theorem amountOf_append (S T : List Nat) :
    amountOf pool (S ++ T) = amountOf pool S + amountOf pool T := by
  simp [amountOf]

@[simp] theorem weightOf_append (S T : List Nat) :
    weightOf pool (S ++ T) = weightOf pool S + weightOf pool T := by
  simp [weightOf]

@[simp] theorem amountOf_reverse (T : List Nat) : amountOf pool T.reverse = amountOf pool T := by
  simp [amountOf, List.map_reverse, List.sum_reverse]

@[simp] theorem weightOf_reverse (T : List Nat) : weightOf pool T.reverse = weightOf pool T := by
  simp [weightOf, List.map_reverse, List.sum_reverse]

/-- The amount of the groups a set of positions picks out. -/
theorem amountOf_eq_map (T : List Nat) :
    amountOf pool T = ((T.map (pool[·]!)).map GetSelectionAmount).sum := by
  rw [amountOf, List.map_map]
  rfl

/-- The weight of the groups a set of positions picks out. -/
theorem weightOf_eq_map (T : List Nat) :
    weightOf pool T = ((T.map (pool[·]!)).map OutputGroup.m_weight).sum := by
  rw [weightOf, List.map_map]
  rfl

end Sums

/-- The amount and the weight of groups that are, up to order, the groups at a set of
positions. -/
theorem sums_of_perm {pool S : List OutputGroup} {T : List Nat} (h : S.Perm (T.map (pool[·]!))) :
    (S.map GetSelectionAmount).sum = amountOf pool T ∧ (S.map OutputGroup.m_weight).sum = weightOf pool T := by
  rw [amountOf_eq_map, weightOf_eq_map]
  exact ⟨(h.map _).sum_eq, (h.map _).sum_eq⟩

-- ---------------------------------------------------------------------------
-- Pools within the types of the sums
-- ---------------------------------------------------------------------------

/-- A pool whose sums fit the types the searches keep them in: the absolute values of its
amounts sum to at most `MAX_MONEY`, those of its weights to at most `INT_MAX`. Every sum over
distinct groups is then a `CAmount` in `[-MAX_MONEY, MAX_MONEY]` and an `int`. -/
structure PoolRange (pool : List OutputGroup) : Prop where
  amount : (pool.map fun g => |g.GetSelectionAmount|).sum ≤ MAX_MONEY
  weight : (pool.map fun g => |g.m_weight|).sum ≤ INT_MAX

theorem PoolRange.perm {pool pool' : List OutputGroup} (h : PoolRange pool) (hp : pool.Perm pool') :
    PoolRange pool' where
  amount := (hp.map fun g => |g.GetSelectionAmount|).sum_eq ▸ h.amount
  weight := (hp.map fun g => |g.m_weight|).sum_eq ▸ h.weight

theorem MAX_MONEY_eq : MAX_MONEY = 8400000000000000 := rfl

/-- A value of at most twice `MAX_MONEY` in absolute value, such as a sum of two `MoneyRange`
amounts, is an `int64_t`. -/
theorem inRange_of_abs_le {x : Int} (h : |x| ≤ 2 * MAX_MONEY) : CheckedInt.InRange 64 x := by
  rw [MAX_MONEY_eq] at h
  obtain ⟨h1, h2⟩ := abs_le.mp h
  exact CheckedInt.inRange_64 (by omega) (by omega)

/-- A value of at most `INT_MAX` in absolute value is an `int`. -/
theorem inRange_of_abs_le_int {x : Int} (h : |x| ≤ INT_MAX) : CheckedInt.InRange 32 x := by
  unfold INT_MAX at h
  obtain ⟨h1, h2⟩ := abs_le.mp h
  exact CheckedInt.inRange_32 (by omega) (by omega)

namespace PoolRange

variable {pool : List OutputGroup} (h : PoolRange pool) {T : List Nat}
  (hinc : T.reverse.Pairwise (· < ·)) (hlt : ∀ j ∈ T, j < pool.length)
include h hinc hlt

/-- A set of distinct positions, kept in either order, holds at most `MAX_MONEY` in absolute
value. -/
theorem abs_amountOf_le : |amountOf pool T| ≤ MAX_MONEY := by
  rw [← amountOf_reverse, amountOf_eq_map]
  exact (abs_sum_indices_le _ hinc fun j hj => hlt j (List.mem_reverse.mp hj)).trans h.amount

theorem abs_weightOf_le : |weightOf pool T| ≤ INT_MAX := by
  rw [← weightOf_reverse, weightOf_eq_map]
  exact (abs_sum_indices_le _ hinc fun j hj => hlt j (List.mem_reverse.mp hj)).trans h.weight

end PoolRange

/-- The amount of one group of the pool: at most `MAX_MONEY` in absolute value. -/
theorem PoolRange.abs_amt_le {pool : List OutputGroup} (h : PoolRange pool) {k : Nat} (hk : k < pool.length) :
    |amt pool k| ≤ MAX_MONEY := by
  have := h.abs_amountOf_le (T := [k]) (List.pairwise_singleton _ _) fun j hj => List.mem_singleton.mp hj ▸ hk
  rwa [amountOf_cons, amountOf_nil, Int.add_zero] at this

theorem abs_sum_drop_le (f : OutputGroup → Int) (pool : List OutputGroup) (k : Nat) :
    |((pool.drop k).map f).sum| ≤ (pool.map fun g => |f g|).sum :=
  calc |((pool.drop k).map f).sum|
      ≤ (((pool.drop k).map f).map abs).sum := abs_sum_le_sum_map_abs _
    _ ≤ (pool.map fun g => |f g|).sum := by
        rw [List.map_map]
        exact ((List.drop_sublist k pool).map _).sum_le_sum fun _ hx => by
          obtain ⟨g, -, rfl⟩ := List.mem_map.mp hx
          exact abs_nonneg _

/-- The amount of the pool from `k` on: at most `MAX_MONEY` in absolute value. -/
theorem PoolRange.abs_drop_le {pool : List OutputGroup} (h : PoolRange pool) (k : Nat) :
    |((pool.drop k).map GetSelectionAmount).sum| ≤ MAX_MONEY :=
  (abs_sum_drop_le _ pool k).trans h.amount

/-- The weight of the pool from `k` on: at most `INT_MAX` in absolute value. -/
theorem PoolRange.abs_drop_weight_le {pool : List OutputGroup} (h : PoolRange pool) (k : Nat) :
    |((pool.drop k).map OutputGroup.m_weight).sum| ≤ INT_MAX :=
  (abs_sum_drop_le _ pool k).trans h.weight

section Pools

variable {pool : List OutputGroup}

section Amounts

variable (hpos : ∀ g ∈ pool, 0 < g.GetSelectionAmount)
include hpos

theorem amt_pos {i : Nat} (hi : i < pool.length) : 0 < amt pool i := by
  rw [amt, getElem!_pos pool i hi]
  exact hpos _ (List.getElem_mem hi)

theorem amountOf_nonneg {T : List Nat} (hT : ∀ j ∈ T, j < pool.length) : 0 ≤ amountOf pool T :=
  List.sum_nonneg fun a ha => by
    obtain ⟨j, hj, rfl⟩ := List.mem_map.mp ha
    exact (amt_pos hpos (hT j hj)).le

/-- The positions from `k` on hold at most the amount of the pool from `k` on. -/
theorem amountOf_le_drop {T : List Nat} {k : Nat} (hinc : T.Pairwise (· < ·))
    (hT : ∀ j ∈ T, k ≤ j ∧ j < pool.length) :
    amountOf pool T ≤ ((pool.drop k).map GetSelectionAmount).sum := by
  -- the same positions, counted in `pool.drop k`
  have hpick : T.map (pool[·]!) = (T.map (· - k)).map ((pool.drop k)[·]!) := by
    rw [List.map_map]
    refine List.map_congr_left fun j hj => ?_
    have hkj := hT j hj
    simp only [Function.comp_apply]
    rw [getElem!_pos pool j hkj.2, getElem!_pos (pool.drop k) (j - k) (by simp; omega), List.getElem_drop]
    congr 1
    omega
  have hsub := sublist_of_indices (l := pool.drop k) (T := T.map (· - k))
    (List.pairwise_map.mpr (hinc.imp_of_mem fun ha hb hab => by have := hT _ ha; have := hT _ hb; omega))
    (fun j hj => by
      obtain ⟨i, hi, rfl⟩ := List.mem_map.mp hj
      have := hT i hi
      simp; omega)
  rw [amountOf_eq_map, hpick]
  exact (hsub.map _).sum_le_sum fun a ha => by
    obtain ⟨g, hg, rfl⟩ := List.mem_map.mp ha
    exact (hpos g (List.mem_of_mem_drop hg)).le

/-- The lookahead bound: a set that keeps `P` and takes nothing before `k` after it holds at most
the amount of `P ++ [k]` and of the pool after `k`. -/
theorem amountOf_le_lookahead {P W : List Nat} {k y : Nat} (hT : Node pool.length (P ++ y :: W)) (hk : k ≤ y) :
    amountOf pool (P ++ y :: W) ≤ amountOf pool (P ++ [k]) + ((pool.drop (k + 1)).map GetSelectionAmount).sum := by
  obtain ⟨hyW, hyn, hWn⟩ := hT.cons_right
  have hinc := (List.pairwise_append.mp hT.increasing).2.1
  simp only [amountOf_append, amountOf_cons, amountOf_nil, Int.add_zero]
  rcases Nat.eq_or_lt_of_le hk with rfl | hlt
  · have := amountOf_le_drop hpos (k := k + 1) (List.pairwise_cons.mp hinc).2
      fun j hj => ⟨hyW j hj, hWn j hj⟩
    omega
  · -- `y` and the rest lie after `k`, and `k` itself has a positive amount
    have := amountOf_le_drop hpos (k := k + 1) (T := y :: W) hinc fun j hj => by
      rcases List.mem_cons.mp hj with rfl | hj
      · exact ⟨hlt, hyn⟩
      · exact ⟨by have := hyW j hj; omega, hWn j hj⟩
    have hk := amt_pos hpos (show k < pool.length by omega)
    simp only [amountOf_cons] at this
    omega

end Amounts

section Weights

variable (hwt : ∀ g ∈ pool, 0 ≤ g.m_weight)
include hwt

theorem wt_nonneg {i : Nat} (hi : i < pool.length) : 0 ≤ wt pool i := by
  rw [wt, getElem!_pos pool i hi]
  exact hwt _ (List.getElem_mem hi)

theorem weightOf_nonneg {T : List Nat} (hT : ∀ j ∈ T, j < pool.length) : 0 ≤ weightOf pool T :=
  List.sum_nonneg fun a ha => by
    obtain ⟨j, hj, rfl⟩ := List.mem_map.mp ha
    exact wt_nonneg hwt (hT j hj)

end Weights

/-- Extending a selection adds weight and amount. -/
theorem le_of_extends (hpos : ∀ g ∈ pool, 0 < g.GetSelectionAmount) (hwt : ∀ g ∈ pool, 0 ≤ g.m_weight)
    {P W : List Nat} {k : Nat} (hT : Node pool.length (P ++ k :: W)) :
    weightOf pool (P ++ [k]) ≤ weightOf pool (P ++ k :: W) ∧ amountOf pool (P ++ [k]) ≤ amountOf pool (P ++ k :: W) := by
  have hW := weightOf_nonneg hwt hT.cons_right.2.2
  have hA := amountOf_nonneg hpos hT.cons_right.2.2
  simp only [weightOf_append, weightOf_cons, amountOf_append, amountOf_cons, weightOf_nil, amountOf_nil]
  omega

end Pools

/-- The pool a search runs on: sorted by `descending_effval_weight`, with positive amounts (the
callers' filter) and weights that are not negative (as `Insert` builds them). -/
structure SortedPool (pool : List OutputGroup) : Prop where
  sorted : pool.Pairwise EffvalWeightLE
  amount_pos : ∀ g ∈ pool, 0 < g.GetSelectionAmount
  weight_nonneg : ∀ g ∈ pool, 0 ≤ g.m_weight

namespace SortedPool

variable {pool : List OutputGroup} (h : SortedPool pool)
include h

/-- A later group has no larger amount, and on an equal amount no smaller weight. -/
theorem amt_le {i j : Nat} (hij : i < j) (hj : j < pool.length) :
    amt pool j ≤ amt pool i ∧ (amt pool j = amt pool i → wt pool i ≤ wt pool j) := by
  have hle := List.pairwise_iff_getElem.mp h.sorted i j (by omega) hj hij
  simp only [amt, wt, getElem!_pos pool i (by omega), getElem!_pos pool j hj]
  rw [effvalWeightLE_iff] at hle
  omega

/-- Positions after `k` hold at most the amount of `k` each. -/
theorem amountOf_le_length_mul {T : List Nat} {k : Nat} (hT : ∀ j ∈ T, k < j ∧ j < pool.length) :
    amountOf pool T ≤ T.length * amt pool k := by
  have := List.sum_le_card_nsmul (T.map (amt pool)) (amt pool k) fun x hx => by
    obtain ⟨j, hj, rfl⟩ := List.mem_map.mp hx
    exact (h.amt_le (hT j hj).1 (hT j hj).2).1
  simpa [amountOf, nsmul_eq_mul] using this

end SortedPool

/-- Positions of weight at least `μ` each weigh at least `μ` times their number. -/
theorem length_mul_le_weightOf (pool : List OutputGroup) {T : List Nat} {μ : Int}
    (hT : ∀ j ∈ T, μ ≤ wt pool j) : T.length * μ ≤ weightOf pool T := by
  have := List.card_nsmul_le_sum (T.map (wt pool)) μ fun x hx => by
    obtain ⟨j, hj, rfl⟩ := List.mem_map.mp hx
    exact hT j hj
  simpa [weightOf, nsmul_eq_mul] using this

-- ---------------------------------------------------------------------------
-- The precomputed vectors
-- ---------------------------------------------------------------------------

theorem foldr_min_le {l : List Int} {a x : Int} (hx : x ∈ l) : l.foldr min a ≤ x := by
  induction l with
  | nil => exact absurd hx List.not_mem_nil
  | cons y l ih =>
    rcases List.mem_cons.mp hx with rfl | hx
    · exact min_le_left _ _
    · exact (min_le_right _ _).trans (ih hx)

theorem le_foldr_min {l : List Int} {a b : Int} (ha : b ≤ a) (hl : ∀ x ∈ l, b ≤ x) : b ≤ l.foldr min a := by
  induction l with
  | nil => exact ha
  | cons y l ih => exact le_min (hl y (by simp)) (ih fun x hx => hl x (by simp [hx]))

theorem grinderTails_cons (g : OutputGroup) (rest : List OutputGroup) :
    grinderTails (g :: rest) =
      ((grinderTails rest).2.2.1 :: (grinderTails rest).1, (grinderTails rest).2.2.2 :: (grinderTails rest).2.1,
        (grinderTails rest).2.2.1 + g.GetSelectionAmount, min (grinderTails rest).2.2.2 g.m_weight) := rfl

/-- `total_available` is the amount of the pool. -/
theorem total_grinderTails (pool : List OutputGroup) :
    (grinderTails pool).2.2.1 = (pool.map GetSelectionAmount).sum := by
  induction pool with
  | nil => rfl
  | cons g rest ih => rw [grinderTails_cons, ih, List.map_cons, List.sum_cons, Int.add_comm]

theorem minWeight_grinderTails (pool : List OutputGroup) :
    (grinderTails pool).2.2.2 = (pool.map OutputGroup.m_weight).foldr min INT_MAX := by
  induction pool with
  | nil => rfl
  | cons g rest ih => rw [grinderTails_cons, ih, List.map_cons, List.foldr_cons, min_comm]

/-- `lookahead[i]` is the amount of the pool after `i`. -/
theorem lookahead_grinderTails (pool : List OutputGroup) {i : Nat} (hi : i < pool.length) :
    (grinderTails pool).1[i]! = ((pool.drop (i + 1)).map GetSelectionAmount).sum := by
  induction pool generalizing i with
  | nil => exact absurd hi (Nat.not_lt_zero i)
  | cons g rest ih =>
    rw [grinderTails_cons]
    cases i with
    | zero => simp [total_grinderTails]
    | succ i => simpa using ih (by simpa using hi)

/-- `min_tail_weight[i]` is the least weight of the pool after `i`, or `INT_MAX`. -/
theorem minTail_grinderTails (pool : List OutputGroup) {i : Nat} (hi : i < pool.length) :
    (grinderTails pool).2.1[i]! = ((pool.drop (i + 1)).map OutputGroup.m_weight).foldr min INT_MAX := by
  induction pool generalizing i with
  | nil => exact absurd hi (Nat.not_lt_zero i)
  | cons g rest ih =>
    rw [grinderTails_cons]
    cases i with
    | zero => simp [minWeight_grinderTails]
    | succ i => simpa using ih (by simpa using hi)

-- ---------------------------------------------------------------------------
-- The bounds behind the prunings
-- ---------------------------------------------------------------------------

/-- Weight `w` and amount `a` beat `(bw, ba)`: less weight, or equal weight and less amount. -/
def Beats (w a bw ba : Int) : Prop := w < bw ∨ (w = bw ∧ a < ba)

theorem Beats.trans {w a w' a' bw ba : Int} (h : Beats w a w' a') (h' : Beats w' a' bw ba) : Beats w a bw ba := by
  unfold Beats at *
  omega

/-- What is at least as heavy and at least as large as a selection that does not beat `(bw, ba)`
does not beat it either. -/
theorem not_beats_of_le {w a w' a' bw ba : Int} (hw : w ≤ w') (ha : a ≤ a') (h : ¬ Beats w a bw ba) :
    ¬ Beats w' a' bw ba := by
  unfold Beats at *
  omega

/-- The rounded-up quotient `(m + a - 1) / a` of `C++` is at most any count `c` with
`m ≤ c * a`. -/
theorem tdiv_ceil_le {m a : Int} {c : Nat} (hm : 0 < m) (ha : 0 < a) (h : m ≤ c * a) :
    Int.tdiv (m + a - 1) a ≤ c := by
  rw [Int.tdiv_eq_ediv_of_nonneg (by omega), Int.ediv_le_iff_le_mul ha]
  linarith

section Bounds

variable {pool : List OutputGroup} (hs : SortedPool pool) {P W : List Nat} {k y : Nat}
  (hT : Node pool.length (P ++ y :: W))
include hs hT

variable {μ : Int} (hμ : ∀ j, k < j → j < pool.length → μ ≤ wt pool j)
  (hy : y = k ∨ (k < y ∧ wt pool k ≤ μ))
include hμ hy

/-- The weight bound: a set in the subtree of `P ++ [k]`, or in the omission branch of `k` when
`k` is the lightest group after it, weighs at least `P ++ [k]`. -/
theorem weightOf_le_of_branch : weightOf pool (P ++ [k]) ≤ weightOf pool (P ++ y :: W) := by
  obtain ⟨hyW, hyn, hWn⟩ := hT.cons_right
  have hW := weightOf_nonneg hs.weight_nonneg hWn
  simp only [weightOf_append, weightOf_cons, weightOf_nil, Int.add_zero]
  rcases hy with rfl | ⟨hlt, hlight⟩
  · omega
  · have := hμ y hlt hyn
    omega

/-- The lower bound: a set in the subtree of `P ++ [k]`, or in the omission branch of `k` when
`k` is the lightest group after it, that funds the target needs at least
`⌈missing / amount of k⌉` more groups after `k`, each of weight at least `μ`. -/
theorem lower_bound {target : Int} (hμ0 : 0 ≤ μ) (hshort : amountOf pool (P ++ [k]) < target)
    (hfund : target ≤ amountOf pool (P ++ y :: W)) :
    weightOf pool (P ++ [k]) +
        μ * Int.tdiv (target - amountOf pool (P ++ [k]) + amt pool k - 1) (amt pool k) ≤
      weightOf pool (P ++ y :: W) := by
  obtain ⟨hyW, hyn, hWn⟩ := hT.cons_right
  have hkn : k < pool.length := by rcases hy with rfl | ⟨hlt, -⟩ <;> omega
  have ha := amt_pos hs.amount_pos hkn
  have hWk : ∀ j ∈ W, k < j ∧ j < pool.length := fun j hj => by
    have := hyW j hj
    rcases hy with rfl | ⟨hlt, -⟩
    · exact ⟨this, hWn j hj⟩
    · exact ⟨by omega, hWn j hj⟩
  -- the groups after `k` hold at most the amount of `k` each, and weigh at least `μ` each
  have hAW := hs.amountOf_le_length_mul hWk
  have hWW := length_mul_le_weightOf pool (T := W) fun j hj => hμ j (hWk j hj).1 (hWk j hj).2
  simp only [amountOf_append, amountOf_cons, amountOf_nil, weightOf_append, weightOf_cons,
    weightOf_nil, Int.add_zero] at hshort hfund ⊢
  -- the missing amount needs `W.length` groups of amount at most that of `k`
  have hmiss : target - (amountOf pool P + amt pool k) ≤ W.length * amt pool k := by
    rcases hy with rfl | ⟨hlt, -⟩
    · omega
    · have := (hs.amt_le hlt hyn).1
      omega
  have hceil := tdiv_ceil_le (by omega) ha hmiss
  have hmul : μ * Int.tdiv (target - (amountOf pool P + amt pool k) + amt pool k - 1) (amt pool k) ≤
      μ * W.length := Int.mul_le_mul_of_nonneg_left hceil hμ0
  rcases hy with rfl | ⟨hlt, hlight⟩
  · linarith
  · have := hμ y hlt hyn
    linarith

end Bounds

-- ---------------------------------------------------------------------------
-- Clone skipping
-- ---------------------------------------------------------------------------

/-- A property of sets of positions that a set taking the group at `j` has whenever the same set
with the group before it, of the same amount, in its place has it. -/
def CloneClosed (pool : List OutputGroup) (H : List Nat → Prop) : Prop :=
  ∀ Q W j, 0 < j → amt pool (j - 1) = amt pool j → Node pool.length (Q ++ j :: W) →
    H (Q ++ (j - 1) :: W) → H (Q ++ j :: W)

section Clones

variable {pool : List OutputGroup} {H : List Nat → Prop}

/-- Clone skipping: where the group at `j` has the amount of the one before it, a set that takes
`j` right after `Q` has its property from the same set with `j - 1` in its place, which the walk
has passed before `Q ++ [j]`. -/
theorem Covered.clone (hH : CloneClosed pool H) {Q W : List Nat} {j : Nat}
    (h : Covered pool.length H (Q ++ [j])) (hQ : ∀ q ∈ Q, q + 1 < j) (hj : 0 < j)
    (heq : amt pool (j - 1) = amt pool j) (hT : Node pool.length (Q ++ j :: W)) :
    H (Q ++ j :: W) := by
  obtain ⟨hjW, hjn, hWn⟩ := hT.cons_right
  have hinc := List.pairwise_append.mp hT.increasing
  have hnode : Node pool.length (Q ++ (j - 1) :: W) := by
    refine ⟨by simp, List.pairwise_append.mpr ⟨hinc.1, ?_, ?_⟩, fun i hi => ?_⟩
    · exact List.pairwise_cons.mpr ⟨fun w hw => by have := hjW w hw; omega, (List.pairwise_cons.mp hinc.2.1).2⟩
    · intro a ha b hb
      have := hQ a ha
      rcases List.mem_cons.mp hb with rfl | hb
      · omega
      · have := hjW b hb; omega
    · rcases List.mem_append.mp hi with hi | hi
      · have := hQ i hi; omega
      · rcases List.mem_cons.mp hi with rfl | hi
        · omega
        · exact hWn i hi
  have hlt : Q ++ (j - 1) :: W < Q ++ [j] := lt_snoc_iff.mpr (.inr (.inr ⟨j - 1, W, by omega, rfl⟩))
  exact hH Q W j hj heq hT (h _ hnode hlt)

/-- The clone-skipping loop from `j`: it stops at a group that is no clone, with the walk
covered up to it, or reaches the last group of the pool, with the walk closed at `Q`. -/
theorem skipClones_spec (hH : CloneClosed pool H) {Q : List Nat} (fuel j : Nat)
    (hQ : ∀ q ∈ Q, q + 1 < j) (hj : 0 < j) (hjn : j < pool.length)
    (hfuel : pool.length ≤ j + fuel) (h : Covered pool.length H (Q ++ [j])) :
    ((skipClones pool fuel j).2 = true → Closed pool.length H Q) ∧
      ((skipClones pool fuel j).2 = false → j ≤ (skipClones pool fuel j).1 ∧
        (skipClones pool fuel j).1 < pool.length ∧ Covered pool.length H (Q ++ [(skipClones pool fuel j).1])) := by
  induction fuel generalizing j with
  | zero => omega
  | succ fuel ih =>
    simp only [skipClones]
    split_ifs with heq hend
    · -- the last group is a clone: the walk is closed at `Q`
      refine ⟨fun _ => h.closed_cut fun y W hjy hT => ?_, by simp⟩
      have hy : y = j := by have := hT.cons_right.2.1; omega
      subst hy
      exact Covered.clone hH h hQ hj heq hT
    · -- skip the clone at `j`
      have hnext := ih (j + 1) (fun q hq => by have := hQ q hq; omega) (by omega) (by omega) (by omega)
        (h.skip fun W hT => Covered.clone hH h hQ hj heq hT)
      exact ⟨hnext.1, fun hf => ⟨by have := (hnext.2 hf).1; omega, (hnext.2 hf).2⟩⟩
    · exact ⟨by simp, fun _ => ⟨le_rfl, hjn, h⟩⟩

end Clones

end Wallet

end Riecoin
