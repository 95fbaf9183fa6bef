-- SUMMARY: SelectCoinsBnB of wallet/coinselection.cpp: the depth-first branch-and-bound search for a changeless input set whose amount lies between the target and the target plus the cost of change, with the least waste; its sort order, lookahead, evaluation with the weight, overshoot and waste prunings, and its search loop.
import Riecoin.Wallet.CoinGrinder

/-!
# Branch and bound

`SelectCoinsBnB` sorts the pool by `descending` (larger amount first, lower waste
`fee - long_term_fee` first on a tie), precomputes the amount after each position, and walks the
inclusion tree of the pool as `CoinGrinder` does (`Riecoin.Wallet.CoinGrinder`): select
`next_utxo`, evaluate, then EXPLORE, SHIFT or CUT, skipping after a SHIFT the groups with the
amount of the one just omitted. A selection is a solution when its amount lies in
`[selection_target, selection_target + cost_of_change]` and its weight within the limit; the
search keeps the solution of least waste, the inputs' `fee - long_term_fee` plus the excess over
the target, and prefers the later one on a tie.

The loop is the one of `CoinGrinder` with another evaluation, so the model reuses `skipClones`
and the position sums `amountOf`, `weightOf`; `wasteOf` adds the inputs' waste.
-/

namespace Riecoin

namespace Wallet

open InclusionTree OutputGroup

/-- "`a` may stand before `b`" in a pool sorted by `descending`. -/
def DescendingLE (a b : OutputGroup) : Prop := descending b a = false

instance : DecidableRel DescendingLE := fun _ _ => inferInstanceAs (Decidable (_ = _))

theorem descendingLE_iff {a b : OutputGroup} :
    DescendingLE a b ↔ b.GetSelectionAmount < a.GetSelectionAmount ∨
      (a.GetSelectionAmount = b.GetSelectionAmount ∧ a.fee - a.long_term_fee ≤ b.fee - b.long_term_fee) := by
  unfold DescendingLE descending
  split_ifs with h
  · simp only [decide_eq_false_iff_not, Int.not_lt]
    omega
  · simp only [decide_eq_false_iff_not, gt_iff_lt, Int.not_lt]
    omega

instance : Std.Total DescendingLE where
  total a b := by
    rw [descendingLE_iff, descendingLE_iff]
    omega

instance : IsTrans OutputGroup DescendingLE where
  trans a b c hab hbc := by
    rw [descendingLE_iff] at *
    omega

/-- `std::sort(utxo_pool, descending)`: one sorted order of the pool (the search is proved for
every sorted order). -/
def sortDescending (utxo_pool : List OutputGroup) : List OutputGroup :=
  utxo_pool.insertionSort DescendingLE

/-- The precomputation loop of `SelectCoinsBnB`, from the last group back to the first:
`lookahead[i]` is the amount after `i`, and the second component the amount of the pool. -/
def bnbTails (utxo_pool : List OutputGroup) : List Int × Int :=
  utxo_pool.foldr
    (fun g (lookahead, total_available) => (total_available :: lookahead, total_available + g.GetSelectionAmount))
    ([], 0)

/-- What the search loop of `SelectCoinsBnB` reads. -/
structure BnBInput where
  utxo_pool : List OutputGroup
  lookahead : List Int
  selection_target : Int
  cost_of_change : Int
  max_selection_weight : Int
  is_feerate_high : Bool

/-- The variables of the search loop; the selections keep their `back()` at the head. -/
structure BnBState where
  curr_selection : List Nat
  best_selection : List Nat
  curr_amount : Int
  curr_selection_waste : Int
  best_waste : Int
  curr_weight : Int
  max_tx_weight_exceeded : Bool
  next_utxo : Nat
  curr_try : Nat
  deriving DecidableEq, Repr

namespace BnBState

/-- The variables before the loop; `best_waste` starts at `MAX_MONEY`. -/
def init : BnBState := ⟨[], [], 0, 0, MAX_MONEY, 0, false, 0, 0⟩

/-- Select `next_utxo`, the first step of an iteration. -/
def select (pool : List OutputGroup) (st : BnBState) : BnBState :=
  let utxo := pool[st.next_utxo]!
  { st with
    curr_amount := st.curr_amount + utxo.GetSelectionAmount
    curr_weight := st.curr_weight + utxo.m_weight
    curr_selection_waste := st.curr_selection_waste + (utxo.fee - utxo.long_term_fee)
    curr_selection := st.next_utxo :: st.curr_selection
    next_utxo := st.next_utxo + 1
    curr_try := st.curr_try + 1 }

/-- `deselect_last()`. -/
def deselectLast (pool : List OutputGroup) (st : BnBState) : BnBState :=
  match st.curr_selection with
  | [] => st
  | i :: rest =>
    { st with
      curr_amount := st.curr_amount - pool[i]!.GetSelectionAmount
      curr_weight := st.curr_weight - pool[i]!.m_weight
      curr_selection_waste := st.curr_selection_waste - (pool[i]!.fee - pool[i]!.long_term_fee)
      curr_selection := rest }

end BnBState

/-- EVALUATE the selection just extended by `curr_tail`: `(should_cut, should_shift)` and the
state with the best selection and the weight flag updated. -/
def bnbEvaluate (c : BnBInput) (curr_tail : Nat) (st : BnBState) : Bool × Bool × BnBState :=
  if st.curr_amount + c.lookahead[curr_tail]! < c.selection_target then (true, false, st)
  else if st.curr_weight > c.max_selection_weight then (false, true, { st with max_tx_weight_exceeded := true })
  else if st.curr_amount > c.selection_target + c.cost_of_change then (false, true, st)
  else if c.is_feerate_high = true ∧ st.curr_selection_waste > st.best_waste then (false, true, st)
  else if st.curr_amount ≥ c.selection_target then
    let curr_waste := st.curr_selection_waste + (st.curr_amount - c.selection_target)
    if curr_waste ≤ st.best_waste then
      (false, true, { st with best_selection := st.curr_selection, best_waste := curr_waste })
    else (false, true, st)
  else (false, false, st)

/-- The `while (should_shift)` loop: `none` when the selection runs empty. -/
def bnbShiftLoop (pool : List OutputGroup) : Nat → BnBState → Option BnBState
  | 0, _ => none
  | fuel + 1, st =>
    match st.curr_selection with
    | [] => none
    | i :: _ =>
      let (next_utxo, should_shift) := skipClones pool pool.length (i + 1)
      let st := { st.deselectLast pool with next_utxo := next_utxo }
      if should_shift then bnbShiftLoop pool fuel st else some st

/-- One iteration of `while (!is_done)`: the next state, and `some completed` when the loop
ends. -/
def bnbIter (c : BnBInput) (st : BnBState) : BnBState × Option Bool :=
  let curr_tail := st.next_utxo
  let st := st.select c.utxo_pool
  let (should_cut, should_shift, st) := bnbEvaluate c curr_tail st
  if st.curr_try ≥ TOTAL_TRIES then (st, some false)
  else
    let should_cut := should_cut || st.next_utxo == c.utxo_pool.length
    let (st, should_shift) := if should_cut then (st.deselectLast c.utxo_pool, true) else (st, should_shift)
    if should_shift then
      match bnbShiftLoop c.utxo_pool (st.curr_selection.length + 1) st with
      | none => (st, some true)
      | some st => (st, none)
    else (st, none)

/-- The search loop, at most `fuel` iterations. -/
def bnbLoop (c : BnBInput) : Nat → BnBState → BnBState × Bool
  | 0, st => (st, false)
  | fuel + 1, st =>
    match bnbIter c st with
    | (st, some completed) => (st, completed)
    | (st, none) => bnbLoop c fuel st

/-- `is_feerate_high`: whether the first group of the sorted pool pays more fee than its
long-term fee. `utxo_pool.at(0)` throws on an empty pool, which only gets there with a target of
at most zero; the model reads it as not high. -/
def isFeerateHigh (utxo_pool : List OutputGroup) : Bool :=
  match utxo_pool with
  | [] => false
  | g :: _ => decide (g.fee > g.long_term_fee)

/-- `SelectCoinsBnB` on a pool already sorted: the result, and whether the search completed. -/
def bnbSorted (utxo_pool : List OutputGroup) (selection_target cost_of_change : Int)
    (max_selection_weight : Int) : Except String SelectionResult × Bool :=
  let (lookahead, total_available) := bnbTails utxo_pool
  if total_available < selection_target then (.error ErrorNoSolution, true)
  else
    let c : BnBInput :=
      ⟨utxo_pool, lookahead, selection_target, cost_of_change, max_selection_weight, isFeerateHigh utxo_pool⟩
    let (st, completed) := bnbLoop c TOTAL_TRIES BnBState.init
    let result := ((SelectionResult.init selection_target .BNB).SetAlgoCompleted completed).SetSelectionsEvaluated
      st.curr_try
    if st.best_selection = [] then
      (.error (if st.max_tx_weight_exceeded then ErrorMaxWeightExceeded else ErrorNoSolution), completed)
    else (.ok (st.best_selection.reverse.foldl (fun r i => r.AddInput utxo_pool[i]!) result), completed)

/-- `SelectCoinsBnB(utxo_pool, selection_target, cost_of_change, max_selection_weight)`. -/
def SelectCoinsBnB (utxo_pool : List OutputGroup) (selection_target cost_of_change : Int)
    (max_selection_weight : Int) : Except String SelectionResult :=
  (bnbSorted (sortDescending utxo_pool) selection_target cost_of_change max_selection_weight).1

/-- Whether the search of `SelectCoinsBnB` completed before `TOTAL_TRIES`. -/
def SelectCoinsBnBCompletes (utxo_pool : List OutputGroup) (selection_target cost_of_change : Int)
    (max_selection_weight : Int) : Bool :=
  (bnbSorted (sortDescending utxo_pool) selection_target cost_of_change max_selection_weight).2

/-! ## Waste -/

/-- The waste `fee - long_term_fee` of the group at position `i`. -/
def ws (pool : List OutputGroup) (i : Nat) : Int := pool[i]!.fee - pool[i]!.long_term_fee

/-- The inputs' waste of a set of positions. -/
def inputWasteOf (pool : List OutputGroup) (T : List Nat) : Int := (T.map (ws pool)).sum

/-- The waste of a changeless selection: the inputs' waste and the excess over the target. -/
def wasteOf (pool : List OutputGroup) (selection_target : Int) (T : List Nat) : Int :=
  inputWasteOf pool T + (amountOf pool T - selection_target)

section Waste

variable (pool : List OutputGroup)

@[simp] theorem inputWasteOf_nil : inputWasteOf pool [] = 0 := rfl

@[simp] theorem inputWasteOf_cons (i : Nat) (T : List Nat) :
    inputWasteOf pool (i :: T) = ws pool i + inputWasteOf pool T := by
  simp [inputWasteOf]

@[simp] theorem inputWasteOf_append (S T : List Nat) :
    inputWasteOf pool (S ++ T) = inputWasteOf pool S + inputWasteOf pool T := by
  simp [inputWasteOf]

@[simp] theorem inputWasteOf_reverse (T : List Nat) : inputWasteOf pool T.reverse = inputWasteOf pool T := by
  simp [inputWasteOf, List.map_reverse, List.sum_reverse]

theorem inputWasteOf_eq_map (T : List Nat) :
    inputWasteOf pool T = ((T.map (pool[·]!)).map fun g => g.fee - g.long_term_fee).sum := by
  rw [inputWasteOf, List.map_map]
  rfl

/-- The waste of a changeless selection of groups: their `fee - long_term_fee` and the excess of
their amount over the target, as `SelectCoinsBnB` computes it for `curr_waste`. -/
def selectionWaste (selection_target : Int) (S : List OutputGroup) : Int :=
  (S.map fun g => g.fee - g.long_term_fee).sum + ((S.map GetSelectionAmount).sum - selection_target)

theorem selectionWaste_map (selection_target : Int) (T : List Nat) :
    selectionWaste selection_target (T.map (pool[·]!)) = wasteOf pool selection_target T := by
  rw [selectionWaste, wasteOf, inputWasteOf_eq_map, amountOf_eq_map]

theorem selectionWaste_perm (selection_target : Int) {S S' : List OutputGroup} (h : S.Perm S') :
    selectionWaste selection_target S = selectionWaste selection_target S' := by
  rw [selectionWaste, selectionWaste, (h.map _).sum_eq, (h.map _).sum_eq]

end Waste

/-- A pool within the types of the sums `SelectCoinsBnB` forms: those of `PoolRange`, and the
absolute values of its wastes `fee - long_term_fee` summing to at most `MAX_MONEY`. -/
structure BnBRange (pool : List OutputGroup) : Prop extends PoolRange pool where
  waste : (pool.map fun g => |g.fee - g.long_term_fee|).sum ≤ MAX_MONEY

theorem BnBRange.perm {pool pool' : List OutputGroup} (h : BnBRange pool) (hp : pool.Perm pool') :
    BnBRange pool' where
  toPoolRange := h.toPoolRange.perm hp
  waste := (hp.map fun g => |g.fee - g.long_term_fee|).sum_eq ▸ h.waste

/-- The inputs' waste of distinct positions, kept in either order, is at most `MAX_MONEY` in
absolute value. -/
theorem BnBRange.abs_inputWasteOf_le {pool : List OutputGroup} (h : BnBRange pool) {T : List Nat}
    (hinc : T.reverse.Pairwise (· < ·)) (hlt : ∀ j ∈ T, j < pool.length) :
    |inputWasteOf pool T| ≤ MAX_MONEY := by
  rw [← inputWasteOf_reverse, inputWasteOf_eq_map]
  exact (abs_sum_indices_le _ hinc fun j hj => hlt j (List.mem_reverse.mp hj)).trans h.waste

/-- The waste of one group of the pool: at most `MAX_MONEY` in absolute value. -/
theorem BnBRange.abs_ws_le {pool : List OutputGroup} (h : BnBRange pool) {k : Nat} (hk : k < pool.length) :
    |ws pool k| ≤ MAX_MONEY := by
  have := h.abs_inputWasteOf_le (T := [k]) (List.pairwise_singleton _ _) fun j hj => List.mem_singleton.mp hj ▸ hk
  rwa [inputWasteOf_cons, inputWasteOf_nil, Int.add_zero] at this

/-- The pool `SelectCoinsBnB` searches: sorted by `descending`. -/
def DescSorted (pool : List OutputGroup) : Prop := pool.Pairwise DescendingLE

/-- A later group of a sorted pool has no larger amount, and on an equal amount no lower
waste. -/
theorem DescSorted.amt_le {pool : List OutputGroup} (h : DescSorted pool) {i j : Nat} (hij : i < j)
    (hj : j < pool.length) : amt pool j ≤ amt pool i ∧ (amt pool j = amt pool i → ws pool i ≤ ws pool j) := by
  have hle := List.pairwise_iff_getElem.mp h i j (by omega) hj hij
  simp only [amt, ws, getElem!_pos pool i (by omega), getElem!_pos pool j hj]
  rw [descendingLE_iff] at hle
  omega

theorem bnbTails_cons (g : OutputGroup) (rest : List OutputGroup) :
    bnbTails (g :: rest) =
      ((bnbTails rest).2 :: (bnbTails rest).1, (bnbTails rest).2 + g.GetSelectionAmount) := rfl

/-- `total_available` is the amount of the pool. -/
theorem total_bnbTails (pool : List OutputGroup) : (bnbTails pool).2 = (pool.map GetSelectionAmount).sum := by
  induction pool with
  | nil => rfl
  | cons g rest ih => rw [bnbTails_cons, ih, List.map_cons, List.sum_cons, Int.add_comm]

/-- `lookahead[i]` is the amount of the pool after `i`. -/
theorem lookahead_bnbTails (pool : List OutputGroup) {i : Nat} (hi : i < pool.length) :
    (bnbTails pool).1[i]! = ((pool.drop (i + 1)).map GetSelectionAmount).sum := by
  induction pool generalizing i with
  | nil => exact absurd hi (Nat.not_lt_zero i)
  | cons g rest ih =>
    rw [bnbTails_cons]
    cases i with
    | zero => simp [total_bnbTails]
    | succ i => simpa using ih (by simpa using hi)

end Wallet

end Riecoin
