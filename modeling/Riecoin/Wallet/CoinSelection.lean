-- SUMMARY: The data of wallet coin selection (wallet/coinselection.h and .cpp): COutput, OutputGroup with Insert, its eligibility filter and selection amount, the two sort orders of the algorithms, SelectionResult with its inputs, weight, change and waste, and GenerateChangeTarget.
import Riecoin.Util.FeeFrac
import Riecoin.Coins.Compressor
import Riecoin.Lib.InclusionTree

/-!
# Coin selection: outputs, groups and results

The selection algorithms of `wallet/coinselection.cpp` choose among `OutputGroup`s, the UTXOs
paid to one script, and return a `SelectionResult`. This module models the data and the small
operations around the algorithms; `Riecoin.Wallet.CoinGrinder` and
`Riecoin.Wallet.BranchAndBound` model two of them. `SelectCoinsSRD` and `KnapsackSolver` draw
random numbers and are not modelled.

A group is built by `OutputGroup::Insert`, which adds each output's value, fees and weight to
the group's totals: the totals of a group built that way are the sums over its outputs, and
its weight is never negative (`totals_insertAll`), which the branch-and-bound searches rely on. A result is built by `AddInput`; its selected value and weight are the sums over the
groups added (`addInputs_spec`).

`CAmount` and `int` are modelled as `Int`. The searches' theorems take a pool whose amounts
sum to at most `MAX_MONEY` and whose weights sum to at most `INT_MAX` (`PoolRange`), and prove
that every sum the search forms then fits its type (`CoinGrinderFits`, `SelectCoinsBnBFits`).
-/

namespace Riecoin

namespace Wallet

open InclusionTree

/-- `CHANGE_LOWER`: the lower bound of the random change target. -/
def CHANGE_LOWER : Int := 50000

/-- `CHANGE_UPPER`: the upper bound of the random change target. -/
def CHANGE_UPPER : Int := 1000000

/-- `WITNESS_SCALE_FACTOR`. -/
def WITNESS_SCALE_FACTOR : Int := 4

-- ---------------------------------------------------------------------------
-- Feerates
-- ---------------------------------------------------------------------------

/-- `CFeeRate`: a feerate kept as the fee and size of `m_feerate`. -/
structure CFeeRate where
  m_feerate : FeeFrac
  deriving DecidableEq, Repr

/-- `CFeeRate(0)`: the explicit constructor, `FeePerVSize(0, 1000)`. -/
def CFeeRate.zero : CFeeRate := ⟨⟨0, 1000⟩⟩

/-- `CFeeRate::GetFee(virtual_bytes)`: the fee of that size rounded up, `-1` in place of a
rounded `0` for a negative feerate. `EvaluateFeeUp` fails only on a size the constructors never
make (zero, ruled out by `IsEmpty`) or on an overflow; the model gives `0` there. -/
def CFeeRate.GetFee (r : CFeeRate) (virtual_bytes : Int32) : Int :=
  if r.m_feerate.size = 0 then 0
  else
    match FeeFrac.evaluateFee r.m_feerate false virtual_bytes with
    | some nFee => if nFee = 0 ∧ virtual_bytes ≠ 0 ∧ r.m_feerate.fee < 0 then -1 else nFee.toInt
    | none => 0

-- ---------------------------------------------------------------------------
-- Outputs and groups
-- ---------------------------------------------------------------------------

/-- `COutput`: a UTXO under consideration, with the fields coin selection reads. The wallet
builds every output it selects from with a feerate, so `fee` and `effective_value` are set. -/
structure COutput where
  txout : CTxOut
  depth : Int
  input_bytes : Int32
  from_me : Bool
  fee : Int
  effective_value : Int
  long_term_fee : Int := 0
  ancestor_bump_fees : Int := 0
  deriving DecidableEq, Repr

/-- `CoinEligibilityFilter`. -/
structure CoinEligibilityFilter where
  conf_mine : Int
  conf_theirs : Int
  max_ancestors : Nat
  max_cluster_count : Nat
  deriving DecidableEq, Repr

/-- `OutputGroup`, with the default member initializers of `OutputGroup()`. -/
structure OutputGroup where
  m_outputs : List COutput := []
  m_from_me : Bool := true
  m_value : Int := 0
  m_depth : Int := 999
  m_ancestors : Nat := 0
  m_max_cluster_count : Nat := 0
  effective_value : Int := 0
  fee : Int := 0
  long_term_fee : Int := 0
  m_long_term_feerate : CFeeRate := CFeeRate.zero
  m_subtract_fee_outputs : Bool := false
  m_weight : Int := 0
  deriving DecidableEq, Repr

instance : Inhabited OutputGroup := ⟨{}⟩

namespace OutputGroup

/-- `OutputGroup::Insert(output, ancestors, cluster_count)`. The output's `long_term_fee` is
set through the shared pointer, so the group keeps the updated output. -/
def Insert (g : OutputGroup) (output : COutput) (ancestors cluster_count : Nat) : OutputGroup :=
  let coin := { output with
    long_term_fee := if output.input_bytes < 0 then 0 else g.m_long_term_feerate.GetFee output.input_bytes }
  { g with
    m_outputs := g.m_outputs ++ [coin]
    fee := g.fee + coin.fee
    long_term_fee := g.long_term_fee + coin.long_term_fee
    effective_value := g.effective_value + coin.effective_value
    m_from_me := g.m_from_me && coin.from_me
    m_value := g.m_value + coin.txout.nValue
    m_depth := min g.m_depth coin.depth
    m_ancestors := g.m_ancestors + ancestors
    m_max_cluster_count := max g.m_max_cluster_count cluster_count
    m_weight := if output.input_bytes > 0 then g.m_weight + output.input_bytes.toInt * WITNESS_SCALE_FACTOR
      else g.m_weight }

/-- What `Insert` keeps of a group: its fees, effective value and value are the sums over its
outputs (the stored ones, with their `long_term_fee` set), and its weight is not negative. -/
structure Totals (g : OutputGroup) : Prop where
  fee : g.fee = (g.m_outputs.map COutput.fee).sum
  long_term_fee : g.long_term_fee = (g.m_outputs.map COutput.long_term_fee).sum
  effective_value : g.effective_value = (g.m_outputs.map COutput.effective_value).sum
  m_value : g.m_value = (g.m_outputs.map fun coin => coin.txout.nValue).sum
  weight_nonneg : 0 ≤ g.m_weight

theorem totals_default : Totals ({} : OutputGroup) := ⟨rfl, rfl, rfl, rfl, le_refl 0⟩

/-- A sum over the outputs after `Insert` adds the inserted output as stored. -/
theorem sum_map_insert (g : OutputGroup) (output : COutput) (ancestors cluster_count : Nat) (f : COutput → Int) :
    ((g.Insert output ancestors cluster_count).m_outputs.map f).sum = (g.m_outputs.map f).sum +
      f { output with
        long_term_fee := if output.input_bytes < 0 then 0 else g.m_long_term_feerate.GetFee output.input_bytes } := by
  simp only [Insert, List.map_append, List.map_cons, List.map_nil, List.sum_append, List.sum_cons, List.sum_nil,
    add_zero]

theorem Totals.insert {g : OutputGroup} (h : Totals g) (output : COutput) (ancestors cluster_count : Nat) :
    Totals (g.Insert output ancestors cluster_count) where
  fee := by rw [sum_map_insert, ← h.fee]; rfl
  long_term_fee := by rw [sum_map_insert, ← h.long_term_fee]; rfl
  effective_value := by rw [sum_map_insert, ← h.effective_value]; rfl
  m_value := by rw [sum_map_insert, ← h.m_value]; rfl
  weight_nonneg := by
    -- only a positive `input_bytes` adds weight
    by_cases hpos : output.input_bytes > 0
    · have : 0 < output.input_bytes.toInt := Int32.lt_iff_toInt_lt.mp hpos
      simp only [Insert, if_pos hpos, WITNESS_SCALE_FACTOR]
      have := h.weight_nonneg
      omega
    · simp only [Insert, if_neg hpos]
      exact h.weight_nonneg

/-- A group built by `Insert`s from the default group has the totals of its outputs. -/
theorem totals_insertAll (outputs : List (COutput × Nat × Nat)) :
    Totals (outputs.foldl (fun g o => g.Insert o.1 o.2.1 o.2.2) {}) := by
  suffices ∀ g, Totals g → Totals (outputs.foldl (fun g o => g.Insert o.1 o.2.1 o.2.2) g) from
    this _ totals_default
  induction outputs with
  | nil => exact fun _ h => h
  | cons o outputs ih => exact fun g h => ih _ (h.insert o.1 o.2.1 o.2.2)

/-- `OutputGroup::EligibleForSpending(eligibility_filter)`. -/
def EligibleForSpending (g : OutputGroup) (f : CoinEligibilityFilter) : Bool :=
  decide (g.m_depth ≥ (if g.m_from_me then f.conf_mine else f.conf_theirs)) &&
    decide (g.m_ancestors ≤ f.max_ancestors) && decide (g.m_max_cluster_count ≤ f.max_cluster_count)

/-- `OutputGroup::GetSelectionAmount()`. -/
def GetSelectionAmount (g : OutputGroup) : Int :=
  if g.m_subtract_fee_outputs then g.m_value else g.effective_value

end OutputGroup

open OutputGroup

/-- The `descending` order of `SelectCoinsBnB` and `KnapsackSolver`: larger selection amount
first, lower waste (`fee - long_term_fee`) first on a tie. -/
def descending (a b : OutputGroup) : Bool :=
  if a.GetSelectionAmount = b.GetSelectionAmount then
    decide (a.fee - a.long_term_fee < b.fee - b.long_term_fee)
  else decide (a.GetSelectionAmount > b.GetSelectionAmount)

/-- The `descending_effval_weight` order of `CoinGrinder` and of the `SelectCoinsSRD` heap:
larger selection amount first, lower weight first on a tie. -/
def descending_effval_weight (a b : OutputGroup) : Bool :=
  if a.GetSelectionAmount = b.GetSelectionAmount then decide (a.m_weight < b.m_weight)
  else decide (a.GetSelectionAmount > b.GetSelectionAmount)

-- ---------------------------------------------------------------------------
-- Selection results
-- ---------------------------------------------------------------------------

/-- `SelectionAlgorithm`. -/
inductive SelectionAlgorithm where
  | BNB
  | KNAPSACK
  | SRD
  | CG
  | MANUAL
  deriving DecidableEq, Repr

/-- `GetAlgorithmName`. -/
def GetAlgorithmName : SelectionAlgorithm → String
  | .BNB => "bnb"
  | .KNAPSACK => "knapsack"
  | .SRD => "srd"
  | .CG => "cg"
  | .MANUAL => "manual"

/-- `SelectionResult`. The set of selected inputs is kept as the list of outputs in the order
they were added. -/
structure SelectionResult where
  m_selected_inputs : List COutput
  m_target : Int
  m_algo : SelectionAlgorithm
  m_use_effective : Bool := false
  m_waste : Option Int := none
  m_algo_completed : Bool := true
  m_selections_evaluated : Nat := 0
  m_weight : Int := 0
  bump_fee_group_discount : Int := 0
  deriving DecidableEq, Repr

namespace SelectionResult

/-- `SelectionResult(target, algo)`. -/
def init (target : Int) (algo : SelectionAlgorithm) : SelectionResult := ⟨[], target, algo, false, none, true, 0, 0, 0⟩

/-- `AddInput(group)`. -/
def AddInput (r : SelectionResult) (group : OutputGroup) : SelectionResult :=
  { r with
    m_selected_inputs := r.m_selected_inputs ++ group.m_outputs
    m_use_effective := !group.m_subtract_fee_outputs
    m_weight := r.m_weight + group.m_weight }

/-- `Clear()`. -/
def Clear (r : SelectionResult) : SelectionResult :=
  { r with m_selected_inputs := [], m_waste := none, m_weight := 0 }

/-- `SetAlgoCompleted(algo_completed)`. -/
def SetAlgoCompleted (r : SelectionResult) (algo_completed : Bool) : SelectionResult :=
  { r with m_algo_completed := algo_completed }

/-- `SetSelectionsEvaluated(attempts)`. -/
def SetSelectionsEvaluated (r : SelectionResult) (attempts : Nat) : SelectionResult :=
  { r with m_selections_evaluated := attempts }

/-- `GetSelectedValue()`: the sum of the inputs' values. -/
def GetSelectedValue (r : SelectionResult) : Int :=
  (r.m_selected_inputs.map fun coin => coin.txout.nValue).sum

/-- `GetSelectedEffectiveValue()`: the sum of the inputs' effective values, with the bump fee
discount added back. -/
def GetSelectedEffectiveValue (r : SelectionResult) : Int :=
  (r.m_selected_inputs.map COutput.effective_value).sum + r.bump_fee_group_discount

/-- `GetChange(min_viable_change, change_fee)`. -/
def GetChange (r : SelectionResult) (min_viable_change change_fee : Int) : Int :=
  let change := if r.m_use_effective then r.GetSelectedEffectiveValue - r.m_target - change_fee
    else r.GetSelectedValue - r.m_target
  if change < min_viable_change then 0 else change

/-- `RecalculateWaste(min_viable_change, change_cost, change_fee)`; `none` where one of its
two asserts fails (no input, or a changeless selection below the target). -/
def RecalculateWaste (r : SelectionResult) (min_viable_change change_cost change_fee : Int) :
    Option SelectionResult :=
  if r.m_selected_inputs = [] then none
  else
    let waste := (r.m_selected_inputs.map fun coin => coin.fee - coin.long_term_fee).sum -
      r.bump_fee_group_discount
    if r.GetChange min_viable_change change_fee ≠ 0 then some { r with m_waste := some (waste + change_cost) }
    else
      let selected_effective_value := if r.m_use_effective then r.GetSelectedEffectiveValue else r.GetSelectedValue
      if selected_effective_value ≥ r.m_target then
        some { r with m_waste := some (waste + (selected_effective_value - r.m_target)) }
      else none

/-- `Merge(other)`: the inputs and targets of two results together. -/
def Merge (r other : SelectionResult) : SelectionResult :=
  { r with
    m_selected_inputs := r.m_selected_inputs ++ other.m_selected_inputs
    m_target := r.m_target + other.m_target
    m_use_effective := r.m_use_effective || other.m_use_effective
    m_algo := if r.m_algo = .MANUAL then other.m_algo else r.m_algo
    m_weight := r.m_weight + other.m_weight }

/-- `AddInput` over a list of groups: the inputs are the groups' outputs in order, and the
weights add up. -/
theorem addInputs_spec (r : SelectionResult) (groups : List OutputGroup) :
    (groups.foldl AddInput r).m_selected_inputs = r.m_selected_inputs ++ (groups.map OutputGroup.m_outputs).flatten ∧
      (groups.foldl AddInput r).m_weight = r.m_weight + (groups.map OutputGroup.m_weight).sum := by
  induction groups generalizing r with
  | nil => simp
  | cons g groups ih =>
    rw [List.foldl_cons, (ih _).1, (ih _).2]
    simp only [AddInput, List.map_cons, List.flatten_cons, List.sum_cons, List.append_assoc, Int.add_assoc,
      and_self]

end SelectionResult

/-- `util::Error{}` of the algorithms: no message. -/
def ErrorNoSolution : String := ""

/-- `ErrorMaxWeightExceeded()`. -/
def ErrorMaxWeightExceeded : String :=
  "The inputs size exceeds the maximum weight. Please try sending a smaller amount or manually consolidating your wallet\x27s UTXOs"

/-- `GenerateChangeTarget(payment_value, change_fee, rng)`, with `rng.randrange` given as a
function. -/
def GenerateChangeTarget (payment_value change_fee : Int) (randrange : Int → Int) : Int :=
  if payment_value ≤ CHANGE_LOWER / 2 then change_fee + CHANGE_LOWER
  else
    let upper_bound := min (payment_value * 2) CHANGE_UPPER
    change_fee + randrange (upper_bound - CHANGE_LOWER) + CHANGE_LOWER

end Wallet

end Riecoin
