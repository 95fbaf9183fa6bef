-- SUMMARY: The correctness of the SelectCoinsBnB search: a returned selection is always a changeless solution (amount between the target and the target plus the cost of change, weight within the limit) of distinct pool groups, and on pools where the prunings are sound a completed search returns one of least waste, and errors only when every solution wastes at least MAX_MONEY.
import Riecoin.Wallet.BranchAndBound

/-!
# Correctness of SelectCoinsBnB

The loop keeps the invariants of the `CoinGrinder` search (`Riecoin.Wallet.CoinGrinderSearch`)
with the waste in place of the weight: the selection and its sums (`SelInv`), the best selection,
a solution with its waste or none with `MAX_MONEY` (`BestInv`), and that no set of positions the
walk has passed is a solution of less waste (`Covered` of `Settled`).

That no solution is passed rests on the pool (`BnBPre`): the lookahead and the weight and
overshoot prunings need positive amounts and weights that are not negative; the waste pruning,
taken at a high feerate, needs every group's waste `fee - long_term_fee` to be not negative; the
SHIFT after a solution needs every group to add no less to the amount than it saves in waste;
and clone skipping, which compares amounts only, needs the lower-waste group of one amount to be
no heavier. `Settled` carries these conditions as a premise, so the same invariant gives that
every result is a solution on every pool (`selectCoinsBnB_ok`), and that the result has the
least waste on the pools that meet them (`selectCoinsBnB_error` for the error).
-/

namespace Riecoin

namespace Wallet

namespace BnB

open InclusionTree OutputGroup CheckedInt

/-! ## The invariants -/

/-- A changeless solution: its amount between the target and the target plus the cost of
change, its weight within the limit. -/
def InWindow (c : BnBInput) (T : List Nat) : Prop :=
  c.selection_target ≤ amountOf c.utxo_pool T ∧ amountOf c.utxo_pool T ≤ c.selection_target + c.cost_of_change ∧
    weightOf c.utxo_pool T ≤ c.max_selection_weight

/-- The pools on which no pruning of the search passes over a solution of less waste. -/
structure BnBPre (c : BnBInput) : Prop where
  amount_pos : ∀ g ∈ c.utxo_pool, 0 < g.GetSelectionAmount
  weight_nonneg : ∀ g ∈ c.utxo_pool, 0 ≤ g.m_weight
  waste_nonneg : c.is_feerate_high = true → ∀ i < c.utxo_pool.length, 0 ≤ ws c.utxo_pool i
  excess : ∀ i < c.utxo_pool.length, 0 ≤ ws c.utxo_pool i + amt c.utxo_pool i
  clone_weight : ∀ i j, i < j → j < c.utxo_pool.length → amt c.utxo_pool i = amt c.utxo_pool j →
    wt c.utxo_pool i ≤ wt c.utxo_pool j

/-- `T` is a solution of less waste than the best selection of `st`. -/
def Improves (c : BnBInput) (st : BnBState) (T : List Nat) : Prop :=
  InWindow c T ∧ wasteOf c.utxo_pool c.selection_target T < st.best_waste

/-- On a pool where the prunings are sound, `T` is no solution of less waste than the best
selection of `st`. -/
def Settled (c : BnBInput) (st : BnBState) (T : List Nat) : Prop := BnBPre c → ¬ Improves c st T

/-- The search loop is set up as `SelectCoinsBnB` sets it up: a sorted pool and its lookahead. -/
structure BnBReady (c : BnBInput) : Prop where
  sorted : DescSorted c.utxo_pool
  lookahead : c.lookahead = (bnbTails c.utxo_pool).1

/-- The current selection: increasing positions, with its amount, weight and inputs' waste. -/
structure SelInv (c : BnBInput) (st : BnBState) : Prop where
  increasing : st.curr_selection.reverse.Pairwise (· < ·)
  amount_eq : st.curr_amount = amountOf c.utxo_pool st.curr_selection
  weight_eq : st.curr_weight = weightOf c.utxo_pool st.curr_selection
  waste_eq : st.curr_selection_waste = inputWasteOf c.utxo_pool st.curr_selection

/-- The best selection: none yet, with `MAX_MONEY` as its waste, or a solution with its waste. -/
structure BestInv (c : BnBInput) (st : BnBState) : Prop where
  of_nil : st.best_selection = [] → st.best_waste = MAX_MONEY
  node : st.best_selection ≠ [] → Node c.utxo_pool.length st.best_selection.reverse
  window : st.best_selection ≠ [] → InWindow c st.best_selection.reverse
  waste_eq : st.best_selection ≠ [] → st.best_waste = wasteOf c.utxo_pool c.selection_target st.best_selection.reverse

/-- The invariant at the top of the search loop. -/
structure TopInv (c : BnBInput) (st : BnBState) : Prop where
  sel : SelInv c st
  best : BestInv c st
  lt_next : ∀ j ∈ st.curr_selection, j < st.next_utxo
  next_lt : st.next_utxo < c.utxo_pool.length
  covered : Covered c.utxo_pool.length (Settled c st) (st.curr_selection.reverse ++ [st.next_utxo])

/-- The invariant of the `while (should_shift)` loop. -/
structure ShiftInv (c : BnBInput) (st : BnBState) : Prop where
  sel : SelInv c st
  best : BestInv c st
  lt_last : ∀ j ∈ st.curr_selection, j + 1 < c.utxo_pool.length
  closed : Closed c.utxo_pool.length (Settled c st) st.curr_selection.reverse

/-- Two states that agree on the walk. -/
structure SameWalk (st st' : BnBState) : Prop where
  curr_selection : st'.curr_selection = st.curr_selection
  curr_amount : st'.curr_amount = st.curr_amount
  curr_weight : st'.curr_weight = st.curr_weight
  curr_selection_waste : st'.curr_selection_waste = st.curr_selection_waste
  next_utxo : st'.next_utxo = st.next_utxo

/-- Two states with the same best selection. -/
structure SameBest (st st' : BnBState) : Prop where
  best_selection : st'.best_selection = st.best_selection
  best_waste : st'.best_waste = st.best_waste

theorem Settled.congr {c : BnBInput} {st st' : BnBState} (h : SameBest st st') : Settled c st' = Settled c st := by
  funext T
  rw [Settled, Settled, Improves, Improves, h.best_waste]

theorem BestInv.of_sameBest {c : BnBInput} {st st' : BnBState} (hb : BestInv c st) (h : SameBest st st') :
    BestInv c st' := by
  obtain ⟨h₁, h₂⟩ := h
  exact ⟨h₁ ▸ h₂ ▸ hb.of_nil, h₁ ▸ hb.node, h₁ ▸ hb.window, h₁ ▸ h₂ ▸ hb.waste_eq⟩

theorem SelInv.of_sameWalk {c : BnBInput} {st st' : BnBState} (h : SelInv c st) (hw : SameWalk st st') :
    SelInv c st' where
  increasing := hw.curr_selection ▸ h.increasing
  amount_eq := by rw [hw.curr_amount, hw.curr_selection, h.amount_eq]
  weight_eq := by rw [hw.curr_weight, hw.curr_selection, h.weight_eq]
  waste_eq := by rw [hw.curr_selection_waste, hw.curr_selection, h.waste_eq]

theorem SelInv.lt_of_cons {c : BnBInput} {st : BnBState} {k : Nat} {S : List Nat} (h : SelInv c st)
    (hsel : st.curr_selection = k :: S) : ∀ j ∈ S, j < k := by
  have := h.increasing
  rw [hsel, List.reverse_cons, List.pairwise_append] at this
  exact fun j hj => this.2.2 j (List.mem_reverse.mpr hj) k (List.mem_singleton_self k)

/-! ## Selecting and deselecting -/

section Moves

variable (pool : List OutputGroup) (st : BnBState)

@[simp] theorem select_curr_selection : (st.select pool).curr_selection = st.next_utxo :: st.curr_selection := rfl

theorem deselectLast_of_cons {i : Nat} {rest : List Nat} (h : st.curr_selection = i :: rest) :
    st.deselectLast pool = { st with
      curr_amount := st.curr_amount - amt pool i
      curr_weight := st.curr_weight - wt pool i
      curr_selection_waste := st.curr_selection_waste - ws pool i
      curr_selection := rest } := by
  rw [BnBState.deselectLast, h]
  rfl

theorem sameBest_deselectLast : SameBest st (st.deselectLast pool) := by
  unfold BnBState.deselectLast
  split <;> exact ⟨rfl, rfl⟩

theorem deselectLast_curr_selection {i : Nat} {rest : List Nat} (h : st.curr_selection = i :: rest) :
    (st.deselectLast pool).curr_selection = rest := by
  rw [deselectLast_of_cons pool st h]

end Moves

theorem SelInv.select {c : BnBInput} {st : BnBState} (h : SelInv c st)
    (hlt : ∀ j ∈ st.curr_selection, j < st.next_utxo) : SelInv c (st.select c.utxo_pool) where
  increasing := by
    rw [select_curr_selection, List.reverse_cons, List.pairwise_append]
    exact ⟨h.increasing, List.pairwise_singleton _ _, fun a ha b hb => by
      rw [List.mem_singleton.mp hb]; exact hlt a (List.mem_reverse.mp ha)⟩
  amount_eq := by simp [BnBState.select, h.amount_eq, amt, Int.add_comm]
  weight_eq := by simp [BnBState.select, h.weight_eq, wt, Int.add_comm]
  waste_eq := by simp [BnBState.select, h.waste_eq, ws, Int.add_comm]

theorem SelInv.deselectLast {c : BnBInput} {st : BnBState} {i : Nat} {rest : List Nat}
    (h : SelInv c st) (hsel : st.curr_selection = i :: rest) : SelInv c (st.deselectLast c.utxo_pool) := by
  rw [deselectLast_of_cons c.utxo_pool st hsel]
  have hinc := h.increasing
  rw [hsel, List.reverse_cons, List.pairwise_append] at hinc
  exact ⟨hinc.1, by rw [h.amount_eq, hsel]; simp, by rw [h.weight_eq, hsel]; simp,
    by rw [h.waste_eq, hsel]; simp⟩

/-! ## Sets that are settled -/

section Settled

variable {c : BnBInput} {st : BnBState} {T : List Nat}

theorem settled_of_not_inWindow (h : BnBPre c → ¬ InWindow c T) : Settled c st T :=
  fun hpre hi => h hpre hi.1

theorem settled_of_le_waste (h : BnBPre c → InWindow c T → st.best_waste ≤ wasteOf c.utxo_pool c.selection_target T) :
    Settled c st T := by
  rintro hpre ⟨hw, hlt⟩
  have := h hpre hw
  omega

/-- Clone skipping: a set that takes a group of the amount of the omitted one before it is a
solution only if the set with the predecessor in its place is one, of no more waste. -/
theorem settled_cloneClosed (hs : DescSorted c.utxo_pool) : CloneClosed c.utxo_pool (Settled c st) := by
  intro Q W j hj heq hT h hpre ⟨⟨hlo, hhi, hwt⟩, hwaste⟩
  have hjn := hT.cons_right.2.1
  have hw := hpre.clone_weight (j - 1) j (by omega) hjn heq
  have hws := (hs.amt_le (show j - 1 < j by omega) hjn).2 heq.symm
  refine h hpre ⟨⟨?_, ?_, ?_⟩, ?_⟩ <;>
    simp only [wasteOf, amountOf_append, amountOf_cons, weightOf_append, weightOf_cons, inputWasteOf_append,
      inputWasteOf_cons] at * <;> omega

end Settled

/-! ## EVALUATE -/

/-- What `bnbEvaluate` guarantees for the selection `P ++ [k]` it has just made. -/
structure EvalSpec (c : BnBInput) (P : List Nat) (k : Nat) (st : BnBState) (cut shift : Bool)
    (st' : BnBState) : Prop where
  walk : SameWalk st st'
  best : BestInv c st'
  mono : ∀ T, Settled c st T → Settled c st' T
  self : Settled c st' (P ++ [k])
  cut : cut = true → ∀ y W, k ≤ y → Node c.utxo_pool.length (P ++ y :: W) → Settled c st' (P ++ y :: W)
  shift : shift = true → ∀ W, Node c.utxo_pool.length (P ++ k :: W) → Settled c st' (P ++ k :: W)

section Evaluate

variable {c : BnBInput} {st : BnBState} {P : List Nat} {k : Nat}

/-- The outcomes that keep the best selection. -/
theorem EvalSpec.keep {cut shift : Bool} (hbest : BestInv c st) (b : Bool) (hself : Settled c st (P ++ [k]))
    (hcut : cut = true → ∀ y W, k ≤ y → Node c.utxo_pool.length (P ++ y :: W) → Settled c st (P ++ y :: W))
    (hshift : shift = true → ∀ W, Node c.utxo_pool.length (P ++ k :: W) → Settled c st (P ++ k :: W)) :
    EvalSpec c P k st cut shift { st with max_tx_weight_exceeded := b } where
  walk := ⟨rfl, rfl, rfl, rfl, rfl⟩
  best := hbest.of_sameBest ⟨rfl, rfl⟩
  mono _ h := h
  self := hself
  cut := hcut
  shift := hshift

variable (hr : BnBReady c) (hbest : BestInv c st) (hX : Node c.utxo_pool.length (P ++ [k]))
  (hA : st.curr_amount = amountOf c.utxo_pool (P ++ [k])) (hW : st.curr_weight = weightOf c.utxo_pool (P ++ [k]))
  (hE : st.curr_selection_waste = inputWasteOf c.utxo_pool (P ++ [k]))

include hr hbest hX hA in
/-- Insufficient funds with lookahead: CUT. -/
theorem evalSpec_lookahead (h : st.curr_amount + c.lookahead[k]! < c.selection_target) :
    EvalSpec c P k st true false st := by
  have hk : k < c.utxo_pool.length := hX.lt k (by simp)
  have hla : c.lookahead[k]! = ((c.utxo_pool.drop (k + 1)).map GetSelectionAmount).sum := by
    rw [hr.lookahead, lookahead_bnbTails _ hk]
  have hcut : ∀ y W, k ≤ y → Node c.utxo_pool.length (P ++ y :: W) → Settled c st (P ++ y :: W) :=
    fun y W hky hT => settled_of_not_inWindow fun hpre hw => by
      have := amountOf_le_lookahead hpre.amount_pos hT hky
      have := hw.1
      omega
  exact EvalSpec.keep hbest st.max_tx_weight_exceeded (hcut k [] le_rfl hX) (fun _ => hcut) (by simp)

include hbest hW in
/-- Over the weight limit: SHIFT. -/
theorem evalSpec_heavy (h : st.curr_weight > c.max_selection_weight) :
    EvalSpec c P k st false true { st with max_tx_weight_exceeded := true } := by
  have hshift : ∀ W, Node c.utxo_pool.length (P ++ k :: W) → Settled c st (P ++ k :: W) :=
    fun W hT => settled_of_not_inWindow fun hpre hw => by
      have := (le_of_extends hpre.amount_pos hpre.weight_nonneg hT).1
      have := hw.2.2
      omega
  exact EvalSpec.keep hbest true (settled_of_not_inWindow fun _ hw => by have := hw.2.2; omega) (by simp)
    (fun _ => hshift)

include hbest hA in
/-- Over the target range: SHIFT. -/
theorem evalSpec_overshoot (h : st.curr_amount > c.selection_target + c.cost_of_change) :
    EvalSpec c P k st false true st := by
  have hshift : ∀ W, Node c.utxo_pool.length (P ++ k :: W) → Settled c st (P ++ k :: W) :=
    fun W hT => settled_of_not_inWindow fun hpre hw => by
      have := (le_of_extends hpre.amount_pos hpre.weight_nonneg hT).2
      have := hw.2.1
      omega
  exact EvalSpec.keep hbest st.max_tx_weight_exceeded (settled_of_not_inWindow fun _ hw => by have := hw.2.1; omega)
    (by simp) (fun _ => hshift)

include hbest hX hE in
/-- At a high feerate, inputs that already waste more than the best selection: SHIFT. -/
theorem evalSpec_wasteful (h : c.is_feerate_high = true ∧ st.curr_selection_waste > st.best_waste) :
    EvalSpec c P k st false true st := by
  -- a solution in the subtree wastes at least the inputs of `P ++ [k]`
  have hshift : ∀ W, Node c.utxo_pool.length (P ++ k :: W) → Settled c st (P ++ k :: W) := by
    intro W hT
    refine settled_of_le_waste fun hpre hw => ?_
    have hWw : 0 ≤ inputWasteOf c.utxo_pool W := List.sum_nonneg fun x hx => by
      obtain ⟨j, hj, rfl⟩ := List.mem_map.mp hx
      exact hpre.waste_nonneg h.1 j (hT.cons_right.2.2 j hj)
    have := hw.1
    simp only [wasteOf, inputWasteOf_append, inputWasteOf_cons, inputWasteOf_nil, amountOf_append,
      amountOf_cons] at hE this ⊢
    omega
  exact EvalSpec.keep hbest st.max_tx_weight_exceeded (hshift [] hX) (by simp) (fun _ => hshift)

/-- What extends a solution in the subtree of `P ++ [k]` wastes no less than `P ++ [k]`. -/
theorem waste_le_of_extends (hpre : BnBPre c) {W : List Nat} (hT : Node c.utxo_pool.length (P ++ k :: W)) :
    wasteOf c.utxo_pool c.selection_target (P ++ [k]) ≤ wasteOf c.utxo_pool c.selection_target (P ++ k :: W) := by
  have hWe : 0 ≤ inputWasteOf c.utxo_pool W + amountOf c.utxo_pool W := by
    rw [inputWasteOf, amountOf, ← List.sum_map_add]
    exact List.sum_nonneg fun x hx => by
      obtain ⟨j, hj, rfl⟩ := List.mem_map.mp hx
      exact hpre.excess j (hT.cons_right.2.2 j hj)
  simp only [wasteOf, inputWasteOf_append, inputWasteOf_cons, inputWasteOf_nil, amountOf_append,
    amountOf_cons, amountOf_nil]
  omega

include hX hA hW hE in
/-- A solution of no more waste than the best selection: it becomes the best selection, and
SHIFT. -/
theorem evalSpec_improve (hrev : st.curr_selection.reverse = P ++ [k])
    (hlight : ¬ st.curr_weight > c.max_selection_weight)
    (hover : ¬ st.curr_amount > c.selection_target + c.cost_of_change) (hf : st.curr_amount ≥ c.selection_target)
    (hle : st.curr_selection_waste + (st.curr_amount - c.selection_target) ≤ st.best_waste) :
    EvalSpec c P k st false true { st with
      best_selection := st.curr_selection
      best_waste := st.curr_selection_waste + (st.curr_amount - c.selection_target) } := by
  have hne : st.curr_selection ≠ [] := fun h => by simp [h] at hrev
  have hwaste : st.curr_selection_waste + (st.curr_amount - c.selection_target) =
      wasteOf c.utxo_pool c.selection_target (P ++ [k]) := by
    rw [wasteOf, ← hE, ← hA]
  refine ⟨⟨rfl, rfl, rfl, rfl, rfl⟩, ⟨fun h => absurd h hne, fun _ => hrev ▸ hX, fun _ => ?_, fun _ => ?_⟩,
    fun T hT => ?_, ?_, by simp, fun _ W hT => ?_⟩
  · rw [hrev]
    exact ⟨by omega, by omega, by omega⟩
  · rw [hrev]
    exact hwaste
  · -- a solution of less waste than the new best has less waste than the old one
    rintro hpre ⟨hw, hlt⟩
    exact hT hpre ⟨hw, by dsimp only at hlt; omega⟩
  · rintro - ⟨-, hlt⟩
    dsimp only at hlt
    omega
  · rintro hpre ⟨-, hlt⟩
    have := waste_le_of_extends hpre hT
    dsimp only at hlt
    omega

include hbest hA hE in
/-- A solution of more waste than the best selection: SHIFT. -/
theorem evalSpec_keep_solution
    (hle : ¬ st.curr_selection_waste + (st.curr_amount - c.selection_target) ≤ st.best_waste) :
    EvalSpec c P k st false true st := by
  have hwaste : st.curr_selection_waste + (st.curr_amount - c.selection_target) =
      wasteOf c.utxo_pool c.selection_target (P ++ [k]) := by
    rw [wasteOf, ← hE, ← hA]
  refine EvalSpec.keep hbest st.max_tx_weight_exceeded (settled_of_le_waste fun _ _ => by omega) (by simp)
    fun _ W hT => settled_of_le_waste fun hpre _ => ?_
  have := waste_le_of_extends hpre hT
  omega

include hbest hA in
/-- Not enough yet: EXPLORE. -/
theorem evalSpec_explore (hshort : ¬ st.curr_amount ≥ c.selection_target) : EvalSpec c P k st false false st :=
  EvalSpec.keep hbest st.max_tx_weight_exceeded (settled_of_not_inWindow fun _ hw => by have := hw.1; omega)
    (by simp) (by simp)

end Evaluate

/-- EVALUATE, for the selection `S.reverse ++ [k]` just made: one case per rule. -/
theorem evaluate_spec {c : BnBInput} {st : BnBState} {k : Nat} {S : List Nat} (hr : BnBReady c)
    (hsel : SelInv c st) (hbest : BestInv c st) (hcurr : st.curr_selection = k :: S) (hk : k < c.utxo_pool.length) :
    EvalSpec c S.reverse k st (bnbEvaluate c k st).1 (bnbEvaluate c k st).2.1 (bnbEvaluate c k st).2.2 := by
  have hrev : st.curr_selection.reverse = S.reverse ++ [k] := by rw [hcurr, List.reverse_cons]
  have hX : Node c.utxo_pool.length (S.reverse ++ [k]) := by
    refine ⟨by simp, hrev ▸ hsel.increasing, fun i hi => ?_⟩
    rcases List.mem_append.mp hi with hi | hi
    · exact (hsel.lt_of_cons hcurr i (List.mem_reverse.mp hi)).trans hk
    · rw [List.mem_singleton.mp hi]; exact hk
  have hA : st.curr_amount = amountOf c.utxo_pool (S.reverse ++ [k]) := by
    rw [← hrev, amountOf_reverse, hsel.amount_eq]
  have hW : st.curr_weight = weightOf c.utxo_pool (S.reverse ++ [k]) := by
    rw [← hrev, weightOf_reverse, hsel.weight_eq]
  have hE : st.curr_selection_waste = inputWasteOf c.utxo_pool (S.reverse ++ [k]) := by
    rw [← hrev, inputWasteOf_reverse, hsel.waste_eq]
  unfold bnbEvaluate
  dsimp only
  split_ifs with h1 h2 h3 h4 h5 h6
  · exact evalSpec_lookahead hr hbest hX hA h1
  · exact evalSpec_heavy hbest hW h2
  · exact evalSpec_overshoot hbest hA h3
  · exact evalSpec_wasteful hbest hX hE h4
  · exact evalSpec_improve hX hA hW hE hrev h2 h3 h5 h6
  · exact evalSpec_keep_solution hbest hA hE h6
  · exact evalSpec_explore hbest hA h5

/-! ## SHIFT -/

/-- The `while (should_shift)` loop: it ends with the tree exhausted and every set of positions
settled, or at a new top of the search loop. -/
theorem shiftLoop_spec {c : BnBInput} (hs : DescSorted c.utxo_pool) (fuel : Nat) (st : BnBState)
    (hinv : ShiftInv c st) (hfuel : st.curr_selection.length < fuel) :
    (bnbShiftLoop c.utxo_pool fuel st = none → ∀ T, Node c.utxo_pool.length T → Settled c st T) ∧
      (∀ st', bnbShiftLoop c.utxo_pool fuel st = some st' → TopInv c st') := by
  induction fuel generalizing st with
  | zero => omega
  | succ fuel ih =>
    cases hcs : st.curr_selection with
    | nil =>
      have hclosed := hinv.closed
      rw [hcs, List.reverse_nil] at hclosed
      simp only [bnbShiftLoop, hcs]
      exact ⟨fun _ => hclosed.all, by simp⟩
    | cons i rest =>
      have hclosed := hinv.closed
      rw [hcs, List.reverse_cons] at hclosed
      have hi : i + 1 < c.utxo_pool.length := hinv.lt_last i (by simp [hcs])
      have hrest := hinv.sel.lt_of_cons hcs
      have hskip := skipClones_spec (settled_cloneClosed hs) c.utxo_pool.length (i + 1) (Q := rest.reverse)
        (fun q hq => by have := hrest q (List.mem_reverse.mp hq); omega) (by omega) hi (by omega)
        hclosed.covered_next
      simp only [bnbShiftLoop, hcs]
      generalize skipClones c.utxo_pool c.utxo_pool.length (i + 1) = r at hskip ⊢
      obtain ⟨j, sh⟩ := r
      rw [deselectLast_of_cons c.utxo_pool st hcs]
      -- the state after dropping `i`, with `next_utxo` at `j`
      have hsel := hinv.sel.deselectLast hcs
      rw [deselectLast_of_cons c.utxo_pool st hcs] at hsel
      set st' : BnBState := { st with
          curr_amount := st.curr_amount - amt c.utxo_pool i
          curr_weight := st.curr_weight - wt c.utxo_pool i
          curr_selection_waste := st.curr_selection_waste - ws c.utxo_pool i
          curr_selection := rest
          next_utxo := j } with hst'
      have hsel' : SelInv c st' := ⟨hsel.increasing, hsel.amount_eq, hsel.weight_eq, hsel.waste_eq⟩
      have hsame : SameBest st st' := ⟨rfl, rfl⟩
      have hcurr' : st'.curr_selection = rest := rfl
      cases sh with
      | true =>
        have hinv' : ShiftInv c st' :=
          ⟨hsel', hinv.best.of_sameBest hsame, fun q hq => by rw [hcurr'] at hq; have := hrest q hq; omega,
            (Settled.congr hsame).symm ▸ hcurr' ▸ hskip.1 rfl⟩
        have hnext := ih st' hinv' (by simp only [hcs, List.length_cons] at hfuel; rw [hcurr']; omega)
        rw [Settled.congr hsame] at hnext
        simpa using hnext
      | false =>
        obtain ⟨hij, hjn, hcov⟩ := hskip.2 rfl
        refine ⟨by simp, fun st'' hst'' => ?_⟩
        simp only [Bool.false_eq_true, ↓reduceIte, Option.some.injEq] at hst''
        subst hst''
        exact ⟨hsel', hinv.best.of_sameBest hsame,
          fun q hq => by rw [hcurr'] at hq; have := hrest q hq; show q < j; omega, hjn,
          (Settled.congr hsame).symm ▸ hcurr' ▸ hcov⟩

/-! ## The iteration and the loop -/

/-- What an iteration of the search loop leaves: the next top of the loop; or the end of the
loop, with the best selection valid and, when the tree is exhausted, every set settled. -/
def IterPost (c : BnBInput) : BnBState × Option Bool → Prop
  | (st, none) => TopInv c st
  | (st, some true) => BestInv c st ∧ ∀ T, Node c.utxo_pool.length T → Settled c st T
  | (st, some false) => BestInv c st

section Iteration

variable {c : BnBInput} {st : BnBState}

theorem iterPost_none : IterPost c (st, none) = TopInv c st := rfl

theorem iterPost_true :
    IterPost c (st, some true) = (BestInv c st ∧ ∀ T, Node c.utxo_pool.length T → Settled c st T) := rfl

theorem iterPost_false : IterPost c (st, some false) = BestInv c st := rfl

theorem iterPost_of_shiftInv (hs : DescSorted c.utxo_pool) (hinv : ShiftInv c st) :
    IterPost c (match bnbShiftLoop c.utxo_pool (st.curr_selection.length + 1) st with
      | none => (st, some true)
      | some st => (st, none)) := by
  have hspec := shiftLoop_spec hs (st.curr_selection.length + 1) st hinv (Nat.lt_succ_self _)
  split
  · next heq => exact iterPost_true ▸ ⟨hinv.best, hspec.1 heq⟩
  · next st' heq => exact iterPost_none ▸ hspec.2 st' heq

variable (hr : BnBReady c) (hinv : TopInv c st)
include hr hinv

/-- The step lemma: one iteration of the search loop keeps its invariant, or ends the loop as
`IterPost` says. -/
theorem bnbIter_spec : IterPost c (bnbIter c st) := by
  have hk := hinv.next_lt
  have hsel1 := hinv.sel.select hinv.lt_next
  have hbest1 : BestInv c (st.select c.utxo_pool) := hinv.best.of_sameBest ⟨rfl, rfl⟩
  have hev := evaluate_spec hr hsel1 hbest1 (select_curr_selection _ _) hk
  unfold bnbIter
  dsimp only
  generalize bnbEvaluate c st.next_utxo (st.select c.utxo_pool) = out at hev ⊢
  obtain ⟨cut, shift, st2⟩ := out
  dsimp only at hev ⊢
  -- the state after EVALUATE: the selection `P ++ [k]`, with the walk covered up to it
  have hw := hev.walk
  have hcurr2 : st2.curr_selection = st.next_utxo :: st.curr_selection := hw.curr_selection
  have hnext2 : st2.next_utxo = st.next_utxo + 1 := hw.next_utxo
  have hsel2 := hsel1.of_sameWalk hw
  have hrev2 : st2.curr_selection.reverse = st.curr_selection.reverse ++ [st.next_utxo] := by
    rw [hcurr2, List.reverse_cons]
  have hcov2 : Covered c.utxo_pool.length (Settled c st2) (st.curr_selection.reverse ++ [st.next_utxo]) :=
    hinv.covered.mono fun T _ hT => hev.mono T hT
  by_cases htries : st2.curr_try ≥ TOTAL_TRIES
  · rw [if_pos htries]
    exact iterPost_false ▸ hev.best
  rw [if_neg htries]
  by_cases hcut : (cut || st2.next_utxo == c.utxo_pool.length) = true
  · -- CUT: drop `k`, the walk is closed at `P`
    rw [if_pos hcut]
    dsimp only
    rw [if_pos rfl]
    have hsame := sameBest_deselectLast c.utxo_pool st2
    have hcurr3 := deselectLast_curr_selection c.utxo_pool st2 hcurr2
    have hclosed : Closed c.utxo_pool.length (Settled c st2) st.curr_selection.reverse := by
      refine hcov2.closed_cut fun y W hky hT => ?_
      rcases Bool.or_eq_true_iff.mp hcut with hcut | hend
      · exact hev.cut hcut y W hky hT
      · -- the last group of the pool was added: the region is `P ++ [k]` alone
        have hend : st.next_utxo + 1 = c.utxo_pool.length := by rw [← hnext2]; exact beq_iff_eq.mp hend
        obtain ⟨hyW, hyn, -⟩ := hT.cons_right
        have hy : y = st.next_utxo := by omega
        have hW : W = [] := List.eq_nil_iff_forall_not_mem.mpr fun q hq => by
          have := hyW q hq; have := hT.lt q (by simp [hq]); omega
        subst hy hW
        exact hev.self
    refine iterPost_of_shiftInv hr.sorted ⟨hsel2.deselectLast hcurr2, hev.best.of_sameBest hsame, ?_, ?_⟩
    · intro q hq
      rw [hcurr3] at hq
      have := hinv.lt_next q hq
      omega
    · rw [hcurr3, Settled.congr hsame]
      exact hclosed
  rw [if_neg hcut]
  dsimp only
  have hend : st.next_utxo + 1 < c.utxo_pool.length := by
    have := (Bool.or_eq_false_iff.mp (eq_false_of_ne_true hcut)).2
    rw [hnext2] at this
    have := beq_eq_false_iff_ne.mp this
    omega
  cases shift with
  | true =>
    -- SHIFT: leave the subtree of `P ++ [k]`
    rw [if_pos rfl]
    refine iterPost_of_shiftInv hr.sorted ⟨hsel2, hev.best, fun q hq => ?_, ?_⟩
    · rw [hcurr2] at hq
      rcases List.mem_cons.mp hq with rfl | hq
      · exact hend
      · have := hinv.lt_next q hq; omega
    · rw [hrev2]
      exact hcov2.closed_shift (hev.shift rfl)
  | false =>
    -- EXPLORE: go on with the next group
    rw [if_neg Bool.false_ne_true, iterPost_none]
    refine ⟨hsel2, hev.best, fun q hq => ?_, by rw [hnext2]; exact hend, ?_⟩
    · rw [hcurr2] at hq
      rw [hnext2]
      rcases List.mem_cons.mp hq with rfl | hq
      · omega
      · have := hinv.lt_next q hq; omega
    · rw [hrev2, hnext2]
      exact hcov2.explore hev.self

end Iteration

/-- What the search loop leaves: a valid best selection, and every set settled when the loop
completed. -/
def LoopPost (c : BnBInput) : BnBState × Bool → Prop
  | (st, true) => BestInv c st ∧ ∀ T, Node c.utxo_pool.length T → Settled c st T
  | (st, false) => BestInv c st

theorem LoopPost.best {c : BnBInput} {st : BnBState} {completed : Bool} (h : LoopPost c (st, completed)) :
    BestInv c st := by
  cases completed
  · exact h
  · exact h.1

/-- The run lemma: from the top of the loop, every run of the search loop ends as `LoopPost`
says. -/
theorem bnbLoop_spec {c : BnBInput} (hr : BnBReady c) (fuel : Nat) (st : BnBState) (hinv : TopInv c st) :
    LoopPost c (bnbLoop c fuel st) := by
  induction fuel generalizing st with
  | zero => exact hinv.best
  | succ fuel ih =>
    have hiter := bnbIter_spec hr hinv
    unfold bnbLoop
    split
    · next st' completed heq =>
      rw [heq] at hiter
      cases completed
      · exact hiter
      · exact hiter
    · next st' heq =>
      rw [heq] at hiter
      exact ih st' hiter

/-- The variables before the loop satisfy its invariant. -/
theorem topInv_init {c : BnBInput} (hn : 0 < c.utxo_pool.length) : TopInv c BnBState.init where
  sel := ⟨List.Pairwise.nil, rfl, rfl, rfl⟩
  best := ⟨fun _ => rfl, fun h => absurd rfl h, fun h => absurd rfl h, fun h => absurd rfl h⟩
  lt_next _ h := absurd h List.not_mem_nil
  next_lt := hn
  covered := covered_zero

/-! ## The arithmetic of the search fits its types -/

/-- The states at the top of the search loop: the variables before it, and each state an
iteration leaves without ending the loop. -/
inductive Reaches (c : BnBInput) : BnBState → Prop
  | init : Reaches c BnBState.init
  | step {st st' : BnBState} : Reaches c st → bnbIter c st = (st', none) → Reaches c st'

/-- Every state at the top of the loop satisfies its invariant. -/
theorem Reaches.topInv {c : BnBInput} (hr : BnBReady c) (hn : 0 < c.utxo_pool.length) {st : BnBState}
    (h : Reaches c st) : TopInv c st := by
  induction h with
  | init => exact topInv_init hn
  | step _ heq ih =>
    have hiter := bnbIter_spec hr ih
    rw [heq] at hiter
    exact hiter

/-- A part of the selection `select` makes: positions of the pool, increasing read backwards. -/
theorem TopInv.part {c : BnBInput} {st : BnBState} (hinv : TopInv c st) {T : List Nat}
    (hT : T <:+ st.next_utxo :: st.curr_selection) :
    T.reverse.Pairwise (· < ·) ∧ ∀ j ∈ T, j < c.utxo_pool.length := by
  refine ⟨(hinv.sel.select hinv.lt_next).increasing.sublist (List.reverse_prefix.mpr hT).sublist,
    fun j hj => ?_⟩
  rcases List.mem_cons.mp (hT.subset hj) with rfl | hj
  · exact hinv.next_lt
  · exact (hinv.lt_next j hj).trans hinv.next_lt

/-- The `CAmount` and `int` arithmetic of one iteration of the search loop from `st`, each
within its type: the sums `select` forms with the group's waste, the lookahead sum, the excess
and the waste of a solution, and the sums that each `deselect_last` of the iteration leaves
(it removes the last group of a selection that ends in `i :: rest`). -/
structure IterFits (c : BnBInput) (st : BnBState) : Prop where
  select_amount : InRange 64 (st.curr_amount + amt c.utxo_pool st.next_utxo)
  select_weight : InRange 32 (st.curr_weight + wt c.utxo_pool st.next_utxo)
  select_waste : InRange 64 (ws c.utxo_pool st.next_utxo) ∧
    InRange 64 (st.curr_selection_waste + ws c.utxo_pool st.next_utxo)
  lookahead : InRange 64 (st.curr_amount + amt c.utxo_pool st.next_utxo + c.lookahead[st.next_utxo]!)
  excess : InRange 64 (st.curr_amount + amt c.utxo_pool st.next_utxo - c.selection_target) ∧
    InRange 64 (st.curr_selection_waste + ws c.utxo_pool st.next_utxo +
      (st.curr_amount + amt c.utxo_pool st.next_utxo - c.selection_target))
  deselect : ∀ i rest, i :: rest <:+ st.next_utxo :: st.curr_selection →
    InRange 64 (ws c.utxo_pool i) ∧ InRange 64 (amountOf c.utxo_pool rest) ∧
      InRange 32 (weightOf c.utxo_pool rest) ∧ InRange 64 (inputWasteOf c.utxo_pool rest)

section Fits

variable {c : BnBInput} {st : BnBState} (hr : BnBReady c) (hrange : BnBRange c.utxo_pool)
  (hinv : TopInv c st)
include hrange hinv

/-- The sums over a part of the selection `select` makes, which holds distinct positions, stay
within the pool's. -/
theorem part_bounds {T : List Nat} (hT : T <:+ st.next_utxo :: st.curr_selection) :
    |amountOf c.utxo_pool T| ≤ MAX_MONEY ∧ |weightOf c.utxo_pool T| ≤ INT_MAX ∧
      |inputWasteOf c.utxo_pool T| ≤ MAX_MONEY := by
  obtain ⟨hinc, hlt⟩ := hinv.part hT
  exact ⟨hrange.abs_amountOf_le hinc hlt, hrange.abs_weightOf_le hinc hlt, hrange.abs_inputWasteOf_le hinc hlt⟩

/-- The waste of a group the selection holds, one position of it, is at most `MAX_MONEY` in
absolute value. -/
theorem ws_bound {i : Nat} {rest : List Nat} (hT : i :: rest <:+ st.next_utxo :: st.curr_selection) :
    |ws c.utxo_pool i| ≤ MAX_MONEY :=
  hrange.abs_ws_le ((hinv.part hT).2 i List.mem_cons_self)

include hr in
/-- One iteration from a state that satisfies the invariant computes within its types, for
`MoneyRange` targets. -/
theorem iterFits_of_topInv (htarget : 0 ≤ c.selection_target ∧ c.selection_target ≤ MAX_MONEY) :
    IterFits c st := by
  have hsel := hinv.sel.select hinv.lt_next
  have hself : st.next_utxo :: st.curr_selection <:+ st.next_utxo :: st.curr_selection := List.suffix_refl _
  obtain ⟨hA, hW, hE⟩ := part_bounds hrange hinv hself
  have hw := ws_bound hrange hinv hself
  -- the sums `select` forms are the sums of the selection it makes
  have hA' : st.curr_amount + amt c.utxo_pool st.next_utxo = amountOf c.utxo_pool (st.next_utxo :: st.curr_selection) := by
    rw [amountOf_cons, hinv.sel.amount_eq, Int.add_comm]
  have hW' : st.curr_weight + wt c.utxo_pool st.next_utxo = weightOf c.utxo_pool (st.next_utxo :: st.curr_selection) := by
    rw [weightOf_cons, hinv.sel.weight_eq, Int.add_comm]
  have hE' : st.curr_selection_waste + ws c.utxo_pool st.next_utxo =
      inputWasteOf c.utxo_pool (st.next_utxo :: st.curr_selection) := by
    rw [inputWasteOf_cons, hinv.sel.waste_eq, Int.add_comm]
  have hL : |c.lookahead[st.next_utxo]!| ≤ MAX_MONEY := by
    rw [hr.lookahead, lookahead_bnbTails _ hinv.next_lt]
    exact hrange.abs_drop_le _
  rw [← hA'] at hA
  rw [← hW'] at hW
  rw [← hE'] at hE
  obtain ⟨hA1, hA2⟩ := abs_le.mp hA
  obtain ⟨hE1, hE2⟩ := abs_le.mp hE
  obtain ⟨hL1, hL2⟩ := abs_le.mp hL
  obtain ⟨hw1, hw2⟩ := abs_le.mp hw
  rw [MAX_MONEY_eq] at hA1 hA2 hE1 hE2 hL1 hL2 hw1 hw2 htarget
  refine ⟨inRange_64 (by omega) (by omega), inRange_of_abs_le_int hW,
    ⟨inRange_64 (by omega) (by omega), inRange_64 (by omega) (by omega)⟩, inRange_64 (by omega) (by omega),
    ⟨inRange_64 (by omega) (by omega), inRange_64 (by omega) (by omega)⟩, fun i rest hsuf => ?_⟩
  -- a `deselect_last` leaves the sums of a part of the selection
  obtain ⟨hR, hRW, hRE⟩ := part_bounds hrange hinv ((List.suffix_cons i rest).trans hsuf)
  obtain ⟨hi1, hi2⟩ := abs_le.mp (ws_bound hrange hinv hsuf)
  obtain ⟨hR1, hR2⟩ := abs_le.mp hR
  obtain ⟨hRE1, hRE2⟩ := abs_le.mp hRE
  rw [MAX_MONEY_eq] at hi1 hi2 hR1 hR2 hRE1 hRE2
  exact ⟨inRange_64 (by omega) (by omega), inRange_64 (by omega) (by omega), inRange_of_abs_le_int hRW,
    inRange_64 (by omega) (by omega)⟩

end Fits

/-- On a pool within the types of its sums and with a `MoneyRange` target, no iteration of
the search loop, from any state it reaches, overflows. -/
theorem Reaches.iterFits {c : BnBInput} (hr : BnBReady c) (hrange : BnBRange c.utxo_pool)
    (htarget : 0 ≤ c.selection_target ∧ c.selection_target ≤ MAX_MONEY) (hn : 0 < c.utxo_pool.length)
    {st : BnBState} (h : Reaches c st) : IterFits c st :=
  iterFits_of_topInv hr hrange (h.topInv hr hn) htarget

/-! ## The result -/

/-- The pools on which the search of `SelectCoinsBnB` passes over no solution of less waste:
positive amounts, weights that are not negative, one sign of waste for every group (one
feerate against one long-term feerate), no group worth less than its long-term fee, and among
groups of one amount the one of lower waste no heavier. -/
structure BnBPool (utxo_pool : List OutputGroup) : Prop where
  amount_pos : ∀ g ∈ utxo_pool, 0 < g.GetSelectionAmount
  weight_nonneg : ∀ g ∈ utxo_pool, 0 ≤ g.m_weight
  waste_sign : (∀ g ∈ utxo_pool, g.long_term_fee ≤ g.fee) ∨ (∀ g ∈ utxo_pool, g.fee ≤ g.long_term_fee)
  excess : ∀ g ∈ utxo_pool, g.long_term_fee ≤ g.GetSelectionAmount + g.fee
  clone_weight : ∀ a ∈ utxo_pool, ∀ b ∈ utxo_pool, a.GetSelectionAmount = b.GetSelectionAmount →
    a.fee - a.long_term_fee ≤ b.fee - b.long_term_fee → a.m_weight ≤ b.m_weight

theorem BnBPool.perm {S S' : List OutputGroup} (h : BnBPool S) (hp : S.Perm S') : BnBPool S' where
  amount_pos g hg := h.amount_pos g (hp.symm.subset hg)
  weight_nonneg g hg := h.weight_nonneg g (hp.symm.subset hg)
  waste_sign := h.waste_sign.imp (fun h' g hg => h' g (hp.symm.subset hg)) (fun h' g hg => h' g (hp.symm.subset hg))
  excess g hg := h.excess g (hp.symm.subset hg)
  clone_weight a ha b hb := h.clone_weight a (hp.symm.subset ha) b (hp.symm.subset hb)

/-- A sorted pool that meets `BnBPool` meets what the search needs. -/
theorem BnBPool.pre {pool : List OutputGroup} (h : BnBPool pool) (hs : DescSorted pool)
    (lookahead : List Int) (selection_target cost_of_change max_selection_weight : Int) :
    BnBPre ⟨pool, lookahead, selection_target, cost_of_change, max_selection_weight, isFeerateHigh pool⟩ where
  amount_pos := h.amount_pos
  weight_nonneg := h.weight_nonneg
  waste_nonneg hhigh i hi := by
    dsimp only at hhigh hi ⊢
    -- the first group pays more than its long-term fee, so every group does
    have hall : ∀ g ∈ pool, g.long_term_fee ≤ g.fee := by
      refine h.waste_sign.resolve_right fun hle => ?_
      cases pool with
      | nil => exact absurd hhigh (by simp [isFeerateHigh])
      | cons g rest =>
        have := hle g (List.mem_cons_self ..)
        simp only [isFeerateHigh, decide_eq_true_eq] at hhigh
        omega
    have := hall _ (List.getElem_mem hi)
    simp only [ws, getElem!_pos pool i hi]
    omega
  excess i hi := by
    dsimp only at hi ⊢
    have := h.excess _ (List.getElem_mem hi)
    simp only [ws, amt, getElem!_pos pool i hi]
    omega
  clone_weight i j hij hj heq := by
    dsimp only at hj heq ⊢
    have hws := (hs.amt_le hij hj).2 heq.symm
    simp only [amt, ws, wt, getElem!_pos pool i (by omega), getElem!_pos pool j hj] at heq hws ⊢
    exact h.clone_weight _ (List.getElem_mem _) _ (List.getElem_mem hj) heq hws

/-- `SelectCoinsBnB` on a sorted pool: a result is built from a set of distinct positions that is
a changeless solution; when the search completed on a pool that meets `BnBPool`, no solution
wastes less, and an error means that every solution wastes at least `MAX_MONEY`. -/
theorem bnbSorted_spec {utxo_pool : List OutputGroup} {selection_target cost_of_change max_selection_weight : Int}
    (hs : DescSorted utxo_pool) (htarget : 0 < selection_target) :
    (∀ r, (bnbSorted utxo_pool selection_target cost_of_change max_selection_weight).1 = .ok r →
      ∃ T, Node utxo_pool.length T ∧ r.m_selected_inputs = ((T.map (utxo_pool[·]!)).map m_outputs).flatten ∧
        r.m_weight = weightOf utxo_pool T ∧ selection_target ≤ amountOf utxo_pool T ∧
        amountOf utxo_pool T ≤ selection_target + cost_of_change ∧ weightOf utxo_pool T ≤ max_selection_weight ∧
        ((bnbSorted utxo_pool selection_target cost_of_change max_selection_weight).2 = true → BnBPool utxo_pool →
          ∀ T', Node utxo_pool.length T' → selection_target ≤ amountOf utxo_pool T' →
            amountOf utxo_pool T' ≤ selection_target + cost_of_change → weightOf utxo_pool T' ≤ max_selection_weight →
            wasteOf utxo_pool selection_target T ≤ wasteOf utxo_pool selection_target T')) ∧
    (∀ e, (bnbSorted utxo_pool selection_target cost_of_change max_selection_weight).1 = .error e →
      (bnbSorted utxo_pool selection_target cost_of_change max_selection_weight).2 = true → BnBPool utxo_pool →
      ∀ T, Node utxo_pool.length T → selection_target ≤ amountOf utxo_pool T →
        amountOf utxo_pool T ≤ selection_target + cost_of_change → weightOf utxo_pool T ≤ max_selection_weight →
        MAX_MONEY ≤ wasteOf utxo_pool selection_target T) := by
  unfold bnbSorted
  split
  next la total hg =>
  have htotal : total = (utxo_pool.map GetSelectionAmount).sum := by rw [← total_bnbTails, hg]
  subst htotal
  by_cases hlow : (utxo_pool.map GetSelectionAmount).sum < selection_target
  · -- insufficient funds: a pool of positive amounts has no solution
    rw [if_pos hlow]
    refine ⟨fun r h => by simp at h, fun _ _ _ hpool T hT hlo _ _ => ?_⟩
    have := amountOf_le_drop hpool.amount_pos (k := 0) hT.increasing fun j hj => ⟨Nat.zero_le j, hT.lt j hj⟩
    simp only [List.drop_zero] at this
    omega
  rw [if_neg hlow]
  -- the search loop, set up as `SelectCoinsBnB` sets it up
  have hn : 0 < utxo_pool.length := List.length_pos_iff.mpr fun h => by simp [h] at hlow; omega
  have hr : BnBReady ⟨utxo_pool, la, selection_target, cost_of_change, max_selection_weight, isFeerateHigh utxo_pool⟩ :=
    ⟨hs, by rw [hg]⟩
  extract_lets c
  split
  next st completed hL =>
  have hpost := hL ▸ bnbLoop_spec hr TOTAL_TRIES _ (topInv_init hn)
  have hbest := hpost.best
  dsimp only
  by_cases hnil : st.best_selection = []
  · -- no best selection: with the search completed, every solution wastes at least `MAX_MONEY`
    rw [if_pos hnil]
    refine ⟨fun r h => by simp at h, fun _ _ hcomp hpool T hT hlo hhi hw => ?_⟩
    subst hcomp
    have hmax := hbest.of_nil hnil
    have hset := hpost.2 T hT (hpool.pre hs _ _ _ _)
    by_contra hlt
    exact hset ⟨⟨hlo, hhi, hw⟩, show wasteOf utxo_pool selection_target T < st.best_waste by rw [hmax]; omega⟩
  · -- the result of the best selection
    rw [if_neg hnil]
    refine ⟨fun r h => ?_, fun e h => by simp at h⟩
    simp only [Except.ok.injEq] at h
    subst h
    rw [← List.foldl_map]
    have hres := SelectionResult.addInputs_spec
      (((SelectionResult.init selection_target .BNB).SetAlgoCompleted completed).SetSelectionsEvaluated st.curr_try)
      (st.best_selection.reverse.map (utxo_pool[·]!))
    obtain ⟨hlo, hhi, hw⟩ := hbest.window hnil
    refine ⟨st.best_selection.reverse, hbest.node hnil, by rw [hres.1]; rfl, ?_, hlo, hhi, hw,
      fun hcomp hpool T' hT' hlo' hhi' hw' => ?_⟩
    · rw [hres.2, ← weightOf_eq_map]
      exact Int.zero_add _
    · -- the completed search: no solution wastes less than the best selection
      subst hcomp
      have hset := hpost.2 T' hT' (hpool.pre hs _ _ _ _)
      have hwaste : st.best_waste = wasteOf utxo_pool selection_target st.best_selection.reverse :=
        hbest.waste_eq hnil
      by_contra hlt
      exact hset ⟨⟨hlo', hhi', hw'⟩, show wasteOf utxo_pool selection_target T' < st.best_waste by omega⟩

/-! ## SelectCoinsBnB on every pool -/

section Pool

variable {utxo_pool : List OutputGroup}

theorem perm_sortDescending : (sortDescending utxo_pool).Perm utxo_pool :=
  List.perm_insertionSort _ _

theorem descSorted_sortDescending : DescSorted (sortDescending utxo_pool) :=
  List.pairwise_insertionSort _ _

/-- The search loop of `SelectCoinsBnB` on `utxo_pool`, set up as `bnbSorted` sets it up. -/
def bnbInput (utxo_pool : List OutputGroup) (selection_target cost_of_change max_selection_weight : Int) :
    BnBInput :=
  ⟨sortDescending utxo_pool, (bnbTails (sortDescending utxo_pool)).1, selection_target, cost_of_change,
    max_selection_weight, isFeerateHigh (sortDescending utxo_pool)⟩

/-- No `CAmount` or `int` arithmetic of `SelectCoinsBnB` on `utxo_pool` overflows: the running
total of the precomputation loop, the upper end of the window, and, where the search loop runs,
every iteration from every state it reaches. -/
def SelectCoinsBnBFits (utxo_pool : List OutputGroup) (selection_target cost_of_change max_selection_weight : Int) :
    Prop :=
  (∀ k, InRange 64 (((sortDescending utxo_pool).drop k).map GetSelectionAmount).sum) ∧
    InRange 64 (selection_target + cost_of_change) ∧
    (selection_target ≤ (utxo_pool.map GetSelectionAmount).sum →
      ∀ st, Reaches (bnbInput utxo_pool selection_target cost_of_change max_selection_weight) st →
        IterFits (bnbInput utxo_pool selection_target cost_of_change max_selection_weight) st)

/-- On a pool within the types of its sums and with `MoneyRange` target and cost of change,
`SelectCoinsBnB` computes within its types. -/
theorem selectCoinsBnBFits_of_bnbRange (hrange : BnBRange utxo_pool)
    {selection_target cost_of_change max_selection_weight : Int} (htarget : 0 < selection_target)
    (hselection : MoneyRange selection_target = true) (hchange : MoneyRange cost_of_change = true) :
    SelectCoinsBnBFits utxo_pool selection_target cost_of_change max_selection_weight := by
  have hsorted := hrange.perm perm_sortDescending.symm
  simp only [MoneyRange, Bool.and_eq_true, decide_eq_true_eq] at hselection hchange
  refine ⟨fun k => inRange_of_abs_le ?_, inRange_of_abs_le (abs_le.mpr ⟨by omega, by omega⟩),
    fun hfund st hst => ?_⟩
  · have := hsorted.abs_drop_le k
    rw [MAX_MONEY_eq] at this ⊢
    omega
  · -- the loop runs on a non-empty pool
    have hn : 0 < (sortDescending utxo_pool).length := by
      rw [perm_sortDescending.length_eq]
      refine List.length_pos_iff.mpr fun h => ?_
      rw [h, List.map_nil, List.sum_nil] at hfund
      omega
    exact hst.iterFits ⟨descSorted_sortDescending, rfl⟩ hsorted hselection hn

/-- A result of `SelectCoinsBnB` is made of distinct groups of the pool, with their outputs and
their weight, whose amount lies between the target and the target plus the cost of change and
whose weight is within the limit; when the search completed on a pool that meets `BnBPool`, no
such sub-multiset of the pool wastes less. On a pool within the types of its sums, with
`MoneyRange` target and cost of change, no arithmetic of the search overflows, so the exact
sums above are those the code computes. -/
theorem selectCoinsBnB_ok (hrange : BnBRange utxo_pool) {selection_target cost_of_change max_selection_weight : Int}
    (htarget : 0 < selection_target) (hselection : MoneyRange selection_target = true)
    (hchange : MoneyRange cost_of_change = true) {r : SelectionResult}
    (hr : SelectCoinsBnB utxo_pool selection_target cost_of_change max_selection_weight = .ok r) :
    (∃ S : List OutputGroup, S.Subperm utxo_pool ∧ r.m_selected_inputs = (S.map m_outputs).flatten ∧
      r.m_weight = (S.map OutputGroup.m_weight).sum ∧ selection_target ≤ (S.map GetSelectionAmount).sum ∧
      (S.map GetSelectionAmount).sum ≤ selection_target + cost_of_change ∧
      (S.map OutputGroup.m_weight).sum ≤ max_selection_weight ∧
      (SelectCoinsBnBCompletes utxo_pool selection_target cost_of_change max_selection_weight = true →
        BnBPool utxo_pool → ∀ S' : List OutputGroup, S'.Subperm utxo_pool →
          selection_target ≤ (S'.map GetSelectionAmount).sum →
          (S'.map GetSelectionAmount).sum ≤ selection_target + cost_of_change →
          (S'.map OutputGroup.m_weight).sum ≤ max_selection_weight →
          selectionWaste selection_target S ≤ selectionWaste selection_target S')) ∧
    SelectCoinsBnBFits utxo_pool selection_target cost_of_change max_selection_weight := by
  refine ⟨?_, selectCoinsBnBFits_of_bnbRange hrange htarget hselection hchange⟩
  obtain ⟨T, hT, hin, hw, hlo, hhi, hle, hopt⟩ :=
    (bnbSorted_spec descSorted_sortDescending htarget).1 r hr
  obtain ⟨ha, hwt⟩ := sums_of_perm (List.Perm.refl (T.map ((sortDescending utxo_pool)[·]!)))
  refine ⟨_, subperm_of_indices perm_sortDescending hT.increasing hT.lt, hin, hwt ▸ hw, ha ▸ hlo, ha ▸ hhi,
    hwt ▸ hle, fun hcomp hpool S' hS' hlo' hhi' hw' => ?_⟩
  -- a solution is non-empty, so it is a set of positions of the sorted pool
  have hne : S' ≠ [] := by
    rintro rfl
    simp only [List.map_nil, List.sum_nil] at hlo'
    omega
  obtain ⟨T', hT', hperm⟩ := exists_node_of_subperm perm_sortDescending hS' hne
  obtain ⟨ha', hw''⟩ := sums_of_perm hperm
  rw [selectionWaste_map, selectionWaste_perm selection_target hperm, selectionWaste_map]
  exact hopt hcomp (hpool.perm perm_sortDescending.symm) T' hT' (ha' ▸ hlo') (ha' ▸ hhi') (hw'' ▸ hw')

/-- Three groups; the first two fund a target of 10 exactly with the least waste, 2. -/
def wastePool : List OutputGroup :=
  [{ effective_value := 6, fee := 2, long_term_fee := 1, m_weight := 4 },
    { effective_value := 4, fee := 1, m_weight := 2 }, { effective_value := 4, fee := 2, m_weight := 3 }]

theorem selectCoinsBnB_ok_wastePool :
    ∃ r, SelectCoinsBnB wastePool 10 0 100 = .ok r ∧ r.m_weight = 6 ∧
      (∃ S : List OutputGroup, S.Subperm wastePool ∧ 10 ≤ (S.map GetSelectionAmount).sum ∧
        (S.map GetSelectionAmount).sum ≤ 10 + 0 ∧ (S.map OutputGroup.m_weight).sum ≤ 100) ∧
      SelectCoinsBnBFits wastePool 10 0 100 := by
  obtain ⟨hS, hfits⟩ := selectCoinsBnB_ok ⟨⟨by decide, by decide⟩, by decide⟩ (by decide) rfl rfl
    (show SelectCoinsBnB wastePool 10 0 100 = .ok _ from rfl)
  exact ⟨_, rfl, rfl, hS.imp fun _ h => ⟨h.1, h.2.2.2.1, h.2.2.2.2.1, h.2.2.2.2.2.1⟩, hfits⟩

/-- `SelectCoinsBnB` fails after a completed search of a pool that meets `BnBPool` only where
every sub-multiset of the pool whose amount lies between the target and the target plus the
cost of change, within the weight limit, wastes at least `MAX_MONEY`. -/
theorem selectCoinsBnB_error (hpool : BnBPool utxo_pool) {selection_target cost_of_change max_selection_weight : Int}
    (htarget : 0 < selection_target) {e : String}
    (he : SelectCoinsBnB utxo_pool selection_target cost_of_change max_selection_weight = .error e)
    (hcomp : SelectCoinsBnBCompletes utxo_pool selection_target cost_of_change max_selection_weight = true)
    (S : List OutputGroup) (hS : S.Subperm utxo_pool) (hlo : selection_target ≤ (S.map GetSelectionAmount).sum)
    (hhi : (S.map GetSelectionAmount).sum ≤ selection_target + cost_of_change)
    (hw : (S.map OutputGroup.m_weight).sum ≤ max_selection_weight) :
    MAX_MONEY ≤ selectionWaste selection_target S := by
  have hne : S ≠ [] := by
    rintro rfl
    simp only [List.map_nil, List.sum_nil] at hlo
    omega
  obtain ⟨T, hT, hperm⟩ := exists_node_of_subperm perm_sortDescending hS hne
  obtain ⟨ha, hwt⟩ := sums_of_perm hperm
  rw [selectionWaste_perm selection_target hperm, selectionWaste_map]
  exact (bnbSorted_spec descSorted_sortDescending htarget).2 e he hcomp (hpool.perm perm_sortDescending.symm) T hT
    (ha ▸ hlo) (ha ▸ hhi) (hwt ▸ hw)

/-- Two groups of amount 6: no set lies between 10 and 11. -/
def twoSixes : List OutputGroup := [{ effective_value := 6, m_weight := 1 }, { effective_value := 6, m_weight := 1 }]

theorem selectCoinsBnB_error_twoSixes :
    SelectCoinsBnB twoSixes 10 1 100 = .error ErrorNoSolution ∧
      ∀ S : List OutputGroup, S.Subperm twoSixes → 10 ≤ (S.map GetSelectionAmount).sum →
        (S.map GetSelectionAmount).sum ≤ 10 + 1 → (S.map OutputGroup.m_weight).sum ≤ 100 →
        MAX_MONEY ≤ selectionWaste 10 S :=
  ⟨rfl, selectCoinsBnB_error ⟨by decide, by decide, by decide, by decide, by decide⟩ (by decide) rfl (by decide)⟩

-- Clone skipping compares amounts only. At a feerate below the long-term feerate the waste of a
-- group falls as its weight grows: of two groups of amount 10000, the one of weight 800 (waste
-- 200 - 2000) comes before the one of weight 200 (waste 50 - 500). Under a weight limit of 500 the
-- first is too heavy and the second, its clone, is skipped, so the search misses the solution of
-- the second alone (this pool fails `BnBPool.clone_weight`).
example : SelectCoinsBnB [{ effective_value := 10000, fee := 200, long_term_fee := 2000, m_weight := 800 },
    { effective_value := 10000, fee := 50, long_term_fee := 500, m_weight := 200 }] 10000 0 500 =
      .error ErrorMaxWeightExceeded := by rfl

end Pool

end BnB

end Wallet

end Riecoin
