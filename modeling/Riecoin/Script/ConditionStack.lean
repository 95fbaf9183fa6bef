-- SUMMARY: The ConditionStack of the script interpreter (a size and the position of the first false, as uint32) against the vector of booleans it stands for: one commuting square per operation, the run lemma, and the wrap-around at 2^32 pushes.
import Mathlib.Algebra.Group.Nat.Defs
import Mathlib.Data.List.Basic

/-!
# The condition stack of `EvalScript`

`ConditionStack` (`script/interpreter.cpp`) stands for the vector of booleans `vfExec`, one
per enclosing `OP_IF`/`OP_NOTIF`, of which `EvalScript` only asks whether it is empty and
whether it holds a false (`fExec`). It keeps two `uint32_t`: the size of the vector and the
position of its first false, `NO_FALSE` when there is none.

`ofVector v` is the state that stands for the vector `v`. Each operation on `ofVector v`
gives `ofVector` of the vector operation's result (`pushBack_ofVector`, `popBack_ofVector`,
`toggleTop_ofVector`), and on `ofVector v` the two queries answer for `v`. These hold while
the vector has fewer than `NO_FALSE = 2^32 - 1` elements; a run of fewer than `2^32`
operations from the empty stack stays below that. At `2^32` operations the counters wrap:
`2^32 - 1` pushes of true and one of false leave the size at `0` and the first false at
`NO_FALSE`.
-/

namespace Riecoin.Script

/-- `ConditionStack::NO_FALSE`, `std::numeric_limits<uint32_t>::max()`. -/
def NO_FALSE : UInt32 := 4294967295

/-- `ConditionStack`: the size of the implied vector and the position of its first false. -/
structure ConditionStack where
  stackSize : UInt32 := 0
  firstFalsePos : UInt32 := NO_FALSE
  deriving DecidableEq, Repr

namespace ConditionStack

/-- `ConditionStack::empty`. -/
def empty (s : ConditionStack) : Bool := s.stackSize == 0

/-- `ConditionStack::all_true`. -/
def allTrue (s : ConditionStack) : Bool := s.firstFalsePos == NO_FALSE

/-- `ConditionStack::push_back`: a false pushed on an all-true stack is the first false. -/
def pushBack (s : ConditionStack) (f : Bool) : ConditionStack :=
  { stackSize := s.stackSize + 1
    firstFalsePos := if s.firstFalsePos == NO_FALSE && !f then s.stackSize else s.firstFalsePos }

/-- `ConditionStack::pop_back`; `none` where its assertion `m_stack_size > 0` fails. -/
def popBack (s : ConditionStack) : Option ConditionStack :=
  if s.stackSize > 0 then
    let stackSize := s.stackSize - 1
    some { stackSize := stackSize
           firstFalsePos := if s.firstFalsePos == stackSize then NO_FALSE else s.firstFalsePos }
  else none

/-- `ConditionStack::toggle_top`; `none` where its assertion `m_stack_size > 0` fails. A false
above the first false is not recorded: toggling it cannot be observed. -/
def toggleTop (s : ConditionStack) : Option ConditionStack :=
  if s.stackSize > 0 then
    some { s with
      firstFalsePos :=
        if s.firstFalsePos == NO_FALSE then s.stackSize - 1
        else if s.firstFalsePos == s.stackSize - 1 then NO_FALSE
        else s.firstFalsePos }
  else none

end ConditionStack

/-- The operations `EvalScript` makes on `vfExec`: `OP_IF`/`OP_NOTIF` push the branch taken,
`OP_ELSE` toggles the top and `OP_ENDIF` pops it. -/
inductive ConditionOp where
  | pushBack (f : Bool)
  | popBack
  | toggleTop
  deriving DecidableEq, Repr

/-- One operation on the condition stack. -/
def ConditionStack.apply (s : ConditionStack) : ConditionOp → Option ConditionStack
  | .pushBack f => some (s.pushBack f)
  | .popBack => s.popBack
  | .toggleTop => s.toggleTop

/-- The operations in order; `none` at the first failed assertion. -/
def ConditionStack.run (s : ConditionStack) (ops : List ConditionOp) : Option ConditionStack :=
  ops.foldlM ConditionStack.apply s

/-! ## The vector of booleans -/

/-- The vector the condition stack stands for: push appends, pop removes the last element,
toggle negates it; `none` where pop or toggle meets the empty vector (which `EvalScript`
turns into `SCRIPT_ERR_UNBALANCED_CONDITIONAL` before calling them). -/
def naiveApply (v : List Bool) : ConditionOp → Option (List Bool)
  | .pushBack f => some (v ++ [f])
  | .popBack => if v.isEmpty then none else some v.dropLast
  | .toggleTop =>
    match v.getLast? with
    | none => none
    | some b => some (v.dropLast ++ [!b])

/-- The operations in order on the vector. -/
def naiveRun (v : List Bool) (ops : List ConditionOp) : Option (List Bool) :=
  ops.foldlM naiveApply v

namespace ConditionStack

/-- The condition stack that stands for the vector `v`. -/
def ofVector (v : List Bool) : ConditionStack :=
  { stackSize := UInt32.ofNat v.length
    firstFalsePos := if false ∈ v then UInt32.ofNat (v.idxOf false) else NO_FALSE }

theorem ofVector_nil : ofVector [] = {} := rfl

theorem stackSize_ofVector (v : List Bool) : (ofVector v).stackSize = UInt32.ofNat v.length := rfl

theorem toNat_NO_FALSE : NO_FALSE.toNat = 2 ^ 32 - 1 := rfl

theorem ofNat_inj {a b : Nat} (ha : a < 2 ^ 32) (hb : b < 2 ^ 32) :
    UInt32.ofNat a = UInt32.ofNat b ↔ a = b := by
  rw [UInt32.ofNat_eq_iff_mod_eq_toNat, UInt32.toNat_ofNat', Nat.mod_eq_of_lt ha,
    Nat.mod_eq_of_lt hb]

/-- Below `NO_FALSE`, a position is never taken for `NO_FALSE`. -/
theorem ofNat_ne_NO_FALSE {n : Nat} (hn : n < 2 ^ 32 - 1) : UInt32.ofNat n ≠ NO_FALSE := by
  intro h
  have hn' : (UInt32.ofNat n).toNat = n := UInt32.toNat_ofNat_of_lt' (by unfold UInt32.size; omega)
  rw [h, toNat_NO_FALSE] at hn'
  omega

theorem ofNat_length_concat (v : List Bool) (b : Bool) :
    UInt32.ofNat (v ++ [b]).length = UInt32.ofNat v.length + 1 := by
  rw [List.length_append, List.length_singleton, UInt32.ofNat_add]
  rfl

/-- Pushing onto the stack of `v` gives the stack of `v ++ [f]`. -/
theorem pushBack_ofVector {v : List Bool} (hv : v.length < 2 ^ 32 - 1) (f : Bool) :
    (ofVector v).pushBack f = ofVector (v ++ [f]) := by
  by_cases hmem : false ∈ v
  · -- the first false is in `v` already, below the new element
    have hne := ofNat_ne_NO_FALSE (Nat.lt_trans (List.idxOf_lt_length_of_mem hmem) hv)
    simp [pushBack, ofVector, hmem, hne, List.idxOf_append_of_mem hmem]
  · cases f with
    | false => simp [pushBack, ofVector, hmem, List.idxOf_append_of_notMem hmem]
    | true => simp [pushBack, ofVector, hmem]

/-- The size of a non-empty vector's stack passes the assertions, and one less is the size
without its top. -/
theorem stackSize_ofVector_concat {v : List Bool} (hv : v.length < 2 ^ 32 - 1) (b : Bool) :
    (ofVector (v ++ [b])).stackSize > 0 ∧
      (ofVector (v ++ [b])).stackSize - 1 = UInt32.ofNat v.length := by
  rw [stackSize_ofVector, ofNat_length_concat]
  refine ⟨?_, UInt32.add_sub_cancel _ _⟩
  rw [gt_iff_lt, UInt32.lt_iff_toNat_lt, ← ofNat_length_concat v b,
    UInt32.toNat_ofNat_of_lt' (by unfold UInt32.size; simp; omega)]
  simp

/-- Popping the stack of `v ++ [b]` gives the stack of `v`. -/
theorem popBack_ofVector {v : List Bool} (hv : v.length < 2 ^ 32 - 1) (b : Bool) :
    (ofVector (v ++ [b])).popBack = some (ofVector v) := by
  obtain ⟨hpos, hsize⟩ := stackSize_ofVector_concat hv b
  rw [popBack, if_pos hpos]
  dsimp only
  rw [hsize]
  by_cases hmem : false ∈ v
  · -- the first false stays below the popped top
    have hidx := List.idxOf_lt_length_of_mem hmem
    have hne : UInt32.ofNat (v.idxOf false) ≠ UInt32.ofNat v.length := fun h =>
      Nat.ne_of_lt hidx ((ofNat_inj (by omega) (by omega)).mp h)
    simp [ofVector, hmem, hne, List.idxOf_append_of_mem hmem]
  · cases b with
    | false => simp [ofVector, hmem, List.idxOf_append_of_notMem hmem]
    | true => simp [ofVector, hmem, (ofNat_ne_NO_FALSE hv).symm]

/-- Toggling the top of the stack of `v ++ [b]` gives the stack of `v ++ [!b]`. -/
theorem toggleTop_ofVector {v : List Bool} (hv : v.length < 2 ^ 32 - 1) (b : Bool) :
    (ofVector (v ++ [b])).toggleTop = some (ofVector (v ++ [!b])) := by
  obtain ⟨hpos, hsize⟩ := stackSize_ofVector_concat hv b
  rw [toggleTop, if_pos hpos, hsize]
  by_cases hmem : false ∈ v
  · -- a toggle above the first false is not recorded
    have hidx := List.idxOf_lt_length_of_mem hmem
    have hne : UInt32.ofNat (v.idxOf false) ≠ UInt32.ofNat v.length := fun h =>
      Nat.ne_of_lt hidx ((ofNat_inj (by omega) (by omega)).mp h)
    have hne' := ofNat_ne_NO_FALSE (Nat.lt_trans hidx hv)
    simp [ofVector, hmem, hne, hne', List.idxOf_append_of_mem hmem]
  · cases b with
    | false => simp [ofVector, hmem, ofNat_ne_NO_FALSE hv, List.idxOf_append_of_notMem hmem]
    | true => simp [ofVector, hmem, List.idxOf_append_of_notMem hmem]

theorem empty_ofVector {v : List Bool} (hv : v.length < 2 ^ 32) :
    (ofVector v).empty = v.isEmpty := by
  have hsize : (ofVector v).stackSize.toNat = v.length := UInt32.toNat_ofNat_of_lt' hv
  cases v with
  | nil => rfl
  | cons b v =>
    have hne : (ofVector (b :: v)).stackSize ≠ 0 := fun h => by
      rw [h] at hsize
      simp at hsize
    simp [empty, hne]

/-- `all_true` answers whether the vector holds no false. -/
theorem allTrue_ofVector {v : List Bool} (hv : v.length < 2 ^ 32) :
    (ofVector v).allTrue = decide (false ∉ v) := by
  by_cases hmem : false ∈ v
  · have hne := ofNat_ne_NO_FALSE (Nat.lt_of_lt_of_le (List.idxOf_lt_length_of_mem hmem) (by omega))
    simp [allTrue, ofVector, hmem, hne]
  · simp [allTrue, ofVector, hmem]

/-- One operation of a run on the stack of `v`, where the vector operation succeeds. -/
theorem apply_ofVector {v v' : List Bool} {op : ConditionOp} (hv : v.length < 2 ^ 32 - 1)
    (h : naiveApply v op = some v') : (ofVector v).apply op = some (ofVector v') := by
  cases op with
  | pushBack f =>
    cases h
    exact congrArg some (pushBack_ofVector hv f)
  | popBack =>
    -- `pop_back` is only reached with a top, so `v` is `w ++ [b]`
    rcases List.eq_nil_or_concat' v with rfl | ⟨w, b, rfl⟩
    · cases h
    · have hw : w.length < 2 ^ 32 - 1 := by simp at hv; omega
      simp [naiveApply] at h
      subst h
      exact popBack_ofVector hw b
  | toggleTop =>
    rcases List.eq_nil_or_concat' v with rfl | ⟨w, b, rfl⟩
    · cases h
    · have hw : w.length < 2 ^ 32 - 1 := by simp at hv; omega
      simp [naiveApply] at h
      subst h
      exact toggleTop_ofVector hw b

theorem naiveApply_length {v v' : List Bool} {op : ConditionOp} (h : naiveApply v op = some v') :
    v'.length ≤ v.length + 1 := by
  cases op with
  | pushBack f =>
    cases h
    simp
  | popBack =>
    simp only [naiveApply] at h
    split at h
    · cases h
    · cases h
      simp only [List.length_dropLast]
      omega
  | toggleTop =>
    simp only [naiveApply] at h
    split at h
    · cases h
    · cases h
      simp only [List.length_append, List.length_dropLast, List.length_singleton]
      omega

/-- The run lemma: while the vector stays below `NO_FALSE` elements, every run on the stack of
`v` ends at the stack of the vector the same run gives. -/
theorem run_ofVector :
    ∀ {ops : List ConditionOp} {v v' : List Bool}, v.length + ops.length < 2 ^ 32 →
      naiveRun v ops = some v' → (ofVector v).run ops = some (ofVector v')
  | [], v, v', _, h => by
    cases h
    rfl
  | op :: ops, v, v', hlen, h => by
    simp only [naiveRun, List.foldlM_cons, Option.bind_eq_bind] at h
    cases h₁ : naiveApply v op with
    | none => simp [h₁] at h
    | some v₁ =>
      rw [h₁, Option.bind_some] at h
      have hv : v.length < 2 ^ 32 - 1 := by simp at hlen; omega
      have hv₁ : v₁.length + ops.length < 2 ^ 32 := by
        have := naiveApply_length h₁
        simp at hlen
        omega
      simp only [run, List.foldlM_cons, apply_ofVector hv h₁, Option.bind_eq_bind, Option.bind_some]
      exact run_ofVector hv₁ h

theorem naiveRun_length :
    ∀ {ops : List ConditionOp} {v v' : List Bool}, naiveRun v ops = some v' →
      v'.length ≤ v.length + ops.length
  | [], v, v', h => by
    cases h
    simp
  | op :: ops, v, v', h => by
    simp only [naiveRun, List.foldlM_cons, Option.bind_eq_bind] at h
    cases h₁ : naiveApply v op with
    | none => simp [h₁] at h
    | some v₁ =>
      rw [h₁, Option.bind_some] at h
      have := naiveApply_length h₁
      have := naiveRun_length h
      simp only [List.length_cons]
      omega

/-! ## Wrap-around -/

theorem pushBack_true (s : ConditionStack) :
    s.pushBack true = { s with stackSize := s.stackSize + 1 } := by
  simp [pushBack]

/-- Pushes of true only count: the first false is never touched, and the size wraps. -/
theorem run_replicate_pushBack_true (n : Nat) : ∀ s : ConditionStack,
    s.run (List.replicate n (.pushBack true)) =
      some { s with stackSize := s.stackSize + UInt32.ofNat n } := by
  induction n with
  | zero =>
    intro s
    simp [run]
  | succ n ih =>
    intro s
    have hstep : (s.pushBack true).run (List.replicate n (.pushBack true)) =
        some { s with stackSize := s.stackSize + UInt32.ofNat (n + 1) } := by
      rw [ih, pushBack_true, UInt32.ofNat_add, UInt32.add_comm (UInt32.ofNat n), UInt32.add_assoc]
      rfl
    simpa only [run, List.replicate_succ, List.foldlM_cons, apply, Option.bind_eq_bind,
      Option.bind_some] using hstep

end ConditionStack

theorem naiveRun_replicate_true (n : Nat) : ∀ v : List Bool,
    naiveRun v (List.replicate n (.pushBack true)) = some (v ++ List.replicate n true) := by
  induction n with
  | zero =>
    intro v
    simp [naiveRun]
  | succ n ih =>
    intro v
    have hstep := ih (v ++ [true])
    rw [List.append_assoc, List.singleton_append, ← List.replicate_succ] at hstep
    simpa only [naiveRun, List.replicate_succ, List.foldlM_cons, naiveApply, Option.bind_eq_bind,
      Option.bind_some] using hstep

/-- A run of fewer than `2^32` operations from the empty stack, with `pop_back` and
`toggle_top` only where the vector has a top, ends at the stack of the vector the run gives,
and there `empty` and `all_true` answer for that vector. -/
theorem conditionStack_refines_vector (ops : List ConditionOp) (v : List Bool)
    (hops : ops.length < 2 ^ 32) (hrun : naiveRun [] ops = some v) :
    ConditionStack.run {} ops = some (ConditionStack.ofVector v) ∧
      (ConditionStack.ofVector v).empty = v.isEmpty ∧
      (ConditionStack.ofVector v).allTrue = decide (false ∉ v) := by
  have hlen : v.length < 2 ^ 32 := by
    have := ConditionStack.naiveRun_length hrun
    simp only [List.length_nil, Nat.zero_add] at this
    omega
  refine ⟨?_, ConditionStack.empty_ofVector hlen, ConditionStack.allTrue_ofVector hlen⟩
  rw [← ConditionStack.ofVector_nil]
  exact ConditionStack.run_ofVector (by simpa using hops) hrun

theorem conditionStack_refines_vector_nested :
    [ConditionOp.pushBack true, .pushBack false, .toggleTop, .pushBack false, .popBack].length <
        2 ^ 32 ∧
      naiveRun [] [.pushBack true, .pushBack false, .toggleTop, .pushBack false, .popBack] =
        some [true, true] ∧
      (ConditionStack.run {}
          [.pushBack true, .pushBack false, .toggleTop, .pushBack false, .popBack] =
          some (ConditionStack.ofVector [true, true]) ∧
        (ConditionStack.ofVector [true, true]).empty = [true, true].isEmpty ∧
        (ConditionStack.ofVector [true, true]).allTrue = decide (false ∉ [true, true])) :=
  ⟨by decide, rfl, conditionStack_refines_vector _ _ (by decide) rfl⟩

/-- At `2^32` operations the counters wrap: after `2^32 - 1` pushes of true and one push of
false the stack reports itself empty and all true, while the vector has `2^32` elements and
a false. -/
theorem conditionStack_wraps_after_2_32_pushes :
    (∃ s, ConditionStack.run {}
          (List.replicate (2 ^ 32 - 1) (.pushBack true) ++ [.pushBack false]) = some s ∧
        s.empty = true ∧ s.allTrue = true) ∧
      (∃ v, naiveRun [] (List.replicate (2 ^ 32 - 1) (.pushBack true) ++ [.pushBack false]) =
          some v ∧
        v.length = 2 ^ 32 ∧ false ∈ v) := by
  constructor
  · refine ⟨{ stackSize := 0, firstFalsePos := NO_FALSE }, ?_, rfl, rfl⟩
    rw [ConditionStack.run, List.foldlM_append, ← ConditionStack.run,
      ConditionStack.run_replicate_pushBack_true]
    -- the last push on the size `2^32 - 1`, with no replicated list left in the goal
    decide
  · -- no `simp` here: it would unfold the replicated list
    refine ⟨List.replicate (2 ^ 32 - 1) true ++ [false], ?_, ?_,
      List.mem_append.mpr (Or.inr (List.mem_singleton_self false))⟩
    · rw [naiveRun, List.foldlM_append, ← naiveRun, naiveRun_replicate_true, List.nil_append]
      rfl
    · rw [List.length_append, List.length_replicate, List.length_singleton,
        Nat.sub_add_cancel Nat.one_le_two_pow]

end Riecoin.Script
