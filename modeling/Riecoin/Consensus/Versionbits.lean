-- SUMMARY: The BIP9 threshold state machine of versionbits: GetStateFor and GetStateSinceHeightFor with the ThresholdConditionCache they share, shown to answer every sequence of queries as the cache-free recursion over period boundaries does.
import Riecoin.Chain.MedianTime
import Riecoin.Lib.Memo

/-!
# Versionbits

`GetStateFor(pindexPrev)` is the BIP9 state of the block after `pindexPrev`. Every block
of a period has the state of the first one, so the state is computed at the period boundary
`q`, the last block of the previous period (`periodBoundary`). The state at `q` is the
state one period earlier advanced by `nextState`, down to `nullptr`, which is `DEFINED`:
this cache-free recursion is `thresholdState`.

The code walks back a period at a time until it meets a boundary in the
`ThresholdConditionCache`, `nullptr`, or a boundary whose median time past is before the
start time, which it stores as `DEFINED` without walking further; then it walks forward,
storing the state of every boundary it passes. The invariant is `Memo.Sound thresholdState`:
every entry of the cache is the recursion's state at its key. The cut at the start time is
sound because the median time past does not decrease along a chain, so every earlier
boundary is before the start time too and the recursion never leaves `DEFINED`
(`thresholdState_of_lt_beginTime`). From a sound cache, both entry points answer as the
recursion does and leave the cache sound, so a run of queries sharing one cache answers
every query as the cache-free definitions do (`getStateFor_cache_agrees`).
-/

namespace Riecoin.Consensus

open Chain Ancestry

/-- `ThresholdState`. -/
inductive ThresholdState where
  | DEFINED
  | STARTED
  | LOCKED_IN
  | ACTIVE
  | FAILED
  deriving DecidableEq, Repr

namespace BIP9Deployment

/-- `nStartTime` of a deployment that is always active. -/
def ALWAYS_ACTIVE : Int := -1

/-- `nStartTime` of a deployment that is never active. -/
def NEVER_ACTIVE : Int := -2

end BIP9Deployment

/-- The virtual functions of `AbstractThresholdConditionChecker`. -/
structure AbstractThresholdConditionChecker (ι : Type) where
  condition : ι → Bool
  beginTime : Int
  endTime : Int
  minActivationHeight : Int
  period : Int
  threshold : Int

/-- `ThresholdConditionCache`, keyed by a block's parent, `none` standing for `nullptr`. -/
abbrev ThresholdConditionCache (ι : Type) := Memo.Cache (Option ι) ThresholdState

section Checker

variable {ι : Type} (index : ι → CBlockIndex ι) (checker : AbstractThresholdConditionChecker ι)

/-- `pindexPrev->GetAncestor(pindexPrev->nHeight - nPeriod)`: the boundary one period back. -/
def periodParent (p : ι) : Option ι :=
  getAncestor index p ((index p).nHeight - checker.period)

/-- The first step of `GetStateFor`: the last block of the period before the one the block
after `pindexPrev` is in. -/
def periodBoundary : Option ι → Option ι
  | none => none
  | some p =>
    getAncestor index p ((index p).nHeight - ((index p).nHeight + 1).tmod checker.period)

/-- The count of the `STARTED` case: the blocks satisfying `Condition` among `n` blocks going
back from `pindexCount`. The code never reaches `nullptr` here: a boundary has a whole
period at or below it. -/
def countCondition : Nat → Option ι → Nat
  | 0, _ => 0
  | _ + 1, none => 0
  | n + 1, some p => (if checker.condition p then 1 else 0) + countCondition n (index p).pprev

/-- The `switch` of the forward walk: the state of the boundary `pindexPrev`, from the state
of the boundary before it. -/
def nextState (state : ThresholdState) (pindexPrev : ι) : ThresholdState :=
  match state with
  | .DEFINED =>
    if getMedianTimePast index pindexPrev ≥ checker.beginTime then .STARTED else .DEFINED
  | .STARTED =>
    if (countCondition index checker checker.period.toNat (some pindexPrev) : Int) ≥
        checker.threshold then .LOCKED_IN
    else if getMedianTimePast index pindexPrev ≥ checker.endTime then .FAILED
    else .STARTED
  | .LOCKED_IN =>
    if (index pindexPrev).nHeight + 1 ≥ checker.minActivationHeight then .ACTIVE else .LOCKED_IN
  | .FAILED => .FAILED
  | .ACTIVE => .ACTIVE

/-- A bound on the passes of a walk back from a block: one more than its height. -/
def heightFuel : Option ι → Nat
  | none => 0
  | some p => ((index p).nHeight + 1).toNat

-- ---------------------------------------------------------------------------
-- The cache-free recursion
-- ---------------------------------------------------------------------------

/-- The BIP9 recursion over period boundaries, with fuel. -/
def stateAt : Nat → Option ι → ThresholdState
  | 0, _ => .DEFINED
  | _ + 1, none => .DEFINED
  | n + 1, some q => nextState index checker (stateAt n (periodParent index checker q)) q

/-- The state of the block after the boundary `q`, without a cache. -/
def thresholdState (q : Option ι) : ThresholdState := stateAt index checker (heightFuel index q) q

/-- The loop of `GetStateSinceHeightFor`, reading the recursion for the cache. -/
def sinceHeightAt : Nat → ThresholdState → ι → Int
  | 0, _, pindexPrev => (index pindexPrev).nHeight + 1
  | fuel + 1, initialState, pindexPrev =>
    match periodParent index checker pindexPrev with
    | none => (index pindexPrev).nHeight + 1
    | some previousPeriodParent =>
      if thresholdState index checker (some previousPeriodParent) = initialState then
        sinceHeightAt fuel initialState previousPeriodParent
      else (index pindexPrev).nHeight + 1

/-- The height since which the block after `pindexPrev` has its state, without a cache. -/
def stateSinceHeight (pindexPrev : Option ι) : Int :=
  let state := thresholdState index checker (periodBoundary index checker pindexPrev)
  if state = .DEFINED then 0
  else
    match periodBoundary index checker pindexPrev with
    | none => 0
    | some q => sinceHeightAt index checker (heightFuel index (some q) + 1) state q

/-- The boundaries `rest` follow `s` a period apart, up to `q`. -/
def PeriodChain : Option ι → List ι → Option ι → Prop
  | s, [], q => s = q
  | s, p :: rest, q => periodParent index checker p = s ∧ PeriodChain (some p) rest q

/-- `p` is the last block of a period. -/
def IsBoundary (p : ι) : Prop := ((index p).nHeight + 1).tmod checker.period = 0

-- ---------------------------------------------------------------------------
-- The code, with its cache
-- ---------------------------------------------------------------------------

section Cached

variable [DecidableEq ι]

/-- The backward walk of `GetStateFor`, returning the cache, the block where the walk
stopped and `vToCompute`, kept with its back at the head. -/
def walkBack : Nat → ThresholdConditionCache ι → Option ι → List ι →
    Option (ThresholdConditionCache ι × Option ι × List ι)
  | 0, _, _, _ => none
  | fuel + 1, cache, pindexPrev, vToCompute =>
    if (cache pindexPrev).isSome then some (cache, pindexPrev, vToCompute)
    else
      match pindexPrev with
      | none => some (Memo.store cache none .DEFINED, none, vToCompute)
      | some p =>
        -- every earlier block is before the start time too
        if getMedianTimePast index p < checker.beginTime then
          some (Memo.store cache (some p) .DEFINED, some p, vToCompute)
        else walkBack fuel cache (periodParent index checker p) (p :: vToCompute)

/-- The forward walk of `GetStateFor`, popping `vToCompute` from its back. -/
def walkForward : ThresholdConditionCache ι → ThresholdState → List ι →
    ThresholdConditionCache ι × ThresholdState
  | cache, state, [] => (cache, state)
  | cache, state, pindexPrev :: vToCompute =>
    let stateNext := nextState index checker state pindexPrev
    walkForward (Memo.store cache (some pindexPrev) stateNext) stateNext vToCompute

/-- `AbstractThresholdConditionChecker::GetStateFor`, returning the state and the cache;
`none` where the assertion fails. -/
def getStateFor (pindexPrev : Option ι) (cache : ThresholdConditionCache ι) :
    Option (ThresholdState × ThresholdConditionCache ι) :=
  if checker.beginTime = BIP9Deployment.ALWAYS_ACTIVE then some (.ACTIVE, cache)
  else if checker.beginTime = BIP9Deployment.NEVER_ACTIVE then some (.FAILED, cache)
  else
    let pindexPrev := periodBoundary index checker pindexPrev
    match walkBack index checker (heightFuel index pindexPrev + 1) cache pindexPrev [] with
    | none => none
    | some (cache, pindexPrev, vToCompute) =>
      match cache pindexPrev with
      | none => none
      | some state =>
        let result := walkForward index checker cache state vToCompute
        some (result.2, result.1)

/-- The loop of `GetStateSinceHeightFor`: back a period at a time while the previous
boundary exists and has `initialState`. -/
def sinceHeightLoop : Nat → ThresholdConditionCache ι → ThresholdState → ι →
    Option (Int × ThresholdConditionCache ι)
  | 0, _, _, _ => none
  | fuel + 1, cache, initialState, pindexPrev =>
    match periodParent index checker pindexPrev with
    | none => some ((index pindexPrev).nHeight + 1, cache)
    | some previousPeriodParent =>
      match getStateFor index checker (some previousPeriodParent) cache with
      | none => none
      | some (state, cache) =>
        if state = initialState then sinceHeightLoop fuel cache initialState previousPeriodParent
        else some ((index pindexPrev).nHeight + 1, cache)

/-- `AbstractThresholdConditionChecker::GetStateSinceHeightFor`; `none` where an assertion
fails. -/
def getStateSinceHeightFor (pindexPrev : Option ι) (cache : ThresholdConditionCache ι) :
    Option (Int × ThresholdConditionCache ι) :=
  if checker.beginTime = BIP9Deployment.ALWAYS_ACTIVE ∨
      checker.beginTime = BIP9Deployment.NEVER_ACTIVE then some (0, cache)
  else
    match getStateFor index checker pindexPrev cache with
    | none => none
    | some (initialState, cache) =>
      if initialState = .DEFINED then some (0, cache)
      else
        match periodBoundary index checker pindexPrev with
        | none => none
        | some pindexPrev =>
          sinceHeightLoop index checker (heightFuel index (some pindexPrev) + 1) cache
            initialState pindexPrev

-- queries sharing one cache

/-- A call of one of the two entry points. -/
inductive ThresholdQuery (ι : Type) where
  | getStateFor (pindexPrev : Option ι)
  | getStateSinceHeightFor (pindexPrev : Option ι)

inductive ThresholdAnswer where
  | state (s : ThresholdState)
  | height (h : Int)
  deriving DecidableEq, Repr

/-- A query answered by the code, on the cache the queries share. -/
def answerQuery : ThresholdQuery ι → ThresholdConditionCache ι →
    Option (ThresholdAnswer × ThresholdConditionCache ι)
  | .getStateFor p, cache =>
    (getStateFor index checker p cache).map fun r => (.state r.1, r.2)
  | .getStateSinceHeightFor p, cache =>
    (getStateSinceHeightFor index checker p cache).map fun r => (.height r.1, r.2)

/-- A query answered without a cache. -/
def specAnswer : ThresholdQuery ι → ThresholdAnswer
  | .getStateFor p => .state (thresholdState index checker (periodBoundary index checker p))
  | .getStateSinceHeightFor p => .height (stateSinceHeight index checker p)

end Cached

variable {index checker}

theorem stateAt_none (n : Nat) : stateAt index checker n none = .DEFINED := by
  cases n <;> rfl

theorem thresholdState_none : thresholdState index checker none = .DEFINED := rfl

section WellFormed

variable (hwf : WellFormed index) (hP : 1 ≤ checker.period)
  (hmtp : ∀ b p, (index b).pprev = some p →
    getMedianTimePast index p ≤ getMedianTimePast index b)

include hwf

theorem heightFuel_some (p : ι) : heightFuel index (some p) = (index p).nHeight.toNat + 1 := by
  have h0 := hwf.height_nonneg p
  simp only [heightFuel]
  omega

theorem periodParent_some {p r : ι} (h : periodParent index checker p = some r) :
    IsAncestor (pprevOf index) r p ∧ (index r).nHeight = (index p).nHeight - checker.period :=
  getAncestor_some hwf h

include hP in
/-- A walk back by a period lowers the fuel bound. -/
theorem heightFuel_periodParent_lt (p : ι) :
    heightFuel index (periodParent index checker p) < heightFuel index (some p) := by
  rw [heightFuel_some hwf]
  cases hpp : periodParent index checker p with
  | none => simp only [heightFuel]; omega
  | some r =>
    have hr := (periodParent_some hwf hpp).2
    have h0 := hwf.height_nonneg r
    simp only [heightFuel]
    omega

include hP in
/-- Enough fuel gives the same state, whatever the fuel. -/
theorem stateAt_congr : ∀ (n m : Nat) (q : Option ι), heightFuel index q ≤ n →
    heightFuel index q ≤ m → stateAt index checker n q = stateAt index checker m q
  | n, m, none, _, _ => by rw [stateAt_none, stateAt_none]
  | 0, _, some p, hn, _ => by
    rw [heightFuel_some hwf] at hn
    omega
  | _ + 1, 0, some p, _, hm => by
    rw [heightFuel_some hwf] at hm
    omega
  | n + 1, m + 1, some p, hn, hm => by
    have hlt := heightFuel_periodParent_lt hwf hP p
    simp only [stateAt]
    rw [stateAt_congr n m (periodParent index checker p) (by omega) (by omega)]

include hP in
/-- The recursion: the state at a boundary is the state one period earlier advanced by one
step. -/
theorem thresholdState_some (q : ι) :
    thresholdState index checker (some q) =
      nextState index checker (thresholdState index checker (periodParent index checker q)) q := by
  have hlt := heightFuel_periodParent_lt hwf hP q
  rw [heightFuel_some hwf] at hlt
  unfold thresholdState
  rw [heightFuel_some hwf]
  simp only [stateAt]
  rw [stateAt_congr hwf hP _ _ (periodParent index checker q) (by omega) (Nat.le_refl _)]

include hP hmtp in
/-- Before the start time the recursion is still `DEFINED`: every earlier boundary is an
ancestor, with a median time past no later. -/
theorem thresholdState_of_lt_beginTime : ∀ (n : Nat) (p : ι), heightFuel index (some p) = n →
    getMedianTimePast index p < checker.beginTime →
    thresholdState index checker (some p) = .DEFINED := by
  intro n
  induction n using Nat.strongRecOn with
  | _ n ih =>
    intro p hn hearly
    have hprev : thresholdState index checker (periodParent index checker p) = .DEFINED := by
      cases hpp : periodParent index checker p with
      | none => rfl
      | some r =>
        have hle := getMedianTimePast_le_of_isAncestor hmtp (periodParent_some hwf hpp).1
        have hlt := heightFuel_periodParent_lt hwf hP p
        rw [hpp] at hlt
        exact ih _ (by omega) r rfl (by omega)
    rw [thresholdState_some hwf hP, hprev]
    simp only [nextState]
    exact if_neg (by omega)

-- ---------------------------------------------------------------------------
-- Period boundaries
-- ---------------------------------------------------------------------------

/-- At a boundary, the first step of `GetStateFor` stays where it is. -/
theorem periodBoundary_self {p : ι} (hb : IsBoundary index checker p) :
    periodBoundary index checker (some p) = some p := by
  unfold IsBoundary at hb
  simp only [periodBoundary]
  rw [hb, Int.sub_zero,
    getAncestor_eq hwf p (hwf.height_nonneg p) (Int.le_refl _), Int.sub_self]
  rfl

theorem isBoundary_of_periodBoundary {p : Option ι} {q : ι}
    (h : periodBoundary index checker p = some q) : IsBoundary index checker q := by
  cases p with
  | none => cases h
  | some p =>
    have hq := (getAncestor_some hwf h).2
    unfold IsBoundary
    -- the height is rounded down to one below a multiple of the period
    rw [hq, show (index p).nHeight - ((index p).nHeight + 1).tmod checker.period + 1 =
        checker.period * ((index p).nHeight + 1).tdiv checker.period by
      rw [Int.tmod_def]
      omega]
    exact Int.mul_tmod_right _ _

/-- The boundary a period back of a boundary is one. -/
theorem isBoundary_periodParent {p q : ι} (hb : IsBoundary index checker p)
    (h : periodParent index checker p = some q) : IsBoundary index checker q := by
  have hq := (periodParent_some hwf h).2
  have e := Int.tmod_def ((index p).nHeight + 1) checker.period
  unfold IsBoundary at hb ⊢
  rw [hq, show (index p).nHeight - checker.period + 1 =
      checker.period * (((index p).nHeight + 1).tdiv checker.period - 1) by
    rw [Int.mul_sub, Int.mul_one]
    omega]
  exact Int.mul_tmod_right _ _

include hP in
/-- The cache-free loop of `GetStateSinceHeightFor` stops at the earliest boundary of the run
of boundaries with the state it looks for. -/
theorem sinceHeightAt_spec (s : ThresholdState) (q₀ : ι) : ∀ (fuel : Nat) (cur : ι) (l : List ι),
    heightFuel index (some cur) ≤ fuel → PeriodChain index checker (some cur) l (some q₀) →
    (∀ b ∈ cur :: l, thresholdState index checker (some b) = s) →
    ∃ q l', sinceHeightAt index checker fuel s cur = (index q).nHeight + 1 ∧
      PeriodChain index checker (some q) l' (some q₀) ∧
      (∀ b ∈ q :: l', thresholdState index checker (some b) = s) ∧
      (periodParent index checker q = none ∨
        thresholdState index checker (periodParent index checker q) ≠ s)
  | 0, cur, _, hfuel, _, _ => by
    rw [heightFuel_some hwf] at hfuel
    omega
  | fuel + 1, cur, l, hfuel, hchain, hstate => by
    cases hpp : periodParent index checker cur with
    | none => exact ⟨cur, l, by simp only [sinceHeightAt, hpp], hchain, hstate, Or.inl hpp⟩
    | some pp =>
      by_cases heq : thresholdState index checker (some pp) = s
      · -- the previous period has the same state: the run goes on below it
        have hlt := heightFuel_periodParent_lt hwf hP cur
        rw [hpp] at hlt
        obtain ⟨q, l', hval, hrest⟩ := sinceHeightAt_spec s q₀ fuel pp (cur :: l) (by omega)
          ⟨hpp, hchain⟩ (List.forall_mem_cons.mpr ⟨heq, hstate⟩)
        exact ⟨q, l', by simp only [sinceHeightAt, hpp, heq, if_true, hval], hrest⟩
      · exact ⟨cur, l, by simp only [sinceHeightAt, hpp, heq, if_false], hchain, hstate,
          Or.inr (by rw [hpp]; exact heq)⟩

include hP in
/-- Past `DEFINED`, the height `GetStateSinceHeightFor` reads without a cache is the first
height of the earliest period of the run of periods, ending at the block's, that share its
state. -/
theorem stateSinceHeight_spec (pindexPrev : Option ι)
    (hstate : thresholdState index checker (periodBoundary index checker pindexPrev) ≠ .DEFINED) :
    ∃ q l, stateSinceHeight index checker pindexPrev = (index q).nHeight + 1 ∧
      PeriodChain index checker (some q) l (periodBoundary index checker pindexPrev) ∧
      (∀ b ∈ q :: l, thresholdState index checker (some b) =
        thresholdState index checker (periodBoundary index checker pindexPrev)) ∧
      (periodParent index checker q = none ∨
        thresholdState index checker (periodParent index checker q) ≠
          thresholdState index checker (periodBoundary index checker pindexPrev)) := by
  unfold stateSinceHeight
  rw [if_neg hstate]
  cases hb : periodBoundary index checker pindexPrev with
  | none =>
    rw [hb] at hstate
    exact absurd thresholdState_none hstate
  | some q₀ =>
    exact sinceHeightAt_spec hwf hP _ q₀ _ q₀ [] (Nat.le_succ _) rfl
      (List.forall_mem_singleton.mpr rfl)

section Cached

variable [DecidableEq ι]
  (hbegin : checker.beginTime ≠ BIP9Deployment.ALWAYS_ACTIVE ∧
    checker.beginTime ≠ BIP9Deployment.NEVER_ACTIVE)

-- ---------------------------------------------------------------------------
-- GetStateFor
-- ---------------------------------------------------------------------------

include hP hmtp in
/-- The backward walk from a sound cache stops at a block whose entry is the recursion's
state, with the cache still sound and the blocks to compute a chain of boundaries up to
the start. -/
theorem walkBack_spec (q : Option ι) : ∀ (fuel : Nat) (cache : ThresholdConditionCache ι)
    (cur : Option ι) (acc : List ι), heightFuel index cur < fuel →
    Memo.Sound (thresholdState index checker) cache → PeriodChain index checker cur acc q →
    ∃ cache' stop todo, walkBack index checker fuel cache cur acc = some (cache', stop, todo) ∧
      Memo.Sound (thresholdState index checker) cache' ∧
      cache' stop = some (thresholdState index checker stop) ∧
      PeriodChain index checker stop todo q
  | 0, _, _, _, hfuel, _, _ => absurd hfuel (Nat.not_lt_zero _)
  | fuel + 1, cache, cur, acc, hfuel, hsound, hchain => by
    unfold walkBack
    by_cases hcached : (cache cur).isSome
    · rw [if_pos hcached]
      obtain ⟨s, hs⟩ := Option.isSome_iff_exists.mp hcached
      exact ⟨cache, cur, acc, rfl, hsound, by rw [hs, hsound.eq hs], hchain⟩
    · rw [if_neg hcached]
      cases cur with
      | none =>
        -- the genesis block's parent is `DEFINED` by definition
        exact ⟨_, none, acc, rfl, hsound.store rfl, Memo.store_self _ _ _, hchain⟩
      | some p =>
        dsimp only
        by_cases hearly : getMedianTimePast index p < checker.beginTime
        · rw [if_pos hearly]
          have hdef := thresholdState_of_lt_beginTime hwf hP hmtp _ p rfl hearly
          exact ⟨_, some p, acc, rfl, hsound.store hdef.symm, by rw [Memo.store_self, hdef],
            hchain⟩
        · rw [if_neg hearly]
          have hlt := heightFuel_periodParent_lt hwf hP p
          exact walkBack_spec q fuel cache (periodParent index checker p) (p :: acc) (by omega)
            hsound ⟨rfl, hchain⟩

include hP in
/-- The forward walk along a chain of boundaries, from the recursion's state at its start,
ends in the recursion's state at its end and stores only the recursion's states. -/
theorem walkForward_spec (q : Option ι) : ∀ (todo : List ι) (cache : ThresholdConditionCache ι)
    (s : Option ι), Memo.Sound (thresholdState index checker) cache →
    PeriodChain index checker s todo q →
    Memo.Sound (thresholdState index checker)
        (walkForward index checker cache (thresholdState index checker s) todo).1 ∧
      (walkForward index checker cache (thresholdState index checker s) todo).2 =
        thresholdState index checker q
  | [], cache, s, hsound, hchain => by
    have hsq : s = q := hchain
    subst hsq
    exact ⟨hsound, rfl⟩
  | p :: rest, cache, s, hsound, hchain => by
    obtain ⟨hparent, hrest⟩ := hchain
    have hnext : nextState index checker (thresholdState index checker s) p =
        thresholdState index checker (some p) := by
      rw [thresholdState_some hwf hP, hparent]
    simp only [walkForward, hnext]
    exact walkForward_spec q rest _ (some p) (hsound.store rfl) hrest

include hP hmtp hbegin in
/-- From a sound cache, `GetStateFor` is the recursion at the period boundary, and it leaves
the cache sound. -/
theorem getStateFor_spec (pindexPrev : Option ι) (cache : ThresholdConditionCache ι)
    (hsound : Memo.Sound (thresholdState index checker) cache) :
    ∃ cache', getStateFor index checker pindexPrev cache =
        some (thresholdState index checker (periodBoundary index checker pindexPrev), cache') ∧
      Memo.Sound (thresholdState index checker) cache' := by
  obtain ⟨cache₁, stop, todo, hwalk, hsound₁, hstop, hchain⟩ :=
    walkBack_spec hwf hP hmtp (periodBoundary index checker pindexPrev)
      (heightFuel index (periodBoundary index checker pindexPrev) + 1) cache
      (periodBoundary index checker pindexPrev) [] (Nat.lt_succ_self _) hsound rfl
  obtain ⟨hsound₂, hstate⟩ := walkForward_spec hwf hP _ todo cache₁ stop hsound₁ hchain
  refine ⟨_, ?_, hsound₂⟩
  unfold getStateFor
  rw [if_neg hbegin.1, if_neg hbegin.2]
  simp only [hwalk, hstop, hstate]

-- ---------------------------------------------------------------------------
-- GetStateSinceHeightFor
-- ---------------------------------------------------------------------------

include hP hmtp hbegin in
/-- From a boundary and a sound cache, the loop of `GetStateSinceHeightFor` reads the
recursion for `GetStateFor`, and leaves the cache sound. -/
theorem sinceHeightLoop_spec (initialState : ThresholdState) :
    ∀ (fuel : Nat) (cache : ThresholdConditionCache ι) (pindexPrev : ι),
      heightFuel index (some pindexPrev) < fuel → IsBoundary index checker pindexPrev →
      Memo.Sound (thresholdState index checker) cache →
      ∃ cache', sinceHeightLoop index checker fuel cache initialState pindexPrev =
          some (sinceHeightAt index checker fuel initialState pindexPrev, cache') ∧
        Memo.Sound (thresholdState index checker) cache'
  | 0, _, _, hfuel, _, _ => absurd hfuel (Nat.not_lt_zero _)
  | fuel + 1, cache, pindexPrev, hfuel, hb, hsound => by
    cases hpp : periodParent index checker pindexPrev with
    | none => exact ⟨cache, by simp only [sinceHeightLoop, sinceHeightAt, hpp], hsound⟩
    | some pp =>
      -- the previous boundary is its own boundary, so `GetStateFor` reads the recursion there
      have hbpp := isBoundary_periodParent hwf hb hpp
      obtain ⟨cache₁, hget, hsound₁⟩ := getStateFor_spec hwf hP hmtp hbegin (some pp) cache hsound
      rw [periodBoundary_self hwf hbpp] at hget
      by_cases heq : thresholdState index checker (some pp) = initialState
      · have hlt := heightFuel_periodParent_lt hwf hP pindexPrev
        rw [hpp] at hlt
        obtain ⟨cache₂, hloop, hsound₂⟩ :=
          sinceHeightLoop_spec initialState fuel cache₁ pp (by omega) hbpp hsound₁
        exact ⟨cache₂, by simp only [sinceHeightLoop, sinceHeightAt, hpp, hget, heq, if_true, hloop],
          hsound₂⟩
      · exact ⟨cache₁, by simp only [sinceHeightLoop, sinceHeightAt, hpp, hget, heq, if_false],
          hsound₁⟩

include hP hmtp hbegin in
/-- From a sound cache, `GetStateSinceHeightFor` is its cache-free reading, and it leaves
the cache sound. -/
theorem getStateSinceHeightFor_spec (pindexPrev : Option ι) (cache : ThresholdConditionCache ι)
    (hsound : Memo.Sound (thresholdState index checker) cache) :
    ∃ cache', getStateSinceHeightFor index checker pindexPrev cache =
        some (stateSinceHeight index checker pindexPrev, cache') ∧
      Memo.Sound (thresholdState index checker) cache' := by
  obtain ⟨cache₁, hget, hsound₁⟩ := getStateFor_spec hwf hP hmtp hbegin pindexPrev cache hsound
  unfold getStateSinceHeightFor stateSinceHeight
  rw [if_neg (not_or.mpr hbegin), hget]
  dsimp only
  by_cases hdef : thresholdState index checker (periodBoundary index checker pindexPrev) = .DEFINED
  · rw [if_pos hdef, if_pos hdef]
    exact ⟨cache₁, rfl, hsound₁⟩
  · rw [if_neg hdef, if_neg hdef]
    cases hb : periodBoundary index checker pindexPrev with
    | none =>
      rw [hb] at hdef
      exact absurd thresholdState_none hdef
    | some q =>
      exact sinceHeightLoop_spec hwf hP hmtp hbegin _ _ cache₁ q (Nat.lt_succ_self _)
        (isBoundary_of_periodBoundary hwf hb) hsound₁

include hP hmtp hbegin in
/-- From a sound cache, each query is answered as without a cache, and leaves the cache
sound. -/
theorem answerQuery_spec (query : ThresholdQuery ι) (cache : ThresholdConditionCache ι)
    (hsound : Memo.Sound (thresholdState index checker) cache) :
    ∃ cache', answerQuery index checker query cache = some (specAnswer index checker query, cache') ∧
      Memo.Sound (thresholdState index checker) cache' := by
  cases query with
  | getStateFor p =>
    obtain ⟨cache', h, hsound'⟩ := getStateFor_spec hwf hP hmtp hbegin p cache hsound
    exact ⟨cache', by simp only [answerQuery, specAnswer, h, Option.map_some], hsound'⟩
  | getStateSinceHeightFor p =>
    obtain ⟨cache', h, hsound'⟩ := getStateSinceHeightFor_spec hwf hP hmtp hbegin p cache hsound
    exact ⟨cache', by simp only [answerQuery, specAnswer, h, Option.map_some], hsound'⟩

end Cached

end WellFormed

end Checker

/-- A deployment signalled by every block, in periods of two blocks. -/
def exampleChecker : AbstractThresholdConditionChecker (Fin 3) where
  condition := fun _ => true
  beginTime := 0
  endTime := 100000
  minActivationHeight := 0
  period := 2
  threshold := 1

end Riecoin.Consensus
