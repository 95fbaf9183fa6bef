-- SUMMARY: The block index tree with its skip pointers: GetSkipHeight, GetAncestor, BuildSkip and LastCommonAncestor, with GetAncestor following pprev and LastCommonAncestor returning the deepest common ancestor.
import Riecoin.Lib.Ancestry

/-!
# The block index tree

Entries of the block index are reached through pointers, here values of a type `ι`, and
`index : ι → CBlockIndex ι` reads the entry a pointer points to; `none` is `nullptr`. Each
entry links to its parent (`pprev`) and to an earlier ancestor (`pskip`), set by
`BuildSkip` to the ancestor at `GetSkipHeight` of the entry's height.

`GetAncestor` walks down from an entry along `pskip` where that does not overshoot, and
along `pprev` otherwise. In a tree built that way (`WellFormed`) the walk ends, within the
fuel the model gives it, at the entry that following `pprev` reaches (`getAncestor_eq`),
whichever pointers the heuristic picks: each `pskip` is itself the ancestor at the skip
height, which follows by induction on the height since `BuildSkip` computes it with
`GetAncestor` from the parent. `LastCommonAncestor` first rewinds the higher entry to the
other's height, then walks both down together; `lastCommonAncestor_spec` says that it
returns the entry whose ancestors are exactly the common ancestors of the two.
-/

namespace Riecoin.Chain

/-- The fields of `CBlockIndex` that the walks over the block tree read, with pointers to
entries of type `ι`. -/
structure CBlockIndex (ι : Type) where
  pprev : Option ι
  pskip : Option ι
  nHeight : Int
  nTime : UInt32
  deriving DecidableEq

/-- `InvertLowestOne`: clear the lowest set bit. The code calls it on non-negative `int`s
only. -/
def invertLowestOne (n : Nat) : Nat := n &&& (n - 1)

/-- `GetSkipHeight`: the height that `pskip` of an entry at `height` points to. -/
def getSkipHeight (height : Int) : Int :=
  if height < 2 then 0
  else if height % 2 = 1 then invertLowestOne (invertLowestOne (height.toNat - 1)) + 1
  else invertLowestOne height.toNat

theorem invertLowestOne_le (n : Nat) : invertLowestOne n ≤ n - 1 := Nat.and_le_right

theorem getSkipHeight_nonneg (height : Int) : 0 ≤ getSkipHeight height := by
  unfold getSkipHeight
  split
  · exact Int.le_refl 0
  · split <;> omega

/-- `pskip` points strictly below its entry, so the walks that follow it end. -/
theorem getSkipHeight_lt {height : Int} (h : 1 ≤ height) : getSkipHeight height < height := by
  have h₁ := invertLowestOne_le (height.toNat - 1)
  have h₂ := invertLowestOne_le (invertLowestOne (height.toNat - 1))
  have h₃ := invertLowestOne_le height.toNat
  unfold getSkipHeight
  split
  · omega
  · split <;> omega

section Walks

variable {ι : Type} (index : ι → CBlockIndex ι)

/-- The parent function of the tree. -/
def pprevOf (p : ι) : Option ι := (index p).pprev

/-- The height of each entry. -/
def nHeightOf (p : ι) : Int := (index p).nHeight

/-- One pass of the loop of `GetAncestor` towards `height` from `pindexWalk` at
`heightWalk`: follow `pskip` when it lands on `height`, or above it without `pprev->pskip`
being a better jump; else follow `pprev`, where the code asserts that it is set. -/
def ancestorStep (height : Int) (pindexWalk : ι) (heightWalk : Int) : Option (ι × Int) :=
  let heightSkip := getSkipHeight heightWalk
  let heightSkipPrev := getSkipHeight (heightWalk - 1)
  let stepPrev := (index pindexWalk).pprev.map fun pprev => (pprev, heightWalk - 1)
  match (index pindexWalk).pskip with
  | some pskip =>
    if heightSkip = height ∨
        (heightSkip > height ∧ ¬(heightSkipPrev < heightSkip - 2 ∧ heightSkipPrev ≥ height)) then
      some (pskip, heightSkip)
    else stepPrev
  | none => stepPrev

/-- The loop of `GetAncestor`, with `fuel` passes left. -/
def getAncestorLoop (height : Int) : Nat → ι → Int → Option ι
  | 0, pindexWalk, heightWalk => if heightWalk > height then none else some pindexWalk
  | fuel + 1, pindexWalk, heightWalk =>
    if heightWalk > height then
      (ancestorStep index height pindexWalk heightWalk).bind fun (pindexWalk, heightWalk) =>
        getAncestorLoop height fuel pindexWalk heightWalk
    else some pindexWalk

theorem getAncestorLoop_zero (height : Int) (pindexWalk : ι) (heightWalk : Int) :
    getAncestorLoop index height 0 pindexWalk heightWalk =
      if heightWalk > height then none else some pindexWalk := rfl

theorem getAncestorLoop_succ (height : Int) (fuel : Nat) (pindexWalk : ι) (heightWalk : Int) :
    getAncestorLoop index height (fuel + 1) pindexWalk heightWalk =
      if heightWalk > height then
        (ancestorStep index height pindexWalk heightWalk).bind fun (pindexWalk, heightWalk) =>
          getAncestorLoop index height fuel pindexWalk heightWalk
      else some pindexWalk := rfl

/-- `CBlockIndex::GetAncestor`, with enough fuel for the loop: each pass goes down at least
one height. `none` is `nullptr`, and also stands for a failed assert, which
`getAncestor_eq` shows cannot happen in a well-formed tree. -/
def getAncestor (pindex : ι) (height : Int) : Option ι :=
  if height > (index pindex).nHeight ∨ height < 0 then none
  else getAncestorLoop index height ((index pindex).nHeight - height).toNat pindex
    (index pindex).nHeight

/-- The `pskip` that `BuildSkip` sets: the ancestor of `pprev` at the skip height, and
`nullptr` without a `pprev`. -/
def buildSkip (pindex : ι) : Option ι :=
  (index pindex).pprev.bind fun pprev => getAncestor index pprev (getSkipHeight (index pindex).nHeight)

/-- A block index tree: heights drop by one along `pprev`, only entries at height `0` lack
one, and `BuildSkip` set every `pskip`. -/
structure WellFormed : Prop where
  leveled : Ancestry.Leveled (pprevOf index) (nHeightOf index)
  skip_built : ∀ p, (index p).pskip = buildSkip index p

/-- The inner loop of `LastCommonAncestor`: jump both entries along `pskip` until their
`pskip`s agree; `none` where it would dereference `nullptr`. -/
def lcaSkipLoop [DecidableEq ι] : Nat → ι → ι → Option (ι × ι)
  | 0, pa, pb => if (index pa).pskip = (index pb).pskip then some (pa, pb) else none
  | fuel + 1, pa, pb =>
    if (index pa).pskip = (index pb).pskip then some (pa, pb)
    else
      match (index pa).pskip, (index pb).pskip with
      | some pa, some pb => lcaSkipLoop fuel pa pb
      | _, _ => none

theorem lcaSkipLoop_zero [DecidableEq ι] (pa pb : ι) :
    lcaSkipLoop index 0 pa pb = if (index pa).pskip = (index pb).pskip then some (pa, pb) else none := rfl

theorem lcaSkipLoop_succ [DecidableEq ι] (fuel : Nat) (pa pb : ι) :
    lcaSkipLoop index (fuel + 1) pa pb =
      if (index pa).pskip = (index pb).pskip then some (pa, pb)
      else
        match (index pa).pskip, (index pb).pskip with
        | some pa, some pb => lcaSkipLoop index fuel pa pb
        | _, _ => none := rfl

/-- The outer loop of `LastCommonAncestor`, while `pa != pb`: the inner loop, then one step
along `pprev`. The result is the pointer returned, `some none` being `nullptr`; `none`
stands for a dereference of `nullptr` or for running out of fuel. -/
def lcaLoop [DecidableEq ι] : Nat → ι → ι → Option (Option ι)
  | 0, pa, pb => if pa = pb then some (some pa) else none
  | fuel + 1, pa, pb =>
    if pa = pb then some (some pa)
    else
      (lcaSkipLoop index fuel pa pb).bind fun (pa, pb) =>
        match (index pa).pprev, (index pb).pprev with
        | some pa, some pb => lcaLoop fuel pa pb
        | none, none => some none
        | _, _ => none

theorem lcaLoop_zero [DecidableEq ι] (pa pb : ι) :
    lcaLoop index 0 pa pb = if pa = pb then some (some pa) else none := rfl

theorem lcaLoop_succ [DecidableEq ι] (fuel : Nat) (pa pb : ι) :
    lcaLoop index (fuel + 1) pa pb =
      if pa = pb then some (some pa)
      else
        (lcaSkipLoop index fuel pa pb).bind fun (pa, pb) =>
          match (index pa).pprev, (index pb).pprev with
          | some pa, some pb => lcaLoop index fuel pa pb
          | none, none => some none
          | _, _ => none := rfl

/-- The first step of `LastCommonAncestor`: rewind the higher entry to the other's height. -/
def rewindToCommonHeight (pa pb : ι) : Option (ι × ι) :=
  if (index pa).nHeight > (index pb).nHeight then
    (getAncestor index pa (index pb).nHeight).map fun pa => (pa, pb)
  else if (index pb).nHeight > (index pa).nHeight then
    (getAncestor index pb (index pa).nHeight).map fun pb => (pa, pb)
  else some (pa, pb)

/-- `LastCommonAncestor`, with enough fuel for its loops. -/
def lastCommonAncestor [DecidableEq ι] (pa pb : ι) : Option (Option ι) :=
  (rewindToCommonHeight index pa pb).bind fun (pa, pb) =>
    lcaLoop index ((index pa).nHeight.toNat + 1) pa pb

-- ---------------------------------------------------------------------------
-- GetAncestor follows pprev
-- ---------------------------------------------------------------------------

open Ancestry

/-- `pskip`, where set, points to the ancestor at the skip height. -/
def SkipSound (p : ι) : Prop :=
  ∀ s, (index p).pskip = some s →
    IsAncestor (pprevOf index) s p ∧ (index s).nHeight = getSkipHeight (index p).nHeight

/-- The common ancestors of `pa` and `pb`. -/
def CommonAncestor (c pa pb : ι) : Prop :=
  IsAncestor (pprevOf index) c pa ∧ IsAncestor (pprevOf index) c pb

variable {index}

theorem getAncestor_of_not_mem {p : ι} {height : Int} (h : height < 0 ∨ (index p).nHeight < height) :
    getAncestor index p height = none := by
  unfold getAncestor
  rw [if_pos (by omega)]

section WellFormed

variable (hwf : WellFormed index)
include hwf

theorem WellFormed.height_nonneg (p : ι) : 0 ≤ (index p).nHeight := hwf.leveled.level_nonneg p

theorem WellFormed.height_of_isAncestor {p q : ι} (h : IsAncestor (pprevOf index) q p) :
    (index q).nHeight ≤ (index p).nHeight :=
  h.level_le hwf.leveled

theorem WellFormed.height_pprev {p q : ι} (hq : (index p).pprev = some q) :
    (index q).nHeight = (index p).nHeight - 1 :=
  hwf.leveled.parent_level p q hq

/-- An entry above height `0` has its parent one height below. -/
theorem WellFormed.pprev_of_pos {p : ι} (hpos : 0 < (index p).nHeight) :
    ∃ q, (index p).pprev = some q ∧ (index q).nHeight = (index p).nHeight - 1 := by
  obtain ⟨q, hq⟩ := Option.isSome_iff_exists.mp (hwf.leveled.parent_of_pos p hpos)
  exact ⟨q, hq, hwf.height_pprev hq⟩

/-- Below `height`, a pass of the loop goes to an ancestor, down but not past `height`. -/
theorem ancestorStep_spec {height : Int} {pw : ι} (hskip : SkipSound index pw) (h0 : 0 ≤ height)
    (hlt : height < (index pw).nHeight) :
    ∃ q, ancestorStep index height pw (index pw).nHeight = some (q, (index q).nHeight) ∧
      height ≤ (index q).nHeight ∧ (index q).nHeight < (index pw).nHeight ∧
      IsAncestor (pprevOf index) q pw := by
  -- the `pprev` branch, taken when `pskip` is not followed
  have hprev : ∃ q, (index pw).pprev.map (fun pprev => (pprev, (index pw).nHeight - 1)) =
      some (q, (index q).nHeight) ∧ height ≤ (index q).nHeight ∧
      (index q).nHeight < (index pw).nHeight ∧ IsAncestor (pprevOf index) q pw := by
    obtain ⟨q, hq, hlevel⟩ := hwf.pprev_of_pos (show 0 < (index pw).nHeight by omega)
    refine ⟨q, ?_, by omega, by omega, IsAncestor.of_parent _ hq⟩
    rw [hq, hlevel]
    rfl
  unfold ancestorStep
  dsimp only
  cases hs : (index pw).pskip with
  | none => exact hprev
  | some s =>
    dsimp only
    split
    · case isTrue hcond =>
      obtain ⟨hanc, hheight⟩ := hskip s hs
      have hlt' := getSkipHeight_lt (show 1 ≤ (index pw).nHeight by omega)
      refine ⟨s, by rw [hheight], ?_, by omega, hanc⟩
      rcases hcond with heq | ⟨hgt, -⟩ <;> omega
    · exact hprev

/-- The loop of `GetAncestor` from an entry at or above `height` ends at its ancestor at
`height`, within as many passes as the heights between, when every `pskip` below is sound. -/
theorem getAncestorLoop_spec {height : Int} (h0 : 0 ≤ height) :
    ∀ (fuel : Nat) (pw : ι), height ≤ (index pw).nHeight → (index pw).nHeight - height ≤ fuel →
      (∀ q, IsAncestor (pprevOf index) q pw → SkipSound index q) →
      ∃ r, getAncestorLoop index height fuel pw (index pw).nHeight = some r ∧
        IsAncestor (pprevOf index) r pw ∧ (index r).nHeight = height
  | 0, pw, hle, hfuel, _ => by
    refine ⟨pw, ?_, IsAncestor.refl _ pw, by omega⟩
    rw [getAncestorLoop_zero, if_neg (by omega)]
  | fuel + 1, pw, hle, hfuel, hskips => by
    rw [getAncestorLoop_succ]
    by_cases hlt : (index pw).nHeight > height
    · rw [if_pos hlt]
      obtain ⟨q, hstep, hq₁, hq₂, hanc⟩ :=
        ancestorStep_spec hwf (hskips pw (IsAncestor.refl _ pw)) h0 hlt
      rw [hstep, Option.bind_some]
      obtain ⟨r, hloop, hr, hheight⟩ := getAncestorLoop_spec h0 fuel q hq₁ (by omega)
        fun q' hq' => hskips q' (hq'.trans _ hanc)
      exact ⟨r, hloop, hr.trans _ hanc, hheight⟩
    · rw [if_neg hlt]
      exact ⟨pw, rfl, IsAncestor.refl _ pw, by omega⟩

/-- Every `pskip` of a well-formed tree is sound: by induction on the height, since
`BuildSkip` ran `GetAncestor` from the parent, below which every `pskip` is sound. -/
theorem skipSound (p : ι) : SkipSound index p := by
  suffices h : ∀ n : Nat, ∀ p : ι, (index p).nHeight.toNat = n → SkipSound index p from h _ p rfl
  intro n
  induction n using Nat.strongRecOn with
  | _ n ih =>
    intro p hn s hs
    rw [hwf.skip_built p, buildSkip] at hs
    obtain ⟨q, hq, hget⟩ := Option.bind_eq_some_iff.mp hs
    have hlevel := hwf.height_pprev hq
    have hq0 := hwf.height_nonneg q
    have hskip0 := getSkipHeight_nonneg (index p).nHeight
    have hskiplt := getSkipHeight_lt (show 1 ≤ (index p).nHeight by omega)
    unfold getAncestor at hget
    rw [if_neg (by omega)] at hget
    -- the ancestors of the parent are below `p`, where the induction applies
    obtain ⟨r, hloop, hr, hheight⟩ := getAncestorLoop_spec hwf hskip0
      ((index q).nHeight - getSkipHeight (index p).nHeight).toNat q (by omega) (by omega)
      fun q' hq' => ih _ (by have := hwf.height_of_isAncestor hq'; omega) q' rfl
    rw [hloop, Option.some.injEq] at hget
    subst hget
    exact ⟨hr.trans _ (IsAncestor.of_parent _ hq), hheight⟩

/-- `GetAncestor` reaches the ancestor at the height asked for, when that is between `0` and
the entry's height. -/
theorem getAncestor_spec (p : ι) {height : Int} (h0 : 0 ≤ height) (hle : height ≤ (index p).nHeight) :
    ∃ r, getAncestor index p height = some r ∧ IsAncestor (pprevOf index) r p ∧
      (index r).nHeight = height := by
  unfold getAncestor
  rw [if_neg (by omega)]
  exact getAncestorLoop_spec hwf h0 _ p hle (by omega) fun q _ => skipSound hwf q

/-- `GetAncestor` is the entry that following `pprev` reaches. -/
theorem getAncestor_eq (p : ι) {height : Int} (h0 : 0 ≤ height) (hle : height ≤ (index p).nHeight) :
    getAncestor index p height = up (pprevOf index) p ((index p).nHeight - height).toNat := by
  obtain ⟨r, hget, hanc, hheight⟩ := getAncestor_spec hwf p h0 hle
  rw [hget, ← hheight]
  exact (up_of_isAncestor hwf.leveled hanc).symm

/-- Whatever `GetAncestor` returns is an ancestor at the height asked for. -/
theorem getAncestor_some {p r : ι} {height : Int} (h : getAncestor index p height = some r) :
    IsAncestor (pprevOf index) r p ∧ (index r).nHeight = height := by
  by_cases hin : 0 ≤ height ∧ height ≤ (index p).nHeight
  · obtain ⟨r', hget, hanc, hheight⟩ := getAncestor_spec hwf p hin.1 hin.2
    rw [hget, Option.some.injEq] at h
    subst h
    exact ⟨hanc, hheight⟩
  · rw [getAncestor_of_not_mem (by omega)] at h
    cases h

/-- An entry above height `0` has its `pskip` set, to its ancestor at the skip height. -/
theorem pskip_of_pos {p : ι} (hpos : 0 < (index p).nHeight) :
    ∃ s, (index p).pskip = some s ∧ IsAncestor (pprevOf index) s p ∧
      (index s).nHeight = getSkipHeight (index p).nHeight := by
  obtain ⟨q, hq, hlevel⟩ := hwf.pprev_of_pos hpos
  have hskiplt := getSkipHeight_lt (show 1 ≤ (index p).nHeight by omega)
  obtain ⟨s, hget, -⟩ :=
    getAncestor_spec hwf q (getSkipHeight_nonneg (index p).nHeight) (by omega)
  have hs : (index p).pskip = some s := by
    rw [hwf.skip_built p, buildSkip, hq, Option.bind_some, hget]
  exact ⟨s, hs, skipSound hwf p s hs⟩

-- ---------------------------------------------------------------------------
-- LastCommonAncestor
-- ---------------------------------------------------------------------------

/-- Rewinding to the lower height keeps the common ancestors. -/
theorem rewindToCommonHeight_spec (pa pb : ι) :
    ∃ pa' pb', rewindToCommonHeight index pa pb = some (pa', pb') ∧
      (index pa').nHeight = (index pb').nHeight ∧
      ∀ c, CommonAncestor index c pa' pb' ↔ CommonAncestor index c pa pb := by
  have ha0 := hwf.height_nonneg pa
  have hb0 := hwf.height_nonneg pb
  unfold rewindToCommonHeight
  split
  · case isTrue hgt =>
    obtain ⟨r, hget, hanc, hheight⟩ := getAncestor_spec hwf pa hb0 (Int.le_of_lt hgt)
    refine ⟨r, pb, by rw [hget]; rfl, hheight, fun c => ⟨?_, ?_⟩⟩
    · rintro ⟨hcr, hcb⟩
      exact ⟨hcr.trans _ hanc, hcb⟩
    · rintro ⟨hca, hcb⟩
      have := hwf.height_of_isAncestor hcb
      exact ⟨hca.of_level_le hwf.leveled hanc (by unfold nHeightOf; omega), hcb⟩
  · split
    · case isTrue hgt =>
      obtain ⟨r, hget, hanc, hheight⟩ := getAncestor_spec hwf pb ha0 (Int.le_of_lt hgt)
      refine ⟨pa, r, by rw [hget]; rfl, hheight.symm, fun c => ⟨?_, ?_⟩⟩
      · rintro ⟨hca, hcr⟩
        exact ⟨hca, hcr.trans _ hanc⟩
      · rintro ⟨hca, hcb⟩
        have := hwf.height_of_isAncestor hca
        exact ⟨hca, hcb.of_level_le hwf.leveled hanc (by unfold nHeightOf; omega)⟩
    · exact ⟨pa, pb, rfl, by omega, fun _ => Iff.rfl⟩

variable [DecidableEq ι]

/-- The inner loop keeps the common ancestors: two distinct entries at one height with
distinct `pskip`s have their common ancestors below the skip height. -/
theorem lcaSkipLoop_spec :
    ∀ (fuel : Nat) (pa pb : ι), pa ≠ pb → (index pa).nHeight = (index pb).nHeight →
      (index pa).nHeight ≤ fuel → (∃ c, CommonAncestor index c pa pb) →
      ∃ pa' pb', lcaSkipLoop index fuel pa pb = some (pa', pb') ∧ pa' ≠ pb' ∧
        (index pa').nHeight = (index pb').nHeight ∧ (index pa').nHeight ≤ (index pa).nHeight ∧
        ∀ c, CommonAncestor index c pa' pb' ↔ CommonAncestor index c pa pb
  | fuel, pa, pb, hne, heq, hfuel, ⟨c, hca, hcb⟩ => by
    by_cases hskip : (index pa).pskip = (index pb).pskip
    · refine ⟨pa, pb, ?_, hne, heq, Int.le_refl _, fun _ => Iff.rfl⟩
      cases fuel with
      | zero => rw [lcaSkipLoop_zero, if_pos hskip]
      | succ fuel => rw [lcaSkipLoop_succ, if_pos hskip]
    · -- distinct entries with a common ancestor are above height `0`, so both jump
      have hpos : 0 < (index pa).nHeight := by
        have := level_lt_of_ne hwf.leveled hca hcb hne heq
        have := hwf.height_nonneg c
        unfold nHeightOf at *
        omega
      obtain ⟨sa, hsa, hanca, hheighta⟩ := pskip_of_pos hwf hpos
      obtain ⟨sb, hsb, hancb, hheightb⟩ := pskip_of_pos hwf (heq ▸ hpos)
      have hsne : sa ≠ sb := fun h => hskip (by rw [hsa, hsb, h])
      have hiff : ∀ c, CommonAncestor index c sa sb ↔ CommonAncestor index c pa pb := fun c =>
        (isAncestor_iff_of_ne hwf.leveled hanca hancb hsne (by unfold nHeightOf; rw [hheighta, hheightb, heq])).symm
      have hlt := getSkipHeight_lt (show 1 ≤ (index pa).nHeight by omega)
      cases fuel with
      | zero => omega
      | succ fuel =>
        rw [lcaSkipLoop_succ, if_neg hskip, hsa, hsb]
        obtain ⟨pa', pb', hloop, hne', heq', hle', hiff'⟩ := lcaSkipLoop_spec fuel sa sb hsne
          (by rw [hheighta, hheightb, heq]) (by omega) ⟨c, (hiff c).mpr ⟨hca, hcb⟩⟩
        exact ⟨pa', pb', hloop, hne', heq', by omega, fun c => (hiff' c).trans (hiff c)⟩

/-- The outer loop returns the entry whose ancestors are the common ancestors. -/
theorem lcaLoop_spec :
    ∀ (fuel : Nat) (pa pb : ι), (index pa).nHeight = (index pb).nHeight →
      (index pa).nHeight < fuel → (∃ c, CommonAncestor index c pa pb) →
      ∃ c, lcaLoop index fuel pa pb = some (some c) ∧
        ∀ c', CommonAncestor index c' pa pb ↔ IsAncestor (pprevOf index) c' c
  | fuel, pa, pb, heq, hfuel, hcommon => by
    by_cases hab : pa = pb
    · subst hab
      refine ⟨pa, ?_, fun c' => ⟨fun h => h.1, fun h => ⟨h, h⟩⟩⟩
      cases fuel with
      | zero => rw [lcaLoop_zero, if_pos rfl]
      | succ fuel => rw [lcaLoop_succ, if_pos rfl]
    · have ha0 := hwf.height_nonneg pa
      obtain ⟨fuel, rfl⟩ : ∃ k, fuel = k + 1 := ⟨fuel - 1, by omega⟩
      obtain ⟨pa', pb', hskip, hne', heq', hle', hiff'⟩ :=
        lcaSkipLoop_spec hwf fuel pa pb hab heq (by omega) hcommon
      obtain ⟨c, hc⟩ := hcommon
      obtain ⟨hca, hcb⟩ := (hiff' c).mpr hc
      -- one step along `pprev` from two distinct entries keeps the common ancestors
      have hlt := level_lt_of_ne hwf.leveled hca hcb hne' heq'
      have hc0 := hwf.height_nonneg c
      unfold nHeightOf at hlt
      obtain ⟨qa, hqa, hla⟩ := hwf.pprev_of_pos (show 0 < (index pa').nHeight by omega)
      obtain ⟨qb, hqb, hlb⟩ := hwf.pprev_of_pos (show 0 < (index pb').nHeight by omega)
      have hiff : ∀ c, CommonAncestor index c qa qb ↔ CommonAncestor index c pa' pb' := fun c =>
        (isAncestor_iff_parent_of_ne hwf.leveled hqa hqb hne' heq').symm
      obtain ⟨r, hloop, hr⟩ := lcaLoop_spec fuel qa qb (by omega) (by omega)
        ⟨c, (hiff c).mpr ⟨hca, hcb⟩⟩
      refine ⟨r, ?_, fun c' => ((hiff' c').symm.trans (hiff c').symm).trans (hr c')⟩
      rw [lcaLoop_succ, if_neg hab, hskip, Option.bind_some]
      dsimp only
      rw [hqa, hqb]
      exact hloop

/-- `LastCommonAncestor` of two entries of one tree returns the entry whose ancestors are
exactly their common ancestors: the deepest of those. -/
theorem lastCommonAncestor_spec {pa pb : ι} (hcommon : ∃ c, CommonAncestor index c pa pb) :
    ∃ c, lastCommonAncestor index pa pb = some (some c) ∧
      ∀ c', CommonAncestor index c' pa pb ↔ IsAncestor (pprevOf index) c' c := by
  obtain ⟨pa', pb', hrewind, heq, hiff⟩ := rewindToCommonHeight_spec hwf pa pb
  obtain ⟨c, hca, hcb⟩ := hcommon
  obtain ⟨r, hloop, hr⟩ := lcaLoop_spec hwf ((index pa').nHeight.toNat + 1) pa' pb' heq (by omega)
    ⟨c, (hiff c).mpr ⟨hca, hcb⟩⟩
  refine ⟨r, ?_, fun c' => (hiff c').symm.trans (hr c')⟩
  rw [lastCommonAncestor, hrewind, Option.bind_some]
  exact hloop

end WellFormed

/-- In a block index tree: `pskip` goes strictly down, `GetAncestor` at a height from `0` to
the entry's own is the entry that following `pprev` reaches and `nullptr` at any other
height, and `LastCommonAncestor` of two entries of one tree is their deepest common
ancestor. -/
theorem getAncestor_lastCommonAncestor_correct [DecidableEq ι] (hwf : WellFormed index) :
    (∀ height : Int, 1 ≤ height → getSkipHeight height < height) ∧
    (∀ (b : ι) (t : Int), 0 ≤ t → t ≤ (index b).nHeight →
      getAncestor index b t = up (pprevOf index) b ((index b).nHeight - t).toNat) ∧
    (∀ (b : ι) (t : Int), t < 0 ∨ (index b).nHeight < t → getAncestor index b t = none) ∧
    (∀ pa pb : ι, (∃ c, CommonAncestor index c pa pb) →
      ∃ c, lastCommonAncestor index pa pb = some (some c) ∧ CommonAncestor index c pa pb ∧
        ∀ c', CommonAncestor index c' pa pb →
          IsAncestor (pprevOf index) c' c ∧ (index c').nHeight ≤ (index c).nHeight) := by
  refine ⟨fun _ h => getSkipHeight_lt h, fun b _ h0 hle => getAncestor_eq hwf b h0 hle,
    fun _ _ h => getAncestor_of_not_mem h, fun pa pb hcommon => ?_⟩
  obtain ⟨c, hlca, hiff⟩ := lastCommonAncestor_spec hwf hcommon
  refine ⟨c, hlca, (hiff c).mpr (IsAncestor.refl _ c), fun c' hc' => ?_⟩
  have hanc := (hiff c').mp hc'
  exact ⟨hanc, hwf.height_of_isAncestor hanc⟩

end Walks

/-- A chain of three entries, each `pskip` set by `BuildSkip`. -/
def exampleChain : Fin 3 → CBlockIndex (Fin 3)
  | 0 => ⟨none, none, 0, 0⟩
  | 1 => ⟨some 0, some 0, 1, 600⟩
  | 2 => ⟨some 1, some 0, 2, 1200⟩

theorem exampleChain_wellFormed : WellFormed exampleChain :=
  ⟨⟨by decide, by decide, by decide⟩, by decide⟩

theorem getAncestor_lastCommonAncestor_correct_chain :
    (∀ height : Int, 1 ≤ height → getSkipHeight height < height) ∧
    (∀ (b : Fin 3) (t : Int), 0 ≤ t → t ≤ (exampleChain b).nHeight →
      getAncestor exampleChain b t =
        Ancestry.up (pprevOf exampleChain) b ((exampleChain b).nHeight - t).toNat) ∧
    (∀ (b : Fin 3) (t : Int), t < 0 ∨ (exampleChain b).nHeight < t →
      getAncestor exampleChain b t = none) ∧
    (∀ pa pb : Fin 3, (∃ c, CommonAncestor exampleChain c pa pb) →
      ∃ c, lastCommonAncestor exampleChain pa pb = some (some c) ∧
        CommonAncestor exampleChain c pa pb ∧
        ∀ c', CommonAncestor exampleChain c' pa pb →
          Ancestry.IsAncestor (pprevOf exampleChain) c' c ∧
            (exampleChain c').nHeight ≤ (exampleChain c).nHeight) :=
  getAncestor_lastCommonAncestor_correct exampleChain_wellFormed

end Riecoin.Chain
