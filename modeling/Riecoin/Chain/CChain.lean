-- SUMMARY: CChain, the active chain as a vector of entries indexed by height: SetTip leaves every slot the new tip's ancestor at that height across any reorganisation, so Contains is the ancestor relation and FindFork returns the deepest common ancestor.
import Riecoin.Chain.BlockIndex
import Mathlib.Data.List.GetD

/-!
# The active chain

`CChain` keeps the entries of one chain in `vChain`, one slot per height, where `none` is
`nullptr`. `SetTip` resizes `vChain` to the new tip's height and walks down from the tip along
`pprev`, writing each entry into the slot at its height, until it meets a slot that already
holds the entry. Stopping there is sound because every entry in a slot of `vChain` starts a
`pprev`-linked run down the slots below it (`Linked`): the slots under the meeting point
already hold the new tip's ancestors, whether the new tip is above, below or beside the old.

So from the empty chain, every `SetTip` leaves the chain of its tip (`ChainOf`,
`setTip_chainOf`); on such a chain `Contains` is the ancestor relation (`contains_iff`) and
`FindFork` returns the deepest common ancestor (`findFork_isFork`).
-/

namespace Riecoin.Chain

open Ancestry

/-- `CChain`: `vChain[h]` is the chain's entry at height `h`. -/
structure CChain (ι : Type) where
  vChain : List (Option ι)

namespace CChain

variable {ι : Type} (index : ι → CBlockIndex ι)

-- ---------------------------------------------------------------------------
-- The chain and its queries
-- ---------------------------------------------------------------------------

/-- `Genesis`: the entry at height `0`, `nullptr` for an empty chain. -/
def genesis (c : CChain ι) : Option ι := c.vChain.headD none

/-- `Tip`: the entry in the last slot, `nullptr` for an empty chain. -/
def tip (c : CChain ι) : Option ι := c.vChain.getLastD none

/-- `operator[]`: the entry at `nHeight`, `nullptr` where there is no such height. -/
def get (c : CChain ι) (nHeight : Int) : Option ι :=
  if nHeight < 0 ∨ nHeight ≥ c.vChain.length then none else c.vChain.getD nHeight.toNat none

/-- `Height`. -/
def height (c : CChain ι) : Int := c.vChain.length - 1

/-- `std::vector::resize`: cut to `n` slots, or fill up to `n` with `nullptr`. -/
def resize (vChain : List (Option ι)) (n : Nat) : List (Option ι) :=
  vChain.take n ++ List.replicate (n - vChain.length) none

section Code

variable [DecidableEq ι]

/-- `Contains`: the slot at the entry's height holds the entry. -/
def contains (c : CChain ι) (p : ι) : Bool := decide (c.get (index p).nHeight = some p)

/-- `Next`: the entry one above, for an entry of the chain. -/
def next (c : CChain ι) (p : ι) : Option ι :=
  if c.contains index p then c.get ((index p).nHeight + 1) else none

/-- The loop of `SetTip`: from `pindex` down along `pprev`, write each entry into the slot at
its height until a slot already holds it. -/
def setTipLoop : Nat → List (Option ι) → Option ι → List (Option ι)
  | 0, vChain, _ => vChain
  | _ + 1, vChain, none => vChain
  | fuel + 1, vChain, some pindex =>
    if vChain.getD (index pindex).nHeight.toNat none ≠ some pindex then
      setTipLoop fuel (vChain.set (index pindex).nHeight.toNat (some pindex)) (index pindex).pprev
    else vChain

@[simp] theorem setTipLoop_none (fuel : Nat) (vChain : List (Option ι)) :
    setTipLoop index fuel vChain none = vChain := by
  cases fuel <;> rfl

theorem setTipLoop_succ_some (fuel : Nat) (vChain : List (Option ι)) (pindex : ι) :
    setTipLoop index (fuel + 1) vChain (some pindex) =
      if vChain.getD (index pindex).nHeight.toNat none ≠ some pindex then
        setTipLoop index fuel (vChain.set (index pindex).nHeight.toNat (some pindex)) (index pindex).pprev
      else vChain := rfl

/-- `SetTip`, with a pass of the loop for each height from the new tip's down to `0`. -/
def setTip (c : CChain ι) (block : ι) : CChain ι :=
  ⟨setTipLoop index ((index block).nHeight.toNat + 1)
    (resize c.vChain ((index block).nHeight + 1).toNat) (some block)⟩

/-- The loop of `FindFork`: down along `pprev` until an entry that the chain contains. -/
def findForkLoop (c : CChain ι) : Nat → Option ι → Option ι
  | 0, pindex => pindex
  | _ + 1, none => none
  | fuel + 1, some pindex =>
    if c.contains index pindex then some pindex else findForkLoop c fuel (index pindex).pprev

@[simp] theorem findForkLoop_none (c : CChain ι) (fuel : Nat) :
    c.findForkLoop index fuel none = none := by
  cases fuel <;> rfl

theorem findForkLoop_succ_some (c : CChain ι) (fuel : Nat) (pindex : ι) :
    c.findForkLoop index (fuel + 1) (some pindex) =
      if c.contains index pindex then some pindex else c.findForkLoop index fuel (index pindex).pprev := rfl

/-- `FindFork`: rewind the entry to the chain's height, then walk down to the chain, with a
pass of the loop for each height from the entry's down to `0`. -/
def findFork (c : CChain ι) (b : ι) : Option ι :=
  let pindex := if (index b).nHeight > c.height then getAncestor index b c.height else some b
  c.findForkLoop index ((index b).nHeight.toNat + 1) pindex

/-- The chain after `SetTip` to each of `tips` in turn. -/
def setTips (c : CChain ι) (tips : List ι) : CChain ι := tips.foldl (setTip index) c

end Code

-- ---------------------------------------------------------------------------
-- The invariants
-- ---------------------------------------------------------------------------

/-- Every entry in a slot starts a `pprev`-linked run of the slots below it: it sits in the
slot at its own height, and each slot below holds its ancestor at that height. -/
def Linked (vChain : List (Option ι)) : Prop :=
  ∀ j p, vChain.getD j none = some p →
    (index p).nHeight = j ∧ ∀ i ≤ j, vChain.getD i none = up (pprevOf index) p (j - i)

/-- `vChain` is the chain of `tip`: a slot for each height up to the tip's, each holding the
tip's ancestor at that height. -/
structure ChainOf (vChain : List (Option ι)) (tip : ι) : Prop where
  length_eq : vChain.length = (index tip).nHeight.toNat + 1
  getD_eq : ∀ i < vChain.length,
    vChain.getD i none = up (pprevOf index) tip ((index tip).nHeight.toNat - i)

/-- The state of `SetTip`'s loop on its way from the resized chain `w` to the chain of `tip`,
with the slots from `m` up done and those below `m` untouched. -/
structure SetTipInv (w : List (Option ι)) (tip : ι) (m : Nat) (vChain : List (Option ι)) :
    Prop where
  length_eq : vChain.length = (index tip).nHeight.toNat + 1
  above : ∀ i < vChain.length, m ≤ i →
    vChain.getD i none = up (pprevOf index) tip ((index tip).nHeight.toNat - i)
  below : ∀ i < m, vChain.getD i none = w.getD i none

/-- What `FindFork` of `b` on the chain of `t` should return: an entry whose ancestors are
exactly the common ancestors of `b` and `t`, so the deepest of those; or `nullptr`, when the
two have none. -/
def IsFork (b t : ι) : Option ι → Prop
  | some f => ∀ a, CommonAncestor index a b t ↔ IsAncestor (pprevOf index) a f
  | none => ∀ a, ¬CommonAncestor index a b t

variable {index}

-- ---------------------------------------------------------------------------
-- Slots
-- ---------------------------------------------------------------------------

section Slots

variable {α : Type}

theorem getD_resize (vChain : List (Option α)) (n i : Nat) :
    (resize vChain n).getD i none = if i < n then vChain.getD i none else none := by
  unfold resize
  simp only [List.getD_eq_getElem?_getD, List.getElem?_append, List.getElem?_take,
    List.getElem?_replicate, List.length_take]
  grind

@[simp] theorem length_resize (vChain : List (Option α)) (n : Nat) :
    (resize vChain n).length = n := by
  unfold resize
  simp only [List.length_append, List.length_take, List.length_replicate]
  omega

theorem getD_set_self {l : List α} {i : Nat} (h : i < l.length) (x d : α) :
    (l.set i x).getD i d = x := by
  simp [h]

theorem getD_set_ne {l : List α} {i j : Nat} (h : i ≠ j) (x d : α) :
    (l.set i x).getD j d = l.getD j d := by
  simp [List.getElem?_set_ne h]

end Slots

theorem linked_nil : Linked index ([] : List (Option ι)) := by
  intro j p h
  simp at h

theorem linked_resize {vChain : List (Option ι)} (h : Linked index vChain) (n : Nat) :
    Linked index (resize vChain n) := by
  intro j p hp
  rw [getD_resize] at hp
  split at hp
  · obtain ⟨hj, hbelow⟩ := h j p hp
    refine ⟨hj, fun i hi => ?_⟩
    rw [getD_resize, if_pos (by omega)]
    exact hbelow i hi
  · cases hp

theorem SetTipInv.init {w : List (Option ι)} {tip : ι}
    (hlen : w.length = (index tip).nHeight.toNat + 1) :
    SetTipInv index w tip ((index tip).nHeight.toNat + 1) w :=
  ⟨hlen, fun i hi hle => absurd hi (by omega), fun _ _ => rfl⟩

/-- Writing the tip's ancestor into the slot just below the done ones. -/
theorem SetTipInv.set {w vChain : List (Option ι)} {tip p : ι} {j : Nat}
    (hinv : SetTipInv index w tip (j + 1) vChain)
    (hp : up (pprevOf index) tip ((index tip).nHeight.toNat - j) = some p) :
    SetTipInv index w tip j (vChain.set j (some p)) where
  length_eq := by rw [List.length_set, hinv.length_eq]
  above i hi hji := by
    rw [List.length_set] at hi
    rcases Nat.eq_or_lt_of_le hji with rfl | hlt
    · rw [getD_set_self hi, hp]
    · rw [getD_set_ne (by omega), hinv.above i hi hlt]
  below i hi := by
    rw [getD_set_ne (by omega), hinv.below i (by omega)]

theorem SetTipInv.chainOf {w vChain : List (Option ι)} {tip : ι}
    (hinv : SetTipInv index w tip 0 vChain) : ChainOf index vChain tip :=
  ⟨hinv.length_eq, fun i hi => hinv.above i hi (Nat.zero_le i)⟩

/-- Where the loop meets a slot that already holds the tip's ancestor, the slots below hold
the run of that entry's ancestors, which are the tip's. -/
theorem SetTipInv.chainOf_of_getD_eq {w vChain : List (Option ι)} {tip p : ι} {j : Nat}
    (hw : Linked index w) (hinv : SetTipInv index w tip (j + 1) vChain)
    (hj : j ≤ (index tip).nHeight.toNat)
    (hp : up (pprevOf index) tip ((index tip).nHeight.toNat - j) = some p)
    (hslot : vChain.getD j none = some p) : ChainOf index vChain tip := by
  have hwj : w.getD j none = some p := by rw [← hinv.below j (by omega), hslot]
  obtain ⟨-, hbelow⟩ := hw j p hwj
  refine ⟨hinv.length_eq, fun i hi => ?_⟩
  rcases Nat.lt_or_ge i (j + 1) with hij | hji
  · rw [hinv.below i hij, hbelow i (by omega),
      show (index tip).nHeight.toNat - i = ((index tip).nHeight.toNat - j) + (j - i) by omega,
      up_add_of_up _ hp]
  · exact hinv.above i hi hji

-- ---------------------------------------------------------------------------
-- Reading the chain of a tip
-- ---------------------------------------------------------------------------

section ChainOf

variable {c : CChain ι} {t : ι} (hc : ChainOf index c.vChain t)
include hc

theorem get_of_chainOf {n : Int} (h0 : 0 ≤ n) (hn : n ≤ (index t).nHeight) :
    c.get n = up (pprevOf index) t ((index t).nHeight - n).toNat := by
  have hlen := hc.length_eq
  rw [get, if_neg (by omega), hc.getD_eq _ (by omega)]
  congr 1
  omega

theorem tip_of_chainOf : c.tip = some t := by
  have hlen := hc.length_eq
  rw [tip, List.getLastD_eq_getLast?, List.getLast?_eq_getElem?, ← List.getD_eq_getElem?_getD,
    hc.getD_eq _ (by omega), show (index t).nHeight.toNat - (c.vChain.length - 1) = 0 by omega,
    up_zero]

end ChainOf

-- ---------------------------------------------------------------------------
-- Heights in a leveled tree
-- ---------------------------------------------------------------------------

section Leveled

variable (hl : Leveled (pprevOf index) (nHeightOf index))
include hl

theorem height_nonneg (p : ι) : 0 ≤ (index p).nHeight := hl.level_nonneg p

theorem height_le_of_isAncestor {p q : ι} (h : IsAncestor (pprevOf index) q p) :
    (index q).nHeight ≤ (index p).nHeight :=
  h.level_le hl

theorem height_pprev {p q : ι} (h : (index p).pprev = some q) :
    (index q).nHeight = (index p).nHeight - 1 :=
  hl.parent_level p q h

theorem pprev_of_pos {p : ι} (hpos : 0 < (index p).nHeight) :
    ∃ q, (index p).pprev = some q ∧ (index q).nHeight = (index p).nHeight - 1 := by
  obtain ⟨q, hq⟩ := Option.isSome_iff_exists.mp (hl.parent_of_pos p hpos)
  exact ⟨q, hq, height_pprev hl hq⟩

theorem height_up {t p : ι} {k : Nat} (h : up (pprevOf index) t k = some p) :
    (index p).nHeight = (index t).nHeight - k :=
  level_up hl h

theorem pprev_eq_none {p : ι} (h : (index p).nHeight = 0) : (index p).pprev = none := by
  cases hq : (index p).pprev with
  | none => rfl
  | some q =>
    have hqh := height_pprev hl hq
    have hq0 := height_nonneg hl q
    omega

theorem ChainOf.linked {vChain : List (Option ι)} {t : ι} (h : ChainOf index vChain t) :
    Linked index vChain := by
  intro j p hp
  have hj : j < vChain.length := by
    refine Nat.lt_of_not_le fun hge => ?_
    rw [List.getD_eq_default _ _ hge] at hp
    cases hp
  have hup := hp
  rw [h.getD_eq j hj] at hup
  have ht := height_nonneg hl t
  have hlen := h.length_eq
  refine ⟨?_, fun i hi => ?_⟩
  · have := height_up hl hup
    omega
  · rw [h.getD_eq i (by omega),
      show (index t).nHeight.toNat - i = ((index t).nHeight.toNat - j) + (j - i) by omega,
      up_add_of_up _ hup]

/-- Each slot of the chain of `t` holds the ancestor of `t` at the slot's height. -/
theorem ChainOf.exists_getD {vChain : List (Option ι)} {t : ι} (h : ChainOf index vChain t)
    {i : Nat} (hi : i < vChain.length) :
    ∃ a, vChain.getD i none = some a ∧ IsAncestor (pprevOf index) a t ∧ (index a).nHeight = i := by
  have ht := height_nonneg hl t
  have hlen := h.length_eq
  obtain ⟨a, ha⟩ := up_isSome hl t ((index t).nHeight.toNat - i) (by
    change (((index t).nHeight.toNat - i : Nat) : Int) ≤ (index t).nHeight
    omega)
  have hah := height_up hl ha
  exact ⟨a, by rw [h.getD_eq i hi, ha], ⟨_, ha⟩, by omega⟩

-- ---------------------------------------------------------------------------
-- SetTip
-- ---------------------------------------------------------------------------

section SetTip

variable [DecidableEq ι]

/-- The loop of `SetTip`, from any state of its walk down the tip's ancestors, ends with the
chain of the tip. The induction is on the fuel, which bounds the height still to walk. -/
theorem setTipLoop_chainOf {w : List (Option ι)} {tip : ι} (hw : Linked index w) :
    ∀ (fuel j : Nat) (vChain : List (Option ι)) (p : ι), j < fuel →
      j ≤ (index tip).nHeight.toNat →
      up (pprevOf index) tip ((index tip).nHeight.toNat - j) = some p →
      SetTipInv index w tip (j + 1) vChain →
      ChainOf index (setTipLoop index fuel vChain (some p)) tip
  | 0, _, _, _, hfuel, _, _, _ => absurd hfuel (Nat.not_lt_zero _)
  | fuel + 1, j, vChain, p, hfuel, hj, hp, hinv => by
    have hpj : (index p).nHeight = j := by
      have := height_up hl hp
      have := height_nonneg hl tip
      omega
    rw [setTipLoop_succ_some, hpj, Int.toNat_natCast]
    by_cases hslot : vChain.getD j none = some p
    · rw [if_neg (not_not.mpr hslot)]
      exact hinv.chainOf_of_getD_eq hw hj hp hslot
    · rw [if_pos hslot]
      have hinv' := hinv.set hp
      cases j with
      | zero =>
        -- at height `0` there is no parent, and the loop ends
        rw [pprev_eq_none hl hpj, setTipLoop_none]
        exact hinv'.chainOf
      | succ j =>
        obtain ⟨q, hq, -⟩ := pprev_of_pos hl (p := p) (by omega)
        have hq' : up (pprevOf index) tip ((index tip).nHeight.toNat - j) = some q := by
          rw [show (index tip).nHeight.toNat - j = ((index tip).nHeight.toNat - (j + 1)) + 1 by
            omega, up_succ, hp, Option.bind_some]
          exact hq
        rw [hq]
        exact setTipLoop_chainOf hw fuel j _ q (by omega) (by omega) hq' hinv'

/-- `SetTip` from a chain whose entries start `pprev`-linked runs leaves the chain of the new
tip. -/
theorem setTip_chainOf {c : CChain ι} (hc : Linked index c.vChain) (b : ι) :
    ChainOf index (c.setTip index b).vChain b := by
  have hb := height_nonneg hl b
  have hn : ((index b).nHeight + 1).toNat = (index b).nHeight.toNat + 1 := by omega
  unfold setTip
  simp only [hn]
  refine setTipLoop_chainOf hl (linked_resize hc _) _ _ _ b (Nat.lt_succ_self _) (Nat.le_refl _)
    (by rw [Nat.sub_self]; rfl) (SetTipInv.init (length_resize _ _))

theorem linked_setTips {c : CChain ι} (hc : Linked index c.vChain) (tips : List ι) :
    Linked index (c.setTips index tips).vChain := by
  induction tips generalizing c with
  | nil => exact hc
  | cons b tips ih => exact ih ((setTip_chainOf hl hc b).linked hl)

/-- From the empty chain, the last `SetTip` of any run leaves the chain of its tip. -/
theorem setTips_chainOf (tips : List ι) (b : ι) :
    ChainOf index (setTips index ⟨[]⟩ (tips ++ [b])).vChain b := by
  rw [setTips, List.foldl_append, List.foldl_cons, List.foldl_nil]
  exact setTip_chainOf hl (linked_setTips hl linked_nil tips) b

end SetTip

-- ---------------------------------------------------------------------------
-- Contains, Next and FindFork on the chain of a tip
-- ---------------------------------------------------------------------------

section Queries

variable {c : CChain ι} {t : ι} (hc : ChainOf index c.vChain t)
include hc

theorem height_of_chainOf : c.height = (index t).nHeight := by
  have ht := height_nonneg hl t
  rw [height, hc.length_eq]
  omega

theorem get_of_not_mem {n : Int} (h : n < 0 ∨ (index t).nHeight < n) : c.get n = none := by
  have ht := height_nonneg hl t
  have hlen := hc.length_eq
  rw [get, if_pos (by omega)]

variable [DecidableEq ι]

/-- `Contains` holds of exactly the tip's ancestors. -/
theorem contains_iff (p : ι) : c.contains index p = true ↔ IsAncestor (pprevOf index) p t := by
  rw [contains, decide_eq_true_iff]
  constructor
  · intro h
    -- only a slot from `0` to the tip's height holds an entry
    have hin : 0 ≤ (index p).nHeight ∧ (index p).nHeight ≤ (index t).nHeight := by
      refine Classical.byContradiction fun hout => ?_
      rw [get_of_not_mem hl hc (by omega)] at h
      cases h
    rw [get_of_chainOf hc hin.1 hin.2] at h
    exact ⟨_, h⟩
  · intro h
    rw [get_of_chainOf hc (height_nonneg hl p) (height_le_of_isAncestor hl h)]
    exact up_of_isAncestor hl h

theorem findForkLoop_isFork (b : ι) :
    ∀ (fuel : Nat) (p : ι), (index p).nHeight < fuel → IsAncestor (pprevOf index) p b →
      (∀ a, CommonAncestor index a b t → IsAncestor (pprevOf index) a p) →
      IsFork index b t (c.findForkLoop index fuel (some p))
  | 0, p, hfuel, _, _ => absurd (height_nonneg hl p) (by omega)
  | fuel + 1, p, hfuel, hpb, hbelow => by
    rw [findForkLoop_succ_some]
    by_cases hp : c.contains index p = true
    · -- `p` is on the chain: a common ancestor, with every other one below it
      rw [if_pos hp]
      have hpt := (contains_iff hl hc p).mp hp
      exact fun a => ⟨hbelow a, fun ha => ⟨ha.trans _ hpb, ha.trans _ hpt⟩⟩
    · rw [if_neg hp]
      have hpt : ¬IsAncestor (pprevOf index) p t := fun h => hp ((contains_iff hl hc p).mpr h)
      -- every common ancestor is below `p` but not `p`, so below its parent
      have hstrict : ∀ a, CommonAncestor index a b t →
          ∃ q, (index p).pprev = some q ∧ IsAncestor (pprevOf index) a q := by
        intro a ha
        rcases (hbelow a ha).eq_or_of_parent _ with rfl | hq
        · exact absurd ha.2 hpt
        · exact hq
      cases hq : (index p).pprev with
      | none =>
        rw [findForkLoop_none]
        intro a ha
        obtain ⟨q, hq', -⟩ := hstrict a ha
        rw [hq] at hq'
        cases hq'
      | some q =>
        have hqh := height_pprev hl hq
        refine findForkLoop_isFork b fuel q (by omega) ((IsAncestor.of_parent _ hq).trans _ hpb)
          fun a ha => ?_
        obtain ⟨q', hq', haq⟩ := hstrict a ha
        rw [hq, Option.some.injEq] at hq'
        exact hq' ▸ haq

end Queries

end Leveled

section WellFormed

variable [DecidableEq ι] (hwf : WellFormed index) {c : CChain ι} {t : ι}
  (hc : ChainOf index c.vChain t)
include hwf hc

/-- `FindFork` on the chain of `t` returns the deepest common ancestor of its argument and
`t`, or `nullptr` when they have none. -/
theorem findFork_isFork (b : ι) : IsFork index b t (c.findFork index b) := by
  have hl := hwf.leveled
  have hb0 := height_nonneg hl b
  have ht0 := height_nonneg hl t
  unfold findFork
  simp only [height_of_chainOf hl hc]
  by_cases hgt : (index b).nHeight > (index t).nHeight
  · -- rewound to the tip's height, above which the two have no common ancestor
    obtain ⟨p, hget, hpb, hph⟩ := getAncestor_spec hwf b ht0 (by omega)
    rw [if_pos hgt, hget]
    refine findForkLoop_isFork hl hc b _ p (by omega) hpb fun a ha => ?_
    have hat := height_le_of_isAncestor hl ha.2
    exact ha.1.of_level_le hl hpb (by
      change (index a).nHeight ≤ (index p).nHeight
      omega)
  · rw [if_neg hgt]
    exact findForkLoop_isFork hl hc b _ b (by omega) (IsAncestor.refl _ b) fun a ha => ha.1

end WellFormed

/-- From the empty chain, after each `SetTip` of any run: `vChain` has a slot for each height
up to the new tip's, each holding the tip's ancestor at that height; `Contains` holds of
exactly the tip's ancestors; and `FindFork` returns the deepest common ancestor of its
argument and the tip, or `nullptr` when the two have none. -/
theorem setTip_contains_findFork_correct [DecidableEq ι] (hwf : WellFormed index)
    (tips : List ι) (b : ι) (c : CChain ι) (hrun : c = setTips index ⟨[]⟩ (tips ++ [b])) :
    ((c.vChain.length : Int) = (index b).nHeight + 1 ∧ c.tip = some b ∧
      ∀ i < c.vChain.length, ∃ a, c.vChain.getD i none = some a ∧
        IsAncestor (pprevOf index) a b ∧ (index a).nHeight = i) ∧
    (∀ p, c.contains index p = true ↔ IsAncestor (pprevOf index) p b) ∧
    (∀ p, (∃ f, c.findFork index p = some f ∧
        ∀ a, CommonAncestor index a p b ↔ IsAncestor (pprevOf index) a f) ∨
      (c.findFork index p = none ∧ ∀ a, ¬CommonAncestor index a p b)) := by
  subst hrun
  have hl := hwf.leveled
  have hc := setTips_chainOf hl tips b
  have hlen := hc.length_eq
  have hb := height_nonneg hl b
  refine ⟨⟨by omega, tip_of_chainOf hc, fun i hi => hc.exists_getD hl hi⟩, contains_iff hl hc,
    fun p => ?_⟩
  have hfork := findFork_isFork hwf hc p
  cases hr : (setTips index ⟨[]⟩ (tips ++ [b])).findFork index p with
  | none =>
    rw [hr] at hfork
    exact .inr ⟨rfl, hfork⟩
  | some f =>
    rw [hr] at hfork
    exact .inl ⟨f, rfl, hfork⟩

end CChain

/-- A tree of four entries that forks above height `1`, each `pskip` set by `BuildSkip`. -/
def exampleFork : Fin 4 → CBlockIndex (Fin 4)
  | 0 => ⟨none, none, 0, 0⟩
  | 1 => ⟨some 0, some 0, 1, 600⟩
  | 2 => ⟨some 1, some 0, 2, 1200⟩
  | 3 => ⟨some 1, some 0, 2, 1260⟩

theorem exampleFork_wellFormed : WellFormed exampleFork :=
  ⟨⟨by decide, by decide, by decide⟩, by decide⟩

/-- A reorganisation from one branch of `exampleFork` to the other. -/
theorem setTip_contains_findFork_correct_sideways :
    WellFormed exampleFork ∧
    CChain.setTips exampleFork ⟨[]⟩ ([2] ++ [3]) = CChain.setTips exampleFork ⟨[]⟩ ([2] ++ [3]) ∧
    (((CChain.setTips exampleFork ⟨[]⟩ ([2] ++ [3])).vChain.length : Int) =
        (exampleFork 3).nHeight + 1 ∧
      (CChain.setTips exampleFork ⟨[]⟩ ([2] ++ [3])).tip = some 3 ∧
      ∀ i < (CChain.setTips exampleFork ⟨[]⟩ ([2] ++ [3])).vChain.length, ∃ a,
        (CChain.setTips exampleFork ⟨[]⟩ ([2] ++ [3])).vChain.getD i none = some a ∧
          Ancestry.IsAncestor (pprevOf exampleFork) a 3 ∧ (exampleFork a).nHeight = i) ∧
    (∀ p, (CChain.setTips exampleFork ⟨[]⟩ ([2] ++ [3])).contains exampleFork p = true ↔
      Ancestry.IsAncestor (pprevOf exampleFork) p 3) ∧
    (∀ p, (∃ f, (CChain.setTips exampleFork ⟨[]⟩ ([2] ++ [3])).findFork exampleFork p = some f ∧
        ∀ a, CommonAncestor exampleFork a p 3 ↔ Ancestry.IsAncestor (pprevOf exampleFork) a f) ∨
      ((CChain.setTips exampleFork ⟨[]⟩ ([2] ++ [3])).findFork exampleFork p = none ∧
        ∀ a, ¬CommonAncestor exampleFork a p 3)) :=
  ⟨exampleFork_wellFormed, rfl,
    CChain.setTip_contains_findFork_correct exampleFork_wellFormed [2] 3 _ rfl⟩

example : (CChain.setTips exampleFork ⟨[]⟩ [2, 3]).vChain = [some 0, some 1, some 3] := by
  decide

example : (CChain.setTips exampleFork ⟨[]⟩ [2, 3]).findFork exampleFork 2 = some 1 := by
  decide

end Riecoin.Chain
