-- SUMMARY: ChunkLinearizationInfo and ChunkLinearization of cluster_linearize.h and the naive chunking of the chunking fuzz test, each refining the stack algorithm or the naive rule of Riecoin.Lib.Chunking.
import Riecoin.Util.FeeFrac
import Riecoin.Lib.Chunking
import Mathlib.Algebra.BigOperators.Group.Finset.Basic
import Mathlib.Algebra.Order.AbsoluteValue.Basic
import Mathlib.Algebra.Order.BigOperators.Group.List

/-!
# Chunking a linearization

`ChunkLinearizationInfo` (`cluster_linearize.h`) walks a linearization with a stack of chunks
(`ret`, kept here back first): each transaction enters as a singleton chunk, which absorbs the
chunks at the back while its feerate is higher (`ByRatio`), and is then pushed.
`ChunkLinearization` does the same with the feerates only. Both are `chunkBy`, over `SetInfo`s
or over `FeeFrac`s. The `DepGraph` is read through `FeeRate(i)` only, a function here. Sums are
checked as in `Riecoin.Util.FeeFrac`: `none` where `+=` would overflow.

`naiveChunking` is the naive check of the chunking fuzz test: the best prefix of the
transactions left (`naiveBest`, the first accumulator of highest feerate), removed from `todo`,
until none is left.

Read through the weights `(fee, size)` of the transactions, `chunkBy` runs the stack algorithm of
`Riecoin.Lib.Chunking` (`chunkBy_spec`) and `naiveChunking` its naive rule
(`naiveChunking_spec`), which give the same chunks.
-/

namespace Riecoin

open CheckedInt Chunking

/-- `SetInfo`: a set of transactions and their combined fee and size. -/
structure SetInfo where
  transactions : Finset Nat
  feerate : FeeFrac
  deriving DecidableEq

section ChunkBy

variable {β : Type} (feerate : β → FeeFrac) (join : β → β → FeeFrac → β)

/-- The `while` loop of `ChunkLinearizationInfo` for a new chunk `c`, over chunks of type `β`
with feerate `feerate`: `join c back f` is `c |= back`, with combined feerate `f`. The stack
`ret` is kept back first. -/
def absorbBy : β → List β → Option (List β)
  | c, [] => some [c]
  | c, back :: rest =>
    if FeeFrac.compareByRatio (feerate c) (feerate back) == .gt then do
      let f ← (feerate c).add? (feerate back)
      absorbBy (join c back f) rest
    else some (c :: back :: rest)

/-- `ret` after the loop over `linearization`, each transaction `i` entering as `single i`. -/
def chunkBy (single : Nat → β) (linearization : List Nat) : Option (List β) :=
  List.reverse <$> linearization.foldlM (fun ret i => absorbBy feerate join (single i) ret) []

end ChunkBy

/-- `ChunkLinearizationInfo(depgraph, linearization)`. -/
def chunkLinearizationInfo (feeRate : Nat → FeeFrac) (linearization : List Nat) : Option (List SetInfo) :=
  chunkBy SetInfo.feerate (fun c back f => ⟨c.transactions ∪ back.transactions, f⟩)
    (fun i => ⟨{i}, feeRate i⟩) linearization

/-- `ChunkLinearization(depgraph, linearization)`. -/
def chunkLinearization (feeRate : Nat → FeeFrac) (linearization : List Nat) : Option (List FeeFrac) :=
  chunkBy id (fun _ _ f => f) feeRate linearization

/-- One transaction of `todo` in the naive check: `accumulator.Set(depgraph, idx)`, and `best`
becomes the accumulator if it is empty or the accumulator has the higher feerate. -/
def naiveStep (feeRate : Nat → FeeFrac) (p : SetInfo × SetInfo) (idx : Nat) : Option (SetInfo × SetInfo) := do
  let f ← p.1.feerate.add? (feeRate idx)
  let accumulator : SetInfo := ⟨insert idx p.1.transactions, f⟩
  pure (accumulator,
    if p.2.feerate.size == 0 || FeeFrac.compareByRatio accumulator.feerate p.2.feerate == .gt then accumulator
    else p.2)

/-- The best prefix of the transactions of `todo`, in linearization order. -/
def naiveBest (feeRate : Nat → FeeFrac) (todo : Finset Nat) (linearization : List Nat) : Option SetInfo :=
  Prod.snd <$> linearization.foldlM
    (fun p idx => if idx ∈ todo then naiveStep feeRate p idx else pure p) (⟨∅, default⟩, ⟨∅, default⟩)

/-- The chunks of the naive check: the best prefix of what is left, removed from `todo`, until
`todo` is empty; `fuel` bounds the number of chunks. -/
def naiveChunking (feeRate : Nat → FeeFrac) (linearization : List Nat) : Nat → Finset Nat → Option (List SetInfo)
  | 0, _ => some []
  | fuel + 1, todo =>
    if todo = ∅ then some [] else do
      let best ← naiveBest feeRate todo linearization
      let rest ← naiveChunking feeRate linearization fuel (todo \ best.transactions)
      pure (best :: rest)

-- ---------------------------------------------------------------------------
-- Feerates as pairs of integers
-- ---------------------------------------------------------------------------

/-- The fee and the size of a `FeeFrac`, as integers. -/
def FeeFrac.toPair (f : FeeFrac) : ℤ × ℤ := (f.fee.toInt, f.size.toInt)

/-- The weights of the transactions, read by `Riecoin.Lib.Chunking`. -/
def weight (feeRate : Nat → FeeFrac) (i : Nat) : ℤ × ℤ := (feeRate i).toPair

/-- A fee that fits an `int64_t` and a size that fits an `int32_t`. -/
def Fits (p : ℤ × ℤ) : Prop := InRange 64 p.1 ∧ InRange 32 p.2

theorem FeeFrac.toPair_inj {a b : FeeFrac} : a.toPair = b.toPair ↔ a = b := by
  constructor
  · intro h
    obtain ⟨hf, hs⟩ := Prod.mk.inj h
    cases a
    cases b
    simp only [FeeFrac.mk.injEq]
    exact ⟨Int64.toInt_inj.mp hf, Int32.toInt_inj.mp hs⟩
  · rintro rfl
    rfl

theorem FeeFrac.compareByRatio_eq_gt_iff {a b : FeeFrac} :
    FeeFrac.compareByRatio a b = .gt ↔ Higher a.toPair b.toPair :=
  FeeFrac.compareByRatio_eq_gt

theorem FeeFrac.add?_toPair {a b : FeeFrac} (h : Fits (a.toPair + b.toPair)) :
    ∃ c, a.add? b = some c ∧ c.toPair = a.toPair + b.toPair := by
  obtain ⟨c, hc, hf, hs⟩ := FeeFrac.add?_spec h.1 h.2
  exact ⟨c, hc, Prod.ext hf hs⟩

theorem FeeFrac.toPair_default : (default : FeeFrac).toPair = 0 := rfl

-- ---------------------------------------------------------------------------
-- The stack of chunks
-- ---------------------------------------------------------------------------

section Refinement

variable {feeRate : Nat → FeeFrac} {β : Type} {feerate : β → FeeFrac} {join : β → β → FeeFrac → β}
  {Rep : β → List Nat → Prop}
  (hfee : ∀ c blk, Rep c blk → (feerate c).toPair = total (weight feeRate) blk)
  (hjoin : ∀ c back blk blk' f, Rep c blk → Rep back blk' →
    f.toPair = total (weight feeRate) (blk' ++ blk) → Rep (join c back f) (blk' ++ blk))
include hfee hjoin

/-- The loop of a new chunk runs `absorb` on the chunks the stack holds, where no sum
overflows. -/
theorem absorbBy_spec {st : List β} {sts : List (List Nat)} (hst : List.Forall₂ Rep st sts) :
    ∀ {c : β} {blk : List Nat}, Rep c blk →
      (∀ s, s.Sublist (sts.reverse.flatten ++ blk) → Fits (total (weight feeRate) s)) →
      ∃ out, absorbBy feerate join c st = some out ∧
        List.Forall₂ Rep out (absorb (weight feeRate) blk sts) := by
  induction hst with
  | nil =>
    intro c blk hc _
    exact ⟨[c], rfl, by simpa [absorb] using hc⟩
  | @cons back top st sts hback hrest ih =>
    intro c blk hc hfit
    have hcmp : FeeFrac.compareByRatio (feerate c) (feerate back) = .gt ↔
        Higher (total (weight feeRate) blk) (total (weight feeRate) top) := by
      rw [FeeFrac.compareByRatio_eq_gt_iff, hfee c blk hc, hfee back top hback]
    by_cases hhigh : Higher (total (weight feeRate) blk) (total (weight feeRate) top)
    · -- `c` absorbs `back`: their sum is the total of `top ++ blk`, items of the stack
      have hsum : (feerate c).toPair + (feerate back).toPair = total (weight feeRate) (top ++ blk) := by
        rw [hfee c blk hc, hfee back top hback, total_append, add_comm]
      have hfit_merged : Fits (total (weight feeRate) (top ++ blk)) :=
        hfit _ (by simp)
      obtain ⟨f, hadd, hf⟩ := FeeFrac.add?_toPair (hsum ▸ hfit_merged)
      obtain ⟨out, hout, hrep⟩ := ih (hjoin c back blk top f hc hback (hf.trans hsum))
        (fun s hs => hfit s (by simpa using hs))
      refine ⟨out, ?_, ?_⟩
      · rw [absorbBy, if_pos (by simpa using hcmp.mpr hhigh), hadd]
        exact hout
      · rw [absorb, if_pos hhigh]
        exact hrep
    · -- `c` is pushed
      refine ⟨c :: back :: st, ?_, ?_⟩
      · rw [absorbBy, if_neg (by simpa using mt hcmp.mp hhigh)]
      · rw [absorb, if_neg hhigh]
        exact .cons hc (.cons hback hrest)

theorem foldlM_absorbBy_spec {single : Nat → β} (hsingle : ∀ i, Rep (single i) [i]) (l : List Nat) :
    ∀ {st : List β} {sts : List (List Nat)}, List.Forall₂ Rep st sts →
      (∀ s, s.Sublist (sts.reverse.flatten ++ l) → Fits (total (weight feeRate) s)) →
      ∃ out, l.foldlM (fun ret i => absorbBy feerate join (single i) ret) st = some out ∧
        List.Forall₂ Rep out (l.foldl (fun st x => absorb (weight feeRate) [x] st) sts) := by
  induction l with
  | nil =>
    intro st sts hst _
    exact ⟨st, rfl, hst⟩
  | cons i l ih =>
    intro st sts hst hfit
    obtain ⟨out, hout, hrep⟩ := absorbBy_spec hfee hjoin hst (hsingle i)
      (fun s hs => hfit s (hs.trans (by simp)))
    have hfit' : ∀ s, s.Sublist ((absorb (weight feeRate) [i] sts).reverse.flatten ++ l) →
        Fits (total (weight feeRate) s) := by
      intro s hs
      rw [reverse_flatten_absorb, List.append_assoc, List.singleton_append] at hs
      exact hfit s hs
    obtain ⟨out', hout', hrep'⟩ := ih hrep hfit'
    exact ⟨out', by rw [List.foldlM_cons, hout]; exact hout', hrep'⟩

/-- `chunkBy` returns the chunks of the stack algorithm, where no sum of transactions
overflows. -/
theorem chunkBy_spec {single : Nat → β} (hsingle : ∀ i, Rep (single i) [i]) {l : List Nat}
    (hfit : ∀ s, s.Sublist l → Fits (total (weight feeRate) s)) :
    ∃ out, chunkBy feerate join single l = some out ∧ List.Forall₂ Rep out (stackChunks (weight feeRate) l) := by
  obtain ⟨out, hout, hrep⟩ := foldlM_absorbBy_spec hfee hjoin hsingle l List.Forall₂.nil (by simpa using hfit)
  exact ⟨out.reverse, by simp [chunkBy, hout], List.forall₂_reverse_iff.mpr hrep⟩

end Refinement

-- ---------------------------------------------------------------------------
-- The naive check
-- ---------------------------------------------------------------------------

/-- `si` holds the transactions `blk` with their exact fee and size. -/
def InfoRep (feeRate : Nat → FeeFrac) (si : SetInfo) (blk : List Nat) : Prop :=
  si.transactions = blk.toFinset ∧ si.feerate.toPair = total (weight feeRate) blk

section Naive

variable {feeRate : Nat → FeeFrac}

theorem InfoRep.nil : InfoRep feeRate ⟨∅, default⟩ [] := ⟨rfl, FeeFrac.toPair_default⟩

/-- A best set that is empty has size 0; one that is not has a positive size. -/
theorem InfoRep.size_eq_zero_iff {si : SetInfo} {blk : List Nat} (h : InfoRep feeRate si blk)
    (hpos : PosSizes (weight feeRate) blk) : si.feerate.size = 0 ↔ blk = [] := by
  have hsize : si.feerate.size.toInt = (total (weight feeRate) blk).2 := congrArg Prod.snd h.2
  constructor
  · intro h0
    by_contra hne
    have := total_pos hpos hne
    rw [← hsize, h0] at this
    simp at this
  · rintro rfl
    apply Int32.toInt_inj.mp
    simpa using hsize

/-- One transaction of the naive check is one step of the scan of `Riecoin.Lib.Chunking`. -/
theorem naiveStep_spec {p : SetInfo × SetInfo} {q : List Nat × List Nat} {idx : Nat}
    (hacc : InfoRep feeRate p.1 q.1) (hbest : InfoRep feeRate p.2 q.2) (hsub : q.2.Sublist q.1)
    (hpos : PosSizes (weight feeRate) (q.1 ++ [idx])) (hfit : Fits (total (weight feeRate) (q.1 ++ [idx]))) :
    ∃ p', naiveStep feeRate p idx = some p' ∧ InfoRep feeRate p'.1 (bestStep (weight feeRate) q idx).1 ∧
      InfoRep feeRate p'.2 (bestStep (weight feeRate) q idx).2 ∧
      (bestStep (weight feeRate) q idx).2.Sublist (bestStep (weight feeRate) q idx).1 := by
  have hsum : p.1.feerate.toPair + (feeRate idx).toPair = total (weight feeRate) (q.1 ++ [idx]) := by
    rw [hacc.2, total_append, total_cons, total_nil, add_zero]
    rfl
  obtain ⟨f, hadd, hf⟩ := FeeFrac.add?_toPair (hsum ▸ hfit)
  have hrep_acc : InfoRep feeRate ⟨insert idx p.1.transactions, f⟩ (q.1 ++ [idx]) := by
    refine ⟨?_, hf.trans hsum⟩
    rw [hacc.1, List.toFinset_append, List.toFinset_cons, List.toFinset_nil, insert_empty_eq,
      Finset.union_singleton]
  -- the test's condition is the scan's: the best set is empty, or the accumulator is higher
  have hcond : (p.2.feerate.size == 0 || FeeFrac.compareByRatio f p.2.feerate == .gt) = true ↔
      q.2 = [] ∨ Higher (total (weight feeRate) (q.1 ++ [idx])) (total (weight feeRate) q.2) := by
    rw [Bool.or_eq_true, beq_iff_eq, beq_iff_eq, hbest.size_eq_zero_iff (hpos.sublist (hsub.trans (by simp))),
      FeeFrac.compareByRatio_eq_gt_iff, hf.trans hsum, hbest.2]
  have hstep : naiveStep feeRate p idx = some (⟨insert idx p.1.transactions, f⟩,
      if p.2.feerate.size == 0 || FeeFrac.compareByRatio f p.2.feerate == .gt then ⟨insert idx p.1.transactions, f⟩
      else p.2) := by
    rw [naiveStep, hadd]
    rfl
  refine ⟨_, hstep, by rw [bestStep_fst]; exact hrep_acc, ?_, ?_⟩
  · rw [bestStep_snd]
    by_cases hc : q.2 = [] ∨ Higher (total (weight feeRate) (q.1 ++ [idx])) (total (weight feeRate) q.2)
    · rw [if_pos (hcond.mpr hc), if_pos hc]
      exact hrep_acc
    · rw [if_neg (mt hcond.mp hc), if_neg hc]
      exact hbest
  · rw [bestStep_snd, bestStep_fst]
    split_ifs
    · exact List.Sublist.refl _
    · exact hsub.trans (List.sublist_append_left _ _)

theorem foldlM_naiveStep_spec (r : List Nat) :
    ∀ {p : SetInfo × SetInfo} {q : List Nat × List Nat}, InfoRep feeRate p.1 q.1 → InfoRep feeRate p.2 q.2 →
      q.2.Sublist q.1 → PosSizes (weight feeRate) (q.1 ++ r) →
      (∀ s, s.Sublist (q.1 ++ r) → Fits (total (weight feeRate) s)) →
      ∃ p', r.foldlM (naiveStep feeRate) p = some p' ∧ InfoRep feeRate p'.2 (r.foldl (bestStep (weight feeRate)) q).2 := by
  induction r with
  | nil =>
    intro p q _ hbest _ _ _
    exact ⟨p, rfl, hbest⟩
  | cons idx r ih =>
    intro p q hacc hbest hsub hpos hfit
    have hpre : (q.1 ++ [idx]).Sublist (q.1 ++ idx :: r) := by simp
    obtain ⟨p', hstep, hacc', hbest', hsub'⟩ :=
      naiveStep_spec hacc hbest hsub (hpos.sublist hpre) (hfit _ hpre)
    have hrest : (bestStep (weight feeRate) q idx).1 ++ r = q.1 ++ idx :: r := by simp [bestStep_fst]
    obtain ⟨p'', hfold, hrep⟩ := ih hacc' hbest' hsub' (by rw [hrest]; exact hpos)
      (fun s hs => hfit s (by rwa [hrest] at hs))
    exact ⟨p'', by rw [List.foldlM_cons, hstep]; exact hfold, hrep⟩

/-- The naive check's best set is the scan's best prefix of the transactions of `todo`. -/
theorem naiveBest_spec (todo : Finset Nat) (l : List Nat)
    (hpos : PosSizes (weight feeRate) (l.filter (· ∈ todo)))
    (hfit : ∀ s, s.Sublist (l.filter (· ∈ todo)) → Fits (total (weight feeRate) s)) :
    ∃ best, naiveBest feeRate todo l = some best ∧
      InfoRep feeRate best (bestPrefix (weight feeRate) (l.filter (· ∈ todo))) := by
  -- skipping the transactions out of `todo` is scanning the filtered list
  have hfilter : l.foldlM (fun p idx => if idx ∈ todo then naiveStep feeRate p idx else pure p)
      (⟨∅, default⟩, ⟨∅, default⟩) = (l.filter (· ∈ todo)).foldlM (naiveStep feeRate) (⟨∅, default⟩, ⟨∅, default⟩) := by
    rw [List.foldlM_filter]
    simp only [decide_eq_true_eq]
  obtain ⟨p', hfold, hrep⟩ := foldlM_naiveStep_spec (l.filter (· ∈ todo)) (p := (⟨∅, default⟩, ⟨∅, default⟩))
    (q := ([], []))
    InfoRep.nil InfoRep.nil (List.Sublist.refl _) (by simpa using hpos) (by simpa using hfit)
  exact ⟨p'.2, by rw [naiveBest, hfilter, hfold]; rfl, hrep⟩

/-- Removing a prefix of the transactions of `todo` from `todo` leaves the rest of them, in order. -/
theorem filter_mem_sdiff_take {l : List Nat} (hnodup : l.Nodup) (todo : Finset Nat) (k : Nat) :
    l.filter (· ∈ todo \ ((l.filter (· ∈ todo)).take k).toFinset) = (l.filter (· ∈ todo)).drop k := by
  have hr : (l.filter (· ∈ todo)).Nodup := hnodup.sublist List.filter_sublist
  have hsplit : l.filter (· ∈ todo \ ((l.filter (· ∈ todo)).take k).toFinset) =
      (l.filter (· ∈ todo)).filter (· ∉ ((l.filter (· ∈ todo)).take k)) := by
    rw [List.filter_filter]
    congr 1
    funext x
    simp [Finset.mem_sdiff, Bool.and_comm]
  rw [hsplit]
  conv_lhs => rw [← List.take_append_drop k (l.filter (· ∈ todo))]
  rw [← List.take_append_drop k (l.filter (· ∈ todo))] at hr
  have hdisj := List.disjoint_of_nodup_append hr
  rw [List.filter_append, List.filter_eq_nil_iff.mpr (by simp), List.nil_append, List.filter_eq_self.mpr]
  intro x hx
  simpa using fun hin => hdisj hin hx

/-- The naive check computes the naive rule's chunks of the transactions of `todo`. -/
theorem naiveChunking_spec {l : List Nat} (hnodup : l.Nodup) (hpos : PosSizes (weight feeRate) l)
    (hfit : ∀ s, s.Sublist l → Fits (total (weight feeRate) s)) (fuel : Nat) :
    ∀ {todo : Finset Nat}, todo ⊆ l.toFinset → (l.filter (· ∈ todo)).length ≤ fuel →
      ∃ out, naiveChunking feeRate l fuel todo = some out ∧
        List.Forall₂ (InfoRep feeRate) out (naiveChunks (weight feeRate) (l.filter (· ∈ todo))) := by
  induction fuel with
  | zero =>
    intro todo hsub hlen
    have hnil : l.filter (· ∈ todo) = [] := List.eq_nil_of_length_eq_zero (by omega)
    exact ⟨[], rfl, by rw [hnil, naiveChunks_nil]; exact .nil⟩
  | succ fuel ih =>
    intro todo hsub hlen
    by_cases hempty : todo = ∅
    · subst hempty
      exact ⟨[], by simp [naiveChunking], by simp [naiveChunks_nil]⟩
    · -- `todo` holds a transaction of the linearization
      have hne : l.filter (· ∈ todo) ≠ [] := by
        obtain ⟨x, hx⟩ := Finset.nonempty_iff_ne_empty.mpr hempty
        have hxl : x ∈ l := List.mem_toFinset.mp (hsub hx)
        exact List.ne_nil_of_mem (List.mem_filter.mpr ⟨hxl, by simpa using hx⟩)
      have hfsub : (l.filter (· ∈ todo)).Sublist l := List.filter_sublist
      obtain ⟨best, hbest, hrep⟩ := naiveBest_spec todo l (hpos.sublist hfsub) (fun s hs => hfit s (hs.trans hfsub))
      obtain ⟨k, hk0, hkl, htake⟩ := bestPrefix_eq_take_of_ne_nil (w := weight feeRate) hne
      have hrest : l.filter (· ∈ todo \ best.transactions) = (l.filter (· ∈ todo)).drop k := by
        rw [hrep.1, htake]
        exact filter_mem_sdiff_take hnodup todo k
      have hsub' : todo \ best.transactions ⊆ l.toFinset := Finset.sdiff_subset.trans hsub
      obtain ⟨rest, hnaive, hreps⟩ := ih hsub' (by rw [hrest, List.length_drop]; omega)
      refine ⟨best :: rest, by simp [naiveChunking, hempty, hbest, hnaive], ?_⟩
      rw [naiveChunks_of_ne_nil hne, htake, List.length_take, Nat.min_eq_left hkl, ← htake, ← hrest]
      exact .cons hrep hreps

end Naive

-- ---------------------------------------------------------------------------
-- The chunks of a linearization
-- ---------------------------------------------------------------------------

section Chunks

variable {feeRate : Nat → FeeFrac}

theorem infoRep_single (i : Nat) : InfoRep feeRate ⟨{i}, feeRate i⟩ [i] :=
  ⟨by simp, by simp [weight]⟩

/-- `new_chunk |= ret.back()` holds the items of both chunks. -/
theorem infoRep_join {c back : SetInfo} {blk blk' : List Nat} {f : FeeFrac} (hc : InfoRep feeRate c blk)
    (hback : InfoRep feeRate back blk') (hf : f.toPair = total (weight feeRate) (blk' ++ blk)) :
    InfoRep feeRate ⟨c.transactions ∪ back.transactions, f⟩ (blk' ++ blk) :=
  ⟨by rw [hc.1, hback.1, List.toFinset_append, Finset.union_comm], hf⟩

theorem InfoRep.unique {a b : SetInfo} {blk : List Nat} (ha : InfoRep feeRate a blk) (hb : InfoRep feeRate b blk) :
    a = b := by
  cases a
  cases b
  simp only [SetInfo.mk.injEq]
  exact ⟨ha.1.trans hb.1.symm, FeeFrac.toPair_inj.mp (ha.2.trans hb.2.symm)⟩

theorem eq_of_forall₂_infoRep {a b : List SetInfo} {blks : List (List Nat)}
    (ha : List.Forall₂ (InfoRep feeRate) a blks) (hb : List.Forall₂ (InfoRep feeRate) b blks) : a = b := by
  induction ha generalizing b with
  | nil => exact (List.forall₂_nil_right_iff.mp hb).symm
  | cons hx _ ih =>
    cases hb with
    | cons hy hrest => rw [hx.unique hy, ih hrest]

/-- Chunks read as `SetInfo`s and as `FeeFrac`s of the same items have the same feerates. -/
theorem map_feerate_eq {info : List SetInfo} {fr : List FeeFrac} {blks : List (List Nat)}
    (hi : List.Forall₂ (InfoRep feeRate) info blks)
    (hf : List.Forall₂ (fun f blk => f.toPair = total (weight feeRate) blk) fr blks) :
    info.map SetInfo.feerate = fr := by
  induction hi generalizing fr with
  | nil => exact (List.forall₂_nil_right_iff.mp hf).symm
  | cons hx _ ih =>
    cases hf with
    | cons hy hrest => rw [List.map_cons, FeeFrac.toPair_inj.mp (hx.2.trans hy.symm), ih hrest]

/-- The feerate of a chunk is the sum over its transactions. -/
theorem InfoRep.feerate_eq_sum {c : SetInfo} {blk : List Nat} (h : InfoRep feeRate c blk) (hnodup : blk.Nodup) :
    c.feerate.fee.toInt = ∑ i ∈ c.transactions, (feeRate i).fee.toInt ∧
      c.feerate.size.toInt = ∑ i ∈ c.transactions, (feeRate i).size.toInt := by
  rw [h.1, List.sum_toFinset _ hnodup, List.sum_toFinset _ hnodup]
  exact ⟨(congrArg Prod.fst h.2).trans (fst_total _ _), (congrArg Prod.snd h.2).trans (snd_total _ _)⟩

theorem forall_mem_of_forall₂ {info : List SetInfo} {blks : List (List Nat)} {P : SetInfo → Prop}
    (h : List.Forall₂ (InfoRep feeRate) info blks) (hP : ∀ c blk, InfoRep feeRate c blk → blk ∈ blks → P c) :
    ∀ c ∈ info, P c := by
  induction h with
  | nil => simp
  | cons hx _ ih =>
    intro c hc
    rcases List.mem_cons.mp hc with rfl | hc
    · exact hP _ _ hx List.mem_cons_self
    · exact ih (fun c blk hrep hmem => hP c blk hrep (List.mem_cons_of_mem _ hmem)) c hc

/-- Ratios that never increase, read on the `SetInfo`s: `ByRatio{chunking[i]} <= ByRatio{chunking[i - 1]}`. -/
theorem isChain_of_forall₂ {info : List SetInfo} {blks : List (List Nat)}
    (h : List.Forall₂ (InfoRep feeRate) info blks)
    (hch : blks.IsChain fun c d => ¬Higher (total (weight feeRate) d) (total (weight feeRate) c)) :
    info.IsChain fun a b => FeeFrac.compareByRatio b.feerate a.feerate ≠ .gt := by
  induction h with
  | nil => exact List.isChain_nil
  | @cons x blk info blks hx hrest ih =>
    cases hrest with
    | nil => exact List.isChain_singleton _
    | @cons y blk' info' blks' hy hrest' =>
      have hrel := (List.isChain_cons_cons.mp hch).1
      refine List.IsChain.cons_cons ?_ (ih hch.tail)
      rw [Ne, FeeFrac.compareByRatio_eq_gt_iff, hx.2, hy.2]
      exact hrel

theorem abs_fst_total_le (s : List Nat) :
    |(total (weight feeRate) s).1| ≤ (s.map fun i => |(feeRate i).fee.toInt|).sum := by
  induction s with
  | nil => simp
  | cons i s ih =>
    rw [total_cons, Prod.fst_add, List.map_cons, List.sum_cons]
    exact (abs_add_le _ _).trans (add_le_add le_rfl ih)

/-- Where the absolute fees add up to less than 2^63 and the sizes to less than 2^31, no sum of
transactions of the linearization overflows. -/
theorem fits_of_sublist {l : List Nat} (hpos : PosSizes (weight feeRate) l)
    (hfee : (l.map fun i => |(feeRate i).fee.toInt|).sum < 2 ^ 63)
    (hsize : (l.map fun i => (feeRate i).size.toInt).sum < 2 ^ 31) {s : List Nat} (hs : s.Sublist l) :
    Fits (total (weight feeRate) s) := by
  have hfee_s : |(total (weight feeRate) s).1| < 2 ^ 63 :=
    lt_of_le_of_lt ((abs_fst_total_le s).trans ((hs.map _).sum_le_sum (by simp))) hfee
  have hsize_s : (total (weight feeRate) s).2 ≤ (l.map fun i => (feeRate i).size.toInt).sum := by
    rw [snd_total]
    exact (hs.map _).sum_le_sum (by simpa using fun i hi => (hpos i hi).le)
  have hsize0 := total_nonneg (hpos.sublist hs)
  obtain ⟨hlo, hhi⟩ := abs_lt.mp hfee_s
  refine ⟨⟨?_, ?_⟩, ⟨?_, ?_⟩⟩ <;> norm_num <;> omega

end Chunks

theorem chunkLinearization_eq_naive (feeRate : Nat → FeeFrac) (linearization : List Nat)
    (hnodup : linearization.Nodup) (hsize : ∀ i ∈ linearization, 0 < (feeRate i).size.toInt)
    (hfee : (linearization.map fun i => |(feeRate i).fee.toInt|).sum < 2 ^ 63)
    (hsizes : (linearization.map fun i => (feeRate i).size.toInt).sum < 2 ^ 31) :
    ∃ info, chunkLinearizationInfo feeRate linearization = some info ∧
      chunkLinearization feeRate linearization = some (info.map SetInfo.feerate) ∧
      (∀ c ∈ info, c.feerate.fee.toInt = ∑ i ∈ c.transactions, (feeRate i).fee.toInt ∧
        c.feerate.size.toInt = ∑ i ∈ c.transactions, (feeRate i).size.toInt) ∧
      info.IsChain (fun a b => FeeFrac.compareByRatio b.feerate a.feerate ≠ .gt) ∧
      naiveChunking feeRate linearization linearization.length linearization.toFinset = some info := by
  have hpos : PosSizes (weight feeRate) linearization := hsize
  have hfit : ∀ s, s.Sublist linearization → Fits (total (weight feeRate) s) :=
    fun _ hs => fits_of_sublist hpos hfee hsizes hs
  -- both stacks hold the chunks of the stack algorithm
  obtain ⟨info, hinfo, hrepI⟩ := chunkBy_spec
    (fun c blk (h : InfoRep feeRate c blk) => h.2) (fun _ _ _ _ _ hc hback hf => infoRep_join hc hback hf)
    infoRep_single hfit
  have hfeerates : ∃ fr, chunkLinearization feeRate linearization = some fr ∧
      List.Forall₂ (fun f blk => f.toPair = total (weight feeRate) blk) fr
        (stackChunks (weight feeRate) linearization) :=
    chunkBy_spec (fun (c : FeeFrac) blk (h : c.toPair = total (weight feeRate) blk) => h) (fun _ _ _ _ _ _ _ hf => hf)
      (fun i => show (feeRate i).toPair = total (weight feeRate) [i] by simp [weight]) hfit
  obtain ⟨fr, hfr, hrepF⟩ := hfeerates
  -- the naive check gives the naive rule's chunks, which are the stack algorithm's
  have hfilter : linearization.filter (· ∈ linearization.toFinset) = linearization :=
    List.filter_eq_self.mpr (by simp)
  obtain ⟨out, hout, hrepN⟩ := naiveChunking_spec hnodup hpos hfit linearization.length
    (Finset.Subset.refl _) (by rw [hfilter])
  rw [hfilter, ← stackChunks_eq_naiveChunks hpos] at hrepN
  have hchunking := isChunking_stackChunks hpos
  refine ⟨info, hinfo, ?_, ?_, isChain_of_forall₂ hrepI hchunking.2, ?_⟩
  · rw [map_feerate_eq hrepI hrepF]
    exact hfr
  · -- each chunk is a sublist of the linearization, so its transactions are distinct
    refine forall_mem_of_forall₂ hrepI fun c blk hrep hmem => hrep.feerate_eq_sum ?_
    have hsub : blk.Sublist (stackChunks (weight feeRate) linearization).flatten := List.sublist_flatten_of_mem hmem
    rw [flatten_stackChunks] at hsub
    exact hnodup.sublist hsub
  · rw [hout, eq_of_forall₂_infoRep hrepN hrepI]

/-- Three transactions: the second, of higher feerate, absorbs the first. -/
def demoFeeRate : Nat → FeeFrac
  | 0 => ⟨1, 1⟩
  | 1 => ⟨5, 1⟩
  | _ => ⟨2, 2⟩

theorem chunkLinearization_eq_naive_demo :
    [0, 1, 2].Nodup ∧ (∀ i ∈ [0, 1, 2], 0 < (demoFeeRate i).size.toInt) ∧
      ([0, 1, 2].map fun i => |(demoFeeRate i).fee.toInt|).sum < 2 ^ 63 ∧
      ([0, 1, 2].map fun i => (demoFeeRate i).size.toInt).sum < 2 ^ 31 ∧
      ∃ info, chunkLinearizationInfo demoFeeRate [0, 1, 2] = some info ∧
        naiveChunking demoFeeRate [0, 1, 2] 3 ([0, 1, 2] : List Nat).toFinset = some info := by
  obtain ⟨info, hinfo, -, -, -, hnaive⟩ :=
    chunkLinearization_eq_naive demoFeeRate [0, 1, 2] (by decide) (by decide) (by decide) (by decide)
  exact ⟨by decide, by decide, by decide, by decide, info, hinfo, hnaive⟩

/-- Two transactions of positive size whose fees add up past `int64_t`: the second, of higher
feerate, absorbs the first. -/
def overflowFeeRate : Nat → FeeFrac
  | 0 => ⟨4611686018427387904, 2⟩
  | _ => ⟨4611686018427387904, 1⟩

theorem chunkLinearization_fee_overflow :
    [0, 1].Nodup ∧ (∀ i ∈ [0, 1], 0 < (overflowFeeRate i).size.toInt) ∧
      chunkLinearizationInfo overflowFeeRate [0, 1] = none ∧ chunkLinearization overflowFeeRate [0, 1] = none := by
  decide

end Riecoin
