-- SUMMARY: Two algorithms over a relation given by finite neighbour sets: the closure of a start point by frontier rounds, and the maximal elements of a finite set found by removing what lies below each element kept.
import Mathlib.Data.Finset.Max
import Mathlib.Data.Finset.Union
import Mathlib.Logic.Relation

/-!
# Frontier closure and maximal elements

Two algorithms over finite sets of an arbitrary type.

*Frontier closure.* From `start`, each round adds every neighbour (`nbr`) of the elements added
in the round before, keeps what lies in `within`, and stops when nothing new appears
(`frontierLoop`). With enough rounds the result is the set reachable from `start` by steps to
neighbours in `within` (`frontierLoop_eq_reach`): the invariant is that everything found is
reachable and that every element found before the last round has its neighbours found
(`FrontierInv`).

*Maximal elements.* For a relation given by down-sets (`p ∈ up q`: `p` lies below `q`) that is
a partial order on a finite set `s`, walking `s` in any order and, at each element still kept,
removing the elements below it leaves exactly the maximal elements (`reduceAlong_eq_maximals`).
The maximal elements are the least family whose down-sets cover `s` (`maximals_covers`,
`maximals_subset_of_covers`).
-/

namespace FiniteRelation

open Relation

variable {α : Type}

section Frontier

variable (nbr : α → Finset α) (within : Finset α)

/-- A step to a neighbour that lies in `within`. -/
def Adj (a b : α) : Prop := b ∈ within ∧ b ∈ nbr a

section Reach

variable {nbr within}

theorem mem_of_reach {a b : α} (h : ReflTransGen (Adj nbr within) a b) (ha : a ∈ within) :
    b ∈ within := by
  cases h.cases_tail with
  | inl hab => exact hab ▸ ha
  | inr h => obtain ⟨c, -, hcb⟩ := h; exact hcb.1

/-- Where a step inside `within` can be taken back, so can a path. -/
theorem reach_symm (hsymm : ∀ a ∈ within, ∀ b, Adj nbr within a b → Adj nbr within b a) {a b : α}
    (h : ReflTransGen (Adj nbr within) a b) (ha : a ∈ within) : ReflTransGen (Adj nbr within) b a := by
  induction h with
  | refl => exact ReflTransGen.refl
  | @tail c d hac hcd ih =>
    have hc : c ∈ within := mem_of_reach hac ha
    exact ReflTransGen.head (hsymm c hc d hcd) ih

end Reach

variable [DecidableEq α]

/-- One round: the neighbours of the frontier `to_add` joined to `ret`, cut down to `within`. -/
def grow (ret to_add : Finset α) : Finset α := (ret ∪ to_add.biUnion nbr) ∩ within

/-- Rounds until one adds nothing new, at most `fuel` of them. -/
def frontierLoop : Nat → Finset α → Finset α → Finset α
  | 0, ret, _ => ret
  | fuel + 1, ret, to_add =>
    let grown := grow nbr within ret to_add
    if (grown \ ret).Nonempty then frontierLoop fuel grown (grown \ ret) else grown

theorem mem_grow {ret to_add : Finset α} {b : α} :
    b ∈ grow nbr within ret to_add ↔ (b ∈ ret ∨ ∃ a ∈ to_add, b ∈ nbr a) ∧ b ∈ within := by
  simp [grow]

/-- What the rounds keep: everything found is reachable and in `within`, `start` is found, and
an element found in an earlier round has all its neighbours found. -/
structure FrontierInv (start : α) (ret to_add : Finset α) : Prop where
  ret_sub : ret ⊆ within
  to_add_sub : to_add ⊆ within
  reach : ∀ b ∈ ret ∪ to_add, ReflTransGen (Adj nbr within) start b
  start_mem : start ∈ ret ∪ to_add
  closed : ∀ a ∈ ret, a ∉ to_add → ∀ b, Adj nbr within a b → b ∈ ret

variable {nbr within}

theorem FrontierInv.init {start : α} (hstart : start ∈ within) : FrontierInv nbr within start ∅ {start} where
  ret_sub := Finset.empty_subset _
  to_add_sub := Finset.singleton_subset_iff.mpr hstart
  reach := fun b hb => by
    rw [Finset.empty_union, Finset.mem_singleton] at hb
    exact hb ▸ ReflTransGen.refl
  start_mem := by simp
  closed := fun a ha => absurd ha (Finset.notMem_empty a)

/-- Every element of the grown set is reachable: it was found before or is a neighbour in
`within` of the frontier. -/
theorem FrontierInv.reach_grow {start : α} {ret to_add : Finset α} (h : FrontierInv nbr within start ret to_add) {b : α}
    (hb : b ∈ grow nbr within ret to_add) : ReflTransGen (Adj nbr within) start b := by
  obtain ⟨hb | ⟨a, ha, hba⟩, hbw⟩ := (mem_grow nbr within).mp hb
  · exact h.reach b (Finset.mem_union_left _ hb)
  · exact (h.reach a (Finset.mem_union_right _ ha)).tail ⟨hbw, hba⟩

section Round

variable (hself : ∀ a ∈ within, a ∈ nbr a) {start : α} {ret to_add : Finset α}
include hself

theorem FrontierInv.subset_grow (h : FrontierInv nbr within start ret to_add) :
    ret ∪ to_add ⊆ grow nbr within ret to_add := by
  intro b hb
  rw [mem_grow]
  rcases Finset.mem_union.mp hb with hb | hb
  · exact ⟨.inl hb, h.ret_sub hb⟩
  · exact ⟨.inr ⟨b, hb, hself b (h.to_add_sub hb)⟩, h.to_add_sub hb⟩

/-- An element of the grown set has all its neighbours in it, unless it entered this round. -/
theorem FrontierInv.closed_grow (h : FrontierInv nbr within start ret to_add) {a : α}
    (ha : a ∈ ret) {b : α} (hab : Adj nbr within a b) : b ∈ grow nbr within ret to_add := by
  by_cases hat : a ∈ to_add
  · exact (mem_grow nbr within).mpr ⟨.inr ⟨a, hat, hab.2⟩, hab.1⟩
  · exact h.subset_grow hself (Finset.mem_union_left _ (h.closed a ha hat b hab))

/-- The step lemma: one round keeps the invariant, with the new elements as the frontier. -/
theorem FrontierInv.step (h : FrontierInv nbr within start ret to_add) :
    FrontierInv nbr within start (grow nbr within ret to_add) (grow nbr within ret to_add \ ret) where
  ret_sub := Finset.inter_subset_right
  to_add_sub := Finset.sdiff_subset.trans Finset.inter_subset_right
  reach := fun b hb => by
    rcases Finset.mem_union.mp hb with hb | hb
    · exact h.reach_grow hb
    · exact h.reach_grow (Finset.mem_sdiff.mp hb).1
  start_mem := Finset.mem_union_left _ (h.subset_grow hself h.start_mem)
  closed := fun a _ hnew b hab => by
    -- an element that is not new was in `ret`
    have ha : a ∈ ret := by
      by_contra hret
      exact hnew (Finset.mem_sdiff.mpr ⟨by assumption, hret⟩)
    exact h.closed_grow hself ha hab

/-- A round that adds nothing leaves the reachable set: it contains `start` and every
neighbour in `within` of each of its elements. -/
theorem FrontierInv.grow_eq_reach (h : FrontierInv nbr within start ret to_add)
    (hstop : ¬(grow nbr within ret to_add \ ret).Nonempty) (b : α) :
    b ∈ grow nbr within ret to_add ↔ ReflTransGen (Adj nbr within) start b := by
  have hsub : grow nbr within ret to_add ⊆ ret := by
    rw [Finset.not_nonempty_iff_eq_empty, Finset.sdiff_eq_empty_iff_subset] at hstop
    exact hstop
  refine ⟨h.reach_grow, fun hb => ?_⟩
  induction hb with
  | refl => exact h.subset_grow hself h.start_mem
  | tail _ hcd ih => exact h.closed_grow hself (hsub ih) hcd

/-- The run lemma: with more rounds than `within` has elements outside `ret`, the loop ends on
a round that adds nothing, at the reachable set. -/
theorem frontierLoop_spec {fuel : Nat} (h : FrontierInv nbr within start ret to_add)
    (hfuel : within.card < ret.card + fuel) (b : α) :
    b ∈ frontierLoop nbr within fuel ret to_add ↔ ReflTransGen (Adj nbr within) start b := by
  induction fuel generalizing ret to_add with
  | zero =>
    have := Finset.card_le_card h.ret_sub
    omega
  | succ fuel ih =>
    rw [frontierLoop]
    split
    · next hnew =>
      -- a round that adds something makes `ret` larger
      have hlt : ret.card < (grow nbr within ret to_add).card := by
        refine Finset.card_lt_card ⟨fun x hx => h.subset_grow hself (Finset.mem_union_left _ hx), ?_⟩
        obtain ⟨x, hx⟩ := hnew
        exact fun hsub => (Finset.mem_sdiff.mp hx).2 (hsub (Finset.mem_sdiff.mp hx).1)
      exact ih (h.step hself) (by omega)
    · next hstop => exact h.grow_eq_reach hself hstop b

end Round

/-- From `start` in `within`, the loop with one round more than `within` has elements returns
the set reachable from `start`. -/
theorem frontierLoop_eq_reach (hself : ∀ a ∈ within, a ∈ nbr a) {start : α} (hstart : start ∈ within)
    (b : α) :
    b ∈ frontierLoop nbr within (within.card + 1) ∅ {start} ↔ ReflTransGen (Adj nbr within) start b :=
  frontierLoop_spec hself (FrontierInv.init hstart) (by simp) b

end Frontier

section Maximal

variable [DecidableEq α] (up : α → Finset α) (s : Finset α)

/-- The elements of `s` below no other element of `s`. -/
def maximals : Finset α := s.filter fun m => ∀ q ∈ s, m ∈ up q → q = m

/-- `t` is a family of elements of `s` whose down-sets cover `s`. -/
def Covers (t : Finset α) : Prop := t ⊆ s ∧ s ⊆ t.biUnion up

/-- At an element `p` still kept, remove what lies below `p` but keep `p`. -/
def reduceStep (cur : Finset α) (p : α) : Finset α := if p ∈ cur then insert p (cur \ up p) else cur

/-- `reduceStep` at each element of `l` in turn, from all of `s`. -/
def reduceAlong (l : List α) : Finset α := l.foldl (reduceStep up) s

/-- `up` is a partial order on `s`: reflexive, transitive and antisymmetric there. -/
structure OrderOn : Prop where
  refl : ∀ p ∈ s, p ∈ up p
  trans : ∀ p ∈ s, ∀ q ∈ s, p ∈ up q → up p ⊆ up q
  antisymm : ∀ p ∈ s, ∀ q ∈ s, p ∈ up q → q ∈ up p → p = q

variable {up s}

theorem mem_maximals {m : α} : m ∈ maximals up s ↔ m ∈ s ∧ ∀ q ∈ s, m ∈ up q → q = m := by
  simp [maximals]

/-- Above each element of a finite partial order lies a maximal element: the one whose down-set
in `s` is largest among those above it. -/
theorem OrderOn.exists_maximal_above (h : OrderOn up s) {q : α} (hq : q ∈ s) :
    ∃ m ∈ maximals up s, q ∈ up m := by
  have hne : (s.filter (q ∈ up ·)).Nonempty := ⟨q, Finset.mem_filter.mpr ⟨hq, h.refl q hq⟩⟩
  obtain ⟨m, hm, hmax⟩ := Finset.exists_max_image _ (fun p => (up p ∩ s).card) hne
  obtain ⟨hms, hqm⟩ := Finset.mem_filter.mp hm
  refine ⟨m, mem_maximals.mpr ⟨hms, fun r hrs hmr => ?_⟩, hqm⟩
  by_contra hrm
  -- an element strictly above `m` has a strictly larger down-set that still holds `q`
  have hsub : up m ∩ s ⊂ up r ∩ s := by
    refine Finset.ssubset_iff_subset_ne.mpr ⟨Finset.inter_subset_inter_right (h.trans m hms r hrs hmr), ?_⟩
    intro heq
    have hr : r ∈ up m ∩ s := heq ▸ Finset.mem_inter.mpr ⟨h.refl r hrs, hrs⟩
    exact hrm (h.antisymm r hrs m hms (Finset.mem_inter.mp hr).1 hmr)
  have hqr : q ∈ up r := h.trans m hms r hrs hmr hqm
  have := hmax r (Finset.mem_filter.mpr ⟨hrs, hqr⟩)
  exact absurd (Finset.card_lt_card hsub) (by omega)

theorem OrderOn.maximals_covers (h : OrderOn up s) : Covers up s (maximals up s) := by
  refine ⟨Finset.filter_subset _ _, fun q hq => ?_⟩
  obtain ⟨m, hm, hqm⟩ := h.exists_maximal_above hq
  exact Finset.mem_biUnion.mpr ⟨m, hm, hqm⟩

/-- Every covering family holds every maximal element: a maximal element is covered only by
itself. -/
theorem maximals_subset_of_covers {t : Finset α} (ht : Covers up s t) : maximals up s ⊆ t := by
  intro m hm
  obtain ⟨hms, hmax⟩ := mem_maximals.mp hm
  obtain ⟨p, hpt, hmp⟩ := Finset.mem_biUnion.mp (ht.2 hms)
  exact hmax p (ht.1 hpt) hmp ▸ hpt

/-- No family smaller than the maximal elements covers `s`. -/
theorem maximals_minimal {t : Finset α} (ht : t ⊆ maximals up s) (hc : Covers up s t) : t = maximals up s :=
  Finset.Subset.antisymm ht (maximals_subset_of_covers hc)

/-- A covering family that no smaller family replaces is the set of maximal elements. -/
theorem OrderOn.eq_maximals_of_minimal (h : OrderOn up s) {t : Finset α} (hc : Covers up s t)
    (hmin : ∀ t' ⊆ t, Covers up s t' → t' = t) : t = maximals up s :=
  (hmin _ (maximals_subset_of_covers hc) h.maximals_covers).symm

variable (up s) in
/-- What the walk keeps: the maximal elements stay, nothing leaves `s`, and below a maximal
element already walked nothing but itself is left. -/
structure ReduceInv (done : List α) (cur : Finset α) : Prop where
  maximals_sub : maximals up s ⊆ cur
  sub : cur ⊆ s
  cleared : ∀ p ∈ done, p ∈ maximals up s → ∀ q ∈ cur, q ∈ up p → q = p

theorem ReduceInv.init : ReduceInv up s [] s :=
  ⟨Finset.filter_subset _ _, subset_rfl, fun _ hp => absurd hp List.not_mem_nil⟩

/-- The step lemma: one element walked keeps the invariant. -/
theorem ReduceInv.step {done : List α} {cur : Finset α} (h : ReduceInv up s done cur)
    (p : α) : ReduceInv up s (done ++ [p]) (reduceStep up cur p) := by
  unfold reduceStep
  split
  · next hp =>
    refine ⟨fun m hm => ?_, ?_, fun r hr hrm q hq hqr => ?_⟩
    · -- a maximal element other than `p` is not below `p`
      by_cases hmp : m = p
      · exact hmp ▸ Finset.mem_insert_self m _
      · refine Finset.mem_insert_of_mem (Finset.mem_sdiff.mpr ⟨h.maximals_sub hm, fun hmu => hmp ?_⟩)
        exact ((mem_maximals.mp hm).2 p (h.sub hp) hmu).symm
    · exact Finset.insert_subset (h.sub hp) (Finset.sdiff_subset.trans h.sub)
    · rcases List.mem_append.mp hr with hrd | hrp
      · rcases Finset.mem_insert.mp hq with rfl | hq
        · exact h.cleared r hrd hrm q hp hqr
        · exact h.cleared r hrd hrm q (Finset.mem_sdiff.mp hq).1 hqr
      · rw [List.mem_singleton] at hrp
        subst hrp
        rcases Finset.mem_insert.mp hq with rfl | hq
        · rfl
        · exact absurd hqr (Finset.mem_sdiff.mp hq).2
  · next hp =>
    -- `p` is not kept, so it is not maximal
    refine ⟨h.maximals_sub, h.sub, fun r hr hrm => ?_⟩
    rcases List.mem_append.mp hr with hrd | hrp
    · exact h.cleared r hrd hrm
    · rw [List.mem_singleton] at hrp
      exact absurd (h.maximals_sub (hrp ▸ hrm)) hp

/-- The run lemma: the invariant holds after any list of elements walked. -/
theorem ReduceInv.foldl {done : List α} {cur : Finset α} (h : ReduceInv up s done cur)
    (l : List α) : ReduceInv up s (done ++ l) (l.foldl (reduceStep up) cur) := by
  induction l generalizing done cur with
  | nil => simpa using h
  | cons p l ih =>
    rw [List.foldl_cons, ← List.singleton_append, ← List.append_assoc]
    exact ih (h.step p)

/-- Walking every element of `s` leaves exactly the maximal elements, in whatever order. -/
theorem reduceAlong_eq_maximals (h : OrderOn up s) {l : List α} (hl : ∀ p ∈ s, p ∈ l) :
    reduceAlong up s l = maximals up s := by
  have hinv := (ReduceInv.init : ReduceInv up s [] s).foldl l
  rw [List.nil_append] at hinv
  refine Finset.Subset.antisymm (fun q hq => ?_) hinv.maximals_sub
  have hqs : q ∈ s := hinv.sub hq
  obtain ⟨m, hm, hqm⟩ := h.exists_maximal_above hqs
  have hqm' : q = m := hinv.cleared m (hl m (mem_maximals.mp hm).1) hm q hq hqm
  exact hqm' ▸ hm

end Maximal

end FiniteRelation
