-- SUMMARY: DepGraph of cluster_linearize.h: GetConnectedComponent is the closure within todo by ancestor and descendant steps, IsConnected holds exactly of the sets whose elements are all linked, and GetReducedParents/GetReducedChildren are the unique minimal covers of the strict ancestors or descendants of an acyclic graph.
import Riecoin.Lib.FiniteRelation
import Mathlib.Data.Finset.Sort

/-!
# DepGraph

`DepGraph<SetType>` (`cluster_linearize.h`) stores, for each position of a transaction, its
ancestors and its descendants (each including itself), and the positions in use (`m_used`).
The set type is a finite set of positions here; a set is iterated in increasing order, as the
bitsets iterate it. The feerates are not read by the functions modelled here.

The invariant the test utilities check (`SanityCheck`) is `Consistent`: every transaction is
its own ancestor, ancestor sets are transitive, `j` is an ancestor of `i` exactly when `i` is a
descendant of `j`, and the sets of a position in use stay within the positions in use.

* `GetConnectedComponent(todo, tx)` adds the ancestors and descendants of the transactions found
  in the last round until a round finds nothing new; it returns the transactions of `todo`
  reachable from `tx` by steps to an ancestor or descendant in `todo`
  (`mem_getConnectedComponent`). The loop is `FiniteRelation.frontierLoop`.
* `IsConnected(subset)` compares the component of the first element with the whole subset; it
  holds exactly when every two elements are linked in that sense, and so of the empty subset
  (`isConnected_iff`).
* `GetReducedParents(i)` walks the strict ancestors of `i`, removing the ancestors of each one
  still kept. In an acyclic graph it returns the maximal strict ancestors, the least family of
  strict ancestors whose ancestor sets cover all of them (`getReducedParents_eq_maximals`).
-/

namespace Riecoin

/-- `DepGraph::Entry`: the ancestors and the descendants of one transaction. -/
structure DepGraph.Entry where
  ancestors : Finset Nat
  descendants : Finset Nat
  deriving DecidableEq

/-- `DepGraph`: the entries by position, and the positions in use (`m_used`). -/
structure DepGraph where
  entries : Array DepGraph.Entry
  used : Finset Nat

namespace DepGraph

open FiniteRelation Relation

variable (g : DepGraph)

/-- `Ancestors(i)`; no position past the entries is read by the functions below. -/
def ancestors (i : Nat) : Finset Nat := (g.entries[i]?.map Entry.ancestors).getD ∅

/-- `Descendants(i)`. -/
def descendants (i : Nat) : Finset Nat := (g.entries[i]?.map Entry.descendants).getD ∅

/-- The consistency `SanityCheck` checks, over the positions in use. -/
structure Consistent : Prop where
  self_mem : ∀ i ∈ g.used, i ∈ g.ancestors i
  ancestors_trans : ∀ i ∈ g.used, ∀ a ∈ g.ancestors i, g.ancestors a ⊆ g.ancestors i
  ancestors_iff : ∀ i ∈ g.used, ∀ j ∈ g.used, j ∈ g.ancestors i ↔ i ∈ g.descendants j
  ancestors_used : ∀ i ∈ g.used, g.ancestors i ⊆ g.used
  descendants_used : ∀ i ∈ g.used, g.descendants i ⊆ g.used

/-- `IsAcyclic()`: each transaction is the only one that is both its ancestor and descendant. -/
def isAcyclic : Bool := decide (∀ i ∈ g.used, g.ancestors i ∩ g.descendants i = {i})

-- ---------------------------------------------------------------------------
-- GetConnectedComponent, FindConnectedComponent, IsConnected
-- ---------------------------------------------------------------------------

/-- The rounds of the `do`/`while` loop of `GetConnectedComponent`, at most `fuel` of them. -/
def componentLoop (todo : Finset Nat) : Nat → Finset Nat → Finset Nat → Finset Nat
  | 0, ret, _ => ret
  | fuel + 1, ret, to_add =>
    let old := ret
    let ret := (to_add.sort.foldl (fun ret add => ret ∪ g.descendants add ∪ g.ancestors add) ret) ∩ todo
    let to_add := ret \ old
    if to_add.Nonempty then componentLoop todo fuel ret to_add else ret

/-- `GetConnectedComponent(todo, tx)`. Each round but the last adds a transaction of `todo`,
so `todo.card + 1` rounds are enough (`mem_getConnectedComponent`). -/
def getConnectedComponent (todo : Finset Nat) (tx : Nat) : Finset Nat :=
  g.componentLoop todo (todo.card + 1) ∅ {tx}

/-- `FindConnectedComponent(todo)`: the component of the first transaction of `todo`. -/
def findConnectedComponent (todo : Finset Nat) : Finset Nat :=
  if h : todo.Nonempty then g.getConnectedComponent todo (todo.min' h) else todo

/-- `IsConnected(subset)`. -/
def isConnected (subset : Finset Nat) : Bool := g.findConnectedComponent subset == subset

/-- A step of `GetConnectedComponent` within `todo`: to an ancestor or a descendant in the
whole graph that lies in `todo`. -/
def Step (todo : Finset Nat) (a b : Nat) : Prop :=
  b ∈ todo ∧ (b ∈ g.ancestors a ∨ b ∈ g.descendants a)

/-- What one round adds for a transaction. -/
def nbr (a : Nat) : Finset Nat := g.descendants a ∪ g.ancestors a

theorem step_eq_adj (todo : Finset Nat) : g.Step todo = Adj g.nbr todo := by
  funext a b
  simp only [Step, Adj, nbr, Finset.mem_union, or_comm]

/-- The `for` loop of a round adds the ancestors and descendants of every transaction in
`to_add`, whatever the order. -/
theorem foldl_union (l : List Nat) (ret : Finset Nat) :
    l.foldl (fun ret add => ret ∪ g.descendants add ∪ g.ancestors add) ret = ret ∪ l.toFinset.biUnion g.nbr := by
  induction l generalizing ret with
  | nil => simp
  | cons a l ih =>
    rw [List.foldl_cons, ih, List.toFinset_cons, Finset.biUnion_insert, nbr]
    ext x
    simp only [Finset.mem_union]
    tauto

theorem componentLoop_eq (todo : Finset Nat) (fuel : Nat) (ret to_add : Finset Nat) :
    g.componentLoop todo fuel ret to_add = frontierLoop g.nbr todo fuel ret to_add := by
  induction fuel generalizing ret to_add with
  | zero => rfl
  | succ fuel ih =>
    have hround : (to_add.sort.foldl (fun ret add => ret ∪ g.descendants add ∪ g.ancestors add) ret) ∩ todo =
        grow g.nbr todo ret to_add := by
      rw [foldl_union, Finset.sort_toFinset, grow]
    rw [componentLoop, frontierLoop]
    simp only [hround, ih]

variable {g}

theorem Consistent.step_symm (hg : g.Consistent) {todo : Finset Nat} (htodo : todo ⊆ g.used) :
    ∀ a ∈ todo, ∀ b, g.Step todo a b → g.Step todo b a := by
  rintro a ha b ⟨hb, hab⟩
  have hau := htodo ha
  have hbu := htodo hb
  refine ⟨ha, ?_⟩
  rcases hab with hab | hab
  · exact .inr ((hg.ancestors_iff a hau b hbu).mp hab)
  · exact .inl ((hg.ancestors_iff b hbu a hau).mpr hab)

theorem Consistent.self_mem_nbr (hg : g.Consistent) {todo : Finset Nat} (htodo : todo ⊆ g.used) :
    ∀ a ∈ todo, a ∈ g.nbr a :=
  fun a ha => Finset.mem_union_right _ (hg.self_mem a (htodo ha))

/-- `GetConnectedComponent(todo, tx)` is the set of transactions reachable from `tx` by steps to
an ancestor or descendant within `todo`. -/
theorem mem_getConnectedComponent (hg : g.Consistent) {todo : Finset Nat} (htodo : todo ⊆ g.used)
    {tx : Nat} (htx : tx ∈ todo) (b : Nat) :
    b ∈ g.getConnectedComponent todo tx ↔ ReflTransGen (g.Step todo) tx b := by
  rw [getConnectedComponent, componentLoop_eq, step_eq_adj]
  exact frontierLoop_eq_reach (hg.self_mem_nbr htodo) htx b

theorem getConnectedComponent_subset (hg : g.Consistent) {todo : Finset Nat} (htodo : todo ⊆ g.used)
    {tx : Nat} (htx : tx ∈ todo) : g.getConnectedComponent todo tx ⊆ todo := by
  intro b hb
  rw [mem_getConnectedComponent hg htodo htx, step_eq_adj] at hb
  exact mem_of_reach hb htx

/-- `IsConnected(subset)` holds exactly when every element of `subset` reaches every other by
steps within `subset`; the empty subset is connected. -/
theorem isConnected_iff (hg : g.Consistent) {s : Finset Nat} (hs : s ⊆ g.used) :
    g.isConnected s = true ↔ ∀ a ∈ s, ∀ b ∈ s, ReflTransGen (g.Step s) a b := by
  rw [isConnected, beq_iff_eq, findConnectedComponent]
  split
  · next hne =>
    have hm := s.min'_mem hne
    have hreach := mem_getConnectedComponent hg hs hm
    have hsymm := hg.step_symm hs
    rw [step_eq_adj] at hsymm hreach ⊢
    constructor
    · intro heq a ha b hb
      rw [← heq] at ha hb
      -- both are reached from the first element, and a path can be taken back
      exact (reach_symm hsymm ((hreach a).mp ha) hm).trans ((hreach b).mp hb)
    · intro hall
      refine Finset.Subset.antisymm (getConnectedComponent_subset hg hs hm) fun b hb => ?_
      exact (hreach b).mpr (hall _ hm b hb)
  · next hne =>
    rw [Finset.not_nonempty_iff_eq_empty] at hne
    subst hne
    simp

-- ---------------------------------------------------------------------------
-- GetReducedParents, GetReducedChildren
-- ---------------------------------------------------------------------------

variable (g)

/-- The loop of `GetReducedParents` (`sets` the ancestor sets) and `GetReducedChildren` (the
descendant sets): from the sets of `i` without `i`, at each element still kept remove its set
and keep the element. The set is walked as it was at the start: the loop only removes elements
other than the current one, and each is checked (`parents[parent]`) before it is used. -/
def getReduced (sets : Nat → Finset Nat) (i : Nat) : Finset Nat :=
  let parents := (sets i).erase i
  parents.sort.foldl (fun parents parent =>
    if parent ∈ parents then insert parent (parents \ sets parent) else parents) parents

/-- `GetReducedParents(i)`. -/
def getReducedParents (i : Nat) : Finset Nat := getReduced g.ancestors i

/-- `GetReducedChildren(i)`. -/
def getReducedChildren (i : Nat) : Finset Nat := getReduced g.descendants i

/-- The strict ancestors covered by the ancestor sets of a family of them. -/
abbrev CoversAncestors (i : Nat) (t : Finset Nat) : Prop := Covers g.ancestors ((g.ancestors i).erase i) t

theorem getReduced_eq (sets : Nat → Finset Nat) (i : Nat) :
    getReduced sets i = reduceAlong sets ((sets i).erase i) ((sets i).erase i).sort := rfl

variable {g}

/-- Under the consistency invariant, a set family whose members contain themselves, are
transitive and only meet their opposite sets at the element itself orders the strict sets of
each position. -/
theorem orderOn_erase {sets : Nat → Finset Nat} (hused : ∀ i ∈ g.used, sets i ⊆ g.used)
    (hself : ∀ i ∈ g.used, i ∈ sets i) (htrans : ∀ i ∈ g.used, ∀ a ∈ sets i, sets a ⊆ sets i)
    (hanti : ∀ p ∈ g.used, ∀ q ∈ g.used, p ∈ sets q → q ∈ sets p → p = q) {i : Nat} (hi : i ∈ g.used) :
    OrderOn sets ((sets i).erase i) := by
  have hsub : ∀ p ∈ (sets i).erase i, p ∈ g.used := fun p hp => hused i hi (Finset.mem_of_mem_erase hp)
  exact ⟨fun p hp => hself p (hsub p hp), fun p hp q hq hpq => htrans q (hsub q hq) p hpq,
    fun p hp q hq => hanti p (hsub p hp) q (hsub q hq)⟩

/-- In an acyclic graph, no two transactions are each other's ancestors. -/
theorem Consistent.ancestors_antisymm (hg : g.Consistent) (hacyc : g.isAcyclic = true) :
    ∀ p ∈ g.used, ∀ q ∈ g.used, p ∈ g.ancestors q → q ∈ g.ancestors p → p = q := by
  intro p hp q hq hpq hqp
  have hcap := of_decide_eq_true hacyc q hq
  have hmem : p ∈ g.ancestors q ∩ g.descendants q :=
    Finset.mem_inter.mpr ⟨hpq, (hg.ancestors_iff p hp q hq).mp hqp⟩
  rw [hcap, Finset.mem_singleton] at hmem
  exact hmem

theorem getReducedParents_eq_maximals (hg : g.Consistent) (hacyc : g.isAcyclic = true) {i : Nat}
    (hi : i ∈ g.used) : g.getReducedParents i = maximals g.ancestors ((g.ancestors i).erase i) := by
  rw [getReducedParents, getReduced_eq]
  exact reduceAlong_eq_maximals
    (orderOn_erase hg.ancestors_used hg.self_mem hg.ancestors_trans (hg.ancestors_antisymm hacyc) hi)
    (fun p hp => (Finset.mem_sort _).mpr hp)

theorem components_and_reduced_parents (g : DepGraph) (hg : g.Consistent) :
    (∀ todo ⊆ g.used, ∀ tx ∈ todo, ∀ b,
      b ∈ g.getConnectedComponent todo tx ↔ ReflTransGen (g.Step todo) tx b) ∧
    (∀ s ⊆ g.used, g.isConnected s = true ↔ ∀ a ∈ s, ∀ b ∈ s, ReflTransGen (g.Step s) a b) ∧
    (g.isAcyclic = true → ∀ i ∈ g.used,
      g.CoversAncestors i (g.getReducedParents i) ∧
      (∀ t ⊆ g.getReducedParents i, g.CoversAncestors i t → t = g.getReducedParents i) ∧
      (∀ t, g.CoversAncestors i t → (∀ t' ⊆ t, g.CoversAncestors i t' → t' = t) →
        t = g.getReducedParents i)) := by
  refine ⟨fun todo htodo tx htx => mem_getConnectedComponent hg htodo htx,
    fun s hs => isConnected_iff hg hs, fun hacyc i hi => ?_⟩
  have hord : OrderOn g.ancestors ((g.ancestors i).erase i) :=
    orderOn_erase hg.ancestors_used hg.self_mem hg.ancestors_trans (hg.ancestors_antisymm hacyc) hi
  rw [getReducedParents_eq_maximals hg hacyc hi]
  exact ⟨hord.maximals_covers, fun t ht hc => maximals_minimal ht hc,
    fun t hc hmin => hord.eq_maximals_of_minimal hc hmin⟩

/-- Three transactions, each the parent of the next. -/
def chain3 : DepGraph := ⟨#[⟨{0}, {0, 1, 2}⟩, ⟨{0, 1}, {1, 2}⟩, ⟨{0, 1, 2}, {2}⟩], {0, 1, 2}⟩

theorem chain3_consistent : chain3.Consistent :=
  ⟨by decide, by decide, by decide, by decide, by decide⟩

theorem components_and_reduced_parents_chain3 :
    chain3.Consistent ∧ chain3.isAcyclic = true ∧ chain3.CoversAncestors 2 (chain3.getReducedParents 2) :=
  ⟨chain3_consistent, by decide,
    ((components_and_reduced_parents chain3 chain3_consistent).2.2 (by decide) 2 (by decide)).1⟩

/-- `IsConnected` holds of the empty subset of a consistent graph, which is not non-empty. -/
theorem isConnected_empty_chain3 : chain3.Consistent ∧ chain3.isConnected ∅ = true :=
  ⟨chain3_consistent, by decide⟩

end DepGraph

end Riecoin
