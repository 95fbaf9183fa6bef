-- SUMMARY: The depth-first walk, inclusion branch first, of the non-empty subsets of {0, …, n-1} written as increasing index lists: it meets them in lexicographic order, and each move of a branch-and-bound search (explore, shift to the omission branch, cut a subtree, skip a clone) keeps "every subset before the cursor is dealt with".
import Mathlib.Data.List.Sort
import Mathlib.Algebra.Order.BigOperators.Group.List
import Mathlib.Algebra.Ring.Int.Defs
import Mathlib.Algebra.Order.Group.Unbundled.Abs

/-!
# The inclusion tree of a finite set

A branch-and-bound search over the subsets of `{0, …, n-1}` walks a binary tree whose level `i`
decides whether index `i` is in the subset, the inclusion branch first. Writing a subset as the
increasing list of its indices (a `Node`), the walk meets the subsets in the lexicographic order
of these lists: `[0] < [0, 1] < [0, 1, 2] < [0, 2] < [1] < …`.

The searches keep a cursor, the next subset they will evaluate, and the invariant that every
subset before the cursor has been dealt with (`Covered`). Moving past a whole subtree needs the
stronger `Closed`: every subset before a node and every subset below it is dealt with. One lemma
per move of a search says how the invariant moves with it:

* `Covered.explore`: evaluate `P ++ [k]` and go on to `P ++ [k, k + 1]`;
* `Covered.closed_shift`: leave the subtree below `P ++ [k]`, every node of which is dealt with;
* `Covered.closed_cut`: leave also the omission branch of `k`, every node `P ++ y :: W` with
  `k ≤ y`;
* `Closed.covered_next`: from a closed node `Q ++ [t]` the cursor goes to `Q ++ [t + 1]`;
* `Covered.skip`: pass over the subtree of `Q ++ [j]`, every node of which is dealt with;
* `Closed.all`: a walk that closes the root has dealt with every subset.

All of it rests on one fact about the lexicographic order (`lt_snoc_iff`): the lists before
`P ++ [k]` are those before `P`, `P` itself, and `P ++ y :: W` for `y < k`.

The index lists of sublists (`exists_indices_of_sublist`, `sublist_of_indices`) connect the
nodes with the sub-multisets of a list (`subperm_of_indices`, `exists_node_of_subperm`), and
bound what a node's elements sum to (`abs_sum_indices_le`).
-/

namespace InclusionTree

-- ---------------------------------------------------------------------------
-- The lexicographic order on index lists
-- ---------------------------------------------------------------------------

theorem lt_append_of_lt {T Q : List Nat} (R : List Nat) (h : T < Q) : T < Q ++ R := by
  induction Q generalizing T with
  | nil => exact absurd h (List.not_lt_nil T)
  | cons q Q ih =>
    cases T with
    | nil => exact List.nil_lt_cons _ _
    | cons x U =>
      rcases List.cons_lt_cons_iff.mp h with hlt | ⟨rfl, hU⟩
      · exact List.cons_lt_cons_iff.mpr (.inl hlt)
      · exact List.cons_lt_cons_iff.mpr (.inr ⟨rfl, ih hU⟩)

theorem lt_append_iff {T Q R : List Nat} : T < Q ++ R ↔ T < Q ∨ ∃ V, T = Q ++ V ∧ V < R := by
  constructor
  · intro h
    induction Q generalizing T with
    | nil => exact .inr ⟨T, rfl, h⟩
    | cons q Q ih =>
      cases T with
      | nil => exact .inl (List.nil_lt_cons _ _)
      | cons x U =>
        rcases List.cons_lt_cons_iff.mp h with hlt | ⟨rfl, hU⟩
        · exact .inl (List.cons_lt_cons_iff.mpr (.inl hlt))
        · rcases ih hU with hU | ⟨V, rfl, hV⟩
          · exact .inl (List.cons_lt_cons_iff.mpr (.inr ⟨rfl, hU⟩))
          · exact .inr ⟨V, rfl, hV⟩
  · rintro (h | ⟨V, rfl, hV⟩)
    · exact lt_append_of_lt R h
    · exact List.append_left_lt hV

/-- The lists before `P ++ [k]`: those before `P`, `P` itself, and `P ++ y :: W` for `y < k`. -/
theorem lt_snoc_iff {T P : List Nat} {k : Nat} :
    T < P ++ [k] ↔ T < P ∨ T = P ∨ ∃ y W, y < k ∧ T = P ++ y :: W := by
  rw [lt_append_iff]
  constructor
  · rintro (h | ⟨V, rfl, hV⟩)
    · exact .inl h
    · cases V with
      | nil => exact .inr (.inl (List.append_nil P))
      | cons y W =>
        rcases List.cons_lt_cons_iff.mp hV with hy | ⟨-, hW⟩
        · exact .inr (.inr ⟨y, W, hy, rfl⟩)
        · exact absurd hW (List.not_lt_nil W)
  · rintro (h | rfl | ⟨y, W, hy, rfl⟩)
    · exact .inl h
    · exact .inr ⟨[], (List.append_nil T).symm, List.nil_lt_cons _ _⟩
    · exact .inr ⟨y :: W, rfl, List.cons_lt_cons_iff.mpr (.inl hy)⟩

-- ---------------------------------------------------------------------------
-- Nodes and the search invariant
-- ---------------------------------------------------------------------------

/-- A node of the tree below `n`: a non-empty increasing list of indices below `n`. -/
structure Node (n : Nat) (T : List Nat) : Prop where
  ne_nil : T ≠ []
  increasing : T.Pairwise (· < ·)
  lt : ∀ i ∈ T, i < n

theorem Node.cons_right {n : Nat} {P W : List Nat} {y : Nat} (h : Node n (P ++ y :: W)) :
    (∀ j ∈ W, y < j) ∧ y < n ∧ ∀ j ∈ W, j < n := by
  have hinc := (List.pairwise_append.mp h.increasing).2.1
  exact ⟨(List.pairwise_cons.mp hinc).1, h.lt y (by simp), fun j hj => h.lt j (by simp [hj])⟩

variable (n : Nat) (H : List Nat → Prop)

/-- Every node before the cursor `c` satisfies `H`. -/
def Covered (c : List Nat) : Prop := ∀ T, Node n T → T < c → H T

/-- Every node before `Q`, and every node of the subtree below `Q`, satisfies `H`. -/
def Closed (Q : List Nat) : Prop := ∀ T, Node n T → (T < Q ∨ Q <+: T) → H T

variable {n H}

/-- Before the first node there is nothing. -/
theorem covered_zero : Covered n H [0] := by
  intro T hT hlt
  have hlt' : T < [] ++ [0] := hlt
  rcases lt_snoc_iff.mp hlt' with h | h | ⟨y, W, hy, -⟩
  · exact absurd h (List.not_lt_nil T)
  · exact absurd h hT.ne_nil
  · exact absurd hy (Nat.not_lt_zero y)

theorem Covered.mono {H' : List Nat → Prop} (hH : ∀ T, Node n T → H T → H' T) {c : List Nat}
    (h : Covered n H c) : Covered n H' c :=
  fun T hT hlt => hH T hT (h T hT hlt)

theorem Covered.explore {P : List Nat} {k : Nat} (h : Covered n H (P ++ [k])) (hk : H (P ++ [k])) :
    Covered n H (P ++ [k] ++ [k + 1]) := by
  intro T hT hlt
  rcases lt_snoc_iff.mp hlt with hlt | rfl | ⟨y, W, hy, rfl⟩
  · exact h T hT hlt
  · exact hk
  · -- an increasing list cannot go on below `k` after `k`
    have hky := (List.pairwise_append.mp hT.increasing).2.2 k (by simp) y (by simp)
    omega

/-- SHIFT: leaving the subtree below `P ++ [k]`, every node of which satisfies `H`. -/
theorem Covered.closed_shift {P : List Nat} {k : Nat} (h : Covered n H (P ++ [k]))
    (hsub : ∀ W, Node n (P ++ k :: W) → H (P ++ k :: W)) : Closed n H (P ++ [k]) := by
  rintro T hT (hlt | ⟨V, rfl⟩)
  · exact h T hT hlt
  · simpa using hsub V (by simpa using hT)

/-- CUT: leaving the subtree below `P ++ [k]` and the omission branch of `k`, that is every
node `P ++ y :: W` with `k ≤ y`, closes `P`. -/
theorem Covered.closed_cut {P : List Nat} {k : Nat} (h : Covered n H (P ++ [k]))
    (hcut : ∀ y W, k ≤ y → Node n (P ++ y :: W) → H (P ++ y :: W)) : Closed n H P := by
  rintro T hT (hlt | ⟨V, rfl⟩)
  · exact h T hT (lt_append_of_lt _ hlt)
  · cases V with
    | nil => exact h _ hT (lt_snoc_iff.mpr (.inr (.inl (List.append_nil P))))
    | cons y W =>
      by_cases hy : y < k
      · exact h _ hT (lt_snoc_iff.mpr (.inr (.inr ⟨y, W, hy, rfl⟩)))
      · exact hcut y W (by omega) hT

/-- From a closed node `Q ++ [t]` the cursor goes to its next sibling `Q ++ [t + 1]`. -/
theorem Closed.covered_next {Q : List Nat} {t : Nat} (h : Closed n H (Q ++ [t])) :
    Covered n H (Q ++ [t + 1]) := by
  intro T hT hlt
  rcases lt_snoc_iff.mp hlt with hlt | rfl | ⟨y, W, hy, rfl⟩
  · exact h T hT (.inl (lt_append_of_lt _ hlt))
  · exact h T hT (.inl (lt_snoc_iff.mpr (.inr (.inl rfl))))
  · rcases Nat.lt_succ_iff_lt_or_eq.mp hy with hy | rfl
    · exact h _ hT (.inl (lt_snoc_iff.mpr (.inr (.inr ⟨y, W, hy, rfl⟩))))
    · exact h _ hT (.inr ⟨W, by simp⟩)

/-- Skipping the subtree of `Q ++ [j]`, every node of which satisfies `H`. -/
theorem Covered.skip {Q : List Nat} {j : Nat} (h : Covered n H (Q ++ [j]))
    (hsub : ∀ W, Node n (Q ++ j :: W) → H (Q ++ j :: W)) : Covered n H (Q ++ [j + 1]) :=
  (h.closed_shift hsub).covered_next

/-- A walk that closes the root has dealt with every node. -/
theorem Closed.all (h : Closed n H []) (T : List Nat) (hT : Node n T) : H T :=
  h T hT (.inr (List.nil_prefix))

-- ---------------------------------------------------------------------------
-- Nodes as sublists
-- ---------------------------------------------------------------------------

section Sublists

variable {α : Type} [Inhabited α]

/-- An increasing list of indices below the length picks out a sublist. -/
theorem sublist_of_indices {l : List α} {T : List Nat} (hinc : T.Pairwise (· < ·))
    (hlt : ∀ i ∈ T, i < l.length) : List.Sublist (T.map (l[·]!)) l := by
  -- the same indices, as `Fin l.length`
  have heq : (T.pmap (fun i h => (⟨i, h⟩ : Fin l.length)) hlt).map (l[·]) = T.map (l[·]!) := by
    rw [List.map_pmap]
    induction T with
    | nil => rfl
    | cons i T ih =>
      simp only [List.pmap, List.map_cons, getElem!_pos l i (hlt i (by simp))]
      exact congrArg _ (ih hinc.of_cons fun j hj => hlt j (by simp [hj]))
  rw [← heq]
  exact List.map_getElem_sublist
    (hinc.pmap hlt (f := fun i h => (⟨i, h⟩ : Fin l.length)) fun {_} _ {_} _ hab => Fin.mk_lt_mk.mpr hab)

theorem abs_sum_le_sum_map_abs (s : List Int) : |s.sum| ≤ (s.map abs).sum := by
  induction s with
  | nil => simp
  | cons x s ih =>
    rw [List.sum_cons, List.map_cons, List.sum_cons]
    exact (abs_add_le x s.sum).trans (Int.add_le_add_left ih _)

/-- The values of `f` at an increasing list of indices sum, in absolute value, to at most the
absolute values of `f` over the whole list. -/
theorem abs_sum_indices_le (f : α → Int) {l : List α} {T : List Nat} (hinc : T.Pairwise (· < ·))
    (hlt : ∀ i ∈ T, i < l.length) : |((T.map (l[·]!)).map f).sum| ≤ (l.map fun a => |f a|).sum :=
  calc |((T.map (l[·]!)).map f).sum|
      ≤ (((T.map (l[·]!)).map f).map abs).sum := abs_sum_le_sum_map_abs _
    _ = ((T.map (l[·]!)).map fun a => |f a|).sum := by rw [List.map_map]; rfl
    _ ≤ (l.map fun a => |f a|).sum :=
        ((sublist_of_indices hinc hlt).map _).sum_le_sum fun _ h => by
          obtain ⟨a, -, rfl⟩ := List.mem_map.mp h
          exact abs_nonneg _

/-- Every sublist is picked out by an increasing list of indices below the length. -/
theorem exists_indices_of_sublist {l s : List α} (h : List.Sublist s l) :
    ∃ T : List Nat, T.Pairwise (· < ·) ∧ (∀ i ∈ T, i < l.length) ∧ s = T.map (l[·]!) := by
  obtain ⟨is, rfl, hinc⟩ := List.sublist_eq_map_getElem h
  refine ⟨is.map (·.val), ?_, ?_, ?_⟩
  · exact List.pairwise_map.mpr (hinc.imp fun h => h)
  · simp
  · simp

/-- The elements at an increasing list of indices of a permutation `l'` of `l` are a
sub-multiset of `l`. -/
theorem subperm_of_indices {l l' : List α} (hp : l'.Perm l) {T : List Nat} (hinc : T.Pairwise (· < ·))
    (hlt : ∀ i ∈ T, i < l'.length) : (T.map (l'[·]!)).Subperm l :=
  (sublist_of_indices hinc hlt).subperm.trans hp.subperm

/-- Every non-empty sub-multiset of `l` is, up to order, the elements of a permutation `l'` of
`l` at a node. -/
theorem exists_node_of_subperm {l l' s : List α} (hp : l'.Perm l) (hs : s.Subperm l) (hne : s ≠ []) :
    ∃ T, Node l'.length T ∧ s.Perm (T.map (l'[·]!)) := by
  obtain ⟨s', hperm, hsub⟩ := hs.trans hp.symm.subperm
  obtain ⟨T, hinc, hlt, rfl⟩ := exists_indices_of_sublist hsub
  refine ⟨T, ⟨fun h => hne ?_, hinc, hlt⟩, hperm.symm⟩
  rw [h, List.map_nil] at hperm
  exact hperm.nil_eq.symm

end Sublists

end InclusionTree
