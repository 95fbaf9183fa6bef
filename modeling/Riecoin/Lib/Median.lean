-- SUMMARY: The upper median of a non-empty list (its middle element once sorted), characterised by counting the elements below a bound, and its monotonicity along a sliding window.
import Mathlib.Order.Lattice

/-!
# The upper median of a sliding window

`upperMedian a l` sorts `a :: l` and takes the element at half its length: the median for
an odd length, the upper of the two middle elements for an even one. Sorting makes the
order of the list irrelevant, and a bound `m` lies at or below the median exactly when at
most half the list (rounded down) lies strictly below `m` (`le_upperMedian_iff`).

From that count, `upperMedian_le_cons_take`: a window that keeps its newest `k` elements
and takes in a new one no smaller than its median has a median no smaller than before,
whether the window is still growing or already full and drops its oldest element.
-/

namespace Median

variable {α : Type} [LinearOrder α]

/-- `l` sorted ascending. -/
def sortAsc (l : List α) : List α := l.mergeSort fun a b => decide (a ≤ b)

theorem sortAsc_perm (l : List α) : (sortAsc l).Perm l := List.mergeSort_perm _ _

theorem length_sortAsc (l : List α) : (sortAsc l).length = l.length := List.length_mergeSort _

theorem sortAsc_pairwise (l : List α) : (sortAsc l).Pairwise (· ≤ ·) := by
  have h := List.pairwise_mergeSort (fun a b c (hab : decide (a ≤ b) = true) hbc =>
    decide_eq_true (le_trans (of_decide_eq_true hab) (of_decide_eq_true hbc)))
    (fun a b => by
      rcases le_total a b with h | h <;> simp [h]) l
  exact h.imp fun hab => of_decide_eq_true hab

/-- The element at index `n / 2` of `a :: l` sorted, `n` being its length. -/
def upperMedian (a : α) (l : List α) : α :=
  (sortAsc (a :: l)).get ⟨(l.length + 1) / 2, by
    rw [length_sortAsc, List.length_cons]
    omega⟩

/-- The upper median is one of the elements. -/
theorem upperMedian_mem (a : α) (l : List α) : upperMedian a l ∈ a :: l :=
  (sortAsc_perm (a :: l)).subset (List.get_mem _ _)

/-- In a sorted list, `m` is at most the element at `i` exactly when at most `i` elements
are below `m`. -/
theorem le_getElem_iff_countP {s : List α} (hs : s.Pairwise (· ≤ ·)) {i : Nat} (hi : i < s.length)
    (m : α) : m ≤ s[i] ↔ s.countP (fun x => decide (x < m)) ≤ i := by
  constructor
  · intro hm
    -- from index `i` on, every element is at least `s[i]`, hence not below `m`
    have hdrop : (s.drop i).countP (fun x => decide (x < m)) = 0 := by
      rw [List.countP_eq_zero]
      intro y hy
      rw [List.drop_eq_getElem_cons hi, List.mem_cons] at hy
      have hpw := (hs.sublist (List.drop_sublist i s))
      rw [List.drop_eq_getElem_cons hi, List.pairwise_cons] at hpw
      rcases hy with rfl | hy
      · simpa using hm
      · simpa using le_trans hm (hpw.1 y hy)
    have htake : (s.take i).countP (fun x => decide (x < m)) ≤ (s.take i).length :=
      List.countP_le_length
    rw [← List.take_append_drop i s, List.countP_append, hdrop, Nat.add_zero]
    exact Nat.le_trans htake (List.length_take_le i s)
  · intro hcount
    refine not_lt.mp fun hlt => ?_
    -- up to index `i`, every element is at most `s[i]`, hence below `m`
    have htake : (s.take (i + 1)).countP (fun x => decide (x < m)) = i + 1 := by
      have hpw := hs.sublist (List.take_sublist (i + 1) s)
      rw [List.take_succ_eq_append_getElem hi, List.pairwise_append] at hpw
      rw [List.countP_eq_length.mpr, List.length_take_of_le (by omega)]
      intro y hy
      rw [List.take_succ_eq_append_getElem hi, List.mem_append, List.mem_singleton] at hy
      rcases hy with hy | rfl
      · simpa using lt_of_le_of_lt (hpw.2.2 y hy s[i] List.mem_cons_self) hlt
      · simpa using hlt
    have hle : (s.take (i + 1)).countP (fun x => decide (x < m)) ≤
        s.countP (fun x => decide (x < m)) :=
      (List.take_sublist (i + 1) s).countP_le
    omega

/-- `m` is at most the upper median exactly when at most half the list, rounded down, is
below `m`. -/
theorem le_upperMedian_iff (a : α) (l : List α) (m : α) :
    m ≤ upperMedian a l ↔ (a :: l).countP (fun x => decide (x < m)) ≤ (l.length + 1) / 2 := by
  unfold upperMedian
  rw [List.get_eq_getElem, le_getElem_iff_countP (sortAsc_pairwise _),
    (sortAsc_perm _).countP_eq]

/-- The upper median is below `t` exactly when more than half the list, rounded down, is. -/
theorem upperMedian_lt_iff (a : α) (l : List α) (t : α) :
    upperMedian a l < t ↔ (l.length + 1) / 2 < (a :: l).countP (fun x => decide (x < t)) := by
  rw [← not_le, le_upperMedian_iff, Nat.not_le]

/-- The median of a window of at most `k + 1` elements does not drop when the window keeps
its newest `k` and takes in an element no smaller than the median. -/
theorem upperMedian_le_cons_take {a x : α} {l : List α} (k : Nat) (hlen : l.length ≤ k)
    (hx : upperMedian a l ≤ x) : upperMedian a l ≤ upperMedian x ((a :: l).take k) := by
  have hcount := (le_upperMedian_iff a l (upperMedian a l)).mp le_rfl
  rw [le_upperMedian_iff]
  -- the new element is not below the old median, and the kept ones are some of the old
  have hnew : ¬ x < upperMedian a l := not_lt.mpr hx
  have hkept : ((a :: l).take k).countP (fun y => decide (y < upperMedian a l)) ≤
      (a :: l).countP (fun y => decide (y < upperMedian a l)) :=
    (List.take_sublist k (a :: l)).countP_le
  rw [List.countP_cons_of_neg (by simpa using hnew), List.length_take, List.length_cons]
  omega

end Median
