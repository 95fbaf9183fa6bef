-- SUMMARY: Buffers of typed cells, some uninitialised: the copies and fills of memmove, memcpy and fill_n, and the lists such buffers hold.
import Mathlib.Data.List.Basic
import Mathlib.Logic.Function.Basic

/-!
# Cells

A typed buffer is a function from an index to a cell, `none` where the cell holds no
initialised value. A container written in C or C++ changes its buffer in three ways:
`copy` is a `memmove` (or a `memcpy` of disjoint ranges), which reads its whole source
before it writes; `fill` is `std::fill_n`; `write` is a loop of placement-new copies
from an input range. `truncate` is what `realloc` keeps.

`Stores c xs` says that the first `xs.length` cells hold `xs`. The lemmas here give the
list a buffer holds after the moves a vector makes: writing into a fresh buffer, appending,
opening a gap and filling it, and closing a gap.
-/

namespace Cells

variable {α : Type*}

/-- Cells `d, ..., d + n - 1` of `dst` replaced by cells `s, ..., s + n - 1` of `src`. -/
def copy (dst src : Nat → Option α) (d s n : Nat) : Nat → Option α :=
  fun i => if d ≤ i ∧ i < d + n then src (i - d + s) else dst i

/-- Cells `d, ..., d + n - 1` of `c` set to `x`. -/
def fill (c : Nat → Option α) (d n : Nat) (x : α) : Nat → Option α :=
  fun i => if d ≤ i ∧ i < d + n then some x else c i

/-- The cells from `d` on set to the elements of `xs`, in order. -/
def write (c : Nat → Option α) (d : Nat) (xs : List α) : Nat → Option α :=
  fun i => if d ≤ i ∧ i < d + xs.length then xs[i - d]? else c i

/-- The first `n` cells of `c`; the others uninitialised. -/
def truncate (c : Nat → Option α) (n : Nat) : Nat → Option α :=
  fun i => if i < n then c i else none

/-- The first `xs.length` cells of `c` hold `xs`. -/
def Stores (c : Nat → Option α) (xs : List α) : Prop :=
  ∀ i, i < xs.length → c i = xs[i]?

theorem fill_eq_write (c : Nat → Option α) (d n : Nat) (x : α) :
    fill c d n x = write c d (List.replicate n x) := by
  funext i
  simp only [fill, write, List.length_replicate, List.getElem?_replicate]
  split_ifs <;> first | rfl | omega

/-- One placement-new is a write of one element. -/
theorem update_eq_write (c : Nat → Option α) (d : Nat) (x : α) :
    Function.update c d (some x) = write c d [x] := by
  funext i
  by_cases h : i = d
  · subst h; simp [write]
  · simp only [Function.update_of_ne h, write, List.length_singleton]
    rw [if_neg (by omega)]

/-- A placement-new loop: the first element, then the rest one cell further on. -/
theorem write_cons (c : Nat → Option α) (d : Nat) (x : α) (xs : List α) :
    write (Function.update c d (some x)) (d + 1) xs = write c d (x :: xs) := by
  funext i
  simp only [write, List.length_cons]
  by_cases h : i = d
  · subst h
    rw [if_neg (by omega), if_pos (by omega)]
    simp
  · rw [Function.update_of_ne h]
    split_ifs with h1 h2 h2
    · rw [List.getElem?_cons, if_neg (by omega), show i - d - 1 = i - (d + 1) by omega]
    · omega
    · omega
    · rfl

@[simp] theorem stores_nil (c : Nat → Option α) : Stores c [] := by
  intro i hi; simp at hi

/-- Only the first `xs.length` cells matter. -/
theorem Stores.congr {c c' : Nat → Option α} {xs : List α} (h : Stores c xs)
    (hc : ∀ i, i < xs.length → c' i = c i) : Stores c' xs :=
  fun i hi => (hc i hi).trans (h i hi)

theorem Stores.get {c : Nat → Option α} {xs : List α} (h : Stores c xs) {i : Nat}
    (hi : i < xs.length) : c i = some xs[i] := by
  rw [h i hi, List.getElem?_eq_getElem hi]

theorem stores_write_zero (c : Nat → Option α) (xs : List α) : Stores (write c 0 xs) xs := by
  intro i hi
  simp [write, hi]

/-- Writing `ys` after the stored prefix appends it. -/
theorem Stores.write_append {c : Nat → Option α} {xs : List α} (h : Stores c xs)
    (ys : List α) : Stores (write c xs.length ys) (xs ++ ys) := by
  intro i hi
  rw [List.length_append] at hi
  simp only [write]
  by_cases hlt : i < xs.length
  · rw [if_neg (by omega), List.getElem?_append_left hlt]
    exact h i hlt
  · rw [if_pos (by omega), List.getElem?_append_right (by omega)]

theorem Stores.insert {c : Nat → Option α} {xs : List α} (h : Stores c xs) {p : Nat}
    (hp : p ≤ xs.length) (ys : List α) :
    Stores (write (copy c c (p + ys.length) p (xs.length - p)) p ys)
      (xs.take p ++ ys ++ xs.drop p) := by
  intro i hi
  simp only [List.length_append, List.length_take, List.length_drop] at hi
  simp only [write, copy]
  by_cases hlo : i < p
  · -- before the gap: the cell is untouched
    rw [if_neg (by omega), if_neg (by omega), List.append_assoc,
      List.getElem?_append_left (by rw [List.length_take]; omega), List.getElem?_take,
      if_pos hlo]
    exact h i (by omega)
  · by_cases hgap : i < p + ys.length
    · -- inside the gap: the written element
      rw [if_pos (by omega), List.getElem?_append_left (by simp; omega),
        List.getElem?_append_right (by rw [List.length_take]; omega), List.length_take,
        Nat.min_eq_left hp]
    · -- after the gap: the element moved up by `ys.length`
      rw [if_neg (by omega), if_pos (by omega), List.getElem?_append_right (by simp; omega),
        List.getElem?_drop, List.length_append, List.length_take, Nat.min_eq_left hp,
        show i - (p + ys.length) + p = p + (i - (p + ys.length)) by omega]
      exact h _ (by omega)

/-- Closing the gap `[f, l)` with a `memmove` of the tail from `l` down to `f` erases it. -/
theorem Stores.erase {c : Nat → Option α} {xs : List α} (h : Stores c xs) {f l : Nat}
    (hfl : f ≤ l) (hl : l ≤ xs.length) :
    Stores (copy c c f l (xs.length - l)) (xs.take f ++ xs.drop l) := by
  intro i hi
  simp only [List.length_append, List.length_take, List.length_drop] at hi
  simp only [copy]
  by_cases hlo : i < f
  · rw [if_neg (by omega), List.getElem?_append_left (by rw [List.length_take]; omega),
      List.getElem?_take, if_pos hlo]
    exact h i (by omega)
  · rw [if_pos (by omega), List.getElem?_append_right (by rw [List.length_take]; omega),
      List.getElem?_drop, List.length_take, Nat.min_eq_left (by omega),
      show i - f + l = l + (i - f) by omega]
    exact h _ (by omega)

end Cells
