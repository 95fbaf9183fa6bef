-- SUMMARY: Programs of prevector operations on numbered objects refine the same programs on std::vector.
import Riecoin.Prevector.Transfer

/-!
# prevector refines std::vector

A program is a list of operations on numbered objects, as the fuzz target
`prevector_tester` drives them: the constructors, copy and move, both `assign` overloads,
`resize`, `reserve`, `shrink_to_fit`, `clear`, the three `insert` overloads, both `erase`
overloads, `emplace_back`, `pop_back`, `swap` and the destructor. An iterator argument is a
position `p` (the iterator `begin() + p`), and a range is a list or the elements `[f, l)` of
another object.

The same program on `std::vector`s is `Op.apply` on a map from object numbers to lists. A
program is valid on those lists when every object it names exists (a constructor's slot is
free), positions and ranges are in bounds, a range does not read the vector it writes,
`pop_back` has an element to pop, and every size it reaches fits (`SizeFits`: below `2 ^ 31`,
and `size + N + 1` below `2 ^ 32`). The last condition is needed: with `N = 1`,
`prevector(4294967295)` wraps `_size` round to `1`.

`Refines w A` says that every object of `A` holds its list in its representation, that the
other slots are empty, and that the heap is well formed (every live block has exactly one
owner). A valid program then runs to the end (every access it makes is inside a live
buffer, and `free` is never given a dead block) and refines its `std::vector` run; once every
vector is destroyed, every block has been freed.
-/

namespace Riecoin

open Prevector

variable {N : Nat} {T : Type}

/-- A range argument: a list (any input iterator pair) or the elements `[f, l)` of object
`src`. -/
inductive Source (T : Type) where
  | list (xs : List T)
  | slice (src f l : Nat)

/-- The operations of a program, on numbered objects. -/
inductive Op (T : Type) where
  | constructN (o : Nat) (n : UInt32)
  | constructFill (o : Nat) (n : UInt32) (value : T)
  | constructRange (o : Nat) (r : Source T)
  | copyConstruct (o src : Nat)
  | moveConstruct (o src : Nat)
  | copyAssign (o src : Nat)
  | moveAssign (o src : Nat)
  | assign (o : Nat) (n : UInt32) (value : T)
  | assignRange (o : Nat) (r : Source T)
  | resize (o : Nat) (n : UInt32)
  | reserve (o : Nat) (n : UInt32)
  | shrinkToFit (o : Nat)
  | clear (o : Nat)
  | insert (o p : Nat) (value : T)
  | insertFill (o p : Nat) (count : UInt32) (value : T)
  | insertRange (o p : Nat) (r : Source T)
  | erase (o p : Nat)
  | eraseRange (o f l : Nat)
  | emplaceBack (o : Nat) (x : T)
  | popBack (o : Nat)
  | swap (o other : Nat)
  | destroy (o : Nat)

-- ---------------------------------------------------------------------------
-- The program on std::vector
-- ---------------------------------------------------------------------------

namespace Source

/-- The elements a range names, if its positions are in bounds. -/
def elems (A : Nat → Option (List T)) : Source T → Option (List T)
  | .list xs => some xs
  | .slice src f l => (A src).bind fun zs =>
    if f ≤ l ∧ l ≤ zs.length then some ((zs.drop f).take (l - f)) else none

/-- The range does not read object `o`. -/
def avoids (o : Nat) : Source T → Bool
  | .list _ => true
  | .slice src _ _ => src != o

end Source

/-- The operation on `std::vector`s; a moved-from vector is empty. -/
def Op.apply [Inhabited T] (A : Nat → Option (List T)) : Op T → Nat → Option (List T)
  | .constructN o n => Function.update A o (some (List.replicate n.toNat default))
  | .constructFill o n x => Function.update A o (some (List.replicate n.toNat x))
  | .constructRange o r => Function.update A o (r.elems A)
  | .copyConstruct o src => Function.update A o (A src)
  | .moveConstruct o src => Function.update (Function.update A o (A src)) src (some [])
  | .copyAssign o src => Function.update A o (A src)
  | .moveAssign o src => Function.update (Function.update A o (A src)) src (some [])
  | .assign o n x => Function.update A o (some (List.replicate n.toNat x))
  | .assignRange o r => Function.update A o (r.elems A)
  | .resize o n => Function.update A o ((A o).map fun xs =>
      xs.take n.toNat ++ List.replicate (n.toNat - xs.length) default)
  | .reserve _ _ => A
  | .shrinkToFit _ => A
  | .clear o => Function.update A o ((A o).map fun _ => [])
  | .insert o p x => Function.update A o ((A o).map fun xs => xs.take p ++ [x] ++ xs.drop p)
  | .insertFill o p n x => Function.update A o ((A o).map fun xs =>
      xs.take p ++ List.replicate n.toNat x ++ xs.drop p)
  | .insertRange o p r => Function.update A o ((A o).bind fun xs =>
      (r.elems A).map fun ys => xs.take p ++ ys ++ xs.drop p)
  | .erase o p => Function.update A o ((A o).map (·.eraseIdx p))
  | .eraseRange o f l => Function.update A o ((A o).map fun xs => xs.take f ++ xs.drop l)
  | .emplaceBack o x => Function.update A o ((A o).map (· ++ [x]))
  | .popBack o => Function.update A o ((A o).map List.dropLast)
  | .swap o other => Function.update (Function.update A o (A other)) other (A o)
  | .destroy o => Function.update A o none

/-- The operation's preconditions on the `std::vector`s, with every size it reaches fitting
a `prevector<N, T>`. -/
def Op.valid (N : Nat) (A : Nat → Option (List T)) : Op T → Bool
  | .constructN o n => (A o).isNone && decide (SizeFits N n.toNat)
  | .constructFill o n _ => (A o).isNone && decide (SizeFits N n.toNat)
  | .constructRange o r => (A o).isNone && (r.elems A).any fun ys => decide (SizeFits N ys.length)
  | .copyConstruct o src => (A o).isNone && (A src).isSome
  | .moveConstruct o src => (A o).isNone && (A src).isSome
  | .copyAssign o src => (A o).isSome && (A src).isSome
  | .moveAssign o src => (A o).isSome && (A src).isSome
  | .assign o n _ => (A o).isSome && decide (SizeFits N n.toNat)
  | .assignRange o r => (A o).isSome && r.avoids o &&
      (r.elems A).any fun ys => decide (SizeFits N ys.length)
  | .resize o n => (A o).isSome && decide (SizeFits N n.toNat)
  | .reserve o _ => (A o).isSome
  | .shrinkToFit o => (A o).isSome
  | .clear o => (A o).isSome
  | .insert o p _ => (A o).any fun xs => decide (p ≤ xs.length ∧ SizeFits N (xs.length + 1))
  | .insertFill o p n _ => (A o).any fun xs =>
      decide (p ≤ xs.length ∧ SizeFits N (xs.length + n.toNat))
  | .insertRange o p r => r.avoids o && (A o).any fun xs => (r.elems A).any fun ys =>
      decide (p ≤ xs.length ∧ SizeFits N (xs.length + ys.length))
  | .erase o p => (A o).any fun xs => decide (p < xs.length)
  | .eraseRange o f l => (A o).any fun xs => decide (f ≤ l ∧ l ≤ xs.length)
  | .emplaceBack o _ => (A o).any fun xs => decide (SizeFits N (xs.length + 1))
  | .popBack o => (A o).any fun xs => !xs.isEmpty
  | .swap o other => (A o).isSome && (A other).isSome
  | .destroy o => (A o).isSome

/-- A program: its operations, one after the other. -/
abbrev Program (T : Type) := List (Op T)

namespace Program

/-- The program on `std::vector`s. -/
def apply [Inhabited T] (A : Nat → Option (List T)) : Program T → Nat → Option (List T)
  | [] => A
  | op :: ops => apply (op.apply A) ops

/-- Every operation of the program is valid where it is applied. -/
def valid [Inhabited T] (N : Nat) (A : Nat → Option (List T)) : Program T → Bool
  | [] => true
  | op :: ops => op.valid N A && valid N (op.apply A) ops

end Program

-- ---------------------------------------------------------------------------
-- The program on prevectors
-- ---------------------------------------------------------------------------

namespace World

/-- No objects and no blocks. -/
def empty : World N T := ⟨fun _ => none, fun _ => none, 0⟩

/-- The iterator `begin() + p` of object `o`. -/
def iter (w : World N T) (o p : Nat) : Option Ptr :=
  (w.objs o).map fun v => (beginPtr o v).add p

end World

/-- The iterators of a range. -/
def Source.input (w : World N T) : Source T → Option (InputRange T)
  | .list xs => some (.list xs)
  | .slice src f l => do
    let first ← w.iter src f
    let last ← w.iter src l
    pure (.mem first last)

/-- The operation on the prevectors. -/
def Op.run [Inhabited T] (w : World N T) : Op T → Option (World N T)
  | .constructN o n => w.constructN o n
  | .constructFill o n x => w.constructFill o n x
  | .constructRange o r => do w.constructRange o (← r.input w)
  | .copyConstruct o src => w.copyConstruct o src
  | .moveConstruct o src => w.moveConstruct o src
  | .copyAssign o src => w.copyAssign o src
  | .moveAssign o src => w.moveAssign o src
  | .assign o n x => w.assign o n x
  | .assignRange o r => do w.assignRange o (← r.input w)
  | .resize o n => w.resize o n
  | .reserve o n => w.reserve o n
  | .shrinkToFit o => w.shrinkToFit o
  | .clear o => w.clear o
  | .insert o p x => do w.insert o (← w.iter o p) x
  | .insertFill o p n x => do w.insertFill o (← w.iter o p) n x
  | .insertRange o p r => do w.insertRange o (← w.iter o p) (← r.input w)
  | .erase o p => do w.eraseOne o (← w.iter o p)
  | .eraseRange o f l => do w.erase o (← w.iter o f) (← w.iter o l)
  | .emplaceBack o x => w.emplaceBack o x
  | .popBack o => w.popBack o
  | .swap o other => w.swap o other
  | .destroy o => w.destroy o

/-- The program on prevectors; `none` as soon as one operation fails. -/
def Program.run [Inhabited T] (w : World N T) : Program T → Option (World N T)
  | [] => some w
  | op :: ops => (op.run w).bind fun w' => run w' ops

-- ---------------------------------------------------------------------------
-- The refinement
-- ---------------------------------------------------------------------------

/-- The prevectors of `w` hold the `std::vector`s of `A`, and the heap is well formed. -/
structure Refines (w : World N T) (A : Nat → Option (List T)) : Prop where
  wf : HeapWF w
  free : ∀ o, A o = none → w.objs o = none
  holds : ∀ o xs, A o = some xs → Holds w o xs

variable {w w' : World N T} {A : Nat → Option (List T)}

theorem Holds.frame_confined {S : Nat → Prop} {o : Nat} {xs : List T} (h : Holds w o xs)
    (hc : Confined S w w') (ho : ¬S o) : Holds w' o xs := by
  obtain ⟨loc, cap, c, hl, hst⟩ := h
  exact ⟨loc, cap, c, hl.frame_confined hc ho, hst⟩

theorem Layout.iter {o : Nat} {loc : Loc} {len cap : Nat} {c : Nat → Option T}
    (h : Layout w o loc len cap c) (p : Nat) : w.iter o p = some ⟨loc, p⟩ := by
  obtain ⟨v, hv⟩ := h.exists_obj
  simp [World.iter, hv, beginPtr, h.itemPtr_zero hv, Ptr.add]

/-- A range into a free slot cannot read it. -/
theorem Source.avoids_of_free [Inhabited T] {o : Nat} (hA : A o = none) {r : Source T}
    {ys : List T} (hr : r.elems A = some ys) : r.avoids o = true := by
  cases r with
  | list => rfl
  | slice src f l =>
    have hsrc : (A src).isSome := by
      cases h : A src <;> simp_all [Source.elems]
    simp only [Source.avoids, bne_iff_ne, ne_eq]
    rintro rfl
    simp [hA] at hsrc

namespace Refines

/-- An operation confined to the objects `S` keeps the refinement when it leaves each of them
holding its new list, or gone. -/
theorem confined (h : Refines w A) {S : Nat → Prop} (hc : Confined S w w') (hwf : HeapWF w')
    {A' : Nat → Option (List T)} (hout : ∀ x, ¬S x → A' x = A x)
    (hin : ∀ x, S x → (A' x = none ∧ w'.objs x = none) ∨ ∃ xs, A' x = some xs ∧ Holds w' x xs) :
    Refines w' A' where
  wf := hwf
  free x hx := by
    by_cases hS : S x
    · rcases hin x hS with ⟨-, hnone⟩ | ⟨xs, hxs, -⟩
      · exact hnone
      · simp [hxs] at hx
    · rw [hc.objs x hS]
      exact h.free x (hout x hS ▸ hx)
  holds x xs hx := by
    by_cases hS : S x
    · rcases hin x hS with ⟨hnone, -⟩ | ⟨ys, hys, hholds⟩
      · simp [hnone] at hx
      · obtain rfl := Option.some.inj (hys.symm.trans hx)
        exact hholds
    · exact (h.holds x xs (hout x hS ▸ hx)).frame_confined hc hS

/-- An operation on one object that leaves it holding `ys`. -/
theorem update (h : Refines w A) {o : Nat} (hc : Confined (· = o) w w') {ys : List T}
    (ho : Holds w' o ys) : Refines w' (Function.update A o (some ys)) := by
  refine h.confined hc (hc.heapWF_of_single h.wf) (fun x hx => Function.update_of_ne hx _ _) ?_
  rintro x rfl
  exact .inr ⟨ys, Function.update_self _ _ _, ho⟩

/-- An operation on one object that leaves it holding what it held. -/
theorem keep (h : Refines w A) {o : Nat} {xs : List T} (hxs : A o = some xs)
    (hc : Confined (· = o) w w') (ho : Holds w' o xs) : Refines w' A := by
  have := h.update hc ho
  rwa [← hxs, Function.update_eq_self] at this

/-- A range of the program yields, in the prevectors, the elements it names in the vectors. -/
theorem source [Inhabited T] (h : Refines w A) {r : Source T} {ys : List T}
    (hr : r.elems A = some ys) {o : Nat} (havoid : r.avoids o = true) :
    ∃ ir, r.input w = some ir ∧ ir.Yields w o ys := by
  cases r with
  | list xs =>
    obtain rfl := Option.some.inj hr
    exact ⟨_, rfl, .list xs⟩
  | slice src f l =>
    simp only [Source.elems, Option.bind_eq_some_iff] at hr
    obtain ⟨zs, hzs, hif⟩ := hr
    split_ifs at hif with hfl
    obtain rfl := Option.some.inj hif
    obtain ⟨sloc, scap, sc, hs, hsst⟩ := h.holds src zs hzs
    simp only [Source.avoids, bne_iff_ne, ne_eq] at havoid
    exact ⟨_, by simp [Source.input, hs.iter], .mem havoid hs hsst hfl.1 hfl.2⟩

end Refines

/-- One valid operation runs to the end on the prevectors and keeps the refinement. -/
theorem Refines.step [Inhabited T] (h : Refines w A) (op : Op T) (hv : op.valid N A = true) :
    ∃ w', op.run w = some w' ∧ Refines w' (op.apply A) := by
  cases op with
  | constructN o n =>
    simp only [Op.valid, Bool.and_eq_true, Option.isNone_iff_eq_none, decide_eq_true_eq] at hv
    obtain ⟨w', hr, ho, hc⟩ := constructN_spec h.wf (h.free o hv.1) n hv.2
    exact ⟨w', hr, h.update hc ho⟩
  | constructFill o n x =>
    simp only [Op.valid, Bool.and_eq_true, Option.isNone_iff_eq_none, decide_eq_true_eq] at hv
    obtain ⟨w', hr, ho, hc⟩ := constructFill_spec h.wf (h.free o hv.1) n x hv.2
    exact ⟨w', hr, h.update hc ho⟩
  | constructRange o r =>
    simp only [Op.valid, Bool.and_eq_true, Option.isNone_iff_eq_none, Option.any_eq_true,
      decide_eq_true_eq] at hv
    obtain ⟨hA, ys, hr, hfit⟩ := hv
    obtain ⟨ir, hin, hy⟩ := h.source hr (Source.avoids_of_free hA hr)
    obtain ⟨w', hrun, ho, hc⟩ := constructRange_spec h.wf (h.free o hA) hy hfit
    refine ⟨w', by simp [Op.run, hin, hrun], ?_⟩
    simpa [Op.apply, hr] using h.update hc ho
  | copyConstruct o src =>
    simp only [Op.valid, Bool.and_eq_true, Option.isNone_iff_eq_none,
      Option.isSome_iff_exists] at hv
    obtain ⟨hA, zs, hzs⟩ := hv
    obtain ⟨w', hr, ho, hc⟩ := copyConstruct_spec h.wf (h.free o hA) (h.holds src zs hzs)
    refine ⟨w', hr, ?_⟩
    simpa [Op.apply, hzs] using h.update hc ho
  | moveConstruct o src =>
    simp only [Op.valid, Bool.and_eq_true, Option.isNone_iff_eq_none,
      Option.isSome_iff_exists] at hv
    obtain ⟨hA, zs, hzs⟩ := hv
    have hne : o ≠ src := by rintro rfl; simp [hA] at hzs
    obtain ⟨w', hr, ho, hsrc, hc, hwf'⟩ :=
      moveConstruct_spec h.wf (h.free o hA) (h.holds src zs hzs)
    refine ⟨w', hr, h.confined hc hwf' (fun x hx => ?_) ?_⟩
    · simp [Op.apply, Function.update_of_ne (not_or.mp hx).1, Function.update_of_ne (not_or.mp hx).2]
    · rintro x (rfl | rfl)
      · exact .inr ⟨zs, by simp [Op.apply, Function.update_of_ne hne, hzs], ho⟩
      · exact .inr ⟨[], by simp [Op.apply], hsrc⟩
  | copyAssign o src =>
    simp only [Op.valid, Bool.and_eq_true, Option.isSome_iff_exists] at hv
    obtain ⟨⟨xs, hxs⟩, zs, hzs⟩ := hv
    by_cases hne : src = o
    · -- self-assignment returns at once
      subst hne
      exact ⟨w, copyAssign_self w src, by simpa [Op.apply] using h⟩
    · obtain ⟨w', hr, ho, hc⟩ := copyAssign_spec h.wf (h.holds o xs hxs) (h.holds src zs hzs) hne
      refine ⟨w', hr, ?_⟩
      simpa [Op.apply, hzs] using h.update hc ho
  | moveAssign o src =>
    simp only [Op.valid, Bool.and_eq_true, Option.isSome_iff_exists] at hv
    obtain ⟨⟨xs, hxs⟩, zs, hzs⟩ := hv
    by_cases hne : src = o
    · -- self-move frees the own block and leaves the vector empty
      subst hne
      obtain ⟨w', hr, ho, hc⟩ := moveAssign_self h.wf (h.holds src xs hxs)
      refine ⟨w', hr, ?_⟩
      simpa [Op.apply] using h.update hc ho
    · obtain ⟨w', hr, ho, hsrc, hc, hwf'⟩ :=
        moveAssign_spec h.wf (h.holds o xs hxs) (h.holds src zs hzs) hne
      refine ⟨w', hr, h.confined hc hwf' (fun x hx => ?_) ?_⟩
      · simp [Op.apply, Function.update_of_ne (not_or.mp hx).1,
          Function.update_of_ne (not_or.mp hx).2]
      · rintro x (rfl | rfl)
        · exact .inr ⟨zs, by simp [Op.apply, Function.update_of_ne (Ne.symm hne), hzs], ho⟩
        · exact .inr ⟨[], by simp [Op.apply], hsrc⟩
  | assign o n x =>
    simp only [Op.valid, Bool.and_eq_true, Option.isSome_iff_exists, decide_eq_true_eq] at hv
    obtain ⟨⟨xs, hxs⟩, hfit⟩ := hv
    obtain ⟨loc, cap, c, hl, hst⟩ := h.holds o xs hxs
    obtain ⟨w', hr, ho, hc⟩ := assign_spec h.wf hl hst n x hfit
    exact ⟨w', hr, h.update hc ho⟩
  | assignRange o r =>
    simp only [Op.valid, Bool.and_eq_true, Option.isSome_iff_exists, Option.any_eq_true,
      decide_eq_true_eq] at hv
    obtain ⟨⟨⟨xs, hxs⟩, havoid⟩, ys, hr, hfit⟩ := hv
    obtain ⟨loc, cap, c, hl, hst⟩ := h.holds o xs hxs
    obtain ⟨ir, hin, hy⟩ := h.source hr havoid
    obtain ⟨w', hrun, ho, hc⟩ := assignRange_spec h.wf hl hst hy hfit
    refine ⟨w', by simp [Op.run, hin, hrun], ?_⟩
    simpa [Op.apply, hr] using h.update hc ho
  | resize o n =>
    simp only [Op.valid, Bool.and_eq_true, Option.isSome_iff_exists, decide_eq_true_eq] at hv
    obtain ⟨⟨xs, hxs⟩, hfit⟩ := hv
    obtain ⟨loc, cap, c, hl, hst⟩ := h.holds o xs hxs
    obtain ⟨w', hr, ho, hc⟩ := resize_spec h.wf hl hst n hfit
    refine ⟨w', hr, ?_⟩
    simpa [Op.apply, hxs] using h.update hc ho
  | reserve o n =>
    simp only [Op.valid, Option.isSome_iff_exists] at hv
    obtain ⟨xs, hxs⟩ := hv
    obtain ⟨loc, cap, c, hl, hst⟩ := h.holds o xs hxs
    obtain ⟨w', hr, ho, hc⟩ := reserve_spec h.wf hl hst n
    exact ⟨w', hr, h.keep hxs hc ho⟩
  | shrinkToFit o =>
    simp only [Op.valid, Option.isSome_iff_exists] at hv
    obtain ⟨xs, hxs⟩ := hv
    obtain ⟨loc, cap, c, hl, hst⟩ := h.holds o xs hxs
    obtain ⟨w', hr, ho, hc⟩ := shrinkToFit_spec h.wf hl hst
    exact ⟨w', hr, h.keep hxs hc ho⟩
  | clear o =>
    simp only [Op.valid, Option.isSome_iff_exists] at hv
    obtain ⟨xs, hxs⟩ := hv
    obtain ⟨loc, cap, c, hl, hst⟩ := h.holds o xs hxs
    obtain ⟨w', c', hr, hl', hc⟩ := clear_spec h.wf hl hst
    refine ⟨w', hr, ?_⟩
    simpa [Op.apply, hxs] using h.update hc (show Holds w' o [] from ⟨loc, cap, c', hl', Cells.stores_nil _⟩)
  | insert o p x =>
    simp only [Op.valid, Option.any_eq_true, decide_eq_true_eq] at hv
    obtain ⟨xs, hxs, hp, hfit⟩ := hv
    obtain ⟨loc, cap, c, hl, hst⟩ := h.holds o xs hxs
    obtain ⟨w', hr, ho, hc⟩ := insert_spec h.wf hl hst hp x hfit
    refine ⟨w', by simp [Op.run, hl.iter, hr], ?_⟩
    simpa [Op.apply, hxs] using h.update hc ho
  | insertFill o p n x =>
    simp only [Op.valid, Option.any_eq_true, decide_eq_true_eq] at hv
    obtain ⟨xs, hxs, hp, hfit⟩ := hv
    obtain ⟨loc, cap, c, hl, hst⟩ := h.holds o xs hxs
    obtain ⟨w', hr, ho, hc⟩ := insertFill_spec h.wf hl hst hp n x hfit
    refine ⟨w', by simp [Op.run, hl.iter, hr], ?_⟩
    simpa [Op.apply, hxs] using h.update hc ho
  | insertRange o p r =>
    simp only [Op.valid, Bool.and_eq_true, Option.any_eq_true, decide_eq_true_eq] at hv
    obtain ⟨havoid, xs, hxs, ys, hr, hp, hfit⟩ := hv
    obtain ⟨loc, cap, c, hl, hst⟩ := h.holds o xs hxs
    obtain ⟨ir, hin, hy⟩ := h.source hr havoid
    obtain ⟨w', hrun, ho, hc⟩ := insertRange_spec h.wf hl hst hp hy hfit
    refine ⟨w', by simp [Op.run, hl.iter, hin, hrun], ?_⟩
    simpa [Op.apply, hxs, hr] using h.update hc ho
  | erase o p =>
    simp only [Op.valid, Option.any_eq_true, decide_eq_true_eq] at hv
    obtain ⟨xs, hxs, hp⟩ := hv
    obtain ⟨loc, cap, c, hl, hst⟩ := h.holds o xs hxs
    obtain ⟨w', hr, ho, hc⟩ := eraseOne_spec h.wf hl hst hp
    refine ⟨w', by simp [Op.run, hl.iter, hr], ?_⟩
    simpa [Op.apply, hxs] using h.update hc ho
  | eraseRange o f l =>
    simp only [Op.valid, Option.any_eq_true, decide_eq_true_eq] at hv
    obtain ⟨xs, hxs, hfl, hl⟩ := hv
    obtain ⟨loc, cap, c, hlay, hst⟩ := h.holds o xs hxs
    obtain ⟨w', c', hr, hlay', hst', hc⟩ := erase_spec h.wf hlay hst hfl hl
    refine ⟨w', by simp [Op.run, hlay.iter, hr], ?_⟩
    simpa [Op.apply, hxs] using h.update hc ⟨loc, cap, c', hlay', hst'⟩
  | emplaceBack o x =>
    simp only [Op.valid, Option.any_eq_true, decide_eq_true_eq] at hv
    obtain ⟨xs, hxs, hfit⟩ := hv
    obtain ⟨loc, cap, c, hl, hst⟩ := h.holds o xs hxs
    obtain ⟨w', hr, ho, hc⟩ := emplaceBack_spec h.wf hl hst x hfit
    refine ⟨w', hr, ?_⟩
    simpa [Op.apply, hxs] using h.update hc ho
  | popBack o =>
    simp only [Op.valid, Option.any_eq_true, Bool.not_eq_true', List.isEmpty_eq_false_iff] at hv
    obtain ⟨xs, hxs, hne⟩ := hv
    obtain ⟨loc, cap, c, hl, hst⟩ := h.holds o xs hxs
    obtain ⟨w', hr, ho, hc⟩ := popBack_spec h.wf hl hst hne
    refine ⟨w', hr, ?_⟩
    simpa [Op.apply, hxs] using h.update hc ho
  | swap o other =>
    simp only [Op.valid, Bool.and_eq_true, Option.isSome_iff_exists] at hv
    obtain ⟨⟨xs, hxs⟩, ys, hys⟩ := hv
    by_cases hne : other = o
    · -- a swap with itself writes back what it read
      subst hne
      obtain ⟨loc, cap, c, hl, -⟩ := h.holds other xs hxs
      obtain ⟨v, hv⟩ := hl.exists_obj
      exact ⟨w, swap_self hv, by simpa [Op.apply] using h⟩
    · obtain ⟨w', hr, ho, hother, hc, hwf'⟩ :=
        swap_spec h.wf (h.holds o xs hxs) (h.holds other ys hys) hne
      refine ⟨w', hr, h.confined hc hwf' (fun x hx => ?_) ?_⟩
      · simp [Op.apply, Function.update_of_ne (not_or.mp hx).1,
          Function.update_of_ne (not_or.mp hx).2]
      · rintro x (rfl | rfl)
        · exact .inr ⟨ys, by simp [Op.apply, Function.update_of_ne (Ne.symm hne), hys], ho⟩
        · exact .inr ⟨xs, by simp [Op.apply, hxs], hother⟩
  | destroy o =>
    simp only [Op.valid, Option.isSome_iff_exists] at hv
    obtain ⟨xs, hxs⟩ := hv
    obtain ⟨w', hr, hnone, hc, hwf'⟩ := destroy_spec h.wf (h.holds o xs hxs)
    refine ⟨w', hr, h.confined hc hwf' (fun x hx => Function.update_of_ne hx _ _) ?_⟩
    rintro x rfl
    exact .inl ⟨Function.update_self _ _ _, hnone⟩

/-- No objects refine no vectors. -/
theorem refines_empty : Refines (World.empty : World N T) fun _ => none where
  wf :=
    { fresh := fun _ _ => rfl
      owned := fun _ hb => by simp [World.empty] at hb
      live := fun ⟨_, hv, _⟩ => by simp [World.empty] at hv
      unique := fun ⟨_, hv, _⟩ => by simp [World.empty] at hv }
  free _ _ := rfl
  holds _ _ h := by simp at h

/-- A valid program runs to the end on the prevectors and keeps the refinement. -/
theorem Refines.run [Inhabited T] (h : Refines w A) (ops : Program T)
    (hv : Program.valid N A ops = true) :
    ∃ w', Program.run w ops = some w' ∧ Refines w' (Program.apply A ops) := by
  induction ops generalizing w A with
  | nil => exact ⟨w, rfl, h⟩
  | cons op ops ih =>
    simp only [Program.valid, Bool.and_eq_true] at hv
    obtain ⟨w1, hr1, h1⟩ := h.step op hv.1
    obtain ⟨w2, hr2, h2⟩ := ih h1 hv.2
    exact ⟨w2, by simp [Program.run, hr1, hr2], h2⟩

/-- What the refinement shows of an object: its `size()` and `operator[]` are the vector's. -/
theorem Refines.observe (h : Refines w A) {o : Nat} {xs : List T} (hxs : A o = some xs) :
    ∃ v, w.objs o = some v ∧ (size v).toNat = xs.length ∧
      ∀ i (hi : i < xs.length), w.load (itemPtr o v (UInt32.ofNat i).toInt32) = some xs[i] := by
  obtain ⟨loc, cap, c, hl, hst⟩ := h.holds o xs hxs
  obtain ⟨v, hv⟩ := hl.exists_obj
  exact ⟨v, hv, hl.size_eq hv, fun i hi => load_itemPtr hl hst hv hi⟩

/-- Every live block has an owner, so once every vector is destroyed every block is free. -/
theorem Refines.heap_eq_none (h : Refines w fun _ => none) (b : Nat) : w.heap b = none := by
  by_contra hb
  obtain ⟨o, v, hv, -⟩ := h.wf.owned b (Option.ne_none_iff_isSome.mp hb)
  simp [h.free o rfl] at hv

theorem prevector_refines_vector [Inhabited T] (ops : Program T)
    (hv : Program.valid N (fun _ => none) ops = true) :
    ∃ w', Program.run (World.empty : World N T) ops = some w' ∧
      Refines w' (Program.apply (fun _ => none) ops) ∧
      (∀ o xs, Program.apply (fun _ => none) ops o = some xs → ∃ v, w'.objs o = some v ∧
        (size v).toNat = xs.length ∧
        ∀ i (hi : i < xs.length), w'.load (itemPtr o v (UInt32.ofNat i).toInt32) = some xs[i]) ∧
      ((∀ o, Program.apply (fun _ => none) ops o = none) → ∀ b, w'.heap b = none) := by
  obtain ⟨w', hrun, h'⟩ := refines_empty.run ops hv
  refine ⟨w', hrun, h', fun o xs hxs => h'.observe hxs, fun hall => ?_⟩
  rw [show Program.apply (fun _ => none) ops = fun _ => none from funext hall] at h'
  exact h'.heap_eq_none

/-- A program over two objects: fill, insert, a second object, swap, erase, destroy both. -/
def demoProgram : Program Nat :=
  [.constructFill 0 3 7, .insert 0 1 5, .constructN 1 1, .swap 0 1, .eraseRange 1 0 2,
    .emplaceBack 1 9, .destroy 0, .destroy 1]

theorem prevector_refines_vector_demo :
    Program.valid 2 (fun _ => none) demoProgram = true ∧
    ∃ w', Program.run (World.empty : World 2 Nat) demoProgram = some w' ∧
      Refines w' (Program.apply (fun _ => none) demoProgram) ∧
      (∀ o xs, Program.apply (fun _ => none) demoProgram o = some xs → ∃ v, w'.objs o = some v ∧
        (size v).toNat = xs.length ∧
        ∀ i (hi : i < xs.length), w'.load (itemPtr o v (UInt32.ofNat i).toInt32) = some xs[i]) ∧
      ((∀ o, Program.apply (fun _ => none) demoProgram o = none) → ∀ b, w'.heap b = none) :=
  ⟨by decide, prevector_refines_vector demoProgram (by decide)⟩

/-- With `N = 1`, `prevector(4294967295)` wraps `_size` round: the vector holds 4294967295
elements, the prevector's `size()` is 1. -/
theorem constructN_size_wraps :
    Program.apply (fun _ => none) [(Op.constructN 0 4294967295 : Op Unit)] 0 =
      some (List.replicate 4294967295 ()) ∧
    ((Program.run (World.empty : World 1 Unit) [.constructN 0 4294967295]).bind
      fun w => w.objs 0).map size = some 1 :=
  ⟨rfl, by decide⟩

end Riecoin
