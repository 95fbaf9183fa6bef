-- SUMMARY: The memory prevector objects live in: the inline-or-pointer union, heap blocks, and checked memcpy, memmove, fill_n, placement-new, malloc, realloc and free.
import Riecoin.Lib.Cells

/-!
# Prevector memory

The state of a program that uses `prevector<N, T>` (`src/prevector.h`): its live objects,
each with the union `direct_or_indirect` and the field `_size`, and the heap blocks the
objects allocate. Elements are cells (`Riecoin.Lib.Cells`): a cell that was never written
holds `none`.

Every access is checked, and an access the C++ code could not make safely gives `none`: a
location that is not live, an element outside `[0, capacity)`, a read of an uninitialised
element, a `memcpy` of overlapping ranges, a `free` or `realloc` of a block that is not
live, or of a pointer that is not the start of one. A program that reaches none of these
makes only the accesses the model allows.

What the model keeps and what it drops:

* The union is a sum. Writing the inline buffer overwrites the pointer and the capacity,
  and writing the pointer overwrites the inline buffer, whichever bytes of them really
  overlap; a pointer read from a union that holds inline elements is `Loc.wild`, through
  which every access fails. A proof over this model therefore uses no byte that the
  other member of the union may have clobbered.
* `malloc` and `realloc` succeed (the class asserts that they do); `realloc` keeps the
  block's identity and the elements below the smaller capacity.
* Elements are whole values of `T` (a trivially copyable type), so byte counts
  `n * sizeof(T)` are element counts `n`.
-/

namespace Riecoin

/-- Where elements live: the inline buffer of object `obj`, heap block `block`, or nowhere
(the pointer member of a union that holds inline elements). -/
inductive Loc where
  | direct (obj : Nat)
  | heap (block : Nat)
  | wild
  deriving DecidableEq

/-- `T*`, and the prevector iterators that wrap one: a location and an element offset. -/
structure Ptr where
  loc : Loc
  off : Int

/-- `ptr + n`. -/
def Ptr.add (p : Ptr) (n : Int) : Ptr := ⟨p.loc, p.off + n⟩

/-- The iterator difference `&(*a) - &(*b)`, returned as `difference_type` (`int32_t`). -/
def Ptr.sub (a b : Ptr) : Int32 := Int.toInt32 (a.off - b.off)

@[simp] theorem Ptr.loc_add (p : Ptr) (n : Int) : (p.add n).loc = p.loc := rfl
@[simp] theorem Ptr.off_add (p : Ptr) (n : Int) : (p.add n).off = p.off + n := rfl

/-- `union direct_or_indirect`: the inline elements, or the heap pointer and capacity. -/
inductive DirectOrIndirect (T : Type) where
  | direct (cells : Nat → Option T)
  | indirect (ptr : Nat) (capacity : UInt32)

namespace DirectOrIndirect

variable {T : Type}

/-- The inline buffer as the union holds it; no element is readable from a pointer. -/
def cells : DirectOrIndirect T → Nat → Option T
  | direct c => c
  | indirect .. => fun _ => none

/-- `indirect_contents.indirect`, as a location. -/
def loc : DirectOrIndirect T → Loc
  | direct _ => .wild
  | indirect b _ => .heap b

/-- `indirect_contents.capacity`; inline elements read as a capacity give garbage. -/
def capacity : DirectOrIndirect T → UInt32
  | direct _ => 0
  | indirect _ c => c

@[simp] theorem cells_direct (c : Nat → Option T) : (direct c).cells = c := rfl
@[simp] theorem loc_indirect (b : Nat) (c : UInt32) : (indirect b c : DirectOrIndirect T).loc = .heap b := rfl
@[simp] theorem capacity_indirect (b : Nat) (c : UInt32) :
    (indirect b c : DirectOrIndirect T).capacity = c := rfl

end DirectOrIndirect

/-- A `prevector<N, T>` object: `_union` and `_size`. `_size` is the element count while
it is at most `N` (inline storage), and the element count plus `N + 1` otherwise. -/
structure Prevector (N : Nat) (T : Type) where
  union : DirectOrIndirect T
  _size : UInt32

/-- A heap allocation of `cap` elements. -/
structure Block (T : Type) where
  cap : Nat
  cells : Nat → Option T

/-- The live prevector objects, the heap, and the next block identity `malloc` returns. -/
structure World (N : Nat) (T : Type) where
  objs : Nat → Option (Prevector N T)
  heap : Nat → Option (Block T)
  fresh : Nat

namespace World

variable {N : Nat} {T : Type}

/-- Object `o` changed by `f`, if it is live. -/
def modify (w : World N T) (o : Nat) (f : Prevector N T → Prevector N T) : World N T :=
  { w with objs := Function.update w.objs o ((w.objs o).map f) }

/-- The buffer at a location: the inline buffer has room for `N` elements. -/
def block (w : World N T) : Loc → Option (Block T)
  | .direct o => (w.objs o).map fun v => ⟨N, v.union.cells⟩
  | .heap b => w.heap b
  | .wild => none

/-- The buffer at a location given new cells; inline cells overwrite the union. -/
def setCells (w : World N T) : Loc → (Nat → Option T) → World N T
  | .direct o, c => w.modify o fun v => { v with union := .direct c }
  | .heap b, c =>
    { w with heap := Function.update w.heap b ((w.heap b).map fun blk => { blk with cells := c }) }
  | .wild, _ => w

/-- `*p`: an initialised element inside a live buffer. -/
def load (w : World N T) (p : Ptr) : Option T := do
  let b ← w.block p.loc
  if 0 ≤ p.off ∧ p.off < b.cap then b.cells p.off.toNat else none

/-- `new(p) T(x)`, or an assignment through `p`. -/
def store (w : World N T) (p : Ptr) (x : T) : Option (World N T) := do
  let b ← w.block p.loc
  if 0 ≤ p.off ∧ p.off < b.cap then
    some (w.setCells p.loc (Function.update b.cells p.off.toNat (some x)))
  else none

/-- `memmove(dst, src, n * sizeof(T))`: the source is read whole before the destination is
written, so the ranges may overlap. -/
def memmove (w : World N T) (dst src : Ptr) (n : Nat) : Option (World N T) := do
  let d ← w.block dst.loc
  let s ← w.block src.loc
  if 0 ≤ dst.off ∧ dst.off + n ≤ d.cap ∧ 0 ≤ src.off ∧ src.off + n ≤ s.cap then
    some (w.setCells dst.loc (Cells.copy d.cells s.cells dst.off.toNat src.off.toNat n))
  else none

/-- `memcpy(dst, src, n * sizeof(T))`: a `memmove` of ranges that must not overlap. -/
def memcpy (w : World N T) (dst src : Ptr) (n : Nat) : Option (World N T) :=
  if dst.loc ≠ src.loc ∨ dst.off + n ≤ src.off ∨ src.off + n ≤ dst.off then w.memmove dst src n
  else none

/-- `std::fill_n(dst, count, x)`. -/
def fill (w : World N T) (dst : Ptr) (count : Nat) (x : T) : Option (World N T) := do
  let b ← w.block dst.loc
  if 0 ≤ dst.off ∧ dst.off + count ≤ b.cap then
    some (w.setCells dst.loc (Cells.fill b.cells dst.off.toNat count x))
  else none

/-- The loop `while (first != last) { new(dst) T(*first); ++dst; ++first; }` over the
elements of an input range. -/
def fillRange (w : World N T) (dst : Ptr) : List T → Option (World N T)
  | [] => some w
  | x :: xs => do
    let w ← w.store dst x
    w.fillRange (dst.add 1) xs

/-- `malloc(n * sizeof(T))`: a new block with no initialised element. -/
def malloc (w : World N T) (n : Nat) : World N T × Nat :=
  ({ w with
      heap := Function.update w.heap w.fresh (some ⟨n, fun _ => none⟩)
      fresh := w.fresh + 1 }, w.fresh)

/-- `free(p)`: `p` must be the start of a live block. -/
def free (w : World N T) (p : Ptr) : Option (World N T) :=
  match p.loc with
  | .heap b =>
    if (w.heap b).isSome ∧ p.off = 0 then some { w with heap := Function.update w.heap b none }
    else none
  | _ => none

/-- `realloc(p, n * sizeof(T))`: the elements below both capacities are kept. -/
def realloc (w : World N T) (p : Ptr) (n : Nat) : Option (World N T × Nat) :=
  match p.loc with
  | .heap b => do
    let blk ← w.heap b
    if p.off = 0 then
      some ({ w with
        heap := Function.update w.heap b (some ⟨n, Cells.truncate blk.cells (min n blk.cap)⟩) }, b)
    else none
  | _ => none

/-! ## Reading the updates back -/

@[simp] theorem objs_modify_self (w : World N T) (o : Nat) (f : Prevector N T → Prevector N T) :
    (w.modify o f).objs o = (w.objs o).map f := by
  simp [modify]

theorem objs_modify_ne (w : World N T) {o o' : Nat} (f : Prevector N T → Prevector N T)
    (h : o' ≠ o) : (w.modify o f).objs o' = w.objs o' := by
  simp [modify, Function.update_of_ne h]

@[simp] theorem heap_modify (w : World N T) (o : Nat) (f : Prevector N T → Prevector N T) :
    (w.modify o f).heap = w.heap := rfl

@[simp] theorem fresh_modify (w : World N T) (o : Nat) (f : Prevector N T → Prevector N T) :
    (w.modify o f).fresh = w.fresh := rfl

theorem setCells_direct (w : World N T) (o : Nat) (c : Nat → Option T) :
    w.setCells (.direct o) c = w.modify o fun v => { v with union := .direct c } := rfl

@[simp] theorem objs_setCells_heap (w : World N T) (b : Nat) (c : Nat → Option T) :
    (w.setCells (.heap b) c).objs = w.objs := rfl

@[simp] theorem heap_setCells_direct (w : World N T) (o : Nat) (c : Nat → Option T) :
    (w.setCells (.direct o) c).heap = w.heap := rfl

theorem heap_setCells_ne (w : World N T) {b b' : Nat} (c : Nat → Option T) (h : b' ≠ b) :
    (w.setCells (.heap b) c).heap b' = w.heap b' := by
  simp [setCells, Function.update_of_ne h]

@[simp] theorem fresh_setCells (w : World N T) (l : Loc) (c : Nat → Option T) :
    (w.setCells l c).fresh = w.fresh := by
  cases l <;> rfl

/-- A buffer given new cells keeps its capacity. -/
theorem block_setCells_self (w : World N T) {l : Loc} {blk : Block T} (c : Nat → Option T)
    (h : w.block l = some blk) : (w.setCells l c).block l = some ⟨blk.cap, c⟩ := by
  cases l with
  | direct o =>
    simp only [block, Option.map_eq_some_iff] at h
    obtain ⟨v, hv, rfl⟩ := h
    simp [block, setCells, hv]
  | heap b =>
    simp only [block] at h
    simp [block, setCells, h]
  | wild => simp [block] at h

theorem block_setCells_ne (w : World N T) {l l' : Loc} (c : Nat → Option T) (h : l' ≠ l) :
    (w.setCells l c).block l' = w.block l' := by
  cases l <;> cases l' <;> simp_all [block, setCells, modify, Function.update_of_ne]

/-- A second write of a buffer's cells replaces the first. -/
theorem setCells_setCells (w : World N T) (l : Loc) (c c' : Nat → Option T) :
    (w.setCells l c).setCells l c' = w.setCells l c' := by
  cases l with
  | direct o =>
    simp only [setCells, modify, Function.update_self, Function.update_idem, Option.map_map]
    rfl
  | heap b =>
    simp only [setCells, Function.update_self, Function.update_idem, Option.map_map]
    rfl
  | wild => rfl

theorem load_setCells_ne (w : World N T) {l : Loc} {p : Ptr} (c : Nat → Option T)
    (h : p.loc ≠ l) : (w.setCells l c).load p = w.load p := by
  simp only [load, block_setCells_ne w c h]

/-- A store that succeeds writes the cells of the buffer it points into. -/
theorem exists_setCells_of_store {w w' : World N T} {p : Ptr} {x : T} (h : w.store p x = some w') :
    ∃ c, w' = w.setCells p.loc c := by
  simp only [store, Option.bind_eq_bind, Option.bind_eq_some_iff] at h
  obtain ⟨b, -, h⟩ := h
  split at h
  · exact ⟨_, (Option.some.inj h).symm⟩
  · cases h

/-! ## The accesses inside a live buffer -/

section Access

variable {w : World N T} {p : Ptr} {blk : Block T}

theorem load_eq (h : w.block p.loc = some blk) (hb : 0 ≤ p.off ∧ p.off < blk.cap) :
    w.load p = blk.cells p.off.toNat := by
  simp [load, h, hb]

theorem store_eq (x : T) (h : w.block p.loc = some blk) (hb : 0 ≤ p.off ∧ p.off < blk.cap) :
    w.store p x = some (w.setCells p.loc (Function.update blk.cells p.off.toNat (some x))) := by
  simp [store, h, hb]

theorem fill_eq {count : Nat} (x : T) (h : w.block p.loc = some blk)
    (hb : 0 ≤ p.off ∧ p.off + count ≤ blk.cap) :
    w.fill p count x = some (w.setCells p.loc (Cells.fill blk.cells p.off.toNat count x)) := by
  simp [fill, h, hb]

theorem memmove_eq {src : Ptr} {sblk : Block T} {n : Nat} (h : w.block p.loc = some blk)
    (hs : w.block src.loc = some sblk)
    (hb : 0 ≤ p.off ∧ p.off + n ≤ blk.cap ∧ 0 ≤ src.off ∧ src.off + n ≤ sblk.cap) :
    w.memmove p src n =
      some (w.setCells p.loc (Cells.copy blk.cells sblk.cells p.off.toNat src.off.toNat n)) := by
  simp [memmove, h, hs, hb]

theorem memcpy_eq {src : Ptr} {n : Nat} (hne : p.loc ≠ src.loc) :
    w.memcpy p src n = w.memmove p src n := by
  simp [memcpy, hne]

/-- The placement-new loop writes a nonempty range into consecutive cells (an empty one
touches nothing). -/
theorem fillRange_eq {xs : List T} (hne : xs ≠ []) (h : w.block p.loc = some blk)
    (hb : 0 ≤ p.off ∧ p.off + xs.length ≤ blk.cap) :
    w.fillRange p xs = some (w.setCells p.loc (Cells.write blk.cells p.off.toNat xs)) := by
  induction xs generalizing w p blk with
  | nil => exact absurd rfl hne
  | cons x xs ih =>
    simp only [List.length_cons] at hb
    rw [fillRange, store_eq x h (by omega), Option.bind_eq_bind, Option.bind_some]
    by_cases hxs : xs = []
    · subst hxs
      rw [fillRange, Cells.update_eq_write]
    · have hnext : (w.setCells p.loc (Function.update blk.cells p.off.toNat (some x))).block
          (p.add 1).loc = some ⟨blk.cap, Function.update blk.cells p.off.toNat (some x)⟩ :=
        block_setCells_self w _ h
      rw [ih hxs hnext (by simp only [Ptr.off_add]; omega), Ptr.loc_add,
        setCells_setCells, Ptr.off_add, show (p.off + 1).toNat = p.off.toNat + 1 by omega,
        Cells.write_cons]

end Access

/-! ## Allocation -/

@[simp] theorem malloc_snd (w : World N T) (n : Nat) : (w.malloc n).2 = w.fresh := rfl

theorem malloc_fst (w : World N T) (n : Nat) :
    (w.malloc n).1 =
      { w with
        heap := Function.update w.heap w.fresh (some ⟨n, fun _ => none⟩)
        fresh := w.fresh + 1 } := rfl

theorem free_eq {w : World N T} {b : Nat} {blk : Block T} (h : w.heap b = some blk) :
    w.free ⟨.heap b, 0⟩ = some { w with heap := Function.update w.heap b none } := by
  simp [free, h]

theorem realloc_eq {w : World N T} {b : Nat} {blk : Block T} (n : Nat) (h : w.heap b = some blk) :
    w.realloc ⟨.heap b, 0⟩ n =
      some ({ w with
        heap := Function.update w.heap b (some ⟨n, Cells.truncate blk.cells (min n blk.cap)⟩) }, b) := by
  simp [realloc, h]

end World

end Riecoin
