-- SUMMARY: The prevector class over the memory model: is_direct, size, capacity, item_ptr, change_capacity and every public method.
import Riecoin.Prevector.Memory
import Mathlib.Algebra.Group.Nat.Defs
import Mathlib.Algebra.Group.Int.Defs

/-!
# Prevector methods

`prevector<N, T>` of `src/prevector.h`, method by method. A method of object `o` takes the
world and returns the world after it, or `none` if it makes an access the memory model
refuses. Arithmetic on `_size`, `size()` and counts is `uint32_t` arithmetic (`Size`), and
`item_ptr` takes a `difference_type` (`int32_t`), as in the class; `capacity()` is a
`size_t`.

The template methods over an input range take an `InputRange`: the elements of a sequence
the model does not hold in memory (an array or a `std::vector`), or `[first, last)` of a
prevector, read through memory as the copy loop reads it.
-/

namespace Riecoin

namespace Prevector

variable {N : Nat} {T : Type}

/-- A default-constructed object: `_union = {}`, `_size = 0`. -/
def empty : Prevector N T := ⟨.direct fun _ => none, 0⟩

/-- `is_direct()`: `_size <= N`. -/
def isDirect (v : Prevector N T) : Bool := decide (v._size.toNat ≤ N)

/-- `size()`. -/
def size (v : Prevector N T) : UInt32 :=
  if v.isDirect then v._size else v._size - UInt32.ofNat N - 1

/-- `capacity()`. -/
def capacity (v : Prevector N T) : Nat :=
  if v.isDirect then N else v.union.capacity.toNat

/-- `direct_ptr(pos)` of object `o`. -/
def directPtr (o : Nat) (pos : Int) : Ptr := ⟨.direct o, pos⟩

/-- `indirect_ptr(pos)`. -/
def indirectPtr (v : Prevector N T) (pos : Int) : Ptr := ⟨v.union.loc, pos⟩

/-- `item_ptr(pos)` of object `o`. -/
def itemPtr (o : Nat) (v : Prevector N T) (pos : Int32) : Ptr :=
  if v.isDirect then directPtr o pos.toInt else v.indirectPtr pos.toInt

/-- `begin()`. -/
def beginPtr (o : Nat) (v : Prevector N T) : Ptr := itemPtr o v 0

/-- `end()`. -/
def endPtr (o : Nat) (v : Prevector N T) : Ptr := itemPtr o v (size v).toInt32

end Prevector

/-- The input range `[first, last)` of a template method. -/
inductive InputRange (T : Type) where
  /-- The elements of a sequence outside the model's memory. -/
  | list (xs : List T)
  /-- The elements between two prevector iterators. -/
  | mem (first last : Ptr)

/-- `last - first`. -/
def InputRange.count {T : Type} : InputRange T → Int
  | list xs => xs.length
  | mem first last => (last.sub first).toInt

/-- The arguments of the two overloads of `fill`: `count` copies of a value
(`std::fill_n`), or the elements of an input range. -/
inductive Fill (T : Type) where
  | copies (count : Int) (value : T)
  | range (r : InputRange T)

/-- The conversion of a `ptrdiff_t` to the `size_t` that `memmove` takes. -/
def sizeT (d : Int) : Nat := (d % 2 ^ 64).toNat

namespace World

open Prevector

variable {N : Nat} {T : Type}

/-- Object `o` constructed as `v`. -/
def create (w : World N T) (o : Nat) (v : Prevector N T) : World N T :=
  { w with objs := Function.update w.objs o (some v) }

/-- `_size += k`. -/
def addSize (w : World N T) (o : Nat) (k : UInt32) : World N T :=
  w.modify o fun v => { v with _size := v._size + k }

/-- The copy loop of `fill(dst, first, last)` over `n` elements of memory from `first`. -/
def fillFrom (w : World N T) (dst first : Ptr) : Nat → Option (World N T)
  | 0 => some w
  | n + 1 => do
    let x ← w.load first
    let w ← w.store dst x
    w.fillFrom (dst.add 1) (first.add 1) n

/-- `fill(dst, ...)`, both overloads; the copy loop runs until `first == last`. -/
def fillWith (w : World N T) (dst : Ptr) : Fill T → Option (World N T)
  | .copies count x => w.fill dst count.toNat x
  | .range (.list xs) => w.fillRange dst xs
  | .range (.mem first last) => w.fillFrom dst first (last.off - first.off).toNat

/-- `change_capacity(new_capacity)` of object `o`. -/
def changeCapacity (w : World N T) (o : Nat) (newCapacity : UInt32) : Option (World N T) := do
  let v ← w.objs o
  if newCapacity.toNat ≤ N then
    if !v.isDirect then
      -- back to the inline buffer: copy, then free the block through the saved pointer
      let indirect := v.indirectPtr 0
      let w ← w.memcpy (directPtr o 0) indirect (size v).toNat
      let w ← w.free indirect
      pure (w.modify o fun v => { v with _size := v._size - UInt32.ofNat (N + 1) })
    else pure w
  else if !v.isDirect then
    let (w, b) ← w.realloc (v.indirectPtr 0) newCapacity.toNat
    pure (w.modify o fun v => { v with union := .indirect b newCapacity })
  else
    let (w, b) := w.malloc newCapacity.toNat
    let w ← w.memcpy ⟨.heap b, 0⟩ (directPtr o 0) (size v).toNat
    let w := w.modify o fun v => { v with union := .indirect b newCapacity }
    pure (w.modify o fun v => { v with _size := v._size + UInt32.ofNat (N + 1) })

/-- `erase(first, last)`. -/
def erase (w : World N T) (o : Nat) (first last : Ptr) : Option (World N T) := do
  let v ← w.objs o
  let endp := endPtr o v
  let w := w.modify o fun v => { v with _size := v._size - (last.sub first).toUInt32 }
  w.memmove first last (sizeT (endp.off - last.off))

/-- `erase(pos)`: `erase(pos, pos + 1)`. -/
def eraseOne (w : World N T) (o : Nat) (pos : Ptr) : Option (World N T) :=
  w.erase o pos (pos.add 1)

/-- `resize(new_size)`; new elements are `T{}`. -/
def resize [Inhabited T] (w : World N T) (o : Nat) (newSize : UInt32) : Option (World N T) := do
  let v ← w.objs o
  let curSize := size v
  if curSize = newSize then pure w
  else if curSize > newSize then w.erase o (itemPtr o v newSize.toInt32) (endPtr o v)
  else
    let w ← if newSize.toNat > capacity v then w.changeCapacity o newSize else pure w
    let increase : Int := (newSize - curSize).toNat
    let v ← w.objs o
    let w ← w.fill (itemPtr o v curSize.toInt32) increase.toNat default
    pure (w.addSize o (UInt32.ofInt increase))

/-- `clear()`: `resize(0)`. -/
def clear [Inhabited T] (w : World N T) (o : Nat) : Option (World N T) :=
  w.resize o 0

/-- `reserve(new_capacity)`. -/
def reserve (w : World N T) (o : Nat) (newCapacity : UInt32) : Option (World N T) := do
  let v ← w.objs o
  if newCapacity.toNat > capacity v then w.changeCapacity o newCapacity else pure w

/-- `shrink_to_fit()`: `change_capacity(size())`. -/
def shrinkToFit (w : World N T) (o : Nat) : Option (World N T) := do
  let v ← w.objs o
  w.changeCapacity o (size v)

/-- The constructors `prevector(n, val)`, `prevector(first, last)` and the copy constructor:
`change_capacity(n); _size += n; fill(item_ptr(0), ...)` on a new object. -/
def constructWith (w : World N T) (o : Nat) (n : UInt32) (src : Fill T) :
    Option (World N T) := do
  let w := w.create o empty
  let w ← w.changeCapacity o n
  let w := w.addSize o n
  let v ← w.objs o
  w.fillWith (itemPtr o v 0) src

/-- `prevector(n)`: `resize(n)` on a new object. -/
def constructN [Inhabited T] (w : World N T) (o : Nat) (n : UInt32) : Option (World N T) :=
  (w.create o empty).resize o n

/-- `prevector(n, val)`. -/
def constructFill (w : World N T) (o : Nat) (n : UInt32) (val : T) : Option (World N T) :=
  w.constructWith o n (.copies n.toNat val)

/-- `prevector(first, last)`: `n = last - first`. -/
def constructRange (w : World N T) (o : Nat) (r : InputRange T) : Option (World N T) :=
  w.constructWith o (UInt32.ofInt r.count) (.range r)

/-- `prevector(const prevector& other)`: `n = other.size()`, then the elements of `other`. -/
def copyConstruct (w : World N T) (o src : Nat) : Option (World N T) := do
  let other ← w.objs src
  w.constructWith o (size other) (.range (.mem (beginPtr src other) (endPtr src other)))

/-- `prevector(prevector&& other)`: the union and `_size` taken over, `other._size = 0`. -/
def moveConstruct (w : World N T) (o src : Nat) : Option (World N T) := do
  let other ← w.objs src
  let w := w.create o ⟨other.union, other._size⟩
  pure (w.modify src fun v => { v with _size := 0 })

/-- `assign(n, val)` and `assign(first, last)`:
`clear(); if (capacity() < n) change_capacity(n); _size += n; fill(item_ptr(0), ...)`. -/
def assignWith [Inhabited T] (w : World N T) (o : Nat) (n : UInt32) (src : Fill T) :
    Option (World N T) := do
  let w ← w.clear o
  let v ← w.objs o
  let w ← if capacity v < n.toNat then w.changeCapacity o n else pure w
  let w := w.addSize o n
  let v ← w.objs o
  w.fillWith (itemPtr o v 0) src

/-- `assign(n, val)`. -/
def assign [Inhabited T] (w : World N T) (o : Nat) (n : UInt32) (val : T) : Option (World N T) :=
  w.assignWith o n (.copies n.toNat val)

/-- `assign(first, last)`: `n = last - first`. -/
def assignRange [Inhabited T] (w : World N T) (o : Nat) (r : InputRange T) :
    Option (World N T) :=
  w.assignWith o (UInt32.ofInt r.count) (.range r)

/-- `operator=(const prevector& other)`: nothing on self-assignment, else
`assign(other.begin(), other.end())`. -/
def copyAssign [Inhabited T] (w : World N T) (o src : Nat) : Option (World N T) :=
  if src = o then some w
  else do
    let other ← w.objs src
    w.assignRange o (.mem (beginPtr src other) (endPtr src other))

/-- `operator=(prevector&& other)`: free the own block, take over the union and `_size`,
`other._size = 0`. -/
def moveAssign (w : World N T) (o src : Nat) : Option (World N T) := do
  let v ← w.objs o
  let w ← if !v.isDirect then w.free (v.indirectPtr 0) else pure w
  let other ← w.objs src
  let w := w.modify o fun v => { v with union := other.union, _size := other._size }
  pure (w.modify src fun v => { v with _size := 0 })

/-- The lines the three `insert` overloads share: `p = pos - begin()`, growth to
`new_size + (new_size >> 1)` when `capacity() < new_size`, `ptr = item_ptr(p)`, the `memmove`
of the tail to `ptr + shift`, and `_size += count`. Returns the world, `ptr` and `p`. -/
def makeRoom (w : World N T) (o : Nat) (pos : Ptr) (count : UInt32) (shift : Int) :
    Option (World N T × Ptr × UInt32) := do
  let v ← w.objs o
  let p : UInt32 := (pos.sub (beginPtr o v)).toUInt32
  let newSize := size v + count
  let w ← if capacity v < newSize.toNat then w.changeCapacity o (newSize + (newSize >>> 1))
    else pure w
  let v ← w.objs o
  let ptr := itemPtr o v p.toInt32
  let w ← w.memmove (ptr.add shift) ptr (size v - p).toNat
  pure (w.addSize o count, ptr, p)

/-- `insert(pos, value)`: `new(ptr) T(value)` after the shared lines. -/
def insert (w : World N T) (o : Nat) (pos : Ptr) (value : T) : Option (World N T) := do
  let (w, ptr, _) ← w.makeRoom o pos 1 1
  w.store ptr value

/-- `insert(pos, count, value)`: `fill(item_ptr(p), count, value)` after the shared lines. -/
def insertFill (w : World N T) (o : Nat) (pos : Ptr) (count : UInt32) (value : T) :
    Option (World N T) := do
  let (w, _, p) ← w.makeRoom o pos count count.toNat
  let v ← w.objs o
  w.fill (itemPtr o v p.toInt32) count.toNat value

/-- `insert(pos, first, last)`: `difference_type count = last - first`, then
`fill(ptr, first, last)` after the shared lines. -/
def insertRange (w : World N T) (o : Nat) (pos : Ptr) (r : InputRange T) :
    Option (World N T) := do
  let count : Int32 := Int.toInt32 r.count
  let (w, ptr, _) ← w.makeRoom o pos count.toUInt32 count.toInt
  w.fillWith ptr (.range r)

/-- `emplace_back(x)` and `push_back(x)`. -/
def emplaceBack (w : World N T) (o : Nat) (x : T) : Option (World N T) := do
  let v ← w.objs o
  let newSize := size v + 1
  let w ← if capacity v < newSize.toNat then w.changeCapacity o (newSize + (newSize >>> 1))
    else pure w
  let v ← w.objs o
  let w ← w.store (itemPtr o v (size v).toInt32) x
  pure (w.addSize o 1)

/-- `pop_back()`: `erase(end() - 1, end())`. -/
def popBack (w : World N T) (o : Nat) : Option (World N T) := do
  let v ← w.objs o
  w.erase o ((endPtr o v).add (-1)) (endPtr o v)

/-- `operator[](pos) = x`. -/
def setAt (w : World N T) (o : Nat) (pos : UInt32) (x : T) : Option (World N T) := do
  let v ← w.objs o
  w.store (itemPtr o v pos.toInt32) x

/-- `swap(other)`: `std::swap(_union, other._union); std::swap(_size, other._size)`. -/
def swap (w : World N T) (o other : Nat) : Option (World N T) := do
  let v ← w.objs o
  let u ← w.objs other
  let w := w.modify o fun x => { x with union := u.union, _size := u._size }
  pure (w.modify other fun x => { x with union := v.union, _size := v._size })

/-- `~prevector()`: free the block of an object on the heap. -/
def destroy (w : World N T) (o : Nat) : Option (World N T) := do
  let v ← w.objs o
  let w ← if !v.isDirect then w.free (v.indirectPtr 0) else pure w
  pure { w with objs := Function.update w.objs o none }

end World

end Riecoin
