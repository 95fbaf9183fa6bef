-- SUMMARY: The representation invariant of a prevector object, heap ownership, and what an operation on some objects may change in the rest of the world.
import Riecoin.Prevector.Methods

/-!
# Prevector layout

`Layout w o loc len cap c` is the representation invariant of object `o`: it holds `len`
elements in the cells `c` of the buffer at `loc`, of `cap` elements, inline while
`_size ≤ N` and on the heap block its union points to otherwise, with `_size` offset by
`N + 1`. Under it `item_ptr`, `size()` and `capacity()` read back `loc`, `len` and `cap`.

An object on the heap owns its block. `HeapWF` says that the heap has no block beyond the
allocation counter, that every live block has an owner (no leak) and that no block has
two (no block is freed twice, and a write to one vector's buffer leaves every other vector
as it was). `Confined S w w'` says what an operation of the objects in `S` may change:
nothing of the other objects and of the blocks they own, and no block left live without
an owner in `S` unless it was live and not theirs before.
-/

namespace Riecoin

open Prevector

variable {N : Nat} {T : Type}

-- ---------------------------------------------------------------------------
-- Size arithmetic
-- ---------------------------------------------------------------------------

/-- The bound below which the class's `uint32_t` and `int32_t` arithmetic on a size `n`
does not wrap: every position up to `n` is a `difference_type`, and `n + N + 1` is a
`Size`. -/
def SizeFits (N n : Nat) : Prop := n < 2 ^ 31 ∧ n + N + 1 < 2 ^ 32

instance (N n : Nat) : Decidable (SizeFits N n) := inferInstanceAs (Decidable (_ ∧ _))

theorem SizeFits.mono {n m : Nat} (h : SizeFits N n) (hm : m ≤ n) : SizeFits N m :=
  ⟨by have := h.1; omega, by have := h.2; omega⟩

theorem toInt_toInt32_of_lt {p : UInt32} (h : p.toNat < 2 ^ 31) : p.toInt32.toInt = p.toNat := by
  rw [← Int32.toInt_toBitVec, UInt32.toBitVec_toInt32,
    BitVec.toInt_eq_toNat_of_lt (by simp only [UInt32.toNat_toBitVec]; omega)]
  simp

theorem toInt_toInt32 {d : Int} (h0 : -2 ^ 31 ≤ d) (h1 : d < 2 ^ 31) : (Int.toInt32 d).toInt = d := by
  rw [Int.toInt32, Int32.toInt_ofInt]
  exact Int.bmod_eq_of_le h0 h1

theorem toNat_toUInt32_toInt32 {d : Int} (h0 : 0 ≤ d) (h1 : d < 2 ^ 31) :
    (Int.toInt32 d).toUInt32.toNat = d.toNat := by
  show (BitVec.ofInt 32 d).toNat = d.toNat
  rw [BitVec.toNat_ofInt]
  omega

theorem toNat_ofInt {d : Int} (h0 : 0 ≤ d) (h1 : d < 2 ^ 32) : (UInt32.ofInt d).toNat = d.toNat := by
  rw [UInt32.ofInt, UInt32.toNat_ofNat', Nat.mod_eq_of_lt (by omega)]
  omega

theorem sizeT_eq {d : Int} (h0 : 0 ≤ d) (h1 : d < 2 ^ 64) : sizeT d = d.toNat := by
  rw [sizeT, Int.emod_eq_of_lt h0 h1]

theorem toNat_add_of_lt {a b : UInt32} (h : a.toNat + b.toNat < 2 ^ 32) :
    (a + b).toNat = a.toNat + b.toNat := by
  rw [UInt32.toNat_add, Nat.mod_eq_of_lt h]

/-- The growth target `new_size + (new_size >> 1)` of a size below `2 ^ 31` does not wrap. -/
theorem toNat_growth {a : UInt32} (h : a.toNat < 2 ^ 31) :
    (a + a >>> 1).toNat = a.toNat + a.toNat / 2 := by
  have hs : (a >>> 1).toNat = a.toNat / 2 := by
    rw [UInt32.toNat_shiftRight, show (1 : UInt32).toNat % 32 = 1 from rfl,
      Nat.shiftRight_eq_div_pow, Nat.pow_one]
  rw [toNat_add_of_lt (by rw [hs]; omega), hs]

def Prevector.bufLoc (o : Nat) (v : Prevector N T) : Loc :=
  if v.isDirect then .direct o else v.union.loc

theorem itemPtr_eq (o : Nat) (v : Prevector N T) (pos : Int32) :
    itemPtr o v pos = ⟨bufLoc o v, pos.toInt⟩ := by
  unfold itemPtr bufLoc directPtr indirectPtr
  split <;> rfl

/-- Object `o` holds `len` elements in the cells `c` of the buffer at `loc`, of `cap`
elements: inline, with `_size = len ≤ N`, or on the heap block its union points to, with
`_size = len + N + 1` and a capacity above `N`. -/
inductive Layout (w : World N T) (o : Nat) : Loc → Nat → Nat → (Nat → Option T) → Prop
  | inline {v : Prevector N T} {len : Nat} : w.objs o = some v → v._size.toNat = len →
      len ≤ N → SizeFits N len → Layout w o (.direct o) len N v.union.cells
  | heap {v : Prevector N T} {b : Nat} {k : UInt32} {blk : Block T} {len : Nat} :
      w.objs o = some v → v.union = .indirect b k → w.heap b = some blk → blk.cap = k.toNat →
      N < k.toNat → v._size.toNat = len + N + 1 → len ≤ k.toNat → SizeFits N len →
      Layout w o (.heap b) len k.toNat blk.cells

/-- Object `o` keeps its elements on heap block `b`. -/
def Owns (w : World N T) (o b : Nat) : Prop :=
  ∃ v, w.objs o = some v ∧ v.isDirect = false ∧ v.union.loc = .heap b

namespace Layout

variable {w : World N T} {o : Nat} {loc : Loc} {len cap : Nat} {c : Nat → Option T}

theorem exists_obj (h : Layout w o loc len cap c) : ∃ v, w.objs o = some v := by
  cases h with
  | inline hv => exact ⟨_, hv⟩
  | heap hv => exact ⟨_, hv⟩

theorem len_le (h : Layout w o loc len cap c) : len ≤ cap := by
  cases h <;> assumption

theorem fits (h : Layout w o loc len cap c) : SizeFits N len := by
  cases h <;> assumption

theorem block (h : Layout w o loc len cap c) : w.block loc = some ⟨cap, c⟩ := by
  cases h with
  | inline hv => simp [World.block, hv]
  | heap _ _ hb hcap => simp only [World.block, hb, ← hcap]

theorem inline_or_heap (h : Layout w o loc len cap c) :
    (loc = .direct o ∧ cap = N) ∨ ∃ b, loc = .heap b := by
  cases h with
  | inline => exact .inl ⟨rfl, rfl⟩
  | heap => exact .inr ⟨_, rfl⟩

theorem heap_isSome (h : Layout w o loc len cap c) {b : Nat} (hb : loc = .heap b) :
    (w.heap b).isSome := by
  have := h.block
  rw [hb] at this
  simp [World.block] at this
  simp [this]

theorem bufLoc_eq (h : Layout w o loc len cap c) {v : Prevector N T} (hv : w.objs o = some v) :
    bufLoc o v = loc := by
  cases h with
  | inline hv' hs hN =>
    obtain rfl := Option.some.inj (hv.symm.trans hv')
    simp [bufLoc, isDirect, hs, hN]
  | heap hv' hu _ _ _ hs =>
    obtain rfl := Option.some.inj (hv.symm.trans hv')
    simp [bufLoc, isDirect, hs, hu, show ¬len + N + 1 ≤ N by omega]

/-- `item_ptr(p)` is position `p` of the buffer. -/
theorem itemPtr (h : Layout w o loc len cap c) {v : Prevector N T} (hv : w.objs o = some v)
    {p : UInt32} (hp : p.toNat < 2 ^ 31) : Prevector.itemPtr o v p.toInt32 = ⟨loc, p.toNat⟩ := by
  rw [itemPtr_eq, h.bufLoc_eq hv, toInt_toInt32_of_lt hp]

theorem itemPtr_zero (h : Layout w o loc len cap c) {v : Prevector N T}
    (hv : w.objs o = some v) : Prevector.itemPtr o v 0 = ⟨loc, 0⟩ := by
  rw [itemPtr_eq, h.bufLoc_eq hv]
  rfl

theorem size_eq (h : Layout w o loc len cap c) {v : Prevector N T} (hv : w.objs o = some v) :
    (size v).toNat = len := by
  cases h with
  | inline hv' hs hN =>
    obtain rfl := Option.some.inj (hv.symm.trans hv')
    simp [size, isDirect, hs, hN]
  | heap hv' _ _ _ _ hs _ hfit =>
    obtain rfl := Option.some.inj (hv.symm.trans hv')
    have hN : (UInt32.ofNat N).toNat = N := by
      rw [UInt32.toNat_ofNat']; exact Nat.mod_eq_of_lt (by have := hfit.2; omega)
    have hle : UInt32.ofNat N ≤ v._size := by rw [UInt32.le_iff_toNat_le, hN]; omega
    have hle1 : (1 : UInt32) ≤ v._size - UInt32.ofNat N := by
      rw [UInt32.le_iff_toNat_le, UInt32.toNat_sub_of_le _ _ hle, hN]; simp; omega
    simp only [size, isDirect, hs, show ¬len + N + 1 ≤ N by omega, decide_false, Bool.false_eq_true,
      if_false]
    rw [UInt32.toNat_sub_of_le _ _ hle1, UInt32.toNat_sub_of_le _ _ hle, hN, hs,
      show (1 : UInt32).toNat = 1 from rfl]
    omega

theorem capacity_eq (h : Layout w o loc len cap c) {v : Prevector N T}
    (hv : w.objs o = some v) : capacity v = cap := by
  cases h with
  | inline hv' hs hN =>
    obtain rfl := Option.some.inj (hv.symm.trans hv')
    simp [capacity, isDirect, hs, hN]
  | heap hv' hu _ _ _ hs =>
    obtain rfl := Option.some.inj (hv.symm.trans hv')
    simp [capacity, isDirect, hs, hu, show ¬len + N + 1 ≤ N by omega]

theorem owns_iff (h : Layout w o loc len cap c) (b : Nat) : Owns w o b ↔ loc = .heap b := by
  cases h with
  | inline hv hs hN =>
    simp only [Owns, hv, Option.some.injEq, exists_eq_left', isDirect, hs, decide_eq_false_iff_not]
    exact ⟨fun h => absurd h.1 (by omega), fun h => by cases h⟩
  | heap hv hu _ _ _ hs =>
    simp only [Owns, hv, Option.some.injEq, exists_eq_left', isDirect, hs, hu,
      DirectOrIndirect.loc, decide_eq_false_iff_not, Loc.heap.injEq]
    exact ⟨fun h => h.2, fun h => ⟨by omega, h⟩⟩

/-- The invariant reads only the object and, on the heap, its block. -/
theorem frame (h : Layout w o loc len cap c) {w' : World N T} (hobjs : w'.objs o = w.objs o)
    (hheap : ∀ b, loc = .heap b → w'.heap b = w.heap b) : Layout w' o loc len cap c := by
  cases h with
  | inline hv hs hN hfit => exact .inline (hobjs.trans hv) hs hN hfit
  | heap hv hu hb hcap hN hs hlen hfit =>
    exact .heap (hobjs.trans hv) hu ((hheap _ rfl).trans hb) hcap hN hs hlen hfit

/-- New cells for the buffer keep the invariant. -/
theorem setCells (h : Layout w o loc len cap c) (c' : Nat → Option T) :
    Layout (w.setCells loc c') o loc len cap c' := by
  cases h with
  | @inline v _ hv hs hN hfit =>
    exact .inline (v := { v with union := .direct c' }) (by simp [World.setCells_direct, hv])
      hs hN hfit
  | @heap v b k blk _ hv hu hb hcap hN hs hlen hfit =>
    exact .heap (by simpa using hv) hu
      (show _ = some { blk with cells := c' } by simp [World.setCells, hb]) hcap hN hs hlen hfit

/-- `_size += k` within the capacity. -/
theorem addSize (h : Layout w o loc len cap c) {k : UInt32} (hk : len + k.toNat ≤ cap)
    (hfit : SizeFits N (len + k.toNat)) : Layout (w.addSize o k) o loc (len + k.toNat) cap c := by
  have hsize : ∀ s : UInt32, s.toNat + k.toNat < 2 ^ 32 → (s + k).toNat = s.toNat + k.toNat :=
    fun s hs => by rw [UInt32.toNat_add]; exact Nat.mod_eq_of_lt hs
  cases h with
  | @inline v _ hv hs hN _ =>
    exact .inline (v := { v with _size := v._size + k }) (by simp [World.addSize, hv])
      (by rw [hsize _ (by have := hfit.2; omega), hs]) hk hfit
  | @heap v _ _ _ _ hv hu hb hcap hN hs hlen _ =>
    exact .heap (v := { v with _size := v._size + k }) (by simp [World.addSize, hv]) hu hb hcap hN
      (by rw [hsize _ (by have := hfit.2; omega), hs]; omega) hk hfit

/-- `_size -= k` for `k` up to the size. -/
theorem subSize (h : Layout w o loc len cap c) {k : UInt32} (hk : k.toNat ≤ len) :
    Layout (w.modify o fun v => { v with _size := v._size - k }) o loc (len - k.toNat) cap c := by
  have hfit := h.fits.mono (Nat.sub_le len k.toNat)
  cases h with
  | @inline v _ hv hs hN _ =>
    exact .inline (v := { v with _size := v._size - k }) (by simp [hv])
      (by rw [UInt32.toNat_sub_of_le _ _ (by rw [UInt32.le_iff_toNat_le]; omega), hs])
      (by omega) hfit
  | @heap v _ _ _ _ hv hu hb hcap hN hs hlen _ =>
    exact .heap (v := { v with _size := v._size - k }) (by simp [hv]) hu hb hcap hN
      (by rw [UInt32.toNat_sub_of_le _ _ (by rw [UInt32.le_iff_toNat_le]; omega), hs]; omega)
      (by omega) hfit

-- The accesses the methods make inside the object's buffer.

theorem load_eq (h : Layout w o loc len cap c) {i : Nat} (hi : i < cap) :
    w.load ⟨loc, i⟩ = c i := by
  rw [World.load_eq h.block (by simp only; omega), Int.toNat_natCast]

theorem store_eq (h : Layout w o loc len cap c) {i : Nat} (hi : i < cap) (x : T) :
    w.store ⟨loc, i⟩ x = some (w.setCells loc (Function.update c i (some x))) := by
  rw [World.store_eq x h.block (by simp only; omega), Int.toNat_natCast]

theorem fill_eq (h : Layout w o loc len cap c) {i n : Nat} (hi : i + n ≤ cap) (x : T) :
    w.fill ⟨loc, i⟩ n x = some (w.setCells loc (Cells.fill c i n x)) := by
  rw [World.fill_eq x h.block (by simp only; omega), Int.toNat_natCast]

theorem memmove_eq (h : Layout w o loc len cap c) {d s n : Nat} (hd : d + n ≤ cap)
    (hs : s + n ≤ cap) :
    w.memmove ⟨loc, d⟩ ⟨loc, s⟩ n = some (w.setCells loc (Cells.copy c c d s n)) := by
  rw [World.memmove_eq h.block h.block (by simp only; omega)]
  simp only [Int.toNat_natCast]

theorem fillRange_eq (h : Layout w o loc len cap c) {i : Nat} {xs : List T} (hne : xs ≠ [])
    (hi : i + xs.length ≤ cap) :
    w.fillRange ⟨loc, i⟩ xs = some (w.setCells loc (Cells.write c i xs)) := by
  rw [World.fillRange_eq hne h.block (by simp only; omega), Int.toNat_natCast]

end Layout

-- ---------------------------------------------------------------------------
-- Ownership and confinement
-- ---------------------------------------------------------------------------

/-- The heap invariant: nothing beyond the allocation counter, every live block owned (no
leak), and no block owned twice. -/
structure HeapWF (w : World N T) : Prop where
  fresh : ∀ b, w.fresh ≤ b → w.heap b = none
  owned : ∀ b, (w.heap b).isSome → ∃ o, Owns w o b
  live : ∀ {o b}, Owns w o b → (w.heap b).isSome
  unique : ∀ {o o' b}, Owns w o b → Owns w o' b → o = o'

/-- What an operation of the objects in `S` may change: nothing of the other objects and of
the blocks they own, no block left live unless it was live and owned by none of `S`, or is
owned by one of `S` now; and a block one of `S` now owns is owned by no other object. -/
structure Confined (S : Nat → Prop) (w w' : World N T) : Prop where
  objs : ∀ o, ¬S o → w'.objs o = w.objs o
  heap : ∀ b o, ¬S o → Owns w o b → w'.heap b = w.heap b
  live : ∀ b, (w'.heap b).isSome →
    ((w.heap b).isSome ∧ ∀ o, S o → ¬Owns w o b) ∨ ∃ o, S o ∧ Owns w' o b
  own : ∀ b o, S o → Owns w' o b → ∀ o', ¬S o' → ¬Owns w o' b
  own_live : ∀ b o, S o → Owns w' o b → (w'.heap b).isSome
  fresh : ∀ b, w'.fresh ≤ b → w'.heap b = none

namespace Confined

variable {S : Nat → Prop} {w w' w'' : World N T}

theorem owns_iff (h : Confined S w w') {o b : Nat} (ho : ¬S o) : Owns w' o b ↔ Owns w o b := by
  simp only [Owns, h.objs o ho]

theorem refl (hwf : HeapWF w) : Confined S w w where
  objs _ _ := rfl
  heap _ _ _ _ := rfl
  live b hb := by
    by_cases hS : ∃ o, S o ∧ Owns w o b
    · exact .inr hS
    · exact .inl ⟨hb, fun o ho hown => hS ⟨o, ho, hown⟩⟩
  own b o ho hown o' ho' hown' := ho' (hwf.unique hown hown' ▸ ho)
  own_live _ _ _ hown := hwf.live hown
  fresh := hwf.fresh

theorem trans (h : Confined S w w') (h' : Confined S w' w'') : Confined S w w'' where
  objs o ho := (h'.objs o ho).trans (h.objs o ho)
  heap b o ho hown := (h'.heap b o ho ((h.owns_iff ho).mpr hown)).trans (h.heap b o ho hown)
  live b hb := by
    rcases h'.live b hb with ⟨hb', hnot⟩ | hown
    · rcases h.live b hb' with hold | ⟨o, ho, hown⟩
      · exact .inl hold
      · exact absurd hown (hnot o ho)
    · exact .inr hown
  own b o ho hown o' ho' := by
    rw [← h.owns_iff ho']
    exact h'.own b o ho hown o' ho'
  own_live := h'.own_live
  fresh := h'.fresh

theorem heapWF (h : Confined S w w') (hwf : HeapWF w)
    (hS : ∀ {o o' b}, S o → S o' → Owns w' o b → Owns w' o' b → o = o') : HeapWF w' where
  fresh := h.fresh
  owned b hb := by
    rcases h.live b hb with ⟨hb', hnot⟩ | hown
    · obtain ⟨o, ho⟩ := hwf.owned b hb'
      have hS : ¬S o := fun hS => hnot o hS ho
      exact ⟨o, (h.owns_iff hS).mpr ho⟩
    · obtain ⟨o, -, ho⟩ := hown
      exact ⟨o, ho⟩
  live {o b} ho := by
    by_cases hSo : S o
    · exact h.own_live b o hSo ho
    · rw [h.heap b o hSo ((h.owns_iff hSo).mp ho)]
      exact hwf.live ((h.owns_iff hSo).mp ho)
  unique {o o' b} ho ho' := by
    by_cases hSo : S o
    · by_cases hSo' : S o'
      · exact hS hSo hSo' ho ho'
      · exact absurd ((h.owns_iff hSo').mp ho') (h.own b o hSo ho o' hSo')
    · by_cases hSo' : S o'
      · exact absurd ((h.owns_iff hSo).mp ho) (h.own b o' hSo' ho' o hSo)
      · exact hwf.unique ((h.owns_iff hSo).mp ho) ((h.owns_iff hSo').mp ho')

theorem heapWF_of_single {o : Nat} (h : Confined (· = o) w w') (hwf : HeapWF w) : HeapWF w' :=
  h.heapWF hwf fun ho ho' _ _ => ho.trans ho'.symm

end Confined

/-- An operation that leaves the other objects, leaves the heap but at the block `o` owns,
keeps which blocks are live, and keeps `o` where it was, is confined to `o`. -/
theorem confined_of_layout {w w' : World N T} {o : Nat} {loc : Loc} {len cap len' cap' : Nat}
    {c c' : Nat → Option T} (hwf : HeapWF w) (h : Layout w o loc len cap c)
    (h' : Layout w' o loc len' cap' c') (hobjs : ∀ o', o' ≠ o → w'.objs o' = w.objs o')
    (hheap : ∀ b, loc ≠ .heap b → w'.heap b = w.heap b)
    (hlive : ∀ b, (w'.heap b).isSome = (w.heap b).isSome) (hfresh : w'.fresh = w.fresh) :
    Confined (· = o) w w' where
  objs o' ho' := hobjs o' ho'
  heap b o' ho' hown := hheap b fun hb => ho' (hwf.unique hown ((h.owns_iff b).mpr hb))
  live b hb := by
    by_cases hown : Owns w o b
    · exact .inr ⟨o, rfl, (h'.owns_iff b).mpr ((h.owns_iff b).mp hown)⟩
    · exact .inl ⟨hlive b ▸ hb, fun o' ho' => ho' ▸ hown⟩
  own b o' ho' hown o'' ho'' hown'' := by
    subst ho'
    exact ho'' (hwf.unique hown'' ((h.owns_iff b).mpr ((h'.owns_iff b).mp hown)))
  own_live b o' ho' hown := by
    subst ho'
    exact h'.heap_isSome ((h'.owns_iff b).mp hown)
  fresh b hb := by
    have hnone := hwf.fresh b (hfresh ▸ hb)
    have := hlive b
    rw [hnone, Option.isSome_none, Option.isSome_eq_false_iff, Option.isNone_iff_eq_none] at this
    exact this

namespace Layout

variable {w : World N T} {o : Nat} {loc : Loc} {len cap : Nat} {c : Nat → Option T}

/-- Another object's invariant survives an operation confined away from it. -/
theorem frame_confined {S : Nat → Prop} {w' : World N T} (h : Layout w o loc len cap c)
    (hc : Confined S w w') (ho : ¬S o) : Layout w' o loc len cap c :=
  h.frame (hc.objs o ho) fun b hb => hc.heap b o ho ((h.owns_iff b).mpr hb)

theorem confined_setCells (h : Layout w o loc len cap c) (hwf : HeapWF w)
    (c' : Nat → Option T) : Confined (· = o) w (w.setCells loc c') := by
  refine confined_of_layout hwf h (h.setCells c') (fun o' ho' => ?_) (fun b hb => ?_)
    (fun b => ?_) (World.fresh_setCells w loc c')
  · cases h with
    | inline => simp [World.setCells_direct, World.objs_modify_ne _ _ ho']
    | heap => rfl
  · cases h with
    | inline => rfl
    | heap => exact World.heap_setCells_ne w c' (fun e => hb (e ▸ rfl))
  · cases h with
    | inline => rfl
    | @heap _ b0 _ _ _ _ _ hb0 =>
      by_cases e : b = b0
      · subst e; simp [World.setCells, hb0]
      · rw [World.heap_setCells_ne w c' e]

theorem confined_addSize (h : Layout w o loc len cap c) (hwf : HeapWF w) {k : UInt32}
    (hk : len + k.toNat ≤ cap) (hfit : SizeFits N (len + k.toNat)) :
    Confined (· = o) w (w.addSize o k) :=
  confined_of_layout hwf h (h.addSize hk hfit)
    (fun _ ho' => World.objs_modify_ne _ _ ho') (fun _ _ => rfl) (fun _ => rfl) rfl

theorem confined_subSize (h : Layout w o loc len cap c) (hwf : HeapWF w) {k : UInt32}
    (hk : k.toNat ≤ len) :
    Confined (· = o) w (w.modify o fun v => { v with _size := v._size - k }) :=
  confined_of_layout hwf h (h.subSize hk)
    (fun _ ho' => World.objs_modify_ne _ _ ho') (fun _ _ => rfl) (fun _ => rfl) rfl

end Layout

end Riecoin
