-- SUMMARY: change_capacity against the representation invariant: its four branches, the capacity they leave, and the growth step of the inserting methods.
import Riecoin.Prevector.Layout

/-!
# `change_capacity`

`change_capacity(new_capacity)` moves the elements between the inline buffer and the heap:
it stays inline, moves back inline (copy, then free the block through the pointer saved
before the copy overwrote it, then `_size -= N + 1`), reallocates the block, or moves to a
new block (copy, then the pointer, then `_size += N + 1`). For a capacity at least the size
each branch keeps the elements, leaves the object in its representation with capacity
`N` or `new_capacity`, and touches no other object and no block another object owns.
-/

namespace Riecoin

open Prevector

variable {N : Nat} {T : Type} {w : World N T} {o : Nat} {len : Nat}

theorem isDirect_of_size {v : Prevector N T} (h : v._size.toNat ≤ N) : v.isDirect = true := by
  simp [isDirect, h]

theorem not_isDirect_of_size {v : Prevector N T} (h : N < v._size.toNat) :
    v.isDirect = false := by
  simp [isDirect, Nat.not_le.mpr h]

/-- Inline already, and a capacity that fits inline: nothing to do. -/
theorem changeCapacity_inline_of_le {c : Nat → Option T} (h : Layout w o (.direct o) len N c)
    {newCap : UInt32} (hN : newCap.toNat ≤ N) : w.changeCapacity o newCap = some w := by
  cases h with
  | inline hv hs hN' => simp [World.changeCapacity, hv, isDirect_of_size (hs ▸ hN'), hN]

/-- From the heap back to the inline buffer. -/
theorem changeCapacity_heap_of_le (hwf : HeapWF w) {b cap : Nat} {c : Nat → Option T}
    (h : Layout w o (.heap b) len cap c) {newCap : UInt32} (hlen : len ≤ newCap.toNat)
    (hN : newCap.toNat ≤ N) :
    ∃ w' c', w.changeCapacity o newCap = some w' ∧ Layout w' o (.direct o) len N c' ∧
      (∀ i, i < len → c' i = c i) ∧ Confined (· = o) w w' := by
  have hown : Owns w o b := (h.owns_iff b).mpr rfl
  cases h with
  | @heap v _ k blk _ hv hu hb hcap hN' hs hlen' hfit =>
    have h0 : Layout w o (.heap b) len k.toNat blk.cells := .heap hv hu hb hcap hN' hs hlen' hfit
    -- the inline buffer, read through a union that holds the pointer
    let c' := Cells.copy v.union.cells blk.cells 0 0 len
    let w1 := w.setCells (.direct o) c'
    let w2 : World N T := { w1 with heap := Function.update w1.heap b none }
    let v' : Prevector N T := ⟨.direct c', v._size - UInt32.ofNat (N + 1)⟩
    have hmemcpy : w.memcpy (directPtr o 0) (v.indirectPtr 0) (size v).toNat = some w1 := by
      rw [World.memcpy_eq (by simp [directPtr, indirectPtr, hu]),
        World.memmove_eq
          (show _ = some ⟨N, v.union.cells⟩ by simp [directPtr, World.block, hv])
          (show _ = some blk by simp [indirectPtr, hu, World.block, hb])
          (by simp only [directPtr, indirectPtr, h0.size_eq hv]; omega)]
      simp [directPtr, indirectPtr, h0.size_eq hv, w1, c']
    have hfree : w1.free (v.indirectPtr 0) = some w2 := by
      simp only [indirectPtr, hu, DirectOrIndirect.loc_indirect]
      exact World.free_eq (show w1.heap b = some blk by simp [w1, hb])
    let w3 := w2.modify o fun v => { v with _size := v._size - UInt32.ofNat (N + 1) }
    have hobj : w3.objs o = some v' := by
      simp [w3, w2, w1, World.setCells_direct, hv, v']
    have hsize : v'._size.toNat = len := by
      have hN1 : (UInt32.ofNat (N + 1)).toNat = N + 1 := by
        rw [UInt32.toNat_ofNat']; exact Nat.mod_eq_of_lt (by have := hfit.2; omega)
      simp only [v']
      rw [UInt32.toNat_sub_of_le _ _ (by rw [UInt32.le_iff_toNat_le, hN1]; omega), hN1, hs]
      omega
    have h3 : Layout w3 o (.direct o) len N c' := .inline hobj hsize (by omega) hfit
    have hheap : w3.heap = Function.update w.heap b none := rfl
    refine ⟨w3, c', ?_, h3, ?_, ?_⟩
    · simp [World.changeCapacity, hv, not_isDirect_of_size (show N < v._size.toNat by omega), hN,
        hmemcpy, hfree, w3]
    · intro i hi
      simp [c', Cells.copy, hi]
    · -- the block goes back to the allocator, and no other object owned it
      have hmine : ∀ b', Owns w o b' → b' = b := fun b' hb' =>
        Loc.heap.inj (((h0.owns_iff b').mp hb').symm)
      exact {
        objs := fun o' ho' => by simp [w3, w2, w1, World.setCells_direct, World.objs_modify_ne _ _ ho']
        heap := fun b' o' ho' hown' => by
          rw [hheap, Function.update_of_ne]
          exact fun e => ho' (hwf.unique hown' (e ▸ hown))
        live := fun b' hb' => by
          rw [hheap] at hb'
          have hne : b' ≠ b := by rintro rfl; simp at hb'
          rw [Function.update_of_ne hne] at hb'
          exact .inl ⟨hb', fun o' ho' hown' => hne (hmine b' (ho' ▸ hown'))⟩
        own := fun b' o' ho' h' => absurd ((h3.owns_iff b').mp (ho' ▸ h')) (by simp)
        own_live := fun b' o' ho' h' => absurd ((h3.owns_iff b').mp (ho' ▸ h')) (by simp)
        fresh := fun b' hb' => by
          rw [hheap]
          by_cases e : b' = b
          · rw [e, Function.update_self]
          · rw [Function.update_of_ne e]; exact hwf.fresh b' hb' }

/-- The block reallocated to another capacity above `N`. -/
theorem changeCapacity_heap_of_gt (hwf : HeapWF w) {b cap : Nat} {c : Nat → Option T}
    (h : Layout w o (.heap b) len cap c) {newCap : UInt32} (hlen : len ≤ newCap.toNat)
    (hN : N < newCap.toNat) :
    ∃ w' c', w.changeCapacity o newCap = some w' ∧ Layout w' o (.heap b) len newCap.toNat c' ∧
      (∀ i, i < len → c' i = c i) ∧ Confined (· = o) w w' := by
  have h' := h
  cases h with
  | @heap v _ k blk _ hv hu hb hcap hN' hs hlen' hfit =>
    let c' := Cells.truncate blk.cells (min newCap.toNat blk.cap)
    let w1 : World N T :=
      { w with heap := Function.update w.heap b (some ⟨newCap.toNat, c'⟩) }
    let w2 := w1.modify o fun v => { v with union := .indirect b newCap }
    have hrealloc : w.realloc (v.indirectPtr 0) newCap.toNat = some (w1, b) := by
      simp only [indirectPtr, hu, DirectOrIndirect.loc_indirect]
      exact World.realloc_eq _ hb
    have h2 : Layout w2 o (.heap b) len newCap.toNat c' :=
      .heap (v := { v with union := .indirect b newCap }) (by simp [w2, w1, hv]) rfl
        (show _ = some ⟨newCap.toNat, c'⟩ by simp [w2, w1]) rfl hN hs hlen hfit
    refine ⟨w2, c', ?_, h2, ?_, ?_⟩
    · simp [World.changeCapacity, hv, not_isDirect_of_size (show N < v._size.toNat by omega),
        Nat.not_le.mpr hN, hrealloc, w2]
    · intro i hi
      simp only [c', Cells.truncate]
      rw [if_pos (by omega)]
    · refine confined_of_layout hwf h' h2 (fun o' ho' => World.objs_modify_ne _ _ ho')
        (fun b' hb' => ?_) (fun b' => ?_) rfl
      · exact Function.update_of_ne (fun e => hb' (by rw [e])) _ _
      · by_cases e : b' = b
        · subst e; simp [w2, w1, hb]
        · simp [w2, w1, Function.update_of_ne e]

/-- From the inline buffer to a new block. -/
theorem changeCapacity_inline_of_gt (hwf : HeapWF w) {c : Nat → Option T}
    (h : Layout w o (.direct o) len N c) {newCap : UInt32} (hlen : len ≤ newCap.toNat)
    (hN : N < newCap.toNat) :
    ∃ w' c', w.changeCapacity o newCap = some w' ∧
      Layout w' o (.heap w.fresh) len newCap.toNat c' ∧ (∀ i, i < len → c' i = c i) ∧
      Confined (· = o) w w' := by
  have h' := h
  cases h with
  | @inline v _ hv hs hN' hfit =>
    let b := w.fresh
    let c' := Cells.copy (fun _ => none) v.union.cells 0 0 len
    let w1 := (w.malloc newCap.toNat).1
    let w2 := w1.setCells (.heap b) c'
    let w3 := (w2.modify o fun v => { v with union := .indirect b newCap }).modify o
      fun v => { v with _size := v._size + UInt32.ofNat (N + 1) }
    have hmemcpy : w1.memcpy ⟨.heap b, 0⟩ (directPtr o 0) (size v).toNat = some w2 := by
      rw [World.memcpy_eq (by simp [directPtr]),
        World.memmove_eq
          (show _ = some ⟨newCap.toNat, fun _ => none⟩ by simp [World.block, w1, World.malloc_fst, b])
          (show _ = some ⟨N, v.union.cells⟩ by
            simp [directPtr, World.block, w1, World.malloc_fst, hv])
          (by simp only [directPtr, h'.size_eq hv]; omega)]
      simp [directPtr, h'.size_eq hv, w2, c']
    have hheap : w3.heap = Function.update w.heap b (some ⟨newCap.toNat, c'⟩) := by
      simp [w3, w2, w1, World.malloc_fst, World.setCells, b]
    have h3 : Layout w3 o (.heap b) len newCap.toNat c' :=
      .heap (v := ⟨.indirect b newCap, v._size + UInt32.ofNat (N + 1)⟩)
        (by simp [w3, w2, w1, World.malloc_fst, hv]) rfl
        (show _ = some ⟨newCap.toNat, c'⟩ by rw [hheap, Function.update_self]) rfl hN
        (by
          rw [UInt32.toNat_add, UInt32.toNat_ofNat', Nat.mod_eq_of_lt (by have := hfit.2; omega),
            hs, Nat.mod_eq_of_lt (by have := hfit.2; omega)]
          omega)
        hlen hfit
    have hlive_old : ∀ b', (w.heap b').isSome → b' ≠ b := fun b' hb' e => by
      rw [hwf.fresh b' (e ▸ Nat.le_refl _)] at hb'
      simp at hb'
    refine ⟨w3, c', ?_, h3, ?_, ?_⟩
    · simp [World.changeCapacity, hv, isDirect_of_size (hs ▸ hN'), Nat.not_le.mpr hN, hmemcpy, w3,
        w2, w1, b]
    · intro i hi
      simp [c', Cells.copy, hi]
    · have hnone : ∀ b', ¬Owns w o b' := fun b' hb' => by simpa using (h'.owns_iff b').mp hb'
      exact {
        objs := fun o' ho' => by
          simp [w3, w2, w1, World.malloc_fst, World.objs_modify_ne _ _ ho']
        heap := fun b' o' _ hown' => by
          rw [hheap, Function.update_of_ne (hlive_old b' (hwf.live hown'))]
        live := fun b' hb' => by
          by_cases e : b' = b
          · exact .inr ⟨o, rfl, (h3.owns_iff b').mpr (e ▸ rfl)⟩
          · rw [hheap, Function.update_of_ne e] at hb'
            exact .inl ⟨hb', fun o' ho' => ho' ▸ hnone b'⟩
        own := fun b' o' ho' hown o'' _ hown'' => by
          have hb' : b' = b := Loc.heap.inj ((h3.owns_iff b').mp (ho' ▸ hown)).symm
          exact hlive_old b' (hwf.live hown'') hb'
        own_live := fun b' o' ho' hown => h3.heap_isSome ((h3.owns_iff b').mp (ho' ▸ hown))
        fresh := fun b' hb' => by
          rw [hheap, Function.update_of_ne (by simp [w3, w2, w1, World.malloc_fst, b] at hb'; omega)]
          exact hwf.fresh b' (by simp [w3, w2, w1, World.malloc_fst] at hb'; omega) }

/-- `change_capacity(new_capacity)` for a capacity at least the size keeps the elements and
leaves capacity `N` or `new_capacity`. -/
theorem changeCapacity_spec (hwf : HeapWF w) {loc : Loc} {cap : Nat} {c : Nat → Option T}
    (h : Layout w o loc len cap c) (newCap : UInt32) (hlen : len ≤ newCap.toNat) :
    ∃ w' loc' c', w.changeCapacity o newCap = some w' ∧
      Layout w' o loc' len (if newCap.toNat ≤ N then N else newCap.toNat) c' ∧
      (∀ i, i < len → c' i = c i) ∧ Confined (· = o) w w' := by
  by_cases hN : newCap.toNat ≤ N
  · rw [if_pos hN]
    rcases h.inline_or_heap with ⟨rfl, rfl⟩ | ⟨b, rfl⟩
    · exact ⟨w, _, c, changeCapacity_inline_of_le h hN, h, fun _ _ => rfl, .refl hwf⟩
    · obtain ⟨w', c', heq, h', hagree, hconf⟩ := changeCapacity_heap_of_le hwf h hlen hN
      exact ⟨w', _, c', heq, h', hagree, hconf⟩
  · rw [if_neg hN]
    rcases h.inline_or_heap with ⟨rfl, rfl⟩ | ⟨b, rfl⟩
    · obtain ⟨w', c', heq, h', hagree, hconf⟩ := changeCapacity_inline_of_gt hwf h hlen (by omega)
      exact ⟨w', _, c', heq, h', hagree, hconf⟩
    · obtain ⟨w', c', heq, h', hagree, hconf⟩ := changeCapacity_heap_of_gt hwf h hlen (by omega)
      exact ⟨w', _, c', heq, h', hagree, hconf⟩

/-- The growth step of the methods that add elements: `change_capacity` when
`capacity() < need`, to a capacity of at least `need`. -/
theorem grow_spec (hwf : HeapWF w) {loc : Loc} {cap : Nat} {c : Nat → Option T}
    (h : Layout w o loc len cap c) {v : Prevector N T} (hv : w.objs o = some v) (need : Nat)
    (newCap : UInt32) (hneed : len ≤ need) (hnew : need ≤ newCap.toNat) :
    ∃ w' loc' cap' c',
      (if capacity v < need then w.changeCapacity o newCap else pure w) = some w' ∧
      Layout w' o loc' len cap' c' ∧ need ≤ cap' ∧ (∀ i, i < len → c' i = c i) ∧
      Confined (· = o) w w' := by
  rw [h.capacity_eq hv]
  by_cases hc : cap < need
  · obtain ⟨w', loc', c', heq, h', hagree, hconf⟩ :=
      changeCapacity_spec hwf h newCap (by omega)
    refine ⟨w', loc', _, c', by rw [if_pos hc, heq], h', ?_, hagree, hconf⟩
    split_ifs <;> omega
  · exact ⟨w, loc, cap, c, by rw [if_neg hc]; rfl, h, by omega, fun _ _ => rfl, .refl hwf⟩

end Riecoin
