-- SUMMARY: The methods between two objects or ending one: copy and move construction and assignment, swap and the destructor.
import Riecoin.Prevector.Spec

/-!
# Copying, moving, swapping and destroying

The copy constructor and copy assignment read another object through its iterators and are
confined to the object they write. The move constructor, move assignment and `swap` hand a
union, and with it the heap block the union names, from one object to another; the
destructor and move assignment free the block of the object they end or overwrite. These are
confined to the set of objects they touch, and `confined_of_owns` derives that from what
happens to ownership: a block is freed only if one of the set owned it, and a block one of
the set owns afterwards was owned by one of the set before.
-/

namespace Riecoin

open Prevector

variable {N : Nat} {T : Type} {w : World N T} {o : Nat}

theorem owns_congr {w' : World N T} {o' : Nat} (h : w'.objs o' = w.objs o) (b : Nat) :
    Owns w' o' b ↔ Owns w o b := by
  simp only [Owns, h]

/-- A moved-from object (`other._size = 0`) is direct and owns no block. -/
theorem not_owns_of_size_zero {v : Prevector N T} (hv : w.objs o = some v) (h0 : v._size = 0)
    (b : Nat) : ¬Owns w o b := by
  rintro ⟨v', hv', hd, -⟩
  obtain rfl := Option.some.inj (hv.symm.trans hv')
  simp [isDirect, h0] at hd

/-- What a move leaves behind: an empty object on its inline buffer. -/
theorem holds_of_size_zero {v : Prevector N T} (hv : w.objs o = some { v with _size := 0 })
    (hfit : SizeFits N 0) : Holds w o [] :=
  ⟨.direct o, N, v.union.cells, .inline (v := { v with _size := 0 }) hv rfl (Nat.zero_le _) hfit,
    Cells.stores_nil _⟩

/-- Confinement from what happens to ownership: the objects outside `S` stay; a block is freed
only if one of `S` owned it; a block one of `S` owned that stays live is owned by one of `S`
after; and a block one of `S` owns after is live and was owned by one of `S` before. -/
theorem confined_of_owns {S : Nat → Prop} {w' : World N T} (hwf : HeapWF w)
    (hobjs : ∀ x, ¬S x → w'.objs x = w.objs x)
    (hheap : ∀ b, w'.heap b = w.heap b ∨ (w'.heap b = none ∧ ∃ x, S x ∧ Owns w x b))
    (hto : ∀ b x, S x → Owns w x b → (w'.heap b).isSome → ∃ y, S y ∧ Owns w' y b)
    (hfrom : ∀ b y, S y → Owns w' y b → (w'.heap b).isSome ∧ ∃ x, S x ∧ Owns w x b)
    (hfresh : w'.fresh = w.fresh) : Confined S w w' where
  objs := hobjs
  heap b x hx hown := by
    rcases hheap b with heq | ⟨-, y, hy, hown'⟩
    · exact heq
    · exact absurd (hwf.unique hown' hown ▸ hy) hx
  live b hb := by
    have hb' : (w.heap b).isSome := by
      rcases hheap b with heq | ⟨hnone, -⟩
      · rwa [← heq]
      · simp [hnone] at hb
    by_cases hS : ∃ x, S x ∧ Owns w x b
    · obtain ⟨x, hx, hown⟩ := hS
      exact .inr (hto b x hx hown hb)
    · exact .inl ⟨hb', fun x hx hown => hS ⟨x, hx, hown⟩⟩
  own b y hy hown x hx hownx := by
    obtain ⟨-, z, hz, hownz⟩ := hfrom b y hy hown
    exact hx (hwf.unique hownz hownx ▸ hz)
  own_live b y hy hown := (hfrom b y hy hown).1
  fresh b hb := by
    have hnone := hwf.fresh b (hfresh ▸ hb)
    rcases hheap b with heq | ⟨hnone', -⟩
    · rw [heq, hnone]
    · exact hnone'

namespace Layout

variable {loc : Loc} {len cap : Nat} {c : Nat → Option T}

/-- `begin()` and `end()` of an object range over all it holds. -/
theorem yields_all {src : Nat} {zs : List T} (h : Layout w src loc zs.length cap c)
    (hst : Cells.Stores c zs) {v : Prevector N T} (hv : w.objs src = some v) (hne : src ≠ o) :
    (InputRange.mem (beginPtr src v) (endPtr src v)).Yields w o zs := by
  have hy := InputRange.Yields.mem (o := o) hne h hst (Nat.zero_le _) (Nat.le_refl _)
  rw [beginPtr, endPtr, h.itemPtr_zero hv,
    h.itemPtr hv (by rw [h.size_eq hv]; exact h.fits.1), h.size_eq hv]
  simpa using hy

/-- The invariant follows a value to another slot when the block it names stays: the move
constructor, move assignment and `swap` copy the union and `_size` whole. -/
theorem transfer {s : Nat} (h : Layout w s loc len cap c) {v : Prevector N T}
    (hv : w.objs s = some v) {w' : World N T} (hv' : w'.objs o = some v)
    (hheap : ∀ b, loc = .heap b → w'.heap b = w.heap b) :
    ∃ loc', Layout w' o loc' len cap c := by
  cases h with
  | inline hv0 hs hN hfit =>
    obtain rfl := Option.some.inj (hv.symm.trans hv0)
    exact ⟨_, .inline hv' hs hN hfit⟩
  | heap hv0 hu hb hcap hN hs hlen hfit =>
    obtain rfl := Option.some.inj (hv.symm.trans hv0)
    exact ⟨_, .heap hv' hu ((hheap _ rfl).trans hb) hcap hN hs hlen hfit⟩

/-- The `if (!is_direct()) free(indirect)` of the destructor and of move assignment: the block
of an object on the heap is freed, and nothing else changes. -/
theorem release (h : Layout w o loc len cap c) {v : Prevector N T} (hv : w.objs o = some v) :
    ∃ w1, (if !v.isDirect then w.free (v.indirectPtr 0) else pure w) = some w1 ∧
      w1.objs = w.objs ∧ w1.fresh = w.fresh ∧
      ∀ b, w1.heap b = if loc = .heap b then none else w.heap b := by
  cases h with
  | inline hv0 hs hN =>
    obtain rfl := Option.some.inj (hv.symm.trans hv0)
    have hd : v.isDirect = true := by simp [isDirect, hs, hN]
    exact ⟨w, by simp [hd], rfl, rfl, fun b => by simp⟩
  | @heap _ b0 _ _ _ hv0 hu hb hcap hN hs =>
    obtain rfl := Option.some.inj (hv.symm.trans hv0)
    have hd : v.isDirect = false := by simp only [isDirect, hs, decide_eq_false_iff_not]; omega
    refine ⟨{ w with heap := Function.update w.heap b0 none }, ?_, rfl, rfl, fun b => ?_⟩
    · simp only [hd, Bool.not_false, if_true, indirectPtr, hu, DirectOrIndirect.loc]
      exact World.free_eq hb
    · by_cases e : b = b0
      · subst e
        simp
      · rw [if_neg (by simp [Ne.symm e])]
        exact Function.update_of_ne e _ _

end Layout

-- ---------------------------------------------------------------------------
-- Copies
-- ---------------------------------------------------------------------------

/-- `prevector(const prevector& other)` into a free slot. -/
theorem copyConstruct_spec (hwf : HeapWF w) (hfree : w.objs o = none) {src : Nat} {zs : List T}
    (hsrc : Holds w src zs) :
    ∃ w', w.copyConstruct o src = some w' ∧ Holds w' o zs ∧ Confined (· = o) w w' := by
  obtain ⟨sloc, scap, sc, hs, hsst⟩ := hsrc
  obtain ⟨vs, hvs⟩ := hs.exists_obj
  have hne : src ≠ o := fun e => by simp [e, hfree] at hvs
  simp only [World.copyConstruct, hvs, Option.bind_eq_bind, Option.bind_some]
  exact constructWith_spec hwf hfree _ (hs.yields_all hsst hvs hne) (hs.size_eq hvs).symm
    ((hs.size_eq hvs).symm ▸ hs.fits)

/-- Copy assignment from another object: `assign(other.begin(), other.end())`. -/
theorem copyAssign_spec [Inhabited T] (hwf : HeapWF w) {xs : List T} (ho : Holds w o xs)
    {src : Nat} {zs : List T} (hsrc : Holds w src zs) (hne : src ≠ o) :
    ∃ w', w.copyAssign o src = some w' ∧ Holds w' o zs ∧ Confined (· = o) w w' := by
  obtain ⟨loc, cap, c, h, hst⟩ := ho
  obtain ⟨sloc, scap, sc, hs, hsst⟩ := hsrc
  obtain ⟨vs, hvs⟩ := hs.exists_obj
  simp only [World.copyAssign, hne, if_false, hvs, Option.bind_eq_bind, Option.bind_some]
  exact assignRange_spec hwf h hst (hs.yields_all hsst hvs hne) hs.fits

/-- Self-assignment does nothing. -/
theorem copyAssign_self [Inhabited T] (w : World N T) (o : Nat) : w.copyAssign o o = some w := by
  simp [World.copyAssign]

-- ---------------------------------------------------------------------------
-- Moves
-- ---------------------------------------------------------------------------

/-- `prevector(prevector&& other)` into a free slot: the new object takes over what `other`
held, its block included, and `other` is left empty. -/
theorem moveConstruct_spec (hwf : HeapWF w) (hfree : w.objs o = none) {src : Nat} {zs : List T}
    (hsrc : Holds w src zs) :
    ∃ w', w.moveConstruct o src = some w' ∧ Holds w' o zs ∧ Holds w' src [] ∧
      Confined (fun x => x = o ∨ x = src) w w' ∧ HeapWF w' := by
  obtain ⟨sloc, scap, sc, hs, hsst⟩ := hsrc
  obtain ⟨vs, hvs⟩ := hs.exists_obj
  have hne : src ≠ o := fun e => by simp [e, hfree] at hvs
  obtain ⟨w', hrun, hw'⟩ : ∃ w', w.moveConstruct o src = some w' ∧
      w' = (w.create o ⟨vs.union, vs._size⟩).modify src fun v => { v with _size := 0 } :=
    ⟨_, by simp [World.moveConstruct, hvs], rfl⟩
  have hvo : w'.objs o = some vs := by
    rw [hw', World.objs_modify_ne _ _ hne.symm]
    simp [World.create]
  have hvsrc : w'.objs src = some { vs with _size := 0 } := by
    simp [hw', World.create, Function.update_of_ne hne, hvs]
  have hheap : w'.heap = w.heap := by rw [hw']; rfl
  -- the new object owns what `other` owned; `other` and the rest own nothing new
  have hown_o := owns_congr (hvo.trans hvs.symm)
  have hown_src := not_owns_of_size_zero hvsrc rfl
  have hconf : Confined (fun x => x = o ∨ x = src) w w' := confined_of_owns hwf
    (fun x hx => by
      rw [hw', World.objs_modify_ne _ _ fun e => hx (.inr e)]
      simp [World.create, Function.update_of_ne fun e => hx (.inl e)])
    (fun b => .inl (by rw [hheap]))
    (fun b x hx hown _ => by
      rcases hx with rfl | rfl
      · obtain ⟨v, hv, -⟩ := hown
        simp [hfree] at hv
      · exact ⟨o, .inl rfl, (hown_o b).mpr hown⟩)
    (fun b y hy hown => by
      rcases hy with rfl | rfl
      · exact ⟨hheap ▸ hwf.live ((hown_o b).mp hown), src, .inr rfl, (hown_o b).mp hown⟩
      · exact absurd hown (hown_src b))
    (by rw [hw']; rfl)
  obtain ⟨loc', h'⟩ := hs.transfer hvs hvo fun b _ => by rw [hheap]
  refine ⟨w', hrun, ⟨loc', scap, sc, h', hsst⟩, holds_of_size_zero hvsrc (hs.fits.mono
    (Nat.zero_le _)), hconf, hconf.heapWF hwf ?_⟩
  intro x y b hx hy hownx howny
  rcases hx with rfl | rfl
  · rcases hy with rfl | rfl
    · rfl
    · exact absurd howny (hown_src b)
  · exact absurd hownx (hown_src b)

/-- Move assignment from another object: the own block is freed, the union and `_size` of
`other` are taken over, and `other` is left empty. -/
theorem moveAssign_spec (hwf : HeapWF w) {xs : List T} (ho : Holds w o xs) {src : Nat}
    {zs : List T} (hsrc : Holds w src zs) (hne : src ≠ o) :
    ∃ w', w.moveAssign o src = some w' ∧ Holds w' o zs ∧ Holds w' src [] ∧
      Confined (fun x => x = o ∨ x = src) w w' ∧ HeapWF w' := by
  obtain ⟨loc, cap, c, h, -⟩ := ho
  obtain ⟨sloc, scap, sc, hs, hsst⟩ := hsrc
  obtain ⟨v, hv⟩ := h.exists_obj
  obtain ⟨vs, hvs⟩ := hs.exists_obj
  obtain ⟨w1, hfree, hobjs1, hfresh1, hheap1⟩ := h.release hv
  have hloc : loc ≠ sloc := h.loc_ne hwf hs hne.symm
  obtain ⟨w', hrun, hw'⟩ : ∃ w', w.moveAssign o src = some w' ∧
      w' = (w1.modify o fun x => { x with union := vs.union, _size := vs._size }).modify src
        fun x => { x with _size := 0 } := by
    refine ⟨_, ?_, rfl⟩
    simp only [World.moveAssign, hv, Option.bind_eq_bind, Option.bind_some]
    rw [← apply_ite_left Option.bind, hfree, Option.bind_some, hobjs1, hvs, Option.bind_some]
    rfl
  have hvo : w'.objs o = some vs := by
    rw [hw', World.objs_modify_ne _ _ hne.symm]
    simp [hobjs1, hv]
  have hvsrc : w'.objs src = some { vs with _size := 0 } := by
    simp [hw', World.objs_modify_ne _ _ hne, hobjs1, hvs]
  have hheap : ∀ b, w'.heap b = if loc = .heap b then none else w.heap b := by
    rw [hw']
    exact hheap1
  have hown_o := owns_congr (hvo.trans hvs.symm)
  have hown_src := not_owns_of_size_zero hvsrc rfl
  have hconf : Confined (fun x => x = o ∨ x = src) w w' := confined_of_owns hwf
    (fun x hx => by
      rw [hw', World.objs_modify_ne _ _ fun e => hx (.inr e),
        World.objs_modify_ne _ _ fun e => hx (.inl e), hobjs1])
    (fun b => by
      rw [hheap b]
      split_ifs with hb
      · exact .inr ⟨rfl, o, .inl rfl, (h.owns_iff b).mpr hb⟩
      · exact .inl rfl)
    (fun b x hx hown hsome => by
      rcases hx with rfl | rfl
      · simp [hheap b, (h.owns_iff b).mp hown] at hsome
      · exact ⟨o, .inl rfl, (hown_o b).mpr hown⟩)
    (fun b y hy hown => by
      rcases hy with rfl | rfl
      · -- the block taken over was `other`'s, not the one just freed
        have hb := (hs.owns_iff b).mp ((hown_o b).mp hown)
        rw [hheap b, if_neg (hb ▸ hloc)]
        exact ⟨hwf.live ((hown_o b).mp hown), src, .inr rfl, (hown_o b).mp hown⟩
      · exact absurd hown (hown_src b))
    (by rw [hw']; exact hfresh1)
  obtain ⟨loc', h'⟩ := hs.transfer hvs hvo fun b hb => by rw [hheap b, if_neg (hb ▸ hloc)]
  refine ⟨w', hrun, ⟨loc', scap, sc, h', hsst⟩, holds_of_size_zero hvsrc (hs.fits.mono
    (Nat.zero_le _)), hconf, hconf.heapWF hwf ?_⟩
  intro x y b hx hy hownx howny
  rcases hx with rfl | rfl
  · rcases hy with rfl | rfl
    · rfl
    · exact absurd howny (hown_src b)
  · exact absurd hownx (hown_src b)

/-- Move assignment to itself frees the own block and leaves the object empty. -/
theorem moveAssign_self (hwf : HeapWF w) {xs : List T} (ho : Holds w o xs) :
    ∃ w', w.moveAssign o o = some w' ∧ Holds w' o [] ∧ Confined (· = o) w w' := by
  obtain ⟨loc, cap, c, h, -⟩ := ho
  obtain ⟨v, hv⟩ := h.exists_obj
  obtain ⟨w1, hfree, hobjs1, hfresh1, hheap1⟩ := h.release hv
  obtain ⟨w', hrun, hw'⟩ : ∃ w', w.moveAssign o o = some w' ∧
      w' = (w1.modify o fun x => { x with union := v.union, _size := v._size }).modify o
        fun x => { x with _size := 0 } := by
    refine ⟨_, ?_, rfl⟩
    simp only [World.moveAssign, hv, Option.bind_eq_bind, Option.bind_some]
    rw [← apply_ite_left Option.bind, hfree, Option.bind_some, hobjs1, hv, Option.bind_some]
    rfl
  have hvo : w'.objs o = some { v with _size := 0 } := by simp [hw', hobjs1, hv]
  have hown := not_owns_of_size_zero hvo rfl
  refine ⟨w', hrun, holds_of_size_zero hvo (h.fits.mono (Nat.zero_le _)), confined_of_owns hwf
    (fun x hx => by rw [hw', World.objs_modify_ne _ _ hx, World.objs_modify_ne _ _ hx, hobjs1])
    (fun b => ?_) (fun b x hx hownx hsome => ?_) (fun b y hy hown' => absurd (hy ▸ hown') (hown b))
    (by rw [hw']; exact hfresh1)⟩
  · rw [hw']
    show w1.heap b = _ ∨ w1.heap b = none ∧ _
    rw [hheap1 b]
    split_ifs with hb
    · exact .inr ⟨rfl, o, rfl, (h.owns_iff b).mpr hb⟩
    · exact .inl rfl
  · subst hx
    rw [hw'] at hsome
    simp [show w1.heap b = none by simp [hheap1 b, (h.owns_iff b).mp hownx]] at hsome

-- ---------------------------------------------------------------------------
-- Swap and the destructor
-- ---------------------------------------------------------------------------

/-- `swap(other)` of two objects exchanges what they hold, blocks included. -/
theorem swap_spec (hwf : HeapWF w) {xs : List T} (ho : Holds w o xs) {other : Nat}
    {ys : List T} (hother : Holds w other ys) (hne : other ≠ o) :
    ∃ w', w.swap o other = some w' ∧ Holds w' o ys ∧ Holds w' other xs ∧
      Confined (fun x => x = o ∨ x = other) w w' ∧ HeapWF w' := by
  obtain ⟨loc, cap, c, h, hst⟩ := ho
  obtain ⟨uloc, ucap, uc, hu, hust⟩ := hother
  obtain ⟨v, hv⟩ := h.exists_obj
  obtain ⟨u, huv⟩ := hu.exists_obj
  obtain ⟨w', hrun, hw'⟩ : ∃ w', w.swap o other = some w' ∧
      w' = (w.modify o fun x => { x with union := u.union, _size := u._size }).modify other
        fun x => { x with union := v.union, _size := v._size } :=
    ⟨_, by simp [World.swap, hv, huv], rfl⟩
  have hvo : w'.objs o = some u := by
    rw [hw', World.objs_modify_ne _ _ hne.symm]
    simp [hv]
  have hvother : w'.objs other = some v := by simp [hw', World.objs_modify_ne _ _ hne, huv]
  have hheap : w'.heap = w.heap := by rw [hw']; rfl
  have hown_o := owns_congr (hvo.trans huv.symm)
  have hown_other := owns_congr (hvother.trans hv.symm)
  have hconf : Confined (fun x => x = o ∨ x = other) w w' := confined_of_owns hwf
    (fun x hx => by
      rw [hw', World.objs_modify_ne _ _ fun e => hx (.inr e),
        World.objs_modify_ne _ _ fun e => hx (.inl e)])
    (fun b => .inl (by rw [hheap]))
    (fun b x hx hown _ => by
      rcases hx with rfl | rfl
      · exact ⟨other, .inr rfl, (hown_other b).mpr hown⟩
      · exact ⟨o, .inl rfl, (hown_o b).mpr hown⟩)
    (fun b y hy hown => by
      rcases hy with rfl | rfl
      · exact ⟨hheap ▸ hwf.live ((hown_o b).mp hown), other, .inr rfl, (hown_o b).mp hown⟩
      · exact ⟨hheap ▸ hwf.live ((hown_other b).mp hown), o, .inl rfl, (hown_other b).mp hown⟩)
    (by rw [hw']; rfl)
  obtain ⟨loc', h'⟩ := hu.transfer huv hvo fun b _ => by rw [hheap]
  obtain ⟨uloc', hu'⟩ := h.transfer hv hvother fun b _ => by rw [hheap]
  refine ⟨w', hrun, ⟨loc', ucap, uc, h', hust⟩, ⟨uloc', cap, c, hu', hst⟩, hconf,
    hconf.heapWF hwf ?_⟩
  -- the two blocks were owned by different objects before, so they stay different
  intro x y b hx hy hownx howny
  rcases hx with rfl | rfl <;> rcases hy with rfl | rfl
  · rfl
  · exact (hwf.unique ((hown_other b).mp howny) ((hown_o b).mp hownx))
  · exact (hwf.unique ((hown_o b).mp howny) ((hown_other b).mp hownx))
  · rfl

/-- `swap` of an object with itself changes nothing. -/
theorem swap_self {v : Prevector N T} (hv : w.objs o = some v) : w.swap o o = some w := by
  simp only [World.swap, hv, Option.bind_eq_bind, Option.bind_some, World.modify,
    Function.update_self, Option.map_some, Function.update_idem]
  rw [← hv, Function.update_eq_self]
  rfl

/-- `~prevector()`: the object's block is freed and its slot emptied. -/
theorem destroy_spec (hwf : HeapWF w) {xs : List T} (ho : Holds w o xs) :
    ∃ w', w.destroy o = some w' ∧ w'.objs o = none ∧ Confined (· = o) w w' ∧ HeapWF w' := by
  obtain ⟨loc, cap, c, h, -⟩ := ho
  obtain ⟨v, hv⟩ := h.exists_obj
  obtain ⟨w1, hfree, hobjs1, hfresh1, hheap1⟩ := h.release hv
  have hrun : w.destroy o = some { w1 with objs := Function.update w1.objs o none } := by
    simp only [World.destroy, hv, Option.bind_eq_bind, Option.bind_some]
    rw [← apply_ite_left Option.bind, hfree, Option.bind_some]
    rfl
  have hnone : ∀ b, ¬Owns { w1 with objs := Function.update w1.objs o none } o b := by
    rintro b ⟨v', hv', -⟩
    simp at hv'
  have hconf : Confined (· = o) w { w1 with objs := Function.update w1.objs o none } :=
    confined_of_owns hwf
      (fun x hx => by simp [Function.update_of_ne hx, hobjs1])
      (fun b => by
        show w1.heap b = _ ∨ w1.heap b = none ∧ _
        rw [hheap1 b]
        split_ifs with hb
        · exact .inr ⟨rfl, o, rfl, (h.owns_iff b).mpr hb⟩
        · exact .inl rfl)
      (fun b x hx hown hsome => by
        subst hx
        simp [show w1.heap b = none by simp [hheap1 b, (h.owns_iff b).mp hown]] at hsome)
      (fun b y hy hown => absurd (hy ▸ hown) (hnone b))
      hfresh1
  exact ⟨_, hrun, by simp, hconf, hconf.heapWF_of_single hwf⟩

end Riecoin
