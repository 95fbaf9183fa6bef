-- SUMMARY: One spec per prevector method on its own object: the elements it leaves, in the representation, touching nothing else.
import Riecoin.Prevector.Capacity

/-!
# Prevector method specs

Each method of object `o`, run on a world whose heap is well formed and in which `o` holds
`xs` in its representation, succeeds (every access it makes is one the memory model
allows), leaves `o` holding the list `std::vector` would hold, and is confined to `o`.
The sizes it reaches are assumed to fit (`SizeFits`); the methods that grow to
`new_size + (new_size >> 1)` need nothing more.

The specs of `erase` and of the growth step keep the buffer's location and capacity in
the statement, since `resize`, `clear` and `assign` read `capacity()` after them.
-/

namespace Riecoin

open Prevector

variable {N : Nat} {T : Type} {w : World N T} {o : Nat}

/-- Object `o` holds the elements `xs`, in its representation. -/
def Holds (w : World N T) (o : Nat) (xs : List T) : Prop :=
  ∃ loc cap c, Layout w o loc xs.length cap c ∧ Cells.Stores c xs

-- ---------------------------------------------------------------------------
-- Element access
-- ---------------------------------------------------------------------------

/-- `operator[](pos)` reads element `pos`. -/
theorem load_itemPtr {loc : Loc} {cap : Nat} {c : Nat → Option T} {xs : List T}
    (h : Layout w o loc xs.length cap c) (hst : Cells.Stores c xs) {v : Prevector N T}
    (hv : w.objs o = some v) {pos : Nat} (hpos : pos < xs.length) :
    w.load (itemPtr o v (UInt32.ofNat pos).toInt32) = some xs[pos] := by
  have hp : (UInt32.ofNat pos).toNat = pos := by
    rw [UInt32.toNat_ofNat']; exact Nat.mod_eq_of_lt (by have := h.fits.1; omega)
  rw [h.itemPtr hv (by rw [hp]; have := h.fits.1; omega), hp, h.load_eq (by have := h.len_le; omega),
    hst.get hpos]

theorem emplaceBack_spec (hwf : HeapWF w) {loc : Loc} {cap : Nat} {c : Nat → Option T}
    {xs : List T} (h : Layout w o loc xs.length cap c) (hst : Cells.Stores c xs) (x : T)
    (hfit : SizeFits N (xs.length + 1)) :
    ∃ w', w.emplaceBack o x = some w' ∧ Holds w' o (xs ++ [x]) ∧ Confined (· = o) w w' := by
  obtain ⟨v, hv⟩ := h.exists_obj
  have hsize := h.size_eq hv
  have hnew : (size v + 1).toNat = xs.length + 1 := by
    rw [toNat_add_of_lt (by rw [hsize]; have := hfit.1; simp; omega), hsize]; rfl
  obtain ⟨w1, loc1, cap1, c1, hgrow, h1, hcap1, hagree, hconf1⟩ :=
    grow_spec hwf h hv (size v + 1).toNat (size v + 1 + (size v + 1) >>> (1 : UInt32))
      (by omega) (by rw [toNat_growth (by rw [hnew]; exact hfit.1)]; omega)
  obtain ⟨v1, hv1⟩ := h1.exists_obj
  have hend : itemPtr o v1 (size v1).toInt32 = ⟨loc1, xs.length⟩ := by
    rw [h1.itemPtr hv1 (by rw [h1.size_eq hv1]; exact h.fits.1), h1.size_eq hv1]
  let c2 := Function.update c1 xs.length (some x)
  have h2 := (h1.setCells c2).addSize (k := 1) (by simp; omega) (by simpa using hfit)
  have hwf1 := hconf1.heapWF_of_single hwf
  refine ⟨_, ?_, ⟨loc1, cap1, c2, by simpa using h2, ?_⟩, ?_⟩
  · simp only [World.emplaceBack, hv, Option.bind_eq_bind, Option.bind_some]
    rw [← apply_ite_left Option.bind, hgrow, Option.bind_some, hv1, Option.bind_some, hend,
      h1.store_eq (by omega : xs.length < cap1) x]
    rfl
  · show Cells.Stores (Function.update c1 xs.length (some x)) (xs ++ [x])
    rw [Cells.update_eq_write]
    exact (hst.congr hagree).write_append [x]
  · exact hconf1.trans ((h1.confined_setCells hwf1 c2).trans
      (((h1.setCells c2).confined_addSize ((h1.confined_setCells hwf1 c2).heapWF_of_single hwf1)
        (by simp; omega) (by simpa using hfit))))

-- ---------------------------------------------------------------------------
-- Erasing
-- ---------------------------------------------------------------------------

/-- `erase(first, last)` for positions `f ≤ l ≤ size()` closes the gap; the buffer and its
capacity stay. -/
theorem erase_spec (hwf : HeapWF w) {loc : Loc} {cap : Nat} {c : Nat → Option T} {xs : List T}
    (h : Layout w o loc xs.length cap c) (hst : Cells.Stores c xs) {f l : Nat} (hfl : f ≤ l)
    (hl : l ≤ xs.length) :
    ∃ w' c', w.erase o ⟨loc, f⟩ ⟨loc, l⟩ = some w' ∧
      Layout w' o loc (xs.take f ++ xs.drop l).length cap c' ∧
      Cells.Stores c' (xs.take f ++ xs.drop l) ∧ Confined (· = o) w w' := by
  obtain ⟨v, hv⟩ := h.exists_obj
  have hfit := h.fits
  have hk : ((⟨loc, l⟩ : Ptr).sub ⟨loc, f⟩).toUInt32.toNat = l - f := by
    show (Int.toInt32 ((l : Int) - f)).toUInt32.toNat = l - f
    rw [toNat_toUInt32_toInt32 (by omega) (by have := hfit.1; omega)]
    omega
  have h1 := h.subSize (k := ((⟨loc, l⟩ : Ptr).sub ⟨loc, f⟩).toUInt32) (by omega)
  rw [hk] at h1
  have hlen : (xs.take f ++ xs.drop l).length = xs.length - (l - f) := by
    simp only [List.length_append, List.length_take, List.length_drop]; omega
  have hmove := h1.memmove_eq (d := f) (s := l) (n := xs.length - l) (by have := h.len_le; omega)
    (by have := h.len_le; omega)
  refine ⟨_, _, ?_, hlen ▸ h1.setCells (Cells.copy c c f l (xs.length - l)), hst.erase hfl hl, ?_⟩
  · simp only [World.erase, hv, Option.bind_eq_bind, Option.bind_some, endPtr,
      h.itemPtr hv (by rw [h.size_eq hv]; exact hfit.1), h.size_eq hv]
    rw [sizeT_eq (d := (xs.length : Int) - l) (by omega) (by have := hfit.1; omega),
      show ((xs.length : Int) - l).toNat = xs.length - l by omega, hmove]
  · have hwf1 := (h.confined_subSize hwf (k := ((⟨loc, l⟩ : Ptr).sub ⟨loc, f⟩).toUInt32)
      (by omega)).heapWF_of_single hwf
    exact (h.confined_subSize hwf (by omega)).trans (h1.confined_setCells hwf1 _)

/-- `erase(pos)` for a position below `size()`. -/
theorem eraseOne_spec (hwf : HeapWF w) {loc : Loc} {cap : Nat} {c : Nat → Option T}
    {xs : List T} (h : Layout w o loc xs.length cap c) (hst : Cells.Stores c xs) {p : Nat}
    (hp : p < xs.length) :
    ∃ w', w.eraseOne o ⟨loc, p⟩ = some w' ∧ Holds w' o (xs.eraseIdx p) ∧ Confined (· = o) w w' := by
  obtain ⟨w', c', heq, h', hst', hconf⟩ := erase_spec hwf h hst (Nat.le_succ p) hp
  rw [← List.eraseIdx_eq_take_drop_succ] at h' hst'
  exact ⟨w', by rw [World.eraseOne, Ptr.add, ← heq]; rfl, ⟨loc, cap, c', h', hst'⟩, hconf⟩

/-- `pop_back()` on a nonempty vector. -/
theorem popBack_spec (hwf : HeapWF w) {loc : Loc} {cap : Nat} {c : Nat → Option T}
    {xs : List T} (h : Layout w o loc xs.length cap c) (hst : Cells.Stores c xs)
    (hne : xs ≠ []) :
    ∃ w', w.popBack o = some w' ∧ Holds w' o xs.dropLast ∧ Confined (· = o) w w' := by
  obtain ⟨v, hv⟩ := h.exists_obj
  have hpos : 0 < xs.length := List.length_pos_of_ne_nil hne
  obtain ⟨w', c', heq, h', hst', hconf⟩ :=
    erase_spec hwf h hst (f := xs.length - 1) (l := xs.length) (by omega) (Nat.le_refl _)
  rw [List.drop_length, List.append_nil, ← List.dropLast_eq_take] at h' hst'
  refine ⟨w', ?_, ⟨loc, cap, c', h', hst'⟩, hconf⟩
  simp only [World.popBack, hv, Option.bind_eq_bind, Option.bind_some, endPtr,
    h.itemPtr hv (by rw [h.size_eq hv]; exact h.fits.1), h.size_eq hv, Ptr.add]
  rw [← heq, show (xs.length : Int) + -1 = ((xs.length - 1 : Nat) : Int) by omega]

-- ---------------------------------------------------------------------------
-- Size and capacity
-- ---------------------------------------------------------------------------

/-- `resize(n)`: the first `n` elements, then `T{}` up to `n`. -/
theorem resize_spec [Inhabited T] (hwf : HeapWF w) {loc : Loc} {cap : Nat} {c : Nat → Option T}
    {xs : List T} (h : Layout w o loc xs.length cap c) (hst : Cells.Stores c xs) (n : UInt32)
    (hfit : SizeFits N n.toNat) :
    ∃ w', w.resize o n = some w' ∧
      Holds w' o (xs.take n.toNat ++ List.replicate (n.toNat - xs.length) default) ∧
      Confined (· = o) w w' := by
  obtain ⟨v, hv⟩ := h.exists_obj
  have hsize := h.size_eq hv
  rcases Nat.lt_trichotomy xs.length n.toNat with hlt | heq | hgt
  · -- growing: room for `n`, then `T{}` in the new cells
    have hne : size v ≠ n := fun e => by rw [e] at hsize; omega
    have hng : ¬size v > n := by rw [gt_iff_lt, UInt32.lt_iff_toNat_lt, hsize]; omega
    obtain ⟨w1, loc1, cap1, c1, hgrow, h1, hcap1, hagree, hconf1⟩ :=
      grow_spec hwf h hv n.toNat n (by omega) (Nat.le_refl _)
    obtain ⟨v1, hv1⟩ := h1.exists_obj
    have hinc : (((n - size v).toNat : Int)).toNat = n.toNat - xs.length := by
      rw [UInt32.toNat_sub_of_le _ _ (by rw [UInt32.le_iff_toNat_le, hsize]; omega), hsize]
      omega
    have hk : (UInt32.ofInt ((n - size v).toNat : Int)).toNat = n.toNat - xs.length := by
      rw [toNat_ofInt (by omega) (by have := UInt32.toNat_lt (n - size v); omega), hinc]
    have hn : xs.length + (n.toNat - xs.length) = n.toNat := by omega
    let c2 := Cells.fill c1 xs.length (n.toNat - xs.length) default
    have h2 := (h1.setCells c2).addSize (k := UInt32.ofInt ((n - size v).toNat : Int))
      (by rw [hk]; omega) (by rw [hk, hn]; exact hfit)
    rw [hk, hn] at h2
    have hwf1 := hconf1.heapWF_of_single hwf
    refine ⟨(w1.setCells loc1 c2).addSize o (UInt32.ofInt ((n - size v).toNat : Int)), ?_,
      ⟨loc1, cap1, c2, ?_, ?_⟩, ?_⟩
    · simp only [World.resize, hv, Option.bind_eq_bind, Option.bind_some, if_neg hne, if_neg hng]
      rw [← apply_ite_left Option.bind, hgrow, Option.bind_some, hv1, Option.bind_some,
        h1.itemPtr hv1 (by rw [hsize]; exact h.fits.1), hsize, hinc,
        h1.fill_eq (by omega) default]
      rfl
    · simpa [List.take_of_length_le (Nat.le_of_lt hlt), hn] using h2
    · show Cells.Stores (Cells.fill c1 xs.length (n.toNat - xs.length) default) _
      rw [List.take_of_length_le (Nat.le_of_lt hlt), Cells.fill_eq_write]
      exact (hst.congr hagree).write_append _
    · exact hconf1.trans ((h1.confined_setCells hwf1 c2).trans ((h1.setCells c2).confined_addSize
        ((h1.confined_setCells hwf1 c2).heapWF_of_single hwf1) (by rw [hk]; omega)
        (by rw [hk, hn]; exact hfit)))
  · -- the same size: nothing to do
    have he : size v = n := UInt32.toNat_inj.mp (by rw [hsize, heq])
    refine ⟨w, by simp [World.resize, hv, he], ⟨loc, cap, c, ?_, ?_⟩, .refl hwf⟩
    · simpa [← heq] using h
    · simpa [← heq] using hst
  · -- shrinking: erase from `n` to the end
    have hne : size v ≠ n := fun e => by rw [e] at hsize; omega
    have hg : size v > n := by rw [gt_iff_lt, UInt32.lt_iff_toNat_lt, hsize]; omega
    obtain ⟨w', c', herase, h', hst', hconf⟩ :=
      erase_spec hwf h hst (f := n.toNat) (l := xs.length) (by omega) (Nat.le_refl _)
    rw [List.drop_length, List.append_nil] at h' hst'
    refine ⟨w', ?_, ⟨loc, cap, c', by simpa [show n.toNat - xs.length = 0 by omega] using h', by
      simpa [show n.toNat - xs.length = 0 by omega] using hst'⟩, hconf⟩
    simp only [World.resize, hv, Option.bind_eq_bind, Option.bind_some, if_neg hne, if_pos hg,
      endPtr, h.itemPtr hv (show n.toNat < 2 ^ 31 by have := h.fits.1; omega),
      h.itemPtr hv (by rw [hsize]; exact h.fits.1), hsize]
    exact herase

/-- `clear()`: no element left; the buffer and its capacity stay. -/
theorem clear_spec [Inhabited T] (hwf : HeapWF w) {loc : Loc} {cap : Nat} {c : Nat → Option T}
    {xs : List T} (h : Layout w o loc xs.length cap c) (hst : Cells.Stores c xs) :
    ∃ w' c', w.clear o = some w' ∧ Layout w' o loc 0 cap c' ∧ Confined (· = o) w w' := by
  obtain ⟨v, hv⟩ := h.exists_obj
  have hsize := h.size_eq hv
  by_cases h0 : xs.length = 0
  · have he : size v = 0 := UInt32.toNat_inj.mp (by rw [hsize, h0]; rfl)
    exact ⟨w, c, by simp [World.clear, World.resize, hv, he], h0 ▸ h, .refl hwf⟩
  · have hne : size v ≠ 0 := fun e => h0 (by rw [← hsize, e]; rfl)
    have hg : size v > 0 := by rw [gt_iff_lt, UInt32.lt_iff_toNat_lt, hsize]; simp; omega
    obtain ⟨w', c', herase, h', -, hconf⟩ :=
      erase_spec hwf h hst (f := 0) (l := xs.length) (Nat.zero_le _) (Nat.le_refl _)
    refine ⟨w', c', ?_, by simpa using h', hconf⟩
    simp only [World.clear, World.resize, hv, Option.bind_eq_bind, Option.bind_some, if_neg hne,
      if_pos hg, endPtr, h.itemPtr hv (by rw [hsize]; exact h.fits.1), hsize,
      h.itemPtr hv (p := 0) (by simp)]
    exact herase

/-- `reserve(n)`: the elements stay. -/
theorem reserve_spec (hwf : HeapWF w) {loc : Loc} {cap : Nat} {c : Nat → Option T} {xs : List T}
    (h : Layout w o loc xs.length cap c) (hst : Cells.Stores c xs) (n : UInt32) :
    ∃ w', w.reserve o n = some w' ∧ Holds w' o xs ∧ Confined (· = o) w w' := by
  obtain ⟨v, hv⟩ := h.exists_obj
  by_cases hn : xs.length ≤ n.toNat
  · obtain ⟨w', loc', cap', c', hgrow, h', -, hagree, hconf⟩ :=
      grow_spec hwf h hv n.toNat n hn (Nat.le_refl _)
    exact ⟨w', by simpa [World.reserve, hv] using hgrow, ⟨loc', cap', c', h', hst.congr hagree⟩,
      hconf⟩
  · -- a capacity below the size is never below `capacity()`
    have hc : ¬n.toNat > capacity v := by rw [h.capacity_eq hv]; have := h.len_le; omega
    exact ⟨w, by simp [World.reserve, hv, hc], ⟨loc, cap, c, h, hst⟩, .refl hwf⟩

/-- `shrink_to_fit()`: `change_capacity(size())`; the elements stay. -/
theorem shrinkToFit_spec (hwf : HeapWF w) {loc : Loc} {cap : Nat} {c : Nat → Option T}
    {xs : List T} (h : Layout w o loc xs.length cap c) (hst : Cells.Stores c xs) :
    ∃ w', w.shrinkToFit o = some w' ∧ Holds w' o xs ∧ Confined (· = o) w w' := by
  obtain ⟨v, hv⟩ := h.exists_obj
  obtain ⟨w', loc', c', heq, h', hagree, hconf⟩ :=
    changeCapacity_spec hwf h (size v) (Nat.le_of_eq (h.size_eq hv).symm)
  exact ⟨w', by simpa [World.shrinkToFit, hv] using heq, ⟨loc', _, c', h', hst.congr hagree⟩, hconf⟩

-- ---------------------------------------------------------------------------
-- Filling from input ranges
-- ---------------------------------------------------------------------------

/-- The copy loop over memory the destination does not overlap writes what it reads. -/
theorem fillFrom_eq_fillRange {dst first : Ptr} {ys : List T} (hne : dst.loc ≠ first.loc)
    (hys : ∀ j, j < ys.length → w.load (first.add j) = ys[j]?) :
    w.fillFrom dst first ys.length = w.fillRange dst ys := by
  induction ys generalizing w dst first with
  | nil => rfl
  | cons y ys ih =>
    have hy : w.load first = some y := by simpa [Ptr.add] using hys 0 (by simp)
    simp only [World.fillFrom, World.fillRange, List.length_cons, hy, Option.bind_eq_bind,
      Option.bind_some]
    cases hst : w.store dst y with
    | none => rfl
    | some w' =>
      obtain ⟨c, rfl⟩ := World.exists_setCells_of_store hst
      simp only [Option.bind_some]
      refine ih (by simpa using hne) fun j hj => ?_
      have hptr : (first.add 1).add j = first.add ((j + 1 : Nat) : Int) := by
        simp only [Ptr.add, Ptr.mk.injEq, true_and]; omega
      rw [World.load_setCells_ne _ _ (by simpa using hne.symm), hptr]
      simpa using hys (j + 1) (by simp; omega)

/-- The buffers of two objects are apart. -/
theorem Layout.loc_ne (hwf : HeapWF w) {o' : Nat} {loc loc' : Loc} {len cap len' cap' : Nat}
    {c c' : Nat → Option T} (h : Layout w o loc len cap c) (h' : Layout w o' loc' len' cap' c')
    (hne : o ≠ o') : loc ≠ loc' := by
  rcases h.inline_or_heap with ⟨rfl, -⟩ | ⟨b, rfl⟩ <;>
    rcases h'.inline_or_heap with ⟨rfl, -⟩ | ⟨b', rfl⟩
  · simpa using hne
  · simp
  · simp
  · intro e
    obtain rfl := Loc.heap.inj e
    exact hne (hwf.unique ((h.owns_iff b).mpr rfl) ((h'.owns_iff b).mpr rfl))

/-- The elements an input range yields in `w`, for a method of object `o`: those of a
sequence outside memory, or the elements `f, ..., l - 1` of another object. -/
inductive InputRange.Yields (w : World N T) (o : Nat) : InputRange T → List T → Prop
  | list (ys : List T) : Yields w o (.list ys) ys
  | mem {src : Nat} {sloc : Loc} {scap : Nat} {sc : Nat → Option T} {zs : List T} {f l : Nat} :
      src ≠ o → Layout w src sloc zs.length scap sc → Cells.Stores sc zs → f ≤ l →
      l ≤ zs.length → Yields w o (.mem ⟨sloc, f⟩ ⟨sloc, l⟩) ((zs.drop f).take (l - f))

/-- The elements the `fill` overloads write. -/
def Fill.Yields (w : World N T) (o : Nat) : Fill T → List T → Prop
  | .copies count x, ys => ys = List.replicate count.toNat x
  | .range r, ys => r.Yields w o ys

theorem InputRange.Yields.frame {r : InputRange T} {ys : List T} (hy : r.Yields w o ys)
    {w' : World N T} (hc : Confined (· = o) w w') : r.Yields w' o ys := by
  cases hy with
  | list => exact .list _
  | mem hsrc hl hst hfl hlz => exact .mem hsrc (hl.frame_confined hc hsrc) hst hfl hlz

theorem Fill.Yields.frame {src : Fill T} {ys : List T} (hy : src.Yields w o ys)
    {w' : World N T} (hc : Confined (· = o) w w') : src.Yields w' o ys := by
  cases src with
  | copies => exact hy
  | range r => exact InputRange.Yields.frame hy hc

/-- `last - first` is the number of elements. -/
theorem InputRange.Yields.count {r : InputRange T} {ys : List T} (hy : r.Yields w o ys) :
    r.count = ys.length := by
  cases hy with
  | list => rfl
  | mem _ hl _ hfl hlz =>
    have := hl.fits.1
    simp only [InputRange.count, Ptr.sub, List.length_take, List.length_drop]
    rw [toInt_toInt32 (by omega) (by omega)]
    omega

/-- `fill(dst, ...)` into the object's buffer writes the elements the source yields. -/
theorem fillWith_spec (hwf : HeapWF w) {loc : Loc} {len cap : Nat} {c : Nat → Option T}
    (h : Layout w o loc len cap c) (src : Fill T) {ys : List T} (hy : src.Yields w o ys) {i : Nat}
    (hi : i + ys.length ≤ cap) :
    ∃ w' c', w.fillWith ⟨loc, i⟩ src = some w' ∧ Layout w' o loc len cap c' ∧
      (∀ j, c' j = Cells.write c i ys j) ∧ Confined (· = o) w w' := by
  -- the placement-new loop over a list, empty or not
  have hlist : ∀ zs : List T, i + zs.length ≤ cap → ∃ w' c', w.fillRange ⟨loc, i⟩ zs = some w' ∧
      Layout w' o loc len cap c' ∧ (∀ j, c' j = Cells.write c i zs j) ∧ Confined (· = o) w w' := by
    intro zs hz
    by_cases hne : zs = []
    · subst hne
      exact ⟨w, c, rfl, h, fun j => by simp only [Cells.write, List.length_nil]; rw [if_neg (by omega)],
        .refl hwf⟩
    · exact ⟨_, _, h.fillRange_eq hne hz, h.setCells _, fun _ => rfl, h.confined_setCells hwf _⟩
  cases src with
  | copies count x =>
    simp only [Fill.Yields] at hy
    subst hy
    rw [List.length_replicate] at hi
    exact ⟨_, _, h.fill_eq hi x, h.setCells _, fun j => by rw [Cells.fill_eq_write],
      h.confined_setCells hwf _⟩
  | range r =>
    cases hy with
    | list => exact hlist _ hi
    | @mem src sloc scap sc zs f l hsrc hl hst hfl hlz =>
      have hlen : ((zs.drop f).take (l - f)).length = l - f := by simp; omega
      obtain ⟨w', c', heq, h', hc', hconf⟩ := hlist _ hi
      refine ⟨w', c', ?_, h', hc', hconf⟩
      rw [World.fillWith, show ((l : Int) - f).toNat = ((zs.drop f).take (l - f)).length by
        rw [hlen]; omega, fillFrom_eq_fillRange (h.loc_ne hwf hl hsrc.symm) ?_, heq]
      intro j hj
      rw [hlen] at hj
      rw [show (⟨sloc, f⟩ : Ptr).add j = ⟨sloc, (f + j : Nat)⟩ by simp [Ptr.add],
        hl.load_eq (by have := hl.len_le; omega), hst (f + j) (by omega)]
      simp [hj]

-- ---------------------------------------------------------------------------
-- Assigning and constructing
-- ---------------------------------------------------------------------------

/-- `assign(n, val)` and `assign(first, last)` leave the elements the source yields. -/
theorem assignWith_spec [Inhabited T] (hwf : HeapWF w) {loc : Loc} {cap : Nat}
    {c : Nat → Option T} {xs : List T} (h : Layout w o loc xs.length cap c)
    (hst : Cells.Stores c xs) {n : UInt32} (src : Fill T) {ys : List T} (hy : src.Yields w o ys)
    (hn : ys.length = n.toNat) (hfit : SizeFits N n.toNat) :
    ∃ w', w.assignWith o n src = some w' ∧ Holds w' o ys ∧ Confined (· = o) w w' := by
  obtain ⟨w1, c1, hclear, h1, hconf1⟩ := clear_spec hwf h hst
  have hwf1 := hconf1.heapWF_of_single hwf
  obtain ⟨v1, hv1⟩ := h1.exists_obj
  obtain ⟨w2, loc2, cap2, c2, hgrow, h2, hcap2, -, hconf2⟩ :=
    grow_spec hwf1 h1 hv1 n.toNat n (Nat.zero_le _) (Nat.le_refl _)
  have hwf2 := hconf2.heapWF_of_single hwf1
  have h3 := h2.addSize (k := n) (by omega) (by simpa using hfit)
  have hconf3 := h2.confined_addSize hwf2 (k := n) (by omega) (by simpa using hfit)
  rw [Nat.zero_add] at h3
  obtain ⟨v3, hv3⟩ := h3.exists_obj
  obtain ⟨w4, c4, hfill, h4, hc4, hconf4⟩ := fillWith_spec (hconf3.heapWF_of_single hwf2) h3 src
    (((hy.frame hconf1).frame hconf2).frame hconf3) (i := 0) (by omega)
  refine ⟨w4, ?_, ⟨loc2, cap2, c4, hn ▸ h4,
    (Cells.stores_write_zero c2 ys).congr fun j _ => hc4 j⟩,
    hconf1.trans (hconf2.trans (hconf3.trans hconf4))⟩
  simp only [World.assignWith, hclear, hv1, Option.bind_eq_bind, Option.bind_some]
  rw [← apply_ite_left Option.bind, hgrow, Option.bind_some, hv3, Option.bind_some,
    h3.itemPtr_zero hv3]
  simpa using hfill

/-- `assign(n, val)`. -/
theorem assign_spec [Inhabited T] (hwf : HeapWF w) {loc : Loc} {cap : Nat} {c : Nat → Option T}
    {xs : List T} (h : Layout w o loc xs.length cap c) (hst : Cells.Stores c xs) (n : UInt32)
    (val : T) (hfit : SizeFits N n.toNat) :
    ∃ w', w.assign o n val = some w' ∧ Holds w' o (List.replicate n.toNat val) ∧
      Confined (· = o) w w' :=
  assignWith_spec hwf h hst (.copies n.toNat val) (by simp [Fill.Yields]) (by simp) hfit

/-- `assign(first, last)`. -/
theorem assignRange_spec [Inhabited T] (hwf : HeapWF w) {loc : Loc} {cap : Nat}
    {c : Nat → Option T} {xs : List T} (h : Layout w o loc xs.length cap c)
    (hst : Cells.Stores c xs) {r : InputRange T} {ys : List T} (hy : r.Yields w o ys)
    (hfit : SizeFits N ys.length) :
    ∃ w', w.assignRange o r = some w' ∧ Holds w' o ys ∧ Confined (· = o) w w' := by
  have hn : (UInt32.ofInt r.count).toNat = ys.length := by
    rw [hy.count, toNat_ofInt (by omega) (by have := hfit.2; omega)]
    simp
  exact assignWith_spec hwf h hst (.range r) hy hn.symm (hn ▸ hfit)

/-- Construction into a free slot: the new object holds nothing and owns nothing. -/
theorem confined_create (hwf : HeapWF w) (hfree : w.objs o = none) :
    Confined (· = o) w (w.create o empty) where
  objs o' ho' := by simp [World.create, Function.update_of_ne ho']
  heap _ _ _ _ := rfl
  live b hb := .inl ⟨hb, fun o' ho' ⟨v, hv, _⟩ => by simp [ho', hfree] at hv⟩
  own b o' ho' hown := by
    obtain ⟨v, hv, hd, _⟩ := hown
    subst ho'
    simp [World.create] at hv
    subst hv
    simp [empty, isDirect] at hd
  own_live b o' ho' hown := by
    obtain ⟨v, hv, hd, _⟩ := hown
    subst ho'
    simp [World.create] at hv
    subst hv
    simp [empty, isDirect] at hd
  fresh := hwf.fresh

theorem layout_create (hfit : SizeFits N 0) :
    Layout (w.create o empty) o (.direct o) 0 N (fun _ => none) :=
  .inline (v := empty) (by simp [World.create]) rfl (Nat.zero_le _) hfit

/-- The constructors `prevector(n, val)`, `prevector(first, last)` and the copy constructor,
into a free slot. -/
theorem constructWith_spec (hwf : HeapWF w) (hfree : w.objs o = none) {n : UInt32}
    (src : Fill T) {ys : List T} (hy : src.Yields w o ys) (hn : ys.length = n.toNat)
    (hfit : SizeFits N n.toNat) :
    ∃ w', w.constructWith o n src = some w' ∧ Holds w' o ys ∧ Confined (· = o) w w' := by
  have h0 := layout_create (w := w) (o := o) (hfit.mono (Nat.zero_le _))
  have hconf0 := confined_create hwf hfree
  have hwf0 := hconf0.heapWF_of_single hwf
  obtain ⟨w1, loc1, c1, hcc, h1, -, hconf1⟩ := changeCapacity_spec hwf0 h0 n
    (Nat.zero_le _)
  have hwf1 := hconf1.heapWF_of_single hwf0
  have hcap : n.toNat ≤ (if n.toNat ≤ N then N else n.toNat) := by split_ifs <;> omega
  have h2 := h1.addSize (k := n) (by omega) (by simpa using hfit)
  have hconf2 := h1.confined_addSize hwf1 (k := n) (by omega) (by simpa using hfit)
  rw [Nat.zero_add] at h2
  obtain ⟨v2, hv2⟩ := h2.exists_obj
  obtain ⟨w3, c3, hfill, h3, hc3, hconf3⟩ := fillWith_spec (hconf2.heapWF_of_single hwf1) h2 src
    (((hy.frame hconf0).frame hconf1).frame hconf2) (i := 0) (by omega)
  refine ⟨w3, ?_, ⟨loc1, _, c3, hn ▸ h3, (Cells.stores_write_zero c1 ys).congr fun j _ => hc3 j⟩,
    hconf0.trans (hconf1.trans (hconf2.trans hconf3))⟩
  simp only [World.constructWith, Option.bind_eq_bind, hcc, Option.bind_some, hv2,
    h2.itemPtr_zero hv2]
  simpa using hfill

/-- `prevector(n)`: `resize(n)` of a new object. -/
theorem constructN_spec [Inhabited T] (hwf : HeapWF w) (hfree : w.objs o = none) (n : UInt32)
    (hfit : SizeFits N n.toNat) :
    ∃ w', w.constructN o n = some w' ∧ Holds w' o (List.replicate n.toNat default) ∧
      Confined (· = o) w w' := by
  have hconf0 := confined_create hwf hfree
  obtain ⟨w', heq, hholds, hconf⟩ := resize_spec (hconf0.heapWF_of_single hwf)
    (layout_create (w := w) (o := o) (hfit.mono (Nat.zero_le _)) : Layout _ o _ ([] : List T).length _ _)
    (Cells.stores_nil _) n hfit
  exact ⟨w', heq, by simpa using hholds, hconf0.trans hconf⟩

/-- `prevector(n, val)`. -/
theorem constructFill_spec (hwf : HeapWF w) (hfree : w.objs o = none) (n : UInt32) (val : T)
    (hfit : SizeFits N n.toNat) :
    ∃ w', w.constructFill o n val = some w' ∧ Holds w' o (List.replicate n.toNat val) ∧
      Confined (· = o) w w' :=
  constructWith_spec hwf hfree (.copies n.toNat val) (by simp [Fill.Yields]) (by simp) hfit

/-- `prevector(first, last)`. -/
theorem constructRange_spec (hwf : HeapWF w) (hfree : w.objs o = none) {r : InputRange T}
    {ys : List T} (hy : r.Yields w o ys) (hfit : SizeFits N ys.length) :
    ∃ w', w.constructRange o r = some w' ∧ Holds w' o ys ∧ Confined (· = o) w w' := by
  have hn : (UInt32.ofInt r.count).toNat = ys.length := by
    rw [hy.count, toNat_ofInt (by omega) (by have := hfit.2; omega)]
    simp
  exact constructWith_spec hwf hfree (.range r) hy hn.symm (hn ▸ hfit)

-- ---------------------------------------------------------------------------
-- Inserting
-- ---------------------------------------------------------------------------

theorem length_take_append_drop {xs : List T} {p : Nat} (hp : p ≤ xs.length) (ys : List T) :
    (xs.take p ++ ys ++ xs.drop p).length = xs.length + ys.length := by
  simp only [List.length_append, List.length_take, List.length_drop]
  omega

/-- The lines the three `insert` overloads share open a gap of `k` cells at position `p`:
the elements from `p` on move up by `k`, and the size grows by `k`. -/
theorem makeRoom_spec (hwf : HeapWF w) {loc : Loc} {cap : Nat} {c : Nat → Option T}
    {xs : List T} (h : Layout w o loc xs.length cap c) (hst : Cells.Stores c xs) {p k : Nat}
    (hp : p ≤ xs.length) (count : UInt32) (hcount : count.toNat = k) (shift : Int)
    (hshift : shift = k) (hfit : SizeFits N (xs.length + k)) :
    ∃ w' loc' cap' c' pU, w.makeRoom o ⟨loc, p⟩ count shift = some (w', ⟨loc', p⟩, pU) ∧
      pU.toNat = p ∧ Layout w' o loc' (xs.length + k) cap'
        (Cells.copy c' c' (p + k) p (xs.length - p)) ∧ Cells.Stores c' xs ∧
      Confined (· = o) w w' := by
  obtain ⟨v, hv⟩ := h.exists_obj
  have hsize := h.size_eq hv
  have hpU : ((Ptr.sub ⟨loc, p⟩ (beginPtr o v)).toUInt32).toNat = p := by
    rw [beginPtr, h.itemPtr_zero hv]
    show (Int.toInt32 ((p : Int) - 0)).toUInt32.toNat = p
    rw [toNat_toUInt32_toInt32 (by omega) (by have := hfit.1; omega)]
    omega
  have hnew : (size v + count).toNat = xs.length + k := by
    rw [toNat_add_of_lt (by rw [hsize, hcount]; have := hfit.1; omega), hsize, hcount]
  obtain ⟨w1, loc1, cap1, c1, hgrow, h1, hcap1, hagree, hconf1⟩ :=
    grow_spec hwf h hv (size v + count).toNat
      (size v + count + (size v + count) >>> (1 : UInt32)) (by omega)
      (by rw [toNat_growth (by rw [hnew]; exact hfit.1)]; omega)
  have hwf1 := hconf1.heapWF_of_single hwf
  obtain ⟨v1, hv1⟩ := h1.exists_obj
  have hmove := h1.memmove_eq (d := p + k) (s := p) (n := xs.length - p) (by omega) (by omega)
  have h2 := (h1.setCells (Cells.copy c1 c1 (p + k) p (xs.length - p))).addSize (k := count)
    (by omega) (by rw [hcount]; exact hfit)
  rw [hcount] at h2
  refine ⟨_, loc1, cap1, c1, _, ?_, hpU, h2, hst.congr hagree, ?_⟩
  · simp only [World.makeRoom, hv, Option.bind_eq_bind, Option.bind_some]
    rw [← apply_ite_left Option.bind, hgrow, Option.bind_some, hv1, Option.bind_some,
      h1.itemPtr hv1 (by rw [hpU]; have := hfit.1; omega), hpU,
      show (Ptr.add ⟨loc1, p⟩ shift) = ⟨loc1, (p + k : Nat)⟩ by simp [Ptr.add, hshift],
      UInt32.toNat_sub_of_le _ _ (by rw [UInt32.le_iff_toNat_le, hpU, h1.size_eq hv1]; omega),
      hpU, h1.size_eq hv1, hmove]
    rfl
  · have hc2 := h1.confined_setCells hwf1 (Cells.copy c1 c1 (p + k) p (xs.length - p))
    exact hconf1.trans (hc2.trans ((h1.setCells _).confined_addSize (hc2.heapWF_of_single hwf1)
      (by omega) (by rw [hcount]; exact hfit)))

/-- `insert(pos, value)` at a position up to `size()`. -/
theorem insert_spec (hwf : HeapWF w) {loc : Loc} {cap : Nat} {c : Nat → Option T} {xs : List T}
    (h : Layout w o loc xs.length cap c) (hst : Cells.Stores c xs) {p : Nat} (hp : p ≤ xs.length)
    (x : T) (hfit : SizeFits N (xs.length + 1)) :
    ∃ w', w.insert o ⟨loc, p⟩ x = some w' ∧ Holds w' o (xs.take p ++ [x] ++ xs.drop p) ∧
      Confined (· = o) w w' := by
  obtain ⟨w1, loc1, cap1, c1, pU, hroom, -, h1, hst1, hconf1⟩ :=
    makeRoom_spec hwf h hst hp 1 (k := 1) rfl 1 rfl hfit
  have hwf1 := hconf1.heapWF_of_single hwf
  have hcap := h1.len_le
  let c2 := Function.update (Cells.copy c1 c1 (p + 1) p (xs.length - p)) p (some x)
  refine ⟨w1.setCells loc1 c2, ?_, ⟨loc1, cap1, c2, ?_, ?_⟩,
    hconf1.trans (h1.confined_setCells hwf1 c2)⟩
  · simp only [World.insert, hroom, Option.bind_eq_bind, Option.bind_some]
    exact h1.store_eq (by omega) x
  · rw [length_take_append_drop hp]
    exact h1.setCells c2
  · rw [show c2 = _ from Cells.update_eq_write _ _ _]
    exact hst1.insert hp [x]

/-- `insert(pos, count, value)`. -/
theorem insertFill_spec (hwf : HeapWF w) {loc : Loc} {cap : Nat} {c : Nat → Option T}
    {xs : List T} (h : Layout w o loc xs.length cap c) (hst : Cells.Stores c xs) {p : Nat}
    (hp : p ≤ xs.length) (count : UInt32) (x : T) (hfit : SizeFits N (xs.length + count.toNat)) :
    ∃ w', w.insertFill o ⟨loc, p⟩ count x = some w' ∧
      Holds w' o (xs.take p ++ List.replicate count.toNat x ++ xs.drop p) ∧
      Confined (· = o) w w' := by
  obtain ⟨w1, loc1, cap1, c1, pU, hroom, hpU, h1, hst1, hconf1⟩ :=
    makeRoom_spec hwf h hst hp count rfl count.toNat rfl hfit
  have hwf1 := hconf1.heapWF_of_single hwf
  have hcap := h1.len_le
  obtain ⟨v1, hv1⟩ := h1.exists_obj
  let c2 := Cells.fill (Cells.copy c1 c1 (p + count.toNat) p (xs.length - p)) p count.toNat x
  refine ⟨w1.setCells loc1 c2, ?_, ⟨loc1, cap1, c2, ?_, ?_⟩,
    hconf1.trans (h1.confined_setCells hwf1 c2)⟩
  · simp only [World.insertFill, hroom, Option.bind_eq_bind, Option.bind_some, hv1,
      h1.itemPtr hv1 (by rw [hpU]; have := hfit.1; omega), hpU]
    exact h1.fill_eq (by omega) x
  · rw [length_take_append_drop hp, List.length_replicate]
    exact h1.setCells c2
  · rw [show c2 = _ from Cells.fill_eq_write _ _ _ _]
    simpa using hst1.insert hp (List.replicate count.toNat x)

/-- `insert(pos, first, last)` with a range that does not alias the vector. -/
theorem insertRange_spec (hwf : HeapWF w) {loc : Loc} {cap : Nat} {c : Nat → Option T}
    {xs : List T} (h : Layout w o loc xs.length cap c) (hst : Cells.Stores c xs) {p : Nat}
    (hp : p ≤ xs.length) {r : InputRange T} {ys : List T} (hy : r.Yields w o ys)
    (hfit : SizeFits N (xs.length + ys.length)) :
    ∃ w', w.insertRange o ⟨loc, p⟩ r = some w' ∧ Holds w' o (xs.take p ++ ys ++ xs.drop p) ∧
      Confined (· = o) w w' := by
  have hcount : (Int.toInt32 r.count).toInt = ys.length := by
    rw [hy.count, toInt_toInt32 (by omega) (by have := hfit.1; omega)]
  have hcountU : (Int.toInt32 r.count).toUInt32.toNat = ys.length := by
    rw [hy.count, toNat_toUInt32_toInt32 (by omega) (by have := hfit.1; omega)]
    simp
  obtain ⟨w1, loc1, cap1, c1, pU, hroom, -, h1, hst1, hconf1⟩ :=
    makeRoom_spec hwf h hst hp _ hcountU _ hcount hfit
  have hwf1 := hconf1.heapWF_of_single hwf
  obtain ⟨w2, c2, hfill, h2, hc2, hconf2⟩ :=
    fillWith_spec hwf1 h1 (.range r) (hy.frame hconf1) (i := p)
      (by have := h1.len_le; omega)
  refine ⟨w2, ?_, ⟨loc1, cap1, c2, by rw [length_take_append_drop hp]; exact h2, ?_⟩,
    hconf1.trans hconf2⟩
  · simp only [World.insertRange, hroom, Option.bind_eq_bind, Option.bind_some]
    exact hfill
  · exact (hst1.insert hp ys).congr fun j _ => hc2 j

end Riecoin
