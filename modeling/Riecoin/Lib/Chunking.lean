-- SUMMARY: Chunks of a sequence of weighted items by ratio: the stack algorithm that merges a new item with the chunks before it while it is higher, and the naive rule that takes the shortest prefix of highest ratio, shown to give the same chunks.
import Mathlib.Algebra.Order.Ring.Defs
import Mathlib.Algebra.BigOperators.Group.List.Basic
import Mathlib.Algebra.Group.Prod
import Mathlib.Data.List.Chain
import Mathlib.Tactic.Linarith
import Mathlib.Tactic.Ring

/-!
# Chunking by ratio

Items carry a weight `(numerator, denominator)` in an ordered ring, and the ratio of a list of
items is that of its summed weight (`total`), compared by cross-multiplication (`Higher`), with
positive denominators. A *chunk* is a nonempty list every proper prefix of which has a strictly
lower ratio than the whole; a *chunking* is a list of chunks whose ratios never increase.

The stack algorithm (`stackChunks`) pushes each item as a new chunk and merges into it the chunks
on top of the stack while it is higher than them (`absorb`); the stack stays a chunking
(`isChunking_stackChunks`). The naive rule (`naiveChunks`) takes the shortest prefix of highest ratio, found
by a scan that keeps the first best prefix (`bestPrefix`), and goes on with the rest; on the
concatenation of a chunking it gives the chunking back (`naiveChunks_flatten`). Hence the two
agree (`stackChunks_eq_naiveChunks`).
-/

namespace Chunking

section Ratio

variable {R : Type*} [CommRing R] [LinearOrder R] [IsStrictOrderedRing R]

/-- `a` has the strictly higher ratio `a.1 / a.2`, compared by cross-multiplication. -/
def Higher (a b : R × R) : Prop := b.1 * a.2 < a.1 * b.2

instance (a b : R × R) : Decidable (Higher a b) := inferInstanceAs (Decidable (_ < _))

variable {a b c : R × R}

omit [IsStrictOrderedRing R] in
theorem higher_irrefl (a : R × R) : ¬Higher a a := lt_irrefl _

theorem Higher.not_higher (h : Higher a b) : ¬Higher b a := by
  intro h'
  unfold Higher at h h'
  linarith

/-! The mediant `a + b` lies between `a` and `b`, whatever the signs. -/

theorem higher_add_left_iff : Higher (a + b) b ↔ Higher a b := by
  simp only [Higher, Prod.fst_add, Prod.snd_add]
  constructor <;> intro h <;> linarith

theorem higher_add_right_iff : Higher (a + b) a ↔ Higher b a := by
  rw [add_comm a b]
  exact higher_add_left_iff

theorem higher_left_add_iff : Higher a (a + b) ↔ Higher a b := by
  simp only [Higher, Prod.fst_add, Prod.snd_add]
  constructor <;> intro h <;> linarith

theorem higher_right_add_iff : Higher b (a + b) ↔ Higher b a := by
  rw [add_comm a b]
  exact higher_left_add_iff

/-- Two weights below `a` add up to a weight below `a`. -/
theorem Higher.add_right (hb : Higher a b) (hc : Higher a c) : Higher a (b + c) := by
  simp only [Higher, Prod.fst_add, Prod.snd_add] at *
  linarith

omit [LinearOrder R] [IsStrictOrderedRing R] in
/-- The cross-multiplied differences through a middle weight `b`: the identity behind
transitivity. -/
theorem mul_cross_sub (a b c : R × R) :
    b.2 * (a.1 * c.2 - c.1 * a.2) = c.2 * (a.1 * b.2 - b.1 * a.2) + a.2 * (b.1 * c.2 - c.1 * b.2) := by
  ring

section Trans

variable (ha : 0 < a.2) (hb : 0 < b.2) (hc : 0 < c.2)
include ha hb hc

theorem Higher.trans (hab : Higher a b) (hbc : Higher b c) : Higher a c := by
  unfold Higher at *
  have hP : 0 < c.2 * (a.1 * b.2 - b.1 * a.2) := mul_pos hc (by linarith)
  have hQ : 0 < a.2 * (b.1 * c.2 - c.1 * b.2) := mul_pos ha (by linarith)
  have hX : b.2 * 0 < b.2 * (a.1 * c.2 - c.1 * a.2) := by
    rw [mul_cross_sub, mul_zero]
    linarith
  have := lt_of_mul_lt_mul_left hX hb.le
  linarith

theorem not_higher_trans (hab : ¬Higher a b) (hbc : ¬Higher b c) : ¬Higher a c := by
  unfold Higher at *
  have hP : c.2 * (a.1 * b.2 - b.1 * a.2) ≤ 0 := mul_nonpos_of_nonneg_of_nonpos hc.le (by linarith)
  have hQ : a.2 * (b.1 * c.2 - c.1 * b.2) ≤ 0 := mul_nonpos_of_nonneg_of_nonpos ha.le (by linarith)
  have hX : b.2 * (a.1 * c.2 - c.1 * a.2) ≤ b.2 * 0 := by
    rw [mul_cross_sub, mul_zero]
    linarith
  have := le_of_mul_le_mul_left hX hb
  linarith

end Trans

end Ratio

section Blocks

variable {R : Type*} [CommRing R] {α : Type*} (w : α → R × R)

/-- The summed weight of a list of items. -/
def total (l : List α) : R × R := (l.map w).sum

@[simp] theorem total_nil : total w [] = 0 := rfl

@[simp] theorem total_cons (x : α) (l : List α) : total w (x :: l) = w x + total w l := by
  simp [total]

@[simp] theorem total_append (l l' : List α) : total w (l ++ l') = total w l + total w l' := by
  simp [total]

theorem fst_total (l : List α) : (total w l).1 = (l.map fun x => (w x).1).sum := by
  induction l with
  | nil => rfl
  | cons x l ih => simp [ih]

theorem snd_total (l : List α) : (total w l).2 = (l.map fun x => (w x).2).sum := by
  induction l with
  | nil => rfl
  | cons x l ih => simp [ih]

variable [LinearOrder R]

/-- Every item has a positive denominator. -/
def PosSizes (l : List α) : Prop := ∀ x ∈ l, 0 < (w x).2

variable {w}

theorem PosSizes.sublist {l s : List α} (h : PosSizes w l) (hs : s.Sublist l) : PosSizes w s :=
  fun x hx => h x (hs.subset hx)

variable (w)

/-- A chunk: nonempty, and every proper prefix has a strictly lower ratio than the whole. -/
def IsChunk (c : List α) : Prop :=
  c ≠ [] ∧ ∀ k, 0 < k → k < c.length → Higher (total w c) (total w (c.take k))

/-- A chunking: chunks whose ratios never increase. -/
def IsChunking (cs : List (List α)) : Prop :=
  (∀ c ∈ cs, IsChunk w c) ∧ cs.IsChain fun c d => ¬Higher (total w d) (total w c)

/-- A stack of chunks, top first, that read from the bottom is a chunking. -/
def StackOk (st : List (List α)) : Prop :=
  (∀ c ∈ st, IsChunk w c) ∧ st.IsChain fun top below => ¬Higher (total w top) (total w below)

variable {w}

theorem isChunking_reverse_iff {st : List (List α)} : IsChunking w st.reverse ↔ StackOk w st := by
  simp only [IsChunking, StackOk, List.mem_reverse, List.isChain_reverse]

theorem StackOk.tail {top : List α} {rest : List (List α)} (h : StackOk w (top :: rest)) : StackOk w rest :=
  ⟨fun d hd => h.1 d (List.mem_cons_of_mem _ hd), h.2.tail⟩

theorem IsChunking.tail {c : List α} {cs : List (List α)} (h : IsChunking w (c :: cs)) : IsChunking w cs :=
  ⟨fun d hd => h.1 d (List.mem_cons_of_mem _ hd), h.2.tail⟩

/-! ## The stack algorithm -/

variable (w)

/-- Merge the chunks on top of the stack (top first) into `c` while `c` is higher than the top,
then push `c`. -/
def absorb (c : List α) : List (List α) → List (List α)
  | [] => [c]
  | top :: rest => if Higher (total w c) (total w top) then absorb (top ++ c) rest else c :: top :: rest

/-- The chunks of the stack algorithm: each item pushed in turn, the stack read from the
bottom. -/
def stackChunks (l : List α) : List (List α) :=
  (l.foldl (fun st x => absorb w [x] st) []).reverse

/-- The stack holds the items in order, whatever it merges. -/
theorem reverse_flatten_absorb (c : List α) (st : List (List α)) :
    (absorb w c st).reverse.flatten = st.reverse.flatten ++ c := by
  induction st generalizing c with
  | nil => simp [absorb]
  | cons top rest ih =>
    rw [absorb]
    split_ifs
    · rw [ih]
      simp
    · simp

theorem reverse_flatten_foldl_absorb (l : List α) (st : List (List α)) :
    (l.foldl (fun st x => absorb w [x] st) st).reverse.flatten = st.reverse.flatten ++ l := by
  induction l generalizing st with
  | nil => simp
  | cons x l ih => rw [List.foldl_cons, ih, reverse_flatten_absorb, List.append_assoc, List.singleton_append]

theorem flatten_stackChunks (l : List α) : (stackChunks w l).flatten = l := by
  simpa [stackChunks] using reverse_flatten_foldl_absorb w l []

variable {w}

/-! ## The naive rule -/

variable (w)

/-- One step of the scan for the best prefix: extend the prefix so far by `x`, and make it the
best one if there is none yet or it is higher than the best one. -/
def bestStep (p : List α × List α) (x : α) : List α × List α :=
  let acc := p.1 ++ [x]
  (acc, if p.2.isEmpty || decide (Higher (total w acc) (total w p.2)) then acc else p.2)

/-- The first prefix of highest ratio. -/
def bestPrefix (l : List α) : List α := (l.foldl (bestStep w) ([], [])).2

theorem bestStep_fst (p : List α × List α) (x : α) : (bestStep w p x).1 = p.1 ++ [x] := rfl

theorem bestStep_snd (p : List α × List α) (x : α) :
    (bestStep w p x).2 =
      if p.2 = [] ∨ Higher (total w (p.1 ++ [x])) (total w p.2) then p.1 ++ [x] else p.2 := by
  simp only [bestStep, Bool.or_eq_true, List.isEmpty_iff, decide_eq_true_eq]

theorem foldl_bestStep_fst (l : List α) (p : List α × List α) : (l.foldl (bestStep w) p).1 = p.1 ++ l := by
  induction l generalizing p with
  | nil => simp
  | cons x l ih => rw [List.foldl_cons, ih, bestStep_fst, List.append_assoc, List.singleton_append]

variable {w}

/-- The scan after `m + 1` items is one step after the scan of `m`. -/
theorem scan_succ {l : List α} {m : Nat} (hm : m < l.length) :
    (l.take (m + 1)).foldl (bestStep w) ([], []) = bestStep w ((l.take m).foldl (bestStep w) ([], [])) l[m] := by
  rw [List.take_succ_eq_append_getElem hm, List.foldl_append, List.foldl_cons, List.foldl_nil]

/-- The prefix the scan of `m + 1` items extends to. -/
theorem scan_acc_succ {l : List α} {m : Nat} (hm : m < l.length) :
    ((l.take m).foldl (bestStep w) ([], [])).1 ++ [l[m]] = l.take (m + 1) := by
  rw [foldl_bestStep_fst, List.nil_append, List.take_succ_eq_append_getElem hm]

/-- Once an item is scanned, the best prefix is a nonempty prefix of what was scanned. -/
theorem scan_best_eq_take {l : List α} {m : Nat} (hm : m ≤ l.length) (hm0 : 0 < m) :
    ∃ j, 0 < j ∧ j ≤ m ∧ ((l.take m).foldl (bestStep w) ([], [])).2 = l.take j := by
  induction m with
  | zero => omega
  | succ m ih =>
    rw [scan_succ (by omega), bestStep_snd, scan_acc_succ (by omega)]
    split_ifs with hnew
    · exact ⟨m + 1, by omega, le_rfl, rfl⟩
    · -- the best so far stays; it was empty only before the first item
      rcases Nat.eq_zero_or_pos m with rfl | hm0'
      · simp at hnew
      · obtain ⟨j, hj0, hjm, hbest⟩ := ih (by omega) hm0'
        exact ⟨j, hj0, by omega, hbest⟩

theorem bestPrefix_eq_take_of_ne_nil {l : List α} (hne : l ≠ []) :
    ∃ j, 0 < j ∧ j ≤ l.length ∧ bestPrefix w l = l.take j := by
  have hlen : 0 < l.length := List.length_pos_iff.mpr hne
  obtain ⟨j, hj0, hjl, hbest⟩ := scan_best_eq_take (w := w) (le_refl l.length) hlen
  rw [List.take_length] at hbest
  exact ⟨j, hj0, hjl, hbest⟩

theorem length_bestPrefix_pos {l : List α} (hne : l ≠ []) : 0 < (bestPrefix w l).length := by
  obtain ⟨j, hj0, hjl, hbest⟩ := bestPrefix_eq_take_of_ne_nil (w := w) hne
  rw [hbest, List.length_take]
  omega

/-- The scan picks the prefix of length `k` when every shorter prefix is lower and no longer
one is higher. -/
theorem bestPrefix_eq_take {l : List α} {k : Nat} (hk : 0 < k) (hkl : k ≤ l.length)
    (hbelow : ∀ j, 0 < j → j < k → Higher (total w (l.take k)) (total w (l.take j)))
    (habove : ∀ j, k < j → j ≤ l.length → ¬Higher (total w (l.take j)) (total w (l.take k))) :
    bestPrefix w l = l.take k := by
  -- from `k` items on, the best prefix is the one of length `k`
  have hfrom : ∀ m, k ≤ m → m ≤ l.length → ((l.take m).foldl (bestStep w) ([], [])).2 = l.take k := by
    intro m hkm hml
    induction m with
    | zero => omega
    | succ m ih =>
      rw [scan_succ (by omega), bestStep_snd, scan_acc_succ (by omega)]
      rcases Nat.lt_or_ge m k with hmk | hkm'
      · -- the prefix of length `k` replaces the best so far, which is shorter
        obtain rfl : m + 1 = k := by omega
        rw [if_pos]
        rcases Nat.eq_zero_or_pos m with rfl | hm0
        · simp
        · obtain ⟨j, hj0, hjm, hbest⟩ := scan_best_eq_take (w := w) (by omega : m ≤ l.length) hm0
          rw [hbest]
          exact Or.inr (hbelow j hj0 (by omega))
      · -- a longer prefix is not higher, and the best is not empty
        rw [ih hkm' (by omega), if_neg]
        rintro (hnil | hhigh)
        · rcases List.take_eq_nil_iff.mp hnil with h0 | hl
          · omega
          · simp [hl] at hkl
            omega
        · exact habove (m + 1) (by omega) hml hhigh
  have hbest := hfrom l.length hkl le_rfl
  rwa [List.take_length] at hbest

variable (w)

/-- The naive rule: the first prefix of highest ratio, then the naive rule on the rest. -/
def naiveChunks : List α → List (List α)
  | [] => []
  | x :: xs => bestPrefix w (x :: xs) :: naiveChunks ((x :: xs).drop (bestPrefix w (x :: xs)).length)
termination_by l => l.length
decreasing_by
  have := length_bestPrefix_pos (w := w) (List.cons_ne_nil x xs)
  simp only [List.length_drop, List.length_cons]
  omega

variable {w}

theorem naiveChunks_nil : naiveChunks w ([] : List α) = [] := by
  rw [naiveChunks]

theorem naiveChunks_of_ne_nil {l : List α} (hne : l ≠ []) :
    naiveChunks w l = bestPrefix w l :: naiveChunks w (l.drop (bestPrefix w l).length) := by
  cases l with
  | nil => contradiction
  | cons x xs => rw [naiveChunks]

variable [IsStrictOrderedRing R]

theorem total_nonneg {l : List α} (h : PosSizes w l) : 0 ≤ (total w l).2 := by
  induction l with
  | nil => simp
  | cons x l ih =>
    have hx := h x List.mem_cons_self
    have hl := ih (h.sublist (List.sublist_cons_self x l))
    rw [total_cons, Prod.snd_add]
    linarith

theorem total_pos {l : List α} (h : PosSizes w l) (hne : l ≠ []) : 0 < (total w l).2 := by
  cases l with
  | nil => contradiction
  | cons x l =>
    have hx := h x List.mem_cons_self
    have hl := total_nonneg (h.sublist (List.sublist_cons_self x l))
    rw [total_cons, Prod.snd_add]
    linarith

/-- A chunk `top` followed by a higher chunk `c` is one chunk. Its prefixes end inside `top`
(below `top`, which is below the whole), at `top`, or inside `c`: there a prefix `q` of `c`
leaves a rest `r` above `c`, and `top ++ q` is below `c`, so below `r`. -/
theorem IsChunk.append {top c : List α} (htop : IsChunk w top) (hc : IsChunk w c)
    (hhigh : Higher (total w c) (total w top)) (hpos : PosSizes w (top ++ c)) :
    IsChunk w (top ++ c) := by
  refine ⟨by simp [htop.1], fun k hk hklen => ?_⟩
  have hpos_top : PosSizes w top := hpos.sublist (List.sublist_append_left _ _)
  have hpos_c : PosSizes w c := hpos.sublist (List.sublist_append_right _ _)
  have hall : Higher (total w (top ++ c)) (total w top) := by
    rw [total_append, higher_add_right_iff]
    exact hhigh
  rcases lt_trichotomy k top.length with hlt | rfl | hgt
  · -- a proper prefix of `top`
    rw [List.take_append_of_le_length hlt.le]
    have hne : top.take k ≠ [] := by simp [htop.1]; omega
    exact Higher.trans (total_pos hpos (by simp [htop.1])) (total_pos hpos_top htop.1)
      (total_pos (hpos_top.sublist (List.take_sublist _ _)) hne) hall (htop.2 k hk hlt)
  · rw [List.take_left' rfl]
    exact hall
  · -- `top` and a proper prefix `q` of `c`, followed by the rest `r` of `c`
    obtain ⟨j, rfl⟩ : ∃ j, k = top.length + j := ⟨k - top.length, by omega⟩
    have hj : 0 < j := by omega
    have hjc : j < c.length := by simp at hklen; omega
    rw [List.take_append, List.take_of_length_le (by omega), Nat.add_sub_cancel_left]
    have hsplit : total w c = total w (c.take j) + total w (c.drop j) := by
      rw [← total_append, List.take_append_drop]
    have hr_ne : c.drop j ≠ [] := by simp; omega
    have hq_ne : c.take j ≠ [] := by simp [hc.1]; omega
    have hcq : Higher (total w c) (total w (c.take j)) := hc.2 j hj hjc
    have hrc : Higher (total w (c.drop j)) (total w c) := by
      rw [hsplit, higher_right_add_iff, ← higher_add_right_iff, ← hsplit]
      exact hcq
    have hctq : Higher (total w c) (total w top + total w (c.take j)) := hhigh.add_right hcq
    have htq_pos : 0 < (total w top + total w (c.take j)).2 := by
      rw [← total_append]
      exact total_pos (hpos.sublist ((List.take_sublist j c).append_left top)) (by simp [htop.1])
    have hr_tq : Higher (total w (c.drop j)) (total w top + total w (c.take j)) :=
      Higher.trans (total_pos (hpos_c.sublist (List.drop_sublist _ _)) hr_ne) (total_pos hpos_c hc.1)
        htq_pos hrc hctq
    rw [total_append, total_append, hsplit, ← add_assoc, higher_add_right_iff]
    exact hr_tq

/-- Pushing a chunk keeps a stack of chunks. -/
theorem absorb_spec {c : List α} {st : List (List α)} (hc : IsChunk w c) (hst : StackOk w st)
    (hpos : PosSizes w (st.reverse.flatten ++ c)) : StackOk w (absorb w c st) := by
  induction st generalizing c with
  | nil => exact ⟨by simp [absorb, hc], List.isChain_singleton _⟩
  | cons top rest ih =>
    have hflat : (top :: rest).reverse.flatten = rest.reverse.flatten ++ top := by simp
    rw [hflat] at hpos
    by_cases hhigh : Higher (total w c) (total w top)
    · -- `c` absorbs `top` and goes on with the rest of the stack
      rw [absorb, if_pos hhigh]
      have hmerged : IsChunk w (top ++ c) :=
        (hst.1 top List.mem_cons_self).append hc hhigh
          (hpos.sublist (by rw [List.append_assoc]; exact List.sublist_append_right _ _))
      exact ih hmerged hst.tail (by rwa [List.append_assoc] at hpos)
    · -- `c` is pushed
      rw [absorb, if_neg hhigh]
      refine ⟨fun d hd => ?_, hst.2.cons_cons hhigh⟩
      rcases List.mem_cons.mp hd with rfl | hd
      · exact hc
      · exact hst.1 d hd

theorem foldl_absorb_spec (l : List α) {st : List (List α)} (hst : StackOk w st)
    (hpos : PosSizes w (st.reverse.flatten ++ l)) :
    StackOk w (l.foldl (fun st x => absorb w [x] st) st) := by
  induction l generalizing st with
  | nil => simpa using hst
  | cons x l ih =>
    have hsingle : IsChunk w [x] := ⟨by simp, fun k hk hk1 => by simp at hk1; omega⟩
    have hok := absorb_spec hsingle hst (hpos.sublist (by simp))
    have hpos' : PosSizes w ((absorb w [x] st).reverse.flatten ++ l) := by
      rw [reverse_flatten_absorb, List.append_assoc]
      exact hpos
    exact ih hok hpos'

/-- The stack algorithm gives a chunking of the items. -/
theorem isChunking_stackChunks {l : List α} (hpos : PosSizes w l) : IsChunking w (stackChunks w l) :=
  isChunking_reverse_iff.mpr (foldl_absorb_spec l (show StackOk w [] from ⟨by simp, List.isChain_nil⟩)
    (by simpa using hpos))

/-- No nonempty prefix of a chunking is higher than its first chunk. -/
theorem IsChunking.not_higher_take {d : List α} {ds : List (List α)} (h : IsChunking w (d :: ds))
    (hpos : PosSizes w (d :: ds).flatten) {j : Nat} (hj : 0 < j) :
    ¬Higher (total w ((d :: ds).flatten.take j)) (total w d) := by
  induction ds generalizing d j with
  | nil =>
    -- a prefix of `d`: lower than `d`, or `d` itself
    have hd := h.1 d List.mem_cons_self
    rw [List.flatten_cons, List.flatten_nil, List.append_nil]
    rcases Nat.lt_or_ge j d.length with hjd | hjd
    · exact (hd.2 j hj hjd).not_higher
    · rw [List.take_of_length_le hjd]
      exact higher_irrefl _
  | cons e es ih =>
    have hd := h.1 d List.mem_cons_self
    rw [List.flatten_cons] at hpos ⊢
    rcases Nat.lt_or_ge j (d.length + 1) with hjd | hjd
    · -- a prefix of `d`
      rw [List.take_append_of_le_length (by omega)]
      rcases Nat.lt_or_ge j d.length with hjd' | hjd'
      · exact (hd.2 j hj hjd').not_higher
      · rw [List.take_of_length_le hjd']
        exact higher_irrefl _
    · -- `d` and a nonempty prefix `s` of the rest, which is not above `e`, which is not above `d`
      rw [List.take_append, List.take_of_length_le (by omega), total_append, higher_add_right_iff]
      have he := h.1 e (List.mem_cons_of_mem _ List.mem_cons_self)
      have hpos_rest : PosSizes w (e :: es).flatten := hpos.sublist (List.sublist_append_right _ _)
      have hs_ne : ((e :: es).flatten.take (j - d.length)) ≠ [] := by
        simp [List.take_eq_nil_iff, he.1]
        omega
      have hse := ih h.tail hpos_rest (j := j - d.length) (by omega)
      have hed : ¬Higher (total w e) (total w d) := (List.isChain_cons_cons.mp h.2).1
      exact not_higher_trans
        (total_pos (hpos_rest.sublist (List.take_sublist _ _)) hs_ne)
        (total_pos (hpos_rest.sublist (by simp)) he.1)
        (total_pos (hpos.sublist (List.sublist_append_left _ _)) hd.1) hse hed

/-- The naive rule gives a chunking back from its items. -/
theorem naiveChunks_flatten {cs : List (List α)} (h : IsChunking w cs) (hpos : PosSizes w cs.flatten) :
    naiveChunks w cs.flatten = cs := by
  induction cs with
  | nil => exact naiveChunks_nil
  | cons c cs ih =>
    have hc := h.1 c List.mem_cons_self
    have hne : (c :: cs).flatten ≠ [] := by simp [hc.1]
    rw [List.flatten_cons] at hpos hne ⊢
    -- the first chunk is the first prefix of highest ratio
    have hbest : bestPrefix w (c ++ cs.flatten) = c := by
      have htake := bestPrefix_eq_take (w := w) (l := c ++ cs.flatten) (k := c.length)
        (List.length_pos_iff.mpr hc.1) (by simp)
        (fun j hj hjc => by
          rw [List.take_left' rfl, List.take_append_of_le_length hjc.le]
          exact hc.2 j hj hjc)
        (fun j hjc hjl => by
          rw [List.take_left' rfl, List.take_append, List.take_of_length_le (by omega), total_append,
            higher_add_right_iff]
          cases cs with
          | nil => simp at hjl; omega
          | cons d ds =>
            have hd := h.tail.1 d List.mem_cons_self
            have hpos_rest : PosSizes w (d :: ds).flatten := hpos.sublist (List.sublist_append_right _ _)
            have hs_ne : ((d :: ds).flatten.take (j - c.length)) ≠ [] := by
              simp [List.take_eq_nil_iff, hd.1]
              omega
            exact not_higher_trans
              (total_pos (hpos_rest.sublist (List.take_sublist _ _)) hs_ne)
              (total_pos (hpos_rest.sublist (by simp)) hd.1)
              (total_pos (hpos.sublist (List.sublist_append_left _ _)) hc.1)
              (h.tail.not_higher_take hpos_rest (by omega)) (List.isChain_cons_cons.mp h.2).1)
      rwa [List.take_left' rfl] at htake
    rw [naiveChunks_of_ne_nil hne, hbest, List.drop_left, ih h.tail (hpos.sublist (List.sublist_append_right _ _))]

/-- The stack algorithm and the naive rule give the same chunks. -/
theorem stackChunks_eq_naiveChunks {l : List α} (hpos : PosSizes w l) : stackChunks w l = naiveChunks w l := by
  have hnaive := naiveChunks_flatten (isChunking_stackChunks hpos) (by rwa [flatten_stackChunks])
  rw [flatten_stackChunks] at hnaive
  exact hnaive.symm

end Blocks

end Chunking
