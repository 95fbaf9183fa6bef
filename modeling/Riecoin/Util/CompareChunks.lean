-- SUMMARY: CompareChunks decides the pointwise order of the two feerate diagrams for chunk lists whose cumulative fees stay in [-2^62, 2^62), and an input within the header's bounds where a slope overflows.
import Riecoin.Util.FeeFrac
import Mathlib.Data.Real.Basic

/-!
# CompareChunks and the order of feerate diagrams

The feerate diagram of a chunk list (`diagram`) is the curve of `Riecoin.Lib.Diagram` through
the cumulative (size, fee) points of its chunks, over the reals. `compareChunks` is proved to
return the pointwise order of the two diagrams (`compareChunks_eq_pointwiseOrder`) for chunk
lists with positive sizes whose cumulative sizes stay below 2^31 and whose cumulative fees stay
in [-2^62, 2^62) (`ChunksFit`).

The proof follows the sweep. `LoopInv` says that the accumulators hold the exact sums of the
processed chunks, that every processed point lies left of every unprocessed one, and that each
flag `better_somewhere[d]` says whether diagram `d` is above the other somewhere left of the
sweep (`reach`). A pass keeps it (`passFrom_spec`): the compared point `P` is a breakpoint of
one diagram and lies on a segment (or the tail) of the other, and between the sweep and `P`
both diagrams are affine, so the comparison at `P` is all that the new stretch adds. After the
last pass both diagrams are horizontal, so the flags decide the order everywhere.

The bound on the fees is the one the proof needs: the slope `P - A` subtracts cumulative fees
of the two lists, which can overflow when the cumulative fees only fit in an `int64_t`, as the
header's contract allows (`compareChunks_slope_overflow`).
-/

namespace Riecoin

open CheckedInt Diagram

-- ---------------------------------------------------------------------------
-- Cumulative sums and diagrams
-- ---------------------------------------------------------------------------

/-- The exact sum of the fees of a chunk list. -/
def feeSum (c : List FeeFrac) : Int := (c.map fun ch => ch.fee.toInt).sum

/-- The exact sum of the sizes of a chunk list. -/
def sizeSum (c : List FeeFrac) : Int := (c.map fun ch => ch.size.toInt).sum

@[simp] theorem feeSum_nil : feeSum [] = 0 := rfl
@[simp] theorem sizeSum_nil : sizeSum [] = 0 := rfl

@[simp] theorem feeSum_cons (ch : FeeFrac) (c : List FeeFrac) : feeSum (ch :: c) = ch.fee.toInt + feeSum c := by
  simp [feeSum]

@[simp] theorem sizeSum_cons (ch : FeeFrac) (c : List FeeFrac) : sizeSum (ch :: c) = ch.size.toInt + sizeSum c := by
  simp [sizeSum]

@[simp] theorem feeSum_append (a b : List FeeFrac) : feeSum (a ++ b) = feeSum a + feeSum b := by
  simp [feeSum]

@[simp] theorem sizeSum_append (a b : List FeeFrac) : sizeSum (a ++ b) = sizeSum a + sizeSum b := by
  simp [sizeSum]

/-- A list split at a chunk `k`: the chunks before it, the chunk, and the chunks after it. -/
theorem eq_take_append_getD {c : List FeeFrac} {k : Nat} (hk : k < c.length) :
    c = c.take k ++ c.getD k default :: c.drop (k + 1) := by
  rw [List.getD_eq_getElem?_getD, List.getElem?_eq_getElem hk, Option.getD_some, ← List.drop_eq_getElem_cons hk,
    List.take_append_drop]

theorem take_succ_eq {c : List FeeFrac} {k : Nat} (hk : k < c.length) :
    c.take (k + 1) = c.take k ++ [c.getD k default] := by
  rw [List.take_add_one, List.getD_eq_getElem?_getD, List.getElem?_eq_getElem hk, Option.getD_some,
    Option.toList_some]

theorem feeSum_take_succ {c : List FeeFrac} {k : Nat} (hk : k < c.length) :
    feeSum (c.take (k + 1)) = feeSum (c.take k) + (c.getD k default).fee.toInt := by
  rw [take_succ_eq hk, feeSum_append, feeSum_cons, feeSum_nil, add_zero]

theorem sizeSum_take_succ {c : List FeeFrac} {k : Nat} (hk : k < c.length) :
    sizeSum (c.take (k + 1)) = sizeSum (c.take k) + (c.getD k default).size.toInt := by
  rw [take_succ_eq hk, sizeSum_append, sizeSum_cons, sizeSum_nil, add_zero]

theorem getD_mem {c : List FeeFrac} {k : Nat} (hk : k < c.length) : c.getD k default ∈ c := by
  rw [List.getD_eq_getElem?_getD, List.getElem?_eq_getElem hk, Option.getD_some]
  exact List.getElem_mem hk

/-- The segments of a chunk list's diagram: each chunk's size and fee. -/
def segments (c : List FeeFrac) : List (ℝ × ℝ) := c.map fun ch => ((ch.size.toInt : ℝ), (ch.fee.toInt : ℝ))

/-- The feerate diagram of a chunk list: from `(0, 0)` through the cumulative (size, fee)
points of its chunks, horizontal after the last. -/
noncomputable def diagram (c : List FeeFrac) : ℝ → ℝ := curve (segments c)

@[simp] theorem segments_append (a b : List FeeFrac) : segments (a ++ b) = segments a ++ segments b :=
  List.map_append

@[simp] theorem segments_cons (ch : FeeFrac) (c : List FeeFrac) :
    segments (ch :: c) = ((ch.size.toInt : ℝ), (ch.fee.toInt : ℝ)) :: segments c := rfl

/-- The segments split at chunk `k`. -/
theorem segments_split {c : List FeeFrac} {k : Nat} (hk : k < c.length) :
    segments c = segments (c.take k) ++
      (((c.getD k default).size.toInt : ℝ), ((c.getD k default).fee.toInt : ℝ)) :: segments (c.drop (k + 1)) := by
  conv_lhs => rw [eq_take_append_getD hk]
  rw [segments_append, segments_cons]

@[simp] theorem width_segments (c : List FeeFrac) : width (segments c) = (sizeSum c : ℝ) := by
  induction c with
  | nil => simp [segments]
  | cons ch c ih => simp [ih]

@[simp] theorem rise_segments (c : List FeeFrac) : rise (segments c) = (feeSum c : ℝ) := by
  induction c with
  | nil => simp [segments]
  | cons ch c ih => simp [ih]

theorem segments_pos {c : List FeeFrac} (hpos : ∀ ch ∈ c, 0 < ch.size.toInt) : Pos (segments c) := by
  intro s hs
  obtain ⟨ch, hch, rfl⟩ := List.mem_map.mp hs
  show (0 : ℝ) < (ch.size.toInt : ℝ)
  exact_mod_cast hpos ch hch

/-- The diagram of chunks with nonnegative fees is nonnegative. -/
theorem diagram_nonneg {c : List FeeFrac} (hpos : ∀ ch ∈ c, 0 < ch.size.toInt)
    (hfee : ∀ ch ∈ c, 0 ≤ ch.fee.toInt) {x : ℝ} (hx : 0 ≤ x) : 0 ≤ diagram c x := by
  refine curve_nonneg (segments_pos hpos) ?_ hx
  intro s hs
  obtain ⟨ch, hch, rfl⟩ := List.mem_map.mp hs
  show (0 : ℝ) ≤ (ch.fee.toInt : ℝ)
  exact_mod_cast hfee ch hch

/-- The diagram of chunks with nonpositive fees is nonpositive. -/
theorem diagram_nonpos {c : List FeeFrac} (hpos : ∀ ch ∈ c, 0 < ch.size.toInt)
    (hfee : ∀ ch ∈ c, ch.fee.toInt ≤ 0) {x : ℝ} (hx : 0 ≤ x) : diagram c x ≤ 0 := by
  refine curve_nonpos (segments_pos hpos) ?_ hx
  intro s hs
  obtain ⟨ch, hch, rfl⟩ := List.mem_map.mp hs
  show (ch.fee.toInt : ℝ) ≤ 0
  exact_mod_cast hfee ch hch

-- ---------------------------------------------------------------------------
-- The chunk lists of the theorem
-- ---------------------------------------------------------------------------

/-- Chunk lists with positive sizes, sizes adding up to less than 2^31 and every cumulative fee
in [-2^62, 2^62): the difference of two cumulative fees, one from each list, then fits in an
`int64_t`. -/
structure ChunksFit (c : List FeeFrac) : Prop where
  size_pos : ∀ ch ∈ c, 0 < ch.size.toInt
  size_lt : sizeSum c < 2 ^ 31
  fee_bound : ∀ k ≤ c.length, -2 ^ 62 ≤ feeSum (c.take k) ∧ feeSum (c.take k) < 2 ^ 62

instance (c : List FeeFrac) : Decidable (ChunksFit c) :=
  decidable_of_iff ((∀ ch ∈ c, 0 < ch.size.toInt) ∧ sizeSum c < 2 ^ 31 ∧
      ∀ k ≤ c.length, -2 ^ 62 ≤ feeSum (c.take k) ∧ feeSum (c.take k) < 2 ^ 62)
    ⟨fun ⟨h1, h2, h3⟩ => ⟨h1, h2, h3⟩, fun ⟨h1, h2, h3⟩ => ⟨h1, h2, h3⟩⟩

namespace ChunksFit

variable {c : List FeeFrac} (h : ChunksFit c)
include h

theorem pos_segments : Pos (segments c) := segments_pos h.size_pos

theorem sizeSum_nonneg_of_sub {d : List FeeFrac} (hd : d ⊆ c) : 0 ≤ sizeSum d := by
  induction d with
  | nil => simp
  | cons ch d ih =>
    have hpos := h.size_pos ch (hd List.mem_cons_self)
    rw [sizeSum_cons]
    have := ih (fun x hx => hd (List.mem_cons_of_mem _ hx))
    omega

/-- Cumulative sizes grow with the prefix. -/
theorem sizeSum_take_le {j k : Nat} (hjk : j ≤ k) : sizeSum (c.take j) ≤ sizeSum (c.take k) := by
  obtain ⟨n, rfl⟩ := Nat.exists_eq_add_of_le hjk
  rw [List.take_add, sizeSum_append]
  have := h.sizeSum_nonneg_of_sub (d := (c.drop j).take n)
    (fun x hx => List.mem_of_mem_drop (List.mem_of_mem_take hx))
  omega

theorem sizeSum_take_nonneg (k : Nat) : 0 ≤ sizeSum (c.take k) := by
  simpa using h.sizeSum_take_le (Nat.zero_le k)

theorem sizeSum_take_le_sizeSum (k : Nat) : sizeSum (c.take k) ≤ sizeSum c := by
  by_cases hk : k ≤ c.length
  · have hle := h.sizeSum_take_le hk
    rwa [List.take_length] at hle
  · rw [List.take_of_length_le (by omega)]

theorem sizeSum_take_lt (k : Nat) : sizeSum (c.take k) < 2 ^ 31 :=
  lt_of_le_of_lt (h.sizeSum_take_le_sizeSum k) h.size_lt

theorem sizeSum_take_lt_succ {k : Nat} (hk : k < c.length) : sizeSum (c.take k) < sizeSum (c.take (k + 1)) := by
  rw [take_succ_eq hk, sizeSum_append, sizeSum_cons, sizeSum_nil]
  have := h.size_pos _ (getD_mem hk)
  omega

theorem feeSum_take_bound (k : Nat) : -2 ^ 62 ≤ feeSum (c.take k) ∧ feeSum (c.take k) < 2 ^ 62 := by
  by_cases hk : k ≤ c.length
  · exact h.fee_bound k hk
  · rw [List.take_of_length_le (by omega), ← List.take_length (l := c)]
    exact h.fee_bound c.length le_rfl

/-- The diagram at the end of a prefix is the prefix's fee. -/
theorem diagram_sizeSum_take (k : Nat) : diagram c (sizeSum (c.take k)) = feeSum (c.take k) := by
  have hsplit := h.pos_segments
  rw [← List.take_append_drop k c, segments_append] at hsplit
  obtain ⟨hpre, hpost⟩ := hsplit.append
  have happ := curve_width_append hpre hpost
  rw [← segments_append, List.take_append_drop, width_segments, rise_segments] at happ
  exact happ

/-- On the segment of chunk `k` the diagram is the straight line from the prefix before it. -/
theorem diagram_segment {k : Nat} (hk : k < c.length) {x : ℝ} (hx : sizeSum (c.take k) ≤ x)
    (hx' : x ≤ sizeSum (c.take (k + 1))) :
    diagram c x = feeSum (c.take k) +
      (c.getD k default).fee.toInt * (x - sizeSum (c.take k)) / (c.getD k default).size.toInt := by
  have hpos := h.pos_segments
  rw [segments_split hk] at hpos
  obtain ⟨hpre, hcons⟩ := hpos.append
  have hw : (0 : ℝ) < (c.getD k default).size.toInt := hcons _ List.mem_cons_self
  rw [take_succ_eq hk, sizeSum_append, sizeSum_cons, sizeSum_nil, add_zero] at hx'
  have hline := curve_append_cons hpre hw hcons.of_cons (r := ((c.getD k default).fee.toInt : ℝ))
    (x := x) (by simpa using hx) (by push_cast at hx'; simpa using hx')
  rw [diagram, segments_split hk]
  simpa using hline

theorem affineOn_diagram_segment {k : Nat} (hk : k < c.length) :
    AffineOn (diagram c) (sizeSum (c.take k)) (sizeSum (c.take (k + 1))) := by
  have hpos := h.pos_segments
  rw [segments_split hk] at hpos
  obtain ⟨hpre, hcons⟩ := hpos.append
  have hw : (0 : ℝ) < (c.getD k default).size.toInt := hcons _ List.mem_cons_self
  have haff := affineOn_curve_segment hpre hw hcons.of_cons (r := ((c.getD k default).fee.toInt : ℝ))
  rw [take_succ_eq hk, sizeSum_append, sizeSum_cons, sizeSum_nil, add_zero, diagram, segments_split hk]
  simpa using haff

theorem diagram_of_le {x : ℝ} (hx : sizeSum c ≤ x) : diagram c x = feeSum c := by
  rw [diagram, curve_of_width_le h.pos_segments (by simpa using hx), rise_segments]

theorem affineOn_diagram_tail (p : ℝ) : AffineOn (diagram c) (sizeSum c) p := by
  have := affineOn_curve_tail h.pos_segments p
  rwa [width_segments] at this

end ChunksFit

-- ---------------------------------------------------------------------------
-- The state of the sweep
-- ---------------------------------------------------------------------------

section Sweep

variable {chunk : Bool → List FeeFrac}

/-- The size of the last processed point of diagram `d`. -/
def doneSize (chunk : Bool → List FeeFrac) (st : CompareState) (d : Bool) : Int :=
  sizeSum ((chunk d).take (st.next_index d))

/-- The size of the next point of diagram `d`. -/
def nextSize (chunk : Bool → List FeeFrac) (st : CompareState) (d : Bool) : Int :=
  sizeSum ((chunk d).take (st.next_index d + 1))

/-- How far the sweep has come: the larger of the two processed sizes. -/
def reach (chunk : Bool → List FeeFrac) (st : CompareState) : Int :=
  max (doneSize chunk st false) (doneSize chunk st true)

/-- The chunks left to process. -/
def remaining (chunk : Bool → List FeeFrac) (st : CompareState) : Nat :=
  ((chunk false).length - st.next_index false) + ((chunk true).length - st.next_index true)

/-- How far diagram `d` is above the other one at `x`. -/
noncomputable def gap (chunk : Bool → List FeeFrac) (d : Bool) (x : ℝ) : ℝ :=
  diagram (chunk d) x - diagram (chunk (!d)) x

theorem gap_not (d : Bool) (x : ℝ) : gap chunk (!d) x = -gap chunk d x := by
  simp [gap]

theorem doneSize_le_reach (st : CompareState) (e : Bool) : doneSize chunk st e ≤ reach chunk st := by
  cases e
  · exact le_max_left _ _
  · exact le_max_right _ _

theorem reach_eq (st : CompareState) (u : Bool) :
    reach chunk st = max (doneSize chunk st u) (doneSize chunk st (!u)) := by
  cases u
  · rfl
  · exact max_comm _ _

/-- The accumulators hold the exact sums of the processed chunks. -/
structure AccumOk (chunk : Bool → List FeeFrac) (st : CompareState) : Prop where
  index_le : ∀ d, st.next_index d ≤ (chunk d).length
  fee_eq : ∀ d, (st.accum d).fee.toInt = feeSum ((chunk d).take (st.next_index d))
  size_eq : ∀ d, (st.accum d).size.toInt = doneSize chunk st d

/-- The invariant of the loop: the accumulators are exact, every processed point lies left of
every unprocessed one, and each flag says whether its diagram is above the other somewhere
left of the sweep. -/
structure LoopInv (chunk : Bool → List FeeFrac) (st : CompareState) : Prop extends AccumOk chunk st where
  before_next : ∀ d e, st.next_index d < (chunk d).length → doneSize chunk st e < nextSize chunk st d
  better_iff : ∀ d, st.better_somewhere d = true ↔
    ∃ x : ℝ, 0 ≤ x ∧ x ≤ reach chunk st ∧ 0 < gap chunk d x
  not_both : ¬(st.better_somewhere false = true ∧ st.better_somewhere true = true)

theorem AccumOk.with_better {st : CompareState} (h : AccumOk chunk st) (better : Bool → Bool) :
    AccumOk chunk { st with better_somewhere := better } :=
  ⟨h.index_le, h.fee_eq, h.size_eq⟩

section Operations

variable (hfit : ∀ d, ChunksFit (chunk d))
include hfit

/-- `next_point(d)` of a diagram with chunks left is the next cumulative point, exactly. -/
theorem nextPoint_spec {st : CompareState} (hacc : AccumOk chunk st) {d : Bool}
    (hd : st.next_index d < (chunk d).length) :
    ∃ P, nextPoint chunk st d = some P ∧ P.fee.toInt = feeSum ((chunk d).take (st.next_index d + 1)) ∧
      P.size.toInt = nextSize chunk st d := by
  have hfee := (hfit d).feeSum_take_bound (st.next_index d + 1)
  have hsize := (hfit d).sizeSum_take_lt (st.next_index d + 1)
  have hsize0 := (hfit d).sizeSum_take_nonneg (st.next_index d + 1)
  have hF := feeSum_take_succ hd
  have hS := sizeSum_take_succ hd
  rw [← hacc.fee_eq] at hF
  rw [← doneSize, ← hacc.size_eq] at hS
  obtain ⟨P, hP, hPf, hPs⟩ := FeeFrac.add?_spec
    (a := (chunk d).getD (st.next_index d) default) (b := st.accum d)
    ⟨by omega, by omega⟩ ⟨by omega, by omega⟩
  refine ⟨P, hP, by rw [hPf, hF]; ring, by rw [hPs, nextSize, hS]; ring⟩

/-- `advance(d)` of a diagram with chunks left processes its next chunk, exactly. -/
theorem advance_spec {st : CompareState} (hacc : AccumOk chunk st) {d : Bool}
    (hd : st.next_index d < (chunk d).length) :
    ∃ st', advance chunk st d = some st' ∧ AccumOk chunk st' ∧
      st'.next_index = Function.update st.next_index d (st.next_index d + 1) ∧
      st'.better_somewhere = st.better_somewhere := by
  have hfee := (hfit d).feeSum_take_bound (st.next_index d + 1)
  have hsize := (hfit d).sizeSum_take_lt (st.next_index d + 1)
  have hsize0 := (hfit d).sizeSum_take_nonneg (st.next_index d + 1)
  have hF := feeSum_take_succ hd
  have hS := sizeSum_take_succ hd
  rw [← hacc.fee_eq] at hF
  rw [← doneSize, ← hacc.size_eq] at hS
  obtain ⟨A, hA, hAf, hAs⟩ := FeeFrac.add?_spec
    (a := st.accum d) (b := (chunk d).getD (st.next_index d) default)
    ⟨by omega, by omega⟩ ⟨by omega, by omega⟩
  refine ⟨{ st with
      accum := Function.update st.accum d A
      next_index := Function.update st.next_index d (st.next_index d + 1) },
    by rw [advance, hA]; rfl, ?_, rfl, rfl⟩
  constructor
  · intro e
    by_cases he : e = d
    · subst he
      simp only [Function.update_self]
      omega
    · simpa [Function.update_of_ne he] using hacc.index_le e
  · intro e
    by_cases he : e = d
    · subst he
      simp [hAf, hF]
    · simpa [Function.update_of_ne he] using hacc.fee_eq e
  · intro e
    by_cases he : e = d
    · subst he
      simp [doneSize, hAs, hS]
    · simpa [Function.update_of_ne he, doneSize] using hacc.size_eq e

/-- At the next point of `u`, with the other diagram done, the gap is the difference of the
cumulative fee of `u` there and the other diagram's total fee. -/
theorem gap_next_of_done {st : CompareState} (hinv : LoopInv chunk st) {u : Bool}
    (hu : st.next_index u < (chunk u).length) (hdone : st.next_index (!u) = (chunk (!u)).length) :
    gap chunk u (nextSize chunk st u) =
      feeSum ((chunk u).take (st.next_index u + 1)) - feeSum ((chunk (!u)).take (st.next_index (!u))) := by
  have hlt := hinv.before_next u (!u) hu
  rw [doneSize, hdone, List.take_length] at hlt
  rw [hdone, List.take_length, gap, nextSize, (hfit u).diagram_sizeSum_take,
    (hfit (!u)).diagram_of_le (by exact_mod_cast hlt.le)]

/-- At the next point of `u`, on the segment of the other diagram's next chunk, the gap is the
height of the point above that segment. -/
theorem gap_next_of_segment {st : CompareState} (hinv : LoopInv chunk st) {u : Bool}
    (hu : st.next_index u < (chunk u).length) (hj : st.next_index (!u) < (chunk (!u)).length)
    (hle : nextSize chunk st u ≤ nextSize chunk st (!u)) :
    gap chunk u (nextSize chunk st u) =
      feeSum ((chunk u).take (st.next_index u + 1)) -
        (feeSum ((chunk (!u)).take (st.next_index (!u))) +
          ((chunk (!u)).getD (st.next_index (!u)) default).fee.toInt *
            ((nextSize chunk st u : ℝ) - doneSize chunk st (!u)) /
            ((chunk (!u)).getD (st.next_index (!u)) default).size.toInt) := by
  have hlt := hinv.before_next u (!u) hu
  rw [gap, nextSize, (hfit u).diagram_sizeSum_take, ← nextSize,
    (hfit (!u)).diagram_segment hj (by exact_mod_cast hlt.le) (by exact_mod_cast hle), doneSize]

/-- The comparison of a pass: at the next point `P` of `u` it finds the sign of the gap, and it
leaves a state where the other diagram has processed exactly its points up to the size of `P`. -/
theorem comparePoint_spec {st : CompareState} (hinv : LoopInv chunk st) {u oneDone : Bool}
    (hu : st.next_index u < (chunk u).length)
    (hother : if oneDone then st.next_index (!u) = (chunk (!u)).length
      else st.next_index (!u) < (chunk (!u)).length ∧ nextSize chunk st u ≤ nextSize chunk st (!u)) :
    ∃ cmp st1, comparePoint chunk st u oneDone = some (cmp, st1) ∧
      (cmp = .gt ↔ 0 < gap chunk u (nextSize chunk st u)) ∧
      (cmp = .lt ↔ gap chunk u (nextSize chunk st u) < 0) ∧
      AccumOk chunk st1 ∧ st1.better_somewhere = st.better_somewhere ∧
      st1.next_index u = st.next_index u ∧ st.next_index (!u) ≤ st1.next_index (!u) ∧
      doneSize chunk st1 (!u) ≤ nextSize chunk st u ∧
      (st1.next_index (!u) < (chunk (!u)).length → nextSize chunk st u < nextSize chunk st1 (!u)) := by
  obtain ⟨P, hP, hPf, hPs⟩ := nextPoint_spec hfit hinv.toAccumOk hu
  have hbefore := hinv.before_next u (!u) hu
  have hFu := (hfit u).feeSum_take_bound (st.next_index u + 1)
  have hFo := (hfit (!u)).feeSum_take_bound (st.next_index (!u))
  have hSu := (hfit u).sizeSum_take_lt (st.next_index u + 1)
  have hSo := (hfit (!u)).sizeSum_take_nonneg (st.next_index (!u))
  have hAf := hinv.fee_eq (!u)
  have hAs := hinv.size_eq (!u)
  rw [← nextSize] at hSu
  rw [← doneSize] at hSo
  -- the slope from the other diagram's last processed point `A` to `P`
  obtain ⟨AP, hAP, hAPf, hAPs⟩ := FeeFrac.sub?_spec (a := P) (b := st.accum (!u))
    ⟨by rw [hPf, hAf]; omega, by rw [hPf, hAf]; omega⟩ ⟨by rw [hPs, hAs]; omega, by rw [hPs, hAs]; omega⟩
  rw [hPf, hAf] at hAPf
  rw [hPs, hAs] at hAPs
  cases oneDone with
  | true =>
    -- the other diagram is done: it is horizontal from `A` on
    have hdone : st.next_index (!u) = (chunk (!u)).length := by simpa using hother
    have hgap := gap_next_of_done hfit hinv hu hdone
    refine ⟨FeeFrac.compareByRatio AP ⟨0, 1⟩, st, by simp [comparePoint, hP, hAP], ?_, ?_,
      hinv.toAccumOk, rfl, rfl, le_rfl, hbefore.le, fun h => absurd hdone (by omega)⟩
    · rw [FeeFrac.compareByRatio_eq_gt, hgap, hAPf]
      simp only [Int64.toInt_zero, Int32.toInt_one, zero_mul, mul_one, sub_pos]
      constructor <;> intro h <;> [exact_mod_cast h; exact_mod_cast h]
    · rw [FeeFrac.compareByRatio_eq_lt, hgap, hAPf]
      simp only [Int64.toInt_zero, Int32.toInt_one, zero_mul, mul_one, sub_neg]
      constructor <;> intro h <;> [exact_mod_cast h; exact_mod_cast h]
  | false =>
    obtain ⟨hj, hle⟩ : st.next_index (!u) < (chunk (!u)).length ∧ nextSize chunk st u ≤ nextSize chunk st (!u) := by
      simpa using hother
    obtain ⟨B, hB, hBf, hBs⟩ := nextPoint_spec hfit hinv.toAccumOk hj
    have hFo' := (hfit (!u)).feeSum_take_bound (st.next_index (!u) + 1)
    have hSo' := (hfit (!u)).sizeSum_take_lt (st.next_index (!u) + 1)
    rw [← nextSize] at hSo'
    -- the slope of the other diagram's segment `AB`: its next chunk
    obtain ⟨AB, hAB, hABf, hABs⟩ := FeeFrac.sub?_spec (a := B) (b := st.accum (!u))
      ⟨by rw [hBf, hAf]; omega, by rw [hBf, hAf]; omega⟩ ⟨by rw [hBs, hAs]; omega, by rw [hBs, hAs]; omega⟩
    rw [hBf, hAf, feeSum_take_succ hj, add_sub_cancel_left] at hABf
    rw [hBs, hAs, nextSize, doneSize, sizeSum_take_succ hj, add_sub_cancel_left] at hABs
    have hw : 0 < ((chunk (!u)).getD (st.next_index (!u)) default).size.toInt :=
      (hfit (!u)).size_pos _ (getD_mem hj)
    have hgap := gap_next_of_segment hfit hinv hu hj hle
    have hgt : FeeFrac.compareByRatio AP AB = .gt ↔ 0 < gap chunk u (nextSize chunk st u) := by
      rw [FeeFrac.compareByRatio_eq_gt, hgap, sub_interp_pos_iff (by exact_mod_cast hw), hAPf, hAPs, hABf, hABs]
      constructor <;> intro h <;> [exact_mod_cast h; exact_mod_cast h]
    have hlt : FeeFrac.compareByRatio AP AB = .lt ↔ gap chunk u (nextSize chunk st u) < 0 := by
      rw [FeeFrac.compareByRatio_eq_lt, hgap, sub_interp_neg_iff (by exact_mod_cast hw), hAPf, hAPs, hABf, hABs]
      constructor <;> intro h <;> [exact_mod_cast h; exact_mod_cast h]
    have hne : (!u) ≠ u := Bool.not_ne_self u
    by_cases hsame : B.size = P.size
    · -- `B` is at the size of `P`: it is processed in this pass too
      obtain ⟨st1, hadv, hacc1, hidx1, hbet1⟩ := advance_spec hfit hinv.toAccumOk hj
      have hBP : nextSize chunk st (!u) = nextSize chunk st u := by rw [← hBs, ← hPs, hsame]
      refine ⟨FeeFrac.compareByRatio AP AB, st1, by simp [comparePoint, hP, hAP, hB, hAB, hsame, hadv], hgt, hlt,
        hacc1, hbet1, by rw [hidx1, Function.update_of_ne hne.symm], by rw [hidx1, Function.update_self]; omega,
        ?_, ?_⟩
      · rw [doneSize, hidx1, Function.update_self, ← nextSize, hBP]
      · rw [hidx1, Function.update_self]
        intro hj'
        have hgrow := (hfit (!u)).sizeSum_take_lt_succ hj'
        rw [← hBP]
        simpa [nextSize, hidx1] using hgrow
    · -- `B` lies beyond `P`
      have hBP : nextSize chunk st u < nextSize chunk st (!u) := by
        have : P.size.toInt ≠ B.size.toInt := fun h => hsame (Int32.toInt_inj.mp h).symm
        rw [hPs, hBs] at this
        omega
      refine ⟨FeeFrac.compareByRatio AP AB, st, by simp [comparePoint, hP, hAP, hB, hAB, hsame], hgt, hlt,
        hinv.toAccumOk, rfl, rfl, le_rfl, hbefore.le, fun _ => hBP⟩

/-- Between the sweep and the next point of `u`, a diagram that is done or whose next point
is not before it is affine. -/
theorem affineOn_diagram_sweep {st : CompareState} {u e : Bool}
    (he : st.next_index e = (chunk e).length ∨
      (st.next_index e < (chunk e).length ∧ nextSize chunk st u ≤ nextSize chunk st e)) :
    AffineOn (diagram (chunk e)) (reach chunk st) (nextSize chunk st u) := by
  have hreach : doneSize chunk st e ≤ reach chunk st := doneSize_le_reach st e
  rcases he with hdone | ⟨he, hle⟩
  · -- past its last point
    rw [doneSize, hdone, List.take_length] at hreach
    exact ((hfit e).affineOn_diagram_tail _).mono (by exact_mod_cast hreach) le_rfl
  · -- on the segment of its next chunk
    exact ((hfit e).affineOn_diagram_segment he).mono (by exact_mod_cast hreach) (by exact_mod_cast hle)

/-- One pass keeps the invariant and processes a chunk, or returns `unordered` when each
diagram is above the other somewhere. -/
theorem passFrom_spec {st : CompareState} (hinv : LoopInv chunk st) {u oneDone : Bool}
    (hu : st.next_index u < (chunk u).length)
    (hother : if oneDone then st.next_index (!u) = (chunk (!u)).length
      else st.next_index (!u) < (chunk (!u)).length ∧ nextSize chunk st u ≤ nextSize chunk st (!u)) :
    (passFrom chunk st u oneDone = some .unordered ∧ (∃ x : ℝ, 0 ≤ x ∧ 0 < gap chunk false x) ∧
        ∃ x : ℝ, 0 ≤ x ∧ 0 < gap chunk true x) ∨
      ∃ st', passFrom chunk st u oneDone = some (.next st') ∧ LoopInv chunk st' ∧
        remaining chunk st' < remaining chunk st := by
  obtain ⟨cmp, st1, hcp, hgt, hlt, hacc1, hbet1, hidx1u, hidx1o, hdone1, hnext1⟩ :=
    comparePoint_spec hfit hinv hu hother
  obtain ⟨st2, hadv, hacc2, hidx2, hbet2⟩ :=
    advance_spec hfit (hacc1.with_better (markBetter st1.better_somewhere u cmp)) (d := u) (by simpa [hidx1u] using hu)
  have hpass : passFrom chunk st u oneDone =
      some (if st2.better_somewhere false && st2.better_somewhere true then .unordered else .next st2) := by
    simp [passFrom, hcp, hadv]
  have hne : (!u) ≠ u := Bool.not_ne_self u
  have hside : ∀ d, d = u ∨ d = !u := by
    intro d
    cases d <;> cases u <;> simp
  have hidx2u : st2.next_index u = st.next_index u + 1 := by
    rw [hidx2, Function.update_self, ← hidx1u]
  have hidx2o : st2.next_index (!u) = st1.next_index (!u) := by
    rw [hidx2, Function.update_of_ne hne]
  -- the sweep now reaches the processed point `P`, at `p`
  have hdone2u : doneSize chunk st2 u = nextSize chunk st u := by
    rw [doneSize, hidx2u]
    rfl
  have hdone2o : doneSize chunk st2 (!u) = doneSize chunk st1 (!u) := by
    rw [doneSize, hidx2o]
    rfl
  have hreach2 : reach chunk st2 = nextSize chunk st u := by
    rw [reach_eq st2 u, hdone2u, hdone2o]
    exact max_eq_left hdone1
  have hreach : reach chunk st < nextSize chunk st u := by
    rw [reach_eq st u]
    exact max_lt (hinv.before_next u u hu) (hinv.before_next u (!u) hu)
  have hreach0 : 0 ≤ reach chunk st := le_max_of_le_left ((hfit false).sizeSum_take_nonneg _)
  have hoth : st.next_index (!u) = (chunk (!u)).length ∨
      (st.next_index (!u) < (chunk (!u)).length ∧ nextSize chunk st u ≤ nextSize chunk st (!u)) := by
    cases oneDone
    · exact .inr (by simpa using hother)
    · exact .inl (by simpa using hother)
  -- the flags: the new stretch adds only the point `P`
  have hbetter : ∀ d, st2.better_somewhere d = true ↔
      ∃ x : ℝ, 0 ≤ x ∧ x ≤ nextSize chunk st u ∧ 0 < gap chunk d x := by
    intro d
    have hsides : ∀ e, AffineOn (diagram (chunk e)) (reach chunk st) (nextSize chunk st u) := by
      intro e
      rcases hside e with rfl | rfl
      · exact affineOn_diagram_sweep hfit (.inr ⟨hu, le_rfl⟩)
      · exact affineOn_diagram_sweep hfit hoth
    have haff : AffineOn (gap chunk d) (reach chunk st) (nextSize chunk st u) := (hsides d).sub (hsides (!d))
    rw [AffineOn.exists_pos_extend haff (by exact_mod_cast hreach0) (by exact_mod_cast hreach.le), ← hinv.better_iff d,
      hbet2, hbet1]
    dsimp only
    rw [markBetter_apply]
    rcases hside d with rfl | rfl
    · simp [hgt]
    · simp [gap_not, hlt]
  by_cases hboth : st2.better_somewhere false = true ∧ st2.better_somewhere true = true
  · -- both diagrams are above the other somewhere
    left
    refine ⟨by rw [hpass, if_pos (by simp [hboth.1, hboth.2])], ?_, ?_⟩
    · obtain ⟨x, hx, -, hgx⟩ := (hbetter false).mp hboth.1
      exact ⟨x, hx, hgx⟩
    · obtain ⟨x, hx, -, hgx⟩ := (hbetter true).mp hboth.2
      exact ⟨x, hx, hgx⟩
  · right
    refine ⟨st2, by rw [hpass, if_neg (by simpa using hboth)], ⟨hacc2, ?_, ?_, hboth⟩, ?_⟩
    · -- every processed point is at most `p`, every unprocessed one beyond it
      intro d e hd
      have hdone_le : doneSize chunk st2 e ≤ nextSize chunk st u := by
        rcases hside e with rfl | rfl
        · exact hdone2u.le
        · exact hdone2o ▸ hdone1
      have hnext_gt : nextSize chunk st u < nextSize chunk st2 d := by
        rcases hside d with rfl | rfl
        · rw [hidx2u] at hd
          have hnext2 : nextSize chunk st2 d = sizeSum ((chunk d).take (st.next_index d + 1 + 1)) := by
            rw [nextSize, hidx2u]
          rw [hnext2]
          exact (hfit d).sizeSum_take_lt_succ hd
        · rw [hidx2o] at hd
          have hnext2 : nextSize chunk st2 (!u) = nextSize chunk st1 (!u) := by
            rw [nextSize, nextSize, hidx2o]
          rw [hnext2]
          exact hnext1 hd
      omega
    · intro d
      rw [hreach2]
      exact hbetter d
    · have h1 := hacc2.index_le u
      have h2 := hacc2.index_le (!u)
      unfold remaining
      cases u <;> simp only [Bool.not_false, Bool.not_true] at hidx2u hidx2o hidx1o hu h1 h2 ⊢ <;> omega

/-- A pass of the loop: it finishes when both diagrams are done, and otherwise it is a pass
from the diagram with the first unprocessed point. -/
theorem compareStep_spec {st : CompareState} (hinv : LoopInv chunk st) :
    ((∀ d, st.next_index d = (chunk d).length) ∧ compareStep chunk st = some .finished) ∨
      (compareStep chunk st = some .unordered ∧ (∃ x : ℝ, 0 ≤ x ∧ 0 < gap chunk false x) ∧
        ∃ x : ℝ, 0 ≤ x ∧ 0 < gap chunk true x) ∨
      ∃ st', compareStep chunk st = some (.next st') ∧ LoopInv chunk st' ∧
        remaining chunk st' < remaining chunk st := by
  have hle0 := hinv.index_le false
  have hle1 := hinv.index_le true
  by_cases h0 : st.next_index false = (chunk false).length <;>
    by_cases h1 : st.next_index true = (chunk true).length
  · exact .inl ⟨fun d => by cases d <;> assumption, by simp [compareStep, h0, h1]⟩
  · -- diagram 0 is done: the next point is diagram 1's
    have hstep : compareStep chunk st = passFrom chunk st true true := by simp [compareStep, h0, h1]
    rw [hstep]
    exact .inr (passFrom_spec hfit hinv (by omega) (by simpa using h0))
  · -- diagram 1 is done: the next point is diagram 0's
    have hstep : compareStep chunk st = passFrom chunk st false true := by
      simp [compareStep, h1, beq_false_of_ne h0]
    rw [hstep]
    exact .inr (passFrom_spec hfit hinv (by omega) (by simpa using h1))
  · -- both have points left: the one with the smaller next size goes first
    obtain ⟨P0, hP0, -, hP0s⟩ := nextPoint_spec hfit hinv.toAccumOk (d := false) (by omega)
    obtain ⟨P1, hP1, -, hP1s⟩ := nextPoint_spec hfit hinv.toAccumOk (d := true) (by omega)
    have hstep : compareStep chunk st = passFrom chunk st (decide (P0.size > P1.size)) false := by
      simp [compareStep, beq_false_of_ne h0, beq_false_of_ne h1, hP0, hP1]
    rw [hstep]
    by_cases hgt : P0.size > P1.size
    · have hlt : nextSize chunk st true < nextSize chunk st false := by
        rw [← hP0s, ← hP1s]
        exact Int32.lt_iff_toInt_lt.mp hgt
      rw [decide_eq_true hgt]
      exact .inr (passFrom_spec hfit hinv (by omega) ⟨by simpa using (by omega : st.next_index false < _), hlt.le⟩)
    · have hle : nextSize chunk st false ≤ nextSize chunk st true := by
        rw [← hP0s, ← hP1s]
        exact Int.not_lt.mp (mt Int32.lt_iff_toInt_lt.mpr hgt)
      rw [decide_eq_false hgt]
      exact .inr (passFrom_spec hfit hinv (by omega) ⟨by simpa using (by omega : st.next_index true < _), hle⟩)

/-- With both diagrams done, each flag says whether its diagram is above the other anywhere:
past the sweep both diagrams are horizontal. -/
theorem better_iff_of_done {st : CompareState} (hinv : LoopInv chunk st)
    (hdone : ∀ d, st.next_index d = (chunk d).length) (d : Bool) :
    st.better_somewhere d = true ↔ ∃ x : ℝ, 0 ≤ x ∧ 0 < gap chunk d x := by
  have hreach0 : (0 : ℝ) ≤ reach chunk st := by
    exact_mod_cast le_max_of_le_left ((hfit false).sizeSum_take_nonneg _)
  have hflat : ∀ e (y : ℝ), (reach chunk st : ℝ) ≤ y → diagram (chunk e) y = feeSum (chunk e) := by
    intro e y hy
    have hle : doneSize chunk st e ≤ reach chunk st := doneSize_le_reach st e
    rw [doneSize, hdone e, List.take_length] at hle
    exact (hfit e).diagram_of_le (le_trans (by exact_mod_cast hle) hy)
  have hconst : ∀ x : ℝ, (reach chunk st : ℝ) ≤ x → gap chunk d x = gap chunk d (reach chunk st) := by
    intro x hx
    simp only [gap, hflat _ x hx, hflat _ _ le_rfl]
  rw [hinv.better_iff d, exists_pos_iff_of_const hreach0 hconst]

/-- After the loop the flags compare as the diagrams do. -/
theorem ofBool_eq_pointwiseOrder {st : CompareState} (hinv : LoopInv chunk st)
    (hdone : ∀ d, st.next_index d = (chunk d).length) :
    PartialOrdering.ofBool (st.better_somewhere false) (st.better_somewhere true) =
      pointwiseOrder (diagram (chunk false)) (diagram (chunk true)) := by
  have h0 : st.better_somewhere false = true ↔
      ∃ x : ℝ, 0 ≤ x ∧ 0 < diagram (chunk false) x - diagram (chunk true) x :=
    better_iff_of_done hfit hinv hdone false
  have h1 : st.better_somewhere true = true ↔
      ∃ x : ℝ, 0 ≤ x ∧ 0 < diagram (chunk true) x - diagram (chunk false) x :=
    better_iff_of_done hfit hinv hdone true
  rw [pointwiseOrder_eq_of_iff h0 h1]
  have hnb := hinv.not_both
  cases hb0 : st.better_somewhere false <;> cases hb1 : st.better_somewhere true <;> simp_all

/-- The loop returns the pointwise order when its fuel covers the chunks left. -/
theorem compareLoop_spec : ∀ (fuel : Nat) {st : CompareState}, LoopInv chunk st → remaining chunk st ≤ fuel →
    compareLoop chunk fuel st = some (pointwiseOrder (diagram (chunk false)) (diagram (chunk true)))
  | 0, st, hinv, hrem => by
    -- no chunk is left
    have hdone : ∀ d, st.next_index d = (chunk d).length := by
      intro d
      have := hinv.index_le d
      unfold remaining at hrem
      cases d <;> omega
    rw [compareLoop, ofBool_eq_pointwiseOrder hfit hinv hdone]
  | fuel + 1, st, hinv, hrem => by
    rcases compareStep_spec hfit hinv with ⟨hdone, hstep⟩ | ⟨hstep, h0, h1⟩ | ⟨st', hstep, hinv', hlt⟩
    · simp [compareLoop, hstep, ofBool_eq_pointwiseOrder hfit hinv hdone]
    · -- each diagram is above the other somewhere
      have hb0 : true = true ↔ ∃ x : ℝ, 0 ≤ x ∧ 0 < diagram (chunk false) x - diagram (chunk true) x :=
        ⟨fun _ => h0, fun _ => rfl⟩
      have hb1 : true = true ↔ ∃ x : ℝ, 0 ≤ x ∧ 0 < diagram (chunk true) x - diagram (chunk false) x :=
        ⟨fun _ => h1, fun _ => rfl⟩
      simp [compareLoop, hstep, pointwiseOrder_eq_of_iff hb0 hb1]
    · simp only [compareLoop, hstep, Option.bind_eq_bind, Option.bind_some]
      exact compareLoop_spec fuel hinv' (by omega)

end Operations

/-- Before the loop nothing is processed and no flag is set. -/
theorem loopInv_initial (hfit : ∀ d, ChunksFit (chunk d)) : LoopInv chunk CompareState.initial where
  index_le _ := Nat.zero_le _
  fee_eq _ := by simp [CompareState.initial, default]
  size_eq _ := by simp [CompareState.initial, doneSize, default]
  before_next d _ hd := by
    simpa [CompareState.initial, doneSize, nextSize] using (hfit d).sizeSum_take_lt_succ hd
  better_iff d := by
    have hzero : ∀ e, diagram (chunk e) 0 = 0 := fun e => by
      simpa using (hfit e).diagram_sizeSum_take 0
    simp only [CompareState.initial, Bool.false_eq_true, false_iff, not_exists, not_and, not_lt]
    intro x hx hx0
    have hx' : x = 0 := le_antisymm (by simpa [reach, doneSize] using hx0) hx
    simp [hx', gap, hzero]
  not_both := by simp [CompareState.initial]

end Sweep

-- ---------------------------------------------------------------------------
-- CompareChunks is the pointwise order of the diagrams
-- ---------------------------------------------------------------------------

/-- The loop from the initial state, whose fuel is the number of chunks. -/
theorem compareChunks_spec {chunks0 chunks1 : List FeeFrac} (h0 : ChunksFit chunks0) (h1 : ChunksFit chunks1) :
    compareChunks chunks0 chunks1 = some (pointwiseOrder (diagram chunks0) (diagram chunks1)) := by
  have hfit : ∀ d : Bool, ChunksFit (if d then chunks1 else chunks0) := fun d => by
    cases d
    · exact h0
    · exact h1
  have hrem : remaining (fun d => if d then chunks1 else chunks0) CompareState.initial ≤
      chunks0.length + chunks1.length := by
    simp [remaining, CompareState.initial]
  exact compareLoop_spec hfit _ (loopInv_initial hfit) hrem

theorem compareChunks_eq_pointwiseOrder (chunks0 chunks1 : List FeeFrac) (h0 : ChunksFit chunks0)
    (h1 : ChunksFit chunks1) :
    compareChunks chunks0 chunks1 = some (pointwiseOrder (diagram chunks0) (diagram chunks1)) ∧
      compareChunks chunks1 chunks0 = some (pointwiseOrder (diagram chunks0) (diagram chunks1)).reverse := by
  refine ⟨compareChunks_spec h0 h1, ?_⟩
  rw [compareChunks_spec h1 h0, pointwiseOrder_swap]

/-- Diagram 0 starts steeper and diagram 1 ends higher. -/
def crossingChunks0 : List FeeFrac := [⟨5, 2⟩, ⟨1, 3⟩]

def crossingChunks1 : List FeeFrac := [⟨3, 1⟩, ⟨3, 4⟩]

theorem compareChunks_eq_pointwiseOrder_crossing :
    ChunksFit crossingChunks0 ∧ ChunksFit crossingChunks1 ∧
      compareChunks crossingChunks0 crossingChunks1 =
        some (pointwiseOrder (diagram crossingChunks0) (diagram crossingChunks1)) :=
  ⟨by decide, by decide, (compareChunks_eq_pointwiseOrder _ _ (by decide) (by decide)).1⟩

/-- Two chunk lists within the contract of the header, every cumulative sum fitting its type:
diagram 0 rises to 2^63 - 1 and diagram 1 falls to -2^63. -/
def overflowChunks0 : List FeeFrac := [⟨4611686018427387904, 1⟩, ⟨4611686018427387903, 1⟩]

def overflowChunks1 : List FeeFrac := [⟨-4611686018427387904, 1⟩, ⟨-4611686018427387904, 1⟩]

/-- The second pass subtracts the point `(1, -2^62)` of diagram 1 from the point
`(2, 2^63 - 1)` of diagram 0, whose fee difference leaves the range of `int64_t`, although
diagram 0 is above diagram 1. -/
theorem compareChunks_slope_overflow :
    (∀ ch ∈ overflowChunks0 ++ overflowChunks1, 0 < ch.size.toInt) ∧
      (∀ k ≤ 2, InRange 64 (feeSum (overflowChunks0.take k)) ∧ InRange 64 (feeSum (overflowChunks1.take k))) ∧
      sizeSum overflowChunks0 < 2 ^ 31 ∧ sizeSum overflowChunks1 < 2 ^ 31 ∧
      compareChunks overflowChunks0 overflowChunks1 = none ∧
      pointwiseOrder (diagram overflowChunks0) (diagram overflowChunks1) = .greater := by
  refine ⟨by decide, by decide, by decide, by decide, by decide, ?_⟩
  -- diagram 0 is nonnegative and diagram 1 nonpositive; at size 1 they are 2^62 and -2^62
  have hge : ∀ x : ℝ, 0 ≤ x → diagram overflowChunks1 x ≤ diagram overflowChunks0 x := fun x hx =>
    le_trans (diagram_nonpos (by decide) (by decide) hx) (diagram_nonneg (by decide) (by decide) hx)
  have hone : diagram overflowChunks1 1 < diagram overflowChunks0 1 := by
    have hs0 : segments overflowChunks0 = [(1, 4611686018427387904), (1, 4611686018427387903)] := by
      simp [segments, overflowChunks0]
    have hs1 : segments overflowChunks1 = [(1, -4611686018427387904), (1, -4611686018427387904)] := by
      simp [segments, overflowChunks1]
    simp only [diagram, hs0, hs1, curve, le_refl, if_true]
    norm_num
  have hb0 : true = true ↔ ∃ x : ℝ, 0 ≤ x ∧ 0 < diagram overflowChunks0 x - diagram overflowChunks1 x :=
    ⟨fun _ => ⟨1, zero_le_one, sub_pos.mpr hone⟩, fun _ => rfl⟩
  have hb1 : false = true ↔ ∃ x : ℝ, 0 ≤ x ∧ 0 < diagram overflowChunks1 x - diagram overflowChunks0 x := by
    simp only [Bool.false_eq_true, false_iff, not_exists, not_and, not_lt]
    intro x hx
    linarith [hge x hx]
  rw [pointwiseOrder_eq_of_iff hb0 hb1]
  rfl

end Riecoin
