-- SUMMARY: Piecewise-linear curves through the cumulative points of a list of segments, their pointwise partial order on the half-line, and the facts that decide that order at the breakpoints.
import Mathlib.Algebra.Order.Field.Basic
import Mathlib.Tactic.Linarith
import Mathlib.Tactic.Ring

/-!
# Diagrams

A list of segments `(w, r)`, each a width `w > 0` and a rise `r`, draws a curve from the
origin: each segment rises by `r` over its width, and after the last one the curve is
horizontal. Two such curves are compared pointwise on `x ≥ 0` (`pointwiseOrder`).

Between two consecutive breakpoints of either curve both curves are affine, so the comparison
is decided at the breakpoints. The lemmas here are the pieces of that argument: the curve on
one segment (`curve_append_cons`) and after the last one (`curve_of_width_le`), affine
functions on an interval (`AffineOn`, `AffineOn.exists_pos_iff`), the sign of a point against
a segment (`sub_interp_pos_iff`), and the order read off two flags that say where each curve
is above the other (`pointwiseOrder_eq_of_iff`).
-/

namespace Diagram

/-- A three-way comparison that may also find its arguments unordered. -/
inductive PartialOrdering
  | less
  | equivalent
  | greater
  | unordered
  deriving DecidableEq, Repr

namespace PartialOrdering

/-- The comparison with the arguments swapped. -/
def reverse : PartialOrdering → PartialOrdering
  | less => greater
  | equivalent => equivalent
  | greater => less
  | unordered => unordered

/-- The comparison of two flags, `false < true`. -/
def ofBool : Bool → Bool → PartialOrdering
  | false, false => equivalent
  | true, true => equivalent
  | true, false => greater
  | false, true => less

end PartialOrdering

section Curve

variable {K : Type*} [Field K]

/-- The total width of a list of segments. -/
def width (segs : List (K × K)) : K := (segs.map Prod.fst).sum

/-- The total rise of a list of segments. -/
def rise (segs : List (K × K)) : K := (segs.map Prod.snd).sum

@[simp] theorem width_nil : width ([] : List (K × K)) = 0 := rfl
@[simp] theorem rise_nil : rise ([] : List (K × K)) = 0 := rfl

@[simp] theorem width_cons (s : K × K) (segs : List (K × K)) : width (s :: segs) = s.1 + width segs := by
  simp [width]

@[simp] theorem rise_cons (s : K × K) (segs : List (K × K)) : rise (s :: segs) = s.2 + rise segs := by
  simp [rise]

variable [LinearOrder K]

/-- The curve from the origin through the ends of the segments, horizontal after the last. -/
def curve : List (K × K) → K → K
  | [], _ => 0
  | (w, r) :: segs, x => if x ≤ w then r * x / w else r + curve segs (x - w)

/-- Every segment has a positive width. -/
def Pos (segs : List (K × K)) : Prop := ∀ s ∈ segs, 0 < s.1

theorem Pos.nil : Pos ([] : List (K × K)) := fun _ h => nomatch h

theorem Pos.of_cons {s : K × K} {segs : List (K × K)} (h : Pos (s :: segs)) : Pos segs :=
  fun t ht => h t (List.mem_cons_of_mem _ ht)

theorem Pos.append {pre segs : List (K × K)} (h : Pos (pre ++ segs)) : Pos pre ∧ Pos segs :=
  ⟨fun t ht => h t (List.mem_append_left _ ht), fun t ht => h t (List.mem_append_right _ ht)⟩

theorem curve_zero {segs : List (K × K)} (h : Pos segs) : curve segs 0 = 0 := by
  cases segs with
  | nil => rfl
  | cons s segs =>
    obtain ⟨w, r⟩ := s
    have hw : 0 < w := h _ List.mem_cons_self
    simp [curve, hw.le]

variable [IsStrictOrderedRing K]

theorem width_nonneg {segs : List (K × K)} (h : Pos segs) : 0 ≤ width segs := by
  induction segs with
  | nil => simp
  | cons s segs ih =>
    have hs := h s List.mem_cons_self
    rw [width_cons]
    linarith [ih h.of_cons]

theorem eq_nil_of_width_eq_zero {segs : List (K × K)} (h : Pos segs) (hw : width segs = 0) : segs = [] := by
  cases segs with
  | nil => rfl
  | cons s segs =>
    have hs := h s List.mem_cons_self
    have := width_nonneg h.of_cons
    rw [width_cons] at hw
    linarith

/-- A curve whose segments all rise lies above the axis right of 0. -/
theorem curve_nonneg {segs : List (K × K)} (h : Pos segs) (hr : ∀ s ∈ segs, 0 ≤ s.2) {x : K}
    (hx : 0 ≤ x) : 0 ≤ curve segs x := by
  induction segs generalizing x with
  | nil => simp [curve]
  | cons s segs ih =>
    have hw := h s List.mem_cons_self
    have hs := hr s List.mem_cons_self
    rw [curve]
    split_ifs with hxw
    · -- on the first segment
      exact div_nonneg (mul_nonneg hs hx) hw.le
    · -- past it, on the rest from its end
      have hrest := ih h.of_cons (fun t ht => hr t (List.mem_cons_of_mem _ ht)) (x := x - s.1)
        (by linarith [not_le.mp hxw])
      linarith

/-- A curve whose segments all fall lies below the axis right of 0. -/
theorem curve_nonpos {segs : List (K × K)} (h : Pos segs) (hr : ∀ s ∈ segs, s.2 ≤ 0) {x : K}
    (hx : 0 ≤ x) : curve segs x ≤ 0 := by
  induction segs generalizing x with
  | nil => simp [curve]
  | cons s segs ih =>
    have hw := h s List.mem_cons_self
    have hs := hr s List.mem_cons_self
    rw [curve]
    split_ifs with hxw
    · exact div_nonpos_of_nonpos_of_nonneg (mul_nonpos_of_nonpos_of_nonneg hs hx) hw.le
    · have hrest := ih h.of_cons (fun t ht => hr t (List.mem_cons_of_mem _ ht)) (x := x - s.1)
        (by linarith [not_le.mp hxw])
      linarith

/-- Past a prefix of segments the curve goes on as the curve of the rest, from the prefix's end. -/
theorem curve_append {pre segs : List (K × K)} (hpre : Pos pre) (hsegs : Pos segs) {x : K}
    (hx : width pre ≤ x) : curve (pre ++ segs) x = rise pre + curve segs (x - width pre) := by
  induction pre generalizing x with
  | nil => simp
  | cons s pre ih =>
    obtain ⟨w, r⟩ := s
    have hw : 0 < w := hpre _ List.mem_cons_self
    have hpre' := hpre.of_cons
    have hwidth := width_nonneg hpre'
    simp only [List.cons_append, curve, width_cons, rise_cons] at hx ⊢
    by_cases hxw : x ≤ w
    · -- `x` is the end of the first segment, and nothing follows it in the prefix
      have hrest : width pre = 0 := by linarith
      obtain rfl := eq_nil_of_width_eq_zero hpre' hrest
      have hxeq : x = w := by simp at hx; linarith
      subst hxeq
      simp [curve_zero hsegs, hw.ne']
    · rw [if_neg hxw, ih hpre' (by linarith), sub_sub]
      ring

/-- After its last segment the curve stays at the total rise. -/
theorem curve_of_width_le {segs : List (K × K)} (h : Pos segs) {x : K} (hx : width segs ≤ x) :
    curve segs x = rise segs := by
  have happ := curve_append h Pos.nil hx
  rw [List.append_nil] at happ
  rw [happ, curve, add_zero]

/-- On a segment the curve is the straight line from the segment's start. -/
theorem curve_append_cons {pre segs : List (K × K)} {w r : K} (hpre : Pos pre) (hw : 0 < w)
    (hsegs : Pos segs) {x : K} (hx : width pre ≤ x) (hxw : x ≤ width pre + w) :
    curve (pre ++ (w, r) :: segs) x = rise pre + r * (x - width pre) / w := by
  have hcons : Pos ((w, r) :: segs) := by
    intro s hs
    rcases List.mem_cons.mp hs with rfl | hs
    · exact hw
    · exact hsegs s hs
  rw [curve_append hpre hcons hx, curve, if_pos (by linarith)]

/-- At the end of a prefix the curve is the prefix's total rise. -/
theorem curve_width_append {pre segs : List (K × K)} (hpre : Pos pre) (hsegs : Pos segs) :
    curve (pre ++ segs) (width pre) = rise pre := by
  rw [curve_append hpre hsegs le_rfl, sub_self, curve_zero hsegs, add_zero]

-- ---------------------------------------------------------------------------
-- Affine pieces
-- ---------------------------------------------------------------------------

/-- `g` is affine on the interval from `t` to `p`. -/
def AffineOn (g : K → K) (t p : K) : Prop := ∃ α β, ∀ x, t ≤ x → x ≤ p → g x = α + β * x

omit [IsStrictOrderedRing K] in
theorem AffineOn.mono {g : K → K} {t p t' p' : K} (h : AffineOn g t p) (ht : t ≤ t') (hp : p' ≤ p) :
    AffineOn g t' p' := by
  obtain ⟨α, β, hg⟩ := h
  exact ⟨α, β, fun x hx hx' => hg x (ht.trans hx) (hx'.trans hp)⟩

omit [IsStrictOrderedRing K] in
theorem AffineOn.sub {f g : K → K} {t p : K} (hf : AffineOn f t p) (hg : AffineOn g t p) :
    AffineOn (fun x => f x - g x) t p := by
  obtain ⟨α, β, hf⟩ := hf
  obtain ⟨γ, δ, hg⟩ := hg
  refine ⟨α - γ, β - δ, fun x hx hx' => ?_⟩
  show f x - g x = _
  rw [hf x hx hx', hg x hx hx']
  ring

/-- An affine function is positive somewhere on an interval exactly when it is positive at one
of its ends. -/
theorem AffineOn.exists_pos_iff {g : K → K} {t p : K} (h : AffineOn g t p) (htp : t ≤ p) :
    (∃ x, t ≤ x ∧ x ≤ p ∧ 0 < g x) ↔ 0 < g t ∨ 0 < g p := by
  constructor
  · rintro ⟨x, htx, hxp, hx⟩
    obtain ⟨α, β, hg⟩ := h
    rw [hg x htx hxp] at hx
    -- the line rises towards `p` or towards `t`
    rcases le_total 0 β with hβ | hβ
    · right
      rw [hg p htp le_rfl]
      nlinarith
    · left
      rw [hg t le_rfl htp]
      nlinarith
  · rintro (h | h)
    · exact ⟨t, le_rfl, htp, h⟩
    · exact ⟨p, htp, le_rfl, h⟩

/-- Extending `[0, t]` to `[0, p]` over a stretch where `g` is affine adds only the point `p`
to where `g` may be positive. -/
theorem AffineOn.exists_pos_extend {g : K → K} {t p : K} (h : AffineOn g t p) (ht : 0 ≤ t) (htp : t ≤ p) :
    (∃ x, 0 ≤ x ∧ x ≤ p ∧ 0 < g x) ↔ (∃ x, 0 ≤ x ∧ x ≤ t ∧ 0 < g x) ∨ 0 < g p := by
  constructor
  · rintro ⟨x, hx, hxp, hgx⟩
    rcases le_total x t with hxt | htx
    · exact .inl ⟨x, hx, hxt, hgx⟩
    · rcases (h.exists_pos_iff htp).mp ⟨x, htx, hxp, hgx⟩ with hgt | hgp
      · exact .inl ⟨t, ht, le_rfl, hgt⟩
      · exact .inr hgp
  · rintro (⟨x, hx, hxt, hgx⟩ | hgp)
    · exact ⟨x, hx, hxt.trans htp, hgx⟩
    · exact ⟨p, ht.trans htp, le_rfl, hgp⟩

/-- The curve on one segment. -/
theorem affineOn_curve_segment {pre segs : List (K × K)} {w r : K} (hpre : Pos pre) (hw : 0 < w)
    (hsegs : Pos segs) : AffineOn (curve (pre ++ (w, r) :: segs)) (width pre) (width pre + w) :=
  ⟨rise pre - r * width pre / w, r / w, fun x hx hxw => by
    rw [curve_append_cons hpre hw hsegs hx hxw]
    ring⟩

/-- The curve after its last segment. -/
theorem affineOn_curve_tail {segs : List (K × K)} (h : Pos segs) (p : K) :
    AffineOn (curve segs) (width segs) p :=
  ⟨rise segs, 0, fun x hx _ => by rw [curve_of_width_le h hx]; ring⟩

omit [IsStrictOrderedRing K] in
/-- A function that is constant from `t` on is positive somewhere on `x ≥ 0` exactly when it
is positive somewhere on `[0, t]`. -/
theorem exists_pos_iff_of_const {g : K → K} {t : K} (ht : 0 ≤ t) (hconst : ∀ x, t ≤ x → g x = g t) :
    (∃ x, 0 ≤ x ∧ 0 < g x) ↔ ∃ x, 0 ≤ x ∧ x ≤ t ∧ 0 < g x := by
  constructor
  · rintro ⟨x, hx, hgx⟩
    rcases le_total x t with hxt | htx
    · exact ⟨x, hx, hxt, hgx⟩
    · exact ⟨t, ht, le_rfl, hconst x htx ▸ hgx⟩
  · rintro ⟨x, hx, -, hgx⟩
    exact ⟨x, hx, hgx⟩

/-- The sign of a point's height `y` against the line through `(a, c)` with slope `r / w`,
read at the distance `d` from `a`. -/
theorem sub_interp_pos_iff {w : K} (hw : 0 < w) (y c r d : K) :
    0 < y - (c + r * d / w) ↔ r * d < (y - c) * w := by
  rw [sub_pos, ← lt_sub_iff_add_lt', div_lt_iff₀ hw]

theorem sub_interp_neg_iff {w : K} (hw : 0 < w) (y c r d : K) :
    y - (c + r * d / w) < 0 ↔ (y - c) * w < r * d := by
  rw [sub_neg, ← sub_lt_iff_lt_add', lt_div_iff₀ hw]

-- ---------------------------------------------------------------------------
-- The pointwise order
-- ---------------------------------------------------------------------------

open Classical in
/-- The pointwise partial order of two functions on `x ≥ 0`. -/
noncomputable def pointwiseOrder (f g : K → K) : PartialOrdering :=
  if ∀ x, 0 ≤ x → f x = g x then .equivalent
  else if ∀ x, 0 ≤ x → g x ≤ f x then .greater
  else if ∀ x, 0 ≤ x → f x ≤ g x then .less
  else .unordered

/-- The pointwise order read off two flags: whether `f` is above `g` somewhere, and whether
`g` is above `f` somewhere. -/
theorem pointwiseOrder_eq_of_iff {f g : K → K} {b0 b1 : Bool}
    (h0 : b0 = true ↔ ∃ x, 0 ≤ x ∧ 0 < f x - g x) (h1 : b1 = true ↔ ∃ x, 0 ≤ x ∧ 0 < g x - f x) :
    pointwiseOrder f g = if b0 && b1 then .unordered else PartialOrdering.ofBool b0 b1 := by
  have hge : (∀ x, 0 ≤ x → g x ≤ f x) ↔ b1 = false := by
    rw [← Bool.not_eq_true, h1]
    simp only [not_exists, not_and, sub_pos, not_lt]
  have hle : (∀ x, 0 ≤ x → f x ≤ g x) ↔ b0 = false := by
    rw [← Bool.not_eq_true, h0]
    simp only [not_exists, not_and, sub_pos, not_lt]
  have heq : (∀ x, 0 ≤ x → f x = g x) ↔ b0 = false ∧ b1 = false := by
    rw [← hge, ← hle]
    exact ⟨fun h => ⟨fun x hx => (h x hx).le, fun x hx => (h x hx).ge⟩,
      fun h x hx => le_antisymm (h.1 x hx) (h.2 x hx)⟩
  unfold pointwiseOrder
  -- one case per pair of flags
  cases b0 <;> cases b1 <;> simp [heq, hge, hle, PartialOrdering.ofBool]

theorem pointwiseOrder_swap (f g : K → K) : pointwiseOrder g f = (pointwiseOrder f g).reverse := by
  classical
  have h0 : decide (∃ x, 0 ≤ x ∧ 0 < f x - g x) = true ↔ ∃ x, 0 ≤ x ∧ 0 < f x - g x := decide_eq_true_iff
  have h1 : decide (∃ x, 0 ≤ x ∧ 0 < g x - f x) = true ↔ ∃ x, 0 ≤ x ∧ 0 < g x - f x := decide_eq_true_iff
  rw [pointwiseOrder_eq_of_iff h0 h1, pointwiseOrder_eq_of_iff h1 h0]
  cases decide (∃ x, 0 ≤ x ∧ 0 < f x - g x) <;> cases decide (∃ x, 0 ≤ x ∧ 0 < g x - f x) <;> rfl

end Curve

end Diagram
