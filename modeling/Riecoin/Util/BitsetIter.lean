-- SUMMARY: The iterator of MultiIntBitSet (constructor, operator++, end test) visits the set's positions in increasing order and reaches end() after as many steps as the set has elements; First() and Last() are its least and greatest position.
import Riecoin.Util.Bitset
import Mathlib.Data.Finset.Sort

/-!
# Iterating a MultiIntBitSet

`MultiIntBitSet::Iterator` keeps the bits of the current limb not yet reported (`m_val`), the
last reported position (`m_pos`) and the limb (`m_idx`). Its constructor and `operator++` search
for the next non-zero limb the same way (`seek`); `operator++` first clears the reported bit
with `m_val &= m_val - 1`. The iterator is at `end()` when `m_idx == N`.

The positions still ahead of an iterator (`ahead`) are the bits left in its limb and the
positions of the later limbs. A valid iterator (`Valid`) reports the least of them, and
`operator++` removes it (`Valid.next`); from `begin()` the positions ahead are the whole set
(`valid_begin`). So the positions a range-`for` visits (`toList`) are the set in increasing
order (`toList_spec`), and `end()` is reached after one step per element
(`iterate_next_begin`). `First()` scans up from limb `0` and `Last()` down from limb `N - 1`;
they return the least and the greatest position (`first_eq_min'`, `last_eq_max'`).
-/

namespace Riecoin

namespace MultiIntBitSet

open BitScan

variable {w N : Nat}

/-- `MultiIntBitSet::Iterator`: `m_val`, `m_pos` and `m_idx`. -/
structure Iterator (w : Nat) where
  val : BitVec w
  pos : Nat
  idx : Nat

/-- The search for a non-zero limb from limb `it.idx` on, in the constructor (a `do`/`while`
loop from limb `0`) and in `operator++` (a `while (true)` loop from the next limb): at a
non-zero limb it reports its lowest bit, past the last limb it stops. -/
def seek (s : MultiIntBitSet w N) (it : Iterator w) : Nat → Iterator w
  | 0 => it
  | fuel + 1 =>
    if it.idx < N then
      let v := s.limb it.idx
      if v ≠ 0 then ⟨v, countrZero v + it.idx * w, it.idx⟩ else seek s ⟨v, it.pos, it.idx + 1⟩ fuel
    else it

/-- `begin()`: the constructor `Iterator(m_val)`. -/
def begin (s : MultiIntBitSet w N) : Iterator w := s.seek ⟨0, 0, 0⟩ N

/-- `operator++`. -/
def next (s : MultiIntBitSet w N) (it : Iterator w) : Iterator w :=
  let v := it.val &&& (it.val - 1)
  if v = 0 then s.seek ⟨v, it.pos, it.idx + 1⟩ (N - (it.idx + 1)) else ⟨v, countrZero v + it.idx * w, it.idx⟩

/-- The positions `*it` of a range-`for`, until `it == end()`, for at most `fuel` steps. -/
def walk (s : MultiIntBitSet w N) : Nat → Iterator w → List Nat
  | 0, _ => []
  | fuel + 1, it => if it.idx = N then [] else it.pos :: s.walk fuel (s.next it)

/-- The positions `for (auto pos : s)` visits. Each step visits a position, so `w * N + 1` steps
are enough (`toList_spec`). -/
def toList (s : MultiIntBitSet w N) : List Nat := s.walk (w * N + 1) s.begin

/-- The `while (m_val[p] == 0) ++p;` loop of `First()` from limb `p`, at most `fuel` limbs. -/
def firstFrom (s : MultiIntBitSet w N) (p : Nat) : Nat → Nat
  | 0 => countrZero (s.limb p) + p * w
  | fuel + 1 => if s.limb p = 0 then s.firstFrom (p + 1) fuel else countrZero (s.limb p) + p * w

/-- `First()`. -/
def first (s : MultiIntBitSet w N) : Nat := s.firstFrom 0 N

/-- The `while (m_val[p] == 0) --p;` loop of `Last()` from limb `p`, at most `fuel` limbs. -/
def lastFrom (s : MultiIntBitSet w N) (p : Nat) : Nat → Nat
  | 0 => bitWidth (s.limb p) - 1 + p * w
  | fuel + 1 => if s.limb p = 0 then s.lastFrom (p - 1) fuel else bitWidth (s.limb p) - 1 + p * w

/-- `Last()`. -/
def last (s : MultiIntBitSet w N) : Nat := s.lastFrom (N - 1) N

/-- The positions still ahead of an iterator: the bits left in its limb, then the positions of
the later limbs. -/
def ahead (s : MultiIntBitSet w N) (it : Iterator w) : Finset Nat :=
  (Finset.range (w * N)).filter fun q => (q / w = it.idx ∧ it.val.getLsbD (q % w)) ∨ (it.idx < q / w ∧ s.get q)

/-- An iterator at `end()`, or one that reports the lowest bit left in its limb. -/
def Iterator.Valid (N : Nat) (it : Iterator w) : Prop :=
  it.idx = N ∨ (it.idx < N ∧ it.val ≠ 0 ∧ it.pos = countrZero it.val + it.idx * w)

theorem Iterator.Valid.lt_of_ne_end {it : Iterator w} (hv : Iterator.Valid N it) (hne : it.idx ≠ N) :
    it.idx < N :=
  (hv.resolve_left hne).1

section Iteration

variable (hw : 0 < w)
include hw

theorem mem_ahead {s : MultiIntBitSet w N} {it : Iterator w} {q : Nat} :
    q ∈ s.ahead it ↔ q < w * N ∧ ((q / w = it.idx ∧ it.val.getLsbD (q % w) = true) ∨
      (it.idx < q / w ∧ (s.limb (q / w)).getLsbD (q % w) = true)) := by
  rw [ahead, Finset.mem_filter, Finset.mem_range, get_eq hw]

/-- Nothing is ahead of an iterator at `end()`. -/
theorem not_mem_ahead_of_end {s : MultiIntBitSet w N} {it : Iterator w} (hend : it.idx = N) (q : Nat) :
    q ∉ s.ahead it := by
  rw [mem_ahead hw]
  rintro ⟨hq, h⟩
  have := pos_div_lt hw hq
  omega

omit hw in
/-- The lowest set bit of `v`, in limb `i`, is at or below every position that is a set bit of
`v` in limb `i` or lies in a later limb. -/
theorem lowest_le {v : BitVec w} (hv : v ≠ 0) {i q : Nat}
    (hq : (q / w = i ∧ v.getLsbD (q % w) = true) ∨ i < q / w) : countrZero v + i * w ≤ q := by
  obtain ⟨hlt, -, hbelow⟩ := countrZero_spec hv
  have hq' := Nat.div_add_mod' q w
  rcases hq with ⟨hdiv, hbit⟩ | hlater
  · -- in the same limb, a set bit is not below the lowest one
    have : countrZero v ≤ q % w := by
      by_contra hgt
      rw [hbelow _ (by omega)] at hbit
      exact absurd hbit (by decide)
    rw [hdiv] at hq'
    omega
  · have : (i + 1) * w ≤ q / w * w := Nat.mul_le_mul_right _ hlater
    rw [Nat.succ_mul] at this
    omega

/-- The search from limb `it.idx` ends valid, with the positions of the set from that limb on
ahead. -/
theorem seek_spec (s : MultiIntBitSet w N) (fuel : Nat) (it : Iterator w) (hidx : it.idx ≤ N)
    (hfuel : N - it.idx ≤ fuel) :
    Iterator.Valid N (s.seek it fuel) ∧
      ∀ q, q ∈ s.ahead (s.seek it fuel) ↔ q ∈ s.toFinset ∧ it.idx ≤ q / w := by
  -- past the last limb the search stops, with nothing ahead
  have hend : ∀ it' : Iterator w, it'.idx = N →
      Iterator.Valid N it' ∧ ∀ q, q ∈ s.ahead it' ↔ q ∈ s.toFinset ∧ it'.idx ≤ q / w := by
    intro it' h'
    refine ⟨.inl h', fun q => ⟨fun hq => absurd hq (not_mem_ahead_of_end hw h' q), fun hq => ?_⟩⟩
    have := pos_div_lt hw ((mem_toFinset hw).mp hq.1).1
    omega
  induction fuel generalizing it with
  | zero => exact hend it (by omega)
  | succ fuel ih =>
    rw [seek]
    split
    · next hlt =>
      dsimp only
      split
      · next hv =>
        refine ⟨.inr ⟨hlt, hv, rfl⟩, fun q => ?_⟩
        rw [mem_ahead hw, mem_toFinset hw]
        dsimp only
        constructor
        · rintro ⟨hq, ⟨hdiv, hbit⟩ | ⟨hlater, hbit⟩⟩
          · exact ⟨⟨hq, by rwa [hdiv]⟩, by omega⟩
          · exact ⟨⟨hq, hbit⟩, by omega⟩
        · rintro ⟨⟨hq, hbit⟩, hle⟩
          rcases Nat.eq_or_lt_of_le hle with heq | hlater
          · exact ⟨hq, .inl ⟨heq.symm, by rwa [heq]⟩⟩
          · exact ⟨hq, .inr ⟨hlater, hbit⟩⟩
      · next hv =>
        -- an empty limb: the search goes on from the next one, which loses no position
        obtain ⟨hvalid, hahead⟩ := ih ⟨s.limb it.idx, it.pos, it.idx + 1⟩ (by simp; omega) (by simp; omega)
        refine ⟨hvalid, fun q => (hahead q).trans ?_⟩
        dsimp only
        simp only [Decidable.not_not] at hv
        constructor
        · rintro ⟨hq, hle⟩
          exact ⟨hq, by omega⟩
        · rintro ⟨hq, hle⟩
          refine ⟨hq, ?_⟩
          rcases Nat.eq_or_lt_of_le hle with heq | hlater
          · have hbit := ((mem_toFinset hw).mp hq).2
            rw [← heq, hv] at hbit
            simp at hbit
          · exact hlater
    · next hge => exact hend it (by omega)

/-- `begin()` is valid, with the whole set ahead. -/
theorem valid_begin (s : MultiIntBitSet w N) :
    Iterator.Valid N s.begin ∧ ∀ q, q ∈ s.ahead s.begin ↔ q ∈ s.toFinset := by
  obtain ⟨hvalid, hahead⟩ := seek_spec hw s N ⟨0, 0, 0⟩ (Nat.zero_le _) (by simp)
  exact ⟨hvalid, fun q => (hahead q).trans ⟨And.left, fun hq => ⟨hq, Nat.zero_le _⟩⟩⟩

/-- A valid iterator not at `end()` reports the least position ahead. -/
theorem Iterator.Valid.pos_least {s : MultiIntBitSet w N} {it : Iterator w} (hv : Iterator.Valid N it)
    (hlt : it.idx < N) : it.pos ∈ s.ahead it ∧ ∀ q ∈ s.ahead it, it.pos ≤ q := by
  obtain ⟨-, hval, hpos⟩ := hv.resolve_left (by omega)
  obtain ⟨hctz, hbit, -⟩ := countrZero_spec hval
  obtain ⟨hdiv, hmod⟩ := div_mod_of_lt hw (i := it.idx) hctz
  refine ⟨?_, fun q hq => ?_⟩
  · rw [mem_ahead hw, hpos, Nat.add_comm, hdiv, hmod]
    exact ⟨mul_add_lt hlt hctz, .inl ⟨rfl, hbit⟩⟩
  · obtain ⟨-, hq⟩ := (mem_ahead hw).mp hq
    rw [hpos]
    exact lowest_le hval (hq.imp_right And.left)

/-- The step lemma: `operator++` keeps a valid iterator valid and removes the position it
reported from those ahead. -/
theorem Iterator.Valid.next {s : MultiIntBitSet w N} {it : Iterator w} (hv : Iterator.Valid N it)
    (hlt : it.idx < N) :
    Iterator.Valid N (s.next it) ∧ ∀ q, q ∈ s.ahead (s.next it) ↔ q ∈ (s.ahead it).erase it.pos := by
  obtain ⟨-, hval, hpos⟩ := hv.resolve_left (by omega)
  obtain ⟨hctz, -, -⟩ := countrZero_spec hval
  obtain ⟨hdiv, hmod⟩ := div_mod_of_lt hw (i := it.idx) hctz
  have hclear := getLsbD_and_sub_one hval
  -- the reported position is the lowest bit left, in limb `it.idx`
  have hpos_iff : ∀ q, q = it.pos ↔ q / w = it.idx ∧ q % w = countrZero it.val := by
    intro q
    rw [hpos, Nat.add_comm]
    constructor
    · rintro rfl
      exact ⟨hdiv, hmod⟩
    · rintro ⟨hqd, hqm⟩
      rw [← Nat.div_add_mod' q w, hqd, hqm]
  rw [MultiIntBitSet.next]
  split
  · next hzero =>
    -- the limb is spent: the search goes on from the next limb
    obtain ⟨hvalid, hahead⟩ := seek_spec hw s (N - (it.idx + 1)) ⟨it.val &&& (it.val - 1), it.pos, it.idx + 1⟩
      (by simp; omega) (by simp)
    refine ⟨hvalid, fun q => (hahead q).trans ?_⟩
    dsimp only
    have honly : ∀ j, it.val.getLsbD j = true → j = countrZero it.val := by
      intro j hj
      have := hclear j
      rw [hzero, hj] at this
      simpa using this
    rw [Finset.mem_erase, mem_ahead hw, mem_toFinset hw, Ne, hpos_iff]
    constructor
    · rintro ⟨⟨hq, hbit⟩, hle⟩
      exact ⟨fun h => by omega, hq, .inr ⟨by omega, hbit⟩⟩
    · rintro ⟨hne, hq, ⟨hqd, hbit⟩ | ⟨hlater, hbit⟩⟩
      · exact absurd ⟨hqd, honly _ hbit⟩ hne
      · exact ⟨⟨hq, hbit⟩, hlater⟩
  · next hnz =>
    refine ⟨.inr ⟨hlt, hnz, rfl⟩, fun q => ?_⟩
    rw [Finset.mem_erase, mem_ahead hw, mem_ahead hw, Ne, hpos_iff]
    dsimp only
    rw [hclear]
    simp only [Bool.and_eq_true, decide_eq_true_eq]
    constructor
    · rintro ⟨hq, ⟨hqd, hbit, hne⟩ | hlater⟩
      · exact ⟨fun h => hne h.2, hq, .inl ⟨hqd, hbit⟩⟩
      · exact ⟨fun h => by omega, hq, .inr hlater⟩
    · rintro ⟨hne, hq, ⟨hqd, hbit⟩ | hlater⟩
      · exact ⟨hq, .inl ⟨hqd, hbit, fun h => hne ⟨hqd, h⟩⟩⟩
      · exact ⟨hq, .inr hlater⟩

/-- The run lemma: from a valid iterator, with more steps than positions ahead, the walk visits
exactly those positions, in increasing order. -/
theorem walk_spec (s : MultiIntBitSet w N) {fuel : Nat} {it : Iterator w} (hv : Iterator.Valid N it)
    (hfuel : (s.ahead it).card < fuel) :
    (s.walk fuel it).Pairwise (· < ·) ∧ ∀ q, q ∈ s.walk fuel it ↔ q ∈ s.ahead it := by
  induction fuel generalizing it with
  | zero => omega
  | succ fuel ih =>
    rw [walk]
    split
    · next hend =>
      exact ⟨List.Pairwise.nil, fun q => ⟨fun h => absurd h List.not_mem_nil, fun h => absurd h (not_mem_ahead_of_end hw hend q)⟩⟩
    · next hne =>
      have hlt := hv.lt_of_ne_end hne
      obtain ⟨hmem, hleast⟩ := hv.pos_least hw hlt
      obtain ⟨hvalid, hahead⟩ := hv.next hw hlt (s := s)
      have hcard : (s.ahead (s.next it)).card < fuel := by
        have : s.ahead (s.next it) = (s.ahead it).erase it.pos := Finset.ext hahead
        have hpos := Finset.card_pos.mpr ⟨_, hmem⟩
        rw [this, Finset.card_erase_of_mem hmem]
        omega
      obtain ⟨hsorted, hwalk⟩ := ih hvalid hcard
      refine ⟨List.pairwise_cons.mpr ⟨fun q hq => ?_, hsorted⟩, fun q => ?_⟩
      · obtain ⟨hqne, hq⟩ := Finset.mem_erase.mp ((hahead q).mp ((hwalk q).mp hq))
        exact Nat.lt_of_le_of_ne (hleast q hq) (Ne.symm hqne)
      · rw [List.mem_cons, hwalk, hahead, Finset.mem_erase]
        constructor
        · rintro (rfl | ⟨-, hq⟩)
          · exact hmem
          · exact hq
        · intro hq
          by_cases hqp : q = it.pos
          · exact .inl hqp
          · exact .inr ⟨hqp, hq⟩

/-- `for (auto pos : s)` visits the positions of the set in increasing order. -/
theorem toList_spec (s : MultiIntBitSet w N) :
    s.toList.Pairwise (· < ·) ∧ ∀ q, q ∈ s.toList ↔ q ∈ s.toFinset := by
  obtain ⟨hvalid, hahead⟩ := valid_begin hw s
  have hcard : (s.ahead s.begin).card < w * N + 1 := by
    have : s.ahead s.begin = s.toFinset := Finset.ext hahead
    rw [this, toFinset]
    exact Nat.lt_succ_of_le ((Finset.card_filter_le _ _).trans (Finset.card_range _).le)
  obtain ⟨hsorted, hwalk⟩ := walk_spec hw s hvalid hcard
  exact ⟨hsorted, fun q => (hwalk q).trans (hahead q)⟩

theorem iterate_next_of_valid (s : MultiIntBitSet w N) :
    ∀ n (it : Iterator w), Iterator.Valid N it → (s.ahead it).card = n → ((s.next)^[n] it).idx = N := by
  intro n
  induction n with
  | zero =>
    intro it hv hcard
    by_contra hne
    -- a valid iterator before `end()` has its reported position ahead
    have := Finset.card_pos.mpr ⟨_, (hv.pos_least hw (hv.lt_of_ne_end hne) (s := s)).1⟩
    omega
  | succ n ih =>
    intro it hv hcard
    have hlt : it.idx < N := by
      refine hv.lt_of_ne_end fun hend => ?_
      have := Finset.card_eq_zero.mpr (Finset.eq_empty_of_forall_notMem (not_mem_ahead_of_end hw hend (s := s)))
      omega
    obtain ⟨hmem, -⟩ := hv.pos_least hw hlt (s := s)
    obtain ⟨hvalid, hahead⟩ := hv.next hw hlt (s := s)
    rw [Function.iterate_succ_apply]
    apply ih _ hvalid
    rw [Finset.ext hahead, Finset.card_erase_of_mem hmem, hcard]
    rfl

/-- The range-`for` reaches `end()` after as many steps as the set has elements. -/
theorem iterate_next_begin (s : MultiIntBitSet w N) : ((s.next)^[s.toFinset.card] s.begin).idx = N := by
  obtain ⟨hvalid, hahead⟩ := valid_begin hw s
  exact iterate_next_of_valid hw s _ _ hvalid (by rw [Finset.ext hahead])

/-- The highest set bit of `v`, in limb `i`, is at or above every position that is a set bit of
`v` in limb `i` or lies in an earlier limb. -/
theorem le_highest {v : BitVec w} (hv : v ≠ 0) {i q : Nat}
    (hq : (q / w = i ∧ v.getLsbD (q % w) = true) ∨ q / w < i) : q ≤ bitWidth v - 1 + i * w := by
  obtain ⟨hpos, hle, -, habove⟩ := bitWidth_spec hv
  have hq' := Nat.div_add_mod' q w
  rcases hq with ⟨hdiv, hbit⟩ | hearlier
  · -- in the same limb, a set bit is not above the highest one
    have : q % w < bitWidth v := by
      by_contra hge
      rw [habove _ (by omega)] at hbit
      exact absurd hbit (by decide)
    rw [hdiv] at hq'
    omega
  · have : (q / w + 1) * w ≤ i * w := Nat.mul_le_mul_right _ hearlier
    have hmod := Nat.mod_lt q hw
    rw [Nat.succ_mul] at this
    omega

omit hw in
/-- A non-zero limb lies below `N`. -/
theorem lt_of_limb_ne_zero {s : MultiIntBitSet w N} {p : Nat} (hp : s.limb p ≠ 0) : p < N := by
  by_contra hge
  exact hp (dif_neg hge)

/-- A set bit of limb `p` is a position of the set. -/
theorem mem_toFinset_of_limb {s : MultiIntBitSet w N} {p j : Nat} (hj : j < w)
    (hbit : (s.limb p).getLsbD j = true) : j + p * w ∈ s.toFinset := by
  have hp : p < N := lt_of_limb_ne_zero (s := s) fun h => by simp [h] at hbit
  obtain ⟨hdiv, hmod⟩ := div_mod_of_lt hw (i := p) hj
  rw [mem_toFinset hw, Nat.add_comm, hdiv, hmod]
  exact ⟨mul_add_lt hp hj, hbit⟩

/-- The run lemma of `First()`: from limb `p`, with the limbs below `p` empty, the scan returns
the least position. -/
theorem firstFrom_eq_min' (s : MultiIntBitSet w N) (hne : s.toFinset.Nonempty) :
    ∀ fuel p, (∀ i < p, s.limb i = 0) → N - p ≤ fuel → s.firstFrom p fuel = s.toFinset.min' hne := by
  -- every position lies at or after the first limb not known to be empty
  have hafter : ∀ p, (∀ i < p, s.limb i = 0) → ∀ q ∈ s.toFinset, p ≤ q / w := by
    intro p hbelow q hq
    by_contra hlt
    have hbit := ((mem_toFinset hw).mp hq).2
    rw [hbelow _ (by omega)] at hbit
    simp at hbit
  intro fuel
  induction fuel with
  | zero =>
    intro p hbelow hfuel
    have hmin := hafter p hbelow _ (s.toFinset.min'_mem hne)
    have := pos_div_lt hw ((mem_toFinset hw).mp (s.toFinset.min'_mem hne)).1
    omega
  | succ fuel ih =>
    intro p hbelow hfuel
    rw [firstFrom]
    split
    · next hzero =>
      refine ih (p + 1) (fun i hi => ?_) (by omega)
      rcases Nat.lt_succ_iff_lt_or_eq.mp hi with hlt | rfl
      · exact hbelow i hlt
      · exact hzero
    · next hv =>
      -- the lowest bit of the first non-empty limb is below every position
      obtain ⟨hctz, hbit, -⟩ := countrZero_spec hv
      have hmem := mem_toFinset_of_limb hw hctz hbit
      refine le_antisymm (Finset.le_min' _ _ _ fun q hq => lowest_le hv ?_) (Finset.min'_le _ _ hmem)
      rcases Nat.eq_or_lt_of_le (hafter p hbelow q hq) with heq | hlater
      · refine .inl ⟨heq.symm, ?_⟩
        have := ((mem_toFinset hw).mp hq).2
        rwa [← heq] at this
      · exact .inr hlater

/-- `First()` of a non-empty set is its least position. -/
theorem first_eq_min' (s : MultiIntBitSet w N) (hne : s.toFinset.Nonempty) : s.first = s.toFinset.min' hne :=
  firstFrom_eq_min' hw s hne N 0 (fun _ h => absurd h (Nat.not_lt_zero _)) (Nat.sub_le _ _)

/-- The run lemma of `Last()`: from limb `p`, with the limbs above `p` empty, the scan returns
the greatest position. -/
theorem lastFrom_eq_max' (s : MultiIntBitSet w N) (hne : s.toFinset.Nonempty) :
    ∀ fuel p, (∀ i, p < i → s.limb i = 0) → p < fuel → s.lastFrom p fuel = s.toFinset.max' hne := by
  -- every position lies at or before the last limb not known to be empty
  have hbefore : ∀ p, (∀ i, p < i → s.limb i = 0) → ∀ q ∈ s.toFinset, q / w ≤ p := by
    intro p habove q hq
    by_contra hgt
    have hbit := ((mem_toFinset hw).mp hq).2
    rw [habove _ (by omega)] at hbit
    simp at hbit
  intro fuel
  induction fuel with
  | zero => intro p _ hfuel; omega
  | succ fuel ih =>
    intro p habove hfuel
    rw [lastFrom]
    split
    · next hzero =>
      -- limb `p` is empty too, so the set lies below it and `p` is not limb `0`
      have habove' : ∀ i, p ≤ i → s.limb i = 0 := by
        intro i hi
        rcases Nat.eq_or_lt_of_le hi with rfl | hlt
        · exact hzero
        · exact habove i hlt
      have hmax := (mem_toFinset hw).mp (s.toFinset.max'_mem hne)
      have hp : (s.toFinset.max' hne) / w < p := by
        by_contra hge
        have hbit := hmax.2
        rw [habove' _ (by omega)] at hbit
        simp at hbit
      have : 0 < p := Nat.lt_of_le_of_lt (Nat.zero_le _) hp
      exact ih (p - 1) (fun i hi => habove' i (by omega)) (by omega)
    · next hv =>
      -- the highest bit of the last non-empty limb is above every position
      obtain ⟨hpos, hle, hbit, -⟩ := bitWidth_spec hv
      have hmem := mem_toFinset_of_limb hw (by omega) hbit
      refine le_antisymm (Finset.le_max' _ _ hmem) (Finset.max'_le _ _ _ fun q hq => le_highest hw hv ?_)
      rcases Nat.eq_or_lt_of_le (hbefore p habove q hq) with heq | hearlier
      · refine .inl ⟨heq, ?_⟩
        have := ((mem_toFinset hw).mp hq).2
        rwa [heq] at this
      · exact .inr hearlier

/-- `Last()` of a non-empty set is its greatest position. -/
theorem last_eq_max' (s : MultiIntBitSet w N) (hne : s.toFinset.Nonempty) : s.last = s.toFinset.max' hne := by
  obtain ⟨q, hq⟩ := hne
  have hN : 0 < N := Nat.lt_of_le_of_lt (Nat.zero_le _) (pos_div_lt hw ((mem_toFinset hw).mp hq).1)
  exact lastFrom_eq_max' hw s _ N (N - 1) (fun i hi => dif_neg (by omega)) (by omega)

end Iteration

/-- `MultiIntBitSet<I, N>` implements the finite set of its positions, for the unsigned limb
widths `PopCount` takes: iteration, `Count()`, `None()`, `First()`, `Last()`, `Fill`, the
single-position writes and reads, and the set operators and tests. -/
theorem multiIntBitSet_refines_finset (hw : w = 8 ∨ w = 16 ∨ w = 32 ∨ w = 64) (s : MultiIntBitSet w N) :
    (s.toList.Pairwise (· < ·) ∧ (∀ p, p ∈ s.toList ↔ p ∈ s.toFinset) ∧
      ((s.next)^[s.toFinset.card] s.begin).idx = N) ∧
    s.count = s.toFinset.card ∧
    (s.none = true ↔ s.toFinset = ∅) ∧
    (∀ hne : s.toFinset.Nonempty, s.first = s.toFinset.min' hne ∧ s.last = s.toFinset.max' hne) ∧
    (∀ c ≤ w * N, (fill c : MultiIntBitSet w N).toFinset = Finset.range c) ∧
    (∀ p < w * N, (singleton p : MultiIntBitSet w N).toFinset = {p} ∧
      (s.set p).toFinset = insert p s.toFinset ∧ (s.reset p).toFinset = s.toFinset.erase p ∧
      (∀ val, (s.setTo p val).toFinset = if val then insert p s.toFinset else s.toFinset.erase p) ∧
      (s.get p = true ↔ p ∈ s.toFinset)) ∧
    ∀ a : MultiIntBitSet w N,
      (s ||| a).toFinset = s.toFinset ∪ a.toFinset ∧ (s &&& a).toFinset = s.toFinset ∩ a.toFinset ∧
      (s - a).toFinset = s.toFinset \ a.toFinset ∧ (s ^^^ a).toFinset = symmDiff s.toFinset a.toFinset ∧
      (s.overlaps a = true ↔ (s.toFinset ∩ a.toFinset).Nonempty) ∧
      (s.isSubsetOf a = true ↔ s.toFinset ⊆ a.toFinset) ∧ (s.isSupersetOf a = true ↔ a.toFinset ⊆ s.toFinset) := by
  have hpos : 0 < w := by omega
  obtain ⟨hsorted, hmem⟩ := toList_spec hpos s
  refine ⟨⟨hsorted, hmem, iterate_next_begin hpos s⟩, count_eq_card hw s, none_iff hpos s,
    fun hne => ⟨first_eq_min' hpos s hne, last_eq_max' hpos s hne⟩, fun c hc => toFinset_fill hpos hc,
    fun p hp => ⟨toFinset_singleton hpos hp, toFinset_set hpos s hp, toFinset_reset hpos s hp,
      toFinset_setTo hpos s hp, get_iff_mem hpos s hp⟩, fun a => ?_⟩
  exact ⟨toFinset_or hpos s a, toFinset_and hpos s a, toFinset_sub hpos s a, toFinset_xor hpos s a,
    overlaps_iff hpos s a, isSubsetOf_iff hpos s a, isSupersetOf_iff hpos s a⟩

/-- Two byte limbs holding `{0, 2, 15}`. -/
def twoBytes : MultiIntBitSet 8 2 := ⟨#v[5, 128]⟩

theorem multiIntBitSet_refines_finset_twoBytes :
    (8 = 8 ∨ 8 = 16 ∨ 8 = 32 ∨ 8 = 64) ∧ twoBytes.count = twoBytes.toFinset.card ∧ twoBytes.toList = [0, 2, 15] :=
  ⟨.inl rfl, (multiIntBitSet_refines_finset (.inl rfl) twoBytes).2.1, by decide⟩

end MultiIntBitSet

end Riecoin
