-- SUMMARY: MultiIntBitSet of util/bitset.h over limbs of any width: the set of positions it denotes, with Set, Reset, operator[], Singleton, Fill, |, &, -, ^, Overlaps, IsSubsetOf, IsSupersetOf, None and the PopCount-based Count as operations on that set.
import Riecoin.Lib.PopCount
import Riecoin.Lib.BitScan
import Mathlib.Algebra.BigOperators.Group.Finset.Basic
import Mathlib.Data.Fintype.BigOperators

/-!
# MultiIntBitSet

`MultiIntBitSet<I, N>` (`util/bitset.h`) keeps `N` limbs (`m_val`) of an unsigned integer type
`I` of `w` bits (`LIMB_BITS`); position `p` below `w * N` (`MAX_SIZE`) is bit `p % w` of limb
`p / w`. A limb is a `BitVec w`. The class asserts `N > 0`, and `I` unsigned has `w > 0` bits:
these are the hypotheses `hw` and `hN` of the lemmas that need them. Positions are `Nat`; the
third assertion keeps `MAX_SIZE` within `unsigned`, so nothing wraps.

The set a value denotes is `toFinset`: the positions below `MAX_SIZE` whose bit is set. The
member functions with `Assume(pos < MAX_SIZE)` read `false` and write nothing past the limbs;
their lemmas take `pos < w * N`.

`PopCount` is the branch-free count of `bitset_detail`; for the unsigned types (of 8, 16, 32
or 64 bits) it counts the set bits (`popCount_eq`), by `Riecoin.Lib.PopCount`.
-/

namespace Riecoin

/-- `MultiIntBitSet<I, N>` with `I` of `w` bits: the limbs `m_val`. -/
structure MultiIntBitSet (w N : Nat) where
  val : Vector (BitVec w) N
  deriving DecidableEq

namespace MultiIntBitSet

open PopCount BitScan

variable {w N : Nat}

-- ---------------------------------------------------------------------------
-- Limbs and single positions
-- ---------------------------------------------------------------------------

/-- Limb `i` of `m_val`; zero past the last limb. -/
def limb (s : MultiIntBitSet w N) (i : Nat) : BitVec w := if h : i < N then s.val[i] else 0

/-- `m_val[i] = v`; nothing past the last limb. -/
def setLimb (s : MultiIntBitSet w N) (i : Nat) (v : BitVec w) : MultiIntBitSet w N :=
  if h : i < N then ⟨s.val.set i v h⟩ else s

/-- `MultiIntBitSet()`: every limb zero. -/
def empty : MultiIntBitSet w N := ⟨Vector.replicate N 0⟩

/-- `operator[](pos)`. -/
def get (s : MultiIntBitSet w N) (pos : Nat) : Bool := (s.limb (pos / w) >>> (pos % w) &&& 1#w) != 0#w

/-- `Set(pos)`. -/
def set (s : MultiIntBitSet w N) (pos : Nat) : MultiIntBitSet w N :=
  s.setLimb (pos / w) (s.limb (pos / w) ||| 1#w <<< (pos % w))

/-- `Set(pos, val)`. -/
def setTo (s : MultiIntBitSet w N) (pos : Nat) (val : Bool) : MultiIntBitSet w N :=
  s.setLimb (pos / w) (s.limb (pos / w) &&& ~~~(1#w <<< (pos % w)) ||| BitVec.ofNat w val.toNat <<< (pos % w))

/-- `Reset(pos)`. -/
def reset (s : MultiIntBitSet w N) (pos : Nat) : MultiIntBitSet w N :=
  s.setLimb (pos / w) (s.limb (pos / w) &&& ~~~(1#w <<< (pos % w)))

/-- `Singleton(pos)`. -/
def singleton (pos : Nat) : MultiIntBitSet w N := empty.setLimb (pos / w) (1#w <<< (pos % w))

/-- The `while (count > LIMB_BITS)` loop of `Fill` from limb `i`, then the write of the last
limb, with at most `fuel` limbs written. -/
def fillLoop (ret : MultiIntBitSet w N) (i count : Nat) : Nat → MultiIntBitSet w N
  | 0 => ret
  | fuel + 1 =>
    if count > w then fillLoop (ret.setLimb i (BitVec.allOnes w)) (i + 1) (count - w) fuel
    else ret.setLimb i (BitVec.allOnes w >>> (w - count))

/-- `Fill(count)`. -/
def fill (count : Nat) : MultiIntBitSet w N := if count ≠ 0 then fillLoop empty 0 count N else empty

-- ---------------------------------------------------------------------------
-- Limbwise operators and tests
-- ---------------------------------------------------------------------------

/-- The limbwise operators: limb `i` of the result is `f` of the two limbs `i`. -/
def zipLimbs (f : BitVec w → BitVec w → BitVec w) (a b : MultiIntBitSet w N) : MultiIntBitSet w N :=
  ⟨Vector.ofFn fun i => f a.val[i] b.val[i]⟩

/-- `operator|` and `operator|=`. -/
instance : OrOp (MultiIntBitSet w N) := ⟨zipLimbs (· ||| ·)⟩

/-- `operator&` and `operator&=`. -/
instance : AndOp (MultiIntBitSet w N) := ⟨zipLimbs (· &&& ·)⟩

/-- `operator-` and `operator-=`: `a & ~b` limbwise. -/
instance : Sub (MultiIntBitSet w N) := ⟨zipLimbs fun x y => x &&& ~~~y⟩

/-- `operator^` and `operator^=`. -/
instance : XorOp (MultiIntBitSet w N) := ⟨zipLimbs (· ^^^ ·)⟩

/-- The limbwise tests: whether `f` holds of some, or of every, pair of limbs `i`. -/
def anyLimbs (f : BitVec w → BitVec w → Bool) (a b : MultiIntBitSet w N) : Bool :=
  (List.finRange N).any fun i => f a.val[i] b.val[i]

def allLimbs (f : BitVec w → BitVec w → Bool) (a b : MultiIntBitSet w N) : Bool :=
  (List.finRange N).all fun i => f a.val[i] b.val[i]

/-- `Overlaps(a)`. -/
def overlaps (s a : MultiIntBitSet w N) : Bool := anyLimbs (fun x y => (x &&& y) != 0) s a

/-- `IsSupersetOf(a)`: no bit of `a` outside this set. -/
def isSupersetOf (s a : MultiIntBitSet w N) : Bool := allLimbs (fun x y => (y &&& ~~~x) == 0) s a

/-- `IsSubsetOf(a)`: no bit of this set outside `a`. -/
def isSubsetOf (s a : MultiIntBitSet w N) : Bool := allLimbs (fun x y => (x &&& ~~~y) == 0) s a

/-- `None()`. -/
def none (s : MultiIntBitSet w N) : Bool := (List.finRange N).all fun i => s.val[i] == 0

/-- `Any()`. -/
def any (s : MultiIntBitSet w N) : Bool := !s.none

-- ---------------------------------------------------------------------------
-- PopCount and Count
-- ---------------------------------------------------------------------------

/-- The three masking steps of `PopCount`, with the masks of its branch. -/
def popCountStages (m85 m51 m15 : Nat) (v : BitVec w) : BitVec w :=
  let v := v - (v >>> 1 &&& BitVec.ofNat w m85)
  let v := (v &&& BitVec.ofNat w m51) + (v >>> 2 &&& BitVec.ofNat w m51)
  (v + (v >>> 4)) &&& BitVec.ofNat w m15

/-- `PopCount<I>(v)`, for `I` of at most 64 bits. -/
def popCount (v : BitVec w) : Nat :=
  if w ≤ 32 then
    let v := popCountStages 0x55555555 0x33333333 0x0f0f0f0f v
    let v := if w > 8 then v + (v >>> 8) else v
    let v := if w > 16 then v + (v >>> 16) else v
    (v &&& 0x3f#w).toNat
  else
    let v := popCountStages 0x5555555555555555 0x3333333333333333 0x0f0f0f0f0f0f0f0f v
    ((v.setWidth 64 * 0x0101010101010101#64) >>> 56).toNat

/-- `Count()`: the limbs' `PopCount`s added. -/
def count (s : MultiIntBitSet w N) : Nat := ∑ i : Fin N, popCount s.val[i]

-- ---------------------------------------------------------------------------
-- The set of positions
-- ---------------------------------------------------------------------------

/-- The positions below `MAX_SIZE` whose bit is set. -/
def toFinset (s : MultiIntBitSet w N) : Finset Nat := (Finset.range (w * N)).filter fun p => s.get p

-- ---------------------------------------------------------------------------
-- Bits of a limb
-- ---------------------------------------------------------------------------

/-- The one bit of `1 << b`, for `b` inside the limb. -/
theorem getLsbD_one_shiftLeft {b : Nat} (hb : b < w) (j : Nat) : (1#w <<< b).getLsbD j = decide (j = b) := by
  rw [BitVec.getLsbD_shiftLeft, BitVec.getLsbD_one]
  by_cases hjb : j = b
  · simp [hjb, hb, show 0 < w by omega]
  · by_cases hj : j < b
    · simp [hj, hjb]
    · simp [hj, hjb, show j - b ≠ 0 by omega]

/-- `operator[]` reads bit `pos % w` of limb `pos / w`. -/
theorem shiftRight_and_one_ne_zero (hw : 0 < w) (x : BitVec w) (b : Nat) :
    ((x >>> b &&& 1#w) != 0#w) = x.getLsbD b := by
  have hbit : ∀ j < w, (x >>> b &&& 1#w).getLsbD j = (x.getLsbD b && decide (j = 0)) := by
    intro j _
    rw [BitVec.getLsbD_and, BitVec.getLsbD_ushiftRight, BitVec.getLsbD_one]
    by_cases hj : j = 0
    · simp [hj, hw]
    · simp [hj]
  cases hx : x.getLsbD b
  · have h0 : (x >>> b &&& 1#w) = 0#w :=
      (eq_zero_iff_getLsbD _).mpr fun j hj => by rw [hbit j hj, hx, Bool.false_and]
    simp [h0]
  · have h0 : (x >>> b &&& 1#w) ≠ 0#w := fun h0 => by
      have := ((eq_zero_iff_getLsbD _).mp h0) 0 hw
      rw [hbit 0 hw, hx] at this
      exact absurd this (by decide)
    simp [h0]

-- ---------------------------------------------------------------------------
-- Positions
-- ---------------------------------------------------------------------------

section Positions

variable (hw : 0 < w)
include hw

theorem div_mod_of_lt {i j : Nat} (hj : j < w) : (i * w + j) / w = i ∧ (i * w + j) % w = j := by
  constructor
  · rw [Nat.add_comm, Nat.add_mul_div_right _ _ hw, Nat.div_eq_of_lt hj, Nat.zero_add]
  · rw [Nat.add_comm, Nat.add_mul_mod_self_right, Nat.mod_eq_of_lt hj]

omit hw in
theorem mul_add_lt {i j : Nat} (hi : i < N) (hj : j < w) : i * w + j < w * N :=
  calc i * w + j < i * w + w := Nat.add_lt_add_left hj _
    _ = (i + 1) * w := (Nat.succ_mul i w).symm
    _ ≤ N * w := Nat.mul_le_mul_right _ hi
    _ = w * N := Nat.mul_comm _ _

/-- A position below `w * N` is a limb below `N` and a bit below `w`, and back. -/
theorem exists_pos_iff {P : Nat → Nat → Prop} :
    (∃ q, q < w * N ∧ P (q / w) (q % w)) ↔ ∃ i < N, ∃ j < w, P i j := by
  constructor
  · rintro ⟨q, hq, hP⟩
    exact ⟨q / w, (Nat.div_lt_iff_lt_mul hw).mpr (by rwa [Nat.mul_comm]), q % w, Nat.mod_lt _ hw, hP⟩
  · rintro ⟨i, hi, j, hj, hP⟩
    obtain ⟨hdiv, hmod⟩ := div_mod_of_lt hw (i := i) hj
    exact ⟨i * w + j, mul_add_lt hi hj, by rwa [hdiv, hmod]⟩

theorem forall_pos_iff {P : Nat → Nat → Prop} :
    (∀ q, q < w * N → P (q / w) (q % w)) ↔ ∀ i < N, ∀ j < w, P i j := by
  have h := exists_pos_iff hw (N := N) (P := fun i j => ¬P i j)
  constructor
  · intro hall i hi j hj
    by_contra hP
    obtain ⟨q, hq, hnq⟩ := h.mpr ⟨i, hi, j, hj, hP⟩
    exact hnq (hall q hq)
  · intro hall q hq
    by_contra hP
    obtain ⟨i, hi, j, hj, hnP⟩ := h.mp ⟨q, hq, hP⟩
    exact hnP (hall i hi j hj)

omit hw in
theorem limb_of_lt (s : MultiIntBitSet w N) {i : Nat} (hi : i < N) : s.limb i = s.val[i] := dif_pos hi

theorem get_eq (s : MultiIntBitSet w N) (pos : Nat) : s.get pos = (s.limb (pos / w)).getLsbD (pos % w) :=
  shiftRight_and_one_ne_zero hw _ _

theorem mem_toFinset {s : MultiIntBitSet w N} {p : Nat} :
    p ∈ s.toFinset ↔ p < w * N ∧ (s.limb (p / w)).getLsbD (p % w) = true := by
  rw [toFinset, Finset.mem_filter, Finset.mem_range, get_eq hw]

/-- A bitset is determined by the set it denotes: `operator==` compares sets. -/
theorem eq_of_toFinset_eq {a b : MultiIntBitSet w N} (h : a.toFinset = b.toFinset) : a = b := by
  have hbits : ∀ i < N, ∀ j < w, (a.limb i).getLsbD j = (b.limb i).getLsbD j := by
    refine (forall_pos_iff hw (P := fun i j => (a.limb i).getLsbD j = (b.limb i).getLsbD j)).mp ?_
    intro q hq
    have hmem := congrArg (q ∈ ·) h
    simp only [mem_toFinset hw, eq_iff_iff, hq, true_and] at hmem
    exact Bool.eq_iff_iff.mpr hmem
  cases a with | mk va => cases b with | mk vb =>
  congr 1
  apply Vector.ext
  intro i hi
  apply BitVec.eq_of_getLsbD_eq
  intro j hj
  have := hbits i hi j hj
  rwa [limb_of_lt _ hi, limb_of_lt _ hi] at this

theorem eq_iff_toFinset_eq {a b : MultiIntBitSet w N} : a = b ↔ a.toFinset = b.toFinset :=
  ⟨congrArg _, eq_of_toFinset_eq hw⟩

end Positions

-- ---------------------------------------------------------------------------
-- Writing one limb: Set, Reset, Set(pos, val), Singleton, operator[]
-- ---------------------------------------------------------------------------

theorem limb_setLimb (s : MultiIntBitSet w N) {i : Nat} (hi : i < N) (v : BitVec w) (j : Nat) :
    (s.setLimb i v).limb j = if j = i then v else s.limb j := by
  unfold setLimb limb
  rw [dif_pos hi]
  by_cases hj : j < N
  · simp only [dif_pos hj, Vector.getElem_set]
    by_cases hji : j = i
    · simp [hji]
    · simp [hji, Ne.symm hji]
  · simp only [dif_neg hj]
    rw [if_neg (by omega)]

@[simp] theorem limb_empty (i : Nat) : (empty : MultiIntBitSet w N).limb i = 0 := by
  unfold limb empty
  split <;> simp

section Write

variable (hw : 0 < w)
include hw

/-- Writing limb `i` changes the positions of that limb only. -/
theorem mem_toFinset_setLimb (s : MultiIntBitSet w N) {i : Nat} (hi : i < N) (v : BitVec w) (q : Nat) :
    q ∈ (s.setLimb i v).toFinset ↔ if q / w = i then q < w * N ∧ v.getLsbD (q % w) = true else q ∈ s.toFinset := by
  rw [mem_toFinset hw, limb_setLimb s hi, mem_toFinset hw]
  split <;> rfl

@[simp] theorem toFinset_empty : (empty : MultiIntBitSet w N).toFinset = ∅ := by
  ext q
  simp [mem_toFinset hw]

theorem pos_div_lt {p : Nat} (hp : p < w * N) : p / w < N :=
  (Nat.div_lt_iff_lt_mul hw).mpr (by rwa [Nat.mul_comm])

omit hw in
theorem eq_of_div_mod_eq {p q : Nat} (hdiv : q / w = p / w) : q = p ↔ q % w = p % w := by
  constructor
  · rintro rfl
    rfl
  · intro hmod
    rw [← Nat.div_add_mod q w, ← Nat.div_add_mod p w, hdiv, hmod]

/-- `operator[](pos)` tells whether `pos` is in the set. -/
theorem get_iff_mem (s : MultiIntBitSet w N) {p : Nat} (hp : p < w * N) : s.get p = true ↔ p ∈ s.toFinset := by
  rw [get_eq hw, mem_toFinset hw]
  exact ⟨fun h => ⟨hp, h⟩, And.right⟩

/-- `Set(pos)` adds `pos`. -/
theorem toFinset_set (s : MultiIntBitSet w N) {p : Nat} (hp : p < w * N) : (s.set p).toFinset = insert p s.toFinset := by
  ext q
  rw [set, mem_toFinset_setLimb hw s (pos_div_lt hw hp), Finset.mem_insert, mem_toFinset hw]
  split
  · next hdiv =>
    rw [BitVec.getLsbD_or, getLsbD_one_shiftLeft (Nat.mod_lt _ hw), hdiv]
    by_cases hmod : q % w = p % w
    · have hqp : q = p := (eq_of_div_mod_eq hdiv).mpr hmod
      subst hqp
      simp [hp]
    · have hqp : q ≠ p := fun h => hmod ((eq_of_div_mod_eq hdiv).mp h)
      simp [hmod, hqp]
  · next hdiv =>
    have hqp : q ≠ p := fun h => hdiv (h ▸ rfl)
    simp [hqp]

/-- `Reset(pos)` removes `pos`. -/
theorem toFinset_reset (s : MultiIntBitSet w N) {p : Nat} (hp : p < w * N) : (s.reset p).toFinset = s.toFinset.erase p := by
  ext q
  rw [reset, mem_toFinset_setLimb hw s (pos_div_lt hw hp), Finset.mem_erase, mem_toFinset hw]
  split
  · next hdiv =>
    rw [BitVec.getLsbD_and, BitVec.getLsbD_not, getLsbD_one_shiftLeft (Nat.mod_lt _ hw), hdiv]
    by_cases hmod : q % w = p % w
    · have hqp : q = p := (eq_of_div_mod_eq hdiv).mpr hmod
      simp [hqp]
    · have hqp : q ≠ p := fun h => hmod ((eq_of_div_mod_eq hdiv).mp h)
      simp [hmod, hqp, Nat.mod_lt _ hw]
  · next hdiv =>
    have hqp : q ≠ p := fun h => hdiv (h ▸ rfl)
    simp [hqp]

/-- `Set(pos, val)` adds `pos` when `val` and removes it otherwise. -/
theorem toFinset_setTo (s : MultiIntBitSet w N) {p : Nat} (hp : p < w * N) (val : Bool) :
    (s.setTo p val).toFinset = if val then insert p s.toFinset else s.toFinset.erase p := by
  have hbit : ∀ j, (BitVec.ofNat w val.toNat <<< (p % w)).getLsbD j = (val && decide (j = p % w)) := by
    intro j
    cases val
    · simp
    · exact getLsbD_one_shiftLeft (Nat.mod_lt _ hw) j
  ext q
  rw [setTo, mem_toFinset_setLimb hw s (pos_div_lt hw hp)]
  split
  · next hdiv =>
    rw [BitVec.getLsbD_or, BitVec.getLsbD_and, BitVec.getLsbD_not, getLsbD_one_shiftLeft (Nat.mod_lt _ hw), hbit]
    by_cases hmod : q % w = p % w
    · have hqp : q = p := (eq_of_div_mod_eq hdiv).mpr hmod
      subst hqp
      cases val <;> simp [hp]
    · have hqp : q ≠ p := fun h => hmod ((eq_of_div_mod_eq hdiv).mp h)
      cases val <;> simp [hmod, hqp, Nat.mod_lt _ hw, mem_toFinset hw, hdiv]
  · next hdiv =>
    have hqp : q ≠ p := fun h => hdiv (h ▸ rfl)
    cases val <;> simp [hqp]

/-- `Singleton(pos)` is `{pos}`. -/
theorem toFinset_singleton {p : Nat} (hp : p < w * N) : (singleton p : MultiIntBitSet w N).toFinset = {p} := by
  ext q
  rw [singleton, mem_toFinset_setLimb hw _ (pos_div_lt hw hp), Finset.mem_singleton]
  split
  · next hdiv =>
    rw [getLsbD_one_shiftLeft (Nat.mod_lt _ hw)]
    by_cases hmod : q % w = p % w
    · have hqp : q = p := (eq_of_div_mod_eq hdiv).mpr hmod
      subst hqp
      simp [hp]
    · have hqp : q ≠ p := fun h => hmod ((eq_of_div_mod_eq hdiv).mp h)
      simp [hmod, hqp]
  · next hdiv =>
    have hqp : q ≠ p := fun h => hdiv (h ▸ rfl)
    simp [hqp, toFinset_empty hw]

end Write

-- ---------------------------------------------------------------------------
-- Fill
-- ---------------------------------------------------------------------------

/-- `~I{0} >> (LIMB_BITS - count)` keeps the `count` low bits. -/
theorem getLsbD_allOnes_shiftRight {c : Nat} (hc : c ≤ w) (j : Nat) :
    (BitVec.allOnes w >>> (w - c)).getLsbD j = decide (j < c) := by
  rw [BitVec.getLsbD_ushiftRight, BitVec.getLsbD_allOnes]
  exact decide_eq_decide.mpr (by omega)

section Fill

variable (hw : 0 < w)
include hw

/-- The positions of the limbs below `k` and those of limb `k` below `c`, for `c ≤ w`, are the
positions below `k * w + c`. -/
theorem lt_mul_add_iff {q k c : Nat} (hc : c ≤ w) :
    (if q / w = k then q % w < c else q / w < k) ↔ q < k * w + c := by
  have hq := Nat.div_add_mod' q w
  split
  · next hdiv =>
    rw [hdiv] at hq
    omega
  · next hdiv =>
    constructor
    · intro hlt
      have := (Nat.div_lt_iff_lt_mul hw).mp hlt
      omega
    · intro hlt
      by_contra hge
      -- past limb `k` a position is at least `(k + 1) * w`
      have hk : k + 1 ≤ q / w := by omega
      have := (Nat.le_div_iff_mul_le hw).mp hk
      rw [Nat.succ_mul] at this
      omega

/-- The loop of `Fill` from limb `k`, with the limbs below `k` full and the others zero, fills
the positions below `k * w + count`. -/
theorem toFinset_fillLoop {fuel k count : Nat} (ret : MultiIntBitSet w N)
    (hret : ∀ j, ret.limb j = if j < k then BitVec.allOnes w else 0) (hcount : 0 < count)
    (hfits : k * w + count ≤ w * N) (hfuel : count ≤ fuel * w) :
    (fillLoop ret k count fuel).toFinset = Finset.range (k * w + count) := by
  induction fuel generalizing k count ret with
  | zero => simp at hfuel; omega
  | succ fuel ih =>
    have hk : k < N := by
      have : k * w < N * w := by rw [Nat.mul_comm N]; omega
      exact Nat.lt_of_mul_lt_mul_right this
    rw [fillLoop]
    split
    · next hfull =>
      -- a full limb `k`, and the rest of the count from limb `k + 1`
      have hret' : ∀ j, (ret.setLimb k (BitVec.allOnes w)).limb j = if j < k + 1 then BitVec.allOnes w else 0 := by
        intro j
        rw [limb_setLimb ret hk, hret]
        by_cases hjk : j = k
        · simp [hjk]
        · by_cases hj : j < k
          · simp [hjk, hj, show j < k + 1 by omega]
          · simp [hjk, hj, show ¬j < k + 1 by omega]
      have hsum : (k + 1) * w + (count - w) = k * w + count := by rw [Nat.succ_mul]; omega
      rw [ih _ hret' (by omega) (by rw [hsum]; exact hfits) (by rw [Nat.succ_mul] at hfuel; omega), hsum]
    · next hlast =>
      ext q
      rw [mem_toFinset_setLimb hw ret hk, Finset.mem_range, mem_toFinset hw, hret,
        getLsbD_allOnes_shiftRight (by omega)]
      rw [← lt_mul_add_iff hw (q := q) (show count ≤ w by omega)]
      split
      · constructor
        · exact fun h => of_decide_eq_true h.2
        · intro h
          refine ⟨?_, decide_eq_true h⟩
          have := (lt_mul_add_iff hw (q := q) (show count ≤ w by omega)).mp (by rwa [if_pos (by assumption)])
          omega
      · constructor
        · intro h
          by_contra hk'
          rw [if_neg hk'] at h
          simp at h
        · intro h
          refine ⟨?_, by rw [if_pos h, BitVec.getLsbD_allOnes]; exact decide_eq_true (Nat.mod_lt _ hw)⟩
          have := (Nat.div_lt_iff_lt_mul hw).mp h
          calc q < k * w := this
            _ ≤ w * N := by omega

/-- `Fill(count)` is `{0, …, count - 1}` for every `count ≤ MAX_SIZE`. -/
theorem toFinset_fill {count : Nat} (hcount : count ≤ w * N) :
    (fill count : MultiIntBitSet w N).toFinset = Finset.range count := by
  unfold fill
  split
  · next hne =>
    have h : (fillLoop (empty : MultiIntBitSet w N) 0 count N).toFinset = Finset.range (0 * w + count) :=
      toFinset_fillLoop hw empty (by simp) (by omega) (by simpa using hcount) (by rw [Nat.mul_comm]; exact hcount)
    rwa [Nat.zero_mul, Nat.zero_add] at h
  · next h =>
    rw [Decidable.not_not] at h
    rw [toFinset_empty hw, h, Finset.range_zero]

end Fill

-- ---------------------------------------------------------------------------
-- |, &, -, ^ and the limbwise tests
-- ---------------------------------------------------------------------------

theorem limb_zipLimbs {f : BitVec w → BitVec w → BitVec w} (hf : f 0 0 = 0) (a b : MultiIntBitSet w N) (i : Nat) :
    (zipLimbs f a b).limb i = f (a.limb i) (b.limb i) := by
  unfold limb zipLimbs
  split
  · simp
  · exact hf.symm

theorem anyLimbs_iff {f : BitVec w → BitVec w → Bool} {a b : MultiIntBitSet w N} :
    anyLimbs f a b = true ↔ ∃ i < N, f (a.limb i) (b.limb i) = true := by
  rw [anyLimbs, List.any_eq_true]
  constructor
  · rintro ⟨i, -, hi⟩
    exact ⟨i, i.isLt, by rwa [limb_of_lt a i.isLt, limb_of_lt b i.isLt]⟩
  · rintro ⟨i, hi, hf⟩
    exact ⟨⟨i, hi⟩, List.mem_finRange _, by rwa [limb_of_lt a hi, limb_of_lt b hi] at hf⟩

theorem allLimbs_iff {f : BitVec w → BitVec w → Bool} {a b : MultiIntBitSet w N} :
    allLimbs f a b = true ↔ ∀ i < N, f (a.limb i) (b.limb i) = true := by
  rw [allLimbs, List.all_eq_true]
  constructor
  · intro h i hi
    have := h ⟨i, hi⟩ (List.mem_finRange _)
    rwa [limb_of_lt a hi, limb_of_lt b hi]
  · intro h i _
    have := h i i.isLt
    rwa [limb_of_lt a i.isLt, limb_of_lt b i.isLt] at this

/-- No bit of `x` outside `y`, bit by bit. -/
theorem and_not_eq_zero_iff (x y : BitVec w) :
    x &&& ~~~y = 0 ↔ ∀ j < w, x.getLsbD j = true → y.getLsbD j = true := by
  rw [eq_zero_iff_getLsbD]
  refine forall₂_congr fun j hj => ?_
  rw [BitVec.getLsbD_and, BitVec.getLsbD_not, decide_eq_true hj]
  cases x.getLsbD j <;> cases y.getLsbD j <;> simp

section Operators

variable (hw : 0 < w)
include hw

/-- `operator|` is union. -/
theorem toFinset_or (a b : MultiIntBitSet w N) : (a ||| b).toFinset = a.toFinset ∪ b.toFinset := by
  ext q
  have hlimb : (a ||| b).limb (q / w) = a.limb (q / w) ||| b.limb (q / w) := limb_zipLimbs (by simp) a b _
  simp only [mem_toFinset hw, Finset.mem_union, hlimb, BitVec.getLsbD_or, Bool.or_eq_true]
  tauto

/-- `operator&` is intersection. -/
theorem toFinset_and (a b : MultiIntBitSet w N) : (a &&& b).toFinset = a.toFinset ∩ b.toFinset := by
  ext q
  have hlimb : (a &&& b).limb (q / w) = a.limb (q / w) &&& b.limb (q / w) := limb_zipLimbs (by simp) a b _
  simp only [mem_toFinset hw, Finset.mem_inter, hlimb, BitVec.getLsbD_and, Bool.and_eq_true]
  tauto

/-- `operator-` is difference. -/
theorem toFinset_sub (a b : MultiIntBitSet w N) : (a - b).toFinset = a.toFinset \ b.toFinset := by
  ext q
  have hlimb : (a - b).limb (q / w) = a.limb (q / w) &&& ~~~b.limb (q / w) := limb_zipLimbs (by simp) a b _
  simp only [mem_toFinset hw, Finset.mem_sdiff, hlimb, BitVec.getLsbD_and, BitVec.getLsbD_not,
    decide_eq_true (Nat.mod_lt q hw), Bool.true_and, Bool.and_eq_true, Bool.not_eq_true', not_and,
    Bool.not_eq_true]
  tauto

/-- `operator^` is symmetric difference. -/
theorem toFinset_xor (a b : MultiIntBitSet w N) : (a ^^^ b).toFinset = symmDiff a.toFinset b.toFinset := by
  ext q
  have hlimb : (a ^^^ b).limb (q / w) = a.limb (q / w) ^^^ b.limb (q / w) := limb_zipLimbs (by simp) a b _
  rw [Finset.mem_symmDiff, mem_toFinset hw, mem_toFinset hw, mem_toFinset hw, hlimb, BitVec.getLsbD_xor]
  cases (a.limb (q / w)).getLsbD (q % w) <;> cases (b.limb (q / w)).getLsbD (q % w) <;> simp

/-- `Overlaps(a)` is a non-empty intersection. -/
theorem overlaps_iff (s a : MultiIntBitSet w N) : s.overlaps a = true ↔ (s.toFinset ∩ a.toFinset).Nonempty := by
  rw [overlaps, anyLimbs_iff]
  have hpos := exists_pos_iff hw (N := N)
    (P := fun i j => (s.limb i).getLsbD j = true ∧ (a.limb i).getLsbD j = true)
  constructor
  · rintro ⟨i, hi, hne⟩
    obtain ⟨j, hj, hbit⟩ := (exists_getLsbD_iff_ne_zero _).mpr (by simpa using hne)
    rw [BitVec.getLsbD_and, Bool.and_eq_true] at hbit
    obtain ⟨q, hq, hqs, hqa⟩ := hpos.mpr ⟨i, hi, j, hj, hbit⟩
    exact ⟨q, Finset.mem_inter.mpr ⟨(mem_toFinset hw).mpr ⟨hq, hqs⟩, (mem_toFinset hw).mpr ⟨hq, hqa⟩⟩⟩
  · rintro ⟨q, hq⟩
    obtain ⟨hqs, hqa⟩ := Finset.mem_inter.mp hq
    obtain ⟨i, hi, j, hj, hbs, hba⟩ :=
      hpos.mp ⟨q, ((mem_toFinset hw).mp hqs).1, ((mem_toFinset hw).mp hqs).2, ((mem_toFinset hw).mp hqa).2⟩
    refine ⟨i, hi, ?_⟩
    have hne : s.limb i &&& a.limb i ≠ 0 :=
      (exists_getLsbD_iff_ne_zero _).mp ⟨j, hj, by rw [BitVec.getLsbD_and, hbs, hba]; rfl⟩
    simpa using hne

/-- The limbs of `a` have no bit outside those of `b` exactly when `a`'s set is in `b`'s. -/
theorem forall_limbs_and_not_iff (a b : MultiIntBitSet w N) :
    (∀ i < N, (a.limb i &&& ~~~b.limb i) = 0) ↔ a.toFinset ⊆ b.toFinset := by
  have hpos := forall_pos_iff hw (N := N)
    (P := fun i j => (a.limb i).getLsbD j = true → (b.limb i).getLsbD j = true)
  simp only [and_not_eq_zero_iff]
  rw [← hpos]
  constructor
  · intro h q hq
    have hqa := (mem_toFinset hw).mp hq
    exact (mem_toFinset hw).mpr ⟨hqa.1, h q hqa.1 hqa.2⟩
  · intro h q hq hbit
    exact ((mem_toFinset hw).mp (h ((mem_toFinset hw).mpr ⟨hq, hbit⟩))).2

/-- `IsSubsetOf(a)` is inclusion. -/
theorem isSubsetOf_iff (s a : MultiIntBitSet w N) : s.isSubsetOf a = true ↔ s.toFinset ⊆ a.toFinset := by
  rw [isSubsetOf, allLimbs_iff, ← forall_limbs_and_not_iff hw]
  simp

/-- `IsSupersetOf(a)` is the reverse inclusion. -/
theorem isSupersetOf_iff (s a : MultiIntBitSet w N) : s.isSupersetOf a = true ↔ a.toFinset ⊆ s.toFinset := by
  rw [isSupersetOf, allLimbs_iff, ← forall_limbs_and_not_iff hw]
  simp

/-- `None()` holds of the empty set only. -/
theorem none_iff (s : MultiIntBitSet w N) : s.none = true ↔ s.toFinset = ∅ := by
  have hall : s.none = true ↔ ∀ i < N, s.limb i = 0 := by
    rw [none, List.all_eq_true]
    constructor
    · intro h i hi
      have := h ⟨i, hi⟩ (List.mem_finRange _)
      rw [limb_of_lt s hi]
      simpa using this
    · intro h i _
      have := h i i.isLt
      rw [limb_of_lt s i.isLt] at this
      simp [this]
  have hpos := forall_pos_iff hw (N := N) (P := fun i j => (s.limb i).getLsbD j = false)
  rw [hall, Finset.eq_empty_iff_forall_notMem]
  simp only [eq_zero_iff_getLsbD]
  rw [← hpos]
  refine forall_congr' fun q => ?_
  rw [mem_toFinset hw]
  simp

end Operators

-- ---------------------------------------------------------------------------
-- PopCount and Count
-- ---------------------------------------------------------------------------

/-- The masking steps of `PopCount` on a limb of `k` bytes are `stageC`, given masks that the
limb cuts down to the repeated bytes and room in the limb for the sums. -/
theorem toNat_popCountStages {k : Nat} (m85 m51 m15 : Nat) (h85 : m85 % 2 ^ (8 * k) = rep 85 k)
    (h51 : m51 % 2 ^ (8 * k) = rep 51 k) (h15 : m15 % 2 ^ (8 * k) = rep 15 k)
    (hroom : rep 68 k + rep 68 k / 16 < 2 ^ (8 * k)) (v : BitVec (8 * k)) :
    (popCountStages m85 m51 m15 v).toNat = stageC v.toNat k := by
  unfold popCountStages
  dsimp only
  -- the subtraction takes away a part of `v`, so it does not wrap
  have hle : v >>> 1 &&& BitVec.ofNat (8 * k) m85 ≤ v := by
    rw [BitVec.le_def, BitVec.toNat_and, BitVec.toNat_ushiftRight]
    exact Nat.le_trans Nat.and_le_left (Nat.shiftRight_le _ _)
  have hA : (v - (v >>> 1 &&& BitVec.ofNat (8 * k) m85)).toNat = stageA v.toNat k := by
    rw [BitVec.toNat_sub_of_le hle, BitVec.toNat_and, BitVec.toNat_ushiftRight, BitVec.toNat_ofNat, h85]
    rfl
  generalize v - (v >>> 1 &&& BitVec.ofNat (8 * k) m85) = a at hA
  have hB : ((a &&& BitVec.ofNat (8 * k) m51) + (a >>> 2 &&& BitVec.ofNat (8 * k) m51)).toNat = stageB v.toNat k := by
    have hlt : stageB v.toNat k < 2 ^ (8 * k) := by
      have := stageB_le_rep k v.toNat
      omega
    rw [BitVec.toNat_add, BitVec.toNat_and, BitVec.toNat_and, BitVec.toNat_ushiftRight, BitVec.toNat_ofNat, h51, hA]
    exact Nat.mod_eq_of_lt hlt
  generalize (a &&& BitVec.ofNat (8 * k) m51) + (a >>> 2 &&& BitVec.ofNat (8 * k) m51) = b at hB
  have hsum : (b + (b >>> 4)).toNat = stageB v.toNat k + stageB v.toNat k >>> 4 := by
    have hb := stageB_le_rep k v.toNat
    have hdiv : stageB v.toNat k / 16 ≤ rep 68 k / 16 := Nat.div_le_div_right hb
    rw [BitVec.toNat_add, BitVec.toNat_ushiftRight, hB, Nat.shiftRight_eq_div_pow]
    exact Nat.mod_eq_of_lt (by change _ + _ / 16 < _; omega)
  rw [BitVec.toNat_and, hsum, BitVec.toNat_ofNat, h15]
  rfl

/-- `PopCount` counts the set bits of a limb of 8, 16, 32 or 64 bits. -/
theorem popCount_eq (hw : w = 8 ∨ w = 16 ∨ w = 32 ∨ w = 64) (v : BitVec w) : popCount v = PopCount.count w v.toNat := by
  rcases hw with rfl | rfl | rfl | rfl
  · -- one byte: the stages leave the count, at most 8, which the mask keeps
    have hC := toNat_popCountStages (k := 1) 0x55555555 0x33333333 0x0f0f0f0f
      (by decide) (by decide) (by decide) (by decide) v
    have hbyte := stages_of_byte v.isLt
    rw [popCount, if_pos (by decide)]
    dsimp only
    rw [if_neg (show ¬8 > 8 by decide), if_neg (show ¬8 > 16 by decide), BitVec.toNat_and, hC]
    rw [show (0x3f#8).toNat = 63 from rfl, and_sixtyThree, Nat.mod_eq_of_lt (by omega)]
    exact hbyte.2.2.2.2
  · -- two bytes: one fold
    have hC := toNat_popCountStages (k := 2) 0x55555555 0x33333333 0x0f0f0f0f
      (by decide) (by decide) (by decide) (by decide) v
    have hc := stageC_le_rep 2 v.toNat
    rw [popCount, if_pos (by decide)]
    dsimp only
    rw [if_pos (show 16 > 8 by decide), if_neg (show ¬16 > 16 by decide), BitVec.toNat_and, BitVec.toNat_add,
      BitVec.toNat_ushiftRight, hC,
      show (0x3f#16).toNat = 63 from rfl, ← fold_two]
    congr 1
    apply Nat.mod_eq_of_lt
    simp only [rep_succ, rep_zero] at hc
    rw [shiftRight_eight]
    omega
  · -- four bytes: two folds
    have hC := toNat_popCountStages (k := 4) 0x55555555 0x33333333 0x0f0f0f0f
      (by decide) (by decide) (by decide) (by decide) v
    have hc := stageC_le_rep 4 v.toNat
    simp only [rep_succ, rep_zero] at hc
    rw [popCount, if_pos (by decide)]
    dsimp only
    rw [if_pos (show 32 > 8 by decide), if_pos (show 32 > 16 by decide), BitVec.toNat_and, BitVec.toNat_add,
      BitVec.toNat_ushiftRight,
      BitVec.toNat_add, BitVec.toNat_ushiftRight, hC, show (0x3f#32).toNat = 63 from rfl, ← fold_four]
    -- neither fold wraps
    have h1 : (stageC v.toNat 4 + stageC v.toNat 4 >>> 8) % 2 ^ 32 = stageC v.toNat 4 + stageC v.toNat 4 >>> 8 := by
      rw [shiftRight_eight]
      exact Nat.mod_eq_of_lt (by omega)
    rw [h1]
    congr 1
    apply Nat.mod_eq_of_lt
    rw [shiftRight_eight, shiftRight_sixteen]
    omega
  · -- eight bytes: the multiplication collects the byte counts in the top byte
    have hC := toNat_popCountStages (k := 8) 0x5555555555555555 0x3333333333333333
      0x0f0f0f0f0f0f0f0f (by decide) (by decide) (by decide) (by decide) v
    have hc : stageC v.toNat 8 < 256 ^ (7 + 1) := by
      have := stageC_le_rep 8 v.toNat
      have hrep : rep 8 8 < 256 ^ (7 + 1) := by decide
      omega
    have hc64 : stageC v.toNat 8 < 2 ^ 64 := by
      have : (256 : Nat) ^ (7 + 1) = 2 ^ 64 := by norm_num
      omega
    have hsum : byteSum (stageC v.toNat 8) (7 + 1) = PopCount.count 64 v.toNat := byteSum_stageC 8 v.toNat
    rw [popCount, if_neg (by decide)]
    dsimp only
    rw [BitVec.toNat_ushiftRight, BitVec.toNat_mul, BitVec.toNat_setWidth, hC, Nat.mod_eq_of_lt hc64,
      show (0x0101010101010101#64).toNat = rep 1 (7 + 1) from rfl, Nat.shiftRight_eq_div_pow,
      show (2 : Nat) ^ 64 = 2 ^ 56 * 256 by norm_num, Nat.mod_mul_right_div_self,
      show (2 : Nat) ^ 56 = 256 ^ 7 by norm_num, mul_rep_top_byte 7 _ hc (by rw [hsum]; have := PopCount.count_le 64 v.toNat; omega),
      hsum]

/-- The set's positions, limb by limb: limb `i` holds the positions `i * w + j` of its set
bits `j`. -/
theorem card_toFinset (hw : 0 < w) (s : MultiIntBitSet w N) :
    s.toFinset.card = ∑ i : Fin N, ((Finset.range w).filter fun j => (s.limb i).getLsbD j).card := by
  have hinj : ∀ i : Nat, Function.Injective fun j : Nat => i * w + j := fun i _ _ h => Nat.add_left_cancel h
  let part : Fin N → Finset Nat := fun i =>
    ((Finset.range w).filter fun j => (s.limb i).getLsbD j).map ⟨_, hinj i⟩
  have hpart : ∀ i : Fin N, ∀ q, q ∈ part i ↔ ∃ j < w, (s.limb i).getLsbD j = true ∧ i * w + j = q := by
    intro i q
    simp [part, and_assoc]
  have hunion : s.toFinset = Finset.univ.biUnion part := by
    ext q
    rw [Finset.mem_biUnion, mem_toFinset hw]
    constructor
    · rintro ⟨hlt, hbit⟩
      exact ⟨⟨q / w, pos_div_lt hw hlt⟩, Finset.mem_univ _,
        (hpart _ q).mpr ⟨q % w, Nat.mod_lt _ hw, hbit, Nat.div_add_mod' q w⟩⟩
    · rintro ⟨i, -, hq⟩
      obtain ⟨j, hj, hbit, rfl⟩ := (hpart i q).mp hq
      obtain ⟨hdiv, hmod⟩ := div_mod_of_lt hw (i := i) hj
      exact ⟨mul_add_lt i.isLt hj, by rwa [hdiv, hmod]⟩
  have hdisj : (↑(Finset.univ : Finset (Fin N)) : Set (Fin N)).PairwiseDisjoint part := by
    intro i _ i' _ hne
    refine Finset.disjoint_left.mpr fun q hq hq' => hne (Fin.ext ?_)
    obtain ⟨j, hj, -, rfl⟩ := (hpart i _).mp hq
    obtain ⟨j', hj', -, heq⟩ := (hpart i' _).mp hq'
    -- one position lies in one limb
    rw [← (div_mod_of_lt hw (i := i) hj).1, ← heq, (div_mod_of_lt hw (i := i') hj').1]
  rw [hunion, Finset.card_biUnion hdisj]
  simp [part]

/-- `Count()` is the size of the set, for limbs of 8, 16, 32 or 64 bits. -/
theorem count_eq_card (hw : w = 8 ∨ w = 16 ∨ w = 32 ∨ w = 64) (s : MultiIntBitSet w N) :
    s.count = s.toFinset.card := by
  have hpos : 0 < w := by omega
  rw [card_toFinset hpos, count]
  refine Finset.sum_congr rfl fun i _ => ?_
  rw [popCount_eq hw, PopCount.count_eq_card, limb_of_lt s i.isLt]
  rfl

end MultiIntBitSet

end Riecoin
