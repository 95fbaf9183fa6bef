-- SUMMARY: The arithmetic of `base_uint<BITS>`: `~`, `++`, unary `-`, `+=`, `-=`, `CompareTo`, both `*=` and the shift-and-subtract `/=`, each proved against the number the limbs denote.
import Riecoin.Base.ArithUint256

/-!
# base_uint arithmetic

The operators of `base_uint<BITS>` (`arith_uint256.h`, `arith_uint256.cpp`) as loops over the
limbs. Every loop writes one limb at a time (`setWord`), and a write moves the number by the
change of that limb at its place (`toNat_setWord`), so each loop is proved by an invariant
that relates the limbs written so far, the carry and the inputs:

* `operator+=` keeps `this + carry * 2^(32 i) = a + (b mod 2^(32 i))` (`addLoop_spec`);
* `operator*=` adds one row `pn[j] * b * 2^(32 j)` per outer iteration, with the same
  invariant for the inner carry (`mulRowLoop_spec`, `toNat_mulRow`);
* `operator/=` aligns the divisor with the top bit of the number and keeps
  `a = quot * b + num` with `num < b * 2^(shift + 1)` (`DivInv`, `divLoop_spec`).

`operator/=` clears the quotient with `*this = 0`, the `uint64_t` assignment, which writes
`pn[1]`: at `BITS = 32` that write is past the one limb, and the model is `none` there
(`div_of_width_one`).
-/

namespace Riecoin

namespace BaseUint

variable {BITS : Nat}

-- ---------------------------------------------------------------------------
-- Writing one limb
-- ---------------------------------------------------------------------------

/-- `pn[i] = v`; nothing past the last limb. -/
def setWord (a : BaseUint BITS) (i : Nat) (v : UInt32) : BaseUint BITS :=
  if h : i < BITS / 32 then ⟨a.pn.set i v h, a.width_pos, a.bits_mod⟩ else a

/-- `base_uint()`: every limb zero. The `static_assert` is that of `a`, of the same type. -/
def zeroOf (a : BaseUint BITS) : BaseUint BITS :=
  ⟨Vector.replicate (BITS / 32) 0, a.width_pos, a.bits_mod⟩

/-- `operator=(uint64_t b)`: `pn[0]` and `pn[1]` get the two halves of `b`, the other limbs
zero. `none` where `pn[1]` is past the last limb (`BITS = 32`). -/
def assign (a : BaseUint BITS) (b : UInt64) : Option (BaseUint BITS) :=
  if 2 ≤ BITS / 32 then
    some ⟨Vector.ofFn fun i => if i.val = 0 then b.toUInt32 else if i.val = 1 then (b >>> 32).toUInt32 else 0,
      a.width_pos, a.bits_mod⟩
  else none

theorem word_setWord (a : BaseUint BITS) {i : Nat} (hi : i < BITS / 32) (v : UInt32) (j : Nat) :
    (a.setWord i v).word j = if j = i then v else a.word j := by
  unfold setWord word
  rw [dif_pos hi]
  by_cases hj : j < BITS / 32
  · simp only [dif_pos hj]
    rw [Vector.getElem_set]
    by_cases hji : j = i
    · simp [hji]
    · simp [hji, Ne.symm hji]
  · simp only [dif_neg hj]
    rw [if_neg (by omega)]

/-- A write moves the number by the change of the limb, at its place. -/
theorem toNat_setWord (a : BaseUint BITS) {i : Nat} (hi : i < BITS / 32) (v : UInt32) :
    (a.setWord i v).toNat + 2 ^ (32 * i) * (a.word i).toNat = a.toNat + 2 ^ (32 * i) * v.toNat := by
  have h := Limbs.value_update (w := 32) (d := fun j => (a.word j).toNat)
    (e := fun j => ((a.setWord i v).word j).toNat) (n := BITS / 32) hi
    (fun j hj => by rw [word_setWord a hi, if_neg hj])
  rw [word_setWord a hi, if_pos rfl] at h
  exact h

@[simp] theorem toNat_zeroOf (a : BaseUint BITS) : (zeroOf a).toNat = 0 := by
  have h : ∀ j, ((zeroOf a).word j).toNat = 0 := by
    intro j
    unfold zeroOf word
    split <;> simp
  rw [toNat, Limbs.value_eq_of_zero_from (Nat.zero_le _) (fun j _ _ => h j)]
  rfl

/-- `operator=(uint64_t b)` gives the number `b` wherever it does not write past the limbs. -/
theorem assign_eq (a : BaseUint BITS) (hw : 2 ≤ BITS / 32) (b : UInt64) :
    ∃ c, a.assign b = some c ∧ c.toNat = b.toNat := by
  refine ⟨_, if_pos hw, ?_⟩
  have hb := UInt64.toNat_lt b
  -- the limbs from the third on are zero
  rw [toNat, Limbs.value_eq_of_zero_from hw (fun i hi hi' => by simp [word, hi', show i ≠ 0 by omega,
    show i ≠ 1 by omega])]
  simp [Limbs.value_succ, word, show 0 < BITS / 32 by omega, show 1 < BITS / 32 by omega,
    UInt64.toNat_shiftRight]
  omega

-- ---------------------------------------------------------------------------
-- operator~, operator++ and unary operator-
-- ---------------------------------------------------------------------------

/-- `operator~()`: every limb complemented. -/
def complement (a : BaseUint BITS) : BaseUint BITS := ⟨a.pn.map (~~~ ·), a.width_pos, a.bits_mod⟩

/-- The loop of `operator++()`, `while (i < WIDTH && ++pn[i] == 0) i++;`, from limb `i`, one
limb per step of fuel. -/
def incrementFrom (a : BaseUint BITS) (i : Nat) : Nat → BaseUint BITS
  | 0 => a
  | fuel + 1 =>
    if i < BITS / 32 then
      let a := a.setWord i (a.word i + 1)
      if a.word i = 0 then incrementFrom a (i + 1) fuel else a
    else a

/-- `operator++()`. -/
def increment (a : BaseUint BITS) : BaseUint BITS := incrementFrom a 0 (BITS / 32)

/-- `operator-()`: the complement, incremented. -/
def neg (a : BaseUint BITS) : BaseUint BITS := increment (complement a)

theorem word_complement (a : BaseUint BITS) {i : Nat} (hi : i < BITS / 32) :
    (complement a).word i = ~~~ a.word i := by
  simp [complement, word, hi]

/-- `~a` is `2 ^ BITS - 1 - a`. -/
theorem toNat_complement (a : BaseUint BITS) : (complement a).toNat + a.toNat + 1 = 2 ^ BITS := by
  have hc := Limbs.value_complement (toNat_word_lt a) (BITS / 32)
  rw [width_mul a] at hc
  rw [toNat, Limbs.value_congr (d := fun i => 2 ^ 32 - 1 - (a.word i).toNat)
    (fun i hi => by rw [word_complement a hi, UInt32.toNat_not]; rfl)]
  exact hc

/-- The increment loop from limb `i` adds `2 ^ (32 * i)`: a limb that wraps to zero passes the
carry on to the next one. -/
theorem toNat_incrementFrom (a : BaseUint BITS) {i fuel : Nat} (h : i + fuel = BITS / 32) :
    (incrementFrom a i fuel).toNat = (a.toNat + 2 ^ (32 * i)) % 2 ^ BITS := by
  induction fuel generalizing a i with
  | zero =>
    -- past the last limb the carry is `2 ^ BITS`, which the number drops
    have hB : 32 * i = BITS := by rw [← width_mul a]; omega
    rw [incrementFrom, hB, Nat.add_mod_right, Nat.mod_eq_of_lt (toNat_lt a)]
  | succ fuel ih =>
    have hi : i < BITS / 32 := by omega
    have hw := toNat_setWord a hi (a.word i + 1)
    have hlt := toNat_word_lt a i
    rw [incrementFrom, if_pos hi]
    dsimp only
    rw [word_setWord a hi, if_pos rfl]
    by_cases hz : a.word i + 1 = 0
    · -- the limb was `0xffffffff`: it wraps to zero and the carry moves up
      have hmax : (a.word i).toNat = 4294967295 := by
        have := congrArg UInt32.toNat hz
        rw [UInt32.toNat_add, UInt32.toNat_one, UInt32.toNat_zero] at this
        omega
      rw [if_pos hz, ih _ (by omega)]
      have hv : (a.word i + 1).toNat = 0 := by rw [hz, UInt32.toNat_zero]
      rw [hv, hmax, Nat.mul_zero, Nat.add_zero] at hw
      -- the carry out of limb `i` is `2 ^ (32 * i) * 0xffffffff + 2 ^ (32 * i)`
      have hcarry : 2 ^ (32 * (i + 1)) = 2 ^ (32 * i) * 4294967295 + 2 ^ (32 * i) := by
        rw [Nat.mul_succ, Nat.pow_add, show (2 : Nat) ^ 32 = 4294967295 + 1 by norm_num, Nat.mul_succ]
      have hsum : (a.setWord i (a.word i + 1)).toNat + 2 ^ (32 * (i + 1)) =
          a.toNat + 2 ^ (32 * i) := by
        rw [hcarry, ← Nat.add_assoc, hw]
      rw [hsum]
    · -- no wrap: the limb grows by one and the number still fits
      have hone : (a.word i + 1).toNat = (a.word i).toNat + 1 := by
        rw [UInt32.toNat_add, UInt32.toNat_one]
        apply Nat.mod_eq_of_lt
        by_contra hge
        exact hz (UInt32.toNat_inj.mp (by rw [UInt32.toNat_add, UInt32.toNat_one]; simp; omega))
      rw [if_neg hz]
      rw [hone, Nat.mul_succ] at hw
      have hfit := toNat_lt (a.setWord i (a.word i + 1))
      rw [Nat.mod_eq_of_lt (by omega)]
      omega

/-- `++a` is `a + 1`, modulo `2 ^ BITS`. -/
theorem toNat_increment (a : BaseUint BITS) : (increment a).toNat = (a.toNat + 1) % 2 ^ BITS := by
  rw [increment, toNat_incrementFrom a (Nat.zero_add _)]
  rfl

/-- `-a` is `2 ^ BITS - a`, modulo `2 ^ BITS`. -/
theorem toNat_neg (a : BaseUint BITS) : (neg a).toNat = (2 ^ BITS - a.toNat) % 2 ^ BITS := by
  have hc := toNat_complement a
  rw [neg, toNat_increment]
  congr 1
  omega

-- ---------------------------------------------------------------------------
-- The carry loops: operator+= and operator-=
-- ---------------------------------------------------------------------------

/-- `n & 0xffffffff`, stored in a 32-bit limb, is `n mod 2^32`. -/
theorem toNat_lowHalf (n : UInt64) : ((n &&& 0xffffffff).toUInt32).toNat = n.toNat % 2 ^ 32 := by
  rw [UInt64.toNat_toUInt32, UInt64.toNat_and, show (0xffffffff : UInt64).toNat = 2 ^ 32 - 1 by rfl,
    Nat.and_two_pow_sub_one_eq_mod, Nat.mod_mod]

/-- `n >> 32` is `n / 2^32`. -/
theorem toNat_highHalf (n : UInt64) : (n >>> 32).toNat = n.toNat / 2 ^ 32 := by
  rw [UInt64.toNat_shiftRight, show (32 : UInt64).toNat % 64 = 32 by rfl, Nat.shiftRight_eq_div_pow]

/-- One step of a carry loop at limb `k`: `n` is split into the limb `n & 0xffffffff` and the
next carry `n >> 32`, which together stand for `n` at place `k`, in place of the old limb. -/
theorem toNat_carryStep (s : BaseUint BITS) {k : Nat} (hk : k < BITS / 32) (n : UInt64) :
    (s.setWord k (n &&& 0xffffffff).toUInt32).toNat + (n >>> 32).toNat * 2 ^ (32 * (k + 1)) +
      2 ^ (32 * k) * (s.word k).toNat = s.toNat + 2 ^ (32 * k) * n.toNat := by
  have hw := toNat_setWord s hk (n &&& 0xffffffff).toUInt32
  rw [toNat_lowHalf] at hw
  rw [toNat_highHalf, Nat.mul_succ, Nat.pow_add]
  -- `n` is its low half plus `2^32` times its high half
  have hsplit : 2 ^ (32 * k) * (n.toNat % 2 ^ 32) + 2 ^ (32 * k) * 2 ^ 32 * (n.toNat / 2 ^ 32) =
      2 ^ (32 * k) * n.toNat := by
    rw [Nat.mul_assoc, ← Nat.mul_add, Nat.mod_add_div]
  calc (s.setWord k (n &&& 0xffffffff).toUInt32).toNat + n.toNat / 2 ^ 32 * (2 ^ (32 * k) * 2 ^ 32) +
        2 ^ (32 * k) * (s.word k).toNat
      = ((s.setWord k (n &&& 0xffffffff).toUInt32).toNat + 2 ^ (32 * k) * (s.word k).toNat) +
          2 ^ (32 * k) * 2 ^ 32 * (n.toNat / 2 ^ 32) := by ring
    _ = s.toNat + 2 ^ (32 * k) * n.toNat := by rw [hw, Nat.add_assoc, hsplit]

/-- One iteration of the loop of `operator+=(b)`: `n = carry + pn[i] + b.pn[i]`,
`pn[i] = n & 0xffffffff`, `carry = n >> 32`. -/
def addStep (b : BaseUint BITS) (st : BaseUint BITS × UInt64) (i : Nat) : BaseUint BITS × UInt64 :=
  let n := st.2 + (st.1.word i).toUInt64 + (b.word i).toUInt64
  (st.1.setWord i (n &&& 0xffffffff).toUInt32, n >>> 32)

/-- The first `i` iterations of the loop of `operator+=(b)` on `a`, from `carry = 0`. -/
def addLoop (a b : BaseUint BITS) (i : Nat) : BaseUint BITS × UInt64 :=
  (List.range i).foldl (addStep b) (a, 0)

/-- `operator+=(b)`: the loop over every limb. -/
def add (a b : BaseUint BITS) : BaseUint BITS := (addLoop a b (BITS / 32)).1

/-- `operator-=(b)`: `*this += -b`. -/
def sub (a b : BaseUint BITS) : BaseUint BITS := add a (neg b)

theorem addLoop_succ (a b : BaseUint BITS) (i : Nat) :
    addLoop a b (i + 1) = addStep b (addLoop a b i) i := by
  rw [addLoop, addLoop, List.range_succ, List.foldl_append, List.foldl_cons, List.foldl_nil]

/-- The invariant of the `operator+=` loop: the carry is a bit, and the limbs written so far
with the carry above them add up to `a` plus the low `i` limbs of `b`. -/
theorem addLoop_spec (a b : BaseUint BITS) {i : Nat} (hi : i ≤ BITS / 32) :
    (addLoop a b i).2.toNat ≤ 1 ∧
      (addLoop a b i).1.toNat + (addLoop a b i).2.toNat * 2 ^ (32 * i) =
        a.toNat + Limbs.value 32 (fun j => (b.word j).toNat) i := by
  induction i with
  | zero => simp [addLoop]
  | succ i ih =>
    obtain ⟨hc, hval⟩ := ih (by omega)
    have hx := toNat_word_lt (addLoop a b i).1 i
    have hy := toNat_word_lt b i
    -- `carry + pn[i] + b.pn[i]` stays below `2^33`, so the `uint64_t` sum is exact
    have hn : ((addLoop a b i).2 + ((addLoop a b i).1.word i).toUInt64 + (b.word i).toUInt64).toNat =
        (addLoop a b i).2.toNat + ((addLoop a b i).1.word i).toNat + (b.word i).toNat := by
      rw [UInt64.toNat_add, UInt64.toNat_add, UInt32.toNat_toUInt64, UInt32.toNat_toUInt64,
        Nat.mod_eq_of_lt (by omega), Nat.mod_eq_of_lt (by omega)]
    have hstep := toNat_carryStep (addLoop a b i).1 (k := i) (by omega)
      ((addLoop a b i).2 + ((addLoop a b i).1.word i).toUInt64 + (b.word i).toUInt64)
    rw [hn] at hstep
    rw [addLoop_succ, addStep]
    refine ⟨by rw [toNat_highHalf, hn]; omega, ?_⟩
    -- the old limb `pn[i]` leaves the sum and `carry + pn[i] + b.pn[i]` enters at place `i`
    apply Nat.add_right_cancel (m := 2 ^ (32 * i) * ((addLoop a b i).1.word i).toNat)
    rw [hstep, Limbs.value_succ, Nat.mul_add, Nat.mul_add,
      Nat.mul_comm (2 ^ (32 * i)) (addLoop a b i).2.toNat]
    omega

/-- `a += b` is `a + b`, modulo `2 ^ BITS`. -/
theorem toNat_add (a b : BaseUint BITS) : (add a b).toNat = (a.toNat + b.toNat) % 2 ^ BITS := by
  have hval := (addLoop_spec a b (Nat.le_refl _)).2
  rw [width_mul a] at hval
  have hfit := toNat_lt (add a b)
  rw [add] at hfit ⊢
  -- the final carry is dropped
  rw [← Nat.mod_eq_of_lt hfit, ← Nat.add_mul_mod_self_right _ (addLoop a b (BITS / 32)).2.toNat, hval]
  rfl

/-- `a -= b` is `a - b`, modulo `2 ^ BITS`. -/
theorem toNat_sub (a b : BaseUint BITS) :
    (sub a b).toNat = (a.toNat + (2 ^ BITS - b.toNat)) % 2 ^ BITS := by
  rw [sub, toNat_add, toNat_neg, Nat.add_mod_mod]

theorem toNat_sub_of_le (a b : BaseUint BITS) (h : b.toNat ≤ a.toNat) :
    (sub a b).toNat = a.toNat - b.toNat := by
  have ha := toNat_lt a
  rw [toNat_sub, show a.toNat + (2 ^ BITS - b.toNat) = a.toNat - b.toNat + 2 ^ BITS by omega,
    Nat.add_mod_right, Nat.mod_eq_of_lt (by omega)]

-- ---------------------------------------------------------------------------
-- CompareTo
-- ---------------------------------------------------------------------------

/-- The loop of `CompareTo(b)` over the limbs below `i`, from the top: the first limb that
differs decides, `-1` or `1`; `0` when every limb agrees. -/
def compareFrom (a b : BaseUint BITS) : Nat → Int
  | 0 => 0
  | i + 1 => if a.word i < b.word i then -1 else if a.word i > b.word i then 1 else compareFrom a b i

/-- `CompareTo(b)`. -/
def compareTo (a b : BaseUint BITS) : Int := compareFrom a b (BITS / 32)

/-- The comparison of the limbs below `n` is that of the numbers they denote. -/
theorem compareFrom_eq (a b : BaseUint BITS) (n : Nat) :
    compareFrom a b n =
      let x := Limbs.value 32 (fun j => (a.word j).toNat) n
      let y := Limbs.value 32 (fun j => (b.word j).toNat) n
      if x < y then -1 else if y < x then 1 else 0 := by
  induction n with
  | zero => simp [compareFrom]
  | succ n ih =>
    rw [compareFrom]
    by_cases hlt : a.word n < b.word n
    · -- limb `n` is the top one where they differ, and it is smaller in `a`
      have h := Limbs.value_succ_lt_of_lt (toNat_word_lt a) (e := fun j => (b.word j).toNat)
        (UInt32.lt_iff_toNat_lt.mp hlt)
      rw [if_pos hlt]
      exact (if_pos h).symm
    · by_cases hgt : a.word n > b.word n
      · have h := Limbs.value_succ_lt_of_lt (toNat_word_lt b) (e := fun j => (a.word j).toNat)
          (UInt32.lt_iff_toNat_lt.mp hgt)
        rw [if_neg hlt, if_pos hgt]
        dsimp only
        rw [if_neg (Nat.lt_asymm h), if_pos h]
      · -- limb `n` agrees, and the limbs below decide
        have heq : (a.word n).toNat = (b.word n).toNat := by
          rw [UInt32.lt_iff_toNat_lt] at hlt
          rw [gt_iff_lt, UInt32.lt_iff_toNat_lt] at hgt
          omega
        rw [if_neg hlt, if_neg hgt, ih]
        simp only [Limbs.value_succ, heq, Nat.add_lt_add_iff_left]

/-- `CompareTo(b) >= 0`, the test `num >= div` of `operator/=`, is `b <= a`. -/
theorem compareTo_nonneg_iff (a b : BaseUint BITS) : 0 ≤ compareTo a b ↔ b.toNat ≤ a.toNat := by
  rw [compareTo, compareFrom_eq]
  show 0 ≤ (if a.toNat < b.toNat then -1 else if b.toNat < a.toNat then 1 else 0) ↔ _
  split_ifs <;> omega

-- ---------------------------------------------------------------------------
-- operator*=
-- ---------------------------------------------------------------------------

/-- One iteration of the loop of `operator*=(uint32_t b32)`: `n = carry + (uint64_t)b32 * pn[i]`. -/
def mulWordStep (b32 : UInt32) (st : BaseUint BITS × UInt64) (i : Nat) : BaseUint BITS × UInt64 :=
  let n := st.2 + b32.toUInt64 * (st.1.word i).toUInt64
  (st.1.setWord i (n &&& 0xffffffff).toUInt32, n >>> 32)

/-- The first `i` iterations of the loop of `operator*=(uint32_t b32)` on `a`. -/
def mulWordLoop (a : BaseUint BITS) (b32 : UInt32) (i : Nat) : BaseUint BITS × UInt64 :=
  (List.range i).foldl (mulWordStep b32) (a, 0)

/-- `operator*=(uint32_t b32)`. -/
def mulWord (a : BaseUint BITS) (b32 : UInt32) : BaseUint BITS := (mulWordLoop a b32 (BITS / 32)).1

/-- One iteration of the inner loop of `operator*=(const base_uint& b)` for row `j`:
`n = carry + a.pn[i + j] + (uint64_t)pn[j] * b.pn[i]`, into the accumulator `a`. -/
def mulStep (x b : BaseUint BITS) (j : Nat) (st : BaseUint BITS × UInt64) (i : Nat) :
    BaseUint BITS × UInt64 :=
  let n := st.2 + (st.1.word (i + j)).toUInt64 + (x.word j).toUInt64 * (b.word i).toUInt64
  (st.1.setWord (i + j) (n &&& 0xffffffff).toUInt32, n >>> 32)

/-- The first `i` iterations of the inner loop for row `j`, from `carry = 0`. -/
def mulRowLoop (x b acc : BaseUint BITS) (j i : Nat) : BaseUint BITS × UInt64 :=
  (List.range i).foldl (mulStep x b j) (acc, 0)

/-- Row `j` of `operator*=(b)`: the inner loop while `i + j < WIDTH`. -/
def mulRow (x b acc : BaseUint BITS) (j : Nat) : BaseUint BITS := (mulRowLoop x b acc j (BITS / 32 - j)).1

/-- The first `j` rows of `operator*=(b)`, into the zeroed `base_uint<BITS> a`. -/
def mulLoop (x b : BaseUint BITS) (j : Nat) : BaseUint BITS := (List.range j).foldl (mulRow x b) (zeroOf x)

/-- `operator*=(const base_uint& b)`: every row, then `*this = a`. -/
def mul (a b : BaseUint BITS) : BaseUint BITS := mulLoop a b (BITS / 32)

theorem mulRowLoop_succ (x b acc : BaseUint BITS) (j i : Nat) :
    mulRowLoop x b acc j (i + 1) = mulStep x b j (mulRowLoop x b acc j i) i := by
  rw [mulRowLoop, mulRowLoop, List.range_succ, List.foldl_append, List.foldl_cons, List.foldl_nil]

theorem mulLoop_succ (x b : BaseUint BITS) (j : Nat) :
    mulLoop x b (j + 1) = mulRow x b (mulLoop x b j) j := by
  rw [mulLoop, mulLoop, List.range_succ, List.foldl_append, List.foldl_cons, List.foldl_nil]

/-- `c + x * y` of 32-bit `x` and `y` fits in `uint64_t` for `c ≤ 2^33 - 2`: every carry loop
of the multiplications adds at most a carry and a limb to the product. -/
theorem toNat_add_mul {c : UInt64} (hc : c.toNat ≤ 8589934590) (x y : UInt32) :
    (c + x.toUInt64 * y.toUInt64).toNat = c.toNat + x.toNat * y.toNat := by
  have hp : x.toNat * y.toNat ≤ 4294967295 * 4294967295 :=
    Nat.mul_le_mul (by have := x.toNat_lt; omega) (by have := y.toNat_lt; omega)
  have hmul : (x.toUInt64 * y.toUInt64).toNat = x.toNat * y.toNat := by
    rw [UInt64.toNat_mul, UInt32.toNat_toUInt64, UInt32.toNat_toUInt64, Nat.mod_eq_of_lt (by omega)]
  rw [UInt64.toNat_add, hmul, Nat.mod_eq_of_lt (by omega)]

theorem mulRowLoop_spec (x b acc : BaseUint BITS) (j : Nat) {i : Nat} (hij : i + j ≤ BITS / 32) :
    (mulRowLoop x b acc j i).2.toNat < 2 ^ 32 ∧
      (mulRowLoop x b acc j i).1.toNat + (mulRowLoop x b acc j i).2.toNat * 2 ^ (32 * (i + j)) =
        acc.toNat + 2 ^ (32 * j) * ((x.word j).toNat * Limbs.value 32 (fun k => (b.word k).toNat) i) := by
  induction i with
  | zero => simp [mulRowLoop]
  | succ i ih =>
    obtain ⟨hc, hval⟩ := ih (by omega)
    have hw := toNat_word_lt (mulRowLoop x b acc j i).1 (i + j)
    -- `carry + a.pn[i + j]` is exact, and so is the product added to it
    have hcw : ((mulRowLoop x b acc j i).2 + ((mulRowLoop x b acc j i).1.word (i + j)).toUInt64).toNat =
        (mulRowLoop x b acc j i).2.toNat + ((mulRowLoop x b acc j i).1.word (i + j)).toNat := by
      rw [UInt64.toNat_add, UInt32.toNat_toUInt64, Nat.mod_eq_of_lt (by omega)]
    have hn := toNat_add_mul (c := (mulRowLoop x b acc j i).2 +
      ((mulRowLoop x b acc j i).1.word (i + j)).toUInt64) (by omega) (x.word j) (b.word i)
    rw [hcw] at hn
    have hp : (x.word j).toNat * (b.word i).toNat ≤ 4294967295 * 4294967295 :=
      Nat.mul_le_mul (by have := toNat_word_lt x j; omega) (by have := toNat_word_lt b i; omega)
    have hstep := toNat_carryStep (mulRowLoop x b acc j i).1 (k := i + j) (by omega)
      ((mulRowLoop x b acc j i).2 + ((mulRowLoop x b acc j i).1.word (i + j)).toUInt64 +
        (x.word j).toUInt64 * (b.word i).toUInt64)
    rw [hn] at hstep
    rw [mulRowLoop_succ, mulStep]
    dsimp only
    refine ⟨by rw [toNat_highHalf, hn]; omega, ?_⟩
    -- the old limb `a.pn[i + j]` leaves the sum and `carry + a.pn[i + j] + pn[j] * b.pn[i]`
    -- enters at place `i + j`
    rw [show i + 1 + j = i + j + 1 by omega]
    apply Nat.add_right_cancel (m := 2 ^ (32 * (i + j)) * ((mulRowLoop x b acc j i).1.word (i + j)).toNat)
    rw [hstep, Nat.mul_add, Nat.mul_add, Nat.mul_comm (2 ^ (32 * (i + j))) (mulRowLoop x b acc j i).2.toNat]
    have hrow : 2 ^ (32 * j) * ((x.word j).toNat * Limbs.value 32 (fun k => (b.word k).toNat) (i + 1)) =
        2 ^ (32 * (i + j)) * ((x.word j).toNat * (b.word i).toNat) +
          2 ^ (32 * j) * ((x.word j).toNat * Limbs.value 32 (fun k => (b.word k).toNat) i) := by
      rw [Limbs.value_succ, Nat.mul_add 32 i j, Nat.pow_add]
      ring
    rw [hrow]
    omega

/-- Row `j` adds `pn[j] * b * 2^(32 j)`, modulo `2 ^ BITS`: the limbs of `b` it leaves out
would land past the last limb. -/
theorem toNat_mulRow (x b acc : BaseUint BITS) {j : Nat} (hj : j ≤ BITS / 32) :
    (mulRow x b acc j).toNat = (acc.toNat + 2 ^ (32 * j) * ((x.word j).toNat * b.toNat)) % 2 ^ BITS := by
  have hval := (mulRowLoop_spec x b acc j (i := BITS / 32 - j) (by omega)).2
  rw [show BITS / 32 - j + j = BITS / 32 by omega, width_mul acc] at hval
  -- `b` is its low `WIDTH - j` limbs plus `2^(32 (WIDTH - j))` times the rest
  have hb := Nat.mod_add_div b.toNat (2 ^ (32 * (BITS / 32 - j)))
  rw [show b.toNat % 2 ^ (32 * (BITS / 32 - j)) = Limbs.value 32 (fun k => (b.word k).toNat) (BITS / 32 - j)
    from Limbs.value_mod_two_pow (toNat_word_lt b) (by omega)] at hb
  have hplace : 2 ^ (32 * j) * 2 ^ (32 * (BITS / 32 - j)) = 2 ^ BITS := by
    rw [← Nat.pow_add, ← Nat.mul_add, Nat.add_sub_cancel' hj, width_mul acc]
  have hfit := toNat_lt (mulRow x b acc j)
  rw [mulRow] at hfit ⊢
  rw [← Nat.mod_eq_of_lt hfit, ← Nat.add_mul_mod_self_right _ (mulRowLoop x b acc j (BITS / 32 - j)).2.toNat,
    hval, ← hb]
  have hhigh : acc.toNat + 2 ^ (32 * j) * ((x.word j).toNat *
        (Limbs.value 32 (fun k => (b.word k).toNat) (BITS / 32 - j) +
          2 ^ (32 * (BITS / 32 - j)) * (b.toNat / 2 ^ (32 * (BITS / 32 - j))))) =
      acc.toNat + 2 ^ (32 * j) * ((x.word j).toNat *
        Limbs.value 32 (fun k => (b.word k).toNat) (BITS / 32 - j)) +
        2 ^ BITS * ((x.word j).toNat * (b.toNat / 2 ^ (32 * (BITS / 32 - j)))) := by
    rw [← hplace]
    ring
  rw [hhigh, Nat.add_mul_mod_self_left]

/-- The first `j` rows hold the low `j` limbs of `x` times `b`, modulo `2 ^ BITS`. -/
theorem toNat_mulLoop (x b : BaseUint BITS) {j : Nat} (hj : j ≤ BITS / 32) :
    (mulLoop x b j).toNat = (Limbs.value 32 (fun k => (x.word k).toNat) j * b.toNat) % 2 ^ BITS := by
  induction j with
  | zero => simp [mulLoop]
  | succ j ih =>
    rw [mulLoop_succ, toNat_mulRow x b _ (by omega), ih (by omega), Nat.mod_add_mod, Limbs.value_succ]
    congr 1
    ring

/-- `a *= b` is `a * b`, modulo `2 ^ BITS`. -/
theorem toNat_mul (a b : BaseUint BITS) : (mul a b).toNat = (a.toNat * b.toNat) % 2 ^ BITS :=
  toNat_mulLoop a b (Nat.le_refl _)

-- ---------------------------------------------------------------------------
-- operator/=
-- ---------------------------------------------------------------------------

/-- The loop of `operator/=`, from `shift` down to `0` (`shift + 1` steps of fuel): where
`num >= div`, `num -= div` and bit `shift` of the quotient is set; then `div >>= 1`. -/
def divLoop (num div quot : BaseUint BITS) : Nat → BaseUint BITS × BaseUint BITS
  | 0 => (quot, num)
  | shift + 1 =>
    if 0 ≤ compareTo num div then
      -- `pn[shift / 32] |= (1U << (shift & 31))`
      divLoop (sub num div) (div.shiftRight 1)
        (quot.setWord (shift / 32) (quot.word (shift / 32) ||| 1 <<< (shift % 32).toUInt32)) shift
    else divLoop num (div.shiftRight 1) quot shift

/-- `operator/=(b)`: `none` where `*this = 0` writes past the limbs, `uint_error("Division by
zero")` for a zero divisor, and otherwise the quotient, which is `0` when the divisor has more
bits than the number and else comes out of the loop, with the divisor aligned to the number's
top bit. -/
def div (a b : BaseUint BITS) : Option (Except String (BaseUint BITS)) := do
  let quot ← a.assign 0
  let num_bits := a.bits
  let div_bits := b.bits
  if div_bits = 0 then return .error "Division by zero"
  if div_bits > num_bits then return .ok quot
  let shift := num_bits - div_bits
  return .ok (divLoop a (b.shiftLeft shift) quot (shift + 1)).1

/-- `operator/=` once `*this = 0` has cleared the quotient. -/
theorem div_of_assign {a b quot : BaseUint BITS} (h : a.assign 0 = some quot) :
    div a b = if b.bits = 0 then some (.error "Division by zero")
      else if b.bits > a.bits then some (.ok quot)
      else some (.ok (divLoop a (b.shiftLeft (a.bits - b.bits)) quot (a.bits - b.bits + 1)).1) := by
  rw [div, h]
  rfl

/-- At `BITS = 32`, `*this = 0` writes `pn[1]`, past the one limb, before anything else. -/
theorem div_of_width_one (a b : BaseUint 32) : div a b = none := by
  rw [div, assign, if_neg (by decide)]
  rfl

/-- `7 / 2` at `BITS = 32` has no defined result. -/
theorem div_width_one :
    div (⟨#v[7], by decide, by decide⟩ : BaseUint 32) ⟨#v[2], by decide, by decide⟩ = none :=
  div_of_width_one _ _

/-- Setting a clear bit adds its weight. -/
theorem or_two_pow_of_testBit_false {n t : Nat} (h : n.testBit t = false) : n ||| 2 ^ t = n + 2 ^ t := by
  have hsplit := Nat.div_add_mod n (2 ^ (t + 1))
  have htwo : 2 ^ (t + 1) = 2 * 2 ^ t := Nat.pow_succ'
  -- below bit `t + 1`, `n` has only the bits below `t`
  have hlow : n % 2 ^ (t + 1) < 2 ^ t := by
    refine Nat.lt_of_not_le fun hge => ?_
    have hset := Nat.testBit_of_two_pow_le_and_two_pow_add_one_gt hge (Nat.mod_lt _ (Nat.two_pow_pos _))
    rw [Nat.testBit_mod_two_pow, h] at hset
    simp at hset
  calc n ||| 2 ^ t = (2 ^ (t + 1) * (n / 2 ^ (t + 1)) ||| n % 2 ^ (t + 1)) ||| 2 ^ t := by
        rw [← Nat.two_pow_add_eq_or_of_lt (show n % 2 ^ (t + 1) < 2 ^ (t + 1) by omega), hsplit]
    _ = 2 ^ (t + 1) * (n / 2 ^ (t + 1)) ||| (n % 2 ^ (t + 1) + 2 ^ t) := by
        rw [Nat.or_assoc, Nat.or_two_pow_eq_add_of_lt hlow]
    _ = n + 2 ^ t := by
        rw [← Nat.two_pow_add_eq_or_of_lt (by omega), ← Nat.add_assoc, hsplit]

/-- `pn[s / 32] |= (1U << (s & 31))` sets bit `s`, which adds `2 ^ s` where the bit is clear. -/
theorem toNat_setBit (q : BaseUint BITS) {s : Nat} (hs : s < BITS) (hclear : q.toNat.testBit s = false) :
    (q.setWord (s / 32) (q.word (s / 32) ||| 1 <<< (s % 32).toUInt32)).toNat = q.toNat + 2 ^ s := by
  have hmod := q.bits_mod
  have hk : s / 32 < BITS / 32 := by omega
  have ht : s % 32 < 32 := Nat.mod_lt _ (by decide)
  have hw := toNat_setWord q hk (q.word (s / 32) ||| 1 <<< (s % 32).toUInt32)
  have hbit : (q.word (s / 32)).toNat.testBit (s % 32) = false := by
    rw [← testBit_toNat]
    exact hclear
  have hor : (q.word (s / 32) ||| 1 <<< (s % 32).toUInt32).toNat =
      (q.word (s / 32)).toNat + 2 ^ (s % 32) := by
    rw [UInt32.toNat_or, UInt32.toNat_shiftLeft, toNat_toUInt32_mod ht, UInt32.toNat_one,
      Nat.one_shiftLeft, Nat.mod_eq_of_lt (Nat.pow_lt_pow_right (by decide) ht),
      or_two_pow_of_testBit_false hbit]
  have hplace : 2 ^ (32 * (s / 32)) * 2 ^ (s % 32) = 2 ^ s := by
    rw [← Nat.pow_add, Nat.div_add_mod]
  rw [hor, Nat.mul_add, hplace] at hw
  omega

/-- The invariant of the `operator/=` loop with `f` steps to go (the current `shift` is
`f - 1`): `a = quot * b + num`, with `num < b * 2^f`; the quotient has no bit below `f`; and
`div` is `b` aligned to the current shift. -/
structure DivInv (a b num div quot : BaseUint BITS) (f : Nat) : Prop where
  value : a.toNat = quot.toNat * b.toNat + num.toNat
  rem_lt : num.toNat < b.toNat * 2 ^ f
  quot_low : quot.toNat % 2 ^ f = 0
  div_eq : ∀ s, f = s + 1 → div.toNat = b.toNat * 2 ^ s
  fits : f ≤ BITS

/-- A number with no bit below `s + 1` has none below `s`. -/
theorem mod_two_pow_of_succ {x s : Nat} (h : x % 2 ^ (s + 1) = 0) : x % 2 ^ s = 0 :=
  Nat.mod_eq_zero_of_dvd (Nat.dvd_trans (Nat.pow_dvd_pow 2 (Nat.le_succ s)) (Nat.dvd_of_mod_eq_zero h))

section DivLoop

variable {a b num div quot : BaseUint BITS} {s : Nat}

/-- `div >>= 1` moves the alignment down one bit. -/
theorem DivInv.div_shiftRight (h : DivInv a b num div quot (s + 1)) :
    ∀ s', s = s' + 1 → (div.shiftRight 1).toNat = b.toNat * 2 ^ s' := by
  rintro s' rfl
  rw [toNat_shiftRight, h.div_eq (s' + 1) rfl, Nat.shiftRight_eq_div_pow, Nat.pow_succ,
    ← Nat.mul_assoc, Nat.pow_one, Nat.mul_div_cancel _ (by decide)]

/-- The step where `num >= div`: `num -= div` and bit `s` of the quotient is set. -/
theorem DivInv.restore (h : DivInv a b num div quot (s + 1)) (hge : div.toNat ≤ num.toNat) :
    DivInv a b (sub num div) (div.shiftRight 1)
      (quot.setWord (s / 32) (quot.word (s / 32) ||| 1 <<< (s % 32).toUInt32)) s := by
  have hdiv := h.div_eq s rfl
  have hrem := h.rem_lt
  have hlow := h.quot_low
  -- bit `s` of the quotient is still clear
  have hclear : quot.toNat.testBit s = false := by
    have hbit := Nat.testBit_mod_two_pow quot.toNat (s + 1) s
    rw [hlow] at hbit
    simpa using hbit.symm
  have hquot := toNat_setBit quot (show s < BITS by have := h.fits; omega) hclear
  have hnum := toNat_sub_of_le num div hge
  rw [hdiv] at hge hnum
  have hpow : b.toNat * 2 ^ (s + 1) = b.toNat * 2 ^ s + b.toNat * 2 ^ s := by
    rw [Nat.pow_succ]
    ring
  refine ⟨?_, ?_, ?_, h.div_shiftRight, by have := h.fits; omega⟩
  · rw [hquot, hnum, h.value, Nat.add_mul]
    have : b.toNat * 2 ^ s = 2 ^ s * b.toNat := Nat.mul_comm _ _
    omega
  · rw [hnum]
    omega
  · -- no bit of `quot` below `s + 1`, so none of `quot + 2^s` below `s`
    rw [hquot, Nat.add_mod_right]
    exact mod_two_pow_of_succ hlow

/-- The step where `num < div`: only `div >>= 1`. -/
theorem DivInv.keep (h : DivInv a b num div quot (s + 1)) (hlt : num.toNat < div.toNat) :
    DivInv a b num (div.shiftRight 1) quot s := by
  rw [h.div_eq s rfl] at hlt
  exact ⟨h.value, hlt, mod_two_pow_of_succ h.quot_low, h.div_shiftRight, by have := h.fits; omega⟩

/-- The loop ends with the quotient: with no step left, `num < b` is the remainder. -/
theorem divLoop_spec {f : Nat} (hb : 0 < b.toNat) (h : DivInv a b num div quot f) :
    (divLoop num div quot f).1.toNat = a.toNat / b.toNat := by
  induction f generalizing num div quot with
  | zero =>
    have hrem : num.toNat < b.toNat := by simpa using h.rem_lt
    rw [divLoop, h.value, Nat.mul_comm, Nat.mul_add_div hb, Nat.div_eq_of_lt hrem, Nat.add_zero]
  | succ s ih =>
    rw [divLoop]
    -- the branch on `num >= div`, which `CompareTo` decides on the numbers
    by_cases hc : 0 ≤ compareTo num div
    · rw [if_pos hc]
      exact ih (h.restore ((compareTo_nonneg_iff num div).mp hc))
    · rw [if_neg hc]
      exact ih (h.keep (Nat.lt_of_not_le (mt (compareTo_nonneg_iff num div).mpr hc)))

end DivLoop

/-- `a /= b` throws `uint_error("Division by zero")` for `b = 0`, wherever `*this = 0` stays
inside the limbs. -/
theorem div_of_zero (a b : BaseUint BITS) (hw : 2 ≤ BITS / 32) (hb : b.toNat = 0) :
    div a b = some (.error "Division by zero") := by
  obtain ⟨quot, hq, -⟩ := assign_eq a hw 0
  rw [div_of_assign hq, if_pos (by rw [bits_eq_size, hb]; rfl)]

/-- `a /= b` leaves `a / b` for `b ≠ 0`, wherever `*this = 0` stays inside the limbs. -/
theorem div_of_ne_zero (a b : BaseUint BITS) (hw : 2 ≤ BITS / 32) (hb : b.toNat ≠ 0) :
    ∃ q, div a b = some (.ok q) ∧ q.toNat = a.toNat / b.toNat := by
  obtain ⟨quot, hq, hq0⟩ := assign_eq a hw 0
  rw [UInt64.toNat_zero] at hq0
  have hsb : b.bits ≠ 0 := by
    rw [bits_eq_size, Ne, Nat.size_eq_zero]
    exact hb
  rw [div_of_assign hq, if_neg hsb]
  rw [bits_eq_size] at hsb
  rw [bits_eq_size, bits_eq_size]
  -- the number is below `2 ^ bits(a)`, and the divisor at least `2 ^ (bits(b) - 1)`
  have ha := a.toNat.lt_size_self
  have hbtop : 2 ^ (b.toNat.size - 1) ≤ b.toNat := Nat.lt_size.mp (by omega)
  have haB : a.toNat.size ≤ BITS := Nat.size_le.mpr (toNat_lt a)
  by_cases hgt : b.toNat.size > a.toNat.size
  · -- the divisor has more bits: the quotient is `0`
    rw [if_pos hgt]
    refine ⟨quot, rfl, ?_⟩
    have hle : 2 ^ a.toNat.size ≤ 2 ^ (b.toNat.size - 1) := Nat.pow_le_pow_right (by decide) (by omega)
    rw [hq0, Nat.div_eq_of_lt (by omega)]
  · rw [if_neg hgt]
    refine ⟨_, rfl, divLoop_spec (Nat.pos_of_ne_zero hb) ⟨?_, ?_, ?_, ?_, by omega⟩⟩
    · rw [hq0, Nat.zero_mul, Nat.zero_add]
    · -- `2 ^ bits(a) = 2 ^ (bits(b) - 1) * 2 ^ (shift + 1)`
      have hsplit : 2 ^ a.toNat.size =
          2 ^ (b.toNat.size - 1) * 2 ^ (a.toNat.size - b.toNat.size + 1) := by
        rw [← Nat.pow_add]
        congr 1
        omega
      have hmul := Nat.mul_le_mul_right (2 ^ (a.toNat.size - b.toNat.size + 1)) hbtop
      omega
    · rw [hq0, Nat.zero_mod]
    · -- the aligned divisor fits in `BITS` bits
      rintro s hs
      have hs' : s = a.toNat.size - b.toNat.size := by omega
      subst hs'
      have hlt : b.toNat * 2 ^ (a.toNat.size - b.toNat.size) < 2 ^ BITS := by
        have hbsize := b.toNat.lt_size_self
        calc b.toNat * 2 ^ (a.toNat.size - b.toNat.size)
            < 2 ^ b.toNat.size * 2 ^ (a.toNat.size - b.toNat.size) :=
              Nat.mul_lt_mul_of_pos_right hbsize (Nat.two_pow_pos _)
          _ = 2 ^ a.toNat.size := by rw [← Nat.pow_add]; congr 1; omega
          _ ≤ 2 ^ BITS := Nat.pow_le_pow_right (by decide) haB
      rw [toNat_shiftLeft, Nat.shiftLeft_eq, Nat.mod_eq_of_lt hlt]

-- ---------------------------------------------------------------------------
-- The operators against the numbers
-- ---------------------------------------------------------------------------

/-- The operators of `base_uint<BITS>` for every `BITS`: `*=` is the product modulo `2 ^ BITS`,
the shifts are exact for every shift, `bits()` is the position of the top set bit plus one;
and, for `BITS ≥ 64`, `/=` is floor division and throws exactly for a zero divisor. -/
theorem operators_exact (BITS : Nat) :
    (∀ a b : BaseUint BITS, (mul a b).toNat = a.toNat * b.toNat % 2 ^ BITS) ∧
    (∀ (a : BaseUint BITS) (s : Nat), (a.shiftLeft s).toNat = a.toNat * 2 ^ s % 2 ^ BITS) ∧
    (∀ (a : BaseUint BITS) (s : Nat), (a.shiftRight s).toNat = a.toNat / 2 ^ s) ∧
    (∀ a : BaseUint BITS, (a.toNat = 0 → a.bits = 0) ∧
      (a.toNat ≠ 0 → a.toNat.testBit (a.bits - 1) = true ∧ ∀ i, a.bits ≤ i → a.toNat.testBit i = false)) ∧
    (2 ≤ BITS / 32 → ∀ a b : BaseUint BITS,
      (b.toNat ≠ 0 → ∃ q, div a b = some (.ok q) ∧ q.toNat = a.toNat / b.toNat) ∧
      (div a b = some (.error "Division by zero") ↔ b.toNat = 0)) := by
  refine ⟨toNat_mul, fun a s => ?_, fun a s => ?_, bits_spec, fun hw a b => ⟨div_of_ne_zero a b hw, ?_⟩⟩
  · rw [toNat_shiftLeft, Nat.shiftLeft_eq]
  · rw [toNat_shiftRight, Nat.shiftRight_eq_div_pow]
  · refine ⟨fun h => Classical.byContradiction fun hb => ?_, div_of_zero a b hw⟩
    obtain ⟨q, hq, -⟩ := div_of_ne_zero a b hw hb
    rw [hq] at h
    cases h

theorem operators_exact_64 :
    (∃ q, div (⟨#v[7, 0], by decide, by decide⟩ : BaseUint 64) ⟨#v[2, 0], by decide, by decide⟩ = some (.ok q) ∧
      q.toNat = (⟨#v[7, 0], by decide, by decide⟩ : BaseUint 64).toNat /
        (⟨#v[2, 0], by decide, by decide⟩ : BaseUint 64).toNat) ∧
    (div (⟨#v[7, 0], by decide, by decide⟩ : BaseUint 64) ⟨#v[0, 0], by decide, by decide⟩ =
        some (.error "Division by zero") ↔
      (⟨#v[0, 0], by decide, by decide⟩ : BaseUint 64).toNat = 0) :=
  ⟨((operators_exact 64).2.2.2.2 (by decide) _ _).1 (by decide),
    ((operators_exact 64).2.2.2.2 (by decide) _ _).2⟩

end BaseUint

end Riecoin
