-- SUMMARY: Big-endian packing of fixed-width digits into a number, the digits of a number, and their round trips.
import Mathlib.Algebra.Group.Nat.Defs

/-!
# Packing fixed-width digits

A list of digits of `w` bits each, most significant first, denotes the number
`pack w ds`; `digits w k n` is the list of the `k` low digits of `n`. Encoders that
regroup a bit string into symbols of another width, or that write a checksum out as
symbols, are specified by these two functions: `pack_digits` and `digits_pack` say that
they are inverse on numbers and digit lists of the right size, and `pack_injective`
that a digit list of known length is determined by its value.
-/

namespace BitPack

/-- The number whose base-`2 ^ w` digits, most significant first, are `ds`. -/
def pack (w : Nat) (ds : List Nat) : Nat :=
  ds.foldl (fun n d => n * 2 ^ w + d) 0

/-- The `k` low base-`2 ^ w` digits of `n`, most significant first. -/
def digits (w : Nat) : Nat → Nat → List Nat
  | 0, _ => []
  | k + 1, n => digits w k (n / 2 ^ w) ++ [n % 2 ^ w]

@[simp] theorem digits_zero (w n : Nat) : digits w 0 n = [] := rfl

theorem digits_succ (w k n : Nat) : digits w (k + 1) n = digits w k (n / 2 ^ w) ++ [n % 2 ^ w] := rfl

/-- Every digit of the list is below `2 ^ w`. -/
def Bounded (w : Nat) (ds : List Nat) : Prop := ∀ d ∈ ds, d < 2 ^ w

-- ---------------------------------------------------------------------------
-- Packing
-- ---------------------------------------------------------------------------

/-- Running the packing loop from `n` shifts `n` past the digits. -/
theorem foldl_pack (w : Nat) (ds : List Nat) (n : Nat) :
    ds.foldl (fun n d => n * 2 ^ w + d) n = n * 2 ^ (w * ds.length) + pack w ds := by
  induction ds generalizing n with
  | nil => simp [pack]
  | cons d ds ih =>
    unfold pack at ih ⊢
    simp only [List.foldl_cons, Nat.zero_mul, Nat.zero_add] at ih ⊢
    rw [ih, ih d, List.length_cons, Nat.mul_succ, Nat.pow_add]
    simp only [Nat.add_mul, Nat.mul_assoc, Nat.add_assoc, Nat.mul_comm (2 ^ w)]

@[simp] theorem pack_nil (w : Nat) : pack w [] = 0 := rfl

theorem pack_cons (w d : Nat) (ds : List Nat) :
    pack w (d :: ds) = d * 2 ^ (w * ds.length) + pack w ds := by
  simpa [pack] using foldl_pack w ds d

theorem pack_append (w : Nat) (ds es : List Nat) :
    pack w (ds ++ es) = pack w ds * 2 ^ (w * es.length) + pack w es := by
  rw [pack, List.foldl_append, foldl_pack]
  rfl

@[simp] theorem pack_append_singleton (w : Nat) (ds : List Nat) (d : Nat) :
    pack w (ds ++ [d]) = pack w ds * 2 ^ w + d := by
  simp [pack_append, pack_cons]

theorem bounded_cons {w d : Nat} {ds : List Nat} :
    Bounded w (d :: ds) ↔ d < 2 ^ w ∧ Bounded w ds := by
  simp [Bounded]

theorem bounded_append {w : Nat} {ds es : List Nat} :
    Bounded w (ds ++ es) ↔ Bounded w ds ∧ Bounded w es := by
  simp only [Bounded, List.mem_append]
  exact ⟨fun h => ⟨fun d hd => h d (.inl hd), fun d hd => h d (.inr hd)⟩,
    fun h d hd => hd.elim (h.1 d) (h.2 d)⟩

theorem bounded_mono {w w' : Nat} {ds : List Nat} (hw : w ≤ w') (h : Bounded w ds) :
    Bounded w' ds :=
  fun d hd => Nat.lt_of_lt_of_le (h d hd) (Nat.pow_le_pow_right (by decide) hw)

theorem pack_lt {w : Nat} {ds : List Nat} (h : Bounded w ds) : pack w ds < 2 ^ (w * ds.length) := by
  induction ds with
  | nil => simp
  | cons d ds ih =>
    obtain ⟨hd, hds⟩ := bounded_cons.mp h
    have hpack := ih hds
    rw [pack_cons, List.length_cons, Nat.mul_succ, Nat.pow_add, Nat.mul_comm (2 ^ _)]
    calc d * 2 ^ (w * ds.length) + pack w ds
        < d * 2 ^ (w * ds.length) + 2 ^ (w * ds.length) := by omega
      _ = (d + 1) * 2 ^ (w * ds.length) := by rw [Nat.succ_mul]
      _ ≤ 2 ^ w * 2 ^ (w * ds.length) := Nat.mul_le_mul_right _ hd

/-- A bounded digit list of known length is determined by its value. -/
theorem pack_injective {w : Nat} :
    ∀ {ds es : List Nat}, ds.length = es.length → Bounded w ds → Bounded w es →
      pack w ds = pack w es → ds = es
  | [], [], _, _, _, _ => rfl
  | d :: ds, e :: es, hlen, hds, hes, heq => by
    obtain ⟨hd, hds'⟩ := bounded_cons.mp hds
    obtain ⟨he, hes'⟩ := bounded_cons.mp hes
    have hlen' : ds.length = es.length := by simpa using hlen
    rw [pack_cons, pack_cons, hlen'] at heq
    have hpos : 0 < 2 ^ (w * es.length) := Nat.two_pow_pos _
    have hltd : pack w ds < 2 ^ (w * es.length) := hlen' ▸ pack_lt hds'
    have hlte : pack w es < 2 ^ (w * es.length) := pack_lt hes'
    -- the leading digit is the quotient, the rest the remainder, by `2 ^ (w * length)`
    have hhead : d = e := by
      have := congrArg (· / 2 ^ (w * es.length)) heq
      simpa [Nat.add_comm (_ * _), Nat.add_mul_div_right _ _ hpos, Nat.div_eq_of_lt hltd,
        Nat.div_eq_of_lt hlte] using this
    subst hhead
    rw [pack_injective hlen' hds' hes' (by omega)]

-- ---------------------------------------------------------------------------
-- Digits
-- ---------------------------------------------------------------------------

@[simp] theorem length_digits (w k n : Nat) : (digits w k n).length = k := by
  induction k generalizing n with
  | zero => rfl
  | succ k ih => simp [digits_succ, ih]

theorem bounded_digits (w k n : Nat) : Bounded w (digits w k n) := by
  induction k generalizing n with
  | zero => simp [Bounded]
  | succ k ih =>
    rw [digits_succ, bounded_append]
    exact ⟨ih _, by simpa [Bounded] using Nat.mod_lt n (Nat.two_pow_pos w)⟩

/-- The digits pack back to the number, cut to `k` digits. -/
theorem pack_digits (w k n : Nat) : pack w (digits w k n) = n % 2 ^ (w * k) := by
  induction k generalizing n with
  | zero => simp [Nat.mod_one]
  | succ k ih =>
    rw [digits_succ, pack_append_singleton, ih, Nat.mul_succ, Nat.pow_add, Nat.mul_comm (2 ^ (w * k)),
      Nat.mod_mul, Nat.add_comm (n % 2 ^ w), Nat.mul_comm (2 ^ w)]

theorem digits_pack {w : Nat} {ds : List Nat} (h : Bounded w ds) :
    digits w ds.length (pack w ds) = ds :=
  pack_injective (length_digits _ _ _) (bounded_digits _ _ _) h
    (by rw [pack_digits, Nat.mod_eq_of_lt (pack_lt h)])

/-- Digit `i` of `k`, counted from the most significant one, as a shift and a mask. -/
theorem digits_eq_map_range (w k n : Nat) :
    digits w k n = (List.range k).map fun i => n / 2 ^ (w * (k - 1 - i)) % 2 ^ w := by
  induction k generalizing n with
  | zero => rfl
  | succ k ih =>
    rw [digits_succ, ih, List.range_succ, List.map_append]
    congr 1
    · refine List.map_congr_left fun i hi => ?_
      have hik : i < k := List.mem_range.mp hi
      have hexp : w * (k + 1 - 1 - i) = w + w * (k - 1 - i) := by
        rw [show k + 1 - 1 - i = (k - 1 - i) + 1 by omega, Nat.mul_succ, Nat.add_comm]
      rw [hexp, Nat.pow_add, Nat.div_div_eq_div_mul]
    · simp

-- ---------------------------------------------------------------------------
-- Bits
-- ---------------------------------------------------------------------------

/-- Below a shift, `^^^` adds: the bits of `d` and of `a <<< i` do not overlap. -/
theorem shiftLeft_xor_eq_add {a d i : Nat} (hd : d < 2 ^ i) : a <<< i ^^^ d = a <<< i + d := by
  apply Nat.eq_of_testBit_eq
  intro j
  rw [Nat.testBit_xor, Nat.testBit_shiftLeft, Nat.shiftLeft_eq, Nat.mul_comm,
    Nat.testBit_two_pow_mul_add a hd]
  by_cases hj : j < i
  · simp [hj, Nat.not_le_of_lt hj]
  · have hdj : d.testBit j = false :=
      Nat.testBit_lt_two_pow (Nat.lt_of_lt_of_le hd (Nat.pow_le_pow_right (by decide) (by omega)))
    simp [hj, hdj, Nat.le_of_not_lt hj]

end BitPack
