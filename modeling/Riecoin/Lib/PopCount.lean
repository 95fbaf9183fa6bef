-- SUMMARY: The SWAR population count on numbers of k bytes: each masking stage acts byte by byte, a byte's stages are checked over all 256 bytes, and the two ways of adding the byte counts (shift-and-add folds, multiplication by 0x0101…01) give the number of set bits.
import Mathlib.Data.Finset.Card
import Mathlib.Tactic.NormNum
import Mathlib.Tactic.Ring

/-!
# Population count by masking stages

The usual branch-free population count of a number of `k` bytes replaces each 2-bit group by
its count (`stageA`), then each 4-bit group (`stageB`), then each byte (`stageC`), and adds the
byte counts: by shifted additions for numbers of up to four bytes (`fold_two`, `fold_four`), or
by one multiplication with `0x0101…01` whose top byte collects them (`mul_rep_top_byte`).

Each stage acts on a number as on its low byte and on its other bytes separately
(`IsBytewise`), so a stage is known once it is known on single bytes, which `decide` checks
(`byte_stages`). `count k n` is the number of set bits among the `k` low bits of `n`.
-/

namespace PopCount

/-- The number of set bits among the `k` low bits of `n`. -/
def count : Nat → Nat → Nat
  | 0, _ => 0
  | k + 1, n => n % 2 + count k (n / 2)

theorem count_add (j k n : Nat) : count (j + k) n = count j n + count k (n / 2 ^ j) := by
  induction j generalizing n with
  | zero => simp [count]
  | succ j ih =>
    rw [Nat.add_right_comm, count, ih, count, Nat.div_div_eq_div_mul, Nat.pow_succ', Nat.add_assoc]

theorem count_le (k n : Nat) : count k n ≤ k := by
  induction k generalizing n with
  | zero => exact Nat.le_refl 0
  | succ k ih =>
    have := ih (n / 2)
    rw [count]
    omega

/-- `count k n` counts the positions below `k` where `n` has a set bit. -/
theorem count_eq_card (k n : Nat) : count k n = ((Finset.range k).filter fun i => n.testBit i).card := by
  induction k generalizing n with
  | zero => rfl
  | succ k ih =>
    -- the positions of `n` above `0` are those of `n / 2`, one higher
    have hsplit : (Finset.range (k + 1)).filter (fun i => n.testBit i) =
        ((Finset.range k).filter fun i => (n / 2).testBit i).map ⟨Nat.succ, Nat.succ_injective⟩ ∪
          (if n % 2 = 1 then {0} else ∅) := by
      ext i
      cases i with
      | zero => by_cases h : n % 2 = 1 <;> simp [h, Nat.testBit_zero]
      | succ i => by_cases h : n % 2 = 1 <;> simp [h, Nat.testBit_succ]
    have hdisj : Disjoint (((Finset.range k).filter fun i => (n / 2).testBit i).map ⟨Nat.succ, Nat.succ_injective⟩)
        (if n % 2 = 1 then {0} else ∅) := by
      split <;> simp
    rw [hsplit, Finset.card_union_of_disjoint hdisj, Finset.card_map, ← ih, count]
    split
    · rw [Finset.card_singleton]
      omega
    · rw [Finset.card_empty]
      omega

/-! ## Repeated bytes and the stages -/

/-- The `k`-byte number whose every byte is `b`. -/
def rep (b : Nat) : Nat → Nat
  | 0 => 0
  | k + 1 => b + 256 * rep b k

@[simp] theorem rep_zero (b : Nat) : rep b 0 = 0 := rfl

@[simp] theorem rep_succ (b k : Nat) : rep b (k + 1) = b + 256 * rep b k := rfl

theorem rep_succ_top (b k : Nat) : rep b (k + 1) = rep b k + 256 ^ k * b := by
  induction k with
  | zero => simp
  | succ k ih =>
    calc rep b (k + 2) = b + 256 * rep b (k + 1) := rfl
      _ = b + 256 * rep b k + 256 ^ (k + 1) * b := by
        rw [ih, Nat.pow_succ', Nat.mul_add, Nat.mul_assoc, Nat.add_assoc]
      _ = rep b (k + 1) + 256 ^ (k + 1) * b := rfl

/-- Counts of the 2-bit groups. -/
def stageA (v k : Nat) : Nat := v - (v >>> 1 &&& rep 85 k)

/-- Counts of the 4-bit groups. -/
def stageB (v k : Nat) : Nat := (stageA v k &&& rep 51 k) + (stageA v k >>> 2 &&& rep 51 k)

/-- Counts of the bytes. -/
def stageC (v k : Nat) : Nat := (stageB v k + stageB v k >>> 4) &&& rep 15 k

set_option maxRecDepth 8192 in
/-- The stages on one byte, checked over all bytes. -/
theorem byte_stages : ∀ v : Fin 256, stageA v 1 < 256 ∧ stageB v 1 ≤ 68 ∧ stageB v 1 % 16 ≤ 4 ∧
    stageC v 1 ≤ 8 ∧ stageC v 1 = count 8 v := by
  decide +kernel

theorem stages_of_byte {v : Nat} (hv : v < 256) : stageA v 1 < 256 ∧ stageB v 1 ≤ 68 ∧
    stageB v 1 % 16 ≤ 4 ∧ stageC v 1 ≤ 8 ∧ stageC v 1 = count 8 v :=
  byte_stages ⟨v, hv⟩

/-! ## Acting byte by byte -/

/-- A function of a number and its byte length acts on the low byte and the other bytes
separately. -/
def IsBytewise (f : Nat → Nat → Nat) : Prop :=
  ∀ v k, f v (k + 1) = f (v % 256) 1 + 256 * f (v / 256) k

section Bytewise

variable {f g : Nat → Nat → Nat}

theorem and_fifteen (x : Nat) : x &&& 15 = x % 16 := Nat.and_two_pow_sub_one_eq_mod x 4

theorem and_sixtyThree (x : Nat) : x &&& 63 = x % 64 := Nat.and_two_pow_sub_one_eq_mod x 6

theorem shiftRight_eight (x : Nat) : x >>> 8 = x / 256 := Nat.shiftRight_eq_div_pow x 8

theorem shiftRight_sixteen (x : Nat) : x >>> 16 = x / 65536 := Nat.shiftRight_eq_div_pow x 16

/-- `&&&` of two numbers splits at a byte. -/
theorem and_split_byte {lo hi lo' hi' : Nat} (hlo : lo < 256) (hlo' : lo' < 256) :
    (lo + 256 * hi) &&& (lo' + 256 * hi') = (lo &&& lo') + 256 * (hi &&& hi') := by
  have hsplit := Nat.mod_add_div ((lo + 256 * hi) &&& (lo' + 256 * hi')) (2 ^ 8)
  rw [Nat.and_mod_two_pow, Nat.and_div_two_pow] at hsplit
  rw [← hsplit]
  have h1 : (lo + 256 * hi) % 2 ^ 8 = lo := by omega
  have h2 : (lo' + 256 * hi') % 2 ^ 8 = lo' := by omega
  have h3 : (lo + 256 * hi) / 2 ^ 8 = hi := by omega
  have h4 : (lo' + 256 * hi') / 2 ^ 8 = hi' := by omega
  rw [h1, h2, h3, h4]
  rfl

theorem isBytewise_id : IsBytewise fun v _ => v := fun v _ => (Nat.mod_add_div v 256).symm

theorem isBytewise_rep (b : Nat) : IsBytewise fun _ k => rep b k := fun _ k => by
  simp only [rep_succ, rep_zero, Nat.mul_zero, Nat.add_zero]

theorem IsBytewise.add (hf : IsBytewise f) (hg : IsBytewise g) : IsBytewise fun v k => f v k + g v k :=
  fun v k => by
    dsimp only
    rw [hf v k, hg v k]
    omega

theorem IsBytewise.sub (hf : IsBytewise f) (hg : IsBytewise g) (hle : ∀ v k, g v k ≤ f v k) :
    IsBytewise fun v k => f v k - g v k := fun v k => by
  have h1 := hle (v % 256) 1
  have h2 := hle (v / 256) k
  dsimp only
  rw [hf v k, hg v k]
  omega

theorem IsBytewise.and (hf : IsBytewise f) (hg : IsBytewise g) (hf1 : ∀ v < 256, f v 1 < 256)
    (hg1 : ∀ v < 256, g v 1 < 256) : IsBytewise fun v k => f v k &&& g v k := fun v k => by
  have hv : v % 256 < 256 := Nat.mod_lt _ (by decide)
  dsimp only
  rw [hf v k, hg v k, and_split_byte (hf1 _ hv) (hg1 _ hv)]

/-- A value that acts byte by byte once shifted left does so unshifted. -/
theorem IsBytewise.of_shiftLeft {s : Nat} (h : IsBytewise fun v k => f v k <<< s) : IsBytewise f :=
  fun v k => by
    have hvk := h v k
    simp only [Nat.shiftLeft_eq] at hvk
    apply Nat.eq_of_mul_eq_mul_right (Nat.two_pow_pos s)
    rw [hvk, Nat.add_mul, Nat.mul_assoc]

theorem shiftRight_and_shiftLeft {v m s : Nat} : (v >>> s &&& m) <<< s = v &&& m <<< s := by
  apply Nat.eq_of_testBit_eq
  intro j
  by_cases hj : s ≤ j
  · simp [Nat.testBit_shiftLeft, Nat.testBit_shiftRight, hj, Nat.add_sub_cancel' hj]
  · simp [Nat.testBit_shiftLeft, hj]

theorem rep_shiftLeft {b s : Nat} (k : Nat) : rep b k <<< s = rep (b <<< s) k := by
  simp only [Nat.shiftLeft_eq]
  induction k with
  | zero => simp
  | succ k ih => rw [rep_succ, rep_succ, Nat.add_mul, Nat.mul_assoc, ih]

/-- Shifting right by less than a byte and masking with a repeated byte that the shift keeps
inside a byte acts byte by byte. -/
theorem IsBytewise.shiftRight_and_rep (hf : IsBytewise f) (hf1 : ∀ v < 256, f v 1 < 256) {m s : Nat}
    (hms : m <<< s < 256) : IsBytewise fun v k => f v k >>> s &&& rep m k := by
  apply IsBytewise.of_shiftLeft (s := s)
  have h := hf.and (isBytewise_rep _) hf1 (fun _ _ => by simpa using hms)
  simpa only [shiftRight_and_shiftLeft, rep_shiftLeft] using h

theorem isBytewise_stageA : IsBytewise stageA :=
  isBytewise_id.sub (isBytewise_id.shiftRight_and_rep (fun _ hv => hv) (by decide))
    (fun _ _ => Nat.le_trans Nat.and_le_left (Nat.shiftRight_le _ _))

theorem stageA_byte_lt {v : Nat} (hv : v < 256) : stageA v 1 < 256 := (stages_of_byte hv).1

theorem isBytewise_stageB : IsBytewise stageB :=
  (isBytewise_stageA.and (isBytewise_rep 51) (fun _ => stageA_byte_lt) (fun _ _ => by decide)).add
    (isBytewise_stageA.shiftRight_and_rep (fun _ => stageA_byte_lt) (by decide))

theorem stageB_byte_le {v : Nat} (hv : v < 256) : stageB v 1 ≤ 68 := (stages_of_byte hv).2.1

/-- Every 4-bit group of `stageB` holds at most `4`. -/
theorem stageB_mod_16 (v k : Nat) : stageB v k % 16 ≤ 4 := by
  cases k with
  | zero => simp [stageB, stageA]
  | succ k =>
    have h := (stages_of_byte (v := v % 256) (Nat.mod_lt _ (by decide))).2.2.1
    rw [isBytewise_stageB v k]
    omega

theorem isBytewise_stageC : IsBytewise stageC := fun v k => by
  have hlo := stageB_byte_le (v := v % 256) (Nat.mod_lt _ (by decide))
  have hhi := stageB_mod_16 (v / 256) k
  have hsplit := isBytewise_stageB v k
  -- the low half of the next byte lands in the high half of the low byte, which the mask drops
  have hsum : stageB v (k + 1) + stageB v (k + 1) >>> 4 =
      (stageB (v % 256) 1 + stageB (v % 256) 1 >>> 4 + 16 * (stageB (v / 256) k % 16)) +
        256 * (stageB (v / 256) k + stageB (v / 256) k >>> 4) := by
    simp only [Nat.shiftRight_eq_div_pow]
    omega
  have hlt : stageB (v % 256) 1 + stageB (v % 256) 1 >>> 4 + 16 * (stageB (v / 256) k % 16) < 256 := by
    simp only [Nat.shiftRight_eq_div_pow]
    omega
  unfold stageC
  rw [hsum, rep_succ, and_split_byte hlt (by decide)]
  simp only [rep_succ, rep_zero, Nat.mul_zero, Nat.add_zero, and_fifteen]
  omega

end Bytewise

/-! ## The byte counts -/

/-- The sum of the `k` low bytes of `v`. -/
def byteSum : Nat → Nat → Nat
  | _, 0 => 0
  | v, k + 1 => v % 256 + byteSum (v / 256) k

@[simp] theorem byteSum_zero (v : Nat) : byteSum v 0 = 0 := rfl

@[simp] theorem byteSum_succ (v k : Nat) : byteSum v (k + 1) = v % 256 + byteSum (v / 256) k := rfl

theorem count_mod_two_pow (k n : Nat) : count k (n % 2 ^ k) = count k n := by
  induction k generalizing n with
  | zero => rfl
  | succ k ih =>
    have h1 : n % 2 ^ (k + 1) % 2 = n % 2 := Nat.mod_mod_of_dvd n ⟨2 ^ k, Nat.pow_succ'⟩
    have h2 : n % 2 ^ (k + 1) / 2 = n / 2 % 2 ^ k := by rw [Nat.pow_succ', Nat.mod_mul_right_div_self]
    rw [count, count, h1, h2, ih]

/-- A number of `k + 1` bytes has the set bits of its low byte and those of the rest. -/
theorem count_succ_bytes (k v : Nat) : count (8 * (k + 1)) v = count 8 (v % 256) + count (8 * k) (v / 256) := by
  rw [Nat.mul_succ, Nat.add_comm, count_add, ← count_mod_two_pow 8 v]
  rfl

/-- The byte counts of `stageC` add up to the set bits. -/
theorem byteSum_stageC (k v : Nat) : byteSum (stageC v k) k = count (8 * k) v := by
  induction k generalizing v with
  | zero => rfl
  | succ k ih =>
    have hbyte := (stages_of_byte (v := v % 256) (Nat.mod_lt _ (by decide))).2.2.2
    have hsplit := isBytewise_stageC v k
    have hmod : stageC v (k + 1) % 256 = stageC (v % 256) 1 := by omega
    have hdiv : stageC v (k + 1) / 256 = stageC (v / 256) k := by omega
    rw [byteSum_succ, hmod, hdiv, ih, count_succ_bytes, hbyte.2]

theorem stageC_zero (v : Nat) : stageC v 0 = 0 := by simp [stageC]

theorem stageC_low_le (v : Nat) : stageC (v % 256) 1 ≤ 8 :=
  (stages_of_byte (Nat.mod_lt v (by decide))).2.2.2.1

/-- Every byte of `stageC` holds at most `8`. -/
theorem stageC_le_rep (k v : Nat) : stageC v k ≤ rep 8 k := by
  induction k generalizing v with
  | zero => simp [stageC_zero]
  | succ k ih =>
    have hbyte := stageC_low_le v
    have := ih (v / 256)
    rw [isBytewise_stageC v k, rep_succ]
    omega

theorem stageB_le_rep (k v : Nat) : stageB v k ≤ rep 68 k := by
  induction k generalizing v with
  | zero => simp [stageB, stageA]
  | succ k ih =>
    have hbyte := stageB_byte_le (v := v % 256) (Nat.mod_lt _ (by decide))
    have := ih (v / 256)
    rw [isBytewise_stageB v k, rep_succ]
    omega

theorem fold_two (v : Nat) : (stageC v 2 + stageC v 2 >>> 8) &&& 63 = count 16 v := by
  rw [show 16 = 8 * 2 from rfl, ← byteSum_stageC 2 v, isBytewise_stageC v 1, isBytewise_stageC (v / 256) 0,
    stageC_zero]
  have h0 := stageC_low_le v
  have h1 := stageC_low_le (v / 256)
  generalize stageC (v % 256) 1 = a at h0 ⊢
  generalize stageC (v / 256 % 256) 1 = b at h1 ⊢
  simp only [byteSum_succ, byteSum_zero, and_sixtyThree, shiftRight_eight, Nat.mul_zero, Nat.add_zero]
  have hb : (a + 256 * b) / 256 = b := by omega
  have ha : (a + 256 * b) % 256 = a := by omega
  rw [hb, ha, Nat.mod_eq_of_lt (show b < 256 by omega)]
  omega

/-- For four bytes: fold the high half onto the low one twice and keep six bits. -/
theorem fold_four (v : Nat) :
    ((stageC v 4 + stageC v 4 >>> 8) + (stageC v 4 + stageC v 4 >>> 8) >>> 16) &&& 63 = count 32 v := by
  rw [show 32 = 8 * 4 from rfl, ← byteSum_stageC 4 v, isBytewise_stageC v 3, isBytewise_stageC (v / 256) 2,
    isBytewise_stageC (v / 256 / 256) 1, isBytewise_stageC (v / 256 / 256 / 256) 0, stageC_zero]
  have h0 := stageC_low_le v
  have h1 := stageC_low_le (v / 256)
  have h2 := stageC_low_le (v / 256 / 256)
  have h3 := stageC_low_le (v / 256 / 256 / 256)
  generalize stageC (v % 256) 1 = a at h0 ⊢
  generalize stageC (v / 256 % 256) 1 = b at h1 ⊢
  generalize stageC (v / 256 / 256 % 256) 1 = c at h2 ⊢
  generalize stageC (v / 256 / 256 / 256 % 256) 1 = d at h3 ⊢
  simp only [byteSum_succ, byteSum_zero, and_sixtyThree, shiftRight_eight, shiftRight_sixteen, Nat.mul_zero,
    Nat.add_zero]
  -- the bytes of the number, and the first fold, which leaves `c + d` in the low byte of the high half
  have hb : (a + 256 * (b + 256 * (c + 256 * d))) / 256 = b + 256 * (c + 256 * d) := by omega
  have hc : (b + 256 * (c + 256 * d)) / 256 = c + 256 * d := by omega
  have hd : (c + 256 * d) / 256 = d := by omega
  have hfold : (a + 256 * (b + 256 * (c + 256 * d)) + (b + 256 * (c + 256 * d))) / 65536 = c + d + 256 * d := by
    omega
  have hmods : (a + 256 * (b + 256 * (c + 256 * d))) % 256 + ((b + 256 * (c + 256 * d)) % 256 +
      ((c + 256 * d) % 256 + d % 256)) = a + b + c + d := by omega
  rw [hb, hc, hd, hfold, hmods]
  omega

/-- Multiplying by `rep 1 (k + 1)` puts the byte sum (plus multiples of `256`) in byte `k`, over
a remainder below what the byte sum could fill. -/
theorem mul_rep_split (k v : Nat) (hv : v < 256 ^ (k + 1)) :
    ∃ L T, L ≤ byteSum v (k + 1) * rep 1 k ∧
      v * rep 1 (k + 1) = L + 256 ^ k * (byteSum v (k + 1) + 256 * T) := by
  induction k generalizing v with
  | zero =>
    refine ⟨0, 0, Nat.zero_le _, ?_⟩
    have : v % 256 = v := Nat.mod_eq_of_lt (by simpa using hv)
    simp [this]
  | succ k ih =>
    have hhi : v / 256 < 256 ^ (k + 1) := by
      rw [Nat.pow_succ] at hv
      omega
    obtain ⟨L, T, hL, hLT⟩ := ih (v / 256) hhi
    -- the low byte times `rep 1 (k + 2)`, and `256` times the rest, which the hypothesis splits
    have hrep : rep 1 (k + 2) = rep 1 (k + 1) + 256 ^ (k + 1) := by rw [rep_succ_top, Nat.mul_one]
    have hv' : v = v % 256 + 256 * (v / 256) := (Nat.mod_add_div v 256).symm
    have hrep_le : 256 * rep 1 k ≤ rep 1 (k + 1) := by rw [rep_succ]; omega
    refine ⟨v % 256 * rep 1 (k + 1) + 256 * L, T + v / 256, ?_, ?_⟩
    · have hL' : 256 * L ≤ byteSum (v / 256) (k + 1) * rep 1 (k + 1) :=
        calc 256 * L ≤ 256 * (byteSum (v / 256) (k + 1) * rep 1 k) := Nat.mul_le_mul_left _ hL
          _ = byteSum (v / 256) (k + 1) * (256 * rep 1 k) := by rw [Nat.mul_left_comm]
          _ ≤ byteSum (v / 256) (k + 1) * rep 1 (k + 1) := Nat.mul_le_mul_left _ hrep_le
      rw [byteSum_succ, Nat.add_mul]
      omega
    · calc v * rep 1 (k + 2)
          = v % 256 * rep 1 (k + 1) + 256 ^ (k + 1) * (v % 256) + 256 * (v / 256 * rep 1 (k + 1)) +
              256 ^ (k + 2) * (v / 256) := by
            conv_lhs => rw [hv', hrep]
            ring
        _ = v % 256 * rep 1 (k + 1) + 256 * L +
              256 ^ (k + 1) * (byteSum v (k + 2) + 256 * (T + v / 256)) := by
            rw [hLT, byteSum_succ v (k + 1)]
            ring

theorem rep_one_mul (k : Nat) : 255 * rep 1 k + 1 = 256 ^ k := by
  induction k with
  | zero => rfl
  | succ k ih =>
    rw [rep_succ, Nat.pow_succ]
    omega

/-- Where the byte sum fits in a byte, it is the top byte of the product with `rep 1 (k + 1)`. -/
theorem mul_rep_top_byte (k v : Nat) (hv : v < 256 ^ (k + 1)) (hs : byteSum v (k + 1) < 256) :
    v * rep 1 (k + 1) / 256 ^ k % 256 = byteSum v (k + 1) := by
  obtain ⟨L, T, hL, hLT⟩ := mul_rep_split k v hv
  have hlt : L < 256 ^ k := by
    have h255 : byteSum v (k + 1) * rep 1 k ≤ 255 * rep 1 k := Nat.mul_le_mul_right _ (by omega)
    have := rep_one_mul k
    omega
  rw [hLT, Nat.add_mul_div_left _ _ (Nat.pow_pos (by decide)), Nat.div_eq_of_lt hlt, Nat.zero_add]
  omega

end PopCount
