-- SUMMARY: MerkleComputation, the constant-space Merkle path of TransactionMerklePath: up to 2^31 leaves it returns the level-by-level path, whose fold from the leaf is ComputeMerkleRoot; above 2^31 leaves its final sweep shifts a uint32_t by 32.
import Riecoin.Consensus.Merkle
import Mathlib.Data.Nat.Log
import Mathlib.Data.Nat.Bitwise
import Mathlib.Data.List.GetD
import Mathlib.Data.List.Basic

/-!
# Merkle paths

`MerkleComputation` (`consensus/merkle.cpp`) computes the path of the leaf at `leaf_pos`
without building the tree. A first loop reads the leaves in order and keeps, for each set
bit `k` of the number `count` of leaves read, the root of a complete subtree of `2 ^ k`
leaves in `inner[k]`: a new leaf is carried up through the set low bits of `count` as in a
binary increment. A final sweep then closes the rightmost branch of the tree, hashing a node
with itself on the levels where `ComputeMerkleRoot` duplicates the last hash. On the way,
whenever the subtree of the leaf meets another, the other one's root is appended to the path.

The reference is the level-by-level computation of `ComputeMerkleRoot`: `merkleLevel` is
its level `k`, `node k i` its `i`-th hash, and `merklePath` the sibling of the leaf's
ancestor on each level below the root. `computeMerkleRootFromBranch`, the fold of the unit
tests, takes the leaf and that path up to the root (`computeMerkleRootFromBranch_merklePath`).

`MerkleComputation` returns exactly `merklePath` for up to `2 ^ 31` leaves
(`merkleComputation_eq`). Its counters are `uint32_t`, and the final sweep counts up to the
next power of two: from `2 ^ 31 + 1` leaves on, that is `2 ^ 32`, which wraps to `0`, and the
carry loop then shifts `1` by `32`, which is undefined (`merkleComputation_of_lt_length`).
-/

namespace Riecoin.Consensus

variable {α : Type} (hash : α → α → α)

/-- `UINT32_MAX`. -/
def UINT32_MAX : Nat := 2 ^ 32 - 1

/-- The state of the first loop of `MerkleComputation`: `count`, the array `inner`,
`matchlevel` and the path so far. -/
structure MerkleState (α : Type) where
  count : Nat
  inner : Nat → α
  matchlevel : Int
  path : List α

-- ---------------------------------------------------------------------------
-- MerkleComputation
-- ---------------------------------------------------------------------------

/-- The path bookkeeping in the body of the carry loop: where `h` depends on the matching
leaf, `inner[level]` is its sibling; where `inner[level]` does, `h` is, and from here on `h`
depends on the leaf. -/
def carryPath (inner : Nat → α) (matchlevel : Int) (level : Nat) (h : α) (matchh : Bool)
    (path : List α) : Bool × List α :=
  if matchh then (matchh, path ++ [inner level])
  else if matchlevel = level then (true, path ++ [h])
  else (matchh, path)

/-- The carry loop `for (; !(count & (1 << level)); level++)` of both phases: on each level
where `count` has a zero bit, record the sibling of the matching leaf and hash
`inner[level]` with `h`. It returns the level where it stops with `h`, `matchh` and the
path, and `none` where the shift reaches the width of `uint32_t`. -/
def propagate (count : Nat) (inner : Nat → α) (matchlevel : Int) :
    Nat → Nat → α → Bool → List α → Option (Nat × α × Bool × List α)
  | 0, _, _, _, _ => none
  | fuel + 1, level, h, matchh, path =>
    if 32 ≤ level then none
    else if count &&& 1 <<< level ≠ 0 then some (level, h, matchh, path)
    else
      let (matchh, path) := carryPath inner matchlevel level h matchh path
      propagate count inner matchlevel fuel (level + 1) (hash (inner level) h) matchh path

/-- One pass of the first loop: the leaf at `count` is carried up through the set low bits
of `count + 1` and stored in `inner` at the level where the carry stops. -/
def leafStep (leaf_pos : Nat) (st : MerkleState α) (leaf : α) : Option (MerkleState α) :=
  let matchh := st.count == leaf_pos
  let count := (st.count + 1) % 2 ^ 32
  (propagate hash count st.inner st.matchlevel 32 0 leaf matchh st.path).map
    fun (level, h, matchh, path) =>
      { count, inner := Function.update st.inner level h,
        matchlevel := if matchh then level else st.matchlevel, path }

/-- `while (!(count & (1 << level))) level++;`: the lowest set bit of `count`. -/
def lowestSetBit (count : Nat) : Nat → Nat → Option Nat
  | 0, _ => none
  | fuel + 1, level =>
    if 32 ≤ level then none
    else if count &&& 1 <<< level ≠ 0 then some level
    else lowestSetBit count fuel (level + 1)

/-- The final sweep `while (count != (1 << level))` over the rightmost branch: a node without
a right sibling is hashed with itself, `count` goes up as if the sibling had been there,
and the carry loop takes the result up. -/
def sweepLoop (inner : Nat → α) (matchlevel : Int) :
    Nat → Nat → Nat → α → Bool → List α → Option (List α)
  | 0, _, _, _, _, _ => none
  | fuel + 1, count, level, h, matchh, path =>
    if 32 ≤ level then none
    else if count = 1 <<< level then some path
    else
      let path := if matchh then path ++ [h] else path
      let count := (count + 1 <<< level) % 2 ^ 32
      match propagate hash count inner matchlevel 32 (level + 1) (hash h h) matchh path with
      | none => none
      | some (level, h, matchh, path) => sweepLoop inner matchlevel fuel count level h matchh path

/-- `MerkleComputation(leaves, leaf_pos, path)`: the path, empty for no leaves; `none` for
more than `UINT32_MAX` leaves (the `Assume`) or where a shift reaches the width of
`uint32_t`. `zero` is `uint256()`, the value `inner` starts with. -/
def merkleComputation (zero : α) (leaves : List α) (leaf_pos : Nat) : Option (List α) :=
  if leaves.length > UINT32_MAX then none
  else if leaves.length = 0 then some []
  else do
    let st ← leaves.foldlM (leafStep hash leaf_pos) ⟨0, fun _ => zero, -1, []⟩
    let level ← lowestSetBit st.count 32 0
    sweepLoop hash st.inner st.matchlevel 33 st.count level (st.inner level)
      (st.matchlevel = level) st.path

/-- `ComputeMerkleRootFromBranch` of the unit tests: fold the path up from the leaf, with the
path's hash on the left where the index has its low bit set. -/
def computeMerkleRootFromBranch : α → List α → Nat → α
  | h, [], _ => h
  | h, it :: rest, nIndex =>
    computeMerkleRootFromBranch (if nIndex &&& 1 ≠ 0 then hash it h else hash h it) rest
      (nIndex >>> 1)

-- ---------------------------------------------------------------------------
-- The level-by-level tree
-- ---------------------------------------------------------------------------

/-- One level of `ComputeMerkleRoot`: duplicate an odd last hash, hash the pairs. -/
def nextLevel (hashes : List α) : List α := hashPairs hash (duplicateLast hashes)

/-- Level `k` of the tree over `leaves`, level `0` being the leaves. -/
def merkleLevel (leaves : List α) (k : Nat) : List α := (nextLevel hash)^[k] leaves

/-- The `i`-th hash of level `k`. -/
def node (zero : α) (leaves : List α) (k i : Nat) : α := (merkleLevel hash leaves k).getD i zero

/-- The number of hashes on level `k` of a tree over `n ≥ 1` leaves: `n / 2 ^ k` rounded up. -/
def width (n k : Nat) : Nat := (n - 1) / 2 ^ k + 1

/-- The sibling, on level `k`, of the ancestor of the leaf at `pos`: its left neighbour at an
odd index, its right neighbour at an even one, itself where it is the odd last hash. -/
def sibling (zero : α) (leaves : List α) (pos k : Nat) : α :=
  let i := pos / 2 ^ k
  if i % 2 = 1 then node hash zero leaves k (i - 1)
  else if i + 1 < width leaves.length k then node hash zero leaves k (i + 1)
  else node hash zero leaves k i

/-- The siblings on the first `k` levels. -/
def siblings (zero : α) (leaves : List α) (pos k : Nat) : List α :=
  (List.range k).map (sibling hash zero leaves pos)

/-- The path of the leaf at `pos`: its siblings on each level below the root, of which there
are `⌈log₂ n⌉`. -/
def merklePath (zero : α) (leaves : List α) (pos : Nat) : List α :=
  siblings hash zero leaves pos (Nat.clog 2 leaves.length)

-- ---------------------------------------------------------------------------
-- Bits of a counter
-- ---------------------------------------------------------------------------

section Bits

theorem div_two_pow_succ (x k : Nat) : x / 2 ^ (k + 1) = x / 2 ^ k / 2 := by
  rw [Nat.div_div_eq_div_mul, Nat.pow_succ]

/-- The bit test of the source, `count & (1 << level)`, on the quotient by `2 ^ level`. -/
theorem and_one_shiftLeft_ne_zero (x k : Nat) : x &&& 1 <<< k ≠ 0 ↔ x / 2 ^ k % 2 = 1 := by
  rw [Nat.one_shiftLeft, Nat.and_two_pow, Nat.testBit_eq_decide_div_mod_eq]
  by_cases h : x / 2 ^ k % 2 = 1 <;> simp [h]

theorem and_one_ne_zero (x : Nat) : x &&& 1 ≠ 0 ↔ x % 2 = 1 := by
  simp

theorem width_succ (n k : Nat) : width n (k + 1) = (width n k + 1) / 2 := by
  rw [width, width, div_two_pow_succ]
  omega

theorem width_pos (n k : Nat) : 0 < width n k := Nat.succ_pos _

/-- A leaf's ancestor on level `k` is one of the hashes there. -/
theorem div_lt_width {n pos : Nat} (hpos : pos < n) (k : Nat) : pos / 2 ^ k < width n k := by
  have : pos / 2 ^ k ≤ (n - 1) / 2 ^ k := Nat.div_le_div_right (by omega)
  rw [width]
  omega

/-- The leaves on level `k` in units of `2 ^ k` are the hashes there, or all but the last. -/
theorem div_eq_width {n : Nat} (hn : 0 < n) (k : Nat) :
    n / 2 ^ k + 1 = width n k ∨ n / 2 ^ k = width n k := by
  have h : (n - 1 + 1) / 2 ^ k = (n - 1) / 2 ^ k + if 2 ^ k ∣ n - 1 + 1 then 1 else 0 :=
    Nat.succ_div
  rw [Nat.sub_add_cancel hn] at h
  rw [width, h]
  split <;> omega

theorem two_pow_dvd_succ {x j : Nat} (hd : 2 ^ j ∣ x) (he : x / 2 ^ j % 2 = 0) :
    2 ^ (j + 1) ∣ x := by
  obtain ⟨q, rfl⟩ := hd
  rw [Nat.mul_div_cancel_left _ (Nat.two_pow_pos j)] at he
  exact ⟨q / 2, by rw [Nat.pow_succ, Nat.mul_assoc]; congr 1; omega⟩

theorem two_pow_le_of_dvd {x j : Nat} (hd : 2 ^ j ∣ x) (hx : 0 < x) : 2 ^ j ≤ x :=
  Nat.le_of_dvd hx hd

/-- A power of two that divides a nonzero value below `2 ^ K` is at most `2 ^ K`. -/
theorem le_of_two_pow_dvd {x t K : Nat} (hd : 2 ^ t ∣ x) (hx : 0 < x) (hle : x ≤ 2 ^ K) :
    t ≤ K :=
  (Nat.pow_le_pow_iff_right (by omega)).mp (Nat.le_trans (two_pow_le_of_dvd hd hx) hle)

/-- On a level whose step divides the number of leaves, the hashes are the blocks of leaves. -/
theorem width_of_dvd {n k : Nat} (hd : 2 ^ k ∣ n) (hn : 0 < n) : width n k = n / 2 ^ k := by
  obtain ⟨q, rfl⟩ := hd
  have hq : 0 < q := Nat.pos_of_mul_pos_left hn
  rw [width, Nat.mul_div_cancel_left _ (Nat.two_pow_pos k)]
  have : (2 ^ k * q - 1) / 2 ^ k = q - 1 := by
    refine Nat.div_eq_of_lt_le ?_ ?_
    · rw [Nat.sub_mul, Nat.one_mul, Nat.mul_comm]
      exact Nat.sub_le_sub_left (Nat.one_le_two_pow) _
    · have hm : 0 < 2 ^ k * q := Nat.mul_pos (Nat.two_pow_pos k) hq
      rw [Nat.sub_add_cancel hq, Nat.mul_comm q]
      omega
  omega

/-- Up to `⌈log₂ n⌉`, a level rounded up to whole steps fits under `2 ^ ⌈log₂ n⌉`. -/
theorem width_mul_le {n k : Nat} (hn : 0 < n) (hk : k ≤ Nat.clog 2 n) :
    width n k * 2 ^ k ≤ 2 ^ Nat.clog 2 n := by
  have hpow : 2 ^ Nat.clog 2 n = 2 ^ (Nat.clog 2 n - k) * 2 ^ k := by
    rw [← Nat.pow_add, Nat.sub_add_cancel hk]
  have hle : n ≤ 2 ^ Nat.clog 2 n := Nat.le_pow_clog (by omega) n
  have hlt : (n - 1) / 2 ^ k < 2 ^ (Nat.clog 2 n - k) :=
    (Nat.div_lt_iff_lt_mul (Nat.two_pow_pos k)).mpr (by omega)
  rw [hpow]
  exact Nat.mul_le_mul_right _ (by rw [width]; omega)

theorem le_two_pow_of_width_eq_one {n k : Nat} (h : width n k = 1) : n ≤ 2 ^ k := by
  rw [width] at h
  have : n - 1 < 2 ^ k := (Nat.div_eq_zero_iff_lt (Nat.two_pow_pos k)).mp (by omega)
  omega

theorem two_pow_lt_of_width {n k : Nat} (h : 2 ≤ width n k) : 2 ^ k < n := by
  rw [width] at h
  have hk : 1 * 2 ^ k ≤ n - 1 := (Nat.le_div_iff_mul_le (Nat.two_pow_pos k)).mp (by omega)
  have := Nat.two_pow_pos k
  omega

theorem mul_two_pow_div_succ (a k : Nat) : a * 2 ^ k / 2 ^ (k + 1) = a / 2 := by
  rw [Nat.pow_succ, ← Nat.div_div_eq_div_mul, Nat.mul_div_cancel _ (Nat.two_pow_pos k)]

/-- Below the lowest set bit of a multiple of `2 ^ t`, the bits are `0`. -/
theorem div_two_pow_even_of_dvd {x t k : Nat} (hd : 2 ^ t ∣ x) (hk : k < t) :
    x / 2 ^ k % 2 = 0 := by
  obtain ⟨q, rfl⟩ := hd
  obtain ⟨d, rfl⟩ : ∃ d, t = k + 1 + d := ⟨t - (k + 1), by omega⟩
  rw [Nat.pow_add, Nat.pow_succ, Nat.mul_assoc, Nat.mul_assoc,
    Nat.mul_div_cancel_left _ (Nat.two_pow_pos k)]
  omega

/-- The leaf at `pos` lies in the subtree that `inner[ℓ]` holds after `c` leaves: bit `ℓ` of
`c` is set, and the leaf's ancestor on level `ℓ` is the hash just before `c / 2 ^ ℓ`. -/
def Covers (c pos ℓ : Nat) : Prop := c / 2 ^ ℓ % 2 = 1 ∧ pos / 2 ^ ℓ + 1 = c / 2 ^ ℓ

/-- Above the level of the subtree that holds it, a leaf has the ancestors of `c`. -/
theorem Covers.div_eq {c pos ℓ : Nat} (h : Covers c pos ℓ) {k : Nat} (hk : ℓ < k) :
    pos / 2 ^ k = c / 2 ^ k := by
  obtain ⟨d, rfl⟩ : ∃ d, k = ℓ + 1 + d := ⟨k - (ℓ + 1), by omega⟩
  have hpos := h.2
  have hodd := h.1
  rw [Nat.pow_add, ← Nat.div_div_eq_div_mul, ← Nat.div_div_eq_div_mul, div_two_pow_succ,
    div_two_pow_succ]
  congr 1
  omega

theorem Covers.lt {c pos ℓ : Nat} (h : Covers c pos ℓ) : pos < c := by
  have h1 := h.2
  have h2 : pos / 2 ^ ℓ < c / 2 ^ ℓ := by omega
  exact Nat.lt_of_div_lt_div h2

theorem Covers.unique {c pos ℓ₁ ℓ₂ : Nat} (h₁ : Covers c pos ℓ₁) (h₂ : Covers c pos ℓ₂) :
    ℓ₁ = ℓ₂ := by
  rcases Nat.lt_trichotomy ℓ₁ ℓ₂ with hlt | heq | hgt
  · have := h₁.div_eq hlt
    have := h₂.2
    omega
  · exact heq
  · have := h₂.div_eq hgt
    have := h₁.2
    omega

end Bits

-- ---------------------------------------------------------------------------
-- The level-by-level tree
-- ---------------------------------------------------------------------------

section Levels

variable {hash}

theorem getD_hashPairs (z : α) :
    ∀ (xs : List α) (i : Nat), 2 * i + 1 < xs.length →
      (hashPairs hash xs).getD i z = hash (xs.getD (2 * i) z) (xs.getD (2 * i + 1) z)
  | [], _, h => absurd h (by simp)
  | [_], _, h => absurd h (by simp)
  | a :: b :: rest, 0, _ => rfl
  | a :: b :: rest, i + 1, h => by
    have hrest : 2 * i + 1 < rest.length := by
      simp only [List.length_cons] at h
      omega
    rw [show 2 * (i + 1) = 2 * i + 1 + 1 by omega]
    exact getD_hashPairs z rest i hrest

theorem getD_duplicateLast_of_lt {hashes : List α} {j : Nat} (h : j < hashes.length) (z : α) :
    (duplicateLast hashes).getD j z = hashes.getD j z := by
  rw [duplicateLast_eq]
  split
  · exact List.getD_append _ _ _ _ h
  · rfl

theorem getD_duplicateLast_length {hashes : List α} (h : hashes.length % 2 = 1) (z : α) :
    (duplicateLast hashes).getD hashes.length z = hashes.getD (hashes.length - 1) z := by
  rcases List.eq_nil_or_concat' hashes with rfl | ⟨init, x, rfl⟩
  · simp at h
  · rw [duplicateLast_eq, if_pos h, List.getLast?_concat, Option.toList_some,
      List.getD_append_right _ _ _ _ (by simp)]
    simp

theorem length_merkleLevel {leaves : List α} (hne : leaves ≠ []) :
    ∀ k, (merkleLevel hash leaves k).length = width leaves.length k
  | 0 => by
    have : 0 < leaves.length := List.length_pos_iff.mpr hne
    simp only [merkleLevel, Function.iterate_zero, id, width, Nat.pow_zero, Nat.div_one]
    omega
  | k + 1 => by
    rw [merkleLevel, Function.iterate_succ_apply', nextLevel, length_hashPairs,
      length_duplicateLast, ← merkleLevel, length_merkleLevel hne k, width_succ]
    omega

variable (zero : α) {leaves : List α}

theorem node_zero (i : Nat) : node hash zero leaves 0 i = leaves.getD i zero := rfl

/-- A hash with a right neighbour on its level is hashed with it. -/
theorem node_succ (hne : leaves ≠ []) {k i : Nat} (hi : 2 * i + 1 < width leaves.length k) :
    node hash zero leaves (k + 1) i =
      hash (node hash zero leaves k (2 * i)) (node hash zero leaves k (2 * i + 1)) := by
  have hlen : (merkleLevel hash leaves k).length = width leaves.length k :=
    length_merkleLevel hne k
  rw [node, merkleLevel, Function.iterate_succ_apply', ← merkleLevel, nextLevel,
    getD_hashPairs _ _ _ (by rw [length_duplicateLast]; omega),
    getD_duplicateLast_of_lt (by omega), getD_duplicateLast_of_lt (by omega)]
  rfl

/-- The odd last hash of a level is hashed with itself. -/
theorem node_succ_last (hne : leaves ≠ []) {k i : Nat} (hi : 2 * i + 1 = width leaves.length k) :
    node hash zero leaves (k + 1) i =
      hash (node hash zero leaves k (2 * i)) (node hash zero leaves k (2 * i)) := by
  have hlen : (merkleLevel hash leaves k).length = width leaves.length k :=
    length_merkleLevel hne k
  have hodd : (merkleLevel hash leaves k).length % 2 = 1 := by omega
  have hlast := getD_duplicateLast_length hodd zero
  rw [show (merkleLevel hash leaves k).length = 2 * i + 1 by omega,
    show 2 * i + 1 - 1 = 2 * i by omega] at hlast
  rw [node, merkleLevel, Function.iterate_succ_apply', ← merkleLevel, nextLevel,
    getD_hashPairs _ _ _ (by rw [length_duplicateLast]; omega),
    getD_duplicateLast_of_lt (by omega), hlast]
  rfl

theorem length_nextLevel (hashes : List α) :
    (nextLevel hash hashes).length = (hashes.length + 1) / 2 := by
  rw [nextLevel, length_hashPairs, length_duplicateLast]
  omega

/-- The loop of `ComputeMerkleRoot` goes up `⌈log₂ n⌉` levels. The induction is on the number
of hashes, which each turn of the loop lowers. -/
theorem merkleLoop_fst_eq [DecidableEq α] :
    ∀ (m : Nat) (hashes : List α) (mutation : Bool), hashes.length = m → hashes ≠ [] →
      (merkleLoop hash hashes.length hashes mutation).1 =
        (nextLevel hash)^[Nat.clog 2 hashes.length] hashes := by
  intro m
  induction m using Nat.strong_induction_on with
  | _ m ih =>
    intro hashes mutation hm hne
    have hpos : 0 < hashes.length := List.length_pos_iff.mpr hne
    by_cases hgt : 1 < hashes.length
    · -- one turn of the loop, then the loop on the next level
      have hnext : (nextLevel hash hashes).length = (hashes.length + 1) / 2 :=
        length_nextLevel hashes
      have hne' : nextLevel hash hashes ≠ [] := by
        rw [← List.length_pos_iff, hnext]
        omega
      rw [merkleLoop_step hash mutation hgt, ← nextLevel,
        ih _ (by rw [← hm, hnext]; omega) _ _ rfl hne', Nat.clog_of_two_le (by omega) hgt, hnext,
        Function.iterate_succ_apply, show hashes.length + 2 - 1 = hashes.length + 1 by omega]
    · rw [merkleLoop_stop hash mutation (by omega), Nat.clog_of_right_le_one (by omega)]
      rfl

/-- `ComputeMerkleRoot` of a non-empty list is the only hash on level `⌈log₂ n⌉`. -/
theorem computeMerkleRoot_fst [DecidableEq α] (hne : leaves ≠ []) :
    (computeMerkleRoot hash zero leaves).1 = node hash zero leaves (Nat.clog 2 leaves.length) 0 := by
  simp only [computeMerkleRoot, merkleLoop_fst_eq _ leaves false rfl hne, node, merkleLevel]
  cases (nextLevel hash)^[Nat.clog 2 leaves.length] leaves <;> rfl

-- ---------------------------------------------------------------------------
-- The path folds up to the root
-- ---------------------------------------------------------------------------

theorem sibling_of_odd {pos k : Nat} (h : pos / 2 ^ k % 2 = 1) :
    sibling hash zero leaves pos k = node hash zero leaves k (pos / 2 ^ k - 1) := by
  simp only [sibling, if_pos h]

theorem sibling_of_even {pos k : Nat} (h : pos / 2 ^ k % 2 = 0)
    (hlt : pos / 2 ^ k + 1 < width leaves.length k) :
    sibling hash zero leaves pos k = node hash zero leaves k (pos / 2 ^ k + 1) := by
  simp only [sibling, if_neg (by omega : ¬pos / 2 ^ k % 2 = 1), if_pos hlt]

theorem sibling_of_even_last {pos k : Nat} (h : pos / 2 ^ k % 2 = 0)
    (hlast : width leaves.length k ≤ pos / 2 ^ k + 1) :
    sibling hash zero leaves pos k = node hash zero leaves k (pos / 2 ^ k) := by
  simp only [sibling, if_neg (by omega : ¬pos / 2 ^ k % 2 = 1), if_neg (by omega :
    ¬pos / 2 ^ k + 1 < width leaves.length k)]

theorem siblings_succ (pos k : Nat) :
    siblings hash zero leaves pos (k + 1) =
      siblings hash zero leaves pos k ++ [sibling hash zero leaves pos k] := by
  simp [siblings, List.range_succ]

theorem length_merklePath (pos : Nat) :
    (merklePath hash zero leaves pos).length = Nat.clog 2 leaves.length := by
  simp [merklePath, siblings]

variable {pos : Nat} (hpos : pos < leaves.length)
include hpos

/-- The leaf's ancestor on level `k`, hashed with its sibling on the side its index bit
gives, is its ancestor one level up. -/
theorem hash_sibling (k : Nat) :
    (if pos / 2 ^ k % 2 = 1
      then hash (sibling hash zero leaves pos k) (node hash zero leaves k (pos / 2 ^ k))
      else hash (node hash zero leaves k (pos / 2 ^ k)) (sibling hash zero leaves pos k)) =
      node hash zero leaves (k + 1) (pos / 2 ^ (k + 1)) := by
  have hne : leaves ≠ [] := List.ne_nil_of_length_pos (by omega)
  have hi := div_lt_width hpos k
  dsimp only [sibling]
  rw [div_two_pow_succ]
  generalize pos / 2 ^ k = i at hi ⊢
  by_cases hodd : i % 2 = 1
  · -- the right child: its sibling is on the left
    rw [if_pos hodd, if_pos hodd, node_succ zero hne (i := i / 2) (by omega),
      show 2 * (i / 2) = i - 1 by omega, show i - 1 + 1 = i by omega]
  · rw [if_neg hodd, if_neg hodd]
    by_cases hnext : i + 1 < width leaves.length k
    · rw [if_pos hnext, node_succ zero hne (i := i / 2) (by omega), show 2 * (i / 2) = i by omega]
    · -- the odd last hash of its level
      rw [if_neg hnext, node_succ_last zero hne (i := i / 2) (by omega),
        show 2 * (i / 2) = i by omega]

/-- Folding the siblings on levels `j` to `j + k - 1` from the leaf's ancestor on level `j`
reaches its ancestor on level `j + k`. The induction is on the number of levels left. -/
theorem computeMerkleRootFromBranch_siblings :
    ∀ (k j : Nat), computeMerkleRootFromBranch hash (node hash zero leaves j (pos / 2 ^ j))
      ((List.range' j k).map (sibling hash zero leaves pos)) (pos / 2 ^ j) =
        node hash zero leaves (j + k) (pos / 2 ^ (j + k))
  | 0, j => rfl
  | k + 1, j => by
    rw [List.range'_succ, List.map_cons, computeMerkleRootFromBranch]
    simp only [and_one_ne_zero]
    rw [hash_sibling zero hpos, Nat.shiftRight_eq_div_pow, Nat.pow_one, ← div_two_pow_succ,
      computeMerkleRootFromBranch_siblings k (j + 1), Nat.add_right_comm, Nat.add_assoc]

/-- `ComputeMerkleRootFromBranch` takes the leaf and its path up to `ComputeMerkleRoot`. -/
theorem computeMerkleRootFromBranch_merklePath [DecidableEq α] :
    computeMerkleRootFromBranch hash (leaves.getD pos zero) (merklePath hash zero leaves pos) pos =
      (computeMerkleRoot hash zero leaves).1 := by
  have hne : leaves ≠ [] := List.ne_nil_of_length_pos (by omega)
  -- above the root's level the leaf's index is `0`
  have htop : pos / 2 ^ Nat.clog 2 leaves.length = 0 :=
    Nat.div_eq_of_lt (Nat.lt_of_lt_of_le hpos (Nat.le_pow_clog (by omega) _))
  have hfold :=
    @computeMerkleRootFromBranch_siblings α hash zero leaves pos hpos (Nat.clog 2 leaves.length) 0
  rw [Nat.pow_zero, Nat.div_one, Nat.zero_add, htop, ← List.range_eq_range'] at hfold
  rw [computeMerkleRoot_fst zero hne, merklePath, siblings, ← hfold]
  rfl

end Levels

-- ---------------------------------------------------------------------------
-- The carry loop
-- ---------------------------------------------------------------------------

/-- A match that the carry loop has not reached yet, on the levels from `j` up: `matchlevel`
is the level of the subtree of `inner` that holds the leaf at `pos`, if there is one, and
the path is the leaf's siblings below that level. `C` is the count that `inner` reflects. -/
def Pending (zero : α) (leaves : List α) (pos C : Nat) (matchlevel : Int) (path : List α)
    (j : Nat) : Prop :=
  ∀ ℓ : Nat, j ≤ ℓ → (matchlevel = ℓ ↔ Covers C pos ℓ) ∧
    (Covers C pos ℓ → path = siblings hash zero leaves pos ℓ)

/-- The state of the carry loop on level `j`: `count` is a multiple of `2 ^ j`, `inner` holds
the subtrees of a count `C` one hash behind it on this level, and `h` is the hash at
`count / 2 ^ j - 1`. Either the leaf at `pos` is below `h`, `matchh` is set and the path is
the leaf's siblings below `j`, or the match is pending and the path still `path₀`. -/
structure CarryInv (zero : α) (leaves : List α) (pos count C : Nat) (matchlevel : Int)
    (path₀ : List α) (j : Nat) (h : α) (matchh : Bool) (path : List α) : Prop where
  dvd : 2 ^ j ∣ count
  behind : C / 2 ^ j + 1 = count / 2 ^ j
  lt_width : count / 2 ^ j - 1 < width leaves.length j
  h_eq : h = node hash zero leaves j (count / 2 ^ j - 1)
  path_eq : (pos / 2 ^ j + 1 = count / 2 ^ j ∧ matchh = true ∧
      path = siblings hash zero leaves pos j) ∨
    (pos / 2 ^ j + 1 ≠ count / 2 ^ j ∧ matchh = false ∧ path = path₀ ∧
      Pending hash zero leaves pos C matchlevel path₀ j)

section Carry

variable {hash} {zero : α} {leaves : List α} {pos count C : Nat} {inner : Nat → α}
  {matchlevel : Int} {path₀ : List α}

theorem Pending.mono {C j j' : Nat} {path : List α}
    (hp : Pending hash zero leaves pos C matchlevel path j) (hj : j ≤ j') :
    Pending hash zero leaves pos C matchlevel path j' :=
  fun ℓ hℓ => hp ℓ (Nat.le_trans hj hℓ)

/-- One pass of the carry loop, on a level where `count` has a zero bit. -/
theorem CarryInv.step (hne : leaves ≠ [])
    (hinner : ∀ k, C / 2 ^ k % 2 = 1 → inner k = node hash zero leaves k (C / 2 ^ k - 1))
    {j : Nat} {h : α} {matchh matchh' : Bool} {path path' : List α}
    (hinv : CarryInv hash zero leaves pos count C matchlevel path₀ j h matchh path)
    (hbit : count / 2 ^ j % 2 = 0)
    (hcp : carryPath inner matchlevel j h matchh path = (matchh', path')) :
    CarryInv hash zero leaves pos count C matchlevel path₀ (j + 1) (hash (inner j) h) matchh'
      path' := by
  obtain ⟨hdvd, hb, hw, rfl, hpath⟩ := hinv
  have hdvd' := two_pow_dvd_succ hdvd hbit
  -- the arithmetic is on the quotients by `2 ^ j`
  have hcount := div_two_pow_succ count j
  have hC := div_two_pow_succ C j
  have hpos := div_two_pow_succ pos j
  have hw' := width_succ leaves.length j
  have hinj := hinner j
  generalize count / 2 ^ j = b at *
  generalize ha : C / 2 ^ j = a at *
  generalize hq : pos / 2 ^ j = q at *
  -- `inner[j]` holds the hash just before `h`
  have hin : inner j = node hash zero leaves j (b - 2) := by
    rw [hinj (by omega), show a - 1 = b - 2 by omega]
  have hnode : hash (inner j) (node hash zero leaves j (b - 1)) =
      node hash zero leaves (j + 1) (count / 2 ^ (j + 1) - 1) := by
    rw [hin, hcount, node_succ zero hne (i := b / 2 - 1) (by omega),
      show 2 * (b / 2 - 1) = b - 2 by omega, show b - 2 + 1 = b - 1 by omega]
  refine ⟨hdvd', by omega, by omega, hnode, ?_⟩
  rw [hcount, hpos]
  rcases hpath with ⟨hm, rfl, rfl⟩ | ⟨hm, rfl, rfl, hpend⟩
  · -- `h` is above the leaf, so `inner[j]` is its sibling
    simp only [carryPath, if_true, Prod.mk.injEq] at hcp
    obtain ⟨rfl, rfl⟩ := hcp
    refine .inl ⟨by omega, rfl, ?_⟩
    rw [siblings_succ, sibling_of_odd zero (by rw [hq]; omega), hq, hin,
      show q - 1 = b - 2 by omega]
  · by_cases hj : matchlevel = j
    · -- `inner[j]` is above the leaf, so `h` is its sibling
      have hcov := ((hpend j (Nat.le_refl j)).1).mp hj
      have hcov2 := hcov.2
      rw [hq, ha] at hcov2
      simp only [carryPath, Bool.false_eq_true, if_false, if_pos hj, Prod.mk.injEq] at hcp
      obtain ⟨rfl, rfl⟩ := hcp
      refine .inl ⟨by omega, rfl, ?_⟩
      rw [siblings_succ, ← (hpend j (Nat.le_refl j)).2 hcov,
        sibling_of_even zero (by rw [hq]; omega) (by rw [hq]; omega), hq,
        show q + 1 = b - 1 by omega]
    · have hncov : ¬Covers C pos j := fun hcov => hj (((hpend j (Nat.le_refl j)).1).mpr hcov)
      simp only [carryPath, Bool.false_eq_true, if_false, if_neg hj, Prod.mk.injEq] at hcp
      obtain ⟨rfl, rfl⟩ := hcp
      -- the leaf is not below `inner[j]`, so not below its parent either
      refine .inr ⟨fun heq => hncov ⟨by rw [ha]; omega, by rw [ha, hq]; omega⟩, rfl, rfl,
        hpend.mono (Nat.le_succ j)⟩

/-- A power of two that divides a nonzero `uint32_t` value is at most `2 ^ 31`. -/
theorem lt_32_of_dvd {x j : Nat} (hd : 2 ^ j ∣ x) (h0 : 0 < x) (hlt : x < 2 ^ 32) : j < 32 :=
  (Nat.pow_lt_pow_iff_right (by omega)).mp (Nat.lt_of_le_of_lt (Nat.le_of_dvd h0 hd) hlt)

/-- The carry loop runs up to the next set bit of `count`, keeping `CarryInv`. The induction
is on the fuel; the loop never reaches level `32`, as `2 ^ level` divides `count`, which is
not `0` and fits in a `uint32_t`. -/
theorem propagate_carryInv (hne : leaves ≠ [])
    (hinner : ∀ k, C / 2 ^ k % 2 = 1 → inner k = node hash zero leaves k (C / 2 ^ k - 1))
    (hpos0 : 0 < count) (hlt : count < 2 ^ 32) :
    ∀ (fuel j : Nat) (h : α) (matchh : Bool) (path : List α), 32 ≤ j + fuel →
      CarryInv hash zero leaves pos count C matchlevel path₀ j h matchh path →
      ∃ t h' matchh' path',
        propagate hash count inner matchlevel fuel j h matchh path = some (t, h', matchh', path') ∧
        j ≤ t ∧ count / 2 ^ t % 2 = 1 ∧
        CarryInv hash zero leaves pos count C matchlevel path₀ t h' matchh' path'
  | 0, j, _, _, _, hfuel, hinv => absurd (lt_32_of_dvd hinv.dvd hpos0 hlt) (by omega)
  | fuel + 1, j, h, matchh, path, hfuel, hinv => by
    have hj := lt_32_of_dvd hinv.dvd hpos0 hlt
    rw [propagate, if_neg (by omega)]
    by_cases hbit : count / 2 ^ j % 2 = 1
    · rw [if_pos ((and_one_shiftLeft_ne_zero count j).mpr hbit)]
      exact ⟨j, h, matchh, path, rfl, Nat.le_refl j, hbit, hinv⟩
    · rw [if_neg (fun hset => hbit ((and_one_shiftLeft_ne_zero count j).mp hset))]
      rcases hcp : carryPath inner matchlevel j h matchh path with ⟨matchh', path'⟩
      obtain ⟨t, h', matchh'', path'', hprop, hjt, hrest⟩ :=
        propagate_carryInv hne hinner hpos0 hlt fuel (j + 1) _ matchh' path' (by omega)
          (hinv.step hne hinner (by omega) hcp)
      exact ⟨t, h', matchh'', path'', hprop, by omega, hrest⟩

/-- With `count` at `0`, as after a wrap of the `uint32_t`, no bit stops the carry loop, and
it runs into the shift by `32`. -/
theorem propagate_zero (inner : Nat → α) (matchlevel : Int) :
    ∀ (fuel level : Nat) (h : α) (matchh : Bool) (path : List α),
      propagate hash 0 inner matchlevel fuel level h matchh path = none
  | 0, _, _, _, _ => rfl
  | fuel + 1, level, h, matchh, path => by
    rw [propagate]
    split
    · rfl
    · rw [if_neg (by simp)]
      exact propagate_zero inner matchlevel fuel _ _ _ _

end Carry

-- ---------------------------------------------------------------------------
-- The first loop
-- ---------------------------------------------------------------------------

/-- What the first loop knows after reading `c` leaves. `inner[k]` holds the hash at
`c / 2 ^ k - 1` of level `k` for each set bit `k` of `c`. Once the leaf at `pos` has been
read, `matchlevel` is the level of the subtree of `inner` that holds it and the path is its
siblings below that level; before, `matchlevel` is `-1` and the path empty. -/
structure MainInv (zero : α) (leaves : List α) (pos c : Nat) (st : MerkleState α) : Prop where
  count_eq : st.count = c
  inner_eq : ∀ k, c / 2 ^ k % 2 = 1 → st.inner k = node hash zero leaves k (c / 2 ^ k - 1)
  matched : pos < c → ∃ ℓ : Nat, st.matchlevel = ℓ ∧ Covers c pos ℓ ∧
    st.path = siblings hash zero leaves pos ℓ
  unmatched : c ≤ pos → st.matchlevel = -1 ∧ st.path = []

section FirstLoop

variable {hash} {zero : α} {leaves : List α} {pos : Nat}

theorem MainInv.init : MainInv hash zero leaves pos 0 ⟨0, fun _ => zero, -1, []⟩ :=
  ⟨rfl, fun k hk => by simp at hk, fun h => absurd h (Nat.not_lt_zero _), fun _ => ⟨rfl, rfl⟩⟩

/-- The match the first loop keeps, seen as pending from level `0` up. -/
theorem MainInv.pending {c : Nat} {st : MerkleState α} (hinv : MainInv hash zero leaves pos c st) :
    Pending hash zero leaves pos c st.matchlevel st.path 0 := by
  intro ℓ _
  by_cases hpc : pos < c
  · obtain ⟨ℓ₀, hml, hcov, hpath⟩ := hinv.matched hpc
    have hiff : st.matchlevel = ℓ ↔ Covers c pos ℓ := by
      rw [hml, Int.ofNat_inj]
      exact ⟨fun h => h ▸ hcov, fun h => h.unique hcov |>.symm⟩
    refine ⟨hiff, fun h => ?_⟩
    rw [hpath, h.unique hcov]
  · -- no subtree of `inner` holds a leaf not read yet
    have hcov : ¬Covers c pos ℓ := fun h => hpc h.lt
    rw [(hinv.unmatched (by omega)).1]
    exact ⟨⟨fun h => absurd h (by omega), fun h => absurd h hcov⟩, fun h => absurd h hcov⟩

/-- One pass of the first loop: the leaf at `c` is carried up, and `MainInv` goes from `c` to
`c + 1` leaves. -/
theorem leafStep_mainInv (hne : leaves ≠ []) {c : Nat} {st : MerkleState α}
    (hinv : MainInv hash zero leaves pos c st) (hc : c < leaves.length) (hlt : c + 1 < 2 ^ 32) :
    ∃ st', leafStep hash pos st (leaves.getD c zero) = some st' ∧
      MainInv hash zero leaves pos (c + 1) st' := by
  -- the carry starts on level `0` with the new leaf
  have hstart : CarryInv hash zero leaves pos (c + 1) c st.matchlevel st.path 0
      (leaves.getD c zero) (c == pos) st.path := by
    refine ⟨by simp, by simp, by simp [width]; omega, by simp [node_zero], ?_⟩
    by_cases hcp : c = pos
    · subst hcp
      refine .inl ⟨by simp, by simp, ?_⟩
      rw [(hinv.unmatched (Nat.le_refl _)).2]
      rfl
    · exact .inr ⟨by simp; omega, by simp [hcp], rfl, hinv.pending⟩
  obtain ⟨t, h', matchh', path', hprop, -, hbit, hcarry⟩ :=
    propagate_carryInv hne hinv.inner_eq (by omega) hlt 32 0 _ _ _ (by omega) hstart
  refine ⟨⟨c + 1, Function.update st.inner t h', if matchh' then t else st.matchlevel, path'⟩,
    by rw [leafStep, hinv.count_eq, Nat.mod_eq_of_lt hlt, hprop]; rfl, ?_⟩
  -- `c` is one hash behind `c + 1` on level `t`
  have hcov : Covers (c + 1) c t := ⟨hbit, hcarry.behind⟩
  refine ⟨rfl, fun k hk => ?_, fun hpc => ?_, fun hpc => ?_⟩ <;> dsimp only
  · by_cases hkt : k = t
    · subst hkt
      rw [Function.update_self, hcarry.h_eq]
    · rw [Function.update_of_ne hkt]
      rcases Nat.lt_or_gt_of_ne hkt with hlt' | hgt
      · exact absurd hk (by rw [div_two_pow_even_of_dvd hcarry.dvd hlt']; omega)
      · rw [← hcov.div_eq hgt] at hk ⊢
        exact hinv.inner_eq k hk
  · rcases hcarry.path_eq with ⟨hm, rfl, rfl⟩ | ⟨hm, rfl, rfl, -⟩
    · exact ⟨t, by simp, ⟨hbit, hm⟩, rfl⟩
    · -- the leaf was read before, in a subtree that the carry did not reach
      have hpc' : pos < c := by
        refine Nat.lt_of_le_of_ne (by omega) fun heq => hm ?_
        rw [heq, hcarry.behind]
      obtain ⟨ℓ, hml, hcovℓ, hpath⟩ := hinv.matched hpc'
      have htℓ : t < ℓ := by
        rcases Nat.lt_trichotomy ℓ t with hlt' | heq | hgt
        · exact absurd (by rw [hcovℓ.div_eq hlt', hcarry.behind]) hm
        · subst heq
          have := hcovℓ.1
          have := hcarry.behind
          omega
        · exact hgt
      refine ⟨ℓ, by simpa using hml, ?_, hpath⟩
      rw [Covers, ← hcov.div_eq htℓ]
      exact hcovℓ
  · rcases hcarry.path_eq with ⟨hm, -, -⟩ | ⟨hm, rfl, rfl, -⟩
    · have : pos / 2 ^ t < (c + 1) / 2 ^ t := by omega
      exact absurd (Nat.lt_of_div_lt_div this) (by omega)
    · simpa using hinv.unmatched (by omega)

/-- The first loop reads every leaf and ends with `MainInv` for all of them. The induction is
on the number of leaves left. -/
theorem foldlM_leafStep (hne : leaves ≠ []) (hn : leaves.length < 2 ^ 32) :
    ∀ (k c : Nat) (st : MerkleState α), leaves.length - c = k → c ≤ leaves.length →
      MainInv hash zero leaves pos c st →
      ∃ st', (leaves.drop c).foldlM (leafStep hash pos) st = some st' ∧
        MainInv hash zero leaves pos leaves.length st'
  | 0, c, st, hk, hc, hinv => by
    have hcn : c = leaves.length := by omega
    subst hcn
    exact ⟨st, by simp, hinv⟩
  | k + 1, c, st, hk, _, hinv => by
    have hc : c < leaves.length := by omega
    obtain ⟨st', hstep, hinv'⟩ := leafStep_mainInv hne hinv hc (by omega)
    rw [List.drop_eq_getElem_cons hc, List.foldlM_cons, ← List.getD_eq_getElem _ zero hc, hstep]
    exact foldlM_leafStep hne hn k (c + 1) st' (by omega) (by omega) hinv'

end FirstLoop

-- ---------------------------------------------------------------------------
-- The final sweep
-- ---------------------------------------------------------------------------

/-- The state of the final sweep at the head of its loop, on level `l`: `count` is the
`width n l` hashes of this level in units of `2 ^ l`, an odd number of them, and `h` is the
last. Either the leaf at `pos` is below `h`, `matchh` is set and the path is its siblings
below `l`, or the match is pending in the subtrees of `inner`, which reflect all `n` leaves. -/
structure SweepInv (zero : α) (leaves : List α) (pos : Nat) (matchlevel : Int)
    (path₀ : List α) (l count : Nat) (h : α) (matchh : Bool) (path : List α) : Prop where
  count_eq : count = width leaves.length l * 2 ^ l
  odd : width leaves.length l % 2 = 1
  h_eq : h = node hash zero leaves l (width leaves.length l - 1)
  path_eq : (pos / 2 ^ l + 1 = width leaves.length l ∧ matchh = true ∧
      path = siblings hash zero leaves pos l) ∨
    (pos / 2 ^ l + 1 ≠ width leaves.length l ∧ matchh = false ∧ path = path₀ ∧
      Pending hash zero leaves pos leaves.length matchlevel path₀ l)

section Sweep

variable {hash} {zero : α} {leaves : List α} {pos : Nat} {inner : Nat → α}
  {matchlevel : Int} {path₀ : List α}

/-- The skip loop before the sweep stops on the lowest set bit of a nonzero `uint32_t`
value. The induction is on the fuel, with `2 ^ level` dividing the value below that bit. -/
theorem lowestSetBit_eq_some {x : Nat} (hpos0 : 0 < x) (hlt : x < 2 ^ 32) :
    ∀ (fuel j : Nat), 32 ≤ j + fuel → 2 ^ j ∣ x →
      ∃ ℓ, lowestSetBit x fuel j = some ℓ ∧ x / 2 ^ ℓ % 2 = 1 ∧ 2 ^ ℓ ∣ x
  | 0, j, hfuel, hd => absurd (lt_32_of_dvd hd hpos0 hlt) (by omega)
  | fuel + 1, j, hfuel, hd => by
    have hj := lt_32_of_dvd hd hpos0 hlt
    rw [lowestSetBit, if_neg (by omega)]
    by_cases hbit : x / 2 ^ j % 2 = 1
    · rw [if_pos ((and_one_shiftLeft_ne_zero x j).mpr hbit)]
      exact ⟨j, rfl, hbit, hd⟩
    · rw [if_neg (fun hset => hbit ((and_one_shiftLeft_ne_zero x j).mp hset))]
      exact lowestSetBit_eq_some hpos0 hlt fuel (j + 1) (by omega) (two_pow_dvd_succ hd (by omega))

/-- After the first loop, the sweep starts on the lowest set bit `ℓ` of `n`, where `inner[ℓ]`
holds the last of the `n / 2 ^ ℓ` hashes of its level. -/
theorem MainInv.sweepInv (hpos : pos < leaves.length) {st : MerkleState α}
    (hinv : MainInv hash zero leaves pos leaves.length st) {ℓ : Nat}
    (hbit : leaves.length / 2 ^ ℓ % 2 = 1) (hd : 2 ^ ℓ ∣ leaves.length) :
    SweepInv hash zero leaves pos st.matchlevel st.path ℓ leaves.length (st.inner ℓ)
      (st.matchlevel = ℓ) st.path := by
  have hw : width leaves.length ℓ = leaves.length / 2 ^ ℓ := width_of_dvd hd (by omega)
  refine ⟨by rw [hw, Nat.div_mul_cancel hd], by rw [hw]; exact hbit,
    by rw [hw]; exact hinv.inner_eq ℓ hbit, ?_⟩
  rw [hw]
  by_cases hm : pos / 2 ^ ℓ + 1 = leaves.length / 2 ^ ℓ
  · -- `inner[ℓ]` holds the leaf: the first loop recorded level `ℓ`
    obtain ⟨ℓ', hml, hcov, hpath⟩ := hinv.matched hpos
    have hℓ : ℓ' = ℓ := hcov.unique ⟨hbit, hm⟩
    subst hℓ
    exact .inl ⟨hm, by simp [hml], hpath⟩
  · have hpend := hinv.pending
    have hml : st.matchlevel ≠ ℓ := fun h => hm ((hpend ℓ (Nat.zero_le ℓ)).1.mp h).2
    exact .inr ⟨hm, by simp [hml], rfl, hpend.mono (Nat.zero_le ℓ)⟩

/-- A turn of the sweep: the last hash of the level, which has no right neighbour, is hashed
with itself, `count` goes up by one hash of the level, and the carry loop starts one level up
with the count of all `n` leaves behind it. -/
theorem SweepInv.carryInv (hne : leaves ≠ []) (hpos : pos < leaves.length) {l count : Nat}
    {h : α} {matchh : Bool} {path : List α}
    (hinv : SweepInv hash zero leaves pos matchlevel path₀ l count h matchh path) :
    CarryInv hash zero leaves pos (count + 2 ^ l) leaves.length matchlevel path₀ (l + 1)
      (hash h h) matchh (if matchh then path ++ [h] else path) := by
  obtain ⟨rfl, hodd, rfl, hpath⟩ := hinv
  have hn := div_eq_width (List.length_pos_iff.mpr hne) l
  have hnsucc := div_two_pow_succ leaves.length l
  have hpsucc := div_two_pow_succ pos l
  have hw' := width_succ leaves.length l
  have hi := div_lt_width hpos l
  have hdiv := mul_two_pow_div_succ (width leaves.length l + 1) l
  rw [← Nat.succ_mul]
  generalize hW' : width leaves.length l = W at *
  generalize hq : pos / 2 ^ l = q at *
  refine ⟨⟨(W + 1) / 2, ?_⟩, by rw [hdiv]; omega, by rw [hdiv]; omega, ?_, ?_⟩
  · -- one more hash makes the count of this level even
    rw [Nat.pow_succ, Nat.mul_assoc, Nat.mul_comm]
    congr 1
    omega
  · rw [hdiv, node_succ_last zero hne (i := (W + 1) / 2 - 1) (by omega),
      show 2 * ((W + 1) / 2 - 1) = W - 1 by omega]
  · rw [hdiv]
    rcases hpath with ⟨hm, rfl, rfl⟩ | ⟨hm, rfl, rfl, hpend⟩
    · -- the leaf is below `h`, whose sibling is itself
      refine .inl ⟨by omega, rfl, ?_⟩
      rw [if_pos rfl, siblings_succ, sibling_of_even_last zero (by rw [hq]; omega)
        (by rw [hq]; omega), hq, show q = W - 1 by omega]
    · refine .inr ⟨by omega, rfl, rfl, hpend.mono (Nat.le_succ l)⟩

/-- On a level with one hash the sweep is at the root: the level is `⌈log₂ n⌉` and the path
holds the leaf's siblings on every level below. -/
theorem SweepInv.root (hpos : pos < leaves.length) {l count : Nat} {h : α} {matchh : Bool}
    {path : List α} (hinv : SweepInv hash zero leaves pos matchlevel path₀ l count h matchh path)
    (hW : width leaves.length l = 1) (hl : l ≤ Nat.clog 2 leaves.length) :
    l = Nat.clog 2 leaves.length ∧ path = merklePath hash zero leaves pos := by
  have hle := le_two_pow_of_width_eq_one hW
  have hK : l = Nat.clog 2 leaves.length :=
    Nat.le_antisymm hl ((Nat.clog_le_iff_le_pow (by omega)).mpr hle)
  -- the leaf's ancestor on the root's level is the root
  have htop : pos / 2 ^ l = 0 := Nat.div_eq_of_lt (by omega)
  refine ⟨hK, ?_⟩
  rcases hinv.path_eq with ⟨-, -, rfl⟩ | ⟨hm, -⟩
  · rw [merklePath, hK]
  · exact absurd (by rw [htop, hW]) hm

/-- Where the carry loop of the sweep stops, on a set bit of `count`, the sweep's invariant
holds again: `count` is the hashes of that level in units of its step. -/
theorem CarryInv.sweepInv (hne : leaves ≠ []) {count t : Nat} {h : α} {matchh : Bool}
    {path : List α}
    (hinv : CarryInv hash zero leaves pos count leaves.length matchlevel path₀ t h matchh path)
    (hbit : count / 2 ^ t % 2 = 1) :
    SweepInv hash zero leaves pos matchlevel path₀ t count h matchh path := by
  obtain ⟨hd, hb, hw, rfl, hpath⟩ := hinv
  have hn := div_eq_width (List.length_pos_iff.mpr hne) t
  have hcount : count / 2 ^ t = width leaves.length t := by omega
  refine ⟨by rw [← hcount, Nat.div_mul_cancel hd], by rw [← hcount]; exact hbit,
    by rw [hcount], by rw [← hcount]; exact hpath⟩

/-- Below the root, the level has an odd number of hashes other than `1`, and one more hash of
the level still fits under `2 ^ ⌈log₂ n⌉`. -/
theorem succ_width_mul_le {n l : Nat} (hn : 0 < n) (hodd : width n l % 2 = 1)
    (hW : width n l ≠ 1) :
    l < Nat.clog 2 n ∧ (width n l + 1) * 2 ^ l ≤ 2 ^ Nat.clog 2 n := by
  have hlt : l < Nat.clog 2 n :=
    (Nat.lt_clog_iff_pow_lt (by omega)).mpr (two_pow_lt_of_width (by omega))
  have hle := width_mul_le hn (Nat.succ_le_of_lt hlt)
  have hw' := width_succ n l
  refine ⟨hlt, ?_⟩
  calc (width n l + 1) * 2 ^ l = (width n l + 1) / 2 * 2 ^ (l + 1) := by
        rw [Nat.pow_succ, Nat.mul_comm (2 ^ l) 2, ← Nat.mul_assoc]
        congr 1
        omega
    _ = width n (l + 1) * 2 ^ (l + 1) := by rw [hw']
    _ ≤ 2 ^ Nat.clog 2 n := hle

/-- The final sweep, from any level at or below the root, returns the leaf's path where there
are at most `2 ^ 31` leaves. Above, `count` reaches `2 ^ 32` on the way to the root and wraps
to `0`. The induction is on the fuel; each turn of the loop goes up at least one level. -/
theorem sweepLoop_eq (hne : leaves ≠ []) (hpos : pos < leaves.length)
    (hinner : ∀ k, leaves.length / 2 ^ k % 2 = 1 →
      inner k = node hash zero leaves k (leaves.length / 2 ^ k - 1))
    (hn : leaves.length < 2 ^ 32) :
    ∀ (fuel l count : Nat) (h : α) (matchh : Bool) (path : List α), 33 ≤ l + fuel →
      l ≤ Nat.clog 2 leaves.length → count < 2 ^ 32 →
      SweepInv hash zero leaves pos matchlevel path₀ l count h matchh path →
      sweepLoop hash inner matchlevel fuel count l h matchh path =
        if leaves.length ≤ 2 ^ 31 then some (merklePath hash zero leaves pos) else none
  | fuel, l, count, h, matchh, path, hfuel, hl, hc, hinv => by
    have hcpos : 0 < count := by
      rw [hinv.count_eq]
      exact Nat.mul_pos (width_pos _ _) (Nat.two_pow_pos l)
    have hl32 : l < 32 := lt_32_of_dvd ⟨_, by rw [hinv.count_eq, Nat.mul_comm]⟩ hcpos hc
    have hpow := Nat.two_pow_pos l
    have hK : Nat.clog 2 leaves.length ≤ 32 := Nat.clog_le_of_le_pow (by omega)
    match fuel with
    | 0 => omega
    | fuel + 1 =>
      rw [sweepLoop, if_neg (by omega), Nat.one_shiftLeft]
      by_cases hW : width leaves.length l = 1
      · -- the root: `count` is `2 ^ l`
        obtain ⟨rfl, rfl⟩ := hinv.root hpos hW hl
        have h31 : leaves.length ≤ 2 ^ 31 :=
          Nat.le_trans (Nat.le_pow_clog (by omega) _) (Nat.pow_le_pow_right (by omega) (by omega))
        rw [if_pos (by rw [hinv.count_eq, hW, Nat.one_mul]), if_pos h31]
      · obtain ⟨hlK, hle⟩ := succ_width_mul_le (List.length_pos_iff.mpr hne) hinv.odd hW
        have hcount : count + 2 ^ l = (width leaves.length l + 1) * 2 ^ l := by
          rw [hinv.count_eq, Nat.succ_mul]
        rw [if_neg (by rw [hinv.count_eq]; exact fun h => hW (Nat.eq_of_mul_eq_mul_right
          (Nat.two_pow_pos l) (by rw [h, Nat.one_mul])))]
        dsimp only
        by_cases hwrap : count + 2 ^ l < 2 ^ 32
        · -- the carry loop goes up to the next set bit of the new count
          obtain ⟨t, h', matchh', path', hprop, hlt, hbit, hcarry⟩ :=
            propagate_carryInv hne hinner (by omega) hwrap 32 (l + 1) _ _ _ (by omega)
              (hinv.carryInv hne hpos)
          have htK : t ≤ Nat.clog 2 leaves.length :=
            le_of_two_pow_dvd hcarry.dvd (by omega) (by omega)
          rw [Nat.mod_eq_of_lt hwrap, hprop]
          exact sweepLoop_eq hne hpos hinner hn fuel t _ h' matchh' path' (by omega) htK hwrap
            (hcarry.sweepInv hne hbit)
        · -- `count` reaches `2 ^ 32`, so the root is on level `32`: more than `2 ^ 31` leaves
          have h32 : count + 2 ^ l = 2 ^ 32 := by
            have : 2 ^ Nat.clog 2 leaves.length ≤ 2 ^ 32 := Nat.pow_le_pow_right (by omega) hK
            omega
          have h31 : ¬leaves.length ≤ 2 ^ 31 := fun h31 => by
            have : 2 ^ Nat.clog 2 leaves.length ≤ 2 ^ 31 :=
              Nat.pow_le_pow_right (by omega) (Nat.clog_le_of_le_pow h31)
            omega
          rw [h32, Nat.mod_self, propagate_zero, if_neg h31]

end Sweep

-- ---------------------------------------------------------------------------
-- MerkleComputation computes the path
-- ---------------------------------------------------------------------------

section Path

variable {hash} {zero : α} {leaves : List α} {pos : Nat}

/-- `MerkleComputation` on a leaf of a list of at most `UINT32_MAX` leaves: the leaf's path
where there are at most `2 ^ 31` leaves, and the shift by `32` above. -/
theorem merkleComputation_of_le (hpos : pos < leaves.length)
    (hn : leaves.length ≤ UINT32_MAX) :
    merkleComputation hash zero leaves pos =
      if leaves.length ≤ 2 ^ 31 then some (merklePath hash zero leaves pos) else none := by
  have hne : leaves ≠ [] := List.ne_nil_of_length_pos (by omega)
  have hn' : leaves.length < 2 ^ 32 := by
    rw [UINT32_MAX] at hn
    omega
  -- the first loop reads every leaf; the skip loop finds the lowest set bit of `n`
  obtain ⟨st, hfold, hinv⟩ :=
    foldlM_leafStep hne hn' _ 0 ⟨0, fun _ => zero, -1, []⟩ rfl (Nat.zero_le _) MainInv.init
  rw [List.drop_zero] at hfold
  obtain ⟨ℓ, hlow, hbit, hd⟩ :=
    lowestSetBit_eq_some (List.length_pos_iff.mpr hne) hn' 32 0 (by omega) (by simp)
  have hℓ : ℓ ≤ Nat.clog 2 leaves.length :=
    le_of_two_pow_dvd hd (by omega) (Nat.le_pow_clog (by omega) _)
  rw [merkleComputation, if_neg (by omega), if_neg (by omega), hfold, Option.bind_eq_bind,
    Option.bind_some, hinv.count_eq, hlow, Option.bind_eq_bind, Option.bind_some]
  exact sweepLoop_eq hne hpos hinv.inner_eq hn' 33 ℓ _ _ _ _ (by omega) hℓ hn'
    (hinv.sweepInv hpos hbit hd)

/-- Up to `2 ^ 31` leaves, `MerkleComputation` returns the path of the leaf. -/
theorem merkleComputation_eq (hpos : pos < leaves.length) (hn : leaves.length ≤ 2 ^ 31) :
    merkleComputation hash zero leaves pos = some (merklePath hash zero leaves pos) := by
  rw [merkleComputation_of_le hpos (by rw [UINT32_MAX]; omega), if_pos hn]

/-- From `2 ^ 31 + 1` leaves on, the final sweep's `count` wraps to `0` and the carry loop
shifts by `32`. -/
theorem merkleComputation_of_lt_length (hpos : pos < leaves.length)
    (h31 : 2 ^ 31 < leaves.length) (hn : leaves.length ≤ UINT32_MAX) :
    merkleComputation hash zero leaves pos = none := by
  rw [merkleComputation_of_le hpos hn, if_neg (by omega)]

end Path

/-- `MerkleComputation` returns, for a leaf of up to `2 ^ 31` leaves, a path of one hash per
level below the root whose fold from the leaf is `ComputeMerkleRoot`; for no leaves the path
is empty. -/
theorem merkleComputation_path_folds_to_root [DecidableEq α] (zero : α) (leaves : List α)
    (pos : Nat) (hn : leaves.length ≤ 2 ^ 31) :
    (leaves = [] → merkleComputation hash zero leaves pos = some []) ∧
    (pos < leaves.length → ∃ path, merkleComputation hash zero leaves pos = some path ∧
      computeMerkleRootFromBranch hash (leaves.getD pos zero) path pos =
        (computeMerkleRoot hash zero leaves).1 ∧
      path.length = Nat.clog 2 leaves.length) := by
  refine ⟨fun hnil => by rw [hnil]; rfl, fun hpos => ?_⟩
  exact ⟨merklePath hash zero leaves pos, merkleComputation_eq hpos hn,
    computeMerkleRootFromBranch_merklePath zero hpos, length_merklePath zero pos⟩

theorem merkleComputation_path_folds_to_root_five :
    [1, 2, 3, 4, 5].length ≤ 2 ^ 31 ∧
    (([1, 2, 3, 4, 5] : List Nat) = [] →
      merkleComputation (fun a b => 3 * a + 7 * b + 1) 0 [1, 2, 3, 4, 5] 4 = some []) ∧
    (4 < [1, 2, 3, 4, 5].length → ∃ path,
      merkleComputation (fun a b => 3 * a + 7 * b + 1) 0 [1, 2, 3, 4, 5] 4 = some path ∧
      computeMerkleRootFromBranch (fun a b => 3 * a + 7 * b + 1) ([1, 2, 3, 4, 5].getD 4 0) path 4 =
        (computeMerkleRoot (fun a b => 3 * a + 7 * b + 1) 0 [1, 2, 3, 4, 5]).1 ∧
      path.length = Nat.clog 2 [1, 2, 3, 4, 5].length) :=
  ⟨by decide, merkleComputation_path_folds_to_root _ 0 [1, 2, 3, 4, 5] 4 (by decide)⟩

/-- `2 ^ 31 + 1` leaves are within the `Assume` of `UINT32_MAX`, and make the final sweep shift
by `32`. -/
theorem merkleComputation_shift_by_32 :
    (List.replicate (2 ^ 31 + 1) 1).length ≤ UINT32_MAX ∧
      merkleComputation (fun a b => 3 * a + 7 * b + 1) 0 (List.replicate (2 ^ 31 + 1) 1) 0 = none := by
  have hlen : (List.replicate (2 ^ 31 + 1) 1).length = 2 ^ 31 + 1 := List.length_replicate
  have hmax : (List.replicate (2 ^ 31 + 1) 1).length ≤ UINT32_MAX := by
    rw [hlen, UINT32_MAX]
    omega
  exact ⟨hmax, merkleComputation_of_lt_length (by rw [hlen]; omega) (by rw [hlen]; omega) hmax⟩

example : merkleComputation (fun a b => 3 * a + 7 * b + 1) 0 [1, 2, 3, 4, 5] 4 =
    some (merklePath (fun a b => 3 * a + 7 * b + 1) 0 [1, 2, 3, 4, 5] 4) := by
  decide

end Riecoin.Consensus
