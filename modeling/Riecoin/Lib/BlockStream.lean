-- SUMMARY: Streams made of fixed-size blocks from a generator, and read through a one-block buffer: what reading the buffered elements, whole blocks and part of one more block consumes.
import Mathlib.Data.Stream.Init
import Mathlib.Logic.Function.Iterate
import Mathlib.Data.List.GetD

/-!
# Block streams

A generator with state `σ` yields one block of `L` elements at a time (`block s`) and moves on
(`next s`); the blocks from `s` on, end to end, form a stream (`stream`). A reader that keeps the
rest of the last block it started in a buffer has the stream `buffered` ahead of it: the last
`left` elements of the buffer, then the blocks from the generator's state.

The lemmas say what the three usual ways of reading consume: elements left in the buffer
(`take_buffered`, `drop_buffered`), whole blocks straight from the generator (`take_stream_blocks`,
`drop_stream`), and the first elements of one more block, whose rest becomes the buffer
(`buffered_next`). `stream_semiconj` carries a stream along a map of generator states that
commutes with the steps.
-/

namespace BlockStream

open Stream'

variable {α : Type}

/-- Taking `m + n` elements is taking `m`, then `n` of the rest. -/
theorem take_add (s : Stream' α) (m n : ℕ) : s.take (m + n) = s.take m ++ (s.drop m).take n := by
  induction m generalizing s with
  | zero =>
    rw [Nat.zero_add]
    rfl
  | succ m ih =>
    rw [Nat.succ_add, take_succ, take_succ, ih, drop_succ]
    rfl

theorem getElem_take (s : Stream' α) {n k : ℕ} (hk : k < (s.take n).length) : (s.take n)[k] = s.get k := by
  have hk' : k < n := by rwa [length_take] at hk
  have := getElem?_take (s := s) hk'
  rw [List.getElem?_eq_getElem hk] at this
  exact Option.some.inj this

section Blocks

variable [Inhabited α] {σ : Type} (block : σ → List α) (next : σ → σ) (L : ℕ)

/-- The blocks `block s`, `block (next s)`, ... end to end. -/
def stream (s : σ) : Stream' α := fun i => (block (next^[i / L] s)).getD (i % L) default

/-- What a reader has ahead of it when it holds the last `left` elements of `buffer`, and the
generator is at `s`. -/
def buffered (s : σ) (buffer : List α) (left : ℕ) : Stream' α :=
  fun i => if i < left then buffer.getD (L - left + i) default else stream block next L s (i - left)

/-- `m` blocks from `s`, end to end. -/
def blocks (s : σ) : ℕ → List α
  | 0 => []
  | m + 1 => block s ++ blocks (next (s)) m

variable {block next L}

/-- A map of generator states that commutes with the steps and keeps the blocks keeps the
stream. -/
theorem stream_semiconj {τ : Type} {block' : τ → List α} {next' : τ → τ} (f : σ → τ)
    (hnext : Function.Semiconj f next next') (hblock : ∀ s, block' (f s) = block s) (s : σ) :
    stream block next L s = stream block' next' L (f s) := by
  funext i
  simp only [stream, ← (hnext.iterate_right (i / L)) s, hblock]

theorem buffered_zero (s : σ) (buffer : List α) : buffered block next L s buffer 0 = stream block next L s := by
  funext i
  simp [buffered]

/-- Past `m` whole blocks, the stream goes on from the generator `m` steps on. -/
theorem drop_stream (hL0 : 0 < L) (s : σ) (m : ℕ) :
    (stream block next L s).drop (m * L) = stream block next L (next^[m] s) := by
  funext i
  simp only [Stream'.drop, Stream'.get, stream]
  rw [Nat.add_mul_div_right i m hL0, Nat.add_mul_mod_self_right, Function.iterate_add_apply]

/-- The elements left in the buffer come first. -/
theorem take_buffered (s : σ) {buffer : List α} {left r : ℕ} (hbuf : buffer.length = L) (hleft : left ≤ L)
    (hr : r ≤ left) : (buffered block next L s buffer left).take r = (buffer.drop (L - left)).take r := by
  apply List.ext_getElem (by simp [length_take]; omega)
  intro k hk _
  have hkr : k < r := by rwa [length_take] at hk
  rw [getElem_take, List.getElem_take, List.getElem_drop]
  simp only [Stream'.get, buffered, if_pos (show k < left by omega)]
  rw [List.getD_eq_getElem _ _ (by omega)]

/-- Reading from the buffer leaves the rest of it. -/
theorem drop_buffered (s : σ) (buffer : List α) {left r : ℕ} (hleft : left ≤ L) (hr : r ≤ left) :
    (buffered block next L s buffer left).drop r = buffered block next L s buffer (left - r) := by
  funext i
  simp only [Stream'.drop, Stream'.get, buffered]
  by_cases hi : i < left - r
  · rw [if_pos (by omega), if_pos hi]
    congr 1
    omega
  · rw [if_neg (by omega), if_neg hi]
    congr 1
    omega

/-- A reader that takes the first `t` elements of one more block and buffers the block has the
rest of the stream ahead of it. -/
theorem buffered_next (hL0 : 0 < L) (s : σ) {t : ℕ} (ht : t ≤ L) :
    buffered block next L (next s) (block s) (L - t) = (stream block next L s).drop t := by
  funext i
  simp only [Stream'.drop, Stream'.get, buffered, stream]
  by_cases hi : i < L - t
  · -- still in the buffered block
    rw [if_pos hi, Nat.div_eq_of_lt (show i + t < L by omega), Nat.mod_eq_of_lt (show i + t < L by omega),
      Function.iterate_zero, id, show L - (L - t) + i = i + t by omega]
  · -- in the blocks after it
    obtain ⟨j, hj⟩ : ∃ j, i + t = j + L := ⟨i + t - L, by omega⟩
    rw [if_neg hi, hj, Nat.add_div_right j hL0, Nat.add_mod_right, Function.iterate_succ_apply,
      show i - (L - t) = j by omega]

section Lengths

variable (hL : ∀ s, (block s).length = L)
include hL

/-- Reading up to a block from the generator reads its block. -/
theorem take_stream_of_le (s : σ) {t : ℕ} (ht : t ≤ L) : (stream block next L s).take t = (block s).take t := by
  apply List.ext_getElem (by simp [length_take, hL, ht])
  intro k hk _
  have hkt : k < t := by rwa [length_take] at hk
  rw [getElem_take, List.getElem_take]
  simp only [Stream'.get, stream, Nat.div_eq_of_lt (show k < L by omega), Nat.mod_eq_of_lt (show k < L by omega),
    Function.iterate_zero, id]
  rw [List.getD_eq_getElem _ _ (by rw [hL]; omega)]

/-- Reading `m` whole blocks reads the blocks one after the other. -/
theorem take_stream_blocks (hL0 : 0 < L) (s : σ) (m : ℕ) :
    (stream block next L s).take (m * L) = blocks block next s m := by
  induction m generalizing s with
  | zero =>
    rw [Nat.zero_mul]
    rfl
  | succ m ih =>
    have hdrop : (stream block next L s).drop L = stream block next L (next s) := by
      simpa using drop_stream hL0 s 1
    rw [Nat.succ_mul, Nat.add_comm, take_add, take_stream_of_le hL s le_rfl,
      List.take_of_length_le (by rw [hL]), hdrop, ih]
    rfl

end Lengths

end Blocks

end BlockStream
