-- SUMMARY: CRollingBloomFilter of common/bloom.cpp: its constructor, insert with the generation switch and wipe, contains and reset, and that it finds every key of the last three generations.
import Riecoin.Lib.RollingLabels
import Riecoin.Lib.CheckedInt
import Mathlib.Data.List.GetD
import Mathlib.Analysis.SpecialFunctions.Log.Basic
import Mathlib.Analysis.Complex.ExponentialBounds

/-!
# The rolling Bloom filter

`CRollingBloomFilter` keeps a 2-bit label per cell (`RollingLabels.label`) in a vector of 64-bit
words: 0 for an empty cell, otherwise the generation, 1 to 3, of the last key that set it. Each
generation takes `nEntriesPerGeneration = ceil(nElements / 2)` inserts; the insert that finds it
full moves to the next generation number and wipes the cells labelled with it.

`MurmurHash3` is a parameter: the results hold for every hash function of the seed and the key.
The model returns `none` where the source would read `data` out of bounds, so a `some` result says
that every index was in range.

The constructor sizes the filter in `double`, read exactly in an ordered field with `log` and
`exp` as parameters (`hashFuncs`, `filterBits`); its conversions to `int` and `uint32_t` and the
`int` product `nEntriesPerGeneration * 3` are `none` where the source's are undefined. For
`0 < fpRate < 1` and a `log` and `exp` with the signs of the real ones (`LogExpSigns`), a
constructed filter has `nElements ≤ 1431655764` and a positive even number of words (`new_spec`).

* `insert_spec` and `contains_spec` say what one call does to and reads from the labels.
* `Holds` is the invariant of a run since the last `reset()`: every hash cell of a key of the
  current generation or the two before holds a label of a generation from that key's to now, and
  a wipe never reaches it.
* `contains_recent_keys` puts the two together for the filters the interface reaches
  (`Reachable`): every key of the last three generations is found, which covers the last
  `nElements` keys and holds no more than the last `3 * ceil(nElements / 2)`.
-/

namespace Riecoin
namespace Bloom

-- ---------------------------------------------------------------------------
-- The model
-- ---------------------------------------------------------------------------

/-- `CeilDiv(dividend, divisor)` of `util/overflow.h`. -/
def ceilDiv (dividend divisor : Nat) : Nat := dividend / divisor + if dividend % divisor ≠ 0 then 1 else 0

/-- `FastRange32(x, n)` of `util/fastrange.h`: `x * n >> 32`, computed in 64 bits. -/
def fastRange32 (x n : UInt32) : UInt32 := ((x.toUInt64 * n.toUInt64) >>> 32).toUInt32

/-- `RollingBloomHash(nHashNum, nTweak, vDataToHash)`, with `MurmurHash3` the parameter
`murmurHash3` (a function of the seed and the data). -/
def rollingBloomHash {κ : Type} (murmurHash3 : UInt32 → κ → UInt32) (nHashNum nTweak : UInt32) (vDataToHash : κ) :
    UInt32 :=
  murmurHash3 (nHashNum * 0xFBA4C795 + nTweak) vDataToHash

section Sizing

/-! The constructor sizes the filter in `double`. The model reads that arithmetic exactly in an
ordered field `D` with a floor, and takes `log` and `exp` as parameters; the theorems ask of
them only the signs the sizing rests on. -/

variable {D : Type} [Field D] [LinearOrder D] [IsStrictOrderedRing D] [FloorRing D]

/-- `nHashFuncs = std::max(1, std::min((int)round(logFpRate / log(0.5)), 50))`. -/
def hashFuncs (log : D → D) (logFpRate : D) : Option Int := do
  let rounded ← CheckedInt.ofInt? 32 (CheckedInt.roundHalfAway (logFpRate / log 0.5))
  pure (max 1 (min rounded 50))

/-- `nFilterBits = (uint32_t)ceil(-1.0 * nHashFuncs * nMaxElements / log(1.0 - exp(logFpRate / nHashFuncs)))`. -/
def filterBits (log exp : D → D) (logFpRate : D) (nHashFuncs : Int) (nMaxElements : UInt32) : Option UInt32 := do
  let bits ← CheckedInt.toUnsigned? 32
    ⌈-1 * (nHashFuncs : D) * (nMaxElements.toNat : D) / log (1 - exp (logFpRate / nHashFuncs))⌉
  pure (UInt32.ofNat bits)

end Sizing

section Hash

variable {κ : Type} (murmurHash3 : UInt32 → κ → UInt32)

/-- One pass of the hash loop of `insert`: the cell of hash `n` gets the label `nGeneration`. -/
def insertHash (nTweak : UInt32) (vKey : κ) (nGeneration : Nat) (data : List UInt64) (n : Nat) :
    Option (List UInt64) := do
  let h := rollingBloomHash murmurHash3 (UInt32.ofNat n) nTweak vKey
  let bit := (h &&& 0x3F).toNat
  let pos := fastRange32 h (UInt32.ofNat data.length)
  let lo ← data[(pos &&& ~~~1).toNat]?
  let data := data.set (pos &&& ~~~1).toNat
    ((lo &&& ~~~((1 : UInt64) <<< UInt64.ofNat bit)) ||| UInt64.ofNat (nGeneration &&& 1) <<< UInt64.ofNat bit)
  let hi ← data[(pos ||| 1).toNat]?
  pure (data.set (pos ||| 1).toNat
    ((hi &&& ~~~((1 : UInt64) <<< UInt64.ofNat bit)) ||| UInt64.ofNat (nGeneration >>> 1) <<< UInt64.ofNat bit))

/-- The cell of hash `n` of `vKey` in a filter of `size` words: the pair `pos / 2` and the bit
`h & 0x3F`. -/
def cell (nTweak : UInt32) (size : Nat) (vKey : κ) (n : Nat) : Nat × Nat :=
  let h := rollingBloomHash murmurHash3 (UInt32.ofNat n) nTweak vKey
  ((fastRange32 h (UInt32.ofNat size)).toNat / 2, (h &&& 0x3F).toNat)

/-- The wipe loop of `insert`: each pair of words loses the bits of the cells labelled with the
masks' generation. `data[p + 1]` past the end of an odd-sized `data` is `none`. -/
def wipeLoop (nGenerationMask1 nGenerationMask2 : UInt64) : List UInt64 → Option (List UInt64)
  | [] => some []
  | [_] => none
  | p1 :: p2 :: rest => do
    let mask := (p1 ^^^ nGenerationMask1) ||| (p2 ^^^ nGenerationMask2)
    let rest ← wipeLoop nGenerationMask1 nGenerationMask2 rest
    pure ((p1 &&& mask) :: (p2 &&& mask) :: rest)

/-- `CRollingBloomFilter`. The `int` fields are kept as `Nat`s: in a filter the constructor builds
none of them is negative (it is undefined where `nEntriesPerGeneration * 3` overflows), and
later calls only count up to `nEntriesPerGeneration` and through the generations 1 to 3. -/
structure CRollingBloomFilter where
  nEntriesPerGeneration : Nat
  nEntriesThisGeneration : Nat
  nGeneration : Nat
  data : List UInt64
  nTweak : UInt32
  nHashFuncs : Nat
  deriving DecidableEq, Repr

namespace CRollingBloomFilter

/-- `reset()`, with `nTweak` the value it draws from `FastRandomContext`. -/
def reset (f : CRollingBloomFilter) (nTweak : UInt32) : CRollingBloomFilter :=
  { f with nTweak, nEntriesThisGeneration := 0, nGeneration := 1, data := List.replicate f.data.length 0 }

/-- The constructor `CRollingBloomFilter(nElements, fpRate)`, with `nTweak` the tweak of the
`reset()` it ends with. `CeilDiv(nElements, 2u)` is stored in the `int` field, and the product
`nEntriesPerGeneration * 3` is taken in `int` before it becomes the `uint32_t` `nMaxElements`. -/
def new {D : Type} [Field D] [LinearOrder D] [IsStrictOrderedRing D] [FloorRing D] (log exp : D → D)
    (nElements : UInt32) (fpRate : D) (nTweak : UInt32) : Option CRollingBloomFilter := do
  let logFpRate := log fpRate
  let nHashFuncs ← hashFuncs log logFpRate
  let nEntriesPerGeneration := CheckedInt.wrap 32 (ceilDiv nElements.toNat 2)
  let nMaxElements ← CheckedInt.mul? 32 nEntriesPerGeneration 3
  let nFilterBits ← filterBits log exp logFpRate nHashFuncs (UInt32.ofNat (nMaxElements % 2 ^ 32).toNat)
  pure (reset
    { nEntriesPerGeneration := nEntriesPerGeneration.toNat
      nEntriesThisGeneration := 0
      nGeneration := 0
      data := List.replicate (ceilDiv nFilterBits.toNat 64 <<< 1) 0
      nTweak := 0
      nHashFuncs := nHashFuncs.toNat }
    nTweak)

/-- The top of `insert`: once a generation is full, the next one starts, and the cells labelled
with its number are wiped. -/
def nextGeneration (f : CRollingBloomFilter) : Option CRollingBloomFilter :=
  if f.nEntriesThisGeneration = f.nEntriesPerGeneration then do
    let nGeneration := if f.nGeneration + 1 = 4 then 1 else f.nGeneration + 1
    let nGenerationMask1 := (0 : UInt64) - UInt64.ofNat (nGeneration &&& 1)
    let nGenerationMask2 := (0 : UInt64) - UInt64.ofNat (nGeneration >>> 1)
    let data ← wipeLoop nGenerationMask1 nGenerationMask2 f.data
    pure { f with nEntriesThisGeneration := 0, nGeneration, data }
  else pure f

/-- `insert(vKey)`. -/
def insert (f : CRollingBloomFilter) (vKey : κ) : Option CRollingBloomFilter := do
  let f ← nextGeneration f
  let data ← (List.range f.nHashFuncs).foldlM (insertHash murmurHash3 f.nTweak vKey f.nGeneration) f.data
  pure { f with nEntriesThisGeneration := f.nEntriesThisGeneration + 1, data }

/-- One pass of the loop of `contains`: whether the cell of hash `n` is labelled. -/
def containsHash (f : CRollingBloomFilter) (vKey : κ) (n : Nat) : Option Bool := do
  let h := rollingBloomHash murmurHash3 (UInt32.ofNat n) f.nTweak vKey
  let bit := (h &&& 0x3F).toNat
  let pos := fastRange32 h (UInt32.ofNat f.data.length)
  let lo ← f.data[(pos &&& ~~~1).toNat]?
  let hi ← f.data[(pos ||| 1).toNat]?
  pure (((lo ||| hi) >>> UInt64.ofNat bit) &&& 1 != 0)

/-- `contains(vKey)`: false at the first hash whose cell is empty. -/
def contains (f : CRollingBloomFilter) (vKey : κ) : Option Bool :=
  (List.range f.nHashFuncs).allM (containsHash murmurHash3 f vKey)

/-- A sequence of `insert` calls. -/
def insertAll (f : CRollingBloomFilter) (ks : List κ) : Option CRollingBloomFilter :=
  ks.foldlM (insert murmurHash3) f

end CRollingBloomFilter

end Hash

-- ---------------------------------------------------------------------------
-- One call
-- ---------------------------------------------------------------------------

theorem fastRange32_lt (x n : UInt32) (hn : 0 < n.toNat) : (fastRange32 x n).toNat < n.toNat := by
  have hx := x.toNat_lt
  have hprod : x.toNat * n.toNat < 2 ^ 32 * n.toNat := Nat.mul_lt_mul_of_pos_right hx hn
  simp only [fastRange32, UInt64.toNat_toUInt32, UInt64.toNat_shiftRight, UInt64.toNat_mul, UInt32.toNat_toUInt64]
  rw [Nat.mod_eq_of_lt (by have := n.toNat_lt; omega : x.toNat * n.toNat < 2 ^ 64), Nat.shiftRight_eq_div_pow]
  have hdiv : x.toNat * n.toNat / 2 ^ 32 < n.toNat := Nat.div_lt_of_lt_mul hprod
  exact lt_of_le_of_lt (Nat.mod_le _ _) hdiv

theorem toNat_and_3F_lt (h : UInt32) : (h &&& 0x3F).toNat < 64 := by
  have : h.toNat &&& 63 ≤ 63 := Nat.and_le_right
  simp only [UInt32.toNat_and, UInt32.reduceToNat]
  omega

open RollingLabels

section Spec

variable {κ : Type} (murmurHash3 : UInt32 → κ → UInt32)

/-- In a filter of an even number of words below `2^32`, both words of a hash's pair exist and
its bit is one of the 64 of a word. -/
theorem cell_lt (nTweak : UInt32) {size : Nat} (vKey : κ) (n : Nat)
    (hpos : 0 < size) (heven : size % 2 = 0) (hlt : size < 2 ^ 32) :
    2 * (cell murmurHash3 nTweak size vKey n).1 + 1 < size ∧ (cell murmurHash3 nTweak size vKey n).2 < 64 := by
  have hsize : (UInt32.ofNat size).toNat = size := UInt32.toNat_ofNat_of_lt' hlt
  have hrange := fastRange32_lt (rollingBloomHash murmurHash3 (UInt32.ofNat n) nTweak vKey)
    (UInt32.ofNat size) (by omega)
  rw [hsize] at hrange
  exact ⟨by simp only [cell]; omega, toNat_and_3F_lt _⟩

/-- A hash pass on a filter of an even number of words below `2^32`: the two words of its pair are
in range, and it writes the low and the high bit of `g` into them. -/
theorem insertHash_eq {nTweak : UInt32} {vKey : κ} {g : Nat} {data : List UInt64} (n : Nat)
    (hpos : 0 < data.length) (heven : data.length % 2 = 0) (hlt : data.length < 2 ^ 32) :
    let c := cell murmurHash3 nTweak data.length vKey n
    2 * c.1 + 1 < data.length ∧ c.2 < 64 ∧
      insertHash murmurHash3 nTweak vKey g data n =
        some ((data.set (2 * c.1) ((data.getD (2 * c.1) 0 &&& ~~~((1 : UInt64) <<< UInt64.ofNat c.2)) |||
            UInt64.ofNat (g &&& 1) <<< UInt64.ofNat c.2)).set (2 * c.1 + 1)
          ((data.getD (2 * c.1 + 1) 0 &&& ~~~((1 : UInt64) <<< UInt64.ofNat c.2)) |||
            UInt64.ofNat (g >>> 1) <<< UInt64.ofNat c.2)) := by
  intro c
  obtain ⟨hi1, hb⟩ : 2 * c.1 + 1 < data.length ∧ c.2 < 64 := cell_lt murmurHash3 nTweak vKey n hpos heven hlt
  refine ⟨hi1, hb, ?_⟩
  have hi0 : 2 * c.1 < data.length := by omega
  simp only [c, cell] at hi0 hi1
  simp only [insertHash, toNat_and_not_one, toNat_or_one, c, cell]
  rw [List.getElem?_eq_getElem hi0, Option.bind_eq_bind, Option.bind_some,
    List.getElem?_set_ne (by omega), List.getElem?_eq_getElem hi1, Option.bind_some,
    List.getD_eq_getElem _ _ hi0, List.getD_eq_getElem _ _ hi1]
  rfl

/-- A hash pass writes the label `g` into its cell and changes no other cell. -/
theorem insertHash_spec {nTweak : UInt32} {vKey : κ} {g : Nat} {data : List UInt64} (n : Nat) (hg : g < 4)
    (hpos : 0 < data.length) (heven : data.length % 2 = 0) (hlt : data.length < 2 ^ 32) :
    ∃ data', insertHash murmurHash3 nTweak vKey g data n = some data' ∧ data'.length = data.length ∧
      ∀ j b, b < 64 → label data' j b =
        if (j, b) = cell murmurHash3 nTweak data.length vKey n then g else label data j b := by
  obtain ⟨hi1, hb, heq⟩ := insertHash_eq murmurHash3 (g := g) n hpos heven hlt
  refine ⟨_, heq, by simp, fun j b' hb' => ?_⟩
  rw [label_write hi1 hb hg j b' hb']
  simp only [Prod.ext_iff]

/-- The hash loop of `insert`: the cells of the hashes `ns` get the label `g`, no other cell changes. -/
theorem foldlM_insertHash_spec (nTweak : UInt32) (vKey : κ) {g : Nat} (hg : g < 4) (ns : List Nat) :
    ∀ data : List UInt64, 0 < data.length → data.length % 2 = 0 → data.length < 2 ^ 32 →
      ∃ data', ns.foldlM (insertHash murmurHash3 nTweak vKey g) data = some data' ∧ data'.length = data.length ∧
        ∀ j b, b < 64 → label data' j b =
          if ∃ n ∈ ns, (j, b) = cell murmurHash3 nTweak data.length vKey n then g else label data j b := by
  induction ns with
  | nil => intro data _ _ _; exact ⟨data, rfl, rfl, fun j b _ => by simp⟩
  | cons n ns ih =>
    intro data hpos heven hlt
    obtain ⟨data1, h1, hlen1, hlab1⟩ := insertHash_spec murmurHash3 n hg hpos heven hlt
    obtain ⟨data', h', hlen', hlab'⟩ := ih data1 (by omega) (by omega) (by omega)
    refine ⟨data', by rw [List.foldlM_cons, h1, Option.bind_eq_bind, Option.bind_some]; exact h', by omega,
      fun j b hb => ?_⟩
    rw [hlab' j b hb, hlab1 j b hb, hlen1]
    -- a cell of the later hashes, of the first one, or of none
    by_cases hrest : ∃ n ∈ ns, (j, b) = cell murmurHash3 nTweak data.length vKey n
    · obtain ⟨n', hn', hc⟩ := hrest
      rw [if_pos ⟨n', hn', hc⟩, if_pos ⟨n', List.mem_cons_of_mem n hn', hc⟩]
    · rw [if_neg hrest]
      by_cases hfirst : (j, b) = cell murmurHash3 nTweak data.length vKey n
      · rw [if_pos hfirst, if_pos ⟨n, List.mem_cons_self, hfirst⟩]
      · rw [if_neg hfirst, if_neg]
        rintro ⟨n', hn', hc⟩
        rcases List.mem_cons.mp hn' with rfl | hn'
        · exact hfirst hc
        · exact hrest ⟨n', hn', hc⟩

/-- The wipe loop on an even number of words, with the masks of the generation `g`: the cells
labelled `g` are emptied, the others kept. -/
theorem wipeLoop_spec {m1 m2 : UInt64} {g : Nat} (hg : g < 4)
    (hm1 : ∀ b < 64, bit m1 b = decide (g &&& 1 = 1)) (hm2 : ∀ b < 64, bit m2 b = decide (g >>> 1 = 1))
    (data : List UInt64) (heven : data.length % 2 = 0) :
    ∃ data', wipeLoop m1 m2 data = some data' ∧ data'.length = data.length ∧
      ∀ j b, b < 64 → label data' j b = if label data j b = g then 0 else label data j b := by
  induction data using wipeLoop.induct m1 m2 with
  | case1 => exact ⟨[], rfl, rfl, fun j b _ => by simp [label]⟩
  | case2 => simp at heven
  | case3 p1 p2 rest ih =>
    obtain ⟨rest', hrest, hlen, hlab⟩ := ih (by simp at heven; omega)
    refine ⟨_, by rw [wipeLoop, hrest, Option.bind_eq_bind, Option.bind_some]; rfl, by simp [hlen], ?_⟩
    intro j b hb
    -- the first pair is wiped here, the others by the rest of the loop
    rcases j with _ | j
    · rw [label_cons_cons_zero, label_cons_cons_zero]
      exact label_wipe p1 p2 m1 m2 hg (hm1 b hb) (hm2 b hb)
    · rw [label_cons_cons_succ, label_cons_cons_succ]
      exact hlab j b hb

/-- The generation masks `0 - (nGeneration & 1)` and `0 - (nGeneration >> 1)` have all bits equal to
the low and the high bit of the generation. -/
theorem bit_generationMask {g b : Nat} (hg : g < 4) (hb : b < 64) :
    bit ((0 : UInt64) - UInt64.ofNat (g &&& 1)) b = decide (g &&& 1 = 1) ∧
      bit ((0 : UInt64) - UInt64.ofNat (g >>> 1)) b = decide (g >>> 1 = 1) := by
  have hlow : g &&& 1 ≤ 1 := by interval_cases g <;> decide
  have hhigh : g >>> 1 ≤ 1 := by interval_cases g <;> decide
  exact ⟨bit_zero_sub hlow hb, bit_zero_sub hhigh hb⟩

namespace CRollingBloomFilter

/-- What every filter the interface can reach satisfies: the generation counts are in range, and
`data` is a positive even number of words that `FastRange32` can index. -/
structure Wf (f : CRollingBloomFilter) : Prop where
  perGeneration_pos : 0 < f.nEntriesPerGeneration
  thisGeneration_le : f.nEntriesThisGeneration ≤ f.nEntriesPerGeneration
  generation_pos : 0 < f.nGeneration
  generation_lt : f.nGeneration < 4
  data_pos : 0 < f.data.length
  data_even : f.data.length % 2 = 0
  data_lt : f.data.length < 2 ^ 32
  hashFuncs_pos : 0 < f.nHashFuncs

variable {f : CRollingBloomFilter}

/-- The generation switch: none while the generation has room; otherwise the count restarts, the
generation number moves on, and the cells labelled with the new number are wiped. -/
theorem nextGeneration_spec (hf : Wf f) :
    ∃ f', nextGeneration f = some f' ∧
      f'.nEntriesPerGeneration = f.nEntriesPerGeneration ∧ f'.nTweak = f.nTweak ∧ f'.nHashFuncs = f.nHashFuncs ∧
      f'.data.length = f.data.length ∧
      f'.nEntriesThisGeneration = (if f.nEntriesThisGeneration = f.nEntriesPerGeneration then 0
        else f.nEntriesThisGeneration) ∧
      f'.nGeneration = (if f.nEntriesThisGeneration = f.nEntriesPerGeneration then
        (if f.nGeneration + 1 = 4 then 1 else f.nGeneration + 1) else f.nGeneration) ∧
      ∀ j b, b < 64 → label f'.data j b =
        if f.nEntriesThisGeneration = f.nEntriesPerGeneration ∧ label f.data j b = f'.nGeneration then 0
        else label f.data j b := by
  by_cases hfull : f.nEntriesThisGeneration = f.nEntriesPerGeneration
  · set g := if f.nGeneration + 1 = 4 then 1 else f.nGeneration + 1 with hg_def
    have hg : g < 4 := by have := hf.generation_lt; rw [hg_def]; split_ifs <;> omega
    obtain ⟨data', hwipe, hlen, hlab⟩ := wipeLoop_spec hg (fun b hb => (bit_generationMask hg hb).1)
      (fun b hb => (bit_generationMask hg hb).2) f.data hf.data_even
    refine ⟨{ f with nEntriesThisGeneration := 0, nGeneration := g, data := data' }, ?_, rfl, rfl, rfl, hlen,
      by simp [hfull], by simp [hfull, hg_def], fun j b hb => ?_⟩
    · rw [nextGeneration, if_pos hfull]
      simp only [← hg_def, hwipe, Option.bind_eq_bind, Option.bind_some]
      rfl
    · simp only [hlab j b hb, hfull, true_and]
  · refine ⟨f, by rw [nextGeneration, if_neg hfull]; rfl, rfl, rfl, rfl, rfl, by simp [hfull], by simp [hfull],
      fun j b _ => by simp [hfull]⟩

/-- `insert`: after the generation switch, the cells of the key's hashes get the generation's
label; every other cell is as the switch left it. -/
theorem insert_spec (hf : Wf f) (vKey : κ) :
    ∃ f', f.insert murmurHash3 vKey = some f' ∧
      f'.nEntriesPerGeneration = f.nEntriesPerGeneration ∧ f'.nTweak = f.nTweak ∧ f'.nHashFuncs = f.nHashFuncs ∧
      f'.data.length = f.data.length ∧
      f'.nEntriesThisGeneration = (if f.nEntriesThisGeneration = f.nEntriesPerGeneration then 0
        else f.nEntriesThisGeneration) + 1 ∧
      f'.nGeneration = (if f.nEntriesThisGeneration = f.nEntriesPerGeneration then
        (if f.nGeneration + 1 = 4 then 1 else f.nGeneration + 1) else f.nGeneration) ∧
      ∀ j b, b < 64 → label f'.data j b =
        if ∃ n < f.nHashFuncs, (j, b) = cell murmurHash3 f.nTweak f.data.length vKey n then f'.nGeneration
        else if f.nEntriesThisGeneration = f.nEntriesPerGeneration ∧ label f.data j b = f'.nGeneration then 0
        else label f.data j b := by
  obtain ⟨f1, hnext, hper, htweak, hhash, hlen, hcount, hgen, hlab⟩ := nextGeneration_spec hf
  have hg : f1.nGeneration < 4 := by have := hf.generation_lt; rw [hgen]; split_ifs <;> omega
  obtain ⟨data', hfold, hlen', hlab'⟩ := foldlM_insertHash_spec murmurHash3 f1.nTweak vKey hg
    (List.range f1.nHashFuncs) f1.data (by rw [hlen]; exact hf.data_pos) (by rw [hlen]; exact hf.data_even)
    (by rw [hlen]; exact hf.data_lt)
  refine ⟨{ f1 with nEntriesThisGeneration := f1.nEntriesThisGeneration + 1, data := data' }, ?_, hper, htweak,
    hhash, by simp [hlen', hlen], by simp [hcount], hgen, fun j b hb => ?_⟩
  · rw [insert, hnext, Option.bind_eq_bind, Option.bind_some]
    simp only [hfold, Option.bind_eq_bind, Option.bind_some]
    rfl
  · simp only [hlab' j b hb, hlab j b hb, hlen, htweak, hhash, List.mem_range]

/-- A pass of `contains` reads the two words of its pair and says whether the cell is labelled. -/
theorem containsHash_eq (hf : Wf f) (vKey : κ) (n : Nat) :
    let c := cell murmurHash3 f.nTweak f.data.length vKey n
    f.containsHash murmurHash3 vKey n = some (decide (label f.data c.1 c.2 ≠ 0)) := by
  intro c
  obtain ⟨hi1, hb⟩ : 2 * c.1 + 1 < f.data.length ∧ c.2 < 64 :=
    cell_lt murmurHash3 f.nTweak vKey n hf.data_pos hf.data_even hf.data_lt
  have hi0 : 2 * c.1 < f.data.length := by omega
  simp only [c, cell] at hi0 hi1 hb
  simp only [containsHash, toNat_and_not_one, toNat_or_one]
  rw [List.getElem?_eq_getElem hi0, Option.bind_eq_bind, Option.bind_some, List.getElem?_eq_getElem hi1,
    Option.bind_some, shiftRight_and_one_ne_zero _ hb, bit_or]
  simp only [c, cell, ne_eq, label_eq_zero_iff, List.getD_eq_getElem _ _ hi0, List.getD_eq_getElem _ _ hi1]
  simp

/-- `contains` is true exactly when every hash's cell is labelled. -/
theorem contains_spec (hf : Wf f) (vKey : κ) :
    f.contains murmurHash3 vKey = some (decide (∀ n < f.nHashFuncs,
      label f.data (cell murmurHash3 f.nTweak f.data.length vKey n).1
        (cell murmurHash3 f.nTweak f.data.length vKey n).2 ≠ 0)) := by
  have hpass : f.containsHash murmurHash3 vKey = fun n => pure (decide (label f.data
      (cell murmurHash3 f.nTweak f.data.length vKey n).1 (cell murmurHash3 f.nTweak f.data.length vKey n).2 ≠ 0)) :=
    funext fun n => containsHash_eq murmurHash3 hf vKey n
  rw [contains, hpass, List.allM_pure]
  congr 1
  rw [Bool.eq_iff_iff, List.all_eq_true, decide_eq_true_iff]
  simp

end CRollingBloomFilter

end Spec

-- ---------------------------------------------------------------------------
-- Runs since a reset
-- ---------------------------------------------------------------------------

section Runs

variable {κ : Type} (murmurHash3 : UInt32 → κ → UInt32)

namespace CRollingBloomFilter

/-- What a filter holds after the keys `ks` were inserted since its last reset, `G` keys a
generation: the counts say where the last insert stands (the `m`-th insert, from 0, falls in
generation `m / G`), and every hash cell of a key of the current generation or the two before holds
the label of a generation from that key's to now. -/
structure Holds (f : CRollingBloomFilter) (ks : List κ) : Prop where
  wf : Wf f
  count : f.nEntriesThisGeneration = if ks.length = 0 then 0 else (ks.length - 1) % f.nEntriesPerGeneration + 1
  generation : f.nGeneration = gen ((ks.length - 1) / f.nEntriesPerGeneration)
  fresh : ∀ i (hi : i < ks.length),
    (ks.length - 1) / f.nEntriesPerGeneration ≤ i / f.nEntriesPerGeneration + 2 →
    ∀ n < f.nHashFuncs,
      Fresh (label f.data (cell murmurHash3 f.nTweak f.data.length ks[i] n).1
          (cell murmurHash3 f.nTweak f.data.length ks[i] n).2)
        (i / f.nEntriesPerGeneration) ((ks.length - 1) / f.nEntriesPerGeneration)

variable {f : CRollingBloomFilter}

theorem wf_reset (hf : Wf f) (nTweak : UInt32) : Wf (f.reset nTweak) :=
  ⟨hf.perGeneration_pos, Nat.zero_le _, Nat.one_pos, by simp [reset], by simpa [reset] using hf.data_pos,
    by simpa [reset] using hf.data_even, by simpa [reset] using hf.data_lt, hf.hashFuncs_pos⟩

/-- A reset filter has all its cells empty and no key inserted. -/
theorem holds_reset (hf : Wf f) (nTweak : UInt32) : Holds murmurHash3 (f.reset nTweak) ([] : List κ) :=
  ⟨wf_reset hf nTweak, rfl, by simp [reset, gen], fun i hi => absurd hi (Nat.not_lt_zero i)⟩

/-- Where the insert after `m` others falls, `c` of them in the current generation: in the same
generation when it has room, in the next one when it is full; either way it is number
`m % G + 1` of its generation. -/
theorem insert_epoch {G c m : Nat} (hG : 0 < G) (hc : c = if m = 0 then 0 else (m - 1) % G + 1) (hle : c ≤ G) :
    (c = G → m / G = (m - 1) / G + 1) ∧ (c ≠ G → m / G = (m - 1) / G) ∧
      (if c = G then 0 else c) + 1 = m % G + 1 := by
  by_cases hm : m = 0
  · subst hm
    rw [if_pos rfl] at hc
    subst hc
    simp [Nat.ne_of_lt hG]
  · rw [if_neg hm] at hc
    obtain ⟨m, rfl⟩ : ∃ m', m = m' + 1 := ⟨m - 1, by omega⟩
    simp only [Nat.add_sub_cancel] at hc ⊢
    by_cases hfull : c = G
    · obtain ⟨hdiv, hmod⟩ := succ_div_of_mod_eq (m := m) hG (hc ▸ hfull)
      exact ⟨fun _ => hdiv, fun h => absurd hfull h, by rw [if_pos hfull, hmod]⟩
    · obtain ⟨hdiv, hmod⟩ := succ_div_of_mod_lt (m := m) hG (by omega)
      exact ⟨fun h => absurd h hfull, fun _ => hdiv, by rw [if_neg hfull, hmod, hc]⟩

/-- One `insert` keeps `Holds`, for the keys with the new one appended. -/
theorem Holds.insert {ks : List κ} (h : Holds murmurHash3 f ks) (vKey : κ) :
    ∃ f', f.insert murmurHash3 vKey = some f' ∧ Holds murmurHash3 f' (ks ++ [vKey]) ∧
      f'.nEntriesPerGeneration = f.nEntriesPerGeneration ∧ f'.nHashFuncs = f.nHashFuncs := by
  obtain ⟨f', hins, hper, htweak, hhash, hlen, hcount, hgen, hlab⟩ := insert_spec murmurHash3 h.wf vKey
  have hG := h.wf.perGeneration_pos
  obtain ⟨hfull, hroom, hcount'⟩ := insert_epoch hG h.count h.wf.thisGeneration_le
  have hgen' : f'.nGeneration = gen (ks.length / f.nEntriesPerGeneration) := by
    by_cases hc : f.nEntriesThisGeneration = f.nEntriesPerGeneration
    · rw [hgen, if_pos hc, hfull hc, gen_succ, ← h.generation]
    · rw [hgen, if_neg hc, hroom hc, h.generation]
  have hwf : Wf f' :=
    ⟨hper ▸ hG, by rw [hcount, hcount', hper]; exact Nat.mod_lt _ hG, by rw [hgen']; exact gen_pos _,
      by rw [hgen']; exact gen_lt_four _, hlen ▸ h.wf.data_pos, hlen ▸ h.wf.data_even, hlen ▸ h.wf.data_lt,
      hhash ▸ h.wf.hashFuncs_pos⟩
  refine ⟨f', hins, ⟨hwf, ?_, ?_, ?_⟩, hper, hhash⟩
  · simp [hcount, hcount', hper]
  · simp [hgen', hper]
  · intro i hi hwin n hn
    simp only [List.length_append, List.length_singleton, Nat.add_sub_cancel, hper, hhash, htweak, hlen] at hi hwin hn ⊢
    obtain ⟨-, hb⟩ := cell_lt murmurHash3 f.nTweak (ks ++ [vKey])[i] n h.wf.data_pos h.wf.data_even
      h.wf.data_lt
    rw [hlab _ _ hb]
    split_ifs with hnew hwipe
    · -- a cell the new key has just written
      rw [hgen']
      exact fresh_gen (Nat.div_le_div_right (by omega))
    · -- wiped: not the cell of an earlier key of the last three generations
      exfalso
      have hi' : i < ks.length := by
        by_contra hge
        obtain rfl : i = ks.length := by omega
        exact hnew ⟨n, hn, by simp⟩
      have hold := h.fresh i hi' (by have := hfull hwipe.1; omega) n hn
      rw [List.getElem_append_left hi'] at hwipe
      exact hold.ne_gen_succ (by have := hfull hwipe.1; omega) (by rw [hwipe.2, hgen', hfull hwipe.1])
    · -- kept: an earlier key's cell, one more generation old at most
      have hi' : i < ks.length := by
        by_contra hge
        obtain rfl : i = ks.length := by omega
        exact hnew ⟨n, hn, by simp⟩
      rw [List.getElem_append_left hi']
      by_cases hc : f.nEntriesThisGeneration = f.nEntriesPerGeneration
      · rw [hfull hc] at hwin ⊢
        exact (h.fresh i hi' (by omega) n hn).succ
      · rw [hroom hc] at hwin ⊢
        exact h.fresh i hi' hwin n hn

/-- A sequence of inserts keeps `Holds`, and no insert reads or writes out of bounds. -/
theorem Holds.insertAll {ks : List κ} (h : Holds murmurHash3 f ks) (ks' : List κ) :
    ∃ f', f.insertAll murmurHash3 ks' = some f' ∧ Holds murmurHash3 f' (ks ++ ks') ∧
      f'.nEntriesPerGeneration = f.nEntriesPerGeneration ∧ f'.nHashFuncs = f.nHashFuncs := by
  induction ks' generalizing f ks with
  | nil => exact ⟨f, rfl, by simpa using h, rfl, rfl⟩
  | cons k ks' ih =>
    obtain ⟨f1, h1, hh1, hper1, hhash1⟩ := h.insert murmurHash3 k
    obtain ⟨f', h', hh', hper', hhash'⟩ := ih hh1
    refine ⟨f', ?_, by simpa using hh', by rw [hper', hper1], by rw [hhash', hhash1]⟩
    rw [insertAll, List.foldlM_cons, h1, Option.bind_eq_bind, Option.bind_some]
    exact h'

/-- Every key of the current generation or the two before is found. -/
theorem Holds.contains {ks : List κ} (h : Holds murmurHash3 f ks) {i : Nat} (hi : i < ks.length)
    (hwin : (ks.length - 1) / f.nEntriesPerGeneration ≤ i / f.nEntriesPerGeneration + 2) :
    f.contains murmurHash3 ks[i] = some true := by
  rw [contains_spec murmurHash3 h.wf, decide_eq_true]
  exact fun n hn => (h.fresh i hi hwin n hn).ne_zero

/-- A reset filter finds no key: the first hash's cell is empty. -/
theorem contains_reset (hf : Wf f) (nTweak : UInt32) (vKey : κ) :
    (f.reset nTweak).contains murmurHash3 vKey = some false := by
  rw [contains_spec murmurHash3 (wf_reset hf nTweak), decide_eq_false]
  simp only [reset, label_replicate_zero, ne_eq, not_true_eq_false, imp_false, not_forall, not_not]
  exact ⟨0, hf.hashFuncs_pos⟩

end CRollingBloomFilter

end Runs

-- ---------------------------------------------------------------------------
-- The filters the interface reaches
-- ---------------------------------------------------------------------------

section Reachable

variable {κ : Type} (murmurHash3 : UInt32 → κ → UInt32)

namespace CRollingBloomFilter

variable {f f' : CRollingBloomFilter}

/-- `insert` keeps `Wf` and the sizes. -/
theorem wf_insert (hf : Wf f) {vKey : κ} (h : f.insert murmurHash3 vKey = some f') :
    Wf f' ∧ f'.nEntriesPerGeneration = f.nEntriesPerGeneration ∧ f'.nHashFuncs = f.nHashFuncs ∧
      f'.data.length = f.data.length := by
  obtain ⟨g, hins, hper, -, hhash, hlen, hcount, hgen, -⟩ := insert_spec murmurHash3 hf vKey
  obtain rfl : f' = g := Option.some.inj (h.symm.trans hins)
  have hG := hf.perGeneration_pos
  have hle := hf.thisGeneration_le
  have hpos := hf.generation_pos
  have hlt := hf.generation_lt
  -- the count restarts or grows within the generation; the generation number stays in 1 to 3
  have hcount' : f'.nEntriesThisGeneration ≤ f'.nEntriesPerGeneration := by
    rw [hcount, hper]
    split_ifs <;> omega
  have hgen' : 0 < f'.nGeneration ∧ f'.nGeneration < 4 := by
    rw [hgen]
    split_ifs <;> omega
  refine ⟨⟨by rw [hper]; exact hf.perGeneration_pos, hcount', hgen'.1, hgen'.2, by rw [hlen]; exact hf.data_pos,
    by rw [hlen]; exact hf.data_even, by rw [hlen]; exact hf.data_lt, by rw [hhash]; exact hf.hashFuncs_pos⟩,
    hper, hhash, hlen⟩

-- ---------------------------------------------------------------------------
-- The constructor
-- ---------------------------------------------------------------------------

theorem ceilDiv_pos {a b : Nat} (ha : 0 < a) (hb : 0 < b) : 0 < ceilDiv a b := by
  unfold ceilDiv
  rcases Nat.lt_or_ge a b with hab | hab
  · rw [Nat.div_eq_of_lt hab, Nat.mod_eq_of_lt hab, if_pos (Nat.pos_iff_ne_zero.mp ha)]
    decide
  · have := Nat.div_pos hab hb
    split_ifs <;> omega

theorem le_two_mul_ceilDiv (n : Nat) : n ≤ 2 * ceilDiv n 2 := by
  unfold ceilDiv
  split_ifs <;> omega

theorem ceilDiv_two_le (n : Nat) : ceilDiv n 2 ≤ (n + 1) / 2 := by
  unfold ceilDiv
  split_ifs <;> omega

/-- The `int` product `nEntriesPerGeneration * 3` is defined exactly up to
`nElements = 1431655764`, and is then `3 * ceil(nElements / 2)`. From `1431655765` on it
overflows; at `2 ^ 32 - 1` the `int` field already holds `-2 ^ 31`. -/
theorem maxElements_eq_some_iff {nElements : UInt32} {nMaxElements : Int} :
    CheckedInt.mul? 32 (CheckedInt.wrap 32 (ceilDiv nElements.toNat 2)) 3 = some nMaxElements ↔
      nElements.toNat ≤ 1431655764 ∧ nMaxElements = 3 * ceilDiv nElements.toNat 2 := by
  have hlt := nElements.toNat_lt
  have hhalf := ceilDiv_two_le nElements.toNat
  have hdouble := le_two_mul_ceilDiv nElements.toNat
  rcases Nat.lt_or_ge (ceilDiv nElements.toNat 2) (2 ^ 31) with hc | hc
  · rw [CheckedInt.wrap_eq (show ceilDiv nElements.toNat 2 < 2 ^ (32 - 1) from hc) (by decide)]
    constructor
    · intro h
      obtain ⟨⟨-, hfit⟩, rfl⟩ := CheckedInt.ofInt?_eq_some h
      exact ⟨by omega, by omega⟩
    · rintro ⟨hn, rfl⟩
      exact (CheckedInt.mul?_eq ⟨by omega, by omega⟩).trans (by rw [Int.mul_comm])
  · -- only `nElements = 2 ^ 32 - 1` gets here: `CeilDiv` is `2 ^ 31`, stored as `-2 ^ 31`
    have hc' : ceilDiv nElements.toNat 2 = 2 ^ 31 := by omega
    rw [hc']
    exact ⟨fun h => absurd (CheckedInt.ofInt?_eq_some h).1 (by decide), fun ⟨hn, _⟩ => absurd hn (by omega)⟩

section Sizing

variable {D : Type} [Field D] [LinearOrder D] [IsStrictOrderedRing D] [FloorRing D]

/-- What the sizing needs of `log` and `exp`: `log` is negative on `(0, 1)`, and `exp` maps a
negative argument into `(0, 1)`. The real functions have both (`logExpSigns_real`). -/
structure LogExpSigns (log exp : D → D) : Prop where
  log_neg : ∀ x : D, 0 < x → x < 1 → log x < 0
  exp_mem : ∀ y : D, y < 0 → 0 < exp y ∧ exp y < 1

variable {log exp : D → D}

omit [IsStrictOrderedRing D] in
/-- `nHashFuncs` is clamped to `[1, 50]`. -/
theorem hashFuncs_mem {logFpRate : D} {nHashFuncs : Int} (h : hashFuncs log logFpRate = some nHashFuncs) :
    1 ≤ nHashFuncs ∧ nHashFuncs ≤ 50 := by
  unfold hashFuncs at h
  simp only [Option.bind_eq_bind] at h
  obtain ⟨rounded, -, h⟩ := Option.bind_eq_some_iff.mp h
  obtain rfl : max 1 (min rounded 50) = nHashFuncs := Option.some.inj h
  omega

/-- For a negative `logFpRate`, `nFilterBits` is positive: the quotient of two negatives, rounded
up. -/
theorem filterBits_pos (hfun : LogExpSigns log exp) {logFpRate : D} (hneg : logFpRate < 0)
    {nHashFuncs : Int} (hH : 1 ≤ nHashFuncs) {nMaxElements : UInt32} (hM : 0 < nMaxElements.toNat)
    {nFilterBits : UInt32} (h : filterBits log exp logFpRate nHashFuncs nMaxElements = some nFilterBits) :
    0 < nFilterBits.toNat := by
  have hHpos : (0 : D) < nHashFuncs := by exact_mod_cast (show (0 : Int) < nHashFuncs by omega)
  have hMpos : (0 : D) < nMaxElements.toNat := by exact_mod_cast hM
  -- `exp` of the negative `logFpRate / nHashFuncs` is in `(0, 1)`, so the `log` below is negative
  obtain ⟨he0, he1⟩ := hfun.exp_mem _ (div_neg_of_neg_of_pos hneg hHpos)
  have hden : log (1 - exp (logFpRate / nHashFuncs)) < 0 := hfun.log_neg _ (by linarith) (by linarith)
  have hnum : -1 * (nHashFuncs : D) * (nMaxElements.toNat : D) < 0 := by
    rw [neg_one_mul, neg_mul]
    exact neg_neg_of_pos (mul_pos hHpos hMpos)
  unfold filterBits at h
  simp only [Option.bind_eq_bind] at h
  obtain ⟨bits, hbits, h⟩ := Option.bind_eq_some_iff.mp h
  obtain ⟨-, hlt, rfl⟩ := CheckedInt.toUnsigned?_eq_some hbits
  have hceil := Int.one_le_ceil_iff.mpr (div_pos_of_neg_of_neg hnum hden)
  rw [← Option.some.inj h, UInt32.toNat_ofNat_of_lt' (show _ < 2 ^ 32 by omega)]
  omega

/-- The record the constructor resets is well formed once a generation holds a key, there is a
hash and `nFilterBits` is positive; `CeilDiv(nFilterBits, 64u) << 1` words stay below `2 ^ 32`. -/
theorem wf_sized {nEntriesPerGeneration nHashFuncs : Nat} {nFilterBits : UInt32} (hG : 0 < nEntriesPerGeneration)
    (hH : 0 < nHashFuncs) (hbits : 0 < nFilterBits.toNat) (nTweak : UInt32) :
    Wf (reset ⟨nEntriesPerGeneration, 0, 0, List.replicate (ceilDiv nFilterBits.toNat 64 <<< 1) 0, 0, nHashFuncs⟩
      nTweak) := by
  have hwords := ceilDiv_pos hbits (show 0 < 64 by decide)
  have hfew : ceilDiv nFilterBits.toNat 64 ≤ 2 ^ 26 + 1 := by
    have := nFilterBits.toNat_lt
    unfold ceilDiv; split_ifs <;> omega
  refine ⟨hG, Nat.zero_le _, Nat.one_pos, (by decide : (1 : Nat) < 4), ?_, ?_, ?_, hH⟩ <;>
    simp only [reset, List.length_replicate, Nat.shiftLeft_eq, pow_one]
  · omega
  · omega
  · omega

/-- The constructor, once its three partial steps are known to be defined. -/
theorem new_eq {nElements : UInt32} {fpRate : D} {nHashFuncs nMaxElements : Int} {nFilterBits : UInt32}
    (hH : hashFuncs log (log fpRate) = some nHashFuncs)
    (hM : CheckedInt.mul? 32 (CheckedInt.wrap 32 (ceilDiv nElements.toNat 2)) 3 = some nMaxElements)
    (hB : filterBits log exp (log fpRate) nHashFuncs (UInt32.ofNat (nMaxElements % 2 ^ 32).toNat) = some nFilterBits)
    (nTweak : UInt32) :
    new log exp nElements fpRate nTweak = some (reset ⟨(CheckedInt.wrap 32 (ceilDiv nElements.toNat 2)).toNat, 0, 0,
      List.replicate (ceilDiv nFilterBits.toNat 64 <<< 1) 0, 0, nHashFuncs.toNat⟩ nTweak) := by
  unfold new
  simp only [Option.bind_eq_bind, hH, hM, hB, Option.bind_some]
  rfl

/-- A filter the constructor builds for `nElements ≥ 1` and `0 < fpRate < 1`: `nElements` is at
most `1431655764`, the filter is well formed (in particular `data` is a positive even number of
words), a generation holds `ceil(nElements / 2)` keys, there are at most 50 hashes, and the
filter is its own `reset()`. -/
theorem new_spec (hfun : LogExpSigns log exp) {nElements : UInt32} {fpRate : D} (hN : 0 < nElements.toNat)
    (hrate : 0 < fpRate ∧ fpRate < 1) {nTweak : UInt32} {f : CRollingBloomFilter}
    (h : new log exp nElements fpRate nTweak = some f) :
    nElements.toNat ≤ 1431655764 ∧ Wf f ∧ f.nEntriesPerGeneration = ceilDiv nElements.toNat 2 ∧
      f.nHashFuncs ≤ 50 ∧ f.reset nTweak = f := by
  unfold new at h
  simp only [Option.bind_eq_bind] at h
  obtain ⟨nHashFuncs, hH, h⟩ := Option.bind_eq_some_iff.mp h
  obtain ⟨nMaxElements, hM, h⟩ := Option.bind_eq_some_iff.mp h
  obtain ⟨nFilterBits, hB, h⟩ := Option.bind_eq_some_iff.mp h
  obtain rfl := Option.some.inj h
  obtain ⟨hH1, hH50⟩ := hashFuncs_mem hH
  obtain ⟨hle, rfl⟩ := maxElements_eq_some_iff.mp hM
  have hG := ceilDiv_pos hN (show 0 < 2 by decide)
  have hhalf := ceilDiv_two_le nElements.toNat
  have hwrap : CheckedInt.wrap 32 (ceilDiv nElements.toNat 2) = ceilDiv nElements.toNat 2 :=
    CheckedInt.wrap_eq (show ceilDiv nElements.toNat 2 < 2 ^ 31 by omega) (by decide)
  -- `nMaxElements` reaches the `uint32_t` unchanged
  have hM' : (UInt32.ofNat ((3 * (ceilDiv nElements.toNat 2 : Int)) % 2 ^ 32).toNat).toNat =
      3 * ceilDiv nElements.toNat 2 := by
    rw [Int.emod_eq_of_lt (by omega) (by omega), UInt32.toNat_ofNat_of_lt' (show _ < 2 ^ 32 by omega)]
    omega
  have hbits := filterBits_pos hfun (hfun.log_neg _ hrate.1 hrate.2) hH1 (by rw [hM']; omega) hB
  rw [hwrap]
  refine ⟨hle, wf_sized (by rw [Int.toNat_natCast]; exact hG) (by omega) hbits nTweak, Int.toNat_natCast _,
    by show nHashFuncs.toNat ≤ 50; omega, ?_⟩
  simp only [reset, List.length_replicate]

/-- From `1431655765` on, the `int` product overflows and the constructor is undefined, whatever
`fpRate`, `log` and `exp`. -/
theorem new_eq_none_of_overflow {nElements : UInt32} (hN : 1431655765 ≤ nElements.toNat) (fpRate : D)
    (nTweak : UInt32) : new log exp nElements fpRate nTweak = none := by
  have hM : CheckedInt.mul? 32 (CheckedInt.wrap 32 (ceilDiv nElements.toNat 2)) 3 = none :=
    Option.eq_none_iff_forall_ne_some.mpr fun _ h => absurd (maxElements_eq_some_iff.mp h).1 (by omega)
  unfold new
  rcases hH : hashFuncs log (log fpRate) with _ | nHashFuncs
  · simp only [Option.bind_eq_bind, hH, Option.bind_none]
  · simp only [Option.bind_eq_bind, hH, hM, Option.bind_some, Option.bind_none]

/-- The filters the interface can reach from `CRollingBloomFilter(nElements, fpRate)`: the
construction, then `insert` and `reset()` calls in any order. -/
inductive Reachable (log exp : D → D) (nElements : UInt32) (fpRate : D) : CRollingBloomFilter → Prop
  | new {f : CRollingBloomFilter} (nTweak : UInt32) :
      new log exp nElements fpRate nTweak = some f → Reachable log exp nElements fpRate f
  | insert {f f' : CRollingBloomFilter} (vKey : κ) :
      Reachable log exp nElements fpRate f → f.insert murmurHash3 vKey = some f' →
      Reachable log exp nElements fpRate f'
  | reset {f : CRollingBloomFilter} (nTweak : UInt32) :
      Reachable log exp nElements fpRate f → Reachable log exp nElements fpRate (f.reset nTweak)

/-- Every filter the interface reaches is well formed, with the generation size the constructor
chose, and the constructor was defined: `nElements` is at most `1431655764`. -/
theorem Reachable.wf (hfun : LogExpSigns log exp) {nElements : UInt32} {fpRate : D} (hN : 0 < nElements.toNat)
    (hrate : 0 < fpRate ∧ fpRate < 1) (h : Reachable murmurHash3 log exp nElements fpRate f) :
    nElements.toNat ≤ 1431655764 ∧ Wf f ∧ f.nEntriesPerGeneration = ceilDiv nElements.toNat 2 := by
  induction h with
  | new nTweak hnew =>
    obtain ⟨hle, hw, hper, -⟩ := new_spec hfun hN hrate hnew
    exact ⟨hle, hw, hper⟩
  | insert vKey _ hins ih =>
    obtain ⟨hf', hper, -⟩ := wf_insert murmurHash3 ih.2.1 hins
    exact ⟨ih.1, hf', hper.trans ih.2.2⟩
  | reset nTweak _ ih => exact ⟨ih.1, wf_reset ih.2.1 nTweak, ih.2.2⟩

/-- From the constructor or a `reset()`, for `nElements ≥ 1` and `0 < fpRate < 1`: `nElements` is
at most `1431655764`, `data` has a positive even length, and contains finds no key; after any
inserts every index is in range, and every key of the current generation or the two before is
found: the last `nElements` keys are among them, and they are among the last
`3 * ceil(nElements / 2)`. -/
theorem contains_recent_keys (hfun : LogExpSigns log exp) {nElements : UInt32} {fpRate : D}
    (hN : 0 < nElements.toNat) (hrate : 0 < fpRate ∧ fpRate < 1) {f0 : CRollingBloomFilter} (nTweak : UInt32)
    (hf0 : new log exp nElements fpRate nTweak = some f0 ∨
      ∃ f, Reachable murmurHash3 log exp nElements fpRate f ∧ f0 = f.reset nTweak)
    (ks : List κ) :
    nElements.toNat ≤ 1431655764 ∧ 0 < f0.data.length ∧ f0.data.length % 2 = 0 ∧
    (∀ vKey : κ, f0.contains murmurHash3 vKey = some false) ∧
    ∃ f', f0.insertAll murmurHash3 ks = some f' ∧
      f'.nEntriesPerGeneration = ceilDiv nElements.toNat 2 ∧
      f'.nGeneration = gen ((ks.length - 1) / f'.nEntriesPerGeneration) ∧
      (∀ vKey : κ, (f'.contains murmurHash3 vKey).isSome) ∧
      (∀ i (hi : i < ks.length), ks.length ≤ i + nElements.toNat → f'.contains murmurHash3 ks[i] = some true) ∧
      ∀ i (hi : i < ks.length), (ks.length - 1) / f'.nEntriesPerGeneration ≤ i / f'.nEntriesPerGeneration + 2 →
        f'.contains murmurHash3 ks[i] = some true ∧ ks.length ≤ i + 3 * ceilDiv nElements.toNat 2 := by
  -- both starts are a reset of a well-formed filter: the constructor ends with one
  obtain ⟨hle, g, hg, hper, rfl⟩ : nElements.toNat ≤ 1431655764 ∧
      ∃ g, Wf g ∧ g.nEntriesPerGeneration = ceilDiv nElements.toNat 2 ∧ f0 = g.reset nTweak := by
    rcases hf0 with hnew | ⟨f, hf, rfl⟩
    · obtain ⟨hle, hw, hper, -, hreset⟩ := new_spec hfun hN hrate hnew
      exact ⟨hle, f0, hw, hper, hreset.symm⟩
    · obtain ⟨hle, hw, hper⟩ := hf.wf murmurHash3 hfun hN hrate
      exact ⟨hle, f, hw, hper, rfl⟩
  have hg0 := wf_reset hg nTweak
  obtain ⟨f', hins, hh, hper', -⟩ := (holds_reset murmurHash3 hg nTweak).insertAll murmurHash3 ks
  rw [List.nil_append] at hh
  have hG : f'.nEntriesPerGeneration = ceilDiv nElements.toNat 2 := hper'.trans hper
  have hGpos := hh.wf.perGeneration_pos
  refine ⟨hle, hg0.data_pos, hg0.data_even, contains_reset murmurHash3 hg nTweak, f', hins, hG,
    hh.generation, fun vKey => ?_, fun i hi hlast => ?_, fun i hi hwin => ⟨hh.contains murmurHash3 hi hwin, ?_⟩⟩
  · rw [contains_spec murmurHash3 hh.wf]
    rfl
  · -- the last `nElements` keys are in the last three generations of `ceil(nElements / 2)`
    apply hh.contains murmurHash3 hi
    exact div_le_div_add_two hGpos (hG ▸ le_two_mul_ceilDiv nElements.toNat) hlast
  · rw [← hG]
    exact le_add_three_mul hGpos hwin

end Sizing

/-! ### Runs with the real `log` and `exp` -/

theorem logExpSigns_real : LogExpSigns Real.log Real.exp :=
  ⟨fun _ h0 h1 => Real.log_neg h0 h1, fun y hy => ⟨Real.exp_pos y, Real.exp_lt_one_iff.mpr hy⟩⟩

/-- At `fpRate = 0.5` there is one hash: `log(0.5) / log(0.5)` rounds to 1. -/
theorem hashFuncs_half : hashFuncs Real.log (Real.log (1 / 2)) = some 1 := by
  have hlog : Real.log (1 / 2) ≠ 0 := (Real.log_neg (by norm_num) (by norm_num)).ne
  have hround : CheckedInt.roundHalfAway (1 : ℝ) = 1 := by
    rw [CheckedInt.roundHalfAway, if_neg (by norm_num), Int.floor_eq_iff]
    norm_num
  unfold hashFuncs
  rw [show (0.5 : ℝ) = 1 / 2 by norm_num, div_self hlog, hround]
  rfl

/-- At `fpRate = 0.5`, three entries and one hash take `ceil(3 / log 2) = 5` bits. -/
theorem filterBits_half : filterBits Real.log Real.exp (Real.log (1 / 2)) 1 3 = some 5 := by
  have hlog2 : Real.log (1 / 2) = -Real.log 2 := by
    rw [one_div, Real.log_inv]
  have hlo := Real.log_two_gt_d9
  have hhi := Real.log_two_lt_d9
  -- `1 - exp(log(0.5)) = 0.5`, so the quotient is `3 / log 2`, between 4 and 5
  have hq : -1 * ((1 : Int) : ℝ) * (((3 : UInt32).toNat : Nat) : ℝ) /
      Real.log (1 - Real.exp (Real.log (1 / 2) / ((1 : Int) : ℝ))) = 3 / Real.log 2 := by
    rw [show (3 : UInt32).toNat = 3 from rfl, Int.cast_one, div_one, Real.exp_log (by norm_num),
      show (1 : ℝ) - 1 / 2 = 1 / 2 by norm_num, hlog2]
    push_cast
    ring
  have hceil : ⌈(3 : ℝ) / Real.log 2⌉ = 5 := by
    rw [Int.ceil_eq_iff, lt_div_iff₀ (by linarith), div_le_iff₀ (by linarith)]
    norm_num
    constructor <;> linarith
  unfold filterBits
  rw [hq, hceil]
  rfl

/-- Where a generation holds one key, the constructor at `fpRate = 0.5` builds one hash over one
pair of words. -/
theorem new_half {nElements : UInt32} (hN : ceilDiv nElements.toNat 2 = 1) (nTweak : UInt32) :
    new Real.log Real.exp nElements (1 / 2) nTweak = some ⟨1, 0, 1, [0, 0], nTweak, 1⟩ := by
  have hM : CheckedInt.mul? 32 (CheckedInt.wrap 32 (ceilDiv nElements.toNat 2)) 3 = some 3 := by
    rw [hN]
    decide
  have hB : filterBits Real.log Real.exp (Real.log (1 / 2)) 1 (UInt32.ofNat ((3 : Int) % 2 ^ 32).toNat) = some 5 :=
    filterBits_half
  rw [new_eq hashFuncs_half hM hB, hN]
  rfl

/-- A seeded hash to run the filter with. -/
def addHash (seed vKey : UInt32) : UInt32 := seed + vKey

/-- The filter `new_half` builds, with tweak `0`. -/
def halfFilter : CRollingBloomFilter := ⟨1, 0, 1, [0, 0], 0, 1⟩

theorem contains_recent_keys_three_keys :
    LogExpSigns Real.log Real.exp ∧ 0 < (2 : UInt32).toNat ∧ (0 < (1 / 2 : ℝ) ∧ (1 / 2 : ℝ) < 1) ∧
    (new Real.log Real.exp 2 (1 / 2) 0 = some halfFilter ∨
      ∃ f, Reachable addHash Real.log Real.exp 2 (1 / 2) f ∧ halfFilter = f.reset 0) ∧
    (2 : UInt32).toNat ≤ 1431655764 ∧ 0 < halfFilter.data.length ∧ halfFilter.data.length % 2 = 0 ∧
    (∀ vKey : UInt32, halfFilter.contains addHash vKey = some false) ∧
    ∃ f', halfFilter.insertAll addHash [5, 6, 7] = some f' ∧
      f'.nEntriesPerGeneration = ceilDiv (2 : UInt32).toNat 2 ∧
      f'.nGeneration = gen ((([5, 6, 7] : List UInt32).length - 1) / f'.nEntriesPerGeneration) ∧
      (∀ vKey : UInt32, (f'.contains addHash vKey).isSome) ∧
      (∀ i (hi : i < ([5, 6, 7] : List UInt32).length), ([5, 6, 7] : List UInt32).length ≤ i + (2 : UInt32).toNat →
        f'.contains addHash ([5, 6, 7] : List UInt32)[i] = some true) ∧
      ∀ i (hi : i < ([5, 6, 7] : List UInt32).length),
        (([5, 6, 7] : List UInt32).length - 1) / f'.nEntriesPerGeneration ≤ i / f'.nEntriesPerGeneration + 2 →
          f'.contains addHash ([5, 6, 7] : List UInt32)[i] = some true ∧
            ([5, 6, 7] : List UInt32).length ≤ i + 3 * ceilDiv (2 : UInt32).toNat 2 :=
  have hnew : new Real.log Real.exp 2 (1 / 2) 0 = some halfFilter := new_half (by decide) 0
  ⟨logExpSigns_real, by decide, by norm_num, Or.inl hnew,
    contains_recent_keys addHash logExpSigns_real (by decide) (by norm_num) 0 (Or.inl hnew) [5, 6, 7]⟩

/-- Three constructions the statement for `nElements` in `[1, 2 ^ 31]` gets wrong. At
`nElements = 2 ^ 31` the `int` product `nEntriesPerGeneration * 3` overflows, whatever `log`,
`exp` and `fpRate`. At `fpRate = 1`, `log(1) = 0` gives `exp(0) = 1` and `nFilterBits = 0` (in
`double`, `-3 / log(0) = -3 / -inf = 0`; in the model `log 0 = 0` and `-3 / 0 = 0`): `data` is
empty and contains reads past its end. With `nElements = 1` a generation holds one key, and the
first of three keys is still found, three inserts back, more than `1.5 * nElements`. -/
theorem contains_recent_keys_outside_range :
    (∀ (log exp : ℝ → ℝ) (fpRate : ℝ) (nTweak : UInt32), new log exp 2147483648 fpRate nTweak = none) ∧
    (∃ f, new Real.log Real.exp 2 1 0 = some f ∧ f.data = [] ∧ ∀ vKey : UInt32, f.contains addHash vKey = none) ∧
    ∃ f0 f', new Real.log Real.exp 1 (1 / 2) 0 = some f0 ∧ f0.insertAll addHash [5, 6, 7] = some f' ∧
      f'.nEntriesPerGeneration = 1 ∧ (3 - 1) / f'.nEntriesPerGeneration ≤ 0 / f'.nEntriesPerGeneration + 2 ∧
      f'.contains addHash 5 = some true ∧ ¬ 2 * 3 ≤ 3 * 1 := by
  refine ⟨fun log exp fpRate nTweak => new_eq_none_of_overflow (by decide) fpRate nTweak,
    ⟨⟨1, 0, 1, [], 0, 1⟩, ?_, rfl, fun _ => rfl⟩, ⟨_, _, new_half (by decide) 0, rfl, rfl, by decide, by decide, by decide⟩⟩
  -- `log(1) = 0`: one hash, and `ceil(-3 / log(1 - exp(0))) = ceil(-3 / log 0) = 0` bits
  have hhash : hashFuncs Real.log (Real.log 1) = some 1 := by
    have hround : CheckedInt.roundHalfAway (0 : ℝ) = 0 := by
      rw [CheckedInt.roundHalfAway, if_neg (lt_irrefl 0), Int.floor_eq_iff]
      norm_num
    unfold hashFuncs
    rw [Real.log_one, zero_div, hround]
    rfl
  have hM : CheckedInt.mul? 32 (CheckedInt.wrap 32 (ceilDiv (2 : UInt32).toNat 2)) 3 = some 3 := by decide
  have hbits : filterBits Real.log Real.exp (Real.log 1) 1 (UInt32.ofNat ((3 : Int) % 2 ^ 32).toNat) = some 0 := by
    unfold filterBits
    rw [Real.log_one, zero_div, Real.exp_zero, sub_self, Real.log_zero, div_zero, Int.ceil_zero]
    rfl
  rw [new_eq hhash hM hbits, show ceilDiv (2 : UInt32).toNat 2 = 1 from rfl]
  rfl

end CRollingBloomFilter

end Reachable

end Bloom

end Riecoin
