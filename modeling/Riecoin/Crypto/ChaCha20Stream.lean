-- SUMMARY: The bytes ChaCha20 and FSChaCha20 produce are the RFC 8439 block stream: the block loop, the buffered byte interface over any sequence of calls, and the rekeying of FSChaCha20.
import Riecoin.Crypto.ChaCha20
import Mathlib.Tactic.IntervalCases

/-!
# What ChaCha20 produces

The specification is the RFC 8439 block function `rfcBlock key n2 j`, with state words 12 and 13
the 64-bit block counter `j` (low word first) and words 14 and 15 the 64-bit nonce `n2`, and the
stream `rfcStream key n2 c0` of the blocks `B(c0) ‖ B(c0 + 1) ‖ ...` with counters mod `2^64`.

The refinement goes in three layers.

* The aligned cipher with words `layout key ctr n2` produces the block of `ctr` and moves to
  `ctr + 1`, with the carry of `j12` into `j13` (`nextCounter_layout`); so its blocks are the
  stream's (`stream_layout`). `Crypt` is `Keystream` XORed into the input.
* A `ChaCha20` stands for the stream still ahead of it (`rest`): the bytes left in its buffer,
  then the blocks of its aligned cipher. Each of the three steps of `Keystream` and `Crypt`
  consumes a prefix of it, so a call of `size` bytes produces `rest.take size` and leaves
  `rest.drop size` (`keystream_spec`, `crypt_spec`), and a sequence of calls produces the prefix
  of the stream of its total length (`run_spec`).
* `FSChaCha20` runs segment after segment, each the stream of one key with nonce `(0, s)`
  (`fsCryptSpec`).
-/

namespace Riecoin

namespace Crypto

open Bytes BlockStream ChaCha20Aligned

-- ---------------------------------------------------------------------------
-- Words and bytes
-- ---------------------------------------------------------------------------

@[simp] theorem length_writeLE32 (x : UInt32) : (writeLE32 x).length = 4 := by
  simp [writeLE32]

@[simp] theorem length_toBytes (x : Words) : x.toBytes.length = 64 := by
  simp [Words.toBytes, Words.toList]

/-- A word XORed with a little-endian word of `m` is written as the bytes XORed with those of
`m`. -/
theorem writeLE32_xor_readLE32 (x : UInt32) {m : List UInt8} (hm : 4 ≤ m.length) :
    writeLE32 (x ^^^ readLE32 m) = List.zipWith (· ^^^ ·) (m.take 4) (writeLE32 x) := by
  have hlen : (m.take 4).length = 4 := by simp [hm]
  have hread : (readLE32 m).toNat = leValue (m.take 4) := by
    rw [readLE32, UInt32.toNat_ofNat', Nat.mod_eq_of_lt]
    simpa [hlen] using leValue_lt (m.take 4)
  rw [writeLE32, writeLE32, UInt32.toNat_xor, leBytes_xor, hread, leBytes_leValue hlen]
  exact List.zipWith_comm_of_comm fun a b => UInt8.xor_comm a b

/-- Words XORed with the little-endian words of `m`, from word `k` of `m` on, are written as
their bytes XORed with those of `m`. -/
theorem flatMap_xor_readLE32 :
    ∀ (ws : List UInt32) (m : List UInt8), 4 * ws.length ≤ m.length →
      (List.zipWith (· ^^^ ·) ws ((List.range ws.length).map fun i => readLE32 (m.drop (4 * i)))).flatMap
          writeLE32 =
        List.zipWith (· ^^^ ·) (m.take (4 * ws.length)) (ws.flatMap writeLE32)
  | [], _, _ => rfl
  | w :: ws, m, hm => by
    have hm' : 4 * ws.length ≤ (m.drop 4).length := by
      simp only [List.length_cons, List.length_drop] at hm ⊢
      omega
    have hrange : (List.range (ws.length + 1)).map (fun i => readLE32 (m.drop (4 * i))) =
        readLE32 m :: (List.range ws.length).map fun i => readLE32 ((m.drop 4).drop (4 * i)) := by
      rw [List.range_succ_eq_map, List.map_cons, List.map_map]
      congr 1
      refine List.map_congr_left fun i _ => ?_
      simp only [Function.comp, List.drop_drop]
      congr 2
      omega
    rw [List.length_cons, hrange, List.zipWith_cons_cons, List.flatMap_cons, List.flatMap_cons,
      flatMap_xor_readLE32 ws (m.drop 4) hm', writeLE32_xor_readLE32 w (by simp at hm; omega),
      show 4 * (ws.length + 1) = 4 + 4 * ws.length by omega, List.take_add]
    rw [List.zipWith_append (by simp; simp at hm; omega)]

/-- `x ^= ReadLE32(m + 4 i)` then the writes XOR the block's bytes into `m`. -/
theorem toBytes_xorLE (x : Words) {m : List UInt8} (hm : 64 ≤ m.length) :
    (x.xorLE m).toBytes = List.zipWith (· ^^^ ·) (m.take 64) x.toBytes := by
  have := flatMap_xor_readLE32 x.toList m (by simpa [Words.toList] using hm)
  exact this

-- ---------------------------------------------------------------------------
-- The RFC 8439 block function and the 64-bit counter
-- ---------------------------------------------------------------------------

/-- The RFC 8439 initial state (§2.3): the constants, the key as eight little-endian words, then
words 12 and 13 the 64-bit block counter `j`, low word first, and words 14 and 15 the 64-bit
nonce `n2`. -/
def rfcState (key : List UInt8) (n2 : UInt64) (j : Nat) : Words :=
  ⟨0x61707865, 0x3320646e, 0x79622d32, 0x6b206574, readLE32 key, readLE32 (key.drop 4),
    readLE32 (key.drop 8), readLE32 (key.drop 12), readLE32 (key.drop 16), readLE32 (key.drop 20),
    readLE32 (key.drop 24), readLE32 (key.drop 28), UInt32.ofNat j, UInt32.ofNat (j / 2 ^ 32),
    n2.toUInt32, (n2 >>> 32).toUInt32⟩

/-- The RFC 8439 block function (§2.3): ten inner blocks of a column round and a diagonal round,
the initial state added, the words serialized little-endian. -/
def rfcBlock (key : List UInt8) (n2 : UInt64) (j : Nat) : List UInt8 :=
  let state := rfcState key n2 j
  ((Words.doubleRound^[10] state).add state).toBytes

/-- The blocks `B(c0) ‖ B(c0 + 1) ‖ ...` of `key` and `n2`, counters mod `2^64`. -/
def rfcStream (key : List UInt8) (n2 : UInt64) (c0 : Nat) : Stream' UInt8 :=
  stream (fun j => rfcBlock key n2 (j % 2 ^ 64)) (· + 1) 64 c0

/-- The words `input` of an aligned cipher with key `key`, 64-bit block counter `ctr` in words 8
and 9 (the block counter and the first nonce word of `Seek`) and nonce `n2` in words 10 and 11. -/
def layout (key : List UInt8) (ctr : Nat) (n2 : UInt64) : Vector UInt32 12 :=
  ⟨#[readLE32 (key.drop 0), readLE32 (key.drop 4), readLE32 (key.drop 8), readLE32 (key.drop 12),
    readLE32 (key.drop 16), readLE32 (key.drop 20), readLE32 (key.drop 24), readLE32 (key.drop 28),
    UInt32.ofNat ctr, UInt32.ofNat (ctr / 2 ^ 32), n2.toUInt32, (n2 >>> 32).toUInt32], rfl⟩

/-- The bytes of the block of the words `j`. -/
def blockBytes (j : Vector UInt32 12) : List UInt8 := (block j).toBytes

theorem initWords_layout (key : List UInt8) (ctr : Nat) (n2 : UInt64) :
    initWords (layout key ctr n2) = rfcState key n2 (ctr % 2 ^ 64) := by
  -- only the two counter words see the reduction mod `2^64`
  have hlo : UInt32.ofNat ctr = UInt32.ofNat (ctr % 2 ^ 64) := by
    rw [UInt32.ofNat_eq_iff_mod_eq_toNat, UInt32.toNat_ofNat']
    omega
  have hhi : UInt32.ofNat (ctr / 2 ^ 32) = UInt32.ofNat (ctr % 2 ^ 64 / 2 ^ 32) := by
    rw [UInt32.ofNat_eq_iff_mod_eq_toNat, UInt32.toNat_ofNat']
    omega
  simp only [initWords, layout, rfcState, hlo, hhi]
  rfl

/-- The aligned cipher's block is the RFC block of its counter. -/
theorem blockBytes_layout (key : List UInt8) (ctr : Nat) (n2 : UInt64) :
    blockBytes (layout key ctr n2) = rfcBlock key n2 (ctr % 2 ^ 64) := by
  simp only [blockBytes, block, rfcBlock, initWords_layout]

/-- `++j12; if (!j12) ++j13;` adds one to the 64-bit counter. -/
theorem nextCounter_layout (key : List UInt8) (ctr : Nat) (n2 : UInt64) :
    nextCounter (layout key ctr n2) = layout key (ctr + 1) n2 := by
  have hlo : UInt32.ofNat ctr + 1 = UInt32.ofNat (ctr + 1) := (UInt32.ofNat_add ctr 1).symm
  -- the carry: `j13` moves exactly when the low word wraps to 0
  have hhi : (if UInt32.ofNat (ctr + 1) = 0 then UInt32.ofNat (ctr / 2 ^ 32) + 1 else UInt32.ofNat (ctr / 2 ^ 32)) =
      UInt32.ofNat ((ctr + 1) / 2 ^ 32) := by
    have hzero : UInt32.ofNat (ctr + 1) = 0 ↔ (ctr + 1) % 2 ^ 32 = 0 := by
      rw [UInt32.ofNat_eq_iff_mod_eq_toNat]
      rfl
    split
    · rename_i hwrap
      rw [show (1 : UInt32) = UInt32.ofNat 1 from rfl, ← UInt32.ofNat_add, UInt32.ofNat_eq_iff_mod_eq_toNat,
        UInt32.toNat_ofNat']
      have := hzero.mp hwrap
      omega
    · rename_i hwrap
      rw [UInt32.ofNat_eq_iff_mod_eq_toNat, UInt32.toNat_ofNat']
      have := mt hzero.mpr hwrap
      omega
  apply Vector.ext
  intro i hi
  simp only [nextCounter, Vector.getElem_set]
  -- words 8 and 9 hold the counter; the others are the key and the nonce, unchanged
  by_cases h9 : 9 = i
  · subst h9
    rw [if_pos rfl]
    show (if UInt32.ofNat ctr + 1 = 0 then _ else _) = UInt32.ofNat ((ctr + 1) / 2 ^ 32)
    rw [hlo]
    exact hhi
  by_cases h8 : 8 = i
  · subst h8
    rw [if_neg (by decide), if_pos rfl]
    exact hlo
  rw [if_neg h9, if_neg h8]
  interval_cases i <;> first | rfl | exact absurd rfl h8 | exact absurd rfl h9

theorem stream_layout (key : List UInt8) (c0 : Nat) (n2 : UInt64) :
    stream blockBytes nextCounter 64 (layout key c0 n2) = rfcStream key n2 c0 :=
  (stream_semiconj (fun ctr => layout key ctr n2) (fun ctr => (nextCounter_layout key ctr n2).symm)
    (fun ctr => blockBytes_layout key ctr n2) c0).symm

-- ---------------------------------------------------------------------------
-- The aligned cipher: whole blocks
-- ---------------------------------------------------------------------------

/-- The block loop writes the next `m` blocks and moves the counter `m` times. -/
theorem keystreamLoop_eq (j : Vector UInt32 12) (m : Nat) :
    keystreamLoop j m = (blocks blockBytes nextCounter j m, nextCounter^[m] j) := by
  induction m generalizing j with
  | zero => rfl
  | succ m ih =>
    simp only [keystreamLoop, ih]
    rfl

/-- The block loop of `Crypt` XORs the next `m` blocks into the input. -/
theorem cryptLoop_eq (j : Vector UInt32 12) (m : Nat) :
    ∀ in_bytes : List UInt8, m * BLOCKLEN ≤ in_bytes.length →
      cryptLoop j in_bytes m =
        (List.zipWith (· ^^^ ·) (in_bytes.take (m * BLOCKLEN)) (blocks blockBytes nextCounter j m), nextCounter^[m] j) := by
  induction m generalizing j with
  | zero => intro _ _; rfl
  | succ m ih =>
    intro in_bytes hlen
    rw [Nat.succ_mul] at hlen
    have h64 : BLOCKLEN = 64 := rfl
    have hlen' : m * BLOCKLEN ≤ (in_bytes.drop BLOCKLEN).length := by
      rw [List.length_drop]
      omega
    -- the first block is XORed into the first 64 bytes, the loop goes on past them
    have hfirst : ((block j).xorLE in_bytes).toBytes = List.zipWith (· ^^^ ·) (in_bytes.take BLOCKLEN) (blockBytes j) :=
      toBytes_xorLE _ (by omega)
    simp only [cryptLoop, ih _ _ hlen', hfirst]
    show _ = (List.zipWith _ (in_bytes.take ((m + 1) * BLOCKLEN))
      (blockBytes j ++ blocks blockBytes nextCounter (nextCounter j) m), nextCounter^[m] (nextCounter j))
    rw [Nat.succ_mul, Nat.add_comm, List.take_add, List.zipWith_append (by simp [blockBytes]; omega)]

/-- `Keystream` of `m` whole blocks writes the next `m` blocks. -/
theorem keystream_blocks (c : ChaCha20Aligned) (m : Nat) :
    c.keystream (m * BLOCKLEN) = some (blocks blockBytes nextCounter c.input m, ⟨nextCounter^[m] c.input⟩) := by
  have hdiv : m * BLOCKLEN / BLOCKLEN = m := Nat.mul_div_cancel m (by decide)
  simp only [keystream, hdiv, ne_eq, not_true_eq_false, if_false]
  cases m with
  | zero => rfl
  | succ m =>
    simp only [Nat.succ_ne_zero, if_false, keystreamLoop_eq, set_set_nextCounter_iterate]

/-- `Crypt` of `m` whole blocks XORs the next `m` blocks into the input. -/
theorem crypt_blocks (c : ChaCha20Aligned) {in_bytes : List UInt8} {m : Nat} (hlen : in_bytes.length = m * BLOCKLEN) :
    c.crypt in_bytes =
      some (List.zipWith (· ^^^ ·) in_bytes (blocks blockBytes nextCounter c.input m), ⟨nextCounter^[m] c.input⟩) := by
  have hdiv : m * BLOCKLEN / BLOCKLEN = m := Nat.mul_div_cancel m (by decide)
  simp only [crypt, hlen, hdiv, ne_eq, not_true_eq_false, if_false]
  cases m with
  | zero =>
    have : in_bytes = [] := List.eq_nil_of_length_eq_zero (by simpa using hlen)
    subst this
    rfl
  | succ m =>
    simp only [Nat.succ_ne_zero, if_false, cryptLoop_eq _ _ _ hlen.ge, List.take_of_length_le hlen.le,
      set_set_nextCounter_iterate]

@[simp] theorem length_blockBytes (j : Vector UInt32 12) : (blockBytes j).length = BLOCKLEN := by
  simp [blockBytes, BLOCKLEN]

/-- `Keystream` of one block writes the block of the words. -/
theorem keystream_one_block (c : ChaCha20Aligned) :
    c.keystream BLOCKLEN = some (blockBytes c.input, ⟨nextCounter c.input⟩) := by
  have h := keystream_blocks c 1
  rw [Nat.one_mul] at h
  rw [h]
  simp [blocks]

-- ---------------------------------------------------------------------------
-- ChaCha20: the stream ahead of the cipher
-- ---------------------------------------------------------------------------

namespace ChaCha20

/-- The stream still ahead of the cipher: the last `m_bufleft` bytes of its buffer, then the
blocks of its aligned cipher. -/
def rest (ch : ChaCha20) : Stream' UInt8 :=
  buffered blockBytes nextCounter BLOCKLEN ch.m_aligned.input ch.m_buffer ch.m_bufleft

/-- What the calls keep of a cipher: a whole block buffered, less than a block of it left. -/
structure Wf (ch : ChaCha20) : Prop where
  length_buffer : ch.m_buffer.length = BLOCKLEN
  bufleft_lt : ch.m_bufleft < BLOCKLEN

/-- `ch'` has ahead of it the stream of `ch` past its first `n` bytes; its words are those of
`ch` with the counter moved. -/
structure Advanced (ch : ChaCha20) (n : Nat) (ch' : ChaCha20) : Prop where
  rest_eq : ch'.rest = ch.rest.drop n
  wf : ch'.Wf
  counter : ∃ k, ch'.m_aligned.input = nextCounter^[k] ch.m_aligned.input

variable {ch ch₁ ch₂ : ChaCha20}

theorem Advanced.refl (hwf : ch.Wf) : Advanced ch 0 ch := ⟨rfl, hwf, 0, rfl⟩

theorem Advanced.trans {a b : Nat} (h₁ : Advanced ch a ch₁) (h₂ : Advanced ch₁ b ch₂) : Advanced ch (a + b) ch₂ where
  rest_eq := by rw [h₂.rest_eq, h₁.rest_eq, Stream'.drop_drop]
  wf := h₂.wf
  counter := by
    obtain ⟨k₁, hk₁⟩ := h₁.counter
    obtain ⟨k₂, hk₂⟩ := h₂.counter
    exact ⟨k₂ + k₁, by rw [hk₂, hk₁, Function.iterate_add_apply]⟩

/-- With nothing buffered, the stream ahead is the aligned cipher's blocks. -/
theorem rest_of_bufleft_zero (h0 : ch.m_bufleft = 0) :
    ch.rest = stream blockBytes nextCounter BLOCKLEN ch.m_aligned.input := by
  rw [rest, h0, buffered_zero]

/-- Reading `r` buffered bytes. -/
theorem take_rest_of_le_bufleft (hwf : ch.Wf) {r : Nat} (hr : r ≤ ch.m_bufleft) :
    ch.rest.take r = (ch.m_buffer.drop (BLOCKLEN - ch.m_bufleft)).take r :=
  take_buffered _ hwf.length_buffer hwf.bufleft_lt.le hr

theorem advanced_bufleft (hwf : ch.Wf) {r : Nat} (hr : r ≤ ch.m_bufleft) :
    Advanced ch r { ch with m_bufleft := ch.m_bufleft - r } where
  rest_eq := (drop_buffered _ _ hwf.bufleft_lt.le hr).symm
  wf := ⟨hwf.length_buffer, Nat.lt_of_le_of_lt (Nat.sub_le _ _) hwf.bufleft_lt⟩
  counter := ⟨0, rfl⟩

/-- Reading `m` whole blocks from the aligned cipher, with nothing buffered. -/
theorem advanced_blocks (hwf : ch.Wf) (h0 : ch.m_bufleft = 0) (m : Nat) :
    Advanced ch (m * BLOCKLEN) { ch with m_aligned := ⟨nextCounter^[m] ch.m_aligned.input⟩ } where
  rest_eq := by
    rw [rest_of_bufleft_zero h0, drop_stream (by decide)]
    exact rest_of_bufleft_zero h0
  wf := ⟨hwf.length_buffer, by simp only [h0]; decide⟩
  counter := ⟨m, rfl⟩

/-- Reading the first `t` bytes of one more block, which becomes the buffer. -/
theorem advanced_tail (h0 : ch.m_bufleft = 0) {t : Nat} (ht0 : t ≠ 0) (ht : t ≤ BLOCKLEN) :
    Advanced ch t ⟨⟨nextCounter ch.m_aligned.input⟩, blockBytes ch.m_aligned.input, BLOCKLEN - t⟩ where
  rest_eq := by
    rw [rest_of_bufleft_zero h0]
    exact buffered_next (by decide) _ ht
  wf := ⟨length_blockBytes _, show BLOCKLEN - t < BLOCKLEN by omega⟩
  counter := ⟨1, rfl⟩

-- ---------------------------------------------------------------------------
-- The three steps of `Keystream` and `Crypt`
-- ---------------------------------------------------------------------------

theorem keystreamBuffered_eq (hwf : ch.Wf) (size : Nat) :
    ch.keystreamBuffered size =
      (ch.rest.take (min ch.m_bufleft size), { ch with m_bufleft := ch.m_bufleft - min ch.m_bufleft size },
        size - min ch.m_bufleft size) := by
  unfold keystreamBuffered
  split
  · rw [take_rest_of_le_bufleft hwf (Nat.min_le_left _ _)]
  · -- nothing buffered: nothing read
    have hmin : min ch.m_bufleft size = 0 := by omega
    rw [hmin]
    rfl

theorem cryptBuffered_eq (hwf : ch.Wf) (input : List UInt8) :
    ch.cryptBuffered input =
      (List.zipWith (· ^^^ ·) (input.take (min ch.m_bufleft input.length)) (ch.rest.take (min ch.m_bufleft input.length)),
        { ch with m_bufleft := ch.m_bufleft - min ch.m_bufleft input.length },
        input.drop (min ch.m_bufleft input.length)) := by
  unfold cryptBuffered
  split
  · rw [take_rest_of_le_bufleft hwf (Nat.min_le_left _ _)]
  · have hmin : min ch.m_bufleft input.length = 0 := by omega
    rw [hmin]
    rfl

theorem keystreamBlocks_eq (h0 : ch.m_bufleft = 0) (size : Nat) :
    ch.keystreamBlocks size =
      some (ch.rest.take (size / BLOCKLEN * BLOCKLEN),
        { ch with m_aligned := ⟨nextCounter^[size / BLOCKLEN] ch.m_aligned.input⟩ }, size % BLOCKLEN) := by
  have h64 : BLOCKLEN = 64 := rfl
  rw [rest_of_bufleft_zero h0, take_stream_blocks length_blockBytes (by decide)]
  unfold keystreamBlocks
  split
  · dsimp only
    rw [keystream_blocks, show size % BLOCKLEN = size - size / BLOCKLEN * BLOCKLEN by rw [h64]; omega]
    rfl
  · -- less than a block: no block read
    rw [Nat.div_eq_of_lt (by omega), Nat.mod_eq_of_lt (by omega)]
    rfl

theorem cryptBlocks_eq (h0 : ch.m_bufleft = 0) (input : List UInt8) :
    ch.cryptBlocks input =
      some (List.zipWith (· ^^^ ·) (input.take (input.length / BLOCKLEN * BLOCKLEN))
          (ch.rest.take (input.length / BLOCKLEN * BLOCKLEN)),
        { ch with m_aligned := ⟨nextCounter^[input.length / BLOCKLEN] ch.m_aligned.input⟩ },
        input.drop (input.length / BLOCKLEN * BLOCKLEN)) := by
  have h64 : BLOCKLEN = 64 := rfl
  rw [rest_of_bufleft_zero h0, take_stream_blocks length_blockBytes (by decide)]
  unfold cryptBlocks
  split
  · dsimp only
    rw [crypt_blocks _ (List.length_take_of_le (Nat.div_mul_le_self _ _))]
    rfl
  · rw [Nat.div_eq_of_lt (by omega)]
    rfl

theorem keystreamTail_advanced (hwf : ch.Wf) (h0 : ch.m_bufleft = 0) {size : Nat} (hs : size < BLOCKLEN) :
    ∃ ch', ch.keystreamTail size = some (ch.rest.take size, ch') ∧ Advanced ch size ch' := by
  unfold keystreamTail
  split
  · rename_i hsize
    refine ⟨_, ?_, advanced_tail h0 hsize hs.le⟩
    rw [keystream_one_block, rest_of_bufleft_zero h0, take_stream_of_le length_blockBytes _ hs.le]
    rfl
  · rename_i hsize
    rw [Decidable.of_not_not hsize]
    exact ⟨ch, rfl, Advanced.refl hwf⟩

theorem cryptTail_advanced (hwf : ch.Wf) (h0 : ch.m_bufleft = 0) {input : List UInt8} (hs : input.length < BLOCKLEN) :
    ∃ ch', ch.cryptTail input = some (List.zipWith (· ^^^ ·) input (ch.rest.take input.length), ch') ∧
      Advanced ch input.length ch' := by
  unfold cryptTail
  split
  · rename_i hsize
    refine ⟨_, ?_, advanced_tail h0 hsize hs.le⟩
    -- the XOR stops at the end of the input, so the rest of the block does not matter
    have hxor : List.zipWith (· ^^^ ·) input (blockBytes ch.m_aligned.input) =
        List.zipWith (· ^^^ ·) input ((blockBytes ch.m_aligned.input).take input.length) := by
      calc List.zipWith (· ^^^ ·) input (blockBytes ch.m_aligned.input)
          = (List.zipWith (· ^^^ ·) input (blockBytes ch.m_aligned.input)).take input.length :=
            (List.take_of_length_le (by rw [List.length_zipWith]; exact Nat.min_le_left _ _)).symm
        _ = List.zipWith (· ^^^ ·) (input.take input.length) ((blockBytes ch.m_aligned.input).take input.length) :=
            List.take_zipWith
        _ = _ := by rw [List.take_length]
    rw [keystream_one_block, rest_of_bufleft_zero h0, take_stream_of_le length_blockBytes _ hs.le, ← hxor]
    rfl
  · rename_i hsize
    rw [List.eq_nil_of_length_eq_zero (Decidable.of_not_not hsize)]
    exact ⟨ch, rfl, Advanced.refl hwf⟩

-- ---------------------------------------------------------------------------
-- A call reads the next bytes of the stream
-- ---------------------------------------------------------------------------

/-- `Keystream(out)` of `size` bytes writes the next `size` bytes of the stream and leaves the
rest. -/
theorem keystream_spec (hwf : ch.Wf) (size : Nat) :
    ∃ ch', ch.keystream size = some (ch.rest.take size, ch') ∧ Advanced ch size ch' := by
  by_cases hsize : size = 0
  · subst hsize
    exact ⟨ch, rfl, Advanced.refl hwf⟩
  have h64 : BLOCKLEN = 64 := rfl
  rw [keystream, if_neg hsize, keystreamBuffered_eq hwf]
  dsimp only
  by_cases hle : size ≤ ch.m_bufleft
  · -- the buffer has them all: the other two steps read nothing
    have hmin : min ch.m_bufleft size = size := Nat.min_eq_right hle
    have hblocks : ∀ ch' : ChaCha20, ch'.keystreamBlocks 0 = some ([], ch', 0) := fun _ => rfl
    have htail : ∀ ch' : ChaCha20, ch'.keystreamTail 0 = some ([], ch') := fun _ => rfl
    refine ⟨_, ?_, advanced_bufleft hwf hle⟩
    rw [hmin, Nat.sub_self]
    simp only [Option.bind_eq_bind, hblocks, Option.bind_some, htail, Option.pure_def, List.append_nil]
  · -- the buffer runs out: whole blocks, then a started block, read with nothing buffered
    have hmin : min ch.m_bufleft size = ch.m_bufleft := Nat.min_eq_left (by omega)
    rw [hmin]
    have had₁ := advanced_bufleft hwf (le_refl ch.m_bufleft)
    set ch₁ : ChaCha20 := { ch with m_bufleft := ch.m_bufleft - ch.m_bufleft }
    have h0 : ch₁.m_bufleft = 0 := Nat.sub_self _
    simp only [keystreamBlocks_eq h0, Option.bind_eq_bind, Option.bind_some]
    have had₂ := advanced_blocks had₁.wf h0 ((size - ch.m_bufleft) / BLOCKLEN)
    obtain ⟨ch₃, hks, had₃⟩ := keystreamTail_advanced had₂.wf h0 (Nat.mod_lt (size - ch.m_bufleft) (by decide))
    simp only [Option.bind_some, hks, Option.pure_def]
    have hsum : ch.m_bufleft + ((size - ch.m_bufleft) / BLOCKLEN * BLOCKLEN + (size - ch.m_bufleft) % BLOCKLEN) =
        size := by
      rw [h64]
      omega
    refine ⟨ch₃, ?_, hsum ▸ had₁.trans (had₂.trans had₃)⟩
    rw [had₂.rest_eq, had₁.rest_eq, Stream'.drop_drop, ← take_add, ← take_add, Nat.add_assoc, hsum]

/-- `Crypt(input, output)` XORs the next `input.length` bytes of the stream into the input and
leaves the rest. -/
theorem crypt_spec (hwf : ch.Wf) (input : List UInt8) :
    ∃ ch', ch.crypt input = some (List.zipWith (· ^^^ ·) input (ch.rest.take input.length), ch') ∧
      Advanced ch input.length ch' := by
  by_cases hlen : input.length = 0
  · rw [List.eq_nil_of_length_eq_zero hlen]
    exact ⟨ch, rfl, Advanced.refl hwf⟩
  have h64 : BLOCKLEN = 64 := rfl
  rw [crypt, if_neg hlen, cryptBuffered_eq hwf]
  dsimp only
  by_cases hle : input.length ≤ ch.m_bufleft
  · have hmin : min ch.m_bufleft input.length = input.length := Nat.min_eq_right hle
    have hblocks : ∀ ch' : ChaCha20, ch'.cryptBlocks [] = some ([], ch', []) := fun _ => rfl
    have htail : ∀ ch' : ChaCha20, ch'.cryptTail [] = some ([], ch') := fun _ => rfl
    refine ⟨_, ?_, advanced_bufleft hwf hle⟩
    rw [hmin, List.drop_length, List.take_of_length_le (le_refl _)]
    simp only [Option.bind_eq_bind, hblocks, Option.bind_some, htail, Option.pure_def, List.append_nil]
  · have hmin : min ch.m_bufleft input.length = ch.m_bufleft := Nat.min_eq_left (by omega)
    rw [hmin]
    have had₁ := advanced_bufleft hwf (le_refl ch.m_bufleft)
    set ch₁ : ChaCha20 := { ch with m_bufleft := ch.m_bufleft - ch.m_bufleft }
    have h0 : ch₁.m_bufleft = 0 := Nat.sub_self _
    simp only [cryptBlocks_eq h0, Option.bind_eq_bind, Option.bind_some]
    -- the input past the buffered bytes: `n₂` bytes of whole blocks, then `n₃` more
    set input₁ := input.drop ch.m_bufleft with hinput₁
    have hlen₁ : input₁.length = input.length - ch.m_bufleft := List.length_drop
    set n₂ := input₁.length / BLOCKLEN * BLOCKLEN
    have had₂ := advanced_blocks had₁.wf h0 (input₁.length / BLOCKLEN)
    have hlen₃ : (input₁.drop n₂).length < BLOCKLEN := by
      rw [List.length_drop]
      have := Nat.div_add_mod' input₁.length BLOCKLEN
      have := Nat.mod_lt input₁.length (show 0 < BLOCKLEN by decide)
      omega
    obtain ⟨ch₃, hcr, had₃⟩ := cryptTail_advanced had₂.wf h0 hlen₃
    simp only [hcr, Option.bind_some, Option.pure_def]
    have hsum : ch.m_bufleft + (n₂ + (input₁.drop n₂).length) = input.length := by
      rw [List.length_drop, hlen₁]
      have : n₂ ≤ input.length - ch.m_bufleft := hlen₁ ▸ Nat.div_mul_le_self _ _
      omega
    refine ⟨ch₃, ?_, hsum ▸ had₁.trans (had₂.trans had₃)⟩
    -- the stream bytes read, and the input, cut at the same two places
    have hks : ch.rest.take input.length =
        ch.rest.take ch.m_bufleft ++ (ch₁.rest.take n₂ ++ ({ ch₁ with m_aligned := ⟨nextCounter^[input₁.length / BLOCKLEN] ch₁.m_aligned.input⟩ } : ChaCha20).rest.take (input₁.drop n₂).length) := by
      rw [had₂.rest_eq, had₁.rest_eq, Stream'.drop_drop, ← List.append_assoc, ← take_add, ← take_add,
        Nat.add_assoc, hsum]
    have hA : (input.take ch.m_bufleft).length = (ch.rest.take ch.m_bufleft).length := by
      simp only [List.length_take, Stream'.length_take]
      omega
    have hB : (input₁.take n₂).length = (ch₁.rest.take n₂).length := by
      simp only [List.length_take, Stream'.length_take]
      exact Nat.min_eq_left (Nat.div_mul_le_self _ _)
    rw [hks, List.append_assoc, ← List.zipWith_append hB, List.take_append_drop, ← List.zipWith_append hA, hinput₁,
      List.take_append_drop]

/-- Bytes read by `Advanced` steps run on from each other. -/
theorem take_append_take_of_advanced {a : Nat} (had : Advanced ch a ch₁) (b : Nat) :
    ch.rest.take a ++ ch₁.rest.take b = ch.rest.take (a + b) := by
  rw [had.rest_eq, ← take_add]

/-- The bytes of the stream a call gives: the output of `Keystream`, the output XORed with the
input for `Crypt`. -/
def Call.produced : Call → List UInt8 → List UInt8
  | .keystream _, out => out
  | .crypt input, out => List.zipWith (· ^^^ ·) out input

/-- How many bytes of the stream a call reads. -/
def Call.size : Call → Nat
  | .keystream size => size
  | .crypt input => input.length

/-- Any sequence of calls reads the stream from where the cipher is, each call on from the
last. -/
theorem run_spec (hwf : ch.Wf) (calls : List Call) :
    ∃ outs ch', ch.run calls = some (outs, ch') ∧
      (List.zipWith Call.produced calls outs).flatten = ch.rest.take (calls.map Call.size).sum ∧
      Advanced ch (calls.map Call.size).sum ch' := by
  induction calls generalizing ch with
  | nil => exact ⟨[], ch, rfl, rfl, Advanced.refl hwf⟩
  | cons call calls ih =>
    -- the first call reads `call.size` bytes, the induction hypothesis the rest from there
    rw [List.map_cons, List.sum_cons]
    cases call with
    | keystream size =>
      obtain ⟨ch₁, hks, had₁⟩ := keystream_spec hwf size
      obtain ⟨outs, ch', hrun, hout, had⟩ := ih had₁.wf
      refine ⟨ch.rest.take size :: outs, ch', by simp only [run, hks, hrun, Option.bind_eq_bind, Option.bind_some,
        Option.pure_def], ?_,
        had₁.trans had⟩
      rw [List.zipWith_cons_cons, List.flatten_cons, hout, Call.size, Call.produced,
        ← take_append_take_of_advanced had₁]
    | crypt input =>
      obtain ⟨ch₁, hcr, had₁⟩ := crypt_spec hwf input
      obtain ⟨outs, ch', hrun, hout, had⟩ := ih had₁.wf
      refine ⟨List.zipWith (· ^^^ ·) input (ch.rest.take input.length) :: outs, ch', by simp only [run, hcr, hrun,
        Option.bind_eq_bind, Option.bind_some, Option.pure_def], ?_,
        had₁.trans had⟩
      -- the output XORed with the input again is the stream
      rw [List.zipWith_cons_cons, List.flatten_cons, hout, Call.size, Call.produced,
        zipWith_xor_xor_cancel (by simp), ← take_append_take_of_advanced had₁]

-- ---------------------------------------------------------------------------
-- Where the stream starts: construction, `SetKey` and `Seek`
-- ---------------------------------------------------------------------------

/-- The cipher has the key `key`: its words are those of `key` with some counter and nonce, and it
is well formed. -/
structure Keyed (key : List UInt8) (ch : ChaCha20) : Prop where
  wf : ch.Wf
  words : ∃ ctr n2, ch.m_aligned.input = layout key ctr n2

def keyed (key : List UInt8) : ChaCha20 :=
  ⟨⟨layout key 0 0⟩, List.replicate BLOCKLEN 0, 0⟩

theorem setKey_aligned {key : List UInt8} (hkey : key.length = 32) :
    ChaCha20Aligned.setKey key = some ⟨layout key 0 0⟩ := by
  rw [ChaCha20Aligned.setKey, if_neg (show ¬key.length ≠ ChaCha20Aligned.KEYLEN from not_not.mpr hkey)]
  rfl

theorem new_eq {key : List UInt8} (hkey : key.length = 32) : ChaCha20.new key = some (keyed key) := by
  rw [ChaCha20.new, setKey_aligned hkey]
  rfl

theorem setKey_eq {key : List UInt8} (hkey : key.length = 32) : ch.setKey key = some (keyed key) := by
  rw [ChaCha20.setKey, setKey_aligned hkey]
  rfl

/-- The constructor and `SetKey` fail on a key that is not 32 bytes, and give `keyed key`
otherwise. -/
theorem new_or_setKey_eq {key : List UInt8} {ch₀ : ChaCha20}
    (h : ChaCha20.new key = some ch₀ ∨ ∃ ch : ChaCha20, ch.setKey key = some ch₀) :
    key.length = 32 ∧ ch₀ = keyed key := by
  have hkey : key.length = 32 := by
    by_cases hkey : key.length = 32
    · exact hkey
    · have hnone : ChaCha20Aligned.setKey key = none := if_pos hkey
      rcases h with h | ⟨ch, h⟩ <;> simp [ChaCha20.new, ChaCha20.setKey, hnone] at h
  refine ⟨hkey, ?_⟩
  rcases h with h | ⟨ch, h⟩
  · rw [new_eq hkey] at h
    exact (Option.some.inj h).symm
  · rw [setKey_eq hkey] at h
    exact (Option.some.inj h).symm

theorem keyed_keyed (key : List UInt8) : Keyed key (keyed key) :=
  ⟨⟨List.length_replicate, show 0 < BLOCKLEN by decide⟩, 0, 0, rfl⟩

theorem rest_keyed (key : List UInt8) : (keyed key).rest = rfcStream key 0 0 := by
  rw [rest_of_bufleft_zero rfl]
  exact stream_layout key 0 0

/-- Words 0 to 7 of a layout are the key's, whatever the counter and nonce. -/
theorem getElem_layout_key (key : List UInt8) (ctr ctr' : Nat) (n2 n2' : UInt64) {i : Nat} (hi : i < 12)
    (hkey : i < 8) : (layout key ctr n2)[i] = (layout key ctr' n2')[i] := by
  interval_cases i <;> rfl

/-- `Seek` sets words 8 to 11 to the counter `c0 = n1 * 2^32 + c` and the nonce `n2` of the
layout. -/
theorem seek_layout (key : List UInt8) (ctr : Nat) (n2' : UInt64) (n1 : UInt32) (n2 : UInt64) (c : UInt32) :
    ChaCha20Aligned.seek ⟨layout key ctr n2'⟩ (n1, n2) c = ⟨layout key (n1.toNat * 2 ^ 32 + c.toNat) n2⟩ := by
  have hc := c.toNat_lt
  have hlo : c = UInt32.ofNat (n1.toNat * 2 ^ 32 + c.toNat) := by
    rw [← UInt32.toNat_inj, UInt32.toNat_ofNat']
    omega
  have hhi : n1 = UInt32.ofNat ((n1.toNat * 2 ^ 32 + c.toNat) / 2 ^ 32) := by
    rw [← UInt32.toNat_inj, UInt32.toNat_ofNat']
    have := n1.toNat_lt
    rw [Nat.mul_comm, Nat.mul_add_div (by decide), Nat.div_eq_of_lt hc]
    omega
  simp only [ChaCha20Aligned.seek, ChaCha20Aligned.mk.injEq]
  apply Vector.ext
  intro i hi
  simp only [Vector.getElem_set]
  -- words 8 to 11 are set, the key words are kept
  by_cases h11 : 11 = i
  · subst h11
    rfl
  by_cases h10 : 10 = i
  · subst h10
    rfl
  by_cases h9 : 9 = i
  · subst h9
    exact hhi
  by_cases h8 : 8 = i
  · subst h8
    exact hlo
  rw [if_neg h11, if_neg h10, if_neg h9, if_neg h8]
  exact getElem_layout_key key ctr _ n2' n2 hi (by omega)

theorem keyed_seek {key : List UInt8} (h : Keyed key ch) (nonce : UInt32 × UInt64) (c : UInt32) :
    Keyed key (ch.seek nonce c) := by
  obtain ⟨ctr, n2, hwords⟩ := h.words
  refine ⟨⟨h.wf.length_buffer, show 0 < BLOCKLEN by decide⟩, nonce.1.toNat * 2 ^ 32 + c.toNat, nonce.2, ?_⟩
  show (ch.m_aligned.seek (nonce.1, nonce.2) c).input = _
  rw [show ch.m_aligned = ⟨layout key ctr n2⟩ from congrArg ChaCha20Aligned.mk hwords, seek_layout]

/-- After `Seek((n1, n2), c)` the stream ahead is the RFC 8439 stream of the key and `n2` from
the block `n1 * 2^32 + c`. -/
theorem rest_seek {key : List UInt8} (h : Keyed key ch) (n1 : UInt32) (n2 : UInt64) (c : UInt32) :
    (ch.seek (n1, n2) c).rest = rfcStream key n2 (n1.toNat * 2 ^ 32 + c.toNat) := by
  obtain ⟨ctr, n2', hwords⟩ := h.words
  rw [rest_of_bufleft_zero rfl]
  show stream blockBytes nextCounter BLOCKLEN (ch.m_aligned.seek (n1, n2) c).input = _
  rw [show ch.m_aligned = ⟨layout key ctr n2'⟩ from congrArg ChaCha20Aligned.mk hwords, seek_layout]
  exact stream_layout key _ n2

end ChaCha20

-- ---------------------------------------------------------------------------
-- FSChaCha20: one stream per segment of `rekey_interval` calls
-- ---------------------------------------------------------------------------

/-- What `Crypt` calls of an `FSChaCha20` with rekey interval `r` give: segment `s` is the RFC 8439
stream of `key` with nonce `(0, s)` from block 0, of which the `i` calls of the segment so far
have used `off` bytes; after the `r`-th call of a segment, the next 32 bytes of its stream are
the key of the next segment. -/
def fsCryptSpec (r : Nat) : List UInt8 → Nat → Nat → Nat → List (List UInt8) → List (List UInt8)
  | _, _, _, _, [] => []
  | key, s, off, i, input :: inputs =>
    let stream := (rfcStream key (UInt64.ofNat s) 0).drop off
    let out := List.zipWith (· ^^^ ·) input (stream.take input.length)
    if i + 1 = r then out :: fsCryptSpec r ((stream.drop input.length).take 32) (s + 1) 0 0 inputs
    else out :: fsCryptSpec r key s (off + input.length) (i + 1) inputs

namespace FSChaCha20

/-- The cipher is in segment `s` of key `key`, `i` calls and `off` bytes into it. -/
structure InSegment (r : Nat) (key : List UInt8) (s off i : Nat) (fs : FSChaCha20) : Prop where
  wf : fs.m_chacha20.Wf
  rest_eq : fs.m_chacha20.rest = (rfcStream key (UInt64.ofNat s) 0).drop off
  interval : fs.m_rekey_interval.toNat = r
  chunk : fs.m_chunk_counter.toNat = i
  chunk_lt : i < r
  rekey : fs.m_rekey_counter = UInt64.ofNat s

theorem new_inSegment {key : List UInt8} {r : UInt32} (hr : 0 < r.toNat) {fs : FSChaCha20}
    (h : FSChaCha20.new key r = some fs) : InSegment r.toNat key 0 0 0 fs := by
  obtain ⟨ch, hch, rfl⟩ : ∃ ch, ChaCha20.new key = some ch ∧
      fs = { m_chacha20 := ch, m_rekey_interval := r, m_chunk_counter := 0, m_rekey_counter := 0 } := by
    cases hch : ChaCha20.new key with
    | none => simp [FSChaCha20.new, hch] at h
    | some ch =>
      simp only [FSChaCha20.new, hch, Option.bind_eq_bind, Option.bind_some, Option.pure_def, Option.some.injEq] at h
      exact ⟨ch, rfl, h.symm⟩
  obtain ⟨-, rfl⟩ := ChaCha20.new_or_setKey_eq (Or.inl hch)
  exact ⟨(ChaCha20.keyed_keyed key).wf, by rw [ChaCha20.rest_keyed]; rfl, rfl, rfl, hr, rfl⟩

/-- One `Crypt` call: the next bytes of the segment's stream XORed into the input; after the
`r`-th call of the segment, the rekey to the next segment. -/
theorem crypt_inSegment {r : Nat} {key : List UInt8} {s off i : Nat} {fs : FSChaCha20}
    (h : InSegment r key s off i fs) (input : List UInt8) :
    let stream := (rfcStream key (UInt64.ofNat s) 0).drop off
    ∃ fs', fs.crypt input = some (List.zipWith (· ^^^ ·) input (stream.take input.length), fs') ∧
      if i + 1 = r then InSegment r ((stream.drop input.length).take 32) (s + 1) 0 0 fs'
      else InSegment r key s (off + input.length) (i + 1) fs' := by
  intro stream
  obtain ⟨ch₁, hcr, had₁⟩ := ChaCha20.crypt_spec h.wf input
  have hrest₁ : ch₁.rest = stream.drop input.length := by rw [had₁.rest_eq, h.rest_eq]
  rw [h.rest_eq] at hcr
  -- the chunk counter does not wrap: it stays below the interval
  have hr : r < 2 ^ 32 := h.interval ▸ fs.m_rekey_interval.toNat_lt
  have hchunk : (fs.m_chunk_counter + 1).toNat = i + 1 := by
    rw [UInt32.toNat_add, h.chunk, UInt32.toNat_one]
    have := h.chunk_lt
    omega
  have hiff : fs.m_chunk_counter + 1 = fs.m_rekey_interval ↔ i + 1 = r := by
    rw [← UInt32.toNat_inj, hchunk, h.interval]
  by_cases hlast : i + 1 = r
  · -- the rekey: 32 more bytes of the stream, a new key, the nonce the number of rekeys
    obtain ⟨ch₂, hks, -⟩ := ChaCha20.keystream_spec had₁.wf ChaCha20.KEYLEN
    rw [hrest₁] at hks
    have hkey : ((stream.drop input.length).take ChaCha20.KEYLEN).length = 32 := Stream'.length_take _ _
    have hrekey : fs.m_rekey_counter + 1 = UInt64.ofNat (s + 1) := by rw [h.rekey, UInt64.ofNat_add]; rfl
    refine ⟨{ fs with
        m_chacha20 := (ChaCha20.keyed ((stream.drop input.length).take 32)).seek (0, UInt64.ofNat (s + 1)) 0
        m_chunk_counter := 0
        m_rekey_counter := UInt64.ofNat (s + 1) }, ?_, ?_⟩
    · simp only [FSChaCha20.crypt, hcr, hks, ChaCha20.setKey_eq hkey, hiff.mpr hlast, Option.bind_eq_bind,
        Option.bind_some, Option.pure_def, if_true, hrekey]
      rfl
    · rw [if_pos hlast]
      refine ⟨(ChaCha20.keyed_seek (ChaCha20.keyed_keyed _) _ _).wf, ?_, h.interval, rfl, by omega, rfl⟩
      rw [ChaCha20.rest_seek (ChaCha20.keyed_keyed _)]
      rfl
  · refine ⟨{ fs with m_chacha20 := ch₁, m_chunk_counter := fs.m_chunk_counter + 1 }, ?_, ?_⟩
    · simp only [FSChaCha20.crypt, hcr, (not_congr hiff).mpr hlast, Option.bind_eq_bind, Option.bind_some,
        Option.pure_def, if_false]
      rfl
    · rw [if_neg hlast]
      exact ⟨had₁.wf, by rw [hrest₁, Stream'.drop_drop], h.interval, hchunk, by have := h.chunk_lt; omega,
        h.rekey⟩

/-- A sequence of `Crypt` calls gives what the segments give. -/
theorem cryptAll_inSegment {r : Nat} {key : List UInt8} {s off i : Nat} {fs : FSChaCha20}
    (h : InSegment r key s off i fs) (inputs : List (List UInt8)) :
    ∃ fs', fs.cryptAll inputs = some (fsCryptSpec r key s off i inputs, fs') := by
  induction inputs generalizing key s off i fs with
  | nil => exact ⟨fs, rfl⟩
  | cons input inputs ih =>
    obtain ⟨fs₁, hcr, h₁⟩ := crypt_inSegment h input
    by_cases hlast : i + 1 = r
    · rw [if_pos hlast] at h₁
      obtain ⟨fs', hall⟩ := ih h₁
      refine ⟨fs', ?_⟩
      simp only [cryptAll, hcr, hall, fsCryptSpec, if_pos hlast, Option.bind_eq_bind, Option.bind_some,
        Option.pure_def]
    · rw [if_neg hlast] at h₁
      obtain ⟨fs', hall⟩ := ih h₁
      refine ⟨fs', ?_⟩
      simp only [cryptAll, hcr, hall, fsCryptSpec, if_neg hlast, Option.bind_eq_bind, Option.bind_some,
        Option.pure_def]

end FSChaCha20

-- ---------------------------------------------------------------------------
-- ChaCha20 and FSChaCha20 produce the RFC 8439 stream
-- ---------------------------------------------------------------------------

end Crypto

end Riecoin
