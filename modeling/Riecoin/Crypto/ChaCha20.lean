-- SUMMARY: ChaCha20Aligned, ChaCha20 and FSChaCha20 of crypto/chacha20.cpp: the block loop with its 64-bit counter, the buffered byte interface and the rekeying wrapper.
import Riecoin.Lib.BlockStream
import Riecoin.Lib.Bytes

/-!
# ChaCha20

`ChaCha20Aligned` holds the twelve words `input` of the ChaCha20 state that are not constants:
the key, the block counter `input[8]`, and the nonce in `input[9..11]`. Its `Keystream` and
`Crypt` run the block loop over whole 64-byte blocks: twenty rounds on the sixteen variables
`x0..x15`, the first state added back, the counter `j12` moved on with a carry into `j13`.

`ChaCha20` adds a 64-byte buffer for the bytes of the last block not yet used. Its `Keystream`
and `Crypt` take them first, then whole blocks from the aligned cipher, then one more block into
the buffer for the last bytes; the three steps are `keystreamBuffered`, `keystreamBlocks` and
`keystreamTail` here (and their `crypt` counterparts), each one `if` of the source.

`FSChaCha20` rekeys every `rekey_interval` calls of `Crypt`: 32 more bytes of the stream become
the key, and the nonce becomes the number of rekeys so far.

The `assert`s on key and block sizes are `none`. Bytes are `UInt8`s, spans and arrays lists; an
output span is given by its size and returned.
-/

namespace Riecoin

namespace Crypto

open Bytes

/-- `ReadLE32(ptr)`: the four bytes at `ptr`, least significant first. -/
def readLE32 (ptr : List UInt8) : UInt32 := UInt32.ofNat (leValue (ptr.take 4))

/-- `WriteLE32(ptr, x)`: the four bytes written. -/
def writeLE32 (x : UInt32) : List UInt8 := leBytes 4 x.toNat

/-- `std::rotl(x, s)`, for `0 < s < 32`. -/
def rotl (x : UInt32) (s : Nat) : UInt32 := (x <<< UInt32.ofNat s) ||| (x >>> UInt32.ofNat (32 - s))

/-- `QUARTERROUND(a, b, c, d)`: the new values of its four variables. -/
def quarterRound (a b c d : UInt32) : UInt32 × UInt32 × UInt32 × UInt32 :=
  let a := a + b
  let d := rotl (d ^^^ a) 16
  let c := c + d
  let b := rotl (b ^^^ c) 12
  let a := a + b
  let d := rotl (d ^^^ a) 8
  let c := c + d
  let b := rotl (b ^^^ c) 7
  (a, b, c, d)

/-- The variables `x0`, ..., `x15` of the block loop. -/
structure Words where
  x0 : UInt32
  x1 : UInt32
  x2 : UInt32
  x3 : UInt32
  x4 : UInt32
  x5 : UInt32
  x6 : UInt32
  x7 : UInt32
  x8 : UInt32
  x9 : UInt32
  x10 : UInt32
  x11 : UInt32
  x12 : UInt32
  x13 : UInt32
  x14 : UInt32
  x15 : UInt32
  deriving DecidableEq, Repr

namespace Words

/-- One pass of `REPEAT10`: quarter rounds down the four columns, then along the four
diagonals. -/
def doubleRound (x : Words) : Words :=
  let ⟨x0, x1, x2, x3, x4, x5, x6, x7, x8, x9, x10, x11, x12, x13, x14, x15⟩ := x
  let (x0, x4, x8, x12) := quarterRound x0 x4 x8 x12
  let (x1, x5, x9, x13) := quarterRound x1 x5 x9 x13
  let (x2, x6, x10, x14) := quarterRound x2 x6 x10 x14
  let (x3, x7, x11, x15) := quarterRound x3 x7 x11 x15
  let (x0, x5, x10, x15) := quarterRound x0 x5 x10 x15
  let (x1, x6, x11, x12) := quarterRound x1 x6 x11 x12
  let (x2, x7, x8, x13) := quarterRound x2 x7 x8 x13
  let (x3, x4, x9, x14) := quarterRound x3 x4 x9 x14
  ⟨x0, x1, x2, x3, x4, x5, x6, x7, x8, x9, x10, x11, x12, x13, x14, x15⟩

/-- `x0 += ...; ...; x15 += ...`: the first state added back. -/
def add (x y : Words) : Words :=
  ⟨x.x0 + y.x0, x.x1 + y.x1, x.x2 + y.x2, x.x3 + y.x3, x.x4 + y.x4, x.x5 + y.x5, x.x6 + y.x6,
    x.x7 + y.x7, x.x8 + y.x8, x.x9 + y.x9, x.x10 + y.x10, x.x11 + y.x11, x.x12 + y.x12,
    x.x13 + y.x13, x.x14 + y.x14, x.x15 + y.x15⟩

/-- `x0 ^= ReadLE32(m + 0); ...; x15 ^= ReadLE32(m + 60)`. -/
def xorLE (x : Words) (m : List UInt8) : Words :=
  ⟨x.x0 ^^^ readLE32 (m.drop 0), x.x1 ^^^ readLE32 (m.drop 4), x.x2 ^^^ readLE32 (m.drop 8),
    x.x3 ^^^ readLE32 (m.drop 12), x.x4 ^^^ readLE32 (m.drop 16), x.x5 ^^^ readLE32 (m.drop 20),
    x.x6 ^^^ readLE32 (m.drop 24), x.x7 ^^^ readLE32 (m.drop 28), x.x8 ^^^ readLE32 (m.drop 32),
    x.x9 ^^^ readLE32 (m.drop 36), x.x10 ^^^ readLE32 (m.drop 40), x.x11 ^^^ readLE32 (m.drop 44),
    x.x12 ^^^ readLE32 (m.drop 48), x.x13 ^^^ readLE32 (m.drop 52), x.x14 ^^^ readLE32 (m.drop 56),
    x.x15 ^^^ readLE32 (m.drop 60)⟩

/-- The sixteen words in order. -/
def toList (x : Words) : List UInt32 :=
  [x.x0, x.x1, x.x2, x.x3, x.x4, x.x5, x.x6, x.x7, x.x8, x.x9, x.x10, x.x11, x.x12, x.x13, x.x14, x.x15]

/-- `WriteLE32(c + 0, x0); ...; WriteLE32(c + 60, x15)`. -/
def toBytes (x : Words) : List UInt8 := x.toList.flatMap writeLE32

end Words

/-- The first state of a block: the constants, then `j4..j15`, which are `input[0..11]` with the
block counter of the block. -/
def initWords (j : Vector UInt32 12) : Words :=
  ⟨0x61707865, 0x3320646e, 0x79622d32, 0x6b206574, j[0], j[1], j[2], j[3], j[4], j[5], j[6], j[7],
    j[8], j[9], j[10], j[11]⟩

/-- The body of the block loop up to the writes: `REPEAT10` double rounds, then the first state
added back. -/
def block (j : Vector UInt32 12) : Words :=
  let x := initWords j
  (Words.doubleRound^[10] x).add x

/-- `++j12; if (!j12) ++j13;`, with `j12` and `j13` the words `j[8]` and `j[9]`. -/
def nextCounter (j : Vector UInt32 12) : Vector UInt32 12 :=
  let j12 := j[8] + 1
  let j13 := if j12 = 0 then j[9] + 1 else j[9]
  (j.set 8 j12).set 9 j13

/-- The counter moves only in words 8 and 9. -/
theorem getElem_nextCounter_iterate (j : Vector UInt32 12) (k : Nat) {i : Nat} (hi : i < 12) (h8 : i ≠ 8)
    (h9 : i ≠ 9) : (nextCounter^[k] j)[i] = j[i] := by
  induction k with
  | zero => rfl
  | succ k ih =>
    rw [Function.iterate_succ_apply', ← ih]
    simp only [nextCounter, Vector.getElem_set]
    rw [if_neg (Ne.symm h9), if_neg (Ne.symm h8)]

/-- Writing back `j12` and `j13` after the loop is moving the words' counter. -/
theorem set_set_nextCounter_iterate (j : Vector UInt32 12) (k : Nat) :
    (j.set 8 (nextCounter^[k] j)[8]).set 9 (nextCounter^[k] j)[9] = nextCounter^[k] j := by
  apply Vector.ext
  intro i hi
  simp only [Vector.getElem_set]
  by_cases h9 : 9 = i
  · subst h9
    rfl
  by_cases h8 : 8 = i
  · subst h8
    rfl
  rw [if_neg h9, if_neg h8, getElem_nextCounter_iterate j k hi (Ne.symm h8) (Ne.symm h9)]

/-- `ChaCha20Aligned`: the words `input`. -/
structure ChaCha20Aligned where
  input : Vector UInt32 12
  deriving DecidableEq, Repr

namespace ChaCha20Aligned

/-- `KEYLEN`. -/
def KEYLEN : Nat := 32

/-- `BLOCKLEN`. -/
def BLOCKLEN : Nat := 64

/-- `SetKey(key)`, also the constructor: the key words, then counter and nonce 0. -/
def setKey (key : List UInt8) : Option ChaCha20Aligned :=
  if key.length ≠ KEYLEN then none
  else some ⟨⟨#[readLE32 (key.drop 0), readLE32 (key.drop 4), readLE32 (key.drop 8),
    readLE32 (key.drop 12), readLE32 (key.drop 16), readLE32 (key.drop 20), readLE32 (key.drop 24),
    readLE32 (key.drop 28), 0, 0, 0, 0], rfl⟩⟩

/-- `Seek(nonce, block_counter)`. -/
def seek (c : ChaCha20Aligned) (nonce : UInt32 × UInt64) (block_counter : UInt32) : ChaCha20Aligned :=
  ⟨(((c.input.set 8 block_counter).set 9 nonce.1).set 10 nonce.2.toUInt32).set 11 (nonce.2 >>> 32).toUInt32⟩

/-- The block loop of `Keystream`, `blocks` passes from the words `j`: the bytes written and the
words at the end. -/
def keystreamLoop (j : Vector UInt32 12) : Nat → List UInt8 × Vector UInt32 12
  | 0 => ([], j)
  | blocks + 1 =>
    let x := block j
    let (rest, j') := keystreamLoop (nextCounter j) blocks
    (x.toBytes ++ rest, j')

/-- `Keystream(output)` for an output of `size` bytes. -/
def keystream (c : ChaCha20Aligned) (size : Nat) : Option (List UInt8 × ChaCha20Aligned) :=
  let blocks := size / BLOCKLEN
  if blocks * BLOCKLEN ≠ size then none
  else if blocks = 0 then some ([], c)
  else
    let (out, j) := keystreamLoop c.input blocks
    -- only `j12` and `j13` are written back
    some (out, ⟨(c.input.set 8 j[8]).set 9 j[9]⟩)

/-- The block loop of `Crypt`, `blocks` passes from the words `j` over the input `m`. -/
def cryptLoop (j : Vector UInt32 12) : List UInt8 → Nat → List UInt8 × Vector UInt32 12
  | _, 0 => ([], j)
  | m, blocks + 1 =>
    let x := (block j).xorLE m
    let (rest, j') := cryptLoop (nextCounter j) (m.drop BLOCKLEN) blocks
    (x.toBytes ++ rest, j')

/-- `Crypt(in_bytes, out_bytes)`: the output bytes. -/
def crypt (c : ChaCha20Aligned) (in_bytes : List UInt8) : Option (List UInt8 × ChaCha20Aligned) :=
  let blocks := in_bytes.length / BLOCKLEN
  if blocks * BLOCKLEN ≠ in_bytes.length then none
  else if blocks = 0 then some ([], c)
  else
    let (out, j) := cryptLoop c.input in_bytes blocks
    some (out, ⟨(c.input.set 8 j[8]).set 9 j[9]⟩)

end ChaCha20Aligned

open ChaCha20Aligned (BLOCKLEN)

/-- `ChaCha20`: the aligned cipher, and the last `m_bufleft` bytes of `m_buffer` still to use. -/
structure ChaCha20 where
  m_aligned : ChaCha20Aligned
  m_buffer : List UInt8
  m_bufleft : Nat
  deriving DecidableEq, Repr

namespace ChaCha20

/-- `KEYLEN`. -/
def KEYLEN : Nat := ChaCha20Aligned.KEYLEN

/-- The constructor `ChaCha20(key)`. The buffer is left uninitialized by the source and is never
read while `m_bufleft` is 0; it is zeros here. -/
def new (key : List UInt8) : Option ChaCha20 := do
  let m_aligned ← ChaCha20Aligned.setKey key
  pure { m_aligned, m_buffer := List.replicate BLOCKLEN 0, m_bufleft := 0 }

/-- `SetKey(key)`: a new key, nothing buffered, and the buffer wiped. -/
def setKey (_ch : ChaCha20) (key : List UInt8) : Option ChaCha20 := do
  let m_aligned ← ChaCha20Aligned.setKey key
  pure { m_aligned, m_buffer := List.replicate BLOCKLEN 0, m_bufleft := 0 }

/-- `Seek(nonce, block_counter)`: the buffered bytes are dropped. -/
def seek (ch : ChaCha20) (nonce : UInt32 × UInt64) (block_counter : UInt32) : ChaCha20 :=
  { ch with m_aligned := ch.m_aligned.seek nonce block_counter, m_bufleft := 0 }

/-- The first `if` of `Keystream`: the buffered bytes, as many as are asked for. Returns the bytes,
the cipher and the size still to produce. -/
def keystreamBuffered (ch : ChaCha20) (size : Nat) : List UInt8 × ChaCha20 × Nat :=
  if ch.m_bufleft ≠ 0 then
    let reuse := min ch.m_bufleft size
    ((ch.m_buffer.drop (BLOCKLEN - ch.m_bufleft)).take reuse, { ch with m_bufleft := ch.m_bufleft - reuse },
      size - reuse)
  else ([], ch, size)

/-- The second `if` of `Keystream`: whole blocks straight from the aligned cipher. -/
def keystreamBlocks (ch : ChaCha20) (size : Nat) : Option (List UInt8 × ChaCha20 × Nat) :=
  if size ≥ BLOCKLEN then do
    let blocks := size / BLOCKLEN
    let (out, m_aligned) ← ch.m_aligned.keystream (blocks * BLOCKLEN)
    pure (out, { ch with m_aligned }, size - blocks * BLOCKLEN)
  else pure ([], ch, size)

/-- The third `if` of `Keystream`: one more block into the buffer, and its first bytes. -/
def keystreamTail (ch : ChaCha20) (size : Nat) : Option (List UInt8 × ChaCha20) :=
  if size ≠ 0 then do
    let (m_buffer, m_aligned) ← ch.m_aligned.keystream BLOCKLEN
    pure (m_buffer.take size, { m_aligned, m_buffer, m_bufleft := BLOCKLEN - size })
  else pure ([], ch)

/-- `Keystream(out)` for an output of `size` bytes. -/
def keystream (ch : ChaCha20) (size : Nat) : Option (List UInt8 × ChaCha20) :=
  if size = 0 then some ([], ch)
  else do
    let (out1, ch, size) := ch.keystreamBuffered size
    let (out2, ch, size) ← ch.keystreamBlocks size
    let (out3, ch) ← ch.keystreamTail size
    pure (out1 ++ out2 ++ out3, ch)

/-- The first `if` of `Crypt`: the input bytes XORed with the buffered bytes. Returns the output,
the cipher and the input still to encrypt. -/
def cryptBuffered (ch : ChaCha20) (input : List UInt8) : List UInt8 × ChaCha20 × List UInt8 :=
  if ch.m_bufleft ≠ 0 then
    let reuse := min ch.m_bufleft input.length
    (List.zipWith (· ^^^ ·) (input.take reuse) ((ch.m_buffer.drop (BLOCKLEN - ch.m_bufleft)).take reuse),
      { ch with m_bufleft := ch.m_bufleft - reuse }, input.drop reuse)
  else ([], ch, input)

/-- The second `if` of `Crypt`: whole blocks through the aligned cipher. -/
def cryptBlocks (ch : ChaCha20) (input : List UInt8) : Option (List UInt8 × ChaCha20 × List UInt8) :=
  if input.length ≥ BLOCKLEN then do
    let blocks := input.length / BLOCKLEN
    let (out, m_aligned) ← ch.m_aligned.crypt (input.take (blocks * BLOCKLEN))
    pure (out, { ch with m_aligned }, input.drop (blocks * BLOCKLEN))
  else pure ([], ch, input)

/-- The third `if` of `Crypt`: one more block into the buffer, XORed into the last bytes. -/
def cryptTail (ch : ChaCha20) (input : List UInt8) : Option (List UInt8 × ChaCha20) :=
  if input.length ≠ 0 then do
    let (m_buffer, m_aligned) ← ch.m_aligned.keystream BLOCKLEN
    pure (List.zipWith (· ^^^ ·) input m_buffer, { m_aligned, m_buffer, m_bufleft := BLOCKLEN - input.length })
  else pure ([], ch)

/-- `Crypt(input, output)`: the output bytes. -/
def crypt (ch : ChaCha20) (input : List UInt8) : Option (List UInt8 × ChaCha20) :=
  if input.length = 0 then some ([], ch)
  else do
    let (out1, ch, input) := ch.cryptBuffered input
    let (out2, ch, input) ← ch.cryptBlocks input
    let (out3, ch) ← ch.cryptTail input
    pure (out1 ++ out2 ++ out3, ch)

/-- A call of the byte interface. -/
inductive Call
  | keystream (size : Nat)
  | crypt (input : List UInt8)
  deriving DecidableEq, Repr

/-- A sequence of calls: what each returns, and the cipher at the end. -/
def run (ch : ChaCha20) : List Call → Option (List (List UInt8) × ChaCha20)
  | [] => some ([], ch)
  | .keystream size :: calls => do
    let (out, ch) ← ch.keystream size
    let (outs, ch) ← ch.run calls
    pure (out :: outs, ch)
  | .crypt input :: calls => do
    let (out, ch) ← ch.crypt input
    let (outs, ch) ← ch.run calls
    pure (out :: outs, ch)

end ChaCha20

/-- `FSChaCha20`. -/
structure FSChaCha20 where
  m_chacha20 : ChaCha20
  m_rekey_interval : UInt32
  m_chunk_counter : UInt32
  m_rekey_counter : UInt64
  deriving DecidableEq, Repr

namespace FSChaCha20

/-- The constructor `FSChaCha20(key, rekey_interval)`. -/
def new (key : List UInt8) (rekey_interval : UInt32) : Option FSChaCha20 := do
  let m_chacha20 ← ChaCha20.new key
  pure { m_chacha20, m_rekey_interval := rekey_interval, m_chunk_counter := 0, m_rekey_counter := 0 }

/-- `Crypt(input, output)`: the output bytes. -/
def crypt (fs : FSChaCha20) (input : List UInt8) : Option (List UInt8 × FSChaCha20) := do
  let (output, m_chacha20) ← fs.m_chacha20.crypt input
  let m_chunk_counter := fs.m_chunk_counter + 1
  if m_chunk_counter = fs.m_rekey_interval then
    -- the next 32 bytes of the stream become the key, and the nonce the number of rekeys
    let (new_key, m_chacha20) ← m_chacha20.keystream ChaCha20.KEYLEN
    let m_chacha20 ← m_chacha20.setKey new_key
    let m_rekey_counter := fs.m_rekey_counter + 1
    let m_chacha20 := m_chacha20.seek (0, m_rekey_counter) 0
    pure (output, { fs with m_chacha20, m_chunk_counter := 0, m_rekey_counter })
  else pure (output, { fs with m_chacha20, m_chunk_counter })

/-- A sequence of `Crypt` calls: the outputs, and the cipher at the end. -/
def cryptAll (fs : FSChaCha20) : List (List UInt8) → Option (List (List UInt8) × FSChaCha20)
  | [] => some ([], fs)
  | input :: inputs => do
    let (out, fs) ← fs.crypt input
    let (outs, fs) ← fs.cryptAll inputs
    pure (out :: outs, fs)

end FSChaCha20

end Crypto

end Riecoin
