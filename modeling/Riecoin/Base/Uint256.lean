-- SUMMARY: Fixed-size opaque blobs (`base_blob`, `uint256`, `uint160`) and the little-endian words read from them.
import Riecoin.Lib.Bytes

/-!
# Opaque blobs

`base_blob<BITS>` (`uint256.h`) is an array of `BITS / 8` bytes in memory order.
Hashes, nonces and key identifiers are blobs; equality is byte equality. The
little-endian readings of a blob (`GetUint64`, and GMP's `mpz_import` with the least
significant word first on a little-endian host) are `Bytes.leValue` of its bytes.
-/

namespace Riecoin

/-- `base_blob<BITS>`: `BITS / 8` bytes in memory order. The length is a field, so a
blob of the wrong width cannot be built. -/
structure BaseBlob (bits : Nat) where
  data : List UInt8
  length_data : data.length = bits / 8
  deriving DecidableEq

/-- `uint256`. -/
abbrev Uint256 := BaseBlob 256

/-- `uint160`. -/
abbrev Uint160 := BaseBlob 160

namespace BaseBlob

/-- `base_blob()`: the blob whose bytes are all zero. -/
def zero (bits : Nat) : BaseBlob bits :=
  ⟨List.replicate (bits / 8) 0, List.length_replicate⟩

/-- `GetUint64(pos)`: the eight bytes from offset `8 * pos`, read little-endian
(`ReadLE64`). -/
def getUint64 (b : BaseBlob bits) (pos : Nat) : UInt64 :=
  UInt64.ofNat (Bytes.leValue ((b.data.drop (pos * 8)).take 8))

theorem ext_data {a b : BaseBlob bits} (h : a.data = b.data) : a = b := by
  cases a
  cases b
  cases h
  rfl

/-- Two blobs with the same little-endian value are the same blob. -/
theorem eq_of_leValue_eq {a b : BaseBlob bits} (h : Bytes.leValue a.data = Bytes.leValue b.data) :
    a = b :=
  ext_data (Bytes.leValue_injective (by rw [a.length_data, b.length_data]) h)

theorem leValue_lt (b : BaseBlob bits) : Bytes.leValue b.data < 256 ^ (bits / 8) := by
  simpa [b.length_data] using Bytes.leValue_lt b.data

end BaseBlob

end Riecoin
