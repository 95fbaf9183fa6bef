-- SUMMARY: Transactions (`primitives/transaction.h`): inputs with their witness stacks, outputs, and the basic and extended serialization formats, with the round trip of each and the uniqueness of the witness encoding.
import Riecoin.Coins.Coin
import Riecoin.Serialize.Integers
import Riecoin.Lib.CheckedInt

/-!
# Transaction serialization

A transaction is written in one of two formats (`SerializeTransaction`). The basic one is
the version, the inputs, the outputs and the lock time. The extended one, used when some
input has a witness, puts a marker `0x00` (an empty vector of inputs) and a flags byte `1`
after the version, and the inputs' witness stacks before the lock time.

The reader (`UnserializeTransaction`) tells the formats apart by reading the inputs first:
an empty vector of inputs is taken for the marker, so the next byte is the flags byte. A
transaction with no inputs but some outputs, written without witnesses, therefore reads
back wrong: its output count is taken for the flags. Every other transaction reads back
(`unserializeTransaction_readsBack`). The reader refuses a witness section whose stacks
are all empty and any flag bit it does not know, so what it accepts is exactly what the
writer writes (`unserializeTransaction_canonical`): each transaction has one witness
serialization.

Each field is read with the rules of `Codec`: `ReadsBack` for the round trip and
`Canonical` for the converse, one lemma per field reader.
-/

namespace Riecoin

open Codec Bytes

/-- An output the format carries: an amount in the range of `CAmount` (an `int64_t`) and a
script of at most `MAX_SIZE` bytes. -/
structure CTxOut.Fits (txout : CTxOut) : Prop where
  nValue_range : CheckedInt.InRange 64 txout.nValue
  scriptPubKey_le : txout.scriptPubKey.length ≤ MAX_SIZE

-- The inputs of this module carry their scripts and witnesses; they are not the `CTxIn` of
-- `Validation.Utxo`, which keeps only the outpoint an input spends.
namespace Primitives

-- ---------------------------------------------------------------------------
-- Fixed-width fields
-- ---------------------------------------------------------------------------

/-- `Serialize(s, uint32_t)`. -/
def serUInt32 (a : UInt32) : List UInt8 := serWriteData 4 a.toNat

/-- `Unserialize(s, uint32_t&)`. -/
def unserUInt32 : Reader UInt32 := do
  let a ← serReadData 4
  pure (UInt32.ofNat a)

/-- `Serialize(s, unsigned char)`. -/
def serUInt8 (a : UInt8) : List UInt8 := serWriteData 1 a.toNat

/-- `Unserialize(s, unsigned char&)`. -/
def unserUInt8 : Reader UInt8 := do
  let a ← serReadData 1
  pure (UInt8.ofNat a)

/-- `Serialize(s, int64_t)`: the bits of `uint64_t(a)`. -/
def serInt64 (a : Int) : List UInt8 := serWriteData 8 (a % (2 ^ 64 : Nat)).toNat

/-- `Unserialize(s, int64_t&)`: `int64_t(ser_readdata64(s))`. -/
def unserInt64 : Reader Int := do
  let a ← serReadData 8
  pure (CheckedInt.wrap 64 a)

/-- `base_blob::Serialize`: the bytes, with no count. -/
def serBlob {bits : Nat} (b : BaseBlob bits) : List UInt8 := b.data

/-- `base_blob::Unserialize`: `BITS / 8` bytes. -/
def unserBlob (bits : Nat) : Reader (BaseBlob bits) := fun bytes =>
  if h : bytes.length < bits / 8 then .error "end of data"
  else .ok (⟨bytes.take (bits / 8), List.length_take_of_le (by omega)⟩, bytes.drop (bits / 8))

theorem unserUInt32_readsBack (a : UInt32) : ReadsBack unserUInt32 (serUInt32 a) a := by
  have h : a.toNat < 256 ^ 4 := a.toNat_lt
  refine (serReadData_readsBack 4 h).bind_end ?_
  rw [UInt32.ofNat_toNat]
  exact ReadsBack.pure a

theorem unserUInt8_readsBack (a : UInt8) : ReadsBack unserUInt8 (serUInt8 a) a := by
  have h : a.toNat < 256 ^ 1 := a.toNat_lt
  refine (serReadData_readsBack 1 h).bind_end ?_
  rw [UInt8.ofNat_toNat]
  exact ReadsBack.pure a

/-- An amount reads back when it fits in the `int64_t` it is written from. -/
theorem unserInt64_readsBack {a : Int} (h : CheckedInt.InRange 64 a) :
    ReadsBack unserInt64 (serInt64 a) a := by
  have hlt : (a % (2 ^ 64 : Nat)).toNat < 256 ^ 8 := by
    have := Int.emod_lt_of_pos a (show (0 : Int) < (2 ^ 64 : Nat) by decide)
    omega
  refine (serReadData_readsBack 8 hlt).bind_end ?_
  rw [CheckedInt.wrap_toNat_emod (by decide) h]
  exact ReadsBack.pure a

theorem unserBlob_readsBack {bits : Nat} (b : BaseBlob bits) :
    ReadsBack (unserBlob bits) (serBlob b) b := by
  intro rest
  have hlen := b.length_data
  have hnot : ¬(b.data ++ rest).length < bits / 8 := by
    rw [List.length_append]
    omega
  change unserBlob bits (b.data ++ rest) = _
  unfold unserBlob
  rw [dif_neg hnot]
  congr 1
  refine Prod.ext (BaseBlob.ext_data ?_) ?_
  · show (b.data ++ rest).take (bits / 8) = b.data
    rw [← hlen, List.take_left]
  · show (b.data ++ rest).drop (bits / 8) = rest
    rw [← hlen, List.drop_left]

theorem unserUInt32_canonical : Canonical unserUInt32 (fun _ => True) serUInt32 := by
  intro bytes a rest h
  obtain ⟨v, mid, hv, h⟩ := run_bind_eq_ok h
  obtain ⟨rfl, rfl⟩ := run_pure_eq_ok h
  obtain ⟨hlt, rfl⟩ := serReadData_canonical 4 hv
  refine ⟨trivial, ?_⟩
  rw [serUInt32, UInt32.toNat_ofNat_of_lt' hlt]

theorem unserUInt8_canonical : Canonical unserUInt8 (fun _ => True) serUInt8 := by
  intro bytes a rest h
  obtain ⟨v, mid, hv, h⟩ := run_bind_eq_ok h
  obtain ⟨rfl, rfl⟩ := run_pure_eq_ok h
  obtain ⟨hlt, rfl⟩ := serReadData_canonical 1 hv
  refine ⟨trivial, ?_⟩
  rw [serUInt8, UInt8.toNat_ofNat_of_lt' hlt]

theorem unserInt64_canonical : Canonical unserInt64 (fun _ => True) serInt64 := by
  intro bytes a rest h
  obtain ⟨v, mid, hv, h⟩ := run_bind_eq_ok h
  -- `a` is rewritten, not substituted: substituting it runs into the recursion limit on
  -- `CheckedInt.wrap 64 v`
  obtain ⟨ha, rfl⟩ := run_pure_eq_ok h
  obtain ⟨hlt, rfl⟩ := serReadData_canonical 8 hv
  refine ⟨trivial, ?_⟩
  rw [ha, serInt64, CheckedInt.toNat_wrap_emod (by omega)]

theorem unserBlob_canonical (bits : Nat) : Canonical (unserBlob bits) (fun _ => True) serBlob := by
  intro bytes b rest h
  by_cases hshort : bytes.length < bits / 8
  · have h' : (unserBlob bits).run bytes = .error "end of data" := dif_pos hshort
    rw [h'] at h
    cases h
  · have h' : (unserBlob bits).run bytes = .ok (⟨bytes.take (bits / 8),
        List.length_take_of_le (by omega)⟩, bytes.drop (bits / 8)) := dif_neg hshort
    rw [h'] at h
    cases h
    exact ⟨trivial, (List.take_append_drop _ bytes).symm⟩

-- ---------------------------------------------------------------------------
-- Byte vectors
-- ---------------------------------------------------------------------------

/-- `Serialize` of a byte vector or a byte `prevector` (a `CScript`): the size, then the
bytes. -/
def serBytes (v : List UInt8) : List UInt8 := writeCompactSize v.length ++ v

/-- The loop of `Unserialize` for a byte vector of `nSize` bytes, `i` of them read into
`v`: each block has `min(nSize - i, 1 + 4999999 / sizeof(T))` bytes, so that a bogus size
does not make it allocate much more than the data it was sent. -/
def readByteBlocks (nSize i : Nat) (v : List UInt8) : Reader (List UInt8) :=
  if _ : i < nSize then do
    let blk := min (nSize - i) (1 + 4999999 / 1)
    let bytes ← readBytes blk
    readByteBlocks nSize (i + blk) (v ++ bytes)
  else pure v
termination_by nSize - i
decreasing_by omega

/-- `Unserialize` of a byte vector or a byte `prevector`: the size, range checked, then the
bytes block by block. -/
def unserBytes : Reader (List UInt8) := do
  let nSize ← readCompactSize true
  readByteBlocks nSize 0 []

/-- The blocks from `i` on read the `nSize - i` bytes that are left in one go. -/
theorem readByteBlocks_run (nSize i : Nat) (v bytes : List UInt8) :
    (readByteBlocks nSize i v).run bytes =
      if bytes.length < nSize - i then .error "end of data"
      else .ok (v ++ bytes.take (nSize - i), bytes.drop (nSize - i)) := by
  fun_induction readByteBlocks nSize i v generalizing bytes with
  | case1 i v hi blk ih =>
    have hblk : blk = min (nSize - i) (1 + 4999999 / 1) := rfl
    rw [StateT.run_bind]
    by_cases hshort : bytes.length < blk
    · -- this block is cut short, and so is the whole read
      have hr : (readBytes blk).run bytes = .error "end of data" := if_pos hshort
      rw [hr, if_pos (by omega)]
      rfl
    · have hr : (readBytes blk).run bytes = .ok (bytes.take blk, bytes.drop blk) := if_neg hshort
      rw [hr]
      refine (ih _ _).trans ?_
      have hsplit : nSize - i = blk + (nSize - (i + blk)) := by omega
      rw [List.length_drop]
      by_cases hlong : bytes.length < nSize - i
      · rw [if_pos (by omega), if_pos hlong]
      · rw [if_neg (by omega), if_neg hlong, hsplit, List.take_add, List.drop_drop,
          List.append_assoc]
  | case2 i v hi =>
    rw [show nSize - i = 0 by omega, if_neg (Nat.not_lt_zero _), List.take_zero, List.drop_zero,
      List.append_nil]
    rfl

/-- Read from the start, the blocks are one read of `nSize` bytes. -/
theorem readByteBlocks_zero (nSize : Nat) : readByteBlocks nSize 0 [] = readBytes nSize := by
  funext bytes
  have h := readByteBlocks_run nSize 0 [] bytes
  rw [Nat.sub_zero, List.nil_append] at h
  exact h

theorem unserBytes_eq : unserBytes = (do let nSize ← readCompactSize true; readBytes nSize) := by
  unfold unserBytes
  simp only [readByteBlocks_zero]

theorem unserBytes_readsBack {v : List UInt8} (h : v.length ≤ MAX_SIZE) :
    ReadsBack unserBytes (serBytes v) v := by
  have hsize : v.length < 2 ^ 64 := by
    rw [MAX_SIZE] at h
    omega
  rw [unserBytes_eq]
  exact (readCompactSize_readsBack hsize fun _ => h).bind (readBytes_readsBack rfl)

theorem unserBytes_canonical : Canonical unserBytes (·.length ≤ MAX_SIZE) serBytes := by
  intro bytes v rest h
  rw [unserBytes_eq] at h
  obtain ⟨n, mid, hn, hread⟩ := run_bind_eq_ok h
  obtain ⟨⟨-, hmax⟩, rfl⟩ := readCompactSize_canonical true hn
  obtain ⟨hlen, rfl⟩ := readBytes_canonical n hread
  refine ⟨show v.length ≤ MAX_SIZE by rw [hlen]; exact hmax rfl, ?_⟩
  rw [serBytes, hlen, id, List.append_assoc]

-- ---------------------------------------------------------------------------
-- Outpoints, inputs and outputs
-- ---------------------------------------------------------------------------

/-- `COutPoint` (`SERIALIZE_METHODS`): `hash`, then `n`. -/
def serOutPoint (prevout : COutPoint) : List UInt8 := serBlob prevout.hash ++ serUInt32 prevout.n

def unserOutPoint : Reader COutPoint := do
  let hash ← unserBlob 256
  let n ← unserUInt32
  pure ⟨hash, n⟩

/-- `CScriptWitness`: the data elements that an input's witness pushes. -/
structure CScriptWitness where
  stack : List (List UInt8)
  deriving DecidableEq

/-- `CScriptWitness::IsNull`. -/
def CScriptWitness.isNull (w : CScriptWitness) : Bool := w.stack.isEmpty

/-- `CTxIn`. -/
structure CTxIn where
  prevout : COutPoint
  scriptSig : List UInt8
  nSequence : UInt32
  scriptWitness : CScriptWitness
  deriving DecidableEq

/-- `CTxIn` (`SERIALIZE_METHODS`): `prevout`, `scriptSig` and `nSequence`. The witness is
only serialized through the transaction. -/
def serTxIn (txin : CTxIn) : List UInt8 :=
  serOutPoint txin.prevout ++ serBytes txin.scriptSig ++ serUInt32 txin.nSequence

/-- A `CTxIn` read into the `CTxIn()` that `emplace_back` makes: its witness stays empty. -/
def unserTxIn : Reader CTxIn := do
  let prevout ← unserOutPoint
  let scriptSig ← unserBytes
  let nSequence ← unserUInt32
  pure ⟨prevout, scriptSig, nSequence, ⟨[]⟩⟩

/-- `CTxOut` (`SERIALIZE_METHODS`): `nValue`, then `scriptPubKey`. -/
def serTxOut (txout : CTxOut) : List UInt8 := serInt64 txout.nValue ++ serBytes txout.scriptPubKey

def unserTxOut : Reader CTxOut := do
  let nValue ← unserInt64
  let scriptPubKey ← unserBytes
  pure ⟨nValue, scriptPubKey⟩

/-- The input with its witness stack emptied, which is what it reads back as without its
witness. -/
def CTxIn.withoutWitness (txin : CTxIn) : CTxIn := { txin with scriptWitness := ⟨[]⟩ }

/-- An input the format carries: a script and a witness stack of at most `MAX_SIZE` items
each (the range check of `ReadCompactSize`). -/
structure CTxIn.Fits (txin : CTxIn) : Prop where
  scriptSig_le : txin.scriptSig.length ≤ MAX_SIZE
  stack_le : txin.scriptWitness.stack.length ≤ MAX_SIZE
  item_le : ∀ item ∈ txin.scriptWitness.stack, item.length ≤ MAX_SIZE

/-- The witness is not written with the input. -/
@[simp] theorem serTxIn_withoutWitness (txin : CTxIn) : serTxIn txin.withoutWitness = serTxIn txin :=
  rfl

theorem unserOutPoint_readsBack (prevout : COutPoint) :
    ReadsBack unserOutPoint (serOutPoint prevout) prevout :=
  (unserBlob_readsBack prevout.hash).bind
    ((unserUInt32_readsBack prevout.n).bind_end (ReadsBack.pure _))

theorem unserTxIn_readsBack {txin : CTxIn} (h : txin.scriptSig.length ≤ MAX_SIZE) :
    ReadsBack unserTxIn (serTxIn txin) txin.withoutWitness := by
  rw [serTxIn, List.append_assoc]
  exact (unserOutPoint_readsBack _).bind ((unserBytes_readsBack h).bind
    ((unserUInt32_readsBack _).bind_end (ReadsBack.pure _)))

theorem unserTxOut_readsBack {txout : CTxOut} (h : txout.Fits) :
    ReadsBack unserTxOut (serTxOut txout) txout :=
  (unserInt64_readsBack h.nValue_range).bind
    ((unserBytes_readsBack h.scriptPubKey_le).bind_end (ReadsBack.pure _))

theorem unserOutPoint_canonical : Canonical unserOutPoint (fun _ => True) serOutPoint := by
  intro bytes prevout rest h
  obtain ⟨hash, mid, hhash, h⟩ := run_bind_eq_ok h
  obtain ⟨n, mid', hn, h⟩ := run_bind_eq_ok h
  obtain ⟨rfl, rfl⟩ := run_pure_eq_ok h
  obtain ⟨-, rfl⟩ := unserBlob_canonical 256 hhash
  obtain ⟨-, rfl⟩ := unserUInt32_canonical hn
  exact ⟨trivial, by rw [serOutPoint, List.append_assoc]⟩

/-- An input read back has an empty witness. -/
theorem unserTxIn_canonical :
    Canonical unserTxIn (fun txin => txin.scriptWitness = ⟨[]⟩) serTxIn := by
  intro bytes txin rest h
  obtain ⟨prevout, mid, hprevout, h⟩ := run_bind_eq_ok h
  obtain ⟨scriptSig, mid', hscript, h⟩ := run_bind_eq_ok h
  obtain ⟨nSequence, mid'', hseq, h⟩ := run_bind_eq_ok h
  obtain ⟨rfl, rfl⟩ := run_pure_eq_ok h
  obtain ⟨-, rfl⟩ := unserOutPoint_canonical hprevout
  obtain ⟨-, rfl⟩ := unserBytes_canonical hscript
  obtain ⟨-, rfl⟩ := unserUInt32_canonical hseq
  exact ⟨rfl, by rw [serTxIn]; simp only [List.append_assoc]⟩

theorem unserTxOut_canonical : Canonical unserTxOut (fun _ => True) serTxOut := by
  intro bytes txout rest h
  obtain ⟨nValue, mid, hvalue, h⟩ := run_bind_eq_ok h
  obtain ⟨scriptPubKey, mid', hscript, h⟩ := run_bind_eq_ok h
  obtain ⟨rfl, rfl⟩ := run_pure_eq_ok h
  obtain ⟨-, rfl⟩ := unserInt64_canonical hvalue
  obtain ⟨-, rfl⟩ := unserBytes_canonical hscript
  exact ⟨trivial, by rw [serTxOut, List.append_assoc]⟩

-- ---------------------------------------------------------------------------
-- Witness stacks
-- ---------------------------------------------------------------------------

/-- `HasWitness()` of a transaction whose inputs are `vin`, the only field it reads: some
input has a witness stack that is not empty. -/
def hasWitness (vin : List CTxIn) : Bool := vin.any fun txin => !txin.scriptWitness.isNull

/-- The loop `s >> tx.vin[i].scriptWitness.stack` over the inputs: a vector of byte vectors
for each. -/
def readWitnessStacks : List CTxIn → Reader (List CTxIn)
  | [] => pure []
  | txin :: vin => do
    let stack ← vectorUnser unserBytes
    let vin ← readWitnessStacks vin
    pure ({ txin with scriptWitness := ⟨stack⟩ } :: vin)

/-- The witness stacks of the inputs, one after another, as the writer's loop writes them. -/
def serWitnessStacks (vin : List CTxIn) : List UInt8 :=
  vin.flatMap fun txin => vectorSer serBytes txin.scriptWitness.stack

theorem CScriptWitness.isNull_iff (w : CScriptWitness) : w.isNull = true ↔ w = ⟨[]⟩ := by
  cases w with
  | mk stack =>
    unfold CScriptWitness.isNull
    cases stack <;> simp

theorem hasWitness_eq_false_iff {vin : List CTxIn} :
    hasWitness vin = false ↔ ∀ txin ∈ vin, txin.scriptWitness = ⟨[]⟩ := by
  unfold hasWitness
  simp [CScriptWitness.isNull_iff]

theorem map_withoutWitness_eq_self {vin : List CTxIn} (h : hasWitness vin = false) :
    vin.map CTxIn.withoutWitness = vin := by
  calc vin.map CTxIn.withoutWitness = vin.map id := List.map_congr_left fun txin htxin => by
        rw [CTxIn.withoutWitness, ← hasWitness_eq_false_iff.mp h txin htxin]
        rfl
    _ = vin := List.map_id vin

theorem readWitnessStacks_readsBack {vin : List CTxIn} (h : ∀ txin ∈ vin, txin.Fits) :
    ReadsBack (readWitnessStacks (vin.map CTxIn.withoutWitness)) (serWitnessStacks vin) vin := by
  induction vin with
  | nil => exact ReadsBack.pure []
  | cons txin vin ih =>
    have hfit := h txin List.mem_cons_self
    have hstack : ReadsBack (vectorUnser unserBytes) (vectorSer serBytes txin.scriptWitness.stack)
        txin.scriptWitness.stack :=
      vectorUnser_readsBack hfit.stack_le fun item hitem => unserBytes_readsBack (hfit.item_le item hitem)
    have hrest := ih fun t ht => h t (List.mem_cons_of_mem txin ht)
    rw [List.map_cons, serWitnessStacks, List.flatMap_cons, ← List.append_nil (List.flatMap _ vin)]
    exact hstack.bind (hrest.bind (ReadsBack.pure _))

/-- The stacks read are written back by the writer's loop, onto the same inputs. -/
theorem readWitnessStacks_canonical {vin vin' : List CTxIn} {bytes rest : List UInt8}
    (h : (readWitnessStacks vin).run bytes = .ok (vin', rest)) :
    vin'.map CTxIn.withoutWitness = vin.map CTxIn.withoutWitness ∧
      bytes = serWitnessStacks vin' ++ rest := by
  induction vin generalizing bytes vin' with
  | nil =>
    obtain ⟨rfl, rfl⟩ := run_pure_eq_ok h
    exact ⟨rfl, rfl⟩
  | cons txin vin ih =>
    obtain ⟨stack, mid, hstack, h1⟩ := run_bind_eq_ok h
    obtain ⟨vin'', mid', hvin, h2⟩ := run_bind_eq_ok h1
    obtain ⟨rfl, rfl⟩ := run_pure_eq_ok h2
    obtain ⟨-, rfl⟩ := vectorUnser_canonical unserBytes_canonical hstack
    obtain ⟨hmap, rfl⟩ := ih hvin
    refine ⟨by rw [List.map_cons, List.map_cons, hmap]; rfl, ?_⟩
    unfold serWitnessStacks
    simp only [List.flatMap_cons, List.append_assoc]

-- ---------------------------------------------------------------------------
-- Transactions
-- ---------------------------------------------------------------------------

/-- `CMutableTransaction`. -/
structure CMutableTransaction where
  vin : List CTxIn
  vout : List CTxOut
  version : UInt32
  nLockTime : UInt32
  deriving DecidableEq

/-- `SerializeTransaction`. -/
def serializeTransaction (fAllowWitness : Bool) (tx : CMutableTransaction) : List UInt8 :=
  let flags : UInt8 := if fAllowWitness && hasWitness tx.vin then 1 else 0
  serUInt32 tx.version ++
    (if flags ≠ 0 then vectorSer serTxIn [] ++ serUInt8 flags else []) ++
    vectorSer serTxIn tx.vin ++ vectorSer serTxOut tx.vout ++
    (if flags &&& 1 ≠ 0 then serWitnessStacks tx.vin else []) ++
    serUInt32 tx.nLockTime

/-- `UnserializeTransaction` from `vin` to `vout`: the inputs; then, when there are none and
witnesses are allowed, the flags byte and, if it is not zero, the inputs and the outputs;
otherwise the outputs. Returns the flags, the inputs and the outputs. -/
def unserializeInputsOutputs (fAllowWitness : Bool) :
    Reader (UInt8 × List CTxIn × List CTxOut) := do
  let vin ← vectorUnser unserTxIn
  if vin.length == 0 && fAllowWitness then do
    let flags ← unserUInt8
    if flags ≠ 0 then do
      let vin ← vectorUnser unserTxIn
      let vout ← vectorUnser unserTxOut
      pure (flags, vin, vout)
    else pure (flags, vin, [])
  else do
    let vout ← vectorUnser unserTxOut
    pure (0, vin, vout)

/-- The witness section of `UnserializeTransaction`: when the flags have bit `0` and
witnesses are allowed, the bit is cleared and one witness stack is read for each input, and
stacks that are all empty are refused. -/
def unserializeWitnesses (fAllowWitness : Bool) (flags : UInt8) (vin : List CTxIn) :
    Reader (UInt8 × List CTxIn) :=
  if (flags &&& 1 != 0) && fAllowWitness then do
    let vin ← readWitnessStacks vin
    if !hasWitness vin then throw "Superfluous witness record"
    else pure (flags ^^^ 1, vin)
  else pure (flags, vin)

/-- `UnserializeTransaction`. -/
def unserializeTransaction (fAllowWitness : Bool) : Reader CMutableTransaction := do
  let version ← unserUInt32
  let (flags, vin, vout) ← unserializeInputsOutputs fAllowWitness
  let (flags, vin) ← unserializeWitnesses fAllowWitness flags vin
  if flags ≠ 0 then throw "Unknown transaction optional data"
  else do
    let nLockTime ← unserUInt32
    pure ⟨vin, vout, version, nLockTime⟩

/-- The transaction with every witness stack emptied: what it reads back as when witnesses
are not allowed. -/
def CMutableTransaction.withoutWitness (tx : CMutableTransaction) : CMutableTransaction :=
  { tx with vin := tx.vin.map CTxIn.withoutWitness }

/-- A transaction the format carries: at most `MAX_SIZE` inputs and outputs, each of which
the format carries. -/
structure CMutableTransaction.Fits (tx : CMutableTransaction) : Prop where
  vin_le : tx.vin.length ≤ MAX_SIZE
  vout_le : tx.vout.length ≤ MAX_SIZE
  txin_fits : ∀ txin ∈ tx.vin, txin.Fits
  txout_fits : ∀ txout ∈ tx.vout, txout.Fits

/-- The extended format: after the version, the marker (an empty vector of inputs) and the
flags `1`, and the witness stacks before the lock time. -/
theorem serializeTransaction_of_hasWitness {tx : CMutableTransaction}
    (h : hasWitness tx.vin = true) :
    serializeTransaction true tx = serUInt32 tx.version ++ (vectorSer serTxIn [] ++
      (serUInt8 1 ++ (vectorSer serTxIn tx.vin ++ vectorSer serTxOut tx.vout)) ++
      (serWitnessStacks tx.vin ++ serUInt32 tx.nLockTime)) := by
  unfold serializeTransaction
  simp only [h, Bool.and_self, if_true]
  rw [if_pos (by decide), if_pos (by decide)]
  simp only [List.append_assoc]

/-- The basic format, used when witnesses are not allowed or there are none. -/
theorem serializeTransaction_of_not_hasWitness {fAllowWitness : Bool} {tx : CMutableTransaction}
    (h : (fAllowWitness && hasWitness tx.vin) = false) :
    serializeTransaction fAllowWitness tx = serUInt32 tx.version ++
      ((vectorSer serTxIn tx.vin ++ vectorSer serTxOut tx.vout) ++ serUInt32 tx.nLockTime) := by
  unfold serializeTransaction
  simp only [h]
  rw [if_neg (by decide), if_neg (by decide)]
  simp only [List.append_assoc, List.append_nil]

-- ---------------------------------------------------------------------------
-- Round trip
-- ---------------------------------------------------------------------------

/-- The inputs are written the same with or without their witnesses. -/
@[simp] theorem vectorSer_serTxIn_map_withoutWitness (vin : List CTxIn) :
    vectorSer serTxIn (vin.map CTxIn.withoutWitness) = vectorSer serTxIn vin := by
  unfold vectorSer
  simp [List.flatMap_map]

/-- The inputs read back without their witnesses. -/
theorem vin_readsBack {vin : List CTxIn} (hlen : vin.length ≤ MAX_SIZE)
    (h : ∀ txin ∈ vin, txin.Fits) :
    ReadsBack (vectorUnser unserTxIn) (vectorSer serTxIn vin) (vin.map CTxIn.withoutWitness) := by
  rw [← vectorSer_serTxIn_map_withoutWitness]
  refine vectorUnser_readsBack (by rwa [List.length_map]) fun txin htxin => ?_
  obtain ⟨t, ht, rfl⟩ := List.mem_map.mp htxin
  exact unserTxIn_readsBack (h t ht).scriptSig_le

theorem vout_readsBack {vout : List CTxOut} (hlen : vout.length ≤ MAX_SIZE)
    (h : ∀ txout ∈ vout, txout.Fits) :
    ReadsBack (vectorUnser unserTxOut) (vectorSer serTxOut vout) vout :=
  vectorUnser_readsBack hlen fun txout htxout => unserTxOut_readsBack (h txout htxout)

/-- The inputs and outputs of the basic format read back, unless there are no inputs but
some outputs and witnesses are allowed: the output count is then taken for the flags. -/
theorem unserializeInputsOutputs_readsBack {fAllowWitness : Bool} {tx : CMutableTransaction}
    (hfit : tx.Fits) (hvin : fAllowWitness = true → tx.vin ≠ [] ∨ tx.vout = []) :
    ReadsBack (unserializeInputsOutputs fAllowWitness)
      (vectorSer serTxIn tx.vin ++ vectorSer serTxOut tx.vout)
      (0, tx.vin.map CTxIn.withoutWitness, tx.vout) := by
  refine (vin_readsBack hfit.vin_le hfit.txin_fits).bind ?_
  by_cases hc : ((tx.vin.map CTxIn.withoutWitness).length == 0 && fAllowWitness) = true
  · -- no inputs: the reader takes the output count for the flags, and it is zero
    rw [if_pos hc]
    obtain ⟨hnil, haw⟩ : tx.vin = [] ∧ fAllowWitness = true := by simpa using hc
    have hvout : tx.vout = [] := (hvin haw).resolve_left (not_not.mpr hnil)
    rw [hnil, hvout, show vectorSer serTxOut [] = serUInt8 0 from rfl,
      ← List.append_nil (serUInt8 0)]
    refine (unserUInt8_readsBack 0).bind ?_
    rw [if_neg (by decide)]
    exact ReadsBack.pure _
  · rw [if_neg hc]
    exact (vout_readsBack hfit.vout_le hfit.txout_fits).bind_end (ReadsBack.pure _)

/-- The inputs and outputs of the extended format read back, after the marker and the
flags. -/
theorem unserializeInputsOutputs_readsBack_extended {tx : CMutableTransaction} (hfit : tx.Fits) :
    ReadsBack (unserializeInputsOutputs true)
      (vectorSer serTxIn [] ++ (serUInt8 1 ++ (vectorSer serTxIn tx.vin ++ vectorSer serTxOut tx.vout)))
      (1, tx.vin.map CTxIn.withoutWitness, tx.vout) := by
  have hmarker : ReadsBack (vectorUnser unserTxIn) (vectorSer serTxIn []) [] :=
    vectorUnser_readsBack (Nat.zero_le _) fun _ h => absurd h List.not_mem_nil
  refine hmarker.bind ?_
  rw [if_pos (show (([] : List CTxIn).length == 0 && true) = true from rfl)]
  refine (unserUInt8_readsBack 1).bind ?_
  rw [if_pos (by decide), ← List.append_nil (vectorSer serTxOut tx.vout)]
  exact (vin_readsBack hfit.vin_le hfit.txin_fits).bind
    ((vout_readsBack hfit.vout_le hfit.txout_fits).bind (ReadsBack.pure _))

/-- The witness section of the extended format reads back onto the inputs. -/
theorem unserializeWitnesses_readsBack {tx : CMutableTransaction} (hfit : tx.Fits)
    (hw : hasWitness tx.vin = true) :
    ReadsBack (unserializeWitnesses true 1 (tx.vin.map CTxIn.withoutWitness))
      (serWitnessStacks tx.vin) (0, tx.vin) := by
  rw [unserializeWitnesses, if_pos (by decide)]
  refine (readWitnessStacks_readsBack hfit.txin_fits).bind_end ?_
  rw [hw, if_neg (by decide)]
  exact ReadsBack.pure _

/-- Without the flags bit there is no witness section. -/
theorem unserializeWitnesses_zero (fAllowWitness : Bool) (vin : List CTxIn) :
    ReadsBack (unserializeWitnesses fAllowWitness 0 vin) [] (0, vin) := by
  rw [unserializeWitnesses, if_neg (by cases fAllowWitness <;> decide)]
  exact ReadsBack.pure _

/-- A transaction reads back from its serialization, without its witnesses when they are
not allowed, unless witnesses are allowed and it has no inputs but some outputs. -/
theorem unserializeTransaction_readsBack {fAllowWitness : Bool} {tx : CMutableTransaction}
    (hfit : tx.Fits) (hvin : fAllowWitness = true → tx.vin ≠ [] ∨ tx.vout = []) :
    ReadsBack (unserializeTransaction fAllowWitness) (serializeTransaction fAllowWitness tx)
      (if fAllowWitness then tx else tx.withoutWitness) := by
  by_cases hext : (fAllowWitness && hasWitness tx.vin) = true
  · -- the extended format
    obtain ⟨rfl, hw⟩ : fAllowWitness = true ∧ hasWitness tx.vin = true := by simpa using hext
    rw [serializeTransaction_of_hasWitness hw, if_pos rfl]
    refine (unserUInt32_readsBack _).bind ((unserializeInputsOutputs_readsBack_extended hfit).bind
      ((unserializeWitnesses_readsBack hfit hw).bind ?_))
    dsimp only
    rw [if_neg (by decide)]
    exact (unserUInt32_readsBack _).bind_end (ReadsBack.pure _)
  · -- the basic format: the flags stay zero and no witness is read
    rw [Bool.not_eq_true] at hext
    rw [serializeTransaction_of_not_hasWitness hext, ← List.nil_append (serUInt32 tx.nLockTime)]
    refine (unserUInt32_readsBack _).bind ((unserializeInputsOutputs_readsBack hfit hvin).bind
      ((unserializeWitnesses_zero _ _).bind ?_))
    dsimp only
    rw [if_neg (by decide)]
    refine (unserUInt32_readsBack _).bind_end ?_
    cases fAllowWitness with
    | false => exact ReadsBack.pure _
    | true =>
      rw [if_pos rfl, map_withoutWitness_eq_self (by simpa using hext)]
      exact ReadsBack.pure _

-- ---------------------------------------------------------------------------
-- What the reader accepts
-- ---------------------------------------------------------------------------

/-- What `unserializeInputsOutputs` accepts: inputs without witnesses, and either the basic
layout with no flags, or, when witnesses are allowed, the marker and flags that are not
zero before the inputs and outputs. -/
theorem unserializeInputsOutputs_canonical {fAllowWitness : Bool} {bytes rest : List UInt8}
    {flags : UInt8} {vin : List CTxIn} {vout : List CTxOut}
    (h : (unserializeInputsOutputs fAllowWitness).run bytes = .ok ((flags, vin, vout), rest)) :
    (∀ txin ∈ vin, txin.scriptWitness = ⟨[]⟩) ∧
      ((flags = 0 ∧ (fAllowWitness = true → vin ≠ [] ∨ vout = []) ∧
          bytes = vectorSer serTxIn vin ++ (vectorSer serTxOut vout ++ rest)) ∨
        (fAllowWitness = true ∧ flags ≠ 0 ∧ bytes = vectorSer serTxIn [] ++
          (serUInt8 flags ++ (vectorSer serTxIn vin ++ (vectorSer serTxOut vout ++ rest))))) := by
  obtain ⟨vin₀, mid, hvin₀, h1⟩ := run_bind_eq_ok h
  obtain ⟨⟨-, hw₀⟩, rfl⟩ := vectorUnser_canonical unserTxIn_canonical hvin₀
  by_cases hc : (vin₀.length == 0 && fAllowWitness) = true
  · -- no inputs were read: the next byte is the flags
    rw [if_pos hc] at h1
    obtain ⟨rfl, rfl⟩ : vin₀ = [] ∧ fAllowWitness = true := by simpa using hc
    obtain ⟨f, mid', hf, h2⟩ := run_bind_eq_ok h1
    obtain ⟨-, rfl⟩ := unserUInt8_canonical hf
    by_cases hf0 : f ≠ 0
    · rw [if_pos hf0] at h2
      obtain ⟨vin₁, mid'', hvin₁, h3⟩ := run_bind_eq_ok h2
      obtain ⟨vout₁, mid''', hvout₁, h4⟩ := run_bind_eq_ok h3
      obtain ⟨hres, rfl⟩ := run_pure_eq_ok h4
      cases hres
      obtain ⟨⟨-, hw₁⟩, rfl⟩ := vectorUnser_canonical unserTxIn_canonical hvin₁
      obtain ⟨-, rfl⟩ := vectorUnser_canonical unserTxOut_canonical hvout₁
      exact ⟨hw₁, .inr ⟨rfl, hf0, rfl⟩⟩
    · -- flags zero: the byte was the count of an empty vector of outputs
      rw [if_neg hf0] at h2
      obtain ⟨hres, rfl⟩ := run_pure_eq_ok h2
      cases hres
      obtain rfl : flags = 0 := not_not.mp hf0
      exact ⟨hw₀, .inl ⟨rfl, fun _ => .inr rfl, rfl⟩⟩
  · rw [if_neg hc] at h1
    obtain ⟨vout₁, mid', hvout₁, h2⟩ := run_bind_eq_ok h1
    obtain ⟨hres, rfl⟩ := run_pure_eq_ok h2
    cases hres
    obtain ⟨-, rfl⟩ := vectorUnser_canonical unserTxOut_canonical hvout₁
    refine ⟨hw₀, .inl ⟨rfl, fun haw => .inl fun hnil => hc ?_, rfl⟩⟩
    rw [hnil, haw]
    rfl

/-- What the witness section accepts: with the flags bit and witnesses allowed, stacks for
the same inputs, not all empty, written one after another, and the bit cleared; otherwise
nothing. -/
theorem unserializeWitnesses_canonical {fAllowWitness : Bool} {flags flags' : UInt8}
    {vin vin' : List CTxIn} {bytes rest : List UInt8}
    (h : (unserializeWitnesses fAllowWitness flags vin).run bytes = .ok ((flags', vin'), rest)) :
    (((flags &&& 1 != 0) && fAllowWitness) = true ∧ flags' = flags ^^^ 1 ∧
        hasWitness vin' = true ∧ vin'.map CTxIn.withoutWitness = vin.map CTxIn.withoutWitness ∧
        bytes = serWitnessStacks vin' ++ rest) ∨
      (((flags &&& 1 != 0) && fAllowWitness) = false ∧ flags' = flags ∧ vin' = vin ∧
        rest = bytes) := by
  unfold unserializeWitnesses at h
  by_cases hc : ((flags &&& 1 != 0) && fAllowWitness) = true
  · rw [if_pos hc] at h
    obtain ⟨vin₁, mid, hvin₁, h1⟩ := run_bind_eq_ok h
    obtain ⟨hw, h2⟩ := run_ite_throw_eq_ok h1
    obtain ⟨hres, rfl⟩ := run_pure_eq_ok h2
    cases hres
    obtain ⟨hmap, rfl⟩ := readWitnessStacks_canonical hvin₁
    exact .inl ⟨hc, rfl, by simpa using hw, hmap, rfl⟩
  · rw [if_neg hc] at h
    obtain ⟨hres, rfl⟩ := run_pure_eq_ok h
    cases hres
    exact .inr ⟨by simpa using hc, rfl, rfl, rfl⟩

/-- The flags that clear to zero when bit `0` is cleared are `1`. -/
theorem eq_one_of_xor_one_eq_zero {flags : UInt8} (h : flags ^^^ 1 = 0) : flags = 1 := by
  have h' := congrArg (· ^^^ (1 : UInt8)) h
  simpa [UInt8.xor_assoc] using h'

/-- What `UnserializeTransaction` accepts with witnesses allowed is what
`SerializeTransaction` writes of the transaction it returns, and that transaction has
inputs or no outputs. -/
theorem unserializeTransaction_canonical {bytes rest : List UInt8} {tx : CMutableTransaction}
    (h : (unserializeTransaction true).run bytes = .ok (tx, rest)) :
    (tx.vin ≠ [] ∨ tx.vout = []) ∧ bytes = serializeTransaction true tx ++ rest := by
  obtain ⟨version, r1, hversion, h1⟩ := run_bind_eq_ok h
  obtain ⟨⟨flags, vin, vout⟩, r2, hio, h2⟩ := run_bind_eq_ok h1
  obtain ⟨⟨flags', vin'⟩, r3, hwit, h3⟩ := run_bind_eq_ok h2
  obtain ⟨hflags, h4⟩ := run_ite_throw_eq_ok h3
  obtain ⟨lock, r4, hlock, h5⟩ := run_bind_eq_ok h4
  obtain ⟨rfl, rfl⟩ := run_pure_eq_ok h5
  obtain ⟨-, rfl⟩ := unserUInt32_canonical hversion
  obtain ⟨-, rfl⟩ := unserUInt32_canonical hlock
  have hf0 : flags' = 0 := not_not.mp hflags
  obtain ⟨hempty, ⟨rfl, hne, rfl⟩ | ⟨-, hne, rfl⟩⟩ := unserializeInputsOutputs_canonical hio
  · -- the basic layout: no flags, so no witness section
    rcases unserializeWitnesses_canonical hwit with ⟨hc, -⟩ | ⟨-, -, rfl, rfl⟩
    · exact absurd hc (by decide)
    · have hw := hasWitness_eq_false_iff.mpr hempty
      refine ⟨hne rfl, ?_⟩
      rw [serializeTransaction_of_not_hasWitness (by simpa using hw)]
      simp only [List.append_assoc]
  · rcases unserializeWitnesses_canonical hwit with ⟨-, hxor, hw, hmap, rfl⟩ | ⟨-, rfl, -, -⟩
    · -- the extended layout: the flags are exactly `1`
      obtain rfl : flags = 1 := eq_one_of_xor_one_eq_zero (hxor ▸ hf0)
      have hvin : vectorSer serTxIn vin = vectorSer serTxIn vin' := by
        rw [← vectorSer_serTxIn_map_withoutWitness vin, ← hmap,
          vectorSer_serTxIn_map_withoutWitness]
      refine ⟨.inl fun hnil => ?_, ?_⟩
      · -- an input has a witness, so there are inputs
        change vin' = [] at hnil
        rw [hnil] at hw
        cases hw
      rw [serializeTransaction_of_hasWitness hw, hvin]
      simp only [List.append_assoc]
    · -- bit `0` clear: the flags are left and refused
      exact absurd hf0 hne

/-- After the version, the serialization of a transaction that has inputs or no outputs
starts with the marker and the flags, `0x00 0x01`, exactly when some input has a witness.
(Without inputs, one output written in the basic format would start the same way.) -/
theorem serializeTransaction_marker {tx : CMutableTransaction} (h : tx.vin ≠ [] ∨ tx.vout = [])
    (rest : List UInt8) :
    ((serializeTransaction true tx ++ rest).drop 4).take 2 = [0x00, 0x01] ↔
      hasWitness tx.vin = true := by
  have hlen : (serUInt32 tx.version).length = 4 := length_leBytes 4 _
  by_cases hw : hasWitness tx.vin = true
  · rw [serializeTransaction_of_hasWitness hw, List.append_assoc, List.drop_left' hlen]
    simp only [hw, iff_true]
    rfl
  · rw [serializeTransaction_of_not_hasWitness (by simpa using hw), List.append_assoc,
      List.drop_left' hlen]
    simp only [hw]
    by_cases hnil : tx.vin = []
    · -- no inputs and no outputs: two zero counts
      rw [hnil, h.resolve_left (not_not.mpr hnil), show vectorSer serTxIn [] = [0] from rfl,
        show vectorSer serTxOut [] = [0] from rfl]
      simp
    · -- the count of the inputs starts with a byte that is not zero
      obtain ⟨b, bs, hb, hb0⟩ := writeCompactSize_eq_cons (List.length_pos_iff.mpr hnil)
      rw [vectorSer, hb]
      simp [hb0]

theorem serializeTransaction_witness_round_trip :
    (∀ (fAllowWitness : Bool) (tx : CMutableTransaction), tx.Fits →
      (fAllowWitness = true → tx.vin ≠ [] ∨ tx.vout = []) →
      ReadsBack (unserializeTransaction fAllowWitness) (serializeTransaction fAllowWitness tx)
        (if fAllowWitness then tx else tx.withoutWitness)) ∧
    (∀ (bytes rest : List UInt8) (tx : CMutableTransaction),
      (unserializeTransaction true).run bytes = .ok (tx, rest) →
        bytes = serializeTransaction true tx ++ rest ∧
          ((bytes.drop 4).take 2 = [0x00, 0x01] ↔ hasWitness tx.vin = true)) := by
  refine ⟨fun _ _ hfit hvin => unserializeTransaction_readsBack hfit hvin, ?_⟩
  intro bytes rest tx h
  obtain ⟨hne, hbytes⟩ := unserializeTransaction_canonical h
  refine ⟨hbytes, ?_⟩
  rw [hbytes]
  exact serializeTransaction_marker hne rest

/-- An input with a one-item witness and one output: the transaction fits the format and,
written with its witness, reads back. -/
theorem serializeTransaction_witness_round_trip_sample :
    let tx : CMutableTransaction :=
      ⟨[⟨⟨BaseBlob.zero 256, 0⟩, [], 0xffffffff, ⟨[[1]]⟩⟩], [⟨5, [0x51]⟩], 2, 0⟩
    tx.Fits ∧ ReadsBack (unserializeTransaction true) (serializeTransaction true tx) tx := by
  intro tx
  have hfit : tx.Fits := by
    refine ⟨by decide, by decide, ?_, ?_⟩
    · intro txin htxin
      rw [List.mem_singleton.mp htxin]
      exact ⟨by decide, by decide, fun item hitem => by rw [List.mem_singleton.mp hitem]; decide⟩
    · intro txout htxout
      rw [List.mem_singleton.mp htxout]
      exact ⟨⟨by decide, by decide⟩, by decide⟩
  exact ⟨hfit, serializeTransaction_witness_round_trip.1 true tx hfit fun _ => .inl (by simp [tx])⟩

end Primitives

end Riecoin
