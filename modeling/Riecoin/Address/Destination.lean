-- SUMMARY: CTxDestination, ExtractDestination and GetScriptForDestination of addresstype.cpp; a destination extracted from a script rebuilds that script.
import Riecoin.Script.Solver
import Riecoin.Base.Uint256

/-!
# Destinations

A `CTxDestination` is what an address stands for. `ExtractDestination` reads it off a
script through `Solver` and says whether the script has an address; `GetScriptForDestination`
builds the script back. `PayToAnchor` derives from `WitnessUnknown` and has no visitor
case of its own, so its script is the one of the witness program `(1, ANCHOR_BYTES)`.

`extractDestination_true` says that an extracted destination is `Addressable` and that
its script is the one it came from.
-/

namespace Riecoin

/-- A blob whose first bytes are `bytes` and the rest zero: `std::copy` of `bytes` into a
new blob, and the constructor from a span of the blob's width. -/
def BaseBlob.copyFrom (bits : Nat) (bytes : List UInt8) : BaseBlob bits :=
  ⟨(bytes ++ List.replicate (bits / 8) 0).take (bits / 8), by simp⟩

theorem BaseBlob.copyFrom_data {bits : Nat} {bytes : List UInt8} (h : bytes.length = bits / 8) :
    (BaseBlob.copyFrom bits bytes).data = bytes := by
  simp [BaseBlob.copyFrom, ← h]

inductive CTxDestination where
  | noDestination (script : List UInt8)
  | pubKeyDestination (pubkey : List UInt8)
  | pkHash (hash : Uint160)
  | scriptHash (hash : Uint160)
  | witnessV0ScriptHash (hash : Uint256)
  | witnessV0KeyHash (hash : Uint160)
  | witnessV1Taproot (key : Uint256)
  | payToAnchor
  | witnessUnknown (version : Nat) (program : List UInt8)
  deriving DecidableEq

/-- `ExtractDestination`: whether the script has an address, and the destination it
assigns. A `CPubKey` built from bytes is valid exactly when they have a valid size. -/
def extractDestination (scriptPubKey : List UInt8) : Bool × CTxDestination :=
  let (whichType, vSolutions) := solver scriptPubKey
  match whichType with
  | .PUBKEY =>
    let pubKey := vSolutions.headD []
    if CPubKey.validSize pubKey then (false, .pubKeyDestination pubKey)
    else (false, .noDestination scriptPubKey)
  | .PUBKEYHASH => (true, .pkHash (BaseBlob.copyFrom 160 (vSolutions.headD [])))
  | .SCRIPTHASH => (true, .scriptHash (BaseBlob.copyFrom 160 (vSolutions.headD [])))
  | .WITNESS_V0_KEYHASH => (true, .witnessV0KeyHash (BaseBlob.copyFrom 160 (vSolutions.headD [])))
  | .WITNESS_V0_SCRIPTHASH =>
    (true, .witnessV0ScriptHash (BaseBlob.copyFrom 256 (vSolutions.headD [])))
  | .WITNESS_V1_TAPROOT => (true, .witnessV1Taproot (BaseBlob.copyFrom 256 (vSolutions.headD [])))
  | .ANCHOR => (true, .payToAnchor)
  | .WITNESS_UNKNOWN =>
    (true, .witnessUnknown ((vSolutions.headD []).headD 0).toNat (vSolutions.getD 1 []))
  | .MULTISIG | .NULL_DATA | .NONSTANDARD => (false, .noDestination scriptPubKey)

/-- `GetScriptForDestination`, the cases of `CScriptVisitor`. -/
def getScriptForDestination : CTxDestination → List UInt8
  | .noDestination script => script
  | .pubKeyDestination pubkey => pushData pubkey ++ [OP_CHECKSIG]
  | .pkHash hash => [OP_DUP, OP_HASH160] ++ pushData hash.data ++ [OP_EQUALVERIFY, OP_CHECKSIG]
  | .scriptHash hash => [OP_HASH160] ++ pushData hash.data ++ [OP_EQUAL]
  | .witnessV0ScriptHash hash => [OP_0] ++ pushData hash.data
  | .witnessV0KeyHash hash => [OP_0] ++ pushData hash.data
  | .witnessV1Taproot key => [OP_1] ++ pushData key.data
  | .payToAnchor => [encodeOP_N 1] ++ pushData ANCHOR_BYTES
  | .witnessUnknown version program => [encodeOP_N version] ++ pushData program

/-- The destinations that have an address: those `ExtractDestination` accepts. -/
def Addressable : CTxDestination → Prop
  | .pkHash _ | .scriptHash _ | .witnessV0ScriptHash _ | .witnessV0KeyHash _
  | .witnessV1Taproot _ | .payToAnchor => True
  | .witnessUnknown version program =>
    1 ≤ version ∧ version ≤ 16 ∧ 2 ≤ program.length ∧ program.length ≤ 40 ∧
      ¬(version = 1 ∧ program.length = WITNESS_V1_TAPROOT_SIZE) ∧
      isPayToAnchorProgram version program = false
  | .noDestination _ | .pubKeyDestination _ => False

/-- The anchor program read as a script is the anchor template. -/
theorem isPayToAnchor_of_program {v : Nat} {p : List UInt8} (h : isPayToAnchorProgram v p = true) :
    isPayToAnchor ([encodeOP_N v] ++ pushData p) = true := by
  simp only [isPayToAnchorProgram, Bool.and_eq_true, beq_iff_eq] at h
  obtain ⟨⟨⟨rfl, hlen⟩, h0⟩, h1⟩ := h
  match p, hlen with
  | [a, b], _ =>
    simp only [List.getElem?_cons_zero, List.getElem?_cons_succ, Option.some.injEq] at h0 h1
    subst h0 h1
    decide

/-- A destination extracted from a script has an address, and its script is that
script. -/
theorem extractDestination_true {s : List UInt8} {d : CTxDestination}
    (h : extractDestination s = (true, d)) : Addressable d ∧ getScriptForDestination d = s := by
  unfold extractDestination at h
  rcases hs : solver s with ⟨whichType, sols⟩
  rw [hs] at h
  cases whichType with
  | PUBKEY =>
    dsimp only at h
    split at h <;> cases h
  | PUBKEYHASH =>
    obtain ⟨hash, hmatch, rfl⟩ := solver_eq_pubkeyhash hs
    obtain ⟨hlen, hshape⟩ := matchPayToPubkeyHash_eq_some hmatch
    cases h
    exact ⟨trivial, by rw [getScriptForDestination, List.headD_cons, BaseBlob.copyFrom_data hlen, hshape]⟩
  | SCRIPTHASH =>
    obtain ⟨hp2sh, rfl⟩ := solver_eq_scripthash hs
    obtain ⟨hlen, hshape⟩ := isPayToScriptHash_eq_true hp2sh
    cases h
    exact ⟨trivial, by rw [getScriptForDestination, List.headD_cons, BaseBlob.copyFrom_data hlen, ← hshape]⟩
  | WITNESS_V0_KEYHASH =>
    obtain ⟨p, hwp, hlen, rfl⟩ := solver_eq_witness_v0_keyhash hs
    obtain ⟨-, -, -, hshape⟩ := isWitnessProgram_eq_some hwp
    cases h
    exact ⟨trivial, by rw [getScriptForDestination, List.headD_cons, BaseBlob.copyFrom_data hlen, hshape]; rfl⟩
  | WITNESS_V0_SCRIPTHASH =>
    obtain ⟨p, hwp, hlen, rfl⟩ := solver_eq_witness_v0_scripthash hs
    obtain ⟨-, -, -, hshape⟩ := isWitnessProgram_eq_some hwp
    cases h
    exact ⟨trivial, by rw [getScriptForDestination, List.headD_cons, BaseBlob.copyFrom_data hlen, hshape]; rfl⟩
  | WITNESS_V1_TAPROOT =>
    obtain ⟨p, hwp, hlen, rfl⟩ := solver_eq_witness_v1_taproot hs
    obtain ⟨-, -, -, hshape⟩ := isWitnessProgram_eq_some hwp
    cases h
    exact ⟨trivial, by rw [getScriptForDestination, List.headD_cons, BaseBlob.copyFrom_data hlen, hshape]; rfl⟩
  | ANCHOR =>
    obtain ⟨hanchor, rfl⟩ := solver_eq_anchor hs
    cases h
    exact ⟨trivial, by rw [isPayToAnchor_eq_true hanchor]; rfl⟩
  | WITNESS_UNKNOWN =>
    obtain ⟨v, p, hwp, hv0, htap, hanchor, rfl⟩ := solver_eq_witness_unknown hs
    obtain ⟨hv16, hlo, hhi, hshape⟩ := isWitnessProgram_eq_some hwp
    cases h
    have hv : (UInt8.ofNat v).toNat = v := by
      rw [UInt8.toNat_ofNat']
      omega
    simp only [List.headD_cons, List.getD_cons_succ, List.getD_cons_zero, hv]
    refine ⟨⟨by omega, hv16, hlo, hhi, htap, ?_⟩, hshape.symm⟩
    -- an anchor program would have made the script an anchor
    cases hprog : isPayToAnchorProgram v p
    · rfl
    · have := isPayToAnchor_of_program hprog
      rw [List.singleton_append, ← hshape] at this
      rw [this] at hanchor
      cases hanchor
  | MULTISIG => cases h
  | NULL_DATA => cases h
  | NONSTANDARD => cases h

end Riecoin
