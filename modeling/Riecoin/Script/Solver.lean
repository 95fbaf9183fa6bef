-- SUMMARY: Script opcodes, GetScriptOp, the standard templates of script.cpp and the Solver of script/solver.cpp, with the shape of every script Solver classifies as an addressable type.
import Riecoin.Coins.Coin
import Riecoin.Lib.Bytes

/-!
# Standard scripts

`Solver` (`script/solver.cpp`) sorts a `scriptPubKey` into a `TxoutType` and returns the
data the template carries: the hash of a P2SH or P2PKH script, the program of a witness
script, the keys of a bare multisig script. The tests run in the order of the source:
P2SH, witness programs (by version and size, anchors, other versions), `OP_RETURN` data,
P2PK, P2PKH, multisig. The multisig and data tests parse the script with `GetScriptOp`.

For each type that has an address, a lemma says exactly which scripts `Solver` gives it:
the template with the solution in its place (`solver_eq_pubkeyhash` and the ones after
it). The address code builds its scripts from these shapes.
-/

namespace Riecoin

-- ---------------------------------------------------------------------------
-- Opcodes and pushes
-- ---------------------------------------------------------------------------

/-- `OP_0`, also `OP_FALSE`. -/
def OP_0 : UInt8 := 0x00
/-- `OP_PUSHDATA1`. -/
def OP_PUSHDATA1 : UInt8 := 0x4c
/-- `OP_PUSHDATA2`. -/
def OP_PUSHDATA2 : UInt8 := 0x4d
/-- `OP_PUSHDATA4`. -/
def OP_PUSHDATA4 : UInt8 := 0x4e
/-- `OP_1`. -/
def OP_1 : UInt8 := 0x51
/-- `OP_16`. -/
def OP_16 : UInt8 := 0x60
/-- `OP_DUP`. -/
def OP_DUP : UInt8 := 0x76
/-- `OP_EQUAL`. -/
def OP_EQUAL : UInt8 := 0x87
/-- `OP_EQUALVERIFY`. -/
def OP_EQUALVERIFY : UInt8 := 0x88
/-- `OP_HASH160`. -/
def OP_HASH160 : UInt8 := 0xa9
/-- `OP_CHECKSIG`. -/
def OP_CHECKSIG : UInt8 := 0xac
/-- `OP_CHECKMULTISIG`. -/
def OP_CHECKMULTISIG : UInt8 := 0xae
/-- `OP_INVALIDOPCODE`. -/
def OP_INVALIDOPCODE : UInt8 := 0xff

/-- `MAX_PUBKEYS_PER_MULTISIG`. -/
def MAX_PUBKEYS_PER_MULTISIG : Int := 20
/-- `WITNESS_V0_KEYHASH_SIZE`. -/
def WITNESS_V0_KEYHASH_SIZE : Nat := 20
/-- `WITNESS_V0_SCRIPTHASH_SIZE`. -/
def WITNESS_V0_SCRIPTHASH_SIZE : Nat := 32
/-- `WITNESS_V1_TAPROOT_SIZE`. -/
def WITNESS_V1_TAPROOT_SIZE : Nat := 32
/-- `ANCHOR_BYTES`, the program of a pay-to-anchor output. -/
def ANCHOR_BYTES : List UInt8 := [0x4e, 0x73]

/-- `CScript::DecodeOP_N`, for `OP_0` and `OP_1` to `OP_16`. -/
def decodeOP_N (opcode : UInt8) : Nat :=
  if opcode = OP_0 then 0 else opcode.toNat - (OP_1.toNat - 1)

/-- `CScript::EncodeOP_N`, for `0` to `16`. -/
def encodeOP_N (n : Nat) : UInt8 :=
  if n = 0 then OP_0 else UInt8.ofNat (OP_1.toNat + n - 1)

/-- `CScript::AppendDataSize`: the push opcode, then the size where it does not fit in
the opcode. -/
def appendDataSize (size : Nat) : List UInt8 :=
  if size < OP_PUSHDATA1.toNat then [UInt8.ofNat size]
  else if size ≤ 0xff then [OP_PUSHDATA1, UInt8.ofNat size]
  else if size ≤ 0xffff then [OP_PUSHDATA2, UInt8.ofNat size, UInt8.ofNat (size >>> 8)]
  else
    [OP_PUSHDATA4, UInt8.ofNat size, UInt8.ofNat (size >>> 8), UInt8.ofNat (size >>> 16),
      UInt8.ofNat (size >>> 24)]

/-- `CScript << data` for a byte vector: `AppendDataSize` and the bytes. -/
def pushData (data : List UInt8) : List UInt8 :=
  appendDataSize data.length ++ data

/-- The size an opcode up to `OP_PUSHDATA4` pushes, read from the bytes `pc` after it,
and the bytes after the size; `none` when the size runs past the end. -/
def readPushSize (opcode : UInt8) (pc : List UInt8) : Option (Nat × List UInt8) :=
  if opcode < OP_PUSHDATA1 then some (opcode.toNat, pc)
  else if opcode = OP_PUSHDATA1 then
    if pc.length < 1 then none else some (Bytes.leValue (pc.take 1), pc.drop 1)
  else if opcode = OP_PUSHDATA2 then
    if pc.length < 2 then none else some (Bytes.leValue (pc.take 2), pc.drop 2)
  else
    if pc.length < 4 then none else some (Bytes.leValue (pc.take 4), pc.drop 4)

/-- `GetScriptOp`: the opcode at the front of the script, the data it pushes and the rest
of the script; `none` on an empty script or a push that runs past the end (where the
source leaves `OP_INVALIDOPCODE` and no data). -/
def getScriptOp : List UInt8 → Option (UInt8 × List UInt8 × List UInt8)
  | [] => none
  | opcode :: pc =>
    if opcode ≤ OP_PUSHDATA4 then
      match readPushSize opcode pc with
      | none => none
      | some (nSize, pc) =>
        if pc.length < nSize then none else some (opcode, pc.take nSize, pc.drop nSize)
    else some (opcode, [], pc)

theorem readPushSize_length {opcode : UInt8} {pc pc' : List UInt8} {nSize : Nat}
    (h : readPushSize opcode pc = some (nSize, pc')) : pc'.length ≤ pc.length := by
  unfold readPushSize at h
  split at h
  · cases h
    exact Nat.le_refl _
  · split at h
    · split at h
      · cases h
      · cases h
        simp
    · split at h
      · split at h
        · cases h
        · cases h
          simp
      · split at h
        · cases h
        · cases h
          simp

/-- Every opcode takes at least its own byte. -/
theorem getScriptOp_length_lt {script : List UInt8} {opcode : UInt8} {data rest : List UInt8}
    (h : getScriptOp script = some (opcode, data, rest)) : rest.length < script.length := by
  cases script with
  | nil => cases h
  | cons op pc =>
    rw [getScriptOp] at h
    by_cases hop : op ≤ OP_PUSHDATA4
    · rw [if_pos hop] at h
      -- a push: the data and the rest come after the size bytes
      cases hsize : readPushSize op pc with
      | none =>
        rw [hsize] at h
        cases h
      | some p =>
        obtain ⟨nSize, pc'⟩ := p
        rw [hsize] at h
        dsimp only at h
        have hle := readPushSize_length hsize
        split at h
        · cases h
        · cases h
          simp only [List.length_drop, List.length_cons]
          omega
    · rw [if_neg hop] at h
      cases h
      simp

/-- `CScript::IsPushOnly`: every opcode parses and is at most `OP_16`. -/
def isPushOnly (script : List UInt8) : Bool :=
  if script.isEmpty then true
  else
    match h : getScriptOp script with
    | none => false
    | some (opcode, _, rest) => if opcode > OP_16 then false else isPushOnly rest
termination_by script.length
decreasing_by exact getScriptOp_length_lt h

-- ---------------------------------------------------------------------------
-- Templates
-- ---------------------------------------------------------------------------

/-- `CScript::IsPayToScriptHash`: `OP_HASH160 <20 bytes> OP_EQUAL`. -/
def isPayToScriptHash (script : List UInt8) : Bool :=
  script.length == 23 && script[0]? == some OP_HASH160 && script[1]? == some 0x14 &&
    script[22]? == some OP_EQUAL

/-- `CScript::IsPayToAnchor()`: `OP_1 <0x4e73>`. -/
def isPayToAnchor (script : List UInt8) : Bool :=
  script.length == 4 && script[0]? == some OP_1 && script[1]? == some 0x02 &&
    script[2]? == some 0x4e && script[3]? == some 0x73

/-- `CScript::IsPayToAnchor(version, program)`, the overload on a parsed witness
program. -/
def isPayToAnchorProgram (version : Nat) (program : List UInt8) : Bool :=
  version == 1 && program.length == 2 && program[0]? == some 0x4e && program[1]? == some 0x73

/-- `CScript::IsWitnessProgram`: a version opcode and one direct push of the rest, 4 to
42 bytes in all; the version and the program. -/
def isWitnessProgram (script : List UInt8) : Option (Nat × List UInt8) :=
  if script.length < 4 ∨ script.length > 42 then none
  else
    match script with
    | opcode :: size :: program =>
      if opcode ≠ OP_0 ∧ (opcode < OP_1 ∨ opcode > OP_16) then none
      else if size.toNat + 2 = script.length then some (decodeOP_N opcode, program)
      else none
    | _ => none

namespace CPubKey

/-- `CPubKey::SIZE`. -/
def SIZE : Nat := 65
/-- `CPubKey::COMPRESSED_SIZE`. -/
def COMPRESSED_SIZE : Nat := 33

/-- `CPubKey::GetLen`: the key length its header byte announces. -/
def getLen (chHeader : UInt8) : Nat :=
  if chHeader = 2 ∨ chHeader = 3 then COMPRESSED_SIZE
  else if chHeader = 4 ∨ chHeader = 6 ∨ chHeader = 7 then SIZE
  else 0

/-- `CPubKey::ValidSize`. -/
def validSize (vch : List UInt8) : Bool :=
  vch.length > 0 && getLen (vch.headD 0) == vch.length

end CPubKey

/-- `MatchPayToPubkey`: `<key> OP_CHECKSIG` with a key of either size. -/
def matchPayToPubkey (script : List UInt8) : Option (List UInt8) :=
  if script.length = CPubKey.SIZE + 2 ∧ script[0]? = some (UInt8.ofNat CPubKey.SIZE) ∧
      script.getLast? = some OP_CHECKSIG then
    let pubkey := (script.drop 1).take CPubKey.SIZE
    if CPubKey.validSize pubkey then some pubkey else none
  else if script.length = CPubKey.COMPRESSED_SIZE + 2 ∧
      script[0]? = some (UInt8.ofNat CPubKey.COMPRESSED_SIZE) ∧ script.getLast? = some OP_CHECKSIG then
    let pubkey := (script.drop 1).take CPubKey.COMPRESSED_SIZE
    if CPubKey.validSize pubkey then some pubkey else none
  else none

/-- `MatchPayToPubkeyHash`: `OP_DUP OP_HASH160 <20 bytes> OP_EQUALVERIFY OP_CHECKSIG`. -/
def matchPayToPubkeyHash (script : List UInt8) : Option (List UInt8) :=
  if script.length = 25 ∧ script[0]? = some OP_DUP ∧ script[1]? = some OP_HASH160 ∧
      script[2]? = some 20 ∧ script[23]? = some OP_EQUALVERIFY ∧ script[24]? = some OP_CHECKSIG then
    some ((script.drop 3).take 20)
  else none

/-- `IsSmallInteger`: `OP_1` to `OP_16`. -/
def isSmallInteger (opcode : UInt8) : Bool :=
  OP_1 ≤ opcode && opcode ≤ OP_16

/-- `IsPushdataOp`: a push of one or more bytes. -/
def isPushdataOp (opcode : UInt8) : Bool :=
  opcode > OP_0 && opcode ≤ OP_PUSHDATA4

/-- `CheckMinimalPush`: the data is pushed with the shortest opcode. -/
def checkMinimalPush (data : List UInt8) (opcode : UInt8) : Bool :=
  if data.length = 0 then opcode == OP_0
  else if data.length = 1 ∧ 1 ≤ data.headD 0 ∧ data.headD 0 ≤ 16 then false
  else if data.length = 1 ∧ data.headD 0 = 0x81 then false
  else if data.length ≤ 75 then opcode.toNat == data.length
  else if data.length ≤ 255 then opcode == OP_PUSHDATA1
  else if data.length ≤ 65535 then opcode == OP_PUSHDATA2
  else true

/-- `CScriptNum::set_vch`: the little-endian magnitude, negative when the top bit of the
last byte is set (that bit cleared). -/
def scriptNumSetVch (vch : List UInt8) : Int :=
  match vch.getLast? with
  | none => 0
  | some last =>
    let result := Bytes.leValue vch
    if last &&& 0x80 ≠ 0 then -((result - (0x80 <<< (8 * (vch.length - 1))) : Nat) : Int)
    else result

/-- `CScriptNum(vch, true)` with the default limit of four bytes; `none` where the
constructor throws `scriptnum_error`. -/
def scriptNumOfVch (vch : List UInt8) : Option Int :=
  if vch.length > 4 then none
  else if vch.length > 0 ∧ vch.getLastD 0 &&& 0x7f = 0 ∧
      (vch.length ≤ 1 ∨ (vch.getD (vch.length - 2) 0) &&& 0x80 = 0) then none
  else some (scriptNumSetVch vch)

/-- `CScriptNum::getint`: the value clamped to the range of `int`. -/
def getint (n : Int) : Int :=
  max (min n 2147483647) (-2147483648)

/-- `GetScriptNumber`: the number an `OP_N` or a minimal push denotes, if it lies in
`[min, max]`. -/
def getScriptNumber (opcode : UInt8) (data : List UInt8) (min max : Int) : Option Int :=
  let count : Option Int :=
    if isSmallInteger opcode then some (decodeOP_N opcode)
    else if isPushdataOp opcode then
      if !checkMinimalPush data opcode then none else (scriptNumOfVch data).map getint
    else none
  match count with
  | none => none
  | some count => if count < min ∨ count > max then none else some count

/-- The key loop of `MatchMultisig`: the pushes of valid public keys from the front of
the script, then the opcode and data of the op that ended the loop and the script after
it (`OP_INVALIDOPCODE` and no data when an op fails to parse). -/
def multisigKeys (script : List UInt8) : List (List UInt8) × UInt8 × List UInt8 × List UInt8 :=
  match h : getScriptOp script with
  | none => ([], OP_INVALIDOPCODE, [], script)
  | some (opcode, data, rest) =>
    if CPubKey.validSize data then
      let (keys, last) := multisigKeys rest
      (data :: keys, last)
    else ([], opcode, data, rest)
termination_by script.length
decreasing_by exact getScriptOp_length_lt h

/-- `MatchMultisig`: `<m> <key>... <n> OP_CHECKMULTISIG`; the required count and the
keys. -/
def matchMultisig (script : List UInt8) : Option (Int × List (List UInt8)) :=
  if script.length < 1 ∨ script.getLast? ≠ some OP_CHECKMULTISIG then none
  else
    match getScriptOp script with
    | none => none
    | some (opcode, data, rest) =>
      match getScriptNumber opcode data 1 MAX_PUBKEYS_PER_MULTISIG with
      | none => none
      | some required_sigs =>
        let (pubkeys, opcode, data, rest) := multisigKeys rest
        match getScriptNumber opcode data required_sigs MAX_PUBKEYS_PER_MULTISIG with
        | none => none
        | some num_keys =>
          if (pubkeys.length : Int) ≠ num_keys then none
          else if rest.length = 1 then some (required_sigs, pubkeys) else none

-- ---------------------------------------------------------------------------
-- Solver
-- ---------------------------------------------------------------------------

/-- `TxoutType`. -/
inductive TxoutType where
  | NONSTANDARD
  | ANCHOR
  | PUBKEY
  | PUBKEYHASH
  | SCRIPTHASH
  | MULTISIG
  | NULL_DATA
  | WITNESS_V0_SCRIPTHASH
  | WITNESS_V0_KEYHASH
  | WITNESS_V1_TAPROOT
  | WITNESS_UNKNOWN
  deriving DecidableEq, Repr

/-- `Solver`: the type of the script and `vSolutionsRet`. -/
def solver (scriptPubKey : List UInt8) : TxoutType × List (List UInt8) :=
  if isPayToScriptHash scriptPubKey then (.SCRIPTHASH, [(scriptPubKey.drop 2).take 20])
  else
    match isWitnessProgram scriptPubKey with
    | some (witnessversion, witnessprogram) =>
      if witnessversion = 0 ∧ witnessprogram.length = WITNESS_V0_KEYHASH_SIZE then
        (.WITNESS_V0_KEYHASH, [witnessprogram])
      else if witnessversion = 0 ∧ witnessprogram.length = WITNESS_V0_SCRIPTHASH_SIZE then
        (.WITNESS_V0_SCRIPTHASH, [witnessprogram])
      else if witnessversion = 1 ∧ witnessprogram.length = WITNESS_V1_TAPROOT_SIZE then
        (.WITNESS_V1_TAPROOT, [witnessprogram])
      else if isPayToAnchor scriptPubKey then (.ANCHOR, [])
      else if witnessversion ≠ 0 then
        (.WITNESS_UNKNOWN, [[UInt8.ofNat witnessversion], witnessprogram])
      else (.NONSTANDARD, [])
    | none =>
      if scriptPubKey.length ≥ 1 ∧ scriptPubKey[0]? = some OP_RETURN ∧
          isPushOnly (scriptPubKey.drop 1) then (.NULL_DATA, [])
      else
        match matchPayToPubkey scriptPubKey with
        | some data => (.PUBKEY, [data])
        | none =>
          match matchPayToPubkeyHash scriptPubKey with
          | some data => (.PUBKEYHASH, [data])
          | none =>
            match matchMultisig scriptPubKey with
            | some (required, keys) =>
              (.MULTISIG, [UInt8.ofNat required.toNat] :: keys ++ [[UInt8.ofNat keys.length]])
            | none => (.NONSTANDARD, [])

-- ---------------------------------------------------------------------------
-- The addressable types
-- ---------------------------------------------------------------------------

/-- A list of the right length that agrees with `pre` at its start and with `post` at its
end is `pre`, the `n` bytes in between, and `post`. -/
theorem eq_template {s pre post : List UInt8} {n : Nat}
    (hlen : s.length = pre.length + n + post.length)
    (hpre : ∀ i < pre.length, s[i]? = pre[i]?)
    (hpost : ∀ i < post.length, s[pre.length + n + i]? = post[i]?) :
    s = pre ++ (s.drop pre.length).take n ++ post := by
  have htake : s.take pre.length = pre := by
    refine List.ext_getElem? fun i => ?_
    rw [List.getElem?_take]
    split
    · exact hpre i ‹_›
    · exact (List.getElem?_eq_none (by omega)).symm
  have hdrop : s.drop (pre.length + n) = post := by
    refine List.ext_getElem? fun i => ?_
    rw [List.getElem?_drop]
    by_cases hi : i < post.length
    · exact hpost i hi
    · rw [List.getElem?_eq_none (by omega), List.getElem?_eq_none (by omega)]
  conv => lhs; rw [← List.take_append_drop pre.length s, ← List.take_append_drop n (s.drop pre.length)]
  rw [htake, List.drop_drop, hdrop, List.append_assoc]

theorem solver_eq_pubkeyhash {s : List UInt8} {sols : List (List UInt8)}
    (h : solver s = (.PUBKEYHASH, sols)) :
    ∃ hash, matchPayToPubkeyHash s = some hash ∧ sols = [hash] := by
  unfold solver at h
  split at h
  · cases h
  · split at h
    · repeat' split at h
      all_goals cases h
    · split at h
      · cases h
      · split at h
        · cases h
        · split at h
          · cases h
            exact ⟨_, ‹_›, rfl⟩
          · split at h <;> cases h

theorem solver_eq_scripthash {s : List UInt8} {sols : List (List UInt8)}
    (h : solver s = (.SCRIPTHASH, sols)) :
    isPayToScriptHash s = true ∧ sols = [(s.drop 2).take 20] := by
  unfold solver at h
  split at h
  · cases h
    exact ⟨‹_›, rfl⟩
  · repeat' split at h
    all_goals cases h

/-- The witness types come from a witness program of the right version and size. -/
theorem solver_eq_witness_v0_keyhash {s : List UInt8} {sols : List (List UInt8)}
    (h : solver s = (.WITNESS_V0_KEYHASH, sols)) :
    ∃ p, isWitnessProgram s = some (0, p) ∧ p.length = WITNESS_V0_KEYHASH_SIZE ∧ sols = [p] := by
  unfold solver at h
  split at h
  · cases h
  · split at h
    · next v p hwp =>
      split at h
      · next hv =>
        cases h
        exact ⟨p, hv.1 ▸ hwp, hv.2, rfl⟩
      · repeat' split at h
        all_goals cases h
    · repeat' split at h
      all_goals cases h

theorem solver_eq_witness_v0_scripthash {s : List UInt8} {sols : List (List UInt8)}
    (h : solver s = (.WITNESS_V0_SCRIPTHASH, sols)) :
    ∃ p, isWitnessProgram s = some (0, p) ∧ p.length = WITNESS_V0_SCRIPTHASH_SIZE ∧ sols = [p] := by
  unfold solver at h
  split at h
  · cases h
  · split at h
    · next v p hwp =>
      split at h
      · cases h
      · split at h
        · next hv =>
          cases h
          exact ⟨p, hv.1 ▸ hwp, hv.2, rfl⟩
        · repeat' split at h
          all_goals cases h
    · repeat' split at h
      all_goals cases h

theorem solver_eq_witness_v1_taproot {s : List UInt8} {sols : List (List UInt8)}
    (h : solver s = (.WITNESS_V1_TAPROOT, sols)) :
    ∃ p, isWitnessProgram s = some (1, p) ∧ p.length = WITNESS_V1_TAPROOT_SIZE ∧ sols = [p] := by
  unfold solver at h
  split at h
  · cases h
  · split at h
    · next v p hwp =>
      split at h
      · cases h
      · split at h
        · cases h
        · split at h
          · next hv =>
            cases h
            exact ⟨p, hv.1 ▸ hwp, hv.2, rfl⟩
          · repeat' split at h
            all_goals cases h
    · repeat' split at h
      all_goals cases h

theorem solver_eq_anchor {s : List UInt8} {sols : List (List UInt8)}
    (h : solver s = (.ANCHOR, sols)) : isPayToAnchor s = true ∧ sols = [] := by
  unfold solver at h
  split at h
  · cases h
  · split at h
    · repeat' split at h
      all_goals first | (cases h; done) | (cases h; exact ⟨‹_›, rfl⟩)
    · repeat' split at h
      all_goals cases h

/-- A witness program of another version or size, not an anchor. -/
theorem solver_eq_witness_unknown {s : List UInt8} {sols : List (List UInt8)}
    (h : solver s = (.WITNESS_UNKNOWN, sols)) :
    ∃ v p, isWitnessProgram s = some (v, p) ∧ v ≠ 0 ∧ ¬(v = 1 ∧ p.length = WITNESS_V1_TAPROOT_SIZE) ∧
      isPayToAnchor s = false ∧ sols = [[UInt8.ofNat v], p] := by
  unfold solver at h
  split at h
  · cases h
  · split at h
    · next v p hwp =>
      split at h
      · cases h
      · split at h
        · cases h
        · split at h
          · cases h
          · next htap =>
            split at h
            · cases h
            · next hanchor =>
              split at h
              · next hv =>
                cases h
                exact ⟨v, p, hwp, hv, htap, by simpa using hanchor, rfl⟩
              · cases h
    · repeat' split at h
      all_goals cases h

-- ---------------------------------------------------------------------------
-- The templates as pushes
-- ---------------------------------------------------------------------------

/-- A push of fewer than 76 bytes is its length byte and the bytes. -/
theorem pushData_of_lt {data : List UInt8} (h : data.length < 76) :
    pushData data = UInt8.ofNat data.length :: data := by
  simp [pushData, appendDataSize, OP_PUSHDATA1, h]

theorem encodeOP_N_decodeOP_N {opcode : UInt8} (h : opcode = OP_0 ∨ (OP_1 ≤ opcode ∧ opcode ≤ OP_16)) :
    encodeOP_N (decodeOP_N opcode) = opcode ∧ decodeOP_N opcode ≤ 16 := by
  rcases h with rfl | ⟨hlo, hhi⟩
  · exact ⟨rfl, by decide⟩
  · rw [UInt8.le_iff_toNat_le] at hlo hhi
    have hne : opcode ≠ OP_0 := fun h => by simp [h, OP_0, OP_1] at hlo
    have hval : decodeOP_N opcode = opcode.toNat - 80 := by
      simp [decodeOP_N, hne, OP_1]
    simp only [OP_1, OP_16, UInt8.reduceToNat] at hlo hhi
    refine ⟨?_, by omega⟩
    rw [encodeOP_N, hval, if_neg (by omega), show OP_1.toNat + (opcode.toNat - 80) - 1 = opcode.toNat by
      simp only [OP_1, UInt8.reduceToNat]; omega, UInt8.ofNat_toNat]

theorem matchPayToPubkeyHash_eq_some {s hash : List UInt8} (h : matchPayToPubkeyHash s = some hash) :
    hash.length = 20 ∧ s = [OP_DUP, OP_HASH160] ++ pushData hash ++ [OP_EQUALVERIFY, OP_CHECKSIG] := by
  unfold matchPayToPubkeyHash at h
  split at h
  · next hs =>
    obtain ⟨hlen, h0, h1, h2, h23, h24⟩ := hs
    cases h
    have hlen' : ((s.drop 3).take 20).length = 20 := by simp [hlen]
    refine ⟨hlen', ?_⟩
    rw [pushData_of_lt (by omega), hlen']
    have := @eq_template s [OP_DUP, OP_HASH160, 20] [OP_EQUALVERIFY, OP_CHECKSIG] 20 (by simp [hlen])
      (fun i hi => by
        match i, hi with
        | 0, _ => exact h0
        | 1, _ => exact h1
        | 2, _ => exact h2)
      (fun i hi => by
        match i, hi with
        | 0, _ => exact h23
        | 1, _ => exact h24)
    conv => lhs; rw [this]
    simp
  · cases h

/-- The P2SH template. -/
theorem isPayToScriptHash_eq_true {s : List UInt8} (h : isPayToScriptHash s = true) :
    ((s.drop 2).take 20).length = 20 ∧
      s = [OP_HASH160] ++ pushData ((s.drop 2).take 20) ++ [OP_EQUAL] := by
  simp only [isPayToScriptHash, Bool.and_eq_true, beq_iff_eq] at h
  obtain ⟨⟨⟨hlen, h0⟩, h1⟩, h22⟩ := h
  have hlen' : ((s.drop 2).take 20).length = 20 := by simp [hlen]
  refine ⟨hlen', ?_⟩
  rw [pushData_of_lt (by omega), hlen']
  have := @eq_template s [OP_HASH160, 0x14] [OP_EQUAL] 20 (by simp [hlen])
    (fun i hi => by
      match i, hi with
      | 0, _ => exact h0
      | 1, _ => exact h1)
    (fun i hi => by
      match i, hi with
      | 0, _ => exact h22)
  conv => lhs; rw [this]
  simp

/-- A witness program is its version opcode and one direct push of 2 to 40 bytes. -/
theorem isWitnessProgram_eq_some {s p : List UInt8} {v : Nat} (h : isWitnessProgram s = some (v, p)) :
    v ≤ 16 ∧ 2 ≤ p.length ∧ p.length ≤ 40 ∧ s = encodeOP_N v :: pushData p := by
  unfold isWitnessProgram at h
  split at h
  · cases h
  · next hsize =>
    split at h
    · next opcode size program =>
      split at h
      · cases h
      · next hop =>
        split at h
        · next hlen =>
          cases h
          simp only [List.length_cons] at hsize hlen
          have hop' : opcode = OP_0 ∨ (OP_1 ≤ opcode ∧ opcode ≤ OP_16) := by
            by_cases h0 : opcode = OP_0
            · exact .inl h0
            · have hrange : ¬(opcode < OP_1 ∨ opcode > OP_16) := fun hr => hop ⟨h0, hr⟩
              simp only [UInt8.lt_iff_toNat_lt, UInt8.le_iff_toNat_le] at hrange ⊢
              omega
          obtain ⟨henc, hle⟩ := encodeOP_N_decodeOP_N hop'
          have hsz : size = UInt8.ofNat p.length := by
            rw [← UInt8.ofNat_toNat (x := size)]
            congr 1
            omega
          refine ⟨hle, by omega, by omega, ?_⟩
          rw [henc, pushData_of_lt (by omega), hsz]
        · cases h
    · cases h

/-- The pay-to-anchor template. -/
theorem isPayToAnchor_eq_true {s : List UInt8} (h : isPayToAnchor s = true) :
    s = [OP_1, 0x02, 0x4e, 0x73] := by
  simp only [isPayToAnchor, Bool.and_eq_true, beq_iff_eq] at h
  obtain ⟨⟨⟨⟨hlen, h0⟩, h1⟩, h2⟩, h3⟩ := h
  match s, hlen with
  | [a, b, c, d], _ => simp_all

end Riecoin
