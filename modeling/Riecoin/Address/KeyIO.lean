-- SUMMARY: DestinationEncoder and DecodeDestination of key_io.cpp with each chain's human-readable part, and the round trip from a script with an address to its address string and back.
import Riecoin.Address.Destination
import Riecoin.Util.Bech32Errors

/-!
# Addresses

Riecoin writes P2PKH and P2SH destinations as the lowercase hex of their scripts
(`76a914…88ac`, `a914…87`) and every witness destination, version 0 included, as Bech32m.
`DecodeDestination` first decides between the two by comparing the start of the string,
lowercased, with the chain's human-readable part; a hex string can never look like one
of the chain prefixes, because each holds a letter that is not a hex digit.

`decodeDestination_encodeDestination` says that decoding gives back every destination
that has an address, with no error, for a human-readable part of the kind the chains use;
`extractDestination_address_roundtrip` puts it together with `extractDestination_true`.
-/

namespace Riecoin

open BitPack Bech32

/-- The chains, by the parameters they select. -/
inductive ChainType where
  | MAIN
  | TESTNET
  | REGTEST
  deriving DecidableEq, Repr

/-- `CChainParams`, with the one field the address code reads. -/
structure CChainParams where
  bech32_hrp : List Char

/-- The parameters of each chain (`CMainParams`, `CTestNetParams`, `CRegTestParams`). -/
def chainParams : ChainType → CChainParams
  | .MAIN => ⟨['r', 'i', 'c']⟩
  | .TESTNET => ⟨['t', 'r', 'i', 'c']⟩
  | .REGTEST => ⟨['r', 'r', 'i', 'c']⟩

/-- `BECH32_WITNESS_PROG_MAX_LEN`. -/
def BECH32_WITNESS_PROG_MAX_LEN : Nat := 40

-- ---------------------------------------------------------------------------
-- Encoding
-- ---------------------------------------------------------------------------

/-- The witness cases of `DestinationEncoder`: the version symbol, then the program
regrouped from 8 to 5 bits with padding, as Bech32m. -/
def encodeWitness (params : CChainParams) (version : Nat) (program : List UInt8) : List Char :=
  let data := UInt8.ofNat version ::
    (convertBits 8 5 true (by decide) (program.map UInt8.toNat)).2.map UInt8.ofNat
  Bech32.encode .BECH32M params.bech32_hrp data

/-- `DestinationEncoder` on a `WitnessUnknown`: only versions 1 to 16 and programs of 2
to 40 bytes are written. -/
def encodeWitnessUnknown (params : CChainParams) (version : Nat) (program : List UInt8) :
    List Char :=
  if version < 1 ∨ version > 16 ∨ program.length < 2 ∨ program.length > 40 then []
  else encodeWitness params version program

/-- `EncodeDestination`: `DestinationEncoder` on each alternative; `PayToAnchor` goes to the
`WitnessUnknown` case. -/
def encodeDestination (params : CChainParams) : CTxDestination → List Char
  | .witnessV0KeyHash id => encodeWitness params 0 id.data
  | .witnessV0ScriptHash id => encodeWitness params 0 id.data
  | .witnessV1Taproot tap => encodeWitness params 1 tap.data
  | .witnessUnknown version program => encodeWitnessUnknown params version program
  | .payToAnchor => encodeWitnessUnknown params 1 ANCHOR_BYTES
  | .noDestination _ => []
  | .pubKeyDestination _ => []
  | .pkHash id => ['7', '6', 'a', '9', '1', '4'] ++ hexStr id.data ++ ['8', '8', 'a', 'c']
  | .scriptHash id => ['a', '9', '1', '4'] ++ hexStr id.data ++ ['8', '7']

-- ---------------------------------------------------------------------------
-- Decoding
-- ---------------------------------------------------------------------------

/-- The `byte_str` of the size messages. -/
def byteStr (size : Nat) : String :=
  if size = 1 then "byte" else "bytes"

/-- The end of `DecodeDestination` for a Bech32m string: the destination of witness
version `version` with program `data`, or the error. -/
def decodeWitnessProgram (version : Nat) (data : List UInt8) : CTxDestination × String :=
  if version = 0 then
    if h : data.length = 20 then (.witnessV0KeyHash ⟨data, h⟩, "")
    else if h : data.length = 32 then (.witnessV0ScriptHash ⟨data, h⟩, "")
    else
      (.noDestination [], "Invalid Bech32 v0 address program size (" ++ toString data.length ++ " " ++
        byteStr data.length ++ "), per BIP141")
  else if h : version = 1 ∧ data.length = WITNESS_V1_TAPROOT_SIZE then
    (.witnessV1Taproot ⟨data, h.2⟩, "")
  else if isPayToAnchorProgram version data then (.payToAnchor, "")
  else if version > 16 then (.noDestination [], "Invalid Bech32 address witness version")
  else if data.length < 2 ∨ data.length > BECH32_WITNESS_PROG_MAX_LEN then
    (.noDestination [], "Invalid Bech32 address program size (" ++ toString data.length ++ " " ++
      byteStr data.length ++ ")")
  else (.witnessUnknown version data, "")

/-- The hex branch of `DecodeDestination`: a P2PKH or P2SH script written in hex. -/
def decodeScriptHex (str : List Char) : Option CTxDestination :=
  if str.length = 50 then
    if str.take 6 = ['7', '6', 'a', '9', '1', '4'] ∧ (str.drop 46).take 4 = ['8', '8', 'a', 'c'] then
      let data := parseHex ((str.drop 6).take 40)
      if h : data.length = 20 then some (.pkHash ⟨data, h⟩) else none
    else none
  else if str.length = 46 then
    if str.take 4 = ['a', '9', '1', '4'] ∧ (str.drop 44).take 2 = ['8', '7'] then
      let data := parseHex ((str.drop 4).take 40)
      if h : data.length = 20 then some (.scriptHash ⟨data, h⟩) else none
    else none
  else none

/-- `DecodeDestination`: the destination and `error_str`. The message of a string that is
not valid Bech32m is the one `LocateErrors` gives; the optional `error_locations` output is
left out. -/
def decodeDestination (params : CChainParams) (str : List Char) : CTxDestination × String :=
  let hrp := params.bech32_hrp
  let is_bech32 := decide ((str.take hrp.length).map toLower = hrp)
  if !is_bech32 then
    match decodeScriptHex str with
    | some dest => (dest, "")
    | none => (.noDestination [], "Invalid or unsupported Segwit (Bech32) encoding or Script.")
  else
    let dec := Bech32.decode str Bech32.BECH32
    if dec.encoding = .BECH32M then
      match dec.data with
      | [] => (.noDestination [], "Empty Bech32 data section")
      | v :: rest =>
        if dec.hrp ≠ hrp then
          (.noDestination [], "Invalid or unsupported prefix for Segwit (Bech32) address (expected " ++
            String.ofList hrp ++ ", got " ++ String.ofList dec.hrp ++ ").")
        else
          match convertBits 5 8 false (by decide) (rest.map UInt8.toNat) with
          | (true, data) => decodeWitnessProgram v.toNat (data.map UInt8.ofNat)
          | (false, _) => (.noDestination [], "Invalid padding in Bech32 data section")
    else (.noDestination [], (Bech32.locateErrors str).1)

-- ---------------------------------------------------------------------------
-- Human-readable parts
-- ---------------------------------------------------------------------------

/-- What the round trip needs of a chain's human-readable part: `Encode` and `Decode` keep
it as it is, it holds a letter that is not a hex digit, and an address of the longest
program (the separator, the version, 64 symbols and the checksum) fits in the 90
characters `Decode` allows. -/
structure AddressHrp (hrp : List Char) : Prop where
  valid : ValidHrp hrp
  not_hex : ∃ c ∈ hrp, ¬IsLowerHex c
  length_le : hrp.length + 72 ≤ BECH32

theorem addressHrp_chainParams (chain : ChainType) : AddressHrp (chainParams chain).bech32_hrp := by
  -- each part holds an `r`, which is not a hex digit
  cases chain <;> exact ⟨ValidHrp.of_all (by decide) (by decide), ⟨'r', by decide, by decide⟩, by decide⟩

-- ---------------------------------------------------------------------------
-- Legacy destinations
-- ---------------------------------------------------------------------------

/-- A string of hex digits never starts with a human-readable part that holds a letter
that is not one. -/
theorem take_map_toLower_ne {hrp str : List Char} (hhrp : ∃ c ∈ hrp, ¬IsLowerHex c)
    (hstr : ∀ c ∈ str, IsLowerHex c) : (str.take hrp.length).map toLower ≠ hrp := by
  intro h
  obtain ⟨c, hc, hnot⟩ := hhrp
  rw [← h] at hc
  obtain ⟨c', hc', rfl⟩ := List.mem_map.mp hc
  have hhex := hstr c' (List.mem_of_mem_take hc')
  rw [toLower_of_isLowerHex hhex] at hnot
  exact hnot hhex

/-- A hex string is read by the hex branch alone. -/
theorem decodeDestination_of_hex {params : CChainParams}
    (hhrp : ∃ c ∈ params.bech32_hrp, ¬IsLowerHex c) {str : List Char}
    (hstr : ∀ c ∈ str, IsLowerHex c) {d : CTxDestination} (hd : decodeScriptHex str = some d) :
    decodeDestination params str = (d, "") := by
  simp only [decodeDestination, decide_eq_false (take_map_toLower_ne hhrp hstr), Bool.not_false,
    ↓reduceIte, hd]

theorem isLowerHex_framed {pre post : List Char} (hpre : ∀ c ∈ pre, IsLowerHex c)
    (hpost : ∀ c ∈ post, IsLowerHex c) (data : List UInt8) :
    ∀ c ∈ pre ++ hexStr data ++ post, IsLowerHex c := by
  intro c hc
  simp only [List.mem_append] at hc
  rcases hc with (hc | hc) | hc
  · exact hpre c hc
  · exact isLowerHex_of_mem_hexStr hc
  · exact hpost c hc

theorem decodeScriptHex_pkHash (id : Uint160) :
    decodeScriptHex (['7', '6', 'a', '9', '1', '4'] ++ hexStr id.data ++ ['8', '8', 'a', 'c']) =
      some (.pkHash id) := by
  have hlen : (hexStr id.data).length = 40 := by simp [id.length_data]
  simp [decodeScriptHex, hlen, parseHex_hexStr, id.length_data, List.take_append, List.drop_append]

theorem decodeScriptHex_scriptHash (id : Uint160) :
    decodeScriptHex (['a', '9', '1', '4'] ++ hexStr id.data ++ ['8', '7']) = some (.scriptHash id) := by
  have hlen : (hexStr id.data).length = 40 := by simp [id.length_data]
  simp [decodeScriptHex, hlen, parseHex_hexStr, id.length_data, List.take_append, List.drop_append]

-- ---------------------------------------------------------------------------
-- Witness destinations
-- ---------------------------------------------------------------------------

/-- The symbols of a program: 5-bit, fewer than five bits of padding, and regrouping them
back without padding gives the program. -/
theorem witnessSymbols_spec (program : List UInt8) :
    let ys := (convertBits 8 5 true (by decide) (program.map UInt8.toNat)).2
    Bounded 5 ys ∧ ys.length * 5 < 8 * program.length + 5 ∧
      convertBits 5 8 false (by decide) ys = (true, program.map UInt8.toNat) := by
  obtain ⟨ys, pad, hpad, hys, -, hlen, hp⟩ :=
    convertBits_pad (show 0 < 5 by decide) (bounded_map_toNat program)
  have hback :=
    convertBits_roundtrip (by decide) (show 0 < 5 by decide) (by decide) (bounded_map_toNat program)
  rw [hpad] at hback ⊢
  simp only [List.length_map] at hlen
  dsimp only
  exact ⟨hys, by omega, hback⟩

/-- The Bech32m layer is transparent: a witness address of any version up to 16 and any
program up to 40 bytes decodes to what `decodeWitnessProgram` makes of them. -/
theorem decodeDestination_encodeWitness {params : CChainParams} (hhrp : AddressHrp params.bech32_hrp) {version : Nat}
    {program : List UInt8} (hversion : version ≤ 16) (hprogram : program.length ≤ 40) :
    decodeDestination params (encodeWitness params version program) =
      decodeWitnessProgram version program := by
  obtain ⟨hys, hlen, hback⟩ := witnessSymbols_spec program
  unfold encodeWitness
  generalize (convertBits 8 5 true _ (program.map UInt8.toNat)).2 = ys at hys hlen hback ⊢
  have hversion' : (UInt8.ofNat version).toNat = version := by
    rw [UInt8.toNat_ofNat']
    omega
  -- the data section, the version symbol and the program's symbols, is 5-bit
  have hvalues : ∀ v ∈ UInt8.ofNat version :: ys.map UInt8.ofNat, v.toNat < 2 ^ 5 := by
    intro v hv
    rcases List.mem_cons.mp hv with rfl | hv
    · rw [hversion']
      omega
    · obtain ⟨y, hy, rfl⟩ := List.mem_map.mp hv
      have hy5 := hys y hy
      rw [UInt8.toNat_ofNat', Nat.mod_eq_of_lt (by omega)]
      exact hy5
  have hdec := @decode_encode .BECH32M _ hhrp.valid _ hvalues BECH32 (by
    have := hhrp.length_le
    simp only [List.length_cons, List.length_map, CHECKSUM_SIZE, BECH32] at this ⊢
    omega)
  have hhrp : ((Bech32.encode .BECH32M params.bech32_hrp (UInt8.ofNat version :: ys.map UInt8.ofNat)).take
      params.bech32_hrp.length).map toLower = params.bech32_hrp := by
    rw [take_encode]
    exact hhrp.valid.map_lowerCase
  simp only [decodeDestination, hhrp, decide_true, Bool.not_true, Bool.false_eq_true, ↓reduceIte,
    hdec, ne_eq, not_true_eq_false, map_toNat_map_ofNat (bounded_mono (by decide) hys), hback,
    hversion', List.map_map, Function.comp_def, UInt8.ofNat_toNat, List.map_id']

-- ---------------------------------------------------------------------------
-- Round trip
-- ---------------------------------------------------------------------------

/-- Every destination that has an address decodes back from it, with no error. -/
theorem decodeDestination_encodeDestination {params : CChainParams} (hhrp : AddressHrp params.bech32_hrp) {d : CTxDestination}
    (hd : Addressable d) :
    decodeDestination params (encodeDestination params d) = (d, "") := by
  cases d with
  | pkHash id =>
    exact decodeDestination_of_hex hhrp.not_hex
      (isLowerHex_framed (forall_isLowerHex_of_all (by decide))
        (forall_isLowerHex_of_all (by decide)) id.data) (decodeScriptHex_pkHash id)
  | scriptHash id =>
    exact decodeDestination_of_hex hhrp.not_hex
      (isLowerHex_framed (forall_isLowerHex_of_all (by decide))
        (forall_isLowerHex_of_all (by decide)) id.data) (decodeScriptHex_scriptHash id)
  | witnessV0KeyHash id =>
    have hlen : id.data.length = 20 := id.length_data
    rw [encodeDestination, decodeDestination_encodeWitness hhrp (by decide) (by omega)]
    simp [decodeWitnessProgram, hlen]
  | witnessV0ScriptHash id =>
    have hlen : id.data.length = 32 := id.length_data
    rw [encodeDestination, decodeDestination_encodeWitness hhrp (by decide) (by omega)]
    simp [decodeWitnessProgram, hlen]
  | witnessV1Taproot tap =>
    have hlen : tap.data.length = 32 := tap.length_data
    rw [encodeDestination, decodeDestination_encodeWitness hhrp (by decide) (by omega)]
    simp [decodeWitnessProgram, hlen, WITNESS_V1_TAPROOT_SIZE]
  | payToAnchor =>
    rw [encodeDestination, encodeWitnessUnknown, if_neg (by decide),
      decodeDestination_encodeWitness hhrp (by decide) (by decide)]
    rfl
  | witnessUnknown version program =>
    obtain ⟨hlo, hhi, hlen_lo, hlen_hi, htap, hanchor⟩ := hd
    rw [encodeDestination, encodeWitnessUnknown, if_neg (by omega),
      decodeDestination_encodeWitness hhrp hhi hlen_hi]
    -- the guards of the other witness destinations all fail, as `Addressable` says
    have hsize : ¬(program.length < 2 ∨ program.length > BECH32_WITNESS_PROG_MAX_LEN) := by
      simp only [BECH32_WITNESS_PROG_MAX_LEN]
      omega
    rw [decodeWitnessProgram, if_neg (by omega), dif_neg htap, if_neg (by simp [hanchor]),
      if_neg (by omega), if_neg hsize]
  | noDestination _ => exact hd.elim
  | pubKeyDestination _ => exact hd.elim

/-- The empty string is no address. -/
theorem decodeDestination_nil {params : CChainParams}
    (hhrp : params.bech32_hrp ≠ []) :
    decodeDestination params [] =
      (.noDestination [], "Invalid or unsupported Segwit (Bech32) encoding or Script.") := by
  simp [decodeDestination, decodeScriptHex, Ne.symm hhrp]

/-- A string that starts with the chain's prefix but that `Decode` rejects decodes to no
destination, with the message of `LocateErrors` as its error, which is not empty; every
position `LocateErrors` reports for it is one of the string. -/
theorem decodeDestination_locateErrors {params : CChainParams} {str : List Char}
    (hhrp : (str.take params.bech32_hrp.length).map toLower = params.bech32_hrp)
    (hdec : (Bech32.decode str BECH32).encoding = .INVALID) :
    (decodeDestination params str).1 = .noDestination [] ∧
      (decodeDestination params str).2 = (Bech32.locateErrors str).1 ∧
      (decodeDestination params str).2 ≠ "" ∧ ∀ n ∈ (Bech32.locateErrors str).2, n < str.length := by
  have hmsg : (Bech32.locateErrors str).1 ≠ "" := fun h =>
    (locateErrors_eq_nil_iff str).1.mp h hdec
  have hdest : decodeDestination params str = (.noDestination [], (Bech32.locateErrors str).1) := by
    simp only [decodeDestination, hhrp, decide_true, Bool.not_true, Bool.false_eq_true,
      ↓reduceIte, hdec, reduceCtorEq]
  rw [hdest]
  exact ⟨rfl, rfl, hmsg, locateErrors_lt str⟩

/-- A mainnet address whose checksum is wrong. -/
def badChecksumAddress : List Char := ['r', 'i', 'c', '1', 'q', 'q', 'q', 'q', 'q', 'q', 'q']

theorem decodeDestination_locateErrors_badChecksum :
    (badChecksumAddress.take (chainParams .MAIN).bech32_hrp.length).map toLower =
        (chainParams .MAIN).bech32_hrp ∧
      (Bech32.decode badChecksumAddress BECH32).encoding = .INVALID ∧
      ((decodeDestination (chainParams .MAIN) badChecksumAddress).1 = .noDestination [] ∧
        (decodeDestination (chainParams .MAIN) badChecksumAddress).2 =
          (Bech32.locateErrors badChecksumAddress).1 ∧
        (decodeDestination (chainParams .MAIN) badChecksumAddress).2 ≠ "" ∧
        ∀ n ∈ (Bech32.locateErrors badChecksumAddress).2, n < badChecksumAddress.length) :=
  have hhrp : (badChecksumAddress.take (chainParams .MAIN).bech32_hrp.length).map toLower =
      (chainParams .MAIN).bech32_hrp := by decide
  have hdec : (Bech32.decode badChecksumAddress BECH32).encoding = .INVALID := by decide +kernel
  ⟨hhrp, hdec, decodeDestination_locateErrors hhrp hdec⟩

/-- Every destination that has an address is written as a nonempty string: the empty
string would decode to no destination. -/
theorem encodeDestination_ne_nil {params : CChainParams} (hhrp : AddressHrp params.bech32_hrp)
    {d : CTxDestination} (hd : Addressable d) : encodeDestination params d ≠ [] := by
  intro h
  have hround := decodeDestination_encodeDestination hhrp hd
  rw [h, decodeDestination_nil hhrp.valid.ne_nil] at hround
  have hmsg : "Invalid or unsupported Segwit (Bech32) encoding or Script." = "" :=
    congrArg Prod.snd hround
  exact absurd hmsg (by decide)

theorem extractDestination_address_roundtrip (chain : ChainType) {s : List UInt8} {d : CTxDestination}
    (h : extractDestination s = (true, d)) :
    encodeDestination (chainParams chain) d ≠ [] ∧
      decodeDestination (chainParams chain) (encodeDestination (chainParams chain) d) =
        (d, "") ∧
      getScriptForDestination d = s := by
  obtain ⟨hd, hscript⟩ := extractDestination_true h
  have hhrp := addressHrp_chainParams chain
  exact ⟨encodeDestination_ne_nil hhrp hd, decodeDestination_encodeDestination hhrp hd,
    hscript⟩

theorem extractDestination_address_roundtrip_p2wpkh :
    extractDestination ([OP_0, 0x14] ++ List.replicate 20 0) =
        (true, .witnessV0KeyHash (BaseBlob.zero 160)) ∧
      (encodeDestination (chainParams .MAIN) (.witnessV0KeyHash (BaseBlob.zero 160)) ≠ [] ∧
        decodeDestination (chainParams .MAIN)
            (encodeDestination (chainParams .MAIN) (.witnessV0KeyHash (BaseBlob.zero 160))) =
          (.witnessV0KeyHash (BaseBlob.zero 160), "") ∧
        getScriptForDestination (.witnessV0KeyHash (BaseBlob.zero 160)) =
          [OP_0, 0x14] ++ List.replicate 20 0) :=
  ⟨by decide, extractDestination_address_roundtrip .MAIN (by decide)⟩

end Riecoin
