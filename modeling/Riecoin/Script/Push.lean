-- SUMMARY: Scripts built by CScript's operator<< (data pushes and push_int64) parsed back by repeated GetScriptOp: every push comes back with its data and ends exactly at the end of the script, with CheckMinimalPush holding on every push that is not a small number.
import Riecoin.Script.ScriptNum

/-!
# Pushes

`CScript << data` writes a push opcode, the size where it does not fit in the opcode
(`AppendDataSize`), and the data; `CScript << n` for an `int64_t` writes `OP_0`, `OP_1NEGATE`
or `OP_1` to `OP_16` for the numbers they stand for, and a push of `CScriptNum::serialize(n)`
otherwise (`push_int64`). `scriptOps` calls `GetScriptOp` from the start of a script until it
fails.

Every push `AppendDataSize` writes is read back by `GetScriptOp` with its data and the rest of
the script after it (`getScriptOp_pushData`), so a script of pushes parses back into its data
and stops at the end. The opcode `AppendDataSize` picks is the one `CheckMinimalPush` asks for,
except for the single bytes that have their own opcodes.
-/

namespace Riecoin.Script

open Bytes SignMagnitude CScriptNum

/-- `OP_1NEGATE`. -/
def OP_1NEGATE : UInt8 := 0x4f

/-- `CScript() << d1 << ... << dk` for byte vectors: each push appended at the end. -/
def scriptOfPushes (ds : List (List UInt8)) : List UInt8 :=
  ds.foldl (fun script d => script ++ pushData d) []

/-- `CScript::push_int64`: the small numbers as their own opcodes (`n + (OP_1 - 1)` stored
in a byte), zero as `OP_0`, and any other number as a push of its serialization. -/
def pushInt64 (n : Int64) : List UInt8 :=
  if n = -1 ∨ (1 ≤ n ∧ n ≤ 16) then [(n + Int64.ofNat (OP_1.toNat - 1)).toUInt64.toUInt8]
  else if n = 0 then [OP_0]
  else pushData (CScriptNum.serialize n)

/-- `GetScriptOp` called from `begin()` while it succeeds: the opcodes and data it returned,
and the script left where it failed (empty when it stopped at `end()`). -/
def scriptOps (script : List UInt8) : List (UInt8 × List UInt8) × List UInt8 :=
  match h : getScriptOp script with
  | none => ([], script)
  | some (opcode, data, rest) =>
    let (ops, left) := scriptOps rest
    ((opcode, data) :: ops, left)
termination_by script.length
decreasing_by exact getScriptOp_length_lt h

theorem scriptOps_nil : scriptOps [] = ([], []) := by
  rw [scriptOps]
  rfl

theorem scriptOps_of_getScriptOp {script rest : List UInt8} {opcode : UInt8} {data : List UInt8}
    (h : getScriptOp script = some (opcode, data, rest)) :
    scriptOps script = ((opcode, data) :: (scriptOps rest).1, (scriptOps rest).2) := by
  rw [scriptOps]
  split
  · next h' => rw [h] at h'; cases h'
  · next opcode' data' rest' h' =>
    rw [h] at h'
    cases h'
    rfl

-- ---------------------------------------------------------------------------
-- Data pushes
-- ---------------------------------------------------------------------------

/-- The size bytes after `OP_PUSHDATA2` and `OP_PUSHDATA4` (`WriteLE16`, `WriteLE32`). -/
theorem leBytes_two (v : Nat) : leBytes 2 v = [UInt8.ofNat v, UInt8.ofNat (v >>> 8)] := by
  simp [leBytes, Nat.shiftRight_eq_div_pow]

theorem leBytes_four (v : Nat) :
    leBytes 4 v = [UInt8.ofNat v, UInt8.ofNat (v >>> 8), UInt8.ofNat (v >>> 16),
      UInt8.ofNat (v >>> 24)] := by
  simp [leBytes, Nat.shiftRight_eq_div_pow, Nat.div_div_eq_div_mul]

/-- `AppendDataSize` writes an opcode up to `OP_PUSHDATA4` and size bytes from which
`GetScriptOp` reads the size back, whatever follows them. -/
theorem readPushSize_appendDataSize {size : Nat} (hsize : size < 2 ^ 32) (pc : List UInt8) :
    ∃ opcode sizeBytes, appendDataSize size = opcode :: sizeBytes ∧ opcode ≤ OP_PUSHDATA4 ∧
      readPushSize opcode (sizeBytes ++ pc) = some (size, pc) := by
  unfold appendDataSize
  by_cases h1 : size < OP_PUSHDATA1.toNat
  · -- a direct push: the size is the opcode
    have hop : (UInt8.ofNat size).toNat = size := UInt8.toNat_ofNat_of_lt' (by
      simp [OP_PUSHDATA1] at h1
      unfold UInt8.size
      omega)
    refine ⟨UInt8.ofNat size, [], by rw [if_pos h1], ?_, ?_⟩
    · rw [UInt8.le_iff_toNat_le, hop]
      simp [OP_PUSHDATA1, OP_PUSHDATA4] at h1 ⊢
      omega
    · rw [readPushSize, if_pos (by rw [UInt8.lt_iff_toNat_lt, hop]; exact h1), hop]
      rfl
  · rw [if_neg h1]
    by_cases h2 : size ≤ 0xff
    · refine ⟨OP_PUSHDATA1, [UInt8.ofNat size], by rw [if_pos h2], by decide, ?_⟩
      have hvalue : leValue [UInt8.ofNat size] = size := by
        simp [UInt8.toNat_ofNat_of_lt' (show size < UInt8.size by unfold UInt8.size; omega)]
      simp [readPushSize, OP_PUSHDATA1, hvalue]
    · rw [if_neg h2]
      by_cases h3 : size ≤ 0xffff
      · refine ⟨OP_PUSHDATA2, [UInt8.ofNat size, UInt8.ofNat (size >>> 8)], by rw [if_pos h3],
          by decide, ?_⟩
        have hvalue : leValue [UInt8.ofNat size, UInt8.ofNat (size >>> 8)] = size := by
          rw [← leBytes_two, leValue_leBytes]
          exact Nat.mod_eq_of_lt (by omega)
        simp [readPushSize, OP_PUSHDATA1, OP_PUSHDATA2, hvalue]
      · rw [if_neg h3]
        refine ⟨OP_PUSHDATA4, _, rfl, by decide, ?_⟩
        have hvalue : leValue [UInt8.ofNat size, UInt8.ofNat (size >>> 8), UInt8.ofNat (size >>> 16),
            UInt8.ofNat (size >>> 24)] = size := by
          rw [← leBytes_four, leValue_leBytes]
          exact Nat.mod_eq_of_lt (by omega)
        simp [readPushSize, OP_PUSHDATA1, OP_PUSHDATA2, OP_PUSHDATA4, hvalue]

/-- `GetScriptOp` reads a push written by `CScript << data` back: its opcode, the data, and
the rest of the script. -/
theorem getScriptOp_pushData {data : List UInt8} (hdata : data.length < 2 ^ 32)
    (rest : List UInt8) :
    getScriptOp (pushData data ++ rest) = some ((pushData data).headD 0, data, rest) := by
  obtain ⟨opcode, sizeBytes, hsize, hop, hread⟩ :=
    readPushSize_appendDataSize hdata (data ++ rest)
  simp only [pushData, hsize, List.cons_append, List.append_assoc]
  rw [getScriptOp, if_pos hop, hread]
  simp

/-- A script of pushes parses back into its data, one op per push, and stops at the end. -/
theorem scriptOps_flatMap_pushData :
    ∀ ds : List (List UInt8), (∀ d ∈ ds, d.length < 2 ^ 32) →
      scriptOps (ds.flatMap pushData) = (ds.map fun d => ((pushData d).headD 0, d), [])
  | [], _ => scriptOps_nil
  | d :: ds, hds => by
    rw [List.flatMap_cons, scriptOps_of_getScriptOp (getScriptOp_pushData (hds d List.mem_cons_self) _),
      scriptOps_flatMap_pushData ds (fun d' hd' => hds d' (List.mem_cons_of_mem d hd'))]
    rfl

/-- The opcode `AppendDataSize` picks is the one `CheckMinimalPush` asks for, except for the
single bytes that have opcodes of their own (`OP_1` to `OP_16`, `OP_1NEGATE`). -/
theorem checkMinimalPush_pushData (data : List UInt8) :
    checkMinimalPush data ((pushData data).headD 0) = true ↔
      ¬(data.length = 1 ∧ ((1 ≤ data.headD 0 ∧ data.headD 0 ≤ 16) ∨ data.headD 0 = 0x81)) := by
  have hop : (pushData data).headD 0 = (appendDataSize data.length).headD 0 := by
    unfold pushData appendDataSize
    split_ifs <;> rfl
  rw [hop]
  by_cases hsingle : data.length = 1 ∧ ((1 ≤ data.headD 0 ∧ data.headD 0 ≤ 16) ∨ data.headD 0 = 0x81)
  · -- a single byte with an opcode of its own is never a minimal push
    simp only [hsingle]
    obtain ⟨hlen, hbyte | hbyte⟩ := hsingle
    · rw [checkMinimalPush, if_neg (by omega), if_pos ⟨hlen, hbyte⟩]
      decide
    · have hnot : ¬(1 ≤ data.headD 0 ∧ data.headD 0 ≤ 16) := by
        rw [hbyte]
        decide
      rw [checkMinimalPush, if_neg (by omega), if_neg (fun h => hnot h.2), if_pos ⟨hlen, hbyte⟩]
      decide
  · simp only [hsingle, not_false_eq_true, iff_true]
    unfold checkMinimalPush appendDataSize
    by_cases h0 : data.length = 0
    · simp [h0]
      rfl
    rw [if_neg h0, if_neg (fun h => hsingle ⟨h.1, Or.inl h.2⟩),
      if_neg (fun h => hsingle ⟨h.1, Or.inr h.2⟩)]
    -- the size classes of `AppendDataSize` (76, 256, 65536) against those of
    -- `CheckMinimalPush` (75, 255, 65535)
    by_cases h75 : data.length ≤ 75
    · have hlt : data.length < OP_PUSHDATA1.toNat := by
        simp [OP_PUSHDATA1]
        omega
      rw [if_pos h75, if_pos hlt]
      simp [UInt8.toNat_ofNat_of_lt' (show data.length < UInt8.size by unfold UInt8.size; omega)]
    · have hge : ¬data.length < OP_PUSHDATA1.toNat := by
        simp [OP_PUSHDATA1]
        omega
      rw [if_neg h75, if_neg hge]
      by_cases h255 : data.length ≤ 255
      · rw [if_pos h255, if_pos h255]
        rfl
      · rw [if_neg h255, if_neg h255]
        by_cases h65535 : data.length ≤ 65535
        · rw [if_pos h65535, if_pos h65535]
          rfl
        · rw [if_neg h65535]

/-- Appending the pushes one after the other writes them all in order. -/
theorem foldl_append_pushData (ds : List (List UInt8)) :
    ∀ script : List UInt8,
      ds.foldl (fun script d => script ++ pushData d) script = script ++ ds.flatMap pushData := by
  induction ds with
  | nil =>
    intro script
    simp
  | cons d ds ih =>
    intro script
    rw [List.foldl_cons, ih, List.flatMap_cons, List.append_assoc]

theorem scriptOfPushes_eq (ds : List (List UInt8)) : scriptOfPushes ds = ds.flatMap pushData := by
  rw [scriptOfPushes, foldl_append_pushData, List.nil_append]

-- ---------------------------------------------------------------------------
-- push_int64
-- ---------------------------------------------------------------------------

/-- The byte `push_int64` writes for a number from `-1` to `16` is the number plus `0x50`. -/
theorem toNat_smallOpcode {n : Int64} (h1 : -1 ≤ n.toInt) (h16 : n.toInt ≤ 16) :
    (n + Int64.ofNat (OP_1.toNat - 1)).toUInt64.toUInt8.toNat = (n.toInt + 80).toNat := by
  have hsum : (n + Int64.ofNat (OP_1.toNat - 1)).toInt = n.toInt + 80 := by
    rw [Int64.toInt_add, show (Int64.ofNat (OP_1.toNat - 1)).toInt = 80 by decide]
    exact Int.bmod_eq_of_le (by omega) (by omega)
  have hbits := toNat_toUInt64_of_nonneg (show 0 ≤ (n + Int64.ofNat (OP_1.toNat - 1)).toInt by omega)
  rw [UInt64.toNat_toUInt8]
  omega

/-- A single opcode above the pushes parses as one op with no data. -/
theorem scriptOps_opcode {opcode : UInt8} (h : OP_PUSHDATA4 < opcode) :
    scriptOps [opcode] = ([(opcode, [])], []) := by
  have hop : getScriptOp [opcode] = some (opcode, [], []) := by
    rw [getScriptOp, if_neg (UInt8.not_le.mpr h)]
  rw [scriptOps_of_getScriptOp hop, scriptOps_nil]

theorem scriptOps_OP_0 : scriptOps [OP_0] = ([(OP_0, [])], []) := by
  have hop : getScriptOp [OP_0] = some (OP_0, [], []) := by decide
  rw [scriptOps_of_getScriptOp hop, scriptOps_nil]

/-- A push written on its own parses as that one push. -/
theorem scriptOps_pushData {data : List UInt8} (hdata : data.length < 2 ^ 32) :
    scriptOps (pushData data) = ([((pushData data).headD 0, data)], []) := by
  have hop := getScriptOp_pushData hdata []
  rw [List.append_nil] at hop
  rw [scriptOps_of_getScriptOp hop, scriptOps_nil]

theorem pushData_opcode_le (data : List UInt8) (hdata : data.length < 2 ^ 32) :
    (pushData data).headD 0 ≤ OP_PUSHDATA4 := by
  obtain ⟨opcode, sizeBytes, hsize, hop, -⟩ := readPushSize_appendDataSize hdata []
  rw [pushData, hsize]
  exact hop

set_option maxRecDepth 4096 in
/-- A single byte from 1 to 16 stands for itself. -/
theorem decode_single_small (b : UInt8) : 1 ≤ b → b ≤ 16 → decode [b] = b.toNat := by
  revert b
  apply forall_uint8
  decide

/-- A number other than `-1` to `16` serializes to something other than the single bytes that
have opcodes of their own. -/
theorem serialize_not_small {n : Int64} (hn1 : n ≠ -1)
    (hsmall : n.toInt < 1 ∨ 16 < n.toInt) :
    ¬((serialize n).length = 1 ∧
      ((1 ≤ (serialize n).headD 0 ∧ (serialize n).headD 0 ≤ 16) ∨ (serialize n).headD 0 = 0x81)) := by
  rintro ⟨hlen, hbyte⟩
  obtain ⟨b, hb⟩ := List.length_eq_one_iff.mp hlen
  have hdecode : decode [b] = n.toInt := by
    rw [← hb, serialize_eq_encode, decode_encode]
  rw [hb] at hbyte
  rcases hbyte with ⟨hlo, hhi⟩ | h81
  · -- a byte from 1 to 16 is the number itself
    have hb' := decode_single_small b hlo hhi
    have hbnat : 1 ≤ b.toNat ∧ b.toNat ≤ 16 :=
      ⟨UInt8.le_iff_toNat_le.mp hlo, UInt8.le_iff_toNat_le.mp hhi⟩
    omega
  · -- `0x81` is `-1`
    have hm1 : decode [0x81] = -1 := by decide
    simp only [List.headD_cons] at h81
    rw [h81, hm1] at hdecode
    exact hn1 (Int64.toInt_inj.mp (by rw [← hdecode]; decide))

/-- `CScript << n` for an `int64_t` parses as one op: the number's own opcode for `0`, `-1`
and `1` to `16`, and otherwise a minimal push of its serialization. -/
theorem scriptOps_pushInt64 (n : Int64) :
    ∃ opcode data, scriptOps (pushInt64 n) = ([(opcode, data)], []) ∧
      (n = 0 → opcode = OP_0 ∧ data = []) ∧
      (n = -1 → opcode = OP_1NEGATE ∧ data = []) ∧
      (1 ≤ n.toInt → n.toInt ≤ 16 →
        OP_1 ≤ opcode ∧ opcode ≤ OP_16 ∧ (decodeOP_N opcode : Int) = n.toInt ∧ data = []) ∧
      (n ≠ 0 → n ≠ -1 → (n.toInt < 1 ∨ 16 < n.toInt) →
        opcode ≤ OP_PUSHDATA4 ∧ data = CScriptNum.serialize n ∧ checkMinimalPush data opcode = true) := by
  have hle : ∀ a b : Int64, a ≤ b ↔ a.toInt ≤ b.toInt := fun _ _ => Int64.le_iff_toInt_le
  have hm1 : (-1 : Int64).toInt = -1 := by decide
  have hone : (1 : Int64).toInt = 1 := by decide
  have hsixteen : (16 : Int64).toInt = 16 := by decide
  by_cases hsmall : n = -1 ∨ (1 ≤ n ∧ n ≤ 16)
  · -- `OP_1NEGATE` and `OP_1` to `OP_16`: the byte `n + 0x50`
    have hrange : -1 ≤ n.toInt ∧ n.toInt ≤ 16 := by
      rcases hsmall with rfl | ⟨h1, h16⟩
      · rw [hm1]
        decide
      · rw [hle, hone] at h1
        rw [hle, hsixteen] at h16
        omega
    have hop := toNat_smallOpcode hrange.1 hrange.2
    have hn0 : n.toInt ≠ 0 := by
      rcases hsmall with rfl | ⟨h1, -⟩
      · rw [hm1]
        decide
      · rw [hle, hone] at h1
        omega
    have hpush4 : OP_PUSHDATA4 < (n + Int64.ofNat (OP_1.toNat - 1)).toUInt64.toUInt8 := by
      rw [UInt8.lt_iff_toNat_lt, hop]
      simp [OP_PUSHDATA4]
      omega
    refine ⟨(n + Int64.ofNat (OP_1.toNat - 1)).toUInt64.toUInt8, [], ?_, ?_, ?_, ?_, ?_⟩
    · rw [pushInt64, if_pos hsmall, scriptOps_opcode hpush4]
    · intro h
      exact absurd (by rw [h]; rfl) hn0
    · intro h
      refine ⟨?_, rfl⟩
      apply UInt8.toNat_inj.mp
      rw [hop, h, hm1]
      rfl
    · intro h1 h16
      have hne : (n + Int64.ofNat (OP_1.toNat - 1)).toUInt64.toUInt8 ≠ OP_0 := by
        intro h0
        have := congrArg UInt8.toNat h0
        rw [hop] at this
        simp [OP_0] at this
        omega
      refine ⟨?_, ?_, ?_, rfl⟩
      · rw [UInt8.le_iff_toNat_le, hop]
        simp [OP_1]
        omega
      · rw [UInt8.le_iff_toNat_le, hop]
        simp [OP_16]
        omega
      · rw [decodeOP_N, if_neg hne, hop]
        simp [OP_1]
        omega
    · intro _ hn1 hout
      rcases hsmall with h | ⟨h1, h16⟩
      · exact absurd h hn1
      · rw [hle, hone] at h1
        rw [hle, hsixteen] at h16
        omega
  · by_cases hzero : n = 0
    · -- zero: `OP_0`
      refine ⟨OP_0, [], ?_, fun _ => ⟨rfl, rfl⟩, ?_, ?_, fun h => absurd hzero h⟩
      · rw [pushInt64, if_neg hsmall, if_pos hzero, scriptOps_OP_0]
      · intro h
        rw [h] at hzero
        exact absurd hzero (by decide)
      · intro h1
        rw [hzero] at h1
        exact absurd h1 (by decide)
    · -- any other number: a push of its serialization, at most nine bytes
      have hlen : (CScriptNum.serialize n).length < 2 ^ 32 := by
        have hk := length_encode_le (x := n.toInt) (k := 9) (by decide) (by
          have := n.le_toInt
          have := n.toInt_lt
          omega)
        rw [serialize_eq_encode]
        omega
      refine ⟨(pushData (CScriptNum.serialize n)).headD 0, CScriptNum.serialize n,
        by rw [pushInt64, if_neg hsmall, if_neg hzero, scriptOps_pushData hlen],
        fun h => absurd h hzero, fun h => absurd h (fun h' => hsmall (Or.inl h')), ?_, ?_⟩
      · intro h1 h16
        exact absurd (Or.inr ⟨(hle _ _).mpr (by rw [hone]; exact h1),
          (hle _ _).mpr (by rw [hsixteen]; exact h16)⟩) hsmall
      · intro _ hn1 hout
        exact ⟨pushData_opcode_le _ hlen, rfl,
          (checkMinimalPush_pushData _).mpr (serialize_not_small hn1 hout)⟩

/-- `CScript() << d1 << ... << dk` parses back, op by op, into `d1, ..., dk` with push opcodes
and stops at the end, each push minimal unless it is a single byte with an opcode of its own;
and `CScript() << n` parses as the one op `push_int64` intends. -/
theorem cscript_pushes_parse_back :
    (∀ ds : List (List UInt8), (∀ d ∈ ds, d.length < 2 ^ 32) →
      scriptOps (scriptOfPushes ds) = (ds.map fun d => ((pushData d).headD 0, d), []) ∧
      ∀ d ∈ ds, (pushData d).headD 0 ≤ OP_PUSHDATA4 ∧
        (checkMinimalPush d ((pushData d).headD 0) = true ↔
          ¬(d.length = 1 ∧ ((1 ≤ d.headD 0 ∧ d.headD 0 ≤ 16) ∨ d.headD 0 = 0x81)))) ∧
    (∀ n : Int64, ∃ opcode data, scriptOps (pushInt64 n) = ([(opcode, data)], []) ∧
      (n = 0 → opcode = OP_0 ∧ data = []) ∧
      (n = -1 → opcode = OP_1NEGATE ∧ data = []) ∧
      (1 ≤ n.toInt → n.toInt ≤ 16 →
        OP_1 ≤ opcode ∧ opcode ≤ OP_16 ∧ (decodeOP_N opcode : Int) = n.toInt ∧ data = []) ∧
      (n ≠ 0 → n ≠ -1 → (n.toInt < 1 ∨ 16 < n.toInt) →
        opcode ≤ OP_PUSHDATA4 ∧ data = CScriptNum.serialize n ∧
          checkMinimalPush data opcode = true)) := by
  refine ⟨fun ds hds => ⟨?_, fun d hd => ⟨pushData_opcode_le d (hds d hd), checkMinimalPush_pushData d⟩⟩,
    scriptOps_pushInt64⟩
  rw [scriptOfPushes_eq, scriptOps_flatMap_pushData ds hds]

/-- Two pushes, a direct one and an `OP_PUSHDATA1` one, parse back; `1000` is pushed as its two
`CScriptNum` bytes. -/
theorem cscript_pushes_parse_back_two_pushes :
    (∀ d ∈ ([[7, 8, 9], List.replicate 80 1] : List (List UInt8)), d.length < 2 ^ 32) ∧
    (scriptOps (scriptOfPushes [[7, 8, 9], List.replicate 80 1]) =
        (([[7, 8, 9], List.replicate 80 1] : List (List UInt8)).map fun d => ((pushData d).headD 0, d), []) ∧
      ∀ d ∈ ([[7, 8, 9], List.replicate 80 1] : List (List UInt8)), (pushData d).headD 0 ≤ OP_PUSHDATA4 ∧
        (checkMinimalPush d ((pushData d).headD 0) = true ↔
          ¬(d.length = 1 ∧ ((1 ≤ d.headD 0 ∧ d.headD 0 ≤ 16) ∨ d.headD 0 = 0x81)))) ∧
    ∃ opcode data, scriptOps (pushInt64 1000) = ([(opcode, data)], []) ∧
      ((1000 : Int64) = 0 → opcode = OP_0 ∧ data = []) ∧
      ((1000 : Int64) = -1 → opcode = OP_1NEGATE ∧ data = []) ∧
      (1 ≤ (1000 : Int64).toInt → (1000 : Int64).toInt ≤ 16 →
        OP_1 ≤ opcode ∧ opcode ≤ OP_16 ∧ (decodeOP_N opcode : Int) = (1000 : Int64).toInt ∧ data = []) ∧
      ((1000 : Int64) ≠ 0 → (1000 : Int64) ≠ -1 → ((1000 : Int64).toInt < 1 ∨ 16 < (1000 : Int64).toInt) →
        opcode ≤ OP_PUSHDATA4 ∧ data = CScriptNum.serialize 1000 ∧
          checkMinimalPush data opcode = true) :=
  have hlen : ∀ d ∈ ([[7, 8, 9], List.replicate 80 1] : List (List UInt8)), d.length < 2 ^ 32 := by decide
  ⟨hlen, cscript_pushes_parse_back.1 _ hlen, cscript_pushes_parse_back.2 1000⟩

end Riecoin.Script
