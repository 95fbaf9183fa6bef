-- SUMMARY: The asmap bytecode of util/asmap.cpp: DecodeBits and its four tables, Interpret, SanityCheckAsmap, and what their steps can do.
import Riecoin.Lib.BitPrefix

/-!
# The asmap bytecode

`util/asmap.cpp` reads an asmap as a stream of bits, least significant bit of each byte first,
and decodes variable-length integers from it (`DecodeBits`, with one table of class sizes for the
opcode, the ASN, the MATCH argument and the JUMP offset). `Interpret` runs the bytecode on the
bits of an IP address (most significant bit first) until a RETURN or a failed MATCH; every other
way out of its `while` loop reaches `assert(false)`. `SanityCheckAsmap` scans the bytecode once,
keeping the pending JUMP targets on a stack.

A bit read past the end of a span is undefined behaviour; the readers return `none` there, so a
`some` result of `interpret` or `sanityCheckAsmap` says that every read was in bounds. `DecodeBits`
returns `INVALID` as the source does. Both loops run on fuel, one pass per bit of the asmap at
most: each pass consumes a bit.
-/

namespace Riecoin

namespace Asmap

/-- `INVALID`: the result of a failed decoding. -/
def INVALID : Nat := 0xFFFFFFFF

/-- `ConsumeBitLE`: bit `bitpos % 8` of byte `bitpos / 8`, least significant first. -/
def consumeBitLE (bytes : List UInt8) (bitpos : Nat) : Option Bool :=
  bytes[bitpos / 8]?.map fun b => b.toNat.testBit (bitpos % 8)

/-- `ConsumeBitBE`: bit `7 - bitpos % 8` of byte `bitpos / 8`, most significant first. -/
def consumeBitBE (bytes : List UInt8) (bitpos : Nat) : Option Bool :=
  bytes[bitpos / 8]?.map fun b => b.toNat.testBit (7 - bitpos % 8)

/-- The mantissa loop of `DecodeBits`: `k` more bits, big endian, added to `val`. -/
def decodeMantissa (data : List UInt8) : Nat → Nat → Nat → Option (Nat × Nat)
  | 0, val, bitpos => some (val, bitpos)
  | k + 1, val, bitpos =>
    if data.length * 8 ≤ bitpos then some (INVALID, bitpos) else do
      let bit ← consumeBitLE data bitpos
      decodeMantissa data k (val + if bit then 2 ^ k else 0) (bitpos + 1)

@[simp] theorem decodeMantissa_zero (data : List UInt8) (val bitpos : Nat) :
    decodeMantissa data 0 val bitpos = some (val, bitpos) := rfl

theorem decodeMantissa_succ (data : List UInt8) (k val bitpos : Nat) :
    decodeMantissa data (k + 1) val bitpos =
      if data.length * 8 ≤ bitpos then some (INVALID, bitpos) else
        (do
          let bit ← consumeBitLE data bitpos
          decodeMantissa data k (val + if bit then 2 ^ k else 0) (bitpos + 1)) := rfl

/-- The loop of `DecodeBits` over the classes `bit_sizes`: a continuation bit for each class but
the last, then the mantissa of the class. The result is the value and the new `bitpos`. -/
def decodeBitsLoop (data : List UInt8) : List Nat → Nat → Nat → Option (Nat × Nat)
  | [], _, bitpos => some (INVALID, bitpos)
  | [size], val, bitpos => decodeMantissa data size val bitpos
  | size :: next :: rest, val, bitpos =>
    if data.length * 8 ≤ bitpos then some (INVALID, bitpos) else do
      let bit ← consumeBitLE data bitpos
      if bit then decodeBitsLoop data (next :: rest) (val + 2 ^ size) (bitpos + 1)
      else decodeMantissa data size val (bitpos + 1)

@[simp] theorem decodeBitsLoop_nil (data : List UInt8) (val bitpos : Nat) :
    decodeBitsLoop data [] val bitpos = some (INVALID, bitpos) := rfl

theorem decodeBitsLoop_cons_cons (data : List UInt8) (size next : Nat) (rest : List Nat) (val bitpos : Nat) :
    decodeBitsLoop data (size :: next :: rest) val bitpos =
      if data.length * 8 ≤ bitpos then some (INVALID, bitpos) else
        (do
          let bit ← consumeBitLE data bitpos
          if bit then decodeBitsLoop data (next :: rest) (val + 2 ^ size) (bitpos + 1)
          else decodeMantissa data size val (bitpos + 1)) := rfl

/-- `DecodeBits(bitpos, data, minval, bit_sizes)`. -/
def decodeBits (data : List UInt8) (bitpos minval : Nat) (bit_sizes : List Nat) : Option (Nat × Nat) :=
  decodeBitsLoop data bit_sizes minval bitpos

/-- `TYPE_BIT_SIZES`: RETURN is `[0]`, JUMP `[1,0]`, MATCH `[1,1,0]`, DEFAULT `[1,1,1]`. -/
def TYPE_BIT_SIZES : List Nat := [0, 0, 1]

def ASN_BIT_SIZES : List Nat := [15, 16, 17, 18, 19, 20, 21, 22, 23, 24]

def MATCH_BIT_SIZES : List Nat := [1, 2, 3, 4, 5, 6, 7, 8]

def JUMP_BIT_SIZES : List Nat :=
  [5, 6, 7, 8, 9, 10, 11, 12, 13, 14, 15, 16, 17, 18, 19, 20, 21, 22, 23, 24, 25, 26, 27, 28, 29, 30]

def decodeType (data : List UInt8) (bitpos : Nat) : Option (Nat × Nat) := decodeBits data bitpos 0 TYPE_BIT_SIZES

def decodeASN (data : List UInt8) (bitpos : Nat) : Option (Nat × Nat) := decodeBits data bitpos 1 ASN_BIT_SIZES

def decodeMatch (data : List UInt8) (bitpos : Nat) : Option (Nat × Nat) := decodeBits data bitpos 2 MATCH_BIT_SIZES

def decodeJump (data : List UInt8) (bitpos : Nat) : Option (Nat × Nat) := decodeBits data bitpos 17 JUMP_BIT_SIZES

-- ---------------------------------------------------------------------------
-- What a decoding reads
-- ---------------------------------------------------------------------------

theorem consumeBitLE_of_lt {data : List UInt8} {bitpos : Nat} (h : bitpos < data.length * 8) :
    ∃ bit, consumeBitLE data bitpos = some bit := by
  unfold consumeBitLE
  simp [List.getElem?_eq_getElem (show bitpos / 8 < data.length by omega)]

theorem consumeBitLE_append {data : List UInt8} {bitpos : Nat} (h : bitpos < data.length * 8) (e : List UInt8) :
    consumeBitLE (data ++ e) bitpos = consumeBitLE data bitpos := by
  unfold consumeBitLE
  simp [List.getElem?_append_left (show bitpos / 8 < data.length by omega)]

/-- The mantissa loop reads only bits before the end. -/
theorem decodeMantissa_isSome (data : List UInt8) (k : Nat) :
    ∀ val bitpos, ∃ r, decodeMantissa data k val bitpos = some r := by
  induction k with
  | zero => exact fun val bitpos => ⟨_, rfl⟩
  | succ k ih =>
    intro val bitpos
    rw [decodeMantissa_succ]
    split_ifs with hend
    · exact ⟨_, rfl⟩
    · obtain ⟨bit, hbit⟩ := consumeBitLE_of_lt (show bitpos < data.length * 8 by omega)
      rw [hbit, Option.bind_eq_bind, Option.bind_some]
      exact ih _ _

/-- A mantissa that is not `INVALID` is read from the `k` bits after `bitpos`, before the end,
the same in any extension of the data. -/
theorem decodeMantissa_valid {data : List UInt8} {k : Nat} :
    ∀ {val bitpos v p : Nat}, bitpos ≤ data.length * 8 → decodeMantissa data k val bitpos = some (v, p) →
      v ≠ INVALID →
      val ≤ v ∧ p = bitpos + k ∧ p ≤ data.length * 8 ∧
        ∀ e, decodeMantissa (data ++ e) k val bitpos = some (v, p) := by
  induction k with
  | zero =>
    intro val bitpos v p hb h _
    simp only [decodeMantissa_zero, Option.some.injEq, Prod.mk.injEq] at h
    obtain ⟨rfl, rfl⟩ := h
    exact ⟨le_rfl, rfl, hb, fun e => rfl⟩
  | succ k ih =>
    intro val bitpos v p hb h hv
    rw [decodeMantissa_succ] at h
    split_ifs at h with hend
    · simp only [Option.some.injEq, Prod.mk.injEq] at h
      exact absurd h.1.symm hv
    · -- one bit in range, then the rest of the mantissa
      obtain ⟨bit, hbit⟩ := consumeBitLE_of_lt (show bitpos < data.length * 8 by omega)
      rw [hbit, Option.bind_eq_bind, Option.bind_some] at h
      obtain ⟨hval, hp, hend', hext⟩ := ih (by omega) h hv
      refine ⟨le_trans (Nat.le_add_right _ _) hval, by omega, hend', fun e => ?_⟩
      rw [decodeMantissa_succ, if_neg (by simp; omega), consumeBitLE_append (by omega), hbit, Option.bind_eq_bind, Option.bind_some]
      exact hext e

theorem decodeBitsLoop_isSome (data : List UInt8) (sizes : List Nat) :
    ∀ val bitpos, ∃ r, decodeBitsLoop data sizes val bitpos = some r := by
  induction sizes with
  | nil => exact fun _ _ => ⟨_, rfl⟩
  | cons size rest ih =>
    intro val bitpos
    cases rest with
    | nil => exact decodeMantissa_isSome data size val bitpos
    | cons next rest =>
      rw [decodeBitsLoop_cons_cons]
      split_ifs with hend
      · exact ⟨_, rfl⟩
      · obtain ⟨bit, hbit⟩ := consumeBitLE_of_lt (show bitpos < data.length * 8 by omega)
        rw [hbit, Option.bind_eq_bind, Option.bind_some]
        cases bit
        · exact decodeMantissa_isSome data size val (bitpos + 1)
        · exact ih _ _

/-- A value that is not `INVALID` is at least `val` and is read from bits after `bitpos`, before
the end, the same in any extension of the data; with two classes or more it reads a bit at
least, the first continuation bit. -/
theorem decodeBitsLoop_valid {data : List UInt8} {sizes : List Nat} :
    ∀ {val bitpos v p : Nat}, bitpos ≤ data.length * 8 → decodeBitsLoop data sizes val bitpos = some (v, p) →
      v ≠ INVALID →
      val ≤ v ∧ bitpos ≤ p ∧ p ≤ data.length * 8 ∧ (2 ≤ sizes.length → bitpos < p) ∧
        ∀ e, decodeBitsLoop (data ++ e) sizes val bitpos = some (v, p) := by
  induction sizes with
  | nil =>
    intro val bitpos v p _ h hv
    simp only [decodeBitsLoop_nil, Option.some.injEq, Prod.mk.injEq] at h
    exact absurd h.1.symm hv
  | cons size rest ih =>
    intro val bitpos v p hb h hv
    cases rest with
    | nil =>
      -- the last class: its mantissa only
      obtain ⟨hval, hp, hend, hext⟩ := decodeMantissa_valid hb h hv
      exact ⟨hval, by omega, hend, fun hlen => by simp at hlen, hext⟩
    | cons next rest =>
      rw [decodeBitsLoop_cons_cons] at h
      split_ifs at h with hend
      · simp only [Option.some.injEq, Prod.mk.injEq] at h
        exact absurd h.1.symm hv
      · -- a continuation bit in range, then the next class or the mantissa of this one
        obtain ⟨bit, hbit⟩ := consumeBitLE_of_lt (show bitpos < data.length * 8 by omega)
        rw [hbit, Option.bind_eq_bind, Option.bind_some] at h
        have hread : ∀ e, consumeBitLE (data ++ e) bitpos = some bit := fun e => by
          rw [consumeBitLE_append (by omega), hbit]
        cases bit
        · obtain ⟨hval, hp, hend', hext⟩ := decodeMantissa_valid (by omega) h hv
          refine ⟨hval, by omega, hend', fun _ => by omega, fun e => ?_⟩
          rw [decodeBitsLoop_cons_cons, if_neg (by simp; omega), hread e, Option.bind_eq_bind, Option.bind_some]
          exact hext e
        · obtain ⟨hval, hp, hend', -, hext⟩ := ih (by omega) h hv
          refine ⟨le_trans (Nat.le_add_right _ _) hval, by omega, hend', fun _ => by omega, fun e => ?_⟩
          rw [decodeBitsLoop_cons_cons, if_neg (by simp; omega), hread e, Option.bind_eq_bind, Option.bind_some]
          exact hext e

/-- With two classes or more a valid value needs its first continuation bit, so it starts before
the end. -/
theorem decodeBitsLoop_lt_end {data : List UInt8} {size next : Nat} {rest : List Nat} {val bitpos v p : Nat}
    (h : decodeBitsLoop data (size :: next :: rest) val bitpos = some (v, p)) (hv : v ≠ INVALID) :
    bitpos < data.length * 8 := by
  rw [decodeBitsLoop_cons_cons] at h
  split_ifs at h with hend
  · simp only [Option.some.injEq, Prod.mk.injEq] at h
    exact absurd h.1.symm hv
  · omega

/-- `decodeBits` with one of the four tables, which all have two classes or more. -/
theorem decodeBits_valid {data : List UInt8} {bitpos minval : Nat} {sizes : List Nat} {v p : Nat}
    (hsizes : 2 ≤ sizes.length) (h : decodeBits data bitpos minval sizes = some (v, p)) (hv : v ≠ INVALID) :
    minval ≤ v ∧ bitpos < p ∧ p ≤ data.length * 8 ∧ ∀ e, decodeBits (data ++ e) bitpos minval sizes = some (v, p) := by
  match sizes, hsizes, h with
  | size :: next :: rest, _, h =>
    obtain ⟨hval, -, hend, hlt, hext⟩ := decodeBitsLoop_valid (Nat.le_of_lt (decodeBitsLoop_lt_end h hv)) h hv
    exact ⟨hval, hlt (by simp), hend, hext⟩

theorem decodeBits_isSome (data : List UInt8) (bitpos minval : Nat) (sizes : List Nat) :
    ∃ r, decodeBits data bitpos minval sizes = some r :=
  decodeBitsLoop_isSome data sizes minval bitpos

/-- `Instruction`. -/
inductive Instruction
  | RETURN
  | JUMP
  | MATCH
  | DEFAULT
  deriving DecidableEq, Repr

/-- `Instruction(v)`: the instruction of value `v`, none for any other value (`INVALID`). -/
def Instruction.ofVal : Nat → Option Instruction
  | 0 => some .RETURN
  | 1 => some .JUMP
  | 2 => some .MATCH
  | 3 => some .DEFAULT
  | _ => none

@[simp] theorem Instruction.ofVal_zero : Instruction.ofVal 0 = some .RETURN := rfl
@[simp] theorem Instruction.ofVal_one : Instruction.ofVal 1 = some .JUMP := rfl
@[simp] theorem Instruction.ofVal_two : Instruction.ofVal 2 = some .MATCH := rfl
@[simp] theorem Instruction.ofVal_three : Instruction.ofVal 3 = some .DEFAULT := rfl
@[simp] theorem Instruction.ofVal_add_four (n : Nat) : Instruction.ofVal (n + 4) = none := rfl

-- ---------------------------------------------------------------------------
-- Interpret
-- ---------------------------------------------------------------------------

/-- How `Interpret` ends: it returns an ASN, or it leaves its loop and reaches `assert(false)`. -/
inductive Result
  | asn (a : Nat)
  | assertFalse
  deriving DecidableEq, Repr

/-- The locals of `Interpret` that change from pass to pass. -/
structure InterpretState where
  pos : Nat
  ip_bit : Nat
  default_asn : Nat
  deriving DecidableEq, Repr

/-- The loop of a MATCH over `k` more input bits: the bits of `ip` from `ip_bit` against the bits
`k - 1, ..., 0` of `m`. The new `ip_bit` where all agree, `none` at the first that does not. -/
def matchLoop (ip : List UInt8) (m : Nat) : Nat → Nat → Option (Option Nat)
  | 0, ip_bit => some (some ip_bit)
  | k + 1, ip_bit => do
    let bit ← consumeBitBE ip ip_bit
    if bit ≠ m.testBit k then some none else matchLoop ip m k ((ip_bit + 1) % 256)

@[simp] theorem matchLoop_zero (ip : List UInt8) (m ip_bit : Nat) : matchLoop ip m 0 ip_bit = some (some ip_bit) := rfl

theorem matchLoop_succ (ip : List UInt8) (m k ip_bit : Nat) :
    matchLoop ip m (k + 1) ip_bit =
      (do
        let bit ← consumeBitBE ip ip_bit
        if bit ≠ m.testBit k then some none else matchLoop ip m k ((ip_bit + 1) % 256)) := rfl

/-- One pass of the `while` loop of `Interpret`: `.inl` where it returns or breaks, `.inr` with
the next state where it goes on. `ip_bit` and `ip_bits_end` are `uint8_t`s. -/
def interpretStep (asmap ip : List UInt8) (s : InterpretState) : Option (Result ⊕ InterpretState) := do
  let endpos := asmap.length * 8
  let ip_bits_end := ip.length * 8 % 256
  let (opcode, pos) ← decodeType asmap s.pos
  match Instruction.ofVal opcode with
  | some .RETURN =>
    let (asn, _) ← decodeASN asmap pos
    if asn = INVALID then return .inl .assertFalse
    return .inl (.asn asn)
  | some .JUMP =>
    let (jump, pos) ← decodeJump asmap pos
    if jump = INVALID then return .inl .assertFalse
    if s.ip_bit = ip_bits_end then return .inl .assertFalse
    if endpos - pos ≤ jump then return .inl .assertFalse
    let bit ← consumeBitBE ip s.ip_bit
    return .inr ⟨if bit then pos + jump else pos, (s.ip_bit + 1) % 256, s.default_asn⟩
  | some .MATCH =>
    let (m, pos) ← decodeMatch asmap pos
    if m = INVALID then return .inl .assertFalse
    let matchlen := m.log2
    if ip_bits_end - s.ip_bit < matchlen then return .inl .assertFalse
    match ← matchLoop ip m matchlen s.ip_bit with
    | none => return .inl (.asn s.default_asn)
    | some ip_bit => return .inr ⟨pos, ip_bit, s.default_asn⟩
  | some .DEFAULT =>
    let (asn, pos) ← decodeASN asmap pos
    if asn = INVALID then return .inl .assertFalse
    return .inr ⟨pos, s.ip_bit, asn⟩
  | none => return .inl .assertFalse

/-- The `while (pos < endpos)` loop of `Interpret`. -/
def interpretLoop (asmap ip : List UInt8) : Nat → InterpretState → Option Result
  | 0, _ => some .assertFalse
  | fuel + 1, s =>
    if s.pos < asmap.length * 8 then do
      match ← interpretStep asmap ip s with
      | .inl r => some r
      | .inr s' => interpretLoop asmap ip fuel s'
    else some .assertFalse

theorem interpretLoop_succ (asmap ip : List UInt8) (fuel : Nat) (s : InterpretState) :
    interpretLoop asmap ip (fuel + 1) s =
      if s.pos < asmap.length * 8 then
        (do
          match ← interpretStep asmap ip s with
          | .inl r => some r
          | .inr s' => interpretLoop asmap ip fuel s')
      else some .assertFalse := rfl

/-- `Interpret(asmap, ip)`. -/
def interpret (asmap ip : List UInt8) : Option Result :=
  interpretLoop asmap ip (asmap.length * 8) ⟨0, 0, 0⟩

-- ---------------------------------------------------------------------------
-- SanityCheckAsmap
-- ---------------------------------------------------------------------------

/-- The locals of `SanityCheckAsmap` that change from pass to pass; `jumps` is kept back first. -/
structure SanityState where
  pos : Nat
  bits : Nat
  jumps : List (Nat × Nat)
  prevopcode : Instruction
  had_incomplete_match : Bool
  deriving DecidableEq, Repr

/-- The padding loop after the last RETURN: `k` more bits from `pos`, all zero. -/
def paddingLoop (asmap : List UInt8) : Nat → Nat → Option Bool
  | 0, _ => some true
  | k + 1, pos => do
    let bit ← consumeBitLE asmap pos
    if bit then some false else paddingLoop asmap k (pos + 1)

theorem paddingLoop_succ (asmap : List UInt8) (k pos : Nat) :
    paddingLoop asmap (k + 1) pos =
      (do
        let bit ← consumeBitLE asmap pos
        if bit then some false else paddingLoop asmap k (pos + 1)) := rfl

/-- The RETURN branch of the loop of `SanityCheckAsmap`, the opcode read up to `pos`. -/
def sanityReturn (asmap : List UInt8) (s : SanityState) (pos : Nat) : Option (Bool ⊕ SanityState) := do
  if s.prevopcode = .DEFAULT then return .inl false
  let (asn, pos) ← decodeASN asmap pos
  if asn = INVALID then return .inl false
  match s.jumps with
  | [] =>
    -- nothing to execute anymore: at most 7 bits of padding, all zero
    if 7 < asmap.length * 8 - pos then return .inl false
    .inl <$> paddingLoop asmap (asmap.length * 8 - pos) pos
  | (target, b) :: rest =>
    -- continue as if the last JUMP was taken
    if pos ≠ target then return .inl false
    return .inr ⟨pos, b, rest, .JUMP, s.had_incomplete_match⟩

/-- The JUMP branch; `jump_offset` is a `uint32_t`. -/
def sanityJump (asmap : List UInt8) (s : SanityState) (pos : Nat) : Option (Bool ⊕ SanityState) := do
  let (jump, pos) ← decodeJump asmap pos
  if jump = INVALID then return .inl false
  if asmap.length * 8 - pos < jump then return .inl false
  if s.bits = 0 then return .inl false
  let bits := s.bits - 1
  let jump_offset := (pos + jump) % 2 ^ 32
  if s.jumps.head?.any (fun j => j.1 ≤ jump_offset) then return .inl false
  return .inr ⟨pos, bits, (jump_offset, bits) :: s.jumps, .JUMP, s.had_incomplete_match⟩

/-- The MATCH branch. -/
def sanityMatch (asmap : List UInt8) (s : SanityState) (pos : Nat) : Option (Bool ⊕ SanityState) := do
  let (m, pos) ← decodeMatch asmap pos
  if m = INVALID then return .inl false
  let matchlen := m.log2
  let had := if s.prevopcode ≠ .MATCH then false else s.had_incomplete_match
  if matchlen < 8 ∧ had then return .inl false
  if s.bits < matchlen then return .inl false
  return .inr ⟨pos, s.bits - matchlen, s.jumps, .MATCH, decide (matchlen < 8)⟩

/-- The DEFAULT branch. -/
def sanityDefault (asmap : List UInt8) (s : SanityState) (pos : Nat) : Option (Bool ⊕ SanityState) := do
  if s.prevopcode = .DEFAULT then return .inl false
  let (asn, pos) ← decodeASN asmap pos
  if asn = INVALID then return .inl false
  return .inr ⟨pos, s.bits, s.jumps, .DEFAULT, s.had_incomplete_match⟩

/-- One pass of the `while (pos != endpos)` loop of `SanityCheckAsmap`. -/
def sanityStep (asmap : List UInt8) (s : SanityState) : Option (Bool ⊕ SanityState) := do
  -- a jump into the middle of the previous instruction
  if s.jumps.head?.any (fun j => j.1 ≤ s.pos) then return .inl false
  let (opcode, pos) ← decodeType asmap s.pos
  match Instruction.ofVal opcode with
  | some .RETURN => sanityReturn asmap s pos
  | some .JUMP => sanityJump asmap s pos
  | some .MATCH => sanityMatch asmap s pos
  | some .DEFAULT => sanityDefault asmap s pos
  | none => return .inl false

/-- The loop of `SanityCheckAsmap`. -/
def sanityLoop (asmap : List UInt8) : Nat → SanityState → Option Bool
  | 0, _ => some false
  | fuel + 1, s =>
    if s.pos = asmap.length * 8 then some false else do
      match ← sanityStep asmap s with
      | .inl r => some r
      | .inr s' => sanityLoop asmap fuel s'

theorem sanityLoop_succ (asmap : List UInt8) (fuel : Nat) (s : SanityState) :
    sanityLoop asmap (fuel + 1) s =
      if s.pos = asmap.length * 8 then some false else
        (do
          match ← sanityStep asmap s with
          | .inl r => some r
          | .inr s' => sanityLoop asmap fuel s') := rfl

/-- `SanityCheckAsmap(asmap, bits)`. -/
def sanityCheckAsmap (asmap : List UInt8) (bits : Nat) : Option Bool :=
  sanityLoop asmap (asmap.length * 8 + 1) ⟨0, bits, [], .JUMP, false⟩

-- ---------------------------------------------------------------------------
-- What a pass of Interpret does
-- ---------------------------------------------------------------------------

theorem consumeBitBE_eq_bit {ip : List UInt8} {i : Nat} (h : i < ip.length * 8) :
    consumeBitBE ip i = some (BitPrefix.bit ip i) := by
  unfold consumeBitBE BitPrefix.bit
  simp [List.getD_eq_getElem?_getD, List.getElem?_eq_getElem (show i / 8 < ip.length by omega)]

/-- The loop of a MATCH compares the input bits with the pattern, first to last. -/
theorem matchLoop_eq {ip : List UInt8} {m : Nat} (hend : ip.length * 8 < 256) (k : Nat) :
    ∀ ip_bit, ip_bit + k ≤ ip.length * 8 →
      matchLoop ip m k ip_bit =
        some (if ∀ j < k, BitPrefix.bit ip (ip_bit + j) = m.testBit (k - 1 - j) then some (ip_bit + k) else none) := by
  induction k with
  | zero => simp
  | succ k ih =>
    intro ip_bit hb
    rw [matchLoop_succ, consumeBitBE_eq_bit (by omega), Option.bind_eq_bind, Option.bind_some]
    -- the first bit, then the others from the next input bit
    have hsplit : (∀ j < k + 1, BitPrefix.bit ip (ip_bit + j) = m.testBit (k + 1 - 1 - j)) ↔
        BitPrefix.bit ip ip_bit = m.testBit k ∧
          ∀ j < k, BitPrefix.bit ip (ip_bit + 1 + j) = m.testBit (k - 1 - j) := by
      constructor
      · intro hall
        refine ⟨by simpa using hall 0 (by omega), fun j hj => ?_⟩
        have := hall (j + 1) (by omega)
        rwa [show ip_bit + (j + 1) = ip_bit + 1 + j by omega, show k + 1 - 1 - (j + 1) = k - 1 - j by omega] at this
      · rintro ⟨hfirst, hrest⟩ j hj
        rcases j with _ | j
        · simpa using hfirst
        · have := hrest j (by omega)
          rwa [show ip_bit + 1 + j = ip_bit + (j + 1) by omega, show k - 1 - j = k + 1 - 1 - (j + 1) by omega] at this
    by_cases hfirst : BitPrefix.bit ip ip_bit = m.testBit k
    · rw [if_neg (not_not_intro hfirst), Nat.mod_eq_of_lt (by omega), ih (ip_bit + 1) (by omega)]
      simp only [hsplit, hfirst, true_and, show ip_bit + 1 + k = ip_bit + (k + 1) by omega]
    · rw [if_pos hfirst, if_neg (fun hall => hfirst (hsplit.mp hall).1)]

theorem interpretStep_return {asmap ip : List UInt8} {pos ip_bit default_asn p asn q : Nat}
    (htype : decodeType asmap pos = some (0, p)) (hasn : decodeASN asmap p = some (asn, q)) (ha : asn ≠ INVALID) :
    interpretStep asmap ip ⟨pos, ip_bit, default_asn⟩ = some (.inl (.asn asn)) := by
  unfold interpretStep
  simp [htype, hasn, ha]

/-- A JUMP with its target inside the asmap and an input bit left takes the bit and goes to the
target if it is set. -/
theorem interpretStep_jump {asmap ip : List UInt8} {pos ip_bit default_asn p jump p2 : Nat}
    (htype : decodeType asmap pos = some (1, p)) (hjump : decodeJump asmap p = some (jump, p2))
    (hj : jump ≠ INVALID) (hlt : p2 + jump < asmap.length * 8) (hbit : ip_bit < ip.length * 8)
    (hend : ip.length * 8 < 256) :
    interpretStep asmap ip ⟨pos, ip_bit, default_asn⟩ =
      some (.inr ⟨if BitPrefix.bit ip ip_bit then p2 + jump else p2, ip_bit + 1, default_asn⟩) := by
  have hne : ip_bit ≠ ip.length * 8 % 256 := by rw [Nat.mod_eq_of_lt hend]; omega
  unfold interpretStep
  simp [htype, hjump, hj, hne, consumeBitBE_eq_bit hbit,
    Nat.mod_eq_of_lt (show ip_bit + 1 < 256 by omega)]
  omega

/-- A MATCH with enough input bits left goes on past them if they agree with the pattern, and
returns the default ASN otherwise. -/
theorem interpretStep_match {asmap ip : List UInt8} {pos ip_bit default_asn p m p2 : Nat}
    (htype : decodeType asmap pos = some (2, p)) (hmatch : decodeMatch asmap p = some (m, p2)) (hm : m ≠ INVALID)
    (hbits : ip_bit + m.log2 ≤ ip.length * 8) (hend : ip.length * 8 < 256) :
    interpretStep asmap ip ⟨pos, ip_bit, default_asn⟩ =
      some (if ∀ j < m.log2, BitPrefix.bit ip (ip_bit + j) = m.testBit (m.log2 - 1 - j)
        then .inr ⟨p2, ip_bit + m.log2, default_asn⟩ else .inl (.asn default_asn)) := by
  have hroom : ¬ ip.length * 8 % 256 - ip_bit < m.log2 := by rw [Nat.mod_eq_of_lt hend]; omega
  unfold interpretStep
  simp only [htype, Instruction.ofVal_two, hmatch, hm, hroom, matchLoop_eq hend _ _ hbits,
    Option.bind_eq_bind, Option.bind_some, if_false]
  split_ifs <;> rfl

theorem interpretStep_default {asmap ip : List UInt8} {pos ip_bit default_asn p asn p2 : Nat}
    (htype : decodeType asmap pos = some (3, p)) (hasn : decodeASN asmap p = some (asn, p2)) (ha : asn ≠ INVALID) :
    interpretStep asmap ip ⟨pos, ip_bit, default_asn⟩ = some (.inr ⟨p2, ip_bit, asn⟩) := by
  unfold interpretStep
  simp [htype, hasn, ha]

/-- A pass that returns ends the loop with its result. -/
theorem interpretLoop_of_inl {asmap ip : List UInt8} {pos ip_bit default_asn : Nat} {r : Result} (fuel : Nat)
    (hpos : pos < asmap.length * 8) (h : interpretStep asmap ip ⟨pos, ip_bit, default_asn⟩ = some (.inl r)) :
    interpretLoop asmap ip (fuel + 1) ⟨pos, ip_bit, default_asn⟩ = some r := by
  rw [interpretLoop_succ, if_pos hpos, h, Option.bind_eq_bind, Option.bind_some]

/-- A pass that goes on hands the loop its next state. -/
theorem interpretLoop_of_inr {asmap ip : List UInt8} {pos ip_bit default_asn : Nat} {s' : InterpretState}
    (fuel : Nat) (hpos : pos < asmap.length * 8) (h : interpretStep asmap ip ⟨pos, ip_bit, default_asn⟩ = some (.inr s')) :
    interpretLoop asmap ip (fuel + 1) ⟨pos, ip_bit, default_asn⟩ = interpretLoop asmap ip fuel s' := by
  rw [interpretLoop_succ, if_pos hpos, h, Option.bind_eq_bind, Option.bind_some]

-- ---------------------------------------------------------------------------
-- What a pass of SanityCheckAsmap can do
-- ---------------------------------------------------------------------------

theorem sanityReturn_inr {asmap : List UInt8} {s s' : SanityState} {pos : Nat}
    (h : sanityReturn asmap s pos = some (.inr s')) :
    ∃ a t b rest, decodeASN asmap pos = some (a, t) ∧ a ≠ INVALID ∧ s.jumps = (t, b) :: rest ∧
      s' = ⟨t, b, rest, .JUMP, s.had_incomplete_match⟩ := by
  obtain ⟨⟨a, p⟩, hdec⟩ : ∃ r, decodeASN asmap pos = some r := decodeBits_isSome asmap pos 1 ASN_BIT_SIZES
  unfold sanityReturn at h
  rcases hj : s.jumps with _ | ⟨⟨t, b⟩, rest⟩ <;>
    simp only [hdec, hj, Option.bind_eq_bind, Option.bind_some] at h <;> split_ifs at h with hprev ha hp <;>
    simp at h
  obtain rfl : p = t := by simpa using hp
  exact ⟨a, p, b, rest, hdec, ha, rfl, h.symm⟩

theorem sanityReturn_inl_true {asmap : List UInt8} {s : SanityState} {pos : Nat}
    (h : sanityReturn asmap s pos = some (.inl true)) :
    ∃ a q, decodeASN asmap pos = some (a, q) ∧ a ≠ INVALID ∧ s.jumps = [] ∧ asmap.length * 8 - q ≤ 7 ∧
      paddingLoop asmap (asmap.length * 8 - q) q = some true := by
  obtain ⟨⟨a, p⟩, hdec⟩ : ∃ r, decodeASN asmap pos = some r := decodeBits_isSome asmap pos 1 ASN_BIT_SIZES
  unfold sanityReturn at h
  rcases hj : s.jumps with _ | ⟨⟨t, b⟩, rest⟩ <;>
    simp only [hdec, hj, Option.bind_eq_bind, Option.bind_some] at h <;> split_ifs at h with hprev ha hp <;>
    simp at h
  exact ⟨a, p, hdec, ha, rfl, by omega, by simpa using h⟩

theorem sanityJump_inr {asmap : List UInt8} {s s' : SanityState} {pos : Nat}
    (h : sanityJump asmap s pos = some (.inr s')) :
    ∃ j p, decodeJump asmap pos = some (j, p) ∧ j ≠ INVALID ∧ j ≤ asmap.length * 8 - p ∧ 0 < s.bits ∧
      s' = ⟨p, s.bits - 1, ((p + j) % 2 ^ 32, s.bits - 1) :: s.jumps, .JUMP, s.had_incomplete_match⟩ := by
  obtain ⟨⟨j, p⟩, hdec⟩ : ∃ r, decodeJump asmap pos = some r := decodeBits_isSome asmap pos 17 JUMP_BIT_SIZES
  unfold sanityJump at h
  simp only [hdec, Option.bind_eq_bind, Option.bind_some] at h
  split_ifs at h with hj hrange hbits hhead <;> simp at h
  exact ⟨j, p, hdec, hj, by omega, by omega, h.symm⟩

theorem sanityJump_ne_inl_true {asmap : List UInt8} {s : SanityState} {pos : Nat} :
    sanityJump asmap s pos ≠ some (.inl true) := by
  intro h
  obtain ⟨⟨j, p⟩, hdec⟩ : ∃ r, decodeJump asmap pos = some r := decodeBits_isSome asmap pos 17 JUMP_BIT_SIZES
  unfold sanityJump at h
  simp only [hdec, Option.bind_eq_bind, Option.bind_some] at h
  split_ifs at h <;> simp at h

theorem sanityMatch_inr {asmap : List UInt8} {s s' : SanityState} {pos : Nat}
    (h : sanityMatch asmap s pos = some (.inr s')) :
    ∃ m p, decodeMatch asmap pos = some (m, p) ∧ m ≠ INVALID ∧ m.log2 ≤ s.bits ∧
      s' = ⟨p, s.bits - m.log2, s.jumps, .MATCH, decide (m.log2 < 8)⟩ := by
  obtain ⟨⟨m, p⟩, hdec⟩ : ∃ r, decodeMatch asmap pos = some r := decodeBits_isSome asmap pos 2 MATCH_BIT_SIZES
  unfold sanityMatch at h
  simp only [hdec, Option.bind_eq_bind, Option.bind_some] at h
  split_ifs at h with hm hinc hbits <;> simp at h <;> exact ⟨m, p, hdec, hm, by omega, h.symm⟩

theorem sanityMatch_ne_inl_true {asmap : List UInt8} {s : SanityState} {pos : Nat} :
    sanityMatch asmap s pos ≠ some (.inl true) := by
  intro h
  obtain ⟨⟨m, p⟩, hdec⟩ : ∃ r, decodeMatch asmap pos = some r := decodeBits_isSome asmap pos 2 MATCH_BIT_SIZES
  unfold sanityMatch at h
  simp only [hdec, Option.bind_eq_bind, Option.bind_some] at h
  split_ifs at h <;> simp at h

theorem sanityDefault_inr {asmap : List UInt8} {s s' : SanityState} {pos : Nat}
    (h : sanityDefault asmap s pos = some (.inr s')) :
    ∃ a p, decodeASN asmap pos = some (a, p) ∧ a ≠ INVALID ∧
      s' = ⟨p, s.bits, s.jumps, .DEFAULT, s.had_incomplete_match⟩ := by
  obtain ⟨⟨a, p⟩, hdec⟩ : ∃ r, decodeASN asmap pos = some r := decodeBits_isSome asmap pos 1 ASN_BIT_SIZES
  unfold sanityDefault at h
  simp only [hdec, Option.bind_eq_bind, Option.bind_some] at h
  split_ifs at h with hprev ha <;> simp at h
  exact ⟨a, p, hdec, ha, h.symm⟩

theorem sanityDefault_ne_inl_true {asmap : List UInt8} {s : SanityState} {pos : Nat} :
    sanityDefault asmap s pos ≠ some (.inl true) := by
  intro h
  obtain ⟨⟨a, p⟩, hdec⟩ : ∃ r, decodeASN asmap pos = some r := decodeBits_isSome asmap pos 1 ASN_BIT_SIZES
  unfold sanityDefault at h
  simp only [hdec, Option.bind_eq_bind, Option.bind_some] at h
  split_ifs at h <;> simp at h

/-- A pass of the loop reads the opcode and runs its branch, or stops with `false`. -/
theorem sanityStep_cases {asmap : List UInt8} {s : SanityState} {r : Bool ⊕ SanityState}
    (h : sanityStep asmap s = some r) :
    r = .inl false ∨ ∃ opcode pos, decodeType asmap s.pos = some (opcode, pos) ∧
      ((opcode = 0 ∧ sanityReturn asmap s pos = some r) ∨ (opcode = 1 ∧ sanityJump asmap s pos = some r) ∨
        (opcode = 2 ∧ sanityMatch asmap s pos = some r) ∨ (opcode = 3 ∧ sanityDefault asmap s pos = some r)) := by
  obtain ⟨⟨opcode, pos⟩, hdec⟩ : ∃ r, decodeType asmap s.pos = some r := decodeBits_isSome asmap s.pos 0 TYPE_BIT_SIZES
  unfold sanityStep at h
  split_ifs at h
  · simp at h
    exact .inl h.symm
  · simp only [hdec, Option.bind_eq_bind, Option.bind_some] at h
    match opcode, hdec, h with
    | 0, hdec, h => exact .inr ⟨0, pos, hdec, .inl ⟨rfl, h⟩⟩
    | 1, hdec, h => exact .inr ⟨1, pos, hdec, .inr (.inl ⟨rfl, h⟩)⟩
    | 2, hdec, h => exact .inr ⟨2, pos, hdec, .inr (.inr (.inl ⟨rfl, h⟩))⟩
    | 3, hdec, h => exact .inr ⟨3, pos, hdec, .inr (.inr (.inr ⟨rfl, h⟩))⟩
    | _ + 4, _, h =>
      simp at h
      exact .inl h.symm

-- ---------------------------------------------------------------------------
-- SanityCheckAsmap reads nothing past the end
-- ---------------------------------------------------------------------------

/-- The padding loop reads only the bits between its start and the end. -/
theorem paddingLoop_isSome (asmap : List UInt8) (k : Nat) :
    ∀ pos, k ≤ asmap.length * 8 - pos → ∃ r, paddingLoop asmap k pos = some r := by
  induction k with
  | zero => exact fun _ _ => ⟨_, rfl⟩
  | succ k ih =>
    intro pos hk
    obtain ⟨bit, hbit⟩ := consumeBitLE_of_lt (show pos < asmap.length * 8 by omega)
    rw [paddingLoop_succ, hbit, Option.bind_eq_bind, Option.bind_some]
    split_ifs
    · exact ⟨_, rfl⟩
    · exact ih (pos + 1) (by omega)

theorem sanityReturn_isSome (asmap : List UInt8) (s : SanityState) (pos : Nat) :
    ∃ r, sanityReturn asmap s pos = some r := by
  obtain ⟨⟨a, p⟩, hdec⟩ : ∃ r, decodeASN asmap pos = some r := decodeBits_isSome asmap pos 1 ASN_BIT_SIZES
  obtain ⟨pad, hpad⟩ := paddingLoop_isSome asmap (asmap.length * 8 - p) p le_rfl
  unfold sanityReturn
  rcases s.jumps with _ | ⟨⟨t, b⟩, rest⟩ <;>
    simp only [hdec, hpad, Option.bind_eq_bind, Option.bind_some] <;> split_ifs <;> exact ⟨_, rfl⟩

theorem sanityJump_isSome (asmap : List UInt8) (s : SanityState) (pos : Nat) :
    ∃ r, sanityJump asmap s pos = some r := by
  obtain ⟨⟨j, p⟩, hdec⟩ : ∃ r, decodeJump asmap pos = some r := decodeBits_isSome asmap pos 17 JUMP_BIT_SIZES
  unfold sanityJump
  simp only [hdec, Option.bind_eq_bind, Option.bind_some]
  split_ifs <;> exact ⟨_, rfl⟩

theorem sanityMatch_isSome (asmap : List UInt8) (s : SanityState) (pos : Nat) :
    ∃ r, sanityMatch asmap s pos = some r := by
  obtain ⟨⟨m, p⟩, hdec⟩ : ∃ r, decodeMatch asmap pos = some r := decodeBits_isSome asmap pos 2 MATCH_BIT_SIZES
  unfold sanityMatch
  simp only [hdec, Option.bind_eq_bind, Option.bind_some]
  split_ifs <;> exact ⟨_, rfl⟩

theorem sanityDefault_isSome (asmap : List UInt8) (s : SanityState) (pos : Nat) :
    ∃ r, sanityDefault asmap s pos = some r := by
  obtain ⟨⟨a, p⟩, hdec⟩ : ∃ r, decodeASN asmap pos = some r := decodeBits_isSome asmap pos 1 ASN_BIT_SIZES
  unfold sanityDefault
  simp only [hdec, Option.bind_eq_bind, Option.bind_some]
  split_ifs <;> exact ⟨_, rfl⟩

/-- Every pass of `SanityCheckAsmap` is defined: each read it makes is guarded by `endpos`. -/
theorem sanityStep_isSome (asmap : List UInt8) (s : SanityState) : ∃ r, sanityStep asmap s = some r := by
  obtain ⟨⟨opcode, pos⟩, hdec⟩ : ∃ r, decodeType asmap s.pos = some r := decodeBits_isSome asmap s.pos 0 TYPE_BIT_SIZES
  unfold sanityStep
  split_ifs
  · exact ⟨_, rfl⟩
  · simp only [hdec, Option.bind_eq_bind, Option.bind_some]
    rcases Instruction.ofVal opcode with _ | _ | _ | _ | _
    · exact ⟨_, rfl⟩
    · exact sanityReturn_isSome asmap s pos
    · exact sanityJump_isSome asmap s pos
    · exact sanityMatch_isSome asmap s pos
    · exact sanityDefault_isSome asmap s pos

theorem sanityLoop_isSome (asmap : List UInt8) (fuel : Nat) : ∀ s, ∃ r, sanityLoop asmap fuel s = some r := by
  induction fuel with
  | zero => exact fun _ => ⟨_, rfl⟩
  | succ fuel ih =>
    intro s
    rw [sanityLoop_succ]
    split_ifs
    · exact ⟨_, rfl⟩
    · obtain ⟨r, hr⟩ := sanityStep_isSome asmap s
      rw [hr, Option.bind_eq_bind, Option.bind_some]
      cases r with
      | inl b => exact ⟨_, rfl⟩
      | inr s' => exact ih s'

theorem sanityCheckAsmap_isSome (asmap : List UInt8) (bits : Nat) : ∃ r, sanityCheckAsmap asmap bits = some r :=
  sanityLoop_isSome asmap _ _

/-- A loop that accepts either accepts in this pass or goes on to a state from which it accepts. -/
theorem sanityLoop_succ_eq_true {asmap : List UInt8} {fuel : Nat} {s : SanityState}
    (h : sanityLoop asmap (fuel + 1) s = some true) :
    sanityStep asmap s = some (.inl true) ∨ ∃ s', sanityStep asmap s = some (.inr s') ∧ sanityLoop asmap fuel s' = some true := by
  rw [sanityLoop_succ] at h
  split_ifs at h
  · simp at h
  · obtain ⟨r, hr⟩ := sanityStep_isSome asmap s
    rw [hr, Option.bind_eq_bind, Option.bind_some] at h
    cases r with
    | inl b =>
      obtain rfl : b = true := by simpa using h
      exact .inl hr
    | inr s' => exact .inr ⟨s', hr, h⟩

end Asmap

end Riecoin
