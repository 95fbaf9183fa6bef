-- SUMMARY: The trie a sane asmap encodes: its grammar, that Interpret evaluates it on every long enough input, and that SanityCheckAsmap accepts no truncation of a sane asmap.
import Riecoin.Util.Asmap

/-!
# What a sane asmap computes

The bytecode of `util/asmap.cpp` encodes a binary trie over the bits of an IP address: a JUMP
branches on the next input bit, its first subtree right after it and its second at the JUMP's
target; a MATCH compares a few input bits with a pattern and gives up with the default ASN when
they differ; a DEFAULT sets that ASN; a RETURN ends with an ASN.

`AsmapTree` is that trie and `AsmapTree.eval` its meaning. `Parses asmap pos b t q` is the grammar:
the bits of `asmap` from `pos` to `q` encode `t`, and no path of `t` reads more than `b` input
bits. Two results tie the source's functions to it:

* `SanityCheckAsmap` scans the bytecode once, following the fall-through of each JUMP and keeping
  its target on a stack. Read backwards, each pass of the scan builds one node of the tree
  (`ScanInv`), so an accepted asmap parses from bit 0 with `bits` input bits.
* `Interpret` walks one path of the tree, so on a parsed asmap it returns `eval` and never reaches
  its `assert(false)`.

Parses are deterministic and survive appending bytes, so a sane asmap has no sane truncation.
-/

namespace Riecoin

namespace Asmap

/-- The trie an asmap encodes. A `matchBits m` node compares `m.log2` input bits with the bits of
`m` below its top one. -/
inductive AsmapTree
  | ret (asn : Nat)
  | jump (zero one : AsmapTree)
  | matchBits (m : Nat) (next : AsmapTree)
  | default (asn : Nat) (next : AsmapTree)
  deriving DecidableEq, Repr

namespace AsmapTree

/-- The ASN the trie gives the input `ip`, its bits read from `ip_bit` on, with `d` the ASN of the
last DEFAULT on the path so far (`0` before any). -/
def eval (ip : List UInt8) : AsmapTree → Nat → Nat → Nat
  | ret asn, _, _ => asn
  | jump zero one, ip_bit, d =>
    if BitPrefix.bit ip ip_bit then one.eval ip (ip_bit + 1) d else zero.eval ip (ip_bit + 1) d
  | matchBits m next, ip_bit, d =>
    if ∀ j < m.log2, BitPrefix.bit ip (ip_bit + j) = m.testBit (m.log2 - 1 - j)
    then next.eval ip (ip_bit + m.log2) d else d
  | default asn next, ip_bit, _ => next.eval ip ip_bit asn

/-- Every ASN of a RETURN or a DEFAULT of the trie is at least 1. -/
def AsnsPos : AsmapTree → Prop
  | ret asn => 1 ≤ asn
  | jump zero one => zero.AsnsPos ∧ one.AsnsPos
  | matchBits _ next => next.AsnsPos
  | default asn next => 1 ≤ asn ∧ next.AsnsPos

end AsmapTree

/-- `Parses asmap pos b t q`: the bits of `asmap` from `pos` to `q` encode `t`, and `t` reads at
most `b` input bits on any path. The first subtree of a JUMP ends where its target starts. -/
inductive Parses (asmap : List UInt8) : Nat → Nat → AsmapTree → Nat → Prop
  | ret {pos b p asn q : Nat} :
      decodeType asmap pos = some (0, p) → decodeASN asmap p = some (asn, q) → asn ≠ INVALID →
      Parses asmap pos b (.ret asn) q
  | jump {pos b p jump p2 q : Nat} {zero one : AsmapTree} :
      decodeType asmap pos = some (1, p) → decodeJump asmap p = some (jump, p2) → jump ≠ INVALID → 0 < b →
      Parses asmap p2 (b - 1) zero (p2 + jump) → Parses asmap (p2 + jump) (b - 1) one q →
      Parses asmap pos b (.jump zero one) q
  | matchBits {pos b p m p2 q : Nat} {next : AsmapTree} :
      decodeType asmap pos = some (2, p) → decodeMatch asmap p = some (m, p2) → m ≠ INVALID → m.log2 ≤ b →
      Parses asmap p2 (b - m.log2) next q →
      Parses asmap pos b (.matchBits m next) q
  | default {pos b p asn p2 q : Nat} {next : AsmapTree} :
      decodeType asmap pos = some (3, p) → decodeASN asmap p = some (asn, p2) → asn ≠ INVALID →
      Parses asmap p2 b next q →
      Parses asmap pos b (.default asn next) q

-- ---------------------------------------------------------------------------
-- The grammar
-- ---------------------------------------------------------------------------

section Parses

variable {asmap : List UInt8} {pos b q : Nat} {t : AsmapTree}

/-- Two decodings at one position agree. -/
theorem decoded_eq {r : Option (Nat × Nat)} {v p v' p' : Nat} (h : r = some (v, p)) (h' : r = some (v', p')) :
    v = v' ∧ p = p' := by
  simpa using h.symm.trans h'

/-- A subtree's bytecode is not empty and lies inside the asmap. -/
theorem Parses.lt_end (h : Parses asmap pos b t q) : pos < q ∧ q ≤ asmap.length * 8 := by
  induction h with
  | ret htype hasn ha =>
    have h1 := (decodeBits_valid (by decide) htype (by decide)).2.1
    have h2 := (decodeBits_valid (by decide) hasn ha).2
    omega
  | jump htype hjump hj _ _ _ ih0 ih1 =>
    have h1 := (decodeBits_valid (by decide) htype (by decide)).2.1
    have h2 := (decodeBits_valid (by decide) hjump hj).2.1
    omega
  | matchBits htype hmatch hm _ _ ih =>
    have h1 := (decodeBits_valid (by decide) htype (by decide)).2.1
    have h2 := (decodeBits_valid (by decide) hmatch hm).2.1
    omega
  | default htype hasn ha _ ih =>
    have h1 := (decodeBits_valid (by decide) htype (by decide)).2.1
    have h2 := (decodeBits_valid (by decide) hasn ha).2.1
    omega

/-- The ASN tables start at 1, so a parsed trie holds no ASN 0. -/
theorem Parses.asnsPos (h : Parses asmap pos b t q) : t.AsnsPos := by
  induction h with
  | ret _ hasn ha => exact (decodeBits_valid (by decide) hasn ha).1
  | jump _ _ _ _ _ _ ih0 ih1 => exact ⟨ih0, ih1⟩
  | matchBits _ _ _ _ _ ih => exact ih
  | default _ hasn ha _ ih => exact ⟨(decodeBits_valid (by decide) hasn ha).1, ih⟩

/-- Bytes after the end do not change a parse. -/
theorem Parses.append (h : Parses asmap pos b t q) (e : List UInt8) : Parses (asmap ++ e) pos b t q := by
  induction h with
  | ret htype hasn ha =>
    exact .ret ((decodeBits_valid (by decide) htype (by decide)).2.2.2 e)
      ((decodeBits_valid (by decide) hasn ha).2.2.2 e) ha
  | jump htype hjump hj hb _ _ ih0 ih1 =>
    exact .jump ((decodeBits_valid (by decide) htype (by decide)).2.2.2 e)
      ((decodeBits_valid (by decide) hjump hj).2.2.2 e) hj hb ih0 ih1
  | matchBits htype hmatch hm hb _ ih =>
    exact .matchBits ((decodeBits_valid (by decide) htype (by decide)).2.2.2 e)
      ((decodeBits_valid (by decide) hmatch hm).2.2.2 e) hm hb ih
  | default htype hasn ha _ ih =>
    exact .default ((decodeBits_valid (by decide) htype (by decide)).2.2.2 e)
      ((decodeBits_valid (by decide) hasn ha).2.2.2 e) ha ih

/-- The bytecode at a position encodes one trie, ending at one position, whatever the budgets. -/
theorem Parses.det {b' q' : Nat} {t' : AsmapTree} (h : Parses asmap pos b t q) (h' : Parses asmap pos b' t' q') :
    t = t' ∧ q = q' := by
  induction h generalizing b' t' q' with
  | ret htype hasn _ =>
    cases h' with
    | ret htype' hasn' _ =>
      obtain ⟨-, rfl⟩ := decoded_eq htype htype'
      obtain ⟨rfl, rfl⟩ := decoded_eq hasn hasn'
      exact ⟨rfl, rfl⟩
    | jump htype' | matchBits htype' | default htype' => exact absurd (decoded_eq htype htype').1 (by decide)
  | jump htype hjump _ _ _ _ ih0 ih1 =>
    cases h' with
    | jump htype' hjump' _ _ h0' h1' =>
      obtain ⟨-, rfl⟩ := decoded_eq htype htype'
      obtain ⟨rfl, rfl⟩ := decoded_eq hjump hjump'
      obtain ⟨rfl, -⟩ := ih0 h0'
      obtain ⟨rfl, rfl⟩ := ih1 h1'
      exact ⟨rfl, rfl⟩
    | ret htype' | matchBits htype' | default htype' => exact absurd (decoded_eq htype htype').1 (by decide)
  | matchBits htype hmatch _ _ _ ih =>
    cases h' with
    | matchBits htype' hmatch' _ _ h' =>
      obtain ⟨-, rfl⟩ := decoded_eq htype htype'
      obtain ⟨rfl, rfl⟩ := decoded_eq hmatch hmatch'
      obtain ⟨rfl, rfl⟩ := ih h'
      exact ⟨rfl, rfl⟩
    | ret htype' | jump htype' | default htype' => exact absurd (decoded_eq htype htype').1 (by decide)
  | default htype hasn _ _ ih =>
    cases h' with
    | default htype' hasn' _ h' =>
      obtain ⟨-, rfl⟩ := decoded_eq htype htype'
      obtain ⟨rfl, rfl⟩ := decoded_eq hasn hasn'
      obtain ⟨rfl, rfl⟩ := ih h'
      exact ⟨rfl, rfl⟩
    | ret htype' | jump htype' | matchBits htype' => exact absurd (decoded_eq htype htype').1 (by decide)

end Parses

-- ---------------------------------------------------------------------------
-- Interpret walks the trie
-- ---------------------------------------------------------------------------

section Interpret

variable {asmap ip : List UInt8}

/-- On the bytecode of `t`, the loop of `Interpret` returns `t.eval`, as long as the input has
the bits `t` may read left and the fuel covers the bytecode: each pass moves `pos` forward inside
it. -/
theorem interpretLoop_of_parses (hend : ip.length * 8 < 256) {pos b q : Nat} {t : AsmapTree}
    (h : Parses asmap pos b t q) :
    ∀ {ip_bit d fuel : Nat}, ip_bit + b ≤ ip.length * 8 → q - pos ≤ fuel →
      interpretLoop asmap ip fuel ⟨pos, ip_bit, d⟩ = some (.asn (t.eval ip ip_bit d)) := by
  induction h with
  | ret htype hasn ha =>
    intro ip_bit d fuel _ hfuel
    obtain ⟨hlt, hq⟩ := (Parses.ret htype hasn ha (b := 0)).lt_end
    obtain ⟨fuel, rfl⟩ : ∃ f, fuel = f + 1 := ⟨fuel - 1, by omega⟩
    rw [interpretLoop_of_inl fuel (by omega) (interpretStep_return htype hasn ha)]
    rfl
  | jump htype hjump hj hb h0 h1 ih0 ih1 =>
    intro ip_bit d fuel hbits hfuel
    have hp := (decodeBits_valid (by decide) htype (by decide)).2.1
    have hp2 := (decodeBits_valid (by decide) hjump hj).2.1
    obtain ⟨hlt0, -⟩ := h0.lt_end
    obtain ⟨hlt1, hq⟩ := h1.lt_end
    obtain ⟨fuel, rfl⟩ : ∃ f, fuel = f + 1 := ⟨fuel - 1, by omega⟩
    rw [interpretLoop_of_inr fuel (by omega) (interpretStep_jump htype hjump hj (by omega) (by omega) hend)]
    simp only [AsmapTree.eval]
    -- the same input bit picks the target in the bytecode and the subtree in the trie
    split_ifs
    · exact ih1 (by omega) (by omega)
    · exact ih0 (by omega) (by omega)
  | matchBits htype hmatch hm hb h ih =>
    intro ip_bit d fuel hbits hfuel
    have hp := (decodeBits_valid (by decide) htype (by decide)).2.1
    have hp2 := (decodeBits_valid (by decide) hmatch hm).2.1
    obtain ⟨hlt, hq⟩ := h.lt_end
    obtain ⟨fuel, rfl⟩ : ∃ f, fuel = f + 1 := ⟨fuel - 1, by omega⟩
    have hstep := @interpretStep_match _ ip _ ip_bit d _ _ _ htype hmatch hm (by omega) hend
    simp only [AsmapTree.eval]
    split_ifs at hstep ⊢
    · rw [interpretLoop_of_inr fuel (by omega) hstep]
      exact ih (by omega) (by omega)
    · exact interpretLoop_of_inl fuel (by omega) hstep
  | default htype hasn ha h ih =>
    intro ip_bit d fuel hbits hfuel
    have hp := (decodeBits_valid (by decide) htype (by decide)).2.1
    have hp2 := (decodeBits_valid (by decide) hasn ha).2.1
    obtain ⟨hlt, hq⟩ := h.lt_end
    obtain ⟨fuel, rfl⟩ : ∃ f, fuel = f + 1 := ⟨fuel - 1, by omega⟩
    rw [interpretLoop_of_inr fuel (by omega) (interpretStep_default htype hasn ha)]
    exact ih hbits (by omega)

/-- `Interpret` on an asmap that parses from bit 0 with `bits` input bits returns the trie's ASN
for every input of at least `bits` bits (and at most 248, the range of its `uint8_t` counters). -/
theorem interpret_of_parses {bits q : Nat} {t : AsmapTree} (h : Parses asmap 0 bits t q)
    (hbits : bits ≤ ip.length * 8) (hip : ip.length * 8 ≤ 248) :
    interpret asmap ip = some (.asn (t.eval ip 0 0)) :=
  interpretLoop_of_parses (by omega) h (by omega) (by have := h.lt_end.2; omega)

end Interpret

-- ---------------------------------------------------------------------------
-- SanityCheckAsmap builds the trie
-- ---------------------------------------------------------------------------

/-- Where the subtree being scanned has to end: at the innermost pending jump target, or at `q`,
the end of the last RETURN, once none is pending. -/
def chainEnd (q : Nat) : List (Nat × Nat) → Nat
  | [] => q
  | (target, _) :: _ => target

/-- The subtrees the scan has still to reach through its pending jumps: from each target, with
the input bits left there, up to the next target, the last one up to `q`. -/
def Pending (asmap : List UInt8) (q : Nat) : List (Nat × Nat) → Prop
  | [] => True
  | (target, b) :: rest => (∃ t, Parses asmap target b t (chainEnd q rest)) ∧ Pending asmap q rest

/-- What a scan state says about the bytecode when the scan goes on to accept with its last
RETURN ending at `q`. -/
structure ScanInv (asmap : List UInt8) (q : Nat) (s : SanityState) : Prop where
  current : ∃ t, Parses asmap s.pos s.bits t (chainEnd q s.jumps)
  pending : Pending asmap q s.jumps

/-- How an accepted scan ends at `q`: at most 7 bits of padding, all zero. -/
structure Padded (asmap : List UInt8) (q : Nat) : Prop where
  le_end : q ≤ asmap.length * 8
  short : asmap.length * 8 - q ≤ 7
  zero : paddingLoop asmap (asmap.length * 8 - q) q = some true

section Scan

variable {asmap : List UInt8} {q pos : Nat} {s s' : SanityState}

-- Each opcode's pass, read backwards: the invariant after it gives the invariant before it.

theorem scanInv_of_return (htype : decodeType asmap s.pos = some (0, pos))
    (h : sanityReturn asmap s pos = some (.inr s')) (hinv : ScanInv asmap q s') : ScanInv asmap q s := by
  obtain ⟨asn, target, b, rest, hasn, ha, hjumps, rfl⟩ := sanityReturn_inr h
  obtain ⟨next, hnext⟩ := hinv.current
  refine ⟨⟨.ret asn, ?_⟩, ?_⟩
  · rw [hjumps]
    exact .ret htype hasn ha
  · rw [hjumps]
    exact ⟨⟨next, hnext⟩, hinv.pending⟩

theorem scanInv_of_jump (hsize : asmap.length * 8 < 2 ^ 32) (htype : decodeType asmap s.pos = some (1, pos))
    (h : sanityJump asmap s pos = some (.inr s')) (hinv : ScanInv asmap q s') : ScanInv asmap q s := by
  obtain ⟨jump, p, hjump, hj, hroom, hbits, rfl⟩ := sanityJump_inr h
  have hp := (decodeBits_valid (by decide) hjump hj).2.2.1
  -- the target fits the `uint32_t` jump_offset
  have hoff : (p + jump) % 2 ^ 32 = p + jump := Nat.mod_eq_of_lt (by omega)
  obtain ⟨zero, hzero⟩ := hinv.current
  obtain ⟨⟨one, hone⟩, hrest⟩ := hinv.pending
  simp only [chainEnd, hoff] at hzero hone
  exact ⟨⟨.jump zero one, .jump htype hjump hj hbits hzero hone⟩, hrest⟩

theorem scanInv_of_match (htype : decodeType asmap s.pos = some (2, pos))
    (h : sanityMatch asmap s pos = some (.inr s')) (hinv : ScanInv asmap q s') : ScanInv asmap q s := by
  obtain ⟨m, p, hmatch, hm, hbits, rfl⟩ := sanityMatch_inr h
  obtain ⟨next, hnext⟩ := hinv.current
  exact ⟨⟨.matchBits m next, .matchBits htype hmatch hm hbits hnext⟩, hinv.pending⟩

theorem scanInv_of_default (htype : decodeType asmap s.pos = some (3, pos))
    (h : sanityDefault asmap s pos = some (.inr s')) (hinv : ScanInv asmap q s') : ScanInv asmap q s := by
  obtain ⟨asn, p, hasn, ha, rfl⟩ := sanityDefault_inr h
  obtain ⟨next, hnext⟩ := hinv.current
  exact ⟨⟨.default asn next, .default htype hasn ha hnext⟩, hinv.pending⟩

/-- A pass that goes on keeps the invariant, read backwards. -/
theorem scanInv_of_step (hsize : asmap.length * 8 < 2 ^ 32) (h : sanityStep asmap s = some (.inr s'))
    (hinv : ScanInv asmap q s') : ScanInv asmap q s := by
  rcases sanityStep_cases h with hfalse | ⟨opcode, pos, htype, ⟨rfl, hr⟩ | ⟨rfl, hr⟩ | ⟨rfl, hr⟩ | ⟨rfl, hr⟩⟩
  · cases hfalse
  · exact scanInv_of_return htype hr hinv
  · exact scanInv_of_jump hsize htype hr hinv
  · exact scanInv_of_match htype hr hinv
  · exact scanInv_of_default htype hr hinv

/-- A pass that accepts is a last RETURN with nothing pending. -/
theorem scanInv_of_accept (h : sanityStep asmap s = some (.inl true)) : ∃ q, Padded asmap q ∧ ScanInv asmap q s := by
  rcases sanityStep_cases h with hfalse | ⟨opcode, pos, htype, ⟨rfl, hr⟩ | ⟨rfl, hr⟩ | ⟨rfl, hr⟩ | ⟨rfl, hr⟩⟩
  · cases hfalse
  · obtain ⟨asn, q, hasn, ha, hjumps, hshort, hpad⟩ := sanityReturn_inl_true hr
    have hq := (decodeBits_valid (by decide) hasn ha).2.2.1
    refine ⟨q, ⟨hq, hshort, hpad⟩, ⟨.ret asn, ?_⟩, ?_⟩
    · rw [hjumps]
      exact .ret htype hasn ha
    · rw [hjumps]
      trivial
  · exact absurd hr sanityJump_ne_inl_true
  · exact absurd hr sanityMatch_ne_inl_true
  · exact absurd hr sanityDefault_ne_inl_true

/-- Every state from which the loop of `SanityCheckAsmap` accepts satisfies the invariant, for
the end of the last RETURN of the scan. -/
theorem scanInv_of_sanityLoop (hsize : asmap.length * 8 < 2 ^ 32) {fuel : Nat} :
    ∀ {s : SanityState}, sanityLoop asmap fuel s = some true → ∃ q, Padded asmap q ∧ ScanInv asmap q s := by
  induction fuel with
  | zero => intro s h; simp [sanityLoop] at h
  | succ fuel ih =>
    intro s h
    rcases sanityLoop_succ_eq_true h with hacc | ⟨s', hstep, hloop⟩
    · exact scanInv_of_accept hacc
    · obtain ⟨q, hpad, hinv⟩ := ih hloop
      exact ⟨q, hpad, scanInv_of_step hsize hstep hinv⟩

/-- An asmap that `SanityCheckAsmap` accepts parses from bit 0 with `bits` input bits, up to its
zero padding. -/
theorem parses_of_sanityCheckAsmap (hsize : asmap.length * 8 < 2 ^ 32) {bits : Nat}
    (h : sanityCheckAsmap asmap bits = some true) : ∃ t q, Parses asmap 0 bits t q ∧ Padded asmap q := by
  obtain ⟨q, hpad, ⟨t, ht⟩, -⟩ := scanInv_of_sanityLoop hsize h
  exact ⟨t, q, ht, hpad⟩

/-- `SanityCheckAsmap` rejects every truncation of an asmap it accepts: the truncation would parse
to the same end, which leaves more than 7 bits of the full asmap after it. -/
theorem sanityCheckAsmap_take (hsize : asmap.length * 8 < 2 ^ 32) {bits n : Nat}
    (hsane : sanityCheckAsmap asmap bits = some true) (hn : n < asmap.length) :
    sanityCheckAsmap (asmap.take n) bits = some false := by
  obtain ⟨r, hr⟩ := sanityCheckAsmap_isSome (asmap.take n) bits
  cases r with
  | false => exact hr
  | true =>
    have hlen : (asmap.take n).length = n := List.length_take_of_le (Nat.le_of_lt hn)
    obtain ⟨t, q, ht, hpad⟩ := parses_of_sanityCheckAsmap (by omega) hr
    obtain ⟨t', q', ht', hpad'⟩ := parses_of_sanityCheckAsmap hsize hsane
    have hext := ht.append (asmap.drop n)
    rw [List.take_append_drop] at hext
    obtain ⟨-, rfl⟩ := hext.det ht'
    have hq := hpad.le_end
    have hshort := hpad'.short
    omega

end Scan

-- ---------------------------------------------------------------------------
-- A sane asmap
-- ---------------------------------------------------------------------------

/-- What `SanityCheckAsmap` guarantees: the asmap encodes a trie that reads at most `bits` input
bits and holds no ASN 0, `Interpret` returns the trie's ASN on every input of `bits` to 248 bits
(so it never reaches `assert(false)` and reads no bit past either span), and no truncation of the
asmap is sane. -/
theorem interpret_of_sanityCheckAsmap (asmap : List UInt8) (bits : Nat) (hsize : asmap.length * 8 < 2 ^ 32)
    (hsane : sanityCheckAsmap asmap bits = some true) :
    ∃ t q, Parses asmap 0 bits t q ∧ t.AsnsPos ∧
      (∀ ip : List UInt8, bits ≤ ip.length * 8 → ip.length * 8 ≤ 248 →
        interpret asmap ip = some (.asn (t.eval ip 0 0))) ∧
      ∀ n < asmap.length, sanityCheckAsmap (asmap.take n) bits = some false := by
  obtain ⟨t, q, ht, -⟩ := parses_of_sanityCheckAsmap hsize hsane
  exact ⟨t, q, ht, ht.asnsPos, fun ip hbits hip => interpret_of_parses ht hbits hip,
    fun n hn => sanityCheckAsmap_take hsize hsane hn⟩

/-- A JUMP on the first input bit over a RETURN of ASN 1 to a RETURN of ASN 2, then 6 bits of
padding. -/
def oneJumpAsmap : List UInt8 := [1, 0, 0, 0, 0, 2]

example : interpret oneJumpAsmap [0x00] = some (.asn 1) ∧ interpret oneJumpAsmap [0x80] = some (.asn 2) := by
  decide

theorem interpret_of_sanityCheckAsmap_oneJump :
    oneJumpAsmap.length * 8 < 2 ^ 32 ∧ sanityCheckAsmap oneJumpAsmap 1 = some true ∧
      ∃ t q, Parses oneJumpAsmap 0 1 t q ∧ t.AsnsPos ∧
        (∀ ip : List UInt8, 1 ≤ ip.length * 8 → ip.length * 8 ≤ 248 →
          interpret oneJumpAsmap ip = some (.asn (t.eval ip 0 0))) ∧
        ∀ n < oneJumpAsmap.length, sanityCheckAsmap (oneJumpAsmap.take n) 1 = some false :=
  have hsize : oneJumpAsmap.length * 8 < 2 ^ 32 := by decide
  have hsane : sanityCheckAsmap oneJumpAsmap 1 = some true := by decide
  ⟨hsize, hsane, interpret_of_sanityCheckAsmap oneJumpAsmap 1 hsize hsane⟩

end Asmap

end Riecoin
