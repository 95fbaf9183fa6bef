-- SUMMARY: Byte-string readers as a state monad over the unread bytes, and the rules by which a reader reads back what was written: sequencing, raw fields and counted lists.

/-!
# Readers and round trips

A reader takes a value off the front of a byte string: it is a state monad over the bytes
not yet read, which fails with a message (`Reader`). Writers are plain functions to bytes.
`ReadsBack r bytes a` says that the reader returns `a` from `bytes` and leaves whatever
followed them untouched. The round trip of a format is proved field by field with these
rules: `ReadsBack.bind` puts two fields one after the other, `readBytes_readsBack` reads a
raw field of known size, and `readMany_readsBack` reads a list of items one after another.
-/

namespace Codec

/-- A reader: takes a value off the front of the bytes, or fails with a message. -/
abbrev Reader (α : Type) := StateT (List UInt8) (Except String) α

/-- The reader returns `a` from `bytes`, whatever bytes follow them. -/
def ReadsBack {α : Type} (r : Reader α) (bytes : List UInt8) (a : α) : Prop :=
  ∀ rest, r.run (bytes ++ rest) = .ok (a, rest)

/-- The next `n` bytes, or failure when fewer are left. -/
def readBytes (n : Nat) : Reader (List UInt8) := fun bytes =>
  if bytes.length < n then .error "end of data" else .ok (bytes.take n, bytes.drop n)

/-- `n` items, each read by `r`, in order. -/
def readMany {α : Type} (r : Reader α) : Nat → Reader (List α)
  | 0 => pure []
  | n + 1 => do
    let a ← r
    let as ← readMany r n
    pure (a :: as)

section Rules

variable {α β : Type}

theorem ReadsBack.pure (a : α) : ReadsBack (Pure.pure a : Reader α) [] a := fun _ => rfl

/-- Two fields one after the other: the second reader may depend on the first value. -/
theorem ReadsBack.bind {r : Reader α} {f : α → Reader β} {bytes bytes' : List UInt8} {a : α}
    {b : β} (h : ReadsBack r bytes a) (h' : ReadsBack (f a) bytes' b) :
    ReadsBack (r >>= f) (bytes ++ bytes') b := by
  intro rest
  rw [StateT.run_bind, List.append_assoc, h]
  exact h' rest

/-- A last field: the second reader reads no bytes. -/
theorem ReadsBack.bind_end {r : Reader α} {f : α → Reader β} {bytes : List UInt8} {a : α}
    {b : β} (h : ReadsBack r bytes a) (h' : ReadsBack (f a) [] b) :
    ReadsBack (r >>= f) bytes b :=
  List.append_nil bytes ▸ h.bind h'

/-- A field whose value is then transformed. -/
theorem ReadsBack.map {r : Reader α} {f : α → β} {bytes : List UInt8} {a : α}
    (h : ReadsBack r bytes a) : ReadsBack (f <$> r) bytes (f a) := by
  intro rest
  rw [StateT.run_map, h]
  rfl

/-- After a field that reads back, a bind goes on with its value from the bytes that
follow it. -/
theorem ReadsBack.run_bind {r : Reader α} {f : α → Reader β} {bytes : List UInt8} {a : α}
    (h : ReadsBack r bytes a) (rest : List UInt8) :
    (r >>= f).run (bytes ++ rest) = (f a).run rest := by
  rw [StateT.run_bind, h rest]
  rfl

theorem readBytes_readsBack {n : Nat} {bytes : List UInt8} (h : bytes.length = n) :
    ReadsBack (readBytes n) bytes bytes := by
  intro rest
  subst h
  show readBytes bytes.length (bytes ++ rest) = _
  simp [readBytes]

/-- A list of items written one after another reads back item by item. -/
theorem readMany_readsBack {r : Reader α} (w : α → List UInt8) :
    ∀ (as : List α), (∀ a ∈ as, ReadsBack r (w a) a) →
      ReadsBack (readMany r as.length) (as.flatMap w) as
  | [], _ => ReadsBack.pure []
  | a :: as, h => by
    have ha := h a List.mem_cons_self
    have has := readMany_readsBack w as fun a' ha' => h a' (List.mem_cons_of_mem a ha')
    rw [List.length_cons, readMany, List.flatMap_cons, ← List.append_nil (as.flatMap w)]
    exact ha.bind (has.bind (ReadsBack.pure _))

end Rules

-- ---------------------------------------------------------------------------
-- Canonical readers
-- ---------------------------------------------------------------------------

/-- The reader returns only values with `P`, each read from exactly its encoding `w a`: the
converse of `ReadsBack`. A reader with both properties accepts one byte string per value,
and writing back what it read reproduces the bytes it consumed. -/
def Canonical {α : Type} (r : Reader α) (P : α → Prop) (w : α → List UInt8) : Prop :=
  ∀ {bytes : List UInt8} {a : α} {rest : List UInt8}, r.run bytes = .ok (a, rest) →
    P a ∧ bytes = w a ++ rest

section Inversion

variable {α β : Type} {bytes rest : List UInt8}

/-- What a bind returns, its second reader returned from where the first one stopped. -/
theorem run_bind_eq_ok {r : Reader α} {f : α → Reader β} {b : β}
    (h : (r >>= f).run bytes = .ok (b, rest)) :
    ∃ a mid, r.run bytes = .ok (a, mid) ∧ (f a).run mid = .ok (b, rest) := by
  rw [StateT.run_bind] at h
  cases hr : r.run bytes with
  | error e =>
    rw [hr] at h
    cases h
  | ok p =>
    rw [hr] at h
    exact ⟨p.1, p.2, rfl, h⟩

theorem run_pure_eq_ok {a b : α} (h : (pure a : Reader α).run bytes = .ok (b, rest)) :
    b = a ∧ rest = bytes := by
  cases h
  exact ⟨rfl, rfl⟩

/-- A check that throws on `c` and was passed: `c` is false. The decidability instance is
the one of the goal, so that nothing has to be synthesized and compared. -/
theorem run_ite_throw_eq_ok {c : Prop} {dec : Decidable c} {e : String} {x : Reader α} {a : α}
    (h : (if c then throw e else x).run bytes = .ok (a, rest)) :
    ¬c ∧ x.run bytes = .ok (a, rest) := by
  by_cases hc : c
  · rw [if_pos hc] at h
    cases h
  · rw [if_neg hc] at h
    exact ⟨hc, h⟩

end Inversion

section CanonicalRules

variable {α : Type}

theorem readBytes_canonical (n : Nat) : Canonical (readBytes n) (·.length = n) id := by
  intro bytes xs rest h
  by_cases hlt : bytes.length < n
  · have h' : (readBytes n).run bytes = .error "end of data" := if_pos hlt
    rw [h'] at h
    cases h
  · have h' : (readBytes n).run bytes = .ok (bytes.take n, bytes.drop n) := if_neg hlt
    rw [h'] at h
    cases h
    exact ⟨List.length_take_of_le (by omega), (List.take_append_drop n bytes).symm⟩

/-- A counted list read item by item: `n` items, each of which its reader could return,
written one after another. -/
theorem readMany_canonical {r : Reader α} {P : α → Prop} {w : α → List UInt8}
    (hr : Canonical r P w) (n : Nat) :
    Canonical (readMany r n) (fun as => as.length = n ∧ ∀ a ∈ as, P a) (List.flatMap w) := by
  induction n with
  | zero =>
    intro bytes as rest h
    obtain ⟨rfl, rfl⟩ := run_pure_eq_ok h
    exact ⟨⟨rfl, fun _ h => absurd h List.not_mem_nil⟩, rfl⟩
  | succ n ih =>
    intro bytes as rest h
    obtain ⟨a, mid, ha, h⟩ := run_bind_eq_ok h
    obtain ⟨as', mid', has, h⟩ := run_bind_eq_ok h
    obtain ⟨rfl, rfl⟩ := run_pure_eq_ok h
    obtain ⟨hPa, hbytes⟩ := hr ha
    obtain ⟨⟨hlen, hPas⟩, hmid⟩ := ih has
    refine ⟨⟨by rw [List.length_cons, hlen], ?_⟩, ?_⟩
    · intro x hx
      rcases List.mem_cons.mp hx with rfl | hx
      · exact hPa
      · exact hPas x hx
    · rw [hbytes, hmid, List.flatMap_cons, List.append_assoc]

end CanonicalRules

end Codec
