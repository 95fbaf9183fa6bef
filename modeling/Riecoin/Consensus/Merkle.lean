-- SUMMARY: `ComputeMerkleRoot` with its mutation flag, and the theorem that two distinct leaf lists with one root make at least one of the two calls report a mutation.
import Riecoin.Lib.HashTree

/-!
# Merkle roots and mutation

`ComputeMerkleRoot` (`consensus/merkle.cpp`) folds a list of hashes level by level:
while more than one hash is left it scans the pairs at positions `(2k, 2k+1)` for two
equal hashes (the mutation check), duplicates the last hash of an odd level, and
replaces each adjacent pair by its double-SHA256. The duplication lets different
lists share a root (CVE-2012-2459); the mutation check is the defence.

The model is generic in the hash type `α` (`uint256` in the source, whose only use
here is equality, copying and hashing) and takes `SHA256D64` on a pair as the
parameter `hash`, with `zero` for `uint256()`. The loop runs on explicit fuel; the fuel
`ComputeMerkleRoot` supplies, the number of leaves, is always enough.

The main result, `computeMerkleRoot_mutation`, assumes the hash injective and never
equal to a leaf. It runs the computation over `HashTree.Term`s, where equality of
values is equality of call trees, and moves the result back with
`HashTree.Term.eval_injective`.
-/

namespace Riecoin.Consensus

variable {α : Type} [DecidableEq α]

-- ---------------------------------------------------------------------------
-- The loop
-- ---------------------------------------------------------------------------

/-- The mutation scan `for (pos = 0; pos + 1 < size; pos += 2)`: some pair at
positions `(2k, 2k+1)` holds two equal hashes. -/
def hasEqualPair : List α → Bool
  | a :: b :: rest => a == b || hasEqualPair rest
  | _ => false

/-- `if (hashes.size() & 1) hashes.push_back(hashes.back());` -/
def duplicateLast (hashes : List α) : List α :=
  if hashes.length % 2 = 1 then hashes ++ hashes.getLast?.toList else hashes

/-- `SHA256D64` over `size / 2` blocks followed by `resize(size / 2)`: each pair of
adjacent hashes becomes the hash of the pair. -/
def hashPairs (hash : α → α → α) : List α → List α
  | a :: b :: rest => hash a b :: hashPairs hash rest
  | _ => []

/-- The loop `while (hashes.size() > 1)`, on fuel, with the accumulated `mutation`. -/
def merkleLoop (hash : α → α → α) : Nat → List α → Bool → List α × Bool
  | 0, hashes, mutation => (hashes, mutation)
  | fuel + 1, hashes, mutation =>
    if hashes.length > 1 then
      merkleLoop hash fuel (hashPairs hash (duplicateLast hashes))
        (mutation || hasEqualPair hashes)
    else (hashes, mutation)

theorem hasEqualPair_nil : hasEqualPair ([] : List α) = false := rfl

theorem hasEqualPair_singleton (a : α) : hasEqualPair [a] = false := rfl

theorem hasEqualPair_cons_cons (a b : α) (rest : List α) :
    hasEqualPair (a :: b :: rest) = (a == b || hasEqualPair rest) := rfl

omit [DecidableEq α] in
theorem duplicateLast_eq (hashes : List α) :
    duplicateLast hashes = if hashes.length % 2 = 1 then hashes ++ hashes.getLast?.toList else hashes := rfl

omit [DecidableEq α] in
theorem hashPairs_nil (hash : α → α → α) : hashPairs hash [] = [] := rfl

omit [DecidableEq α] in
theorem hashPairs_singleton (hash : α → α → α) (a : α) : hashPairs hash [a] = [] := rfl

omit [DecidableEq α] in
theorem hashPairs_cons_cons (hash : α → α → α) (a b : α) (rest : List α) :
    hashPairs hash (a :: b :: rest) = hash a b :: hashPairs hash rest := rfl

theorem merkleLoop_zero (hash : α → α → α) (hashes : List α) (mutation : Bool) :
    merkleLoop hash 0 hashes mutation = (hashes, mutation) := rfl

theorem merkleLoop_succ (hash : α → α → α) (fuel : Nat) (hashes : List α) (mutation : Bool) :
    merkleLoop hash (fuel + 1) hashes mutation =
      if hashes.length > 1 then
        merkleLoop hash fuel (hashPairs hash (duplicateLast hashes)) (mutation || hasEqualPair hashes)
      else (hashes, mutation) := rfl

/-- `ComputeMerkleRoot(hashes, &mutated)`: the root (`uint256()` for no hashes) and the
mutation flag. -/
def computeMerkleRoot (hash : α → α → α) (zero : α) (hashes : List α) : α × Bool :=
  let (hashes, mutation) := merkleLoop hash hashes.length hashes false
  (hashes.headD zero, mutation)

-- ---------------------------------------------------------------------------
-- One level
-- ---------------------------------------------------------------------------

omit [DecidableEq α] in
theorem length_hashPairs (hash : α → α → α) :
    ∀ hashes : List α, (hashPairs hash hashes).length = hashes.length / 2
  | [] => by simp [hashPairs_nil]
  | [_] => by simp [hashPairs_singleton]
  | a :: b :: rest => by
    simp only [hashPairs_cons_cons, List.length_cons, length_hashPairs hash rest]
    omega

omit [DecidableEq α] in
theorem length_duplicateLast (hashes : List α) :
    (duplicateLast hashes).length = hashes.length + hashes.length % 2 := by
  rw [duplicateLast_eq]
  split
  · next hodd =>
    cases hashes with
    | nil => simp at hodd
    | cons a rest =>
      simp only [List.length_append, List.getLast?_cons, Option.toList_some, List.length_singleton]
      omega
  · omega

omit [DecidableEq α] in
/-- A level of more than one hash shrinks by at least one. -/
theorem length_nextLevel_lt (hash : α → α → α) {hashes : List α} (h : 1 < hashes.length) :
    (hashPairs hash (duplicateLast hashes)).length < hashes.length := by
  rw [length_hashPairs, length_duplicateLast]
  omega

omit [DecidableEq α] in
theorem length_nextLevel_pos (hash : α → α → α) {hashes : List α} (h : 0 < hashes.length) :
    0 < (hashPairs hash (duplicateLast hashes)).length := by
  rw [length_hashPairs, length_duplicateLast]
  omega

-- ---------------------------------------------------------------------------
-- Running the loop to the end
-- ---------------------------------------------------------------------------

/-- The fuel never runs out while more than one hash is left: any fuel of at least the
number of hashes minus one gives the same result. -/
theorem merkleLoop_fuel_eq (hash : α → α → α) :
    ∀ {fuel₁ fuel₂ : Nat} {hashes : List α} {mutation : Bool},
      hashes.length ≤ fuel₁ + 1 → hashes.length ≤ fuel₂ + 1 →
      merkleLoop hash fuel₁ hashes mutation = merkleLoop hash fuel₂ hashes mutation
  | 0, 0, _, _, _, _ => rfl
  | 0, _ + 1, hashes, _, h₁, _ => by
    simp only [merkleLoop_zero, merkleLoop_succ]
    rw [if_neg (by omega)]
  | _ + 1, 0, hashes, _, _, h₂ => by
    simp only [merkleLoop_zero, merkleLoop_succ]
    rw [if_neg (by omega)]
  | fuel₁ + 1, fuel₂ + 1, hashes, mutation, h₁, h₂ => by
    simp only [merkleLoop_succ]
    split
    · next hgt =>
      have hlt := length_nextLevel_lt hash hgt
      exact merkleLoop_fuel_eq hash (by omega) (by omega)
    · rfl

/-- One turn of the loop, with the fuel `ComputeMerkleRoot` supplies. -/
theorem merkleLoop_step (hash : α → α → α) {hashes : List α} (mutation : Bool)
    (h : 1 < hashes.length) :
    merkleLoop hash hashes.length hashes mutation =
      merkleLoop hash (hashPairs hash (duplicateLast hashes)).length
        (hashPairs hash (duplicateLast hashes)) (mutation || hasEqualPair hashes) := by
  obtain ⟨fuel, hfuel⟩ : ∃ fuel, hashes.length = fuel + 1 := ⟨hashes.length - 1, by omega⟩
  rw [hfuel, merkleLoop_succ, if_pos (by omega)]
  have hlt := length_nextLevel_lt hash h
  exact merkleLoop_fuel_eq hash (by omega) (by omega)

/-- The loop stops at a level of at most one hash. -/
theorem merkleLoop_stop (hash : α → α → α) {hashes : List α} (mutation : Bool)
    (h : hashes.length ≤ 1) : merkleLoop hash hashes.length hashes mutation = (hashes, mutation) := by
  cases hlen : hashes.length with
  | zero => rfl
  | succ fuel =>
    rw [merkleLoop_succ, if_neg (by omega)]

/-- The flag the loop returns is the flag it starts from, or the flag a fresh run finds. -/
theorem merkleLoop_snd (hash : α → α → α) :
    ∀ (fuel : Nat) (hashes : List α) (mutation : Bool),
      (merkleLoop hash fuel hashes mutation).2 = (mutation || (merkleLoop hash fuel hashes false).2)
  | 0, _, _ => by simp [merkleLoop_zero]
  | fuel + 1, hashes, mutation => by
    simp only [merkleLoop_succ]
    split
    · rw [merkleLoop_snd hash fuel _ (mutation || _), merkleLoop_snd hash fuel _ (false || _)]
      simp [Bool.or_assoc]
    · simp

/-- The hashes the loop ends with do not depend on the flag. -/
theorem merkleLoop_fst (hash : α → α → α) :
    ∀ (fuel : Nat) (hashes : List α) (mutation : Bool),
      (merkleLoop hash fuel hashes mutation).1 = (merkleLoop hash fuel hashes false).1
  | 0, _, _ => rfl
  | fuel + 1, hashes, mutation => by
    simp only [merkleLoop_succ]
    split
    · rw [merkleLoop_fst hash fuel _ (mutation || _), merkleLoop_fst hash fuel _ (false || _)]
    · rfl

-- ---------------------------------------------------------------------------
-- The mutation flag
-- ---------------------------------------------------------------------------

/-- The levels the loop scans for equal pairs: every level of more than one hash, from
the leaves up. -/
def merkleLevels (hash : α → α → α) : Nat → List α → List (List α)
  | 0, _ => []
  | fuel + 1, hashes =>
    if hashes.length > 1 then
      hashes :: merkleLevels hash fuel (hashPairs hash (duplicateLast hashes))
    else []

omit [DecidableEq α] in
theorem merkleLevels_succ (hash : α → α → α) (fuel : Nat) (hashes : List α) :
    merkleLevels hash (fuel + 1) hashes =
      if hashes.length > 1 then hashes :: merkleLevels hash fuel (hashPairs hash (duplicateLast hashes))
      else [] := rfl

/-- The scan finds two equal hashes at some positions `(2k, 2k+1)`. -/
theorem hasEqualPair_iff :
    ∀ hashes : List α, hasEqualPair hashes = true ↔
      ∃ k, 2 * k + 1 < hashes.length ∧ hashes[2 * k]? = hashes[2 * k + 1]?
  | [] => by simp [hasEqualPair_nil]
  | [a] => by simp [hasEqualPair_singleton]
  | a :: b :: rest => by
    simp only [hasEqualPair_cons_cons, Bool.or_eq_true, beq_iff_eq, hasEqualPair_iff rest]
    have hidx : ∀ k, 2 * (k + 1) = 2 * k + 1 + 1 := fun k => by omega
    constructor
    · rintro (h | ⟨k, hk, heq⟩)
      · exact ⟨0, by simp, by simp [h]⟩
      · refine ⟨k + 1, by simp; omega, ?_⟩
        simpa [hidx] using heq
    · rintro ⟨k, hk, heq⟩
      cases k with
      | zero => exact .inl (by simpa using heq)
      | succ k =>
        refine .inr ⟨k, by simp at hk; omega, ?_⟩
        simpa [hidx] using heq

/-- The flag is set exactly when some scanned level holds an equal pair. -/
theorem merkleLoop_snd_eq_any (hash : α → α → α) :
    ∀ (fuel : Nat) (hashes : List α),
      (merkleLoop hash fuel hashes false).2 = (merkleLevels hash fuel hashes).any hasEqualPair
  | 0, _ => rfl
  | fuel + 1, hashes => by
    simp only [merkleLoop_succ, merkleLevels_succ]
    split
    · rw [merkleLoop_snd, merkleLoop_snd_eq_any hash fuel]
      simp
    · rfl

/-- `ComputeMerkleRoot` reports a mutation exactly when one of the levels it scans has
two equal hashes at positions `(2k, 2k+1)`. -/
theorem computeMerkleRoot_mutated_iff (hash : α → α → α) (zero : α) (hashes : List α) :
    (computeMerkleRoot hash zero hashes).2 = true ↔
      ∃ level ∈ merkleLevels hash hashes.length hashes,
        ∃ k, 2 * k + 1 < level.length ∧ level[2 * k]? = level[2 * k + 1]? := by
  simp only [computeMerkleRoot, merkleLoop_snd_eq_any, List.any_eq_true, hasEqualPair_iff]

-- ---------------------------------------------------------------------------
-- Running the loop on images
-- ---------------------------------------------------------------------------

omit [DecidableEq α] in
theorem mem_of_mem_duplicateLast {x : α} {hashes : List α} (h : x ∈ duplicateLast hashes) :
    x ∈ hashes := by
  rw [duplicateLast_eq] at h
  split at h
  · rcases List.mem_append.mp h with h | h
    · exact h
    · exact List.mem_of_getLast? (Option.mem_toList.mp h)
  · exact h

omit [DecidableEq α] in
theorem mem_hashPairs {hash : α → α → α} {x : α} :
    ∀ {hashes : List α}, x ∈ hashPairs hash hashes → ∃ a ∈ hashes, ∃ b ∈ hashes, x = hash a b
  | [], h => by simp [hashPairs_nil] at h
  | [_], h => by simp [hashPairs_singleton] at h
  | a :: b :: rest, h => by
    rcases List.mem_cons.mp h with rfl | h
    · exact ⟨a, by simp, b, by simp, rfl⟩
    · obtain ⟨c, hc, d, hd, rfl⟩ := mem_hashPairs h
      exact ⟨c, by simp [hc], d, by simp [hd], rfl⟩

section Simulation

variable {β : Type} [DecidableEq β] {hash : α → α → α} {combine : β → β → β} {f : β → α}

omit [DecidableEq α] [DecidableEq β] in
theorem duplicateLast_map (f : β → α) (xs : List β) :
    duplicateLast (xs.map f) = (duplicateLast xs).map f := by
  simp only [duplicateLast_eq]
  rw [List.length_map]
  split
  · simp only [List.map_append, List.getLast?_map]
    cases xs.getLast? <;> rfl
  · rfl

omit [DecidableEq α] [DecidableEq β] in
theorem hashPairs_map (hf : ∀ a b, f (combine a b) = hash (f a) (f b)) :
    ∀ xs : List β, hashPairs hash (xs.map f) = (hashPairs combine xs).map f
  | [] => by simp [hashPairs_nil]
  | [_] => by simp [hashPairs_singleton]
  | a :: b :: rest => by simp [hashPairs_cons_cons, hf, hashPairs_map hf rest]

/-- The scan sees the same pairs on the images as on the originals when `f` is
injective on the level. -/
theorem hasEqualPair_map :
    ∀ {xs : List β}, (∀ x ∈ xs, ∀ y ∈ xs, f x = f y → x = y) →
      hasEqualPair (xs.map f) = hasEqualPair xs
  | [], _ => rfl
  | [_], _ => rfl
  | a :: b :: rest, hf => by
    have hrest : hasEqualPair (rest.map f) = hasEqualPair rest :=
      hasEqualPair_map fun x hx y hy => hf x (by simp [hx]) y (by simp [hy])
    have hab : (f a == f b) = (a == b) := by
      by_cases h : a = b
      · simp [h]
      · have hne : f a ≠ f b := fun e => h (hf a (by simp) b (by simp) e)
        rw [beq_false_of_ne hne, beq_false_of_ne h]
    simp only [hasEqualPair_cons_cons, List.map_cons, hrest, hab]

/-- The loop commutes with a hash homomorphism `f` from `combine` to `hash` that is
injective on a set `P` closed under `combine`: run on the images it ends with the
images and the same flag. -/
theorem merkleLoop_map {P : β → Prop} (hf : ∀ a b, f (combine a b) = hash (f a) (f b))
    (hP : ∀ a b, P a → P b → P (combine a b)) (hinj : ∀ x y, P x → P y → f x = f y → x = y) :
    ∀ (fuel : Nat) (xs : List β) (mutation : Bool), (∀ x ∈ xs, P x) →
      merkleLoop hash fuel (xs.map f) mutation =
        ((merkleLoop combine fuel xs mutation).1.map f, (merkleLoop combine fuel xs mutation).2) ∧
      ∀ x ∈ (merkleLoop combine fuel xs mutation).1, P x
  | 0, xs, mutation, hxs => ⟨rfl, hxs⟩
  | fuel + 1, xs, mutation, hxs => by
    simp only [merkleLoop_succ, List.length_map]
    split
    · have hnext : ∀ x ∈ hashPairs combine (duplicateLast xs), P x := by
        intro x hx
        obtain ⟨a, ha, b, hb, rfl⟩ := mem_hashPairs hx
        exact hP a b (hxs a (mem_of_mem_duplicateLast ha)) (hxs b (mem_of_mem_duplicateLast hb))
      rw [duplicateLast_map, hashPairs_map hf,
        hasEqualPair_map (fun x hx y hy => hinj x y (hxs x hx) (hxs y hy))]
      exact merkleLoop_map hf hP hinj fuel _ _ hnext
    · exact ⟨rfl, hxs⟩

end Simulation

-- ---------------------------------------------------------------------------
-- Levels that pad to the same level
-- ---------------------------------------------------------------------------

/-- A level that ends in a repeated hash after an even prefix holds an equal pair. -/
theorem hasEqualPair_append_pair (a : α) :
    ∀ zs : List α, zs.length % 2 = 0 → hasEqualPair (zs ++ [a, a]) = true
  | [], _ => by simp [hasEqualPair_cons_cons, hasEqualPair_nil]
  | [_], h => by simp at h
  | b :: c :: rest, h => by
    have hrest : rest.length % 2 = 0 := by
      simp only [List.length_cons] at h
      omega
    simp only [List.cons_append, hasEqualPair_cons_cons, hasEqualPair_append_pair a rest hrest, Bool.or_true]

omit [DecidableEq α] in
theorem duplicateLast_of_odd {hashes : List α} (h : hashes.length % 2 = 1) :
    ∃ zs a, hashes = zs ++ [a] ∧ zs.length % 2 = 0 ∧ duplicateLast hashes = zs ++ [a, a] := by
  rcases List.eq_nil_or_concat hashes with rfl | ⟨zs, a, rfl⟩
  · simp at h
  · rw [List.concat_eq_append] at h ⊢
    rw [List.length_append, List.length_singleton] at h
    refine ⟨zs, a, rfl, by omega, ?_⟩
    simp [duplicateLast_eq, h]

omit [DecidableEq α] in
theorem duplicateLast_of_even {hashes : List α} (h : hashes.length % 2 = 0) :
    duplicateLast hashes = hashes := by
  simp [duplicateLast_eq, h]

/-- Two different levels that the loop pads to the same level: the shorter one has odd
length and the longer one is it with its last hash repeated, so the longer one holds an
equal pair. -/
theorem hasEqualPair_of_duplicateLast_eq {xs ys : List α}
    (h : duplicateLast xs = duplicateLast ys) (hne : xs ≠ ys) :
    hasEqualPair xs = true ∨ hasEqualPair ys = true := by
  rcases Nat.mod_two_eq_zero_or_one xs.length with hx | hx <;>
    rcases Nat.mod_two_eq_zero_or_one ys.length with hy | hy
  · rw [duplicateLast_of_even hx, duplicateLast_of_even hy] at h
    exact absurd h hne
  · obtain ⟨zs, a, rfl, hzs, hdup⟩ := duplicateLast_of_odd hy
    rw [duplicateLast_of_even hx, hdup] at h
    exact .inl (h ▸ hasEqualPair_append_pair a zs hzs)
  · obtain ⟨zs, a, rfl, hzs, hdup⟩ := duplicateLast_of_odd hx
    rw [duplicateLast_of_even hy, hdup] at h
    exact .inr (h ▸ hasEqualPair_append_pair a zs hzs)
  · obtain ⟨zs, a, rfl, -, hdup⟩ := duplicateLast_of_odd hx
    obtain ⟨zs', a', rfl, -, hdup'⟩ := duplicateLast_of_odd hy
    rw [hdup, hdup'] at h
    have hlen : zs.length = zs'.length := by
      have := congrArg List.length h
      simp only [List.length_append, List.length_cons, List.length_nil] at this
      omega
    obtain ⟨rfl, h'⟩ := List.append_inj h hlen
    simp only [List.cons.injEq, and_true] at h'
    exact absurd (by rw [h'.1]) hne

omit [DecidableEq α] in
/-- Pairing with an injective hash is injective on levels of even length. -/
theorem hashPairs_injective {hash : α → α → α}
    (hinj : ∀ a b c d, hash a b = hash c d → a = c ∧ b = d) :
    ∀ {xs ys : List α}, xs.length % 2 = 0 → ys.length % 2 = 0 →
      hashPairs hash xs = hashPairs hash ys → xs = ys
  | [], [], _, _, _ => rfl
  | [], _ :: _ :: _, _, _, h => by simp [hashPairs_nil, hashPairs_cons_cons] at h
  | _ :: _ :: _, [], _, _, h => by simp [hashPairs_nil, hashPairs_cons_cons] at h
  | [_], _, hx, _, _ => by simp at hx
  | _, [_], _, hy, _ => by simp at hy
  | a :: b :: xs, c :: d :: ys, hx, hy, h => by
    simp only [hashPairs_cons_cons, List.cons.injEq] at h
    obtain ⟨rfl, rfl⟩ := hinj a b c d h.1
    have hxs : xs.length % 2 = 0 := by
      simp only [List.length_cons] at hx
      omega
    have hys : ys.length % 2 = 0 := by
      simp only [List.length_cons] at hy
      omega
    rw [hashPairs_injective hinj hxs hys h.2]

omit [DecidableEq α] in
theorem length_duplicateLast_even (hashes : List α) : (duplicateLast hashes).length % 2 = 0 := by
  rw [length_duplicateLast]
  omega

-- ---------------------------------------------------------------------------
-- The loop over call trees
-- ---------------------------------------------------------------------------

section FreeTerms

open HashTree

variable {β : Type} [DecidableEq β]

/-- Every term of the level has height `h`: it is the `h`-th level above the leaves. -/
def Uniform (h : Nat) (ts : List (Term β)) : Prop := ∀ t ∈ ts, t.height = h

omit [DecidableEq β] in
theorem uniform_nextLevel {h : Nat} {ts : List (Term β)} (hts : Uniform h ts) :
    Uniform (h + 1) (hashPairs Term.node (duplicateLast ts)) := by
  intro t ht
  obtain ⟨a, ha, b, hb, rfl⟩ := mem_hashPairs ht
  simp [hts a (mem_of_mem_duplicateLast ha), hts b (mem_of_mem_duplicateLast hb)]

/-- The loop over a nonempty level ends with a single term: the level itself when it
has one term, and a term higher than the level otherwise. -/
theorem merkleLoop_node_root {h : Nat} (mutation : Bool) {ts : List (Term β)} (hne : ts ≠ [])
    (hts : Uniform h ts) :
    ∃ r, (merkleLoop Term.node ts.length ts mutation).1 = [r] ∧ (ts = [r] ∨ h < r.height) := by
  by_cases hle : ts.length ≤ 1
  · obtain ⟨t, rfl⟩ : ∃ t, ts = [t] :=
      List.length_eq_one_iff.mp (by have := List.length_pos_iff.mpr hne; omega)
    exact ⟨t, by rw [merkleLoop_stop _ _ hle], .inl rfl⟩
  · have hgt : 1 < ts.length := by omega
    have hnext := length_nextLevel_pos Term.node (by omega : 0 < ts.length)
    obtain ⟨r, hr, hor⟩ := merkleLoop_node_root (mutation || hasEqualPair ts)
      (List.ne_nil_of_length_pos hnext) (uniform_nextLevel hts)
    refine ⟨r, by rw [merkleLoop_step _ _ hgt, hr], .inr ?_⟩
    rcases hor with heq | hlt
    · have := uniform_nextLevel hts r (by rw [heq]; exact List.mem_singleton_self r)
      omega
    · omega
termination_by ts.length
decreasing_by exact length_nextLevel_lt Term.node hgt

/-- A root higher than the level comes from a level of more than one term. -/
theorem one_lt_length_of_root {h : Nat} {ts : List (Term β)} {mutation : Bool} {r : Term β}
    (hts : Uniform h ts) (hr : (merkleLoop Term.node ts.length ts mutation).1 = [r])
    (hlt : h < r.height) : 1 < ts.length := by
  refine Nat.lt_of_not_le fun hle => ?_
  have hself : ts = [r] := by rwa [merkleLoop_stop _ _ hle] at hr
  have := hts r (by simp [hself])
  omega

/-- The collision argument over call trees. Two different nonempty levels of one height
with the same root: while both have more than one term the loop takes a step on both;
if the next levels agree, the two levels padded to the same level and one of them holds
an equal pair, and otherwise the argument goes on one level up. A level with one term
has a root of its own height, and a longer level a higher root, so both stop together. -/
theorem merkleLoop_node_mutation {h : Nat} {ts₁ ts₂ : List (Term β)} (hne₁ : ts₁ ≠ [])
    (hne₂ : ts₂ ≠ []) (hu₁ : Uniform h ts₁) (hu₂ : Uniform h ts₂) (hne : ts₁ ≠ ts₂)
    (hroot : (merkleLoop Term.node ts₁.length ts₁ false).1 =
      (merkleLoop Term.node ts₂.length ts₂ false).1) :
    (merkleLoop Term.node ts₁.length ts₁ false).2 = true ∨
      (merkleLoop Term.node ts₂.length ts₂ false).2 = true := by
  obtain ⟨r₁, hr₁, hor₁⟩ := merkleLoop_node_root false hne₁ hu₁
  obtain ⟨r₂, hr₂, hor₂⟩ := merkleLoop_node_root false hne₂ hu₂
  have hr : r₁ = r₂ := by simpa [hr₁, hr₂] using hroot
  subst hr
  rcases hor₁ with rfl | hlt₁
  · rcases hor₂ with rfl | hlt₂
    · exact absurd rfl hne
    · have := hu₁ r₁ (List.mem_singleton_self _)
      omega
  · rcases hor₂ with rfl | hlt₂
    · have := hu₂ r₁ (List.mem_singleton_self _)
      omega
    -- both levels have more than one term: one turn of the loop on each
    have hgt₁ := one_lt_length_of_root hu₁ hr₁ hlt₁
    have hgt₂ := one_lt_length_of_root hu₂ hr₂ hlt₂
    have hlt₁ := length_nextLevel_lt Term.node hgt₁
    have hlt₂ := length_nextLevel_lt Term.node hgt₂
    rw [merkleLoop_step _ _ hgt₁, merkleLoop_step _ _ hgt₂, merkleLoop_fst,
      merkleLoop_fst _ _ (hashPairs Term.node (duplicateLast ts₂))] at hroot
    rw [merkleLoop_step _ _ hgt₁, merkleLoop_step _ _ hgt₂, merkleLoop_snd,
      merkleLoop_snd _ _ (hashPairs Term.node (duplicateLast ts₂))]
    by_cases hnext : hashPairs Term.node (duplicateLast ts₁) =
        hashPairs Term.node (duplicateLast ts₂)
    · have hinj : ∀ a b c d : Term β, Term.node a b = Term.node c d → a = c ∧ b = d :=
        fun _ _ _ _ h => Term.node.inj h
      have hdup := hashPairs_injective hinj (length_duplicateLast_even ts₁)
        (length_duplicateLast_even ts₂) hnext
      rcases hasEqualPair_of_duplicateLast_eq hdup hne with h | h <;> simp [h]
    · have hpos₁ := length_nextLevel_pos Term.node (by omega : 0 < ts₁.length)
      have hpos₂ := length_nextLevel_pos Term.node (by omega : 0 < ts₂.length)
      rcases merkleLoop_node_mutation (List.ne_nil_of_length_pos hpos₁)
          (List.ne_nil_of_length_pos hpos₂) (uniform_nextLevel hu₁) (uniform_nextLevel hu₂)
          hnext hroot with h | h <;> simp [h]
termination_by ts₁.length + ts₂.length

end FreeTerms

-- ---------------------------------------------------------------------------
-- Mutation detection
-- ---------------------------------------------------------------------------

section Values

open HashTree

/-- The loop over values is the loop over the call trees of the leaves, evaluated,
when the hash is injective and never lands in the set `S` of the leaves. -/
theorem merkleLoop_leaves {hash : α → α → α} {S : α → Prop}
    (hinj : ∀ a b c d, hash a b = hash c d → a = c ∧ b = d) (hout : ∀ a b, ¬ S (hash a b))
    (fuel : Nat) (hashes : List α) (mutation : Bool) (hS : ∀ a ∈ hashes, S a) :
    merkleLoop hash fuel hashes mutation =
        ((merkleLoop Term.node fuel (hashes.map Term.leaf) mutation).1.map (Term.eval hash),
          (merkleLoop Term.node fuel (hashes.map Term.leaf) mutation).2) ∧
      ∀ t ∈ (merkleLoop Term.node fuel (hashes.map Term.leaf) mutation).1, t.LeavesIn S := by
  have hf : ∀ a b : Term α, (Term.node a b).eval hash = hash (a.eval hash) (b.eval hash) :=
    Term.eval_node hash
  have hP : ∀ a b : Term α, a.LeavesIn S → b.LeavesIn S → (Term.node a b).LeavesIn S :=
    fun _ _ ha hb => ⟨ha, hb⟩
  have hev : (hashes.map Term.leaf).map (Term.eval hash) = hashes := by
    simp [List.map_map, Function.comp_def]
  have hleaves : ∀ t ∈ hashes.map Term.leaf, t.LeavesIn S := by
    simpa using hS
  have := merkleLoop_map hf hP (fun x y hx hy => Term.eval_injective hinj hout hx hy) fuel
    (hashes.map Term.leaf) mutation hleaves
  rwa [hev] at this

/-- Two different nonempty lists of leaves with one root: one of the two computations
reports a mutation, when the hash is injective and never equal to a leaf. -/
theorem computeMerkleRoot_collision {hash : α → α → α} (zero : α)
    (hinj : ∀ a b c d, hash a b = hash c d → a = c ∧ b = d) {L₁ L₂ : List α}
    (hout : ∀ a b, hash a b ∉ L₁ ∧ hash a b ∉ L₂) (hne₁ : L₁ ≠ []) (hne₂ : L₂ ≠ [])
    (hne : L₁ ≠ L₂) (hroot : (computeMerkleRoot hash zero L₁).1 = (computeMerkleRoot hash zero L₂).1) :
    (computeMerkleRoot hash zero L₁).2 = true ∨ (computeMerkleRoot hash zero L₂).2 = true := by
  let S : α → Prop := fun a => a ∈ L₁ ∨ a ∈ L₂
  have hS : ∀ a b, ¬ S (hash a b) := fun a b h => h.elim (hout a b).1 (hout a b).2
  obtain ⟨hrun₁, hin₁⟩ := merkleLoop_leaves hinj hS L₁.length L₁ false (fun a ha => .inl ha)
  obtain ⟨hrun₂, hin₂⟩ := merkleLoop_leaves hinj hS L₂.length L₂ false (fun a ha => .inr ha)
  -- the term runs start from the leaves, one term each, all of height zero
  have hu : ∀ L : List α, Uniform 0 (L.map Term.leaf) := by
    intro L t ht
    obtain ⟨a, -, rfl⟩ := List.mem_map.mp ht
    rfl
  have hinjLeaf : L₁.map Term.leaf ≠ L₂.map Term.leaf :=
    fun h => hne ((List.map_inj_right fun _ _ h => Term.leaf.inj h).mp h)
  obtain ⟨r₁, hr₁, -⟩ := merkleLoop_node_root false (by simpa using hne₁) (hu L₁)
  obtain ⟨r₂, hr₂, -⟩ := merkleLoop_node_root false (by simpa using hne₂) (hu L₂)
  rw [List.length_map] at hr₁ hr₂
  simp only [computeMerkleRoot, hrun₁, hrun₂, hr₁, hr₂] at hroot ⊢
  -- the roots are evaluations of the two root terms, which are then equal
  have hr : r₁ = r₂ := Term.eval_injective hinj hS (hin₁ r₁ (by simp [hr₁]))
    (hin₂ r₂ (by simp [hr₂])) (by simpa using hroot)
  have hmut := merkleLoop_node_mutation (by simpa using hne₁) (by simpa using hne₂) (hu L₁)
    (hu L₂) hinjLeaf (by rw [List.length_map, List.length_map, hr₁, hr₂, hr])
  simpa only [List.length_map] using hmut

/-- A list none of whose scanned levels holds two equal hashes at positions
`(2k, 2k+1)` is not reported as mutated. -/
theorem computeMerkleRoot_not_mutated (hash : α → α → α) (zero : α) (hashes : List α)
    (h : ∀ level ∈ merkleLevels hash hashes.length hashes, ∀ k, 2 * k + 1 < level.length →
      level[2 * k]? ≠ level[2 * k + 1]?) :
    (computeMerkleRoot hash zero hashes).2 = false := by
  rw [← Bool.not_eq_true, computeMerkleRoot_mutated_iff]
  rintro ⟨level, hlevel, k, hk, heq⟩
  exact h level hlevel k hk heq

theorem computeMerkleRoot_mutation (hash : α → α → α) (zero : α) :
    ((∀ a b c d, hash a b = hash c d → a = c ∧ b = d) →
      ∀ L₁ L₂ : List α, (∀ a b, hash a b ∉ L₁ ∧ hash a b ∉ L₂) → L₁ ≠ [] → L₂ ≠ [] →
        L₁ ≠ L₂ → (computeMerkleRoot hash zero L₁).1 = (computeMerkleRoot hash zero L₂).1 →
        (computeMerkleRoot hash zero L₁).2 = true ∨ (computeMerkleRoot hash zero L₂).2 = true) ∧
    (∀ L : List α, (∀ level ∈ merkleLevels hash L.length L, ∀ k, 2 * k + 1 < level.length →
        level[2 * k]? ≠ level[2 * k + 1]?) → (computeMerkleRoot hash zero L).2 = false) :=
  ⟨fun hinj _ _ hout hne₁ hne₂ hne hroot =>
      computeMerkleRoot_collision zero hinj hout hne₁ hne₂ hne hroot,
    computeMerkleRoot_not_mutated hash zero⟩

/-- The CVE-2012-2459 collision over call trees: three leaves and the same three with the
last one repeated have one root, and the longer list is the one reported; two distinct
leaves are not. -/
theorem computeMerkleRoot_mutation_repeated_leaf :
    (computeMerkleRoot Term.node (Term.leaf 0) [Term.leaf (1 : Nat), Term.leaf 2, Term.leaf 3]).1 =
        (computeMerkleRoot Term.node (Term.leaf 0)
          [Term.leaf (1 : Nat), Term.leaf 2, Term.leaf 3, Term.leaf 3]).1 ∧
      ((computeMerkleRoot Term.node (Term.leaf 0)
          [Term.leaf (1 : Nat), Term.leaf 2, Term.leaf 3]).2 = true ∨
        (computeMerkleRoot Term.node (Term.leaf 0)
          [Term.leaf (1 : Nat), Term.leaf 2, Term.leaf 3, Term.leaf 3]).2 = true) ∧
      (computeMerkleRoot Term.node (Term.leaf 0) [Term.leaf (1 : Nat), Term.leaf 2]).2 = false := by
  have hinj : ∀ a b c d : Term Nat, Term.node a b = Term.node c d → a = c ∧ b = d :=
    fun _ _ _ _ h => Term.node.inj h
  have hroot : (computeMerkleRoot Term.node (Term.leaf 0)
      [Term.leaf (1 : Nat), Term.leaf 2, Term.leaf 3]).1 = (computeMerkleRoot Term.node
      (Term.leaf 0) [Term.leaf (1 : Nat), Term.leaf 2, Term.leaf 3, Term.leaf 3]).1 := by
    decide
  have hlevels : ∀ level ∈ merkleLevels Term.node 2 [Term.leaf (1 : Nat), Term.leaf 2],
      ∀ k, 2 * k + 1 < level.length → level[2 * k]? ≠ level[2 * k + 1]? := by
    intro level hlevel k hk
    simp [merkleLevels_succ, hashPairs_cons_cons, hashPairs_nil, duplicateLast_eq] at hlevel
    subst hlevel
    obtain rfl : k = 0 := by simp at hk; omega
    decide
  exact ⟨hroot, (computeMerkleRoot_mutation Term.node (Term.leaf 0)).1 hinj _ _ (by simp)
    (by simp) (by simp) (by simp) hroot, (computeMerkleRoot_mutation Term.node (Term.leaf 0)).2 _
    hlevels⟩

end Values

end Riecoin.Consensus
