-- SUMMARY: Terms of a binary hash over leaves, their evaluation with a concrete hash, and the injectivity of evaluation for a hash that is injective and never yields a leaf.

/-!
# Hash terms

A computation that combines values with a binary hash `hash : α → α → α` can be run
over terms instead: `Term.node` records the two arguments of each call, so two terms
are equal exactly when the two call trees are. Evaluating a term with `hash` gives the
value back. When `hash` is injective on pairs and never returns one of the leaves the
computation starts from, evaluation is injective on the terms over those leaves, so a
property proved of the term computation holds of the value computation.
-/

namespace HashTree

/-- A call tree of a binary hash over leaves of type `α`. -/
inductive Term (α : Type) where
  | leaf (a : α)
  | node (l r : Term α)
  deriving DecidableEq

namespace Term

variable {α : Type}

/-- The value of the call tree under the hash `hash`. -/
def eval (hash : α → α → α) : Term α → α
  | leaf a => a
  | node l r => hash (l.eval hash) (r.eval hash)

/-- Every leaf of the term satisfies `S`. -/
def LeavesIn (S : α → Prop) : Term α → Prop
  | leaf a => S a
  | node l r => l.LeavesIn S ∧ r.LeavesIn S

/-- The number of hash calls on the longest path from the root to a leaf. -/
def height : Term α → Nat
  | leaf _ => 0
  | node l r => max l.height r.height + 1

@[simp] theorem eval_leaf (hash : α → α → α) (a : α) : (leaf a).eval hash = a := rfl

@[simp] theorem eval_node (hash : α → α → α) (l r : Term α) :
    (node l r).eval hash = hash (l.eval hash) (r.eval hash) := rfl

@[simp] theorem leavesIn_leaf {S : α → Prop} {a : α} : (leaf a).LeavesIn S ↔ S a := Iff.rfl

@[simp] theorem height_node (l r : Term α) : (node l r).height = max l.height r.height + 1 := rfl

/-- Evaluation is injective on the terms over `S` when the hash is injective on pairs and
never lands in `S`: a leaf and a call differ in whether the value lies in `S`, and two
calls with the same value have the same arguments. -/
theorem eval_injective {hash : α → α → α} {S : α → Prop}
    (hinj : ∀ a b c d, hash a b = hash c d → a = c ∧ b = d) (hout : ∀ a b, ¬ S (hash a b))
    {t u : Term α} (ht : t.LeavesIn S) (hu : u.LeavesIn S) (h : t.eval hash = u.eval hash) :
    t = u := by
  induction t generalizing u with
  | leaf a =>
    cases u with
    | leaf b => simpa using h
    | node l r =>
      simp only [eval_leaf, eval_node] at h
      exact absurd (h ▸ ht) (hout _ _)
  | node l r ihl ihr =>
    cases u with
    | leaf b =>
      simp only [eval_leaf, eval_node] at h
      exact absurd (h ▸ hu) (hout _ _)
    | node l' r' =>
      obtain ⟨hl, hr⟩ := hinj _ _ _ _ h
      rw [ihl ht.1 hu.1 hl, ihr ht.2 hu.2 hr]

end Term

end HashTree
