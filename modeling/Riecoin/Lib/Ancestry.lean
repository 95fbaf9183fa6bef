-- SUMMARY: Parent pointers with levels: the ancestor k generations up, the unique ancestor at each level, and how common ancestors of two nodes at one level lie below both.
import Mathlib.Tactic.Basic

/-!
# Ancestry along parent pointers

A forest given by a partial parent function `parent : α → Option α`, in which each node has a
level one above its parent's and only nodes at level `0` lack a parent (`Leveled`). The
ancestor `k` generations up is `up parent a k`. Every node has exactly one ancestor at each
level from its own down to `0` (`up_isSome`, `up_of_isAncestor`), so two ancestors of one
node are ordered by their levels (`IsAncestor.of_level_le`). The last lemmas are what walks
that compare two nodes need: a common ancestor of two distinct nodes at one level lies
strictly below them, hence below anything on their paths down to its level.
-/

namespace Ancestry

variable {α : Type} (parent : α → Option α)

/-- The ancestor `k` generations up from `a`. -/
def up (a : α) : Nat → Option α
  | 0 => some a
  | k + 1 => (up a k).bind parent

@[simp] theorem up_zero (a : α) : up parent a 0 = some a := rfl

theorem up_succ (a : α) (k : Nat) : up parent a (k + 1) = (up parent a k).bind parent := rfl

theorem up_add (a : α) (j : Nat) : ∀ k, up parent a (j + k) = (up parent a j).bind fun b => up parent b k
  | 0 => by cases up parent a j <;> rfl
  | k + 1 => by
    rw [← Nat.add_assoc, up_succ, up_add a j k, Option.bind_assoc]
    rfl

theorem up_succ' (a : α) (k : Nat) : up parent a (k + 1) = (parent a).bind fun b => up parent b k := by
  rw [Nat.add_comm, up_add]
  rfl

/-- Past an ancestor reached in `j` generations, the walk goes on from that ancestor. -/
theorem up_add_of_up {a b : α} {j : Nat} (h : up parent a j = some b) (k : Nat) :
    up parent a (j + k) = up parent b k := by
  rw [up_add, h, Option.bind_some]

/-- `b` is `a` or an ancestor of `a`. -/
def IsAncestor (b a : α) : Prop := ∃ k, up parent a k = some b

theorem IsAncestor.refl (a : α) : IsAncestor parent a a := ⟨0, rfl⟩

theorem IsAncestor.trans {a b c : α} (hcb : IsAncestor parent c b) (hba : IsAncestor parent b a) :
    IsAncestor parent c a := by
  obtain ⟨j, hj⟩ := hba
  obtain ⟨k, hk⟩ := hcb
  exact ⟨j + k, by rw [up_add, hj, Option.bind_some, hk]⟩

theorem IsAncestor.of_parent {a b : α} (h : parent a = some b) : IsAncestor parent b a := ⟨1, h⟩

/-- An ancestor of `a` is `a` itself or an ancestor of its parent. -/
theorem IsAncestor.eq_or_of_parent {a c : α} (h : IsAncestor parent c a) :
    c = a ∨ ∃ b, parent a = some b ∧ IsAncestor parent c b := by
  obtain ⟨k, hk⟩ := h
  cases k with
  | zero => exact .inl (Option.some.inj hk).symm
  | succ k =>
    rw [up_succ'] at hk
    obtain ⟨b, hb, hcb⟩ := Option.bind_eq_some_iff.mp hk
    exact .inr ⟨b, hb, k, hcb⟩

/-- Levels drop by one from a node to its parent, and only level-`0` nodes lack one. -/
structure Leveled (level : α → Int) : Prop where
  level_nonneg : ∀ a, 0 ≤ level a
  parent_level : ∀ a b, parent a = some b → level b = level a - 1
  parent_of_pos : ∀ a, 0 < level a → (parent a).isSome

section Leveled

variable {parent} {level : α → Int} (hl : Leveled parent level)
include hl

theorem level_up {a b : α} : ∀ {k : Nat}, up parent a k = some b → level b = level a - k
  | 0, h => by
    cases h
    simp
  | k + 1, h => by
    rw [up_succ] at h
    obtain ⟨c, hc, hcb⟩ := Option.bind_eq_some_iff.mp h
    rw [hl.parent_level c b hcb, level_up hc]
    omega

theorem up_isSome (a : α) : ∀ (k : Nat), (k : Int) ≤ level a → ∃ b, up parent a k = some b
  | 0, _ => ⟨a, rfl⟩
  | k + 1, hk => by
    obtain ⟨c, hc⟩ := up_isSome a k (by omega)
    have hpos : 0 < level c := by
      rw [level_up hl hc]
      omega
    obtain ⟨b, hb⟩ := Option.isSome_iff_exists.mp (hl.parent_of_pos c hpos)
    exact ⟨b, by rw [up_succ, hc, Option.bind_some, hb]⟩

theorem IsAncestor.level_le {a b : α} (h : IsAncestor parent b a) : level b ≤ level a := by
  obtain ⟨k, hk⟩ := h
  rw [level_up hl hk]
  omega

/-- The ancestor of `a` at the level of `b` is `b`. -/
theorem up_of_isAncestor {a b : α} (h : IsAncestor parent b a) :
    up parent a (level a - level b).toNat = some b := by
  obtain ⟨k, hk⟩ := h
  have hlevel := level_up hl hk
  rw [show (level a - level b).toNat = k by omega]
  exact hk

/-- A node has one ancestor at each level. -/
theorem IsAncestor.eq_of_level_eq {a b b' : α} (hb : IsAncestor parent b a)
    (hb' : IsAncestor parent b' a) (heq : level b = level b') : b = b' := by
  have h := up_of_isAncestor hl hb
  rw [heq, up_of_isAncestor hl hb'] at h
  exact (Option.some.inj h).symm

/-- Of two ancestors of one node, the lower is an ancestor of the higher. -/
theorem IsAncestor.of_level_le {a b c : α} (hc : IsAncestor parent c a) (hb : IsAncestor parent b a)
    (hle : level c ≤ level b) : IsAncestor parent c b := by
  have hbl := hb.level_le hl
  have hc0 := hl.level_nonneg c
  obtain ⟨d, hd⟩ := up_isSome hl b (level b - level c).toNat (by omega)
  have hda : IsAncestor parent d a := IsAncestor.trans parent ⟨_, hd⟩ hb
  have hdl : level d = level c := by
    rw [level_up hl hd]
    omega
  rw [hc.eq_of_level_eq hl hda hdl.symm]
  exact ⟨_, hd⟩

/-- A common ancestor of two distinct nodes at one level is strictly below them. -/
theorem level_lt_of_ne {a a' c : α} (hc : IsAncestor parent c a) (hc' : IsAncestor parent c a')
    (hne : a ≠ a') (heq : level a = level a') : level c < level a := by
  have hle := hc.level_le hl
  by_cases hlt : level c < level a
  · exact hlt
  · -- at the level of `a`, `c` is `a` itself, and `a'` as well
    have hlevel : level c = level a := by omega
    have ha : c = a := hc.eq_of_level_eq hl (IsAncestor.refl parent a) hlevel
    have ha' : c = a' := hc'.eq_of_level_eq hl (IsAncestor.refl parent a') (hlevel.trans heq)
    exact absurd (ha.symm.trans ha') hne

/-- The common ancestors of `a` and `a'` are those of their ancestors `s` and `s'` at one
level, when no common ancestor of `a` and `a'` is above that level. -/
theorem isAncestor_iff_of_below {a a' s s' c : α} (hs : IsAncestor parent s a)
    (hs' : IsAncestor parent s' a') (heq : level s = level s')
    (hbelow : ∀ c, IsAncestor parent c a → IsAncestor parent c a' → level c ≤ level s) :
    (IsAncestor parent c a ∧ IsAncestor parent c a') ↔
      (IsAncestor parent c s ∧ IsAncestor parent c s') := by
  constructor
  · rintro ⟨hc, hc'⟩
    have hle := hbelow c hc hc'
    exact ⟨hc.of_level_le hl hs hle, hc'.of_level_le hl hs' (by omega)⟩
  · rintro ⟨hc, hc'⟩
    exact ⟨hc.trans parent hs, hc'.trans parent hs'⟩

/-- The common ancestors of two nodes are those of their ancestors `s ≠ s'` at one level. -/
theorem isAncestor_iff_of_ne {a a' s s' c : α} (hs : IsAncestor parent s a)
    (hs' : IsAncestor parent s' a') (hne : s ≠ s') (heq : level s = level s') :
    (IsAncestor parent c a ∧ IsAncestor parent c a') ↔
      (IsAncestor parent c s ∧ IsAncestor parent c s') := by
  refine isAncestor_iff_of_below hl hs hs' heq fun c hc hc' => ?_
  -- above the level of `s`, `s` and `s'` would both be the ancestor of `c` there
  refine Int.not_lt.mp fun hlt => hne ?_
  have h1 : IsAncestor parent s c := hs.of_level_le hl hc (by omega)
  have h2 : IsAncestor parent s' c := hs'.of_level_le hl hc' (by omega)
  exact h1.eq_of_level_eq hl h2 heq

/-- The common ancestors of two distinct nodes at one level are those of their parents. -/
theorem isAncestor_iff_parent_of_ne {a a' b b' c : α} (hb : parent a = some b)
    (hb' : parent a' = some b') (hne : a ≠ a') (heq : level a = level a') :
    (IsAncestor parent c a ∧ IsAncestor parent c a') ↔
      (IsAncestor parent c b ∧ IsAncestor parent c b') := by
  have hlb := hl.parent_level a b hb
  have hlb' := hl.parent_level a' b' hb'
  refine isAncestor_iff_of_below hl (IsAncestor.of_parent parent hb) (IsAncestor.of_parent parent hb')
    (by omega) fun c hc hc' => ?_
  have := level_lt_of_ne hl hc hc' hne heq
  omega

end Leveled

end Ancestry
