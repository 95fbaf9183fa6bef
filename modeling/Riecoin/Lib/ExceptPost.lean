-- SUMMARY: Postconditions of computations in Except (a property of the value returned and one of the error raised) with one rule per construct of a do block: pure, throw, bind and if-then-else.

/-!
# Postconditions in `Except`

`Post P Q x` says that `x` returns a value with `P` or fails with an error with `Q`. Code in
the `Except` monad is a chain of binds, conditionals, returns and throws, and `Post` has one
rule for each (`post_pure`, `post_throw_bind`, `post_bind`, `post_ite`): a property of a whole
function follows from its helpers' postconditions, stated once per helper, without
unfolding them. Taking for `Q` "the error is one of the expected ones" states that a
function never fails in a given way, whatever its input.
-/

namespace ExceptPost

variable {ε α β : Type}

/-- `x` returns a value with `P`, or fails with an error with `Q`. -/
def Post (P : α → Prop) (Q : ε → Prop) : Except ε α → Prop
  | .ok a => P a
  | .error e => Q e

@[simp] theorem ok_bind (a : α) (f : α → Except ε β) : (Except.ok a >>= f) = f a := rfl

@[simp] theorem pure_eq_ok (a : α) : (pure a : Except ε α) = .ok a := rfl

variable {P : α → Prop} {Q : ε → Prop}

theorem post_ok {a : α} (h : P a) : Post P Q (.ok a) := h

theorem post_pure {a : α} (h : P a) : Post P Q (pure a) := h

theorem post_throw_bind {e : ε} {f : β → Except ε α} (h : Q e) :
    Post P Q (throw e >>= f) := h

/-- A bind: the first computation's postcondition is the second one's precondition. -/
theorem post_bind {P' : α → Prop} {R : β → Prop} {x : Except ε α} {f : α → Except ε β}
    (hx : Post P' Q x) (hf : ∀ a, P' a → Post R Q (f a)) : Post R Q (x >>= f) := by
  cases x with
  | ok a => exact hf a hx
  | error e => exact hx

/-- A conditional. Its decidability instance is unified with the goal's, not synthesized:
a synthesized one would have to be compared with the goal's by evaluating both. -/
theorem post_ite {c : Prop} {dec : Decidable c} {t e : Except ε α} (ht : c → Post P Q t)
    (he : ¬c → Post P Q e) : Post P Q (if c then t else e) := by
  by_cases hc : c
  · rw [if_pos hc]
    exact ht hc
  · rw [if_neg hc]
    exact he hc

theorem Post.of_error {x : Except ε α} {e : ε} (h : Post P Q x) (hx : x = .error e) : Q e := by
  subst hx
  exact h

end ExceptPost
