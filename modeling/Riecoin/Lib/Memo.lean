-- SUMMARY: Memo tables as partial maps, their soundness with respect to the function they cache, and runs of queries sharing one table that answer as the uncached function does.
import Mathlib.Logic.Function.Basic

/-!
# Memo tables

A memo table is a partial map from keys to values. It is sound for a function `f` when
every value it holds is `f` of its key (`Sound`): the empty table is sound, writing `f k` at
`k` keeps a table sound, and a sound table answers a lookup with `f`.

`run` answers a list of queries in turn, each one reading and writing the one table the
previous query left. When every query, from any sound table, answers as a specification
says and leaves a sound table, a whole run from a sound table answers every query as the
specification says (`run_spec`): what earlier queries stored is never observed.
-/

namespace Memo

variable {κ α : Type}

/-- A memo table: `none` where the key is absent. -/
abbrev Cache (κ α : Type) := κ → Option α

/-- The table with no entry. -/
def empty : Cache κ α := fun _ => none

/-- `c[k] = v`. -/
def store [DecidableEq κ] (c : Cache κ α) (k : κ) (v : α) : Cache κ α :=
  Function.update c k (some v)

/-- Every entry of `c` is `f` of its key. -/
def Sound (f : κ → α) (c : Cache κ α) : Prop := ∀ k v, c k = some v → v = f k

theorem sound_empty (f : κ → α) : Sound f (empty : Cache κ α) := fun _ _ h => nomatch h

theorem store_self [DecidableEq κ] (c : Cache κ α) (k : κ) (v : α) : store c k v k = some v := by
  rw [store, Function.update_self]

theorem Sound.eq {f : κ → α} {c : Cache κ α} (h : Sound f c) {k : κ} {v : α}
    (hk : c k = some v) : v = f k :=
  h k v hk

/-- Writing the function's own value keeps a table sound. -/
theorem Sound.store [DecidableEq κ] {f : κ → α} {c : Cache κ α} (h : Sound f c) {k : κ} {v : α}
    (hv : v = f k) : Sound f (store c k v) := by
  intro k' v' hk'
  by_cases hk : k' = k
  · subst hk
    rw [store_self, Option.some.injEq] at hk'
    rw [← hk', hv]
  · rw [Memo.store, Function.update_of_ne hk] at hk'
    exact h k' v' hk'

section Run

variable {Q A : Type} (step : Q → Cache κ α → Option (A × Cache κ α))

/-- The answers to `qs`, asked in order of one table; `none` where a query fails. -/
def run : Cache κ α → List Q → Option (List A × Cache κ α)
  | c, [] => some ([], c)
  | c, q :: qs =>
    match step q c with
    | none => none
    | some (a, c') =>
      match run c' qs with
      | none => none
      | some (as, c'') => some (a :: as, c'')

variable {step}

/-- A run of queries whose every step keeps the table sound and answers by `spec` answers
every query by `spec`, whatever the queries before it stored. -/
theorem run_spec {f : κ → α} (spec : Q → A)
    (hstep : ∀ q c, Sound f c → ∃ c', step q c = some (spec q, c') ∧ Sound f c') :
    ∀ (qs : List Q) (c : Cache κ α), Sound f c →
      ∃ c', run step c qs = some (qs.map spec, c') ∧ Sound f c'
  | [], c, hc => ⟨c, rfl, hc⟩
  | q :: qs, c, hc => by
    obtain ⟨c₁, hq, hc₁⟩ := hstep q c hc
    obtain ⟨c₂, hqs, hc₂⟩ := run_spec spec hstep qs c₁ hc₁
    refine ⟨c₂, ?_, hc₂⟩
    simp only [run, hq, hqs, List.map_cons]

end Run

end Memo
