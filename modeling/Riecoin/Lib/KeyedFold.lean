-- SUMMARY: Monadic folds over a list of distinct keys whose step at a key changes only that key's part of the state: each key ends with the value its own step gave it.

/-!
# Folds over distinct keys

A batch update walks a list of distinct keys and, at each key, reads and rewrites only that
key's part of the state (through an observation `get : σ → K → V`). Such a fold acts
pointwise: when every step succeeds from the original value at its key, the whole fold
succeeds, the keys of the list end with what their own step produced, and the other keys
are untouched. A property `Q` of the whole state that every step keeps holds at the end.
-/

namespace KeyedFold

variable {σ K V ε : Type}

/-- A step at key `k` that leaves the other keys' values alone. -/
def FramedAt (get : σ → K → V) (k : K) (s s' : σ) : Prop := ∀ k', k' ≠ k → get s' k' = get s k'

/-- The pointwise rule for `List.foldlM` in `Except` over distinct keys. -/
theorem foldlM_pointwise (get : σ → K → V) (f : σ → K → Except ε σ) (Q : σ → Prop)
    (R : K → V → Prop) (old : K → V) :
    ∀ (keys : List K) (s : σ), keys.Nodup → Q s → (∀ k ∈ keys, get s k = old k) →
      (∀ s k, k ∈ keys → Q s → get s k = old k →
        ∃ s', f s k = .ok s' ∧ Q s' ∧ R k (get s' k) ∧ FramedAt get k s s') →
      ∃ s', keys.foldlM f s = .ok s' ∧ Q s' ∧ (∀ k ∈ keys, R k (get s' k)) ∧
        ∀ k, k ∉ keys → get s' k = get s k
  | [], s, _, hQ, _, _ => ⟨s, rfl, hQ, by simp, fun _ _ => rfl⟩
  | k :: rest, s, hnd, hQ, hold, hstep => by
    obtain ⟨hk, hnd'⟩ := List.nodup_cons.mp hnd
    obtain ⟨s₁, hs₁, hQ₁, hR₁, hframe₁⟩ :=
      hstep s k List.mem_cons_self hQ (hold k List.mem_cons_self)
    -- the rest of the keys still see their original values after the step at `k`
    have hold₁ : ∀ k' ∈ rest, get s₁ k' = old k' := by
      intro k' hk'
      rw [hframe₁ k' (fun h => hk (h ▸ hk')), hold k' (List.mem_cons_of_mem k hk')]
    obtain ⟨s', hs', hQ', hR', hframe'⟩ := foldlM_pointwise get f Q R old rest s₁ hnd' hQ₁ hold₁
      (fun s k' hk' => hstep s k' (List.mem_cons_of_mem k hk'))
    refine ⟨s', by rw [List.foldlM_cons, hs₁]; exact hs', hQ', ?_, ?_⟩
    · intro k' hk'
      rcases List.mem_cons.mp hk' with rfl | hk'
      · rw [hframe' k' hk]
        exact hR₁
      · exact hR' k' hk'
    · intro k' hk'
      have hne : k' ≠ k := fun h => hk' (h ▸ List.mem_cons_self)
      rw [hframe' k' (fun h => hk' (List.mem_cons_of_mem k h)), hframe₁ k' hne]

end KeyedFold
