-- SUMMARY: `BatchWrite`, `Flush` and `Sync` under the DIRTY/FRESH invariant: they never throw, the parent ends up showing what the child showed, and the stack keeps its invariant and its view.
import Riecoin.Coins.Invariant

/-!
# Writing a layer into its parent

`BatchWrite` handles each flagged outpoint of the child on its own, so the argument is one
outpoint at a time (`batchWriteEntry_spec`): with the child's entry valid over the parent's
view, and the parent's entry valid over the grandparent's, the write never throws
"FRESH flag misapplied", leaves a parent entry valid over the grandparent, and makes the
parent show what the child showed. `KeyedFold.foldlM_pointwise` lifts this to the cursor
walk over the distinct flagged outpoints. After the walk the child is either wiped
(`Flush`) or holds only clean entries (`Sync`), so it shows exactly what the parent now
shows.
-/

namespace Riecoin

/-- The entry `NextAndMaybeErase` leaves at the cursor's outpoint. -/
def cursorEntry (willErase : Bool) (entry : CCoinsCacheEntry) : Option CCoinsCacheEntry :=
  if willErase then some entry
  else if entry.coin.isSpent then none
  else some { entry with dirty := false, fresh := false }

theorem cacheCoins_nextAndMaybeErase_self (willErase : Bool) (child : CCoinsViewCache)
    (outpoint : COutPoint) (entry : CCoinsCacheEntry) (h : child.cacheCoins outpoint = some entry) :
    (nextAndMaybeErase willErase child outpoint entry).cacheCoins outpoint =
      cursorEntry willErase entry := by
  unfold nextAndMaybeErase cursorEntry
  split
  · exact h
  · split <;> simp

theorem cacheCoins_nextAndMaybeErase_of_ne (willErase : Bool) (child : CCoinsViewCache)
    {outpoint o : COutPoint} (entry : CCoinsCacheEntry) (ho : o ≠ outpoint) :
    (nextAndMaybeErase willErase child outpoint entry).cacheCoins o = child.cacheCoins o := by
  unfold nextAndMaybeErase
  split
  · rfl
  · split <;> exact CCoinsViewCache.cacheCoins_store_of_ne child _ ho

/-- One outpoint of `CCoinsViewCache::BatchWrite`: from a child entry valid over the
parent's view and a parent entry valid over the grandparent's, the write does not throw,
and the parent's new entry is valid over the grandparent and shows the child's coin. -/
theorem batchWriteEntry_spec {grand : Option Coin} {parent : Option CCoinsCacheEntry}
    {child : CCoinsCacheEntry} (hparent : ∀ e, parent = some e → EntryInv grand e)
    (hchild : EntryInv (overlay parent grand) child) :
    ∃ parent', batchWriteEntry child parent = .ok parent' ∧
      (∀ e, parent' = some e → EntryInv grand e) ∧ overlay parent' grand = child.coin.unspent := by
  cases parent with
  | none =>
    have hgrand : child.fresh = true → grand = none := hchild.below_of_fresh
    unfold batchWriteEntry
    dsimp only
    split
    · -- a spent FRESH coin is dropped; nothing was below it
      next hspent =>
      simp only [Bool.and_eq_true] at hspent
      refine ⟨none, rfl, (fun _ h => by cases h), ?_⟩
      rw [overlay, hgrand hspent.1, Coin.unspent_eq_none_iff.mpr hspent.2]
    · refine ⟨_, rfl, ?_, rfl⟩
      rintro e ⟨⟩
      exact ⟨fun _ => rfl, hchild.unspent_of_fresh, hgrand, (fun h => by cases h)⟩
  | some entry =>
    have hentry := hparent entry rfl
    unfold batchWriteEntry
    dsimp only
    split
    · -- a FRESH child over an unspent parent coin contradicts the child's invariant
      next hmis =>
      simp only [Bool.and_eq_true, Bool.not_eq_eq_eq_not, Bool.not_true] at hmis
      have hnone := hchild.below_of_fresh hmis.1
      rw [overlay, Coin.unspent_eq_none_iff] at hnone
      simp [hnone] at hmis
    · split
      · next _ hgone =>
        simp only [Bool.and_eq_true] at hgone
        refine ⟨none, rfl, (fun _ h => by cases h), ?_⟩
        rw [overlay, hentry.below_of_fresh hgone.1, Coin.unspent_eq_none_iff.mpr hgone.2]
      · next _ hkeep =>
        refine ⟨_, rfl, ?_, rfl⟩
        rintro e ⟨⟩
        refine ⟨fun _ => rfl, fun hf => ?_, hentry.below_of_fresh, (fun h => by cases h)⟩
        exact (by simpa using hkeep : entry.fresh = true → child.coin.isSpent = false) hf

/-- One outpoint of `CCoinsViewDB::BatchWrite`: the base then shows the child's coin. -/
theorem baseWriteVisit_spec (base : COutPoint → Option Coin) (outpoint : COutPoint)
    {child : CCoinsCacheEntry} (hdirty : child.dirty = true) :
    ∃ base', baseWriteVisit base outpoint child = .ok base' ∧
      baseGetCoin base' outpoint = child.coin.unspent ∧
      KeyedFold.FramedAt (fun b o => b o) outpoint base base' := by
  refine ⟨_, by rw [baseWriteVisit, if_pos hdirty], ?_, fun o ho => Function.update_of_ne ho _ _⟩
  unfold baseGetCoin Coin.unspent
  cases h : child.coin.isSpent <;> simp [h]

/-- The cursor walk of a `BatchWrite`, one flagged outpoint at a time: when the parent's
loop body, run at a flagged outpoint on a parent that still has its original value there,
succeeds with a result `R` and touches no other outpoint, the walk succeeds; each flagged
outpoint ends with `R` in the parent and with `cursorEntry` in the child, and the other
outpoints keep their values in both. -/
theorem walkCursor_spec {σ P : Type} (pget : σ → COutPoint → P)
    (visit : σ → COutPoint → CCoinsCacheEntry → Except String σ) (willErase : Bool)
    (parent : σ) (child : CCoinsViewCache) (R : COutPoint → P → Prop)
    (hvisit : ∀ p o e, child.cacheCoins o = some e → (e.dirty || e.fresh) = true →
      pget p o = pget parent o →
      ∃ p', visit p o e = .ok p' ∧ R o (pget p' o) ∧ KeyedFold.FramedAt pget o p p') :
    ∃ parent' child', walkCursor visit willErase parent child = .ok (parent', child') ∧
      (∀ o ∈ child.flagged, R o (pget parent' o) ∧
        ∃ e, child.cacheCoins o = some e ∧ child'.cacheCoins o = cursorEntry willErase e) ∧
      ∀ o, o ∉ child.flagged →
        pget parent' o = pget parent o ∧ child'.cacheCoins o = child.cacheCoins o := by
  let get : σ × CCoinsViewCache → COutPoint → P × Option CCoinsCacheEntry :=
    fun st o => (pget st.1 o, st.2.cacheCoins o)
  have hstep : ∀ st o, o ∈ child.flagged → True → get st o = get (parent, child) o →
      ∃ st', cursorStep visit willErase st o = .ok st' ∧ True ∧
        (R o (get st' o).1 ∧ ∃ e, child.cacheCoins o = some e ∧
          (get st' o).2 = cursorEntry willErase e) ∧ KeyedFold.FramedAt get o st st' := by
    rintro ⟨p, c⟩ o hflag - hget
    simp only [get, Prod.mk.injEq] at hget
    obtain ⟨e, he, hflagged⟩ := CCoinsViewCache.exists_of_mem_flagged hflag
    obtain ⟨p', hp', hR, hframe⟩ := hvisit p o e he hflagged hget.1
    have hc : c.cacheCoins o = some e := hget.2.trans he
    refine ⟨(p', nextAndMaybeErase willErase c o e), ?_, trivial, ⟨hR, e, he, ?_⟩, ?_⟩
    · simp [cursorStep, hc, hp']
    · exact cacheCoins_nextAndMaybeErase_self willErase c o e hc
    · intro o' ho'
      simp only [get, Prod.mk.injEq]
      exact ⟨hframe o' ho', cacheCoins_nextAndMaybeErase_of_ne willErase c e ho'⟩
  obtain ⟨⟨parent', child'⟩, hwalk, -, hkeys, hrest⟩ :=
    KeyedFold.foldlM_pointwise get (cursorStep visit willErase) (fun _ => True)
      (fun o v => R o v.1 ∧ ∃ e, child.cacheCoins o = some e ∧ v.2 = cursorEntry willErase e)
      (get (parent, child)) child.flagged (parent, child) child.nodup_flagged trivial
      (fun _ _ => rfl) hstep
  refine ⟨parent', child', hwalk, hkeys, fun o ho => ?_⟩
  simpa [get] using hrest o ho

/-- A flagged entry is DIRTY, since FRESH entries are. -/
theorem dirty_of_flagged {below : Option Coin} {entry : CCoinsCacheEntry}
    (h : EntryInv below entry) (hflag : (entry.dirty || entry.fresh) = true) : entry.dirty = true := by
  rcases Bool.or_eq_true _ _ ▸ hflag with hd | hf
  · exact hd
  · exact h.dirty_of_fresh hf

/-- An entry off the flagged list is clean. -/
theorem clean_of_not_mem_flagged {cache : CCoinsViewCache} {outpoint : COutPoint}
    {entry : CCoinsCacheEntry} (he : cache.cacheCoins outpoint = some entry)
    (ho : outpoint ∉ cache.flagged) : entry.dirty = false ∧ entry.fresh = false := by
  have := mt (cache.mem_flagged outpoint).mpr ho
  simpa [he, flaggedAt] using this

/-- The parent's new view `V'` is the child's old view everywhere once it is at the flagged
outpoints and the parent kept its view `V` elsewhere: off the list the child's entry is
missing or clean, and a clean entry shows what lies below. -/
theorem view_after_walk {child : CCoinsViewCache} (V V' : COutPoint → Option Coin)
    (hinv : LayerInv V child) (hkeys : ∀ o ∈ child.flagged, V' o = overlay (child.cacheCoins o) (V o))
    (hrest : ∀ o, o ∉ child.flagged → V' o = V o) (o : COutPoint) :
    V' o = overlay (child.cacheCoins o) (V o) := by
  by_cases ho : o ∈ child.flagged
  · exact hkeys o ho
  · rw [hrest o ho]
    cases he : child.cacheCoins o with
    | none => rfl
    | some e => rw [overlay_eq_of_clean (hinv o e he) (clean_of_not_mem_flagged he ho).1]

/-- The child after the walk: `Flush` wipes it, `Sync` leaves only clean entries, which show
the parent's new view; either way it shows that view and keeps the invariant over it. -/
theorem finishWrite_spec {willErase : Bool} {child child' : CCoinsViewCache}
    {V V' : COutPoint → Option Coin} (hinv : LayerInv V child)
    (hview : ∀ o, V' o = overlay (child.cacheCoins o) (V o))
    (hkeys : ∀ o ∈ child.flagged, ∃ e, child.cacheCoins o = some e ∧
      child'.cacheCoins o = cursorEntry willErase e)
    (hrest : ∀ o, o ∉ child.flagged → child'.cacheCoins o = child.cacheCoins o) :
    ∃ child'', finishWrite willErase child' = .ok child'' ∧ LayerInv V' child'' ∧
      ∀ o, overlay (child''.cacheCoins o) (V' o) = V' o := by
  cases willErase with
  | true => exact ⟨_, rfl, (fun _ _ h => by cases h), fun _ => rfl⟩
  | false =>
    -- every entry left in the child is clean, unspent and what the parent now shows
    have hclean : ∀ o e', child'.cacheCoins o = some e' →
        e'.dirty = false ∧ e'.fresh = false ∧ e'.coin.isSpent = false ∧ V' o = some e'.coin := by
      intro o e' he'
      by_cases ho : o ∈ child.flagged
      · obtain ⟨e, he, hcur⟩ := hkeys o ho
        rw [hcur, cursorEntry] at he'
        simp only [Bool.false_eq_true, if_false] at he'
        split at he'
        · cases he'
        · next hspent =>
          cases he'
          refine ⟨rfl, rfl, by simpa using hspent, ?_⟩
          rw [hview o, he, overlay, Coin.unspent_eq_some_iff.mpr ⟨by simpa using hspent, rfl⟩]
      · rw [hrest o ho] at he'
        obtain ⟨hd, hf⟩ := clean_of_not_mem_flagged he' ho
        obtain ⟨hspent, -⟩ := (hinv o e' he').below_of_clean hd
        refine ⟨hd, hf, hspent, ?_⟩
        rw [hview o, he', overlay, Coin.unspent_eq_some_iff.mpr ⟨hspent, rfl⟩]
    have hempty : child'.flagged = [] := by
      apply List.eq_nil_iff_forall_not_mem.mpr
      intro o ho
      obtain ⟨e', he', hflag⟩ := CCoinsViewCache.exists_of_mem_flagged ho
      obtain ⟨hd, hf, -⟩ := hclean o e' he'
      simp [hd, hf] at hflag
    refine ⟨child', by simp [finishWrite, hempty], fun o e' he' => ?_, fun o => ?_⟩
    · obtain ⟨hd, hf, hspent, hV⟩ := hclean o e' he'
      exact ⟨fun h => absurd h (by simp [hf]), fun h => absurd h (by simp [hf]),
        fun h => absurd h (by simp [hf]), fun _ => ⟨hspent, hV⟩⟩
    · cases he' : child'.cacheCoins o with
      | none => rfl
      | some e' =>
        obtain ⟨-, -, hspent, hV⟩ := hclean o e' he'
        rw [overlay, Coin.unspent_eq_some_iff.mpr ⟨hspent, rfl⟩, hV]

/-- `Flush` or `Sync` of any layer of a stack that keeps the invariant: it never throws (in
particular no `BatchWrite` finds a misapplied FRESH flag), keeps the invariant and the view of
the stack, and for the top layer the layers under it then show the same view. -/
theorem flushAt_spec (willErase : Bool) :
    ∀ (layer : Nat) {base : COutPoint → Option Coin} {layers : List CCoinsViewCache},
      StackInv base layers → layer < layers.length →
      ∃ base' layers', flushAt willErase base layer layers = .ok (base', layers') ∧
        StackInv base' layers' ∧ (∀ o, peekCoin base' layers' o = peekCoin base layers o) ∧
        (layer = 0 → ∀ o, peekCoin base' layers'.tail o = peekCoin base layers o)
  | _, _, [], _, h => absurd h (Nat.not_lt_zero _)
  | 0, base, [child], ⟨hchild, _⟩, _ => by
    -- the last layer is written into the base table
    obtain ⟨base', child', hwalk, hkeys, hrest⟩ :=
      walkCursor_spec (fun b o => b o) baseWriteVisit willErase base child
        (fun o v => v.bind Coin.unspent = peekCoin base [child] o) (by
          intro p o e he hflag _
          obtain ⟨p', hp', hget, hframe⟩ :=
            baseWriteVisit_spec p o (dirty_of_flagged (hchild o e he) hflag)
          refine ⟨p', hp', ?_, hframe⟩
          rw [peekCoin_cons, he, overlay]
          exact hget)
    have hview := view_after_walk _ (baseGetCoin base') hchild
      (fun o ho => by rw [← peekCoin_cons]; exact (hkeys o ho).1)
      (fun o ho => by simp only [baseGetCoin, peekCoin, (hrest o ho).1])
    obtain ⟨child'', hfinish, hinv'', htransparent⟩ :=
      finishWrite_spec hchild hview (fun o ho => (hkeys o ho).2) (fun o ho => (hrest o ho).2)
    refine ⟨base', [child''], by simp [flushAt, hwalk, hfinish], ⟨hinv'', trivial⟩, fun o => ?_,
      fun _ o => ?_⟩
    · rw [peekCoin_cons, peekCoin_nil, htransparent o, hview o, peekCoin_cons]
    · rw [List.tail_cons, peekCoin_nil, hview o, peekCoin_cons]
  | 0, base, child :: parent :: rest, ⟨hchild, hparent, hrest⟩, _ => by
    -- the top layer is written into the cache under it
    obtain ⟨parent', child', hwalk, hkeys, hframe⟩ :=
      walkCursor_spec (fun p o => p.cacheCoins o) batchWriteVisit willErase parent child
        (fun o v => (∀ e, v = some e → EntryInv (peekCoin base rest o) e) ∧
          overlay v (peekCoin base rest o) = peekCoin base (child :: parent :: rest) o) (by
          intro p o e he hflag hp
          have hdirty := dirty_of_flagged (hchild o e he) hflag
          have hentry : EntryInv (overlay (p.cacheCoins o) (peekCoin base rest o)) e := by
            rw [hp, ← peekCoin_cons]
            exact hchild o e he
          obtain ⟨new, hnew, hinv, hover⟩ :=
            batchWriteEntry_spec (fun e' h => hparent o e' (hp ▸ h)) hentry
          refine ⟨p.store o new, by simp [batchWriteVisit, hdirty, hnew], ⟨?_, ?_⟩,
            fun o' ho' => CCoinsViewCache.cacheCoins_store_of_ne p new ho'⟩
          · simpa using hinv
          · rw [CCoinsViewCache.cacheCoins_store_self, hover, peekCoin_cons, he, overlay])
    have hparent' : LayerInv (peekCoin base rest) parent' := by
      intro o e he
      by_cases ho : o ∈ child.flagged
      · exact (hkeys o ho).1.1 e he
      · rw [(hframe o ho).1] at he
        exact hparent o e he
    have hview := view_after_walk _ (peekCoin base (parent' :: rest)) hchild
      (fun o ho => by rw [peekCoin_cons, (hkeys o ho).1.2, peekCoin_cons])
      (fun o ho => by rw [peekCoin_cons, peekCoin_cons, (hframe o ho).1])
    obtain ⟨child'', hfinish, hinv'', htransparent⟩ := finishWrite_spec hchild hview
      (fun o ho => (hkeys o ho).2) (fun o ho => (hframe o ho).2)
    refine ⟨base, child'' :: parent' :: rest, by simp [flushAt, hwalk, hfinish],
      ⟨hinv'', hparent', hrest⟩, fun o => ?_, fun _ o => ?_⟩
    · rw [peekCoin_cons, htransparent o, peekCoin_cons _ child]
      exact hview o
    · rw [List.tail_cons, peekCoin_cons _ child]
      exact hview o
  | layer + 1, base, cache :: below, ⟨hcache, hbelow⟩, h => by
    obtain ⟨base', below', hflush, hinv', hview, -⟩ :=
      flushAt_spec willErase layer hbelow (by simpa using h)
    refine ⟨base', cache :: below', by simp [flushAt, hflush],
      ⟨layerInv_congr hcache hview, hinv'⟩, fun o => ?_, fun h => by cases h⟩
    rw [peekCoin_cons, peekCoin_cons, hview o]

end Riecoin
