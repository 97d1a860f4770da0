import EraConsensus.BlockStore.Frontier

/-! The frontiers only move forward, so every predicate a waiter of the store waits on,
once true, stays true. -/

namespace EraConsensus

namespace BlockStoreState

/-- `b` extends the range `a`. -/
structure Grows (a b : BlockStoreState) : Prop where
  first : b.first = a.first
  next : a.next ≤ b.next
  nonempty : a.last.isSome → b.last.isSome

theorem Grows.refl (a : BlockStoreState) : Grows a a := ⟨rfl, le_rfl, id⟩

theorem Grows.trans {a b c : BlockStoreState} (hab : Grows a b) (hbc : Grows b c) :
    Grows a c :=
  ⟨hbc.first.trans hab.first, hab.next.trans hbc.next, hbc.nonempty ∘ hab.nonempty⟩

theorem grows_set_last (a : BlockStoreState) (qc : CommitQC) (h : a.next ≤ qc.header.number) :
    Grows a { a with last := some qc } :=
  ⟨rfl, by simp; omega, fun _ => rfl⟩

theorem Grows.contains {a b : BlockStoreState} (hab : Grows a b) {n : Nat}
    (h : a.contains n = true) : b.contains n = true := by
  rw [contains_iff] at h ⊢
  exact ⟨hab.nonempty h.1, hab.first ▸ h.2.1, lt_of_lt_of_le h.2.2 hab.next⟩

end BlockStoreState

open BlockStoreState

namespace System

variable {R : Roles} {p : PersistentBlockStore} {s s' t : System} {l : Label}

theorem Frontier.step_grows (hf : Frontier s) (h : step R s l = some s') :
    Grows s.inner.queuedState s'.inner.queuedState ∧
    Grows s.inner.persistedState s'.inner.persistedState ∧
    (s'.inner.queuedState ≠ s.inner.queuedState →
      ∃ b : FinalBlock, s.inner.queuedState.next = b.number ∧
        s'.inner.queuedState = { s.inner.queuedState with last := some b.justification }) := by
  rcases step_cases R h with ⟨cs, rs, rfl⟩ | ⟨i, b, -, -, rfl⟩ | ⟨b, rest, -, -, rfl⟩ |
    ⟨b, -, rfl⟩ | ⟨b, hb, rfl⟩ | ⟨-, rfl⟩
  · exact ⟨.refl _, .refl _, fun hne => absurd rfl hne⟩
  · by_cases hn : s.inner.queuedState.next = b.number
    · rw [update_of_next hn]
      exact ⟨grows_set_last _ _ (by rw [b.number_justification, hn]), .refl _,
        fun _ => ⟨b, hn, rfl⟩⟩
    · rw [update_of_ne hn]
      exact ⟨.refl _, .refl _, fun hne => absurd rfl hne⟩
  · exact ⟨.refl _, .refl _, fun hne => absurd rfl hne⟩
  · exact ⟨.refl _, .refl _, fun hne => absurd rfl hne⟩
  · have := hf.runner_number (.inr hb)
    exact ⟨.refl _, grows_set_last _ _ (by rw [b.number_justification]; omega),
      fun hne => absurd rfl hne⟩
  · exact ⟨.refl _, .refl _, fun hne => absurd rfl hne⟩

theorem Reachable.run_grows (reach : Reachable R p s) {ls : List Label}
    (h : run R s ls = some t) :
    Grows s.inner.queuedState t.inner.queuedState ∧
    Grows s.inner.persistedState t.inner.persistedState := by
  induction ls generalizing s with
  | nil => cases h; exact ⟨.refl _, .refl _⟩
  | cons l ls ih =>
    obtain ⟨s', hs, hr⟩ := (run_cons R).mp h
    obtain ⟨hq, hp, -⟩ := reach.frontier.step_grows hs
    obtain ⟨hq', hp'⟩ := ih (reach.step hs) hr
    exact ⟨hq.trans hq', hp.trans hp'⟩

/-- One action moves neither next back nor either first and changes the queued range
only to a later last; over any run every number held stays held. -/
theorem frontiers_monotone (reach : Reachable R p s) :
    (∀ l s', step R s l = some s' →
      s.inner.queuedState.next ≤ s'.inner.queuedState.next ∧
      s.inner.persistedState.next ≤ s'.inner.persistedState.next ∧
      s'.inner.queuedState.first = s.inner.queuedState.first ∧
      s'.inner.persistedState.first = s.inner.persistedState.first ∧
      (s'.inner.queuedState ≠ s.inner.queuedState →
        ∃ qc, s'.inner.queuedState.last = some qc ∧
          ∀ q, s.inner.queuedState.last = some q → q.header.number < qc.header.number)) ∧
    (∀ ls t, run R s ls = some t → ∀ n,
      (s.inner.queuedState.contains n = true → t.inner.queuedState.contains n = true) ∧
      (s.inner.persistedState.contains n = true → t.inner.persistedState.contains n = true) ∧
      (queueBlockReady s.inner.queuedState n = true →
        queueBlockReady t.inner.queuedState n = true) ∧
      (waitUntilQueued s.inner.queuedState n = true →
        waitUntilQueued t.inner.queuedState n = true) ∧
      (waitUntilPersisted s.inner n = true → waitUntilPersisted t.inner n = true)) := by
  refine ⟨fun l s' h => ?_, fun ls t h n => ?_⟩
  · obtain ⟨hq, hp, hchange⟩ := reach.frontier.step_grows h
    refine ⟨hq.next, hp.next, hq.first, hp.first, fun hne => ?_⟩
    obtain ⟨b, hn, heq⟩ := hchange hne
    refine ⟨b.justification, by rw [heq], fun q hq' => ?_⟩
    have := next_of_last hq'
    rw [b.number_justification]
    omega
  · obtain ⟨hq, hp⟩ := reach.run_grows h
    have := hq.next
    have := hp.next
    refine ⟨hq.contains, hp.contains, ?_, ?_, ?_⟩ <;>
      simp only [queueBlockReady, waitUntilQueued, waitUntilPersisted, decide_eq_true_eq] <;>
      omega

theorem frontiers_monotone_sample :
    (∀ l s', step sampleRoles sampleState l = some s' →
      sampleState.inner.queuedState.next ≤ s'.inner.queuedState.next ∧
      sampleState.inner.persistedState.next ≤ s'.inner.persistedState.next ∧
      s'.inner.queuedState.first = sampleState.inner.queuedState.first ∧
      s'.inner.persistedState.first = sampleState.inner.persistedState.first ∧
      (s'.inner.queuedState ≠ sampleState.inner.queuedState →
        ∃ qc, s'.inner.queuedState.last = some qc ∧
          ∀ q, sampleState.inner.queuedState.last = some q →
            q.header.number < qc.header.number)) ∧
    (∀ ls t, run sampleRoles sampleState ls = some t → ∀ n,
      (sampleState.inner.queuedState.contains n = true →
        t.inner.queuedState.contains n = true) ∧
      (sampleState.inner.persistedState.contains n = true →
        t.inner.persistedState.contains n = true) ∧
      (queueBlockReady sampleState.inner.queuedState n = true →
        queueBlockReady t.inner.queuedState n = true) ∧
      (waitUntilQueued sampleState.inner.queuedState n = true →
        waitUntilQueued t.inner.queuedState n = true) ∧
      (waitUntilPersisted sampleState.inner n = true → waitUntilPersisted t.inner n = true)) :=
  frontiers_monotone sampleState_reachable

end System

end EraConsensus
