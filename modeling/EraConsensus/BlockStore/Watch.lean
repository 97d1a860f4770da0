import EraConsensus.BlockStore.Frontier

/-! The store's two watches: along every run each version counts exactly the actions that
changed the value it guards, so no change goes unnotified and none is notified twice. -/

namespace EraConsensus

theorem BlockStoreState.set_last_ne {a : BlockStoreState} {qc : CommitQC}
    (h : a.next = qc.header.number) : { a with last := some qc } ≠ a := by
  intro heq
  have := congrArg BlockStoreState.next heq
  simp only [next_mk_some] at this
  omega

namespace System

variable (R : Roles)

def changes {α : Type} [DecidableEq α] (f : System → α) : System → List Label → Nat
  | _, [] => 0
  | s, l :: ls =>
    match step R s l with
    | some s' => (if f s' = f s then 0 else 1) + changes f s' ls
    | none => 0

variable {R} {p : PersistentBlockStore} {s s' t : System} {l : Label} {ls : List Label}

theorem changes_cons {α : Type} [DecidableEq α] {f : System → α} (h : step R s l = some s') :
    changes R f s (l :: ls) = (if f s' = f s then 0 else 1) + changes R f s' ls := by
  simp [changes, h]

theorem eq_of_changes_eq_zero {α : Type} [DecidableEq α] {f : System → α}
    (h : run R s ls = some t) (hz : changes R f s ls = 0) : f t = f s := by
  induction ls generalizing s with
  | nil => cases h; rfl
  | cons l ls ih =>
    obtain ⟨s', hs', hr⟩ := (run_cons R).mp h
    rw [changes_cons hs'] at hz
    split_ifs at hz with hf
    · exact (ih hr (by omega)).trans hf
    · omega

theorem Frontier.step_versions (hf : Frontier s) (h : step R s l = some s') :
    s'.innerVersion = s.innerVersion + (if s'.inner = s.inner then 0 else 1) ∧
    s'.queuedVersion =
      s.queuedVersion + (if s'.inner.queuedState = s.inner.queuedState then 0 else 1) := by
  rcases step_cases R h with ⟨cs, rs, rfl⟩ | ⟨i, b, -, -, rfl⟩ | ⟨b, rest, -, -, rfl⟩ |
    ⟨b, -, rfl⟩ | ⟨b, hb, rfl⟩ | ⟨-, rfl⟩
  · simp
  · by_cases hn : s.inner.queuedState.next = b.number
    · -- both closures report the change they made: `last` moves to the new block
      have hq : ({ s.inner.queuedState with last := some b.justification } : BlockStoreState) ≠
          s.inner.queuedState := BlockStoreState.set_last_ne hn
      have hi : (⟨{ s.inner.queuedState with last := some b.justification },
          s.inner.persistedState, s.inner.queue ++ [b]⟩ : Inner) ≠ s.inner :=
        fun heq => hq (congrArg Inner.queuedState heq)
      rw [update_of_next hn]
      exact ⟨by simp [hi], by simp [hq]⟩
    · rw [update_of_ne hn]
      simp
  · simp
  · simp
  · -- the runner's update pops the front block, which is its own
    obtain ⟨rest, hq⟩ := List.head?_eq_some_iff.mp (hf.runner_head b (.inr hb))
    have hi : s.inner.persist b ≠ s.inner := fun heq => by
      have := congrArg (·.queue.length) heq
      simp [Inner.persist, hq] at this
    simp [hi, show (s.inner.persist b).queuedState = s.inner.queuedState from rfl]
  · simp

theorem Reachable.run_versions (reach : Reachable R p s) (h : run R s ls = some t) :
    t.innerVersion = s.innerVersion + changes R (·.inner) s ls ∧
    t.queuedVersion = s.queuedVersion + changes R (·.inner.queuedState) s ls := by
  induction ls generalizing s with
  | nil => cases h; simp [changes]
  | cons l ls ih =>
    obtain ⟨s', hs', hr⟩ := (run_cons R).mp h
    obtain ⟨hi, hq⟩ := reach.frontier.step_versions hs'
    obtain ⟨hi', hq'⟩ := ih (reach.step hs') hr
    rw [changes_cons hs', changes_cons hs']
    constructor <;> omega

/-- Along every run from a reachable state, each watch version advances by the number of
actions that changed its value. -/
theorem watch_notifications (reach : Reachable R p s) (h : run R s ls = some t) :
    t.innerVersion = s.innerVersion + changes R (·.inner) s ls ∧
    t.queuedVersion = s.queuedVersion + changes R (·.inner.queuedState) s ls ∧
    (t.inner ≠ s.inner → s.innerVersion < t.innerVersion) ∧
    (t.inner.queuedState ≠ s.inner.queuedState → s.queuedVersion < t.queuedVersion) := by
  obtain ⟨hi, hq⟩ := reach.run_versions h
  refine ⟨hi, hq, fun hne => ?_, fun hne => ?_⟩
  · have : changes R (·.inner) s ls ≠ 0 := fun hz => hne (eq_of_changes_eq_zero h hz)
    omega
  · have : changes R (·.inner.queuedState) s ls ≠ 0 := fun hz => hne (eq_of_changes_eq_zero h hz)
    omega

def samplePersisted : System :=
  (run sampleRoles sampleState [.store, .persist]).getD sampleState

theorem watch_notifications_sample :
    run sampleRoles sampleState [.store, .persist] = some samplePersisted ∧
    samplePersisted.innerVersion =
      sampleState.innerVersion + changes sampleRoles (·.inner) sampleState [.store, .persist] ∧
    samplePersisted.queuedVersion = sampleState.queuedVersion +
      changes sampleRoles (·.inner.queuedState) sampleState [.store, .persist] ∧
    (samplePersisted.inner ≠ sampleState.inner →
      sampleState.innerVersion < samplePersisted.innerVersion) ∧
    (samplePersisted.inner.queuedState ≠ sampleState.inner.queuedState →
      sampleState.queuedVersion < samplePersisted.queuedVersion) :=
  ⟨rfl, watch_notifications sampleState_reachable rfl⟩

end System

end EraConsensus
