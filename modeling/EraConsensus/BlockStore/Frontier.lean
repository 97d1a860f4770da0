import EraConsensus.BlockStore.System

/-! The representation invariant of `Inner` over every run: the queue holds exactly the
blocks between the persisted and the queued frontier, in order. -/

namespace EraConsensus

def lastQC (init : Option CommitQC) (bs : List FinalBlock) : Option CommitQC :=
  bs.foldl (fun _ b => some b.justification) init

@[simp] theorem lastQC_nil (init : Option CommitQC) : lastQC init [] = init := rfl

@[simp] theorem lastQC_cons (init : Option CommitQC) (b : FinalBlock) (bs : List FinalBlock) :
    lastQC init (b :: bs) = lastQC (some b.justification) bs := rfl

@[simp] theorem lastQC_concat (init : Option CommitQC) (bs : List FinalBlock) (b : FinalBlock) :
    lastQC init (bs ++ [b]) = some b.justification := by
  simp [lastQC, List.foldl_append]

namespace System

variable {R : Roles} {p : PersistentBlockStore} {s s' : System} {l : Label}

structure Frontier (s : System) : Prop where
  queued_first : s.inner.queuedState.first = s.genesis.fork.firstBlock
  persisted_first : s.inner.persistedState.first = s.genesis.fork.firstBlock
  contiguous : s.inner.persistedState.next + s.inner.queue.length = s.inner.queuedState.next
  numbers : ∀ i b, s.inner.queue[i]? = some b → b.number = s.inner.persistedState.next + i
  queued_last : s.inner.queuedState.last = lastQC s.inner.persistedState.last s.inner.queue
  runner_head : ∀ b, (s.runner = .storing b ∨ s.runner = .stored b) → s.inner.queue.head? = some b

theorem frontier_start {inner : Inner} (h : BlockStore.new R p = .ok inner) :
    Frontier (start p inner) := by
  cases BlockStore.new_eq h
  constructor <;> simp [start, genesis, PersistentBlockStore.initialState]

theorem Frontier.update (hf : Frontier s) (i : Nat) (b : FinalBlock) :
    Frontier (s.update i b) := by
  by_cases hn : s.inner.queuedState.next = b.number
  · rw [update_of_next hn]
    dsimp only
    obtain ⟨qf, pf, hc, hnum, hl, hr⟩ := hf
    refine ⟨qf, pf, ?_, ?_, by simp, fun b' h => ?_⟩
    · simp only [List.length_append, List.length_singleton, BlockStoreState.next_mk_some]
      rw [b.number_justification]
      omega
    · intro j b' hj
      rcases getElem?_concat_eq_some hj with hj | ⟨rfl, rfl⟩
      · exact hnum j b' hj
      · show b'.number = s.inner.persistedState.next + s.inner.queue.length
        omega
    · simp [hr b' h]
  · rw [update_of_ne hn]
    exact ⟨hf.1, hf.2, hf.3, hf.4, hf.5, hf.6⟩

theorem Frontier.runner_number (hf : Frontier s) {b : FinalBlock}
    (hb : s.runner = .storing b ∨ s.runner = .stored b) :
    b.number = s.inner.persistedState.next := by
  obtain ⟨rest, hq⟩ := List.head?_eq_some_iff.mp (hf.runner_head b hb)
  simpa using hf.numbers 0 b (by simp [hq])

theorem Frontier.persist (hf : Frontier s) {b : FinalBlock} (hb : s.runner = .stored b) :
    Frontier { s with inner := s.inner.persist b, innerVersion := s.innerVersion + 1,
                      runner := .idle } := by
  obtain ⟨rest, hq⟩ := List.head?_eq_some_iff.mp (hf.runner_head b (.inr hb))
  have hb0 := hf.runner_number (.inr hb)
  obtain ⟨qf, pf, hc, hnum, hl, -⟩ := hf
  simp only [Inner.persist, hq, List.tail_cons] at *
  refine ⟨qf, pf, ?_, fun j b' hj => ?_, hl, by simp⟩
  · simp only [List.length_cons, BlockStoreState.next_mk_some] at hc ⊢
    rw [b.number_justification]
    omega
  · have := hnum (j + 1) b' (by simpa using hj)
    simp only [BlockStoreState.next_mk_some, b.number_justification]
    omega

theorem Frontier.preserved (hf : Frontier s) (h : step R s l = some s') : Frontier s' := by
  rcases step_cases R h with ⟨cs, rs, rfl⟩ | ⟨i, b, -, -, rfl⟩ | ⟨b, rest, hr, hq, rfl⟩ |
    ⟨b, hr, rfl⟩ | ⟨b, hr, rfl⟩ | ⟨-, rfl⟩
  · exact ⟨hf.1, hf.2, hf.3, hf.4, hf.5, hf.6⟩
  · exact hf.update i b
  · exact ⟨hf.1, hf.2, hf.3, hf.4, hf.5, by simp [hq]⟩
  · exact ⟨hf.1, hf.2, hf.3, hf.4, hf.5, by simpa [hr] using hf.6⟩
  · exact hf.persist hr
  · exact ⟨hf.1, hf.2, hf.3, hf.4, hf.5, by simp⟩

theorem Reachable.frontier (reach : Reachable R p s) : Frontier s := by
  induction reach with
  | start h => exact frontier_start h
  | step _ h ih => exact ih.preserved h

theorem Reachable.persistent_eq (reach : Reachable R p s) : s.persistent = p := by
  induction reach with
  | start _ => rfl
  | step _ h ih => exact (step_persistent R h).trans ih

/-- The representation invariant of `Inner` in every reachable state. -/
theorem inner_invariant (reach : Reachable R p s) :
    s.inner.queuedState.first = p.genesis.fork.firstBlock ∧
    s.inner.persistedState.first = p.genesis.fork.firstBlock ∧
    s.inner.persistedState.next ≤ s.inner.queuedState.next ∧
    s.inner.persistedState.next + s.inner.queue.length = s.inner.queuedState.next ∧
    (∀ i (h : i < s.inner.queue.length),
      s.inner.queue[i].number = s.inner.persistedState.next + i) ∧
    (∀ b, s.inner.queue.getLast? = some b → s.inner.queuedState.last = some b.justification) ∧
    (s.inner.queue = [] → s.inner.queuedState.last = s.inner.persistedState.last) := by
  have hf := reach.frontier
  have hp : s.genesis = p.genesis := by rw [genesis, reach.persistent_eq]
  refine ⟨hp ▸ hf.queued_first, hp ▸ hf.persisted_first, by have := hf.contiguous; omega,
    hf.contiguous, fun i h => hf.numbers i _ (List.getElem?_eq_getElem h), fun b hb => ?_,
    fun he => by simp [hf.queued_last, he]⟩
  obtain ⟨ys, hys⟩ := List.getLast?_eq_some_iff.mp hb
  rw [hf.queued_last, hys, lastQC_concat]

theorem inner_invariant_sample :
    sampleState.inner.queuedState.first = sampleStore.genesis.fork.firstBlock ∧
    sampleState.inner.persistedState.first = sampleStore.genesis.fork.firstBlock ∧
    sampleState.inner.persistedState.next ≤ sampleState.inner.queuedState.next ∧
    sampleState.inner.persistedState.next + sampleState.inner.queue.length =
      sampleState.inner.queuedState.next ∧
    (∀ i (h : i < sampleState.inner.queue.length),
      sampleState.inner.queue[i].number = sampleState.inner.persistedState.next + i) ∧
    (∀ b, sampleState.inner.queue.getLast? = some b →
      sampleState.inner.queuedState.last = some b.justification) ∧
    (sampleState.inner.queue = [] →
      sampleState.inner.queuedState.last = sampleState.inner.persistedState.last) :=
  inner_invariant sampleState_reachable

end System

end EraConsensus
