import EraConsensus.BlockStore.Frontier
import Mathlib.Data.List.Infix

/-! The runner against the `PersistentBlockStore` contract: it stores the appended blocks
once each, in order, each at the store's own next number. -/

namespace EraConsensus

def Runner.held : Runner → Nat
  | .stored _ => 1
  | _ => 0

theorem concat_isPrefix_of_getElem? {α : Type} {l m : List α} {a : α} (hp : l <+: m)
    (ha : m[l.length]? = some a) : l ++ [a] <+: m := by
  obtain ⟨rest, rfl⟩ := hp
  rcases rest with _ | ⟨b, rest⟩
  · simp at ha
  · simp only [List.getElem?_append_right (Nat.le_refl _), Nat.sub_self,
      List.getElem?_cons_zero, Option.some.injEq] at ha
    exact ⟨rest, by simp [ha]⟩

theorem isPrefix_getElem?_eq {α : Type} {l m : List α} {a : α} {i : Nat} (hp : l <+: m)
    (h : l[i]? = some a) : m[i]? = some a := by
  obtain ⟨t, rfl⟩ := hp
  rw [List.getElem?_append_left (List.getElem?_eq_some_iff.mp h).1, h]

namespace System

variable {R : Roles} {p : PersistentBlockStore} {s s' : System} {l : Label}

/-- The persistent store holds a prefix of the appended blocks; the queue is the rest. -/
structure Persisted (s : System) : Prop where
  numbers : ∀ i b, s.appended[i]? = some b → b.number = s.persistent.initialState.next + i
  stored_appended : s.stored <+: s.appended
  persisted_le : s.persistent.initialState.next ≤ s.inner.persistedState.next
  persisted_next : s.inner.persistedState.next + s.runner.held =
    s.persistent.initialState.next + s.stored.length
  queue_eq : s.inner.queue =
    s.appended.drop (s.inner.persistedState.next - s.persistent.initialState.next)

theorem Persisted.queued_next (hf : Frontier s) (hp : Persisted s) :
    s.inner.queuedState.next = s.persistent.initialState.next + s.appended.length := by
  have hq := congrArg List.length hp.queue_eq
  have hs := hp.stored_appended.length_le
  have := hp.persisted_next
  have := hp.persisted_le
  have := hf.contiguous
  simp only [List.length_drop] at hq
  omega

theorem persisted_start {inner : Inner} (h : BlockStore.new R p = .ok inner) :
    Persisted (start p inner) := by
  cases BlockStore.new_eq h
  exact ⟨by simp [start], by simp [start], by simp [start], by simp [start, Runner.held],
    by simp [start]⟩

theorem Persisted.update (hf : Frontier s) (hp : Persisted s) (i : Nat) (b : FinalBlock) :
    Persisted (s.update i b) := by
  by_cases hn : s.inner.queuedState.next = b.number
  · have hq := hp.queued_next hf
    have hs := hp.stored_appended.length_le
    have := hp.persisted_next
    rw [update_of_next hn]
    obtain ⟨hnum, hpre, hle, hnext, heq⟩ := hp
    refine ⟨fun j b' hj => ?_, hpre.trans (List.prefix_append _ _), hle, hnext, ?_⟩
    · rcases getElem?_concat_eq_some hj with hj | ⟨rfl, rfl⟩
      · exact hnum j b' hj
      · show b'.number = s.persistent.initialState.next + s.appended.length
        omega
    · dsimp only
      rw [List.drop_append_of_le_length (by omega), heq]
  · rw [update_of_ne hn]
    exact ⟨hp.1, hp.2, hp.3, hp.4, hp.5⟩

theorem Persisted.store (hf : Frontier s) (hp : Persisted s) {b : FinalBlock}
    (hb : s.runner = .storing b) :
    Persisted { s with stored := s.stored ++ [b], runner := .stored b } := by
  have hhead : s.appended[s.stored.length]? = some b := by
    have hnext := hp.persisted_next
    simp only [hb, Runner.held, Nat.add_zero] at hnext
    have := hf.runner_head b (.inl hb)
    rw [hp.queue_eq, List.head?_drop] at this
    rwa [show s.inner.persistedState.next - s.persistent.initialState.next = s.stored.length
      by omega] at this
  refine ⟨hp.1, concat_isPrefix_of_getElem? hp.2 hhead, hp.3, ?_, hp.5⟩
  have := hp.persisted_next
  simp only [hb, Runner.held] at this ⊢
  simp only [List.length_append, List.length_singleton]
  omega

theorem Persisted.persist (hf : Frontier s) (hp : Persisted s) {b : FinalBlock}
    (hb : s.runner = .stored b) :
    Persisted { s with inner := s.inner.persist b, innerVersion := s.innerVersion + 1,
                       runner := .idle } := by
  have hb0 := hf.runner_number (.inr hb)
  have hnext := hp.persisted_next
  have := hp.persisted_le
  simp only [hb, Runner.held] at hnext
  refine ⟨hp.1, hp.2, ?_, ?_, ?_⟩ <;>
    simp only [Inner.persist, Runner.held, BlockStoreState.next_mk_some, b.number_justification]
  · omega
  · omega
  · rw [hp.queue_eq, List.tail_drop]
    congr 1
    omega

theorem Persisted.preserved (hf : Frontier s) (hp : Persisted s) (h : step R s l = some s') :
    Persisted s' := by
  rcases step_cases R h with ⟨cs, rs, rfl⟩ | ⟨i, b, -, -, rfl⟩ | ⟨b, rest, hr, hq, rfl⟩ |
    ⟨b, hr, rfl⟩ | ⟨b, hr, rfl⟩ | ⟨hr, rfl⟩
  · exact ⟨hp.1, hp.2, hp.3, hp.4, hp.5⟩
  · exact hp.update hf i b
  · exact ⟨hp.1, hp.2, hp.3, by simpa [hr, Runner.held] using hp.4, hp.5⟩
  · exact hp.store hf hr
  · exact hp.persist hf hr
  · refine ⟨hp.1, hp.2, hp.3, ?_, hp.5⟩
    rcases hr with hr | ⟨b, hr⟩ <;> simpa [hr, Runner.held] using hp.4

theorem Reachable.persisted (reach : Reachable R p s) : Persisted s := by
  induction reach with
  | start h => exact persisted_start h
  | step reach h ih => exact ih.preserved reach.frontier h

/-- Each `store_next_block(b)` has `b` at the persisted next, the store's own next; the
`debug_assert_eq!` holds; and the persisted range refines the persistent store. -/
theorem runner_refines_persistent (reach : Reachable R p s) :
    (∀ b, s.runner = .storing b →
      b.number = s.inner.persistedState.next ∧ s.inner.persistedState.next = p.next s.stored) ∧
    (∀ b, s.runner = .stored b → s.inner.persistAssert b = true) ∧
    s.stored <+: s.appended ∧
    (∀ i b, s.stored[i]? = some b → b.number = p.initialState.next + i) ∧
    (∀ n, p.initialState.next ≤ n → s.inner.persistedState.contains n = true →
      ∃ b ∈ s.stored, b.number = n) := by
  have hf := reach.frontier
  have hp := reach.persisted
  have hper := reach.persistent_eq
  subst hper
  refine ⟨fun b hb => ⟨hf.runner_number (.inl hb), ?_⟩, fun b hb => ?_, hp.2,
    fun i b hi => hp.numbers i b (isPrefix_getElem?_eq hp.stored_appended hi), fun n hn hc => ?_⟩
  · simpa [hb, Runner.held, PersistentBlockStore.next] using hp.persisted_next
  · simpa [Inner.persistAssert] using (hf.runner_number (.inr hb)).symm
  · have hlt := ((BlockStoreState.contains_iff _ _).mp hc).2.2
    have hnext := hp.persisted_next
    have hheld : s.runner.held ≤ 1 := by cases s.runner <;> simp [Runner.held]
    obtain ⟨b, hb⟩ : ∃ b, s.stored[n - s.persistent.initialState.next]? = some b :=
      ⟨_, List.getElem?_eq_getElem (by omega)⟩
    refine ⟨b, List.getElem?_mem hb, ?_⟩
    have := hp.numbers _ b (isPrefix_getElem?_eq hp.stored_appended hb)
    omega

theorem runner_refines_persistent_sample :
    (∀ b, sampleState.runner = .storing b →
      b.number = sampleState.inner.persistedState.next ∧
        sampleState.inner.persistedState.next = sampleStore.next sampleState.stored) ∧
    (∀ b, sampleState.runner = .stored b → sampleState.inner.persistAssert b = true) ∧
    sampleState.stored <+: sampleState.appended ∧
    (∀ i b, sampleState.stored[i]? = some b → b.number = sampleStore.initialState.next + i) ∧
    (∀ n, sampleStore.initialState.next ≤ n →
      sampleState.inner.persistedState.contains n = true →
      ∃ b ∈ sampleState.stored, b.number = n) :=
  runner_refines_persistent sampleState_reachable

end System

end EraConsensus
