import EraConsensus.BlockStore.Persisted
import Mathlib.Data.List.Chain

/-! Chain integrity under concurrency: `queue_block` checks the parent against a snapshot,
and its locked update re-checks only `next`; a checked call stays below the queued next,
so when the re-check passes the snapshot's last certificate is still the queued last. -/

namespace EraConsensus

/-- `b` names the header of `prev`, when there is one, as its parent. -/
def Extends (R : Roles) (prev : Option CommitQC) (b : FinalBlock) : Prop :=
  ∀ q, prev = some q → b.header.parent = some (R.hash q.header)

def trail (init : Option CommitQC) (bs : List FinalBlock) : List BlockHeader :=
  (init.map (·.header)).toList ++ bs.map (·.header)

theorem trail_concat (init : Option CommitQC) (bs : List FinalBlock) (b : FinalBlock) :
    trail init (bs ++ [b]) = trail init bs ++ [b.header] := by
  simp [trail]

theorem trail_getLast? (init : Option CommitQC) (bs : List FinalBlock) :
    (trail init bs).getLast? = (lastQC init bs).map (·.header) := by
  rcases List.eq_nil_or_concat bs with rfl | ⟨L, b, rfl⟩
  · cases init <;> simp [trail]
  · simp [trail_concat, FinalBlock.header]

namespace System

variable {R : Roles} {p : PersistentBlockStore} {s s' : System} {l : Label}

/-- What the calls in flight know of the queued range. -/
structure CallsOk (R : Roles) (s : System) : Prop where
  checked : ∀ (i : Nat) (b : FinalBlock), s.calls[i]? = some ⟨b, .checked⟩ →
    R.verifyBlock s.genesis b = true ∧ b.number ≤ s.inner.queuedState.next ∧
      (s.inner.queuedState.next = b.number → Extends R s.inner.queuedState.last b)
  returned_ok : ∀ (i : Nat) (b : FinalBlock), s.calls[i]? = some ⟨b, .returned (.ok ())⟩ →
    b.number < s.inner.queuedState.next

theorem callsOk_start (p : PersistentBlockStore) (inner : Inner) :
    CallsOk R (start p inner) :=
  ⟨fun i b h => by simp [start] at h, fun i b h => by simp [start] at h⟩

theorem CallsOk.check (hc : CallsOk R s) {i : Nat} {b : FinalBlock}
    (ready : b.number ≤ s.inner.queuedState.next) :
    CallsOk R { s with calls := (s.calls.set i
      ⟨b, queueBlockCheck R s.genesis s.inner.queuedState b⟩) } := by
  constructor
  · intro j c hj
    rcases getElem?_set_eq_some hj with ⟨-, hcb⟩ | ⟨-, hj⟩
    · simp only [Call.mk.injEq] at hcb
      obtain ⟨rfl, hchk⟩ := hcb
      obtain ⟨stale, verified, hext⟩ := (queueBlockCheck_eq_checked R _).mp hchk.symm
      exact ⟨verified, ready, fun _ => hext⟩
    · exact hc.checked j c hj
  · intro j c hj
    rcases getElem?_set_eq_some hj with ⟨-, hcb⟩ | ⟨-, hj⟩
    · simp only [Call.mk.injEq] at hcb
      obtain ⟨rfl, hchk⟩ := hcb
      obtain ⟨r, hr, hok⟩ := queueBlockCheck_returned R _ (by rw [← hchk]; simp)
      rw [← hchk] at hr
      exact hok (CallPhase.returned.inj hr).symm
    · exact hc.returned_ok j c hj

theorem CallsOk.update (hc : CallsOk R s) {i : Nat} {b : FinalBlock}
    (hi : s.calls[i]? = some ⟨b, .checked⟩) : CallsOk R (s.update i b) := by
  have hb := hc.checked i b hi
  by_cases hn : s.inner.queuedState.next = b.number
  · rw [update_of_next hn]
    constructor <;> intro j c hj <;> dsimp only at hj ⊢ <;>
      simp only [BlockStoreState.next_mk_some, c.number_justification, b.number_justification]
    · rcases getElem?_set_eq_some hj with ⟨-, hcb⟩ | ⟨-, hj⟩
      · cases hcb
      · have := hc.checked j c hj
        exact ⟨this.1, by omega, fun h => by omega⟩
    · rcases getElem?_set_eq_some hj with ⟨-, hcb⟩ | ⟨-, hj⟩
      · cases hcb
        omega
      · have := hc.returned_ok j c hj
        omega
  · rw [update_of_ne hn]
    constructor <;> intro j c hj <;> dsimp only at hj ⊢
    · rcases getElem?_set_eq_some hj with ⟨-, hcb⟩ | ⟨-, hj⟩
      · cases hcb
      · exact hc.checked j c hj
    · rcases getElem?_set_eq_some hj with ⟨-, hcb⟩ | ⟨-, hj⟩
      · cases hcb
        omega
      · exact hc.returned_ok j c hj

theorem CallsOk.preserved (hc : CallsOk R s) (h : step R s l = some s') : CallsOk R s' := by
  have hg : s'.genesis = s.genesis := by rw [genesis, genesis, step_persistent R h]
  rcases step_call_cases R h with ⟨hcalls, hq⟩ | ⟨b, -, rfl⟩ | ⟨i, b, -, -, ready, rfl⟩ |
    ⟨i, b, -, -, rfl⟩ | ⟨i, b, -, hi, rfl⟩
  · exact ⟨fun j c hj => hq ▸ hg ▸ hc.checked j c (hcalls ▸ hj),
      fun j c hj => hq ▸ hc.returned_ok j c (hcalls ▸ hj)⟩
  · constructor <;> intro j c hj <;> rcases getElem?_concat_eq_some hj with hj | ⟨-, hcb⟩
    · exact hc.checked j c hj
    · cases hcb
    · exact hc.returned_ok j c hj
    · cases hcb
  · exact hc.check ready
  · constructor <;> intro j c hj <;> rcases getElem?_set_eq_some hj with ⟨-, hcb⟩ | ⟨-, hj⟩
    · cases hcb
    · exact hc.checked j c hj
    · cases hcb
    · exact hc.returned_ok j c hj
  · exact hc.update hi

theorem Reachable.callsOk (reach : Reachable R p s) : CallsOk R s := by
  induction reach with
  | start _ => exact callsOk_start _ _
  | step _ h ih => exact ih.preserved h

/-- The accepted blocks verified and form a parent-hash chain from the store's last
certificate at construction to the queued last. -/
structure Chained (R : Roles) (s : System) : Prop where
  verified : ∀ b ∈ s.appended, R.verifyBlock s.genesis b = true
  linked : List.Chain' (fun a c => c.parent = some (R.hash a)) (trail s.persistent.last s.appended)
  queued_last : s.inner.queuedState.last = lastQC s.persistent.last s.appended

theorem chained_start {inner : Inner} (h : BlockStore.new R p = .ok inner) :
    Chained R (start p inner) := by
  cases BlockStore.new_eq h
  refine ⟨by simp [start], ?_, rfl⟩
  rcases hl : p.last with _ | q <;> simp [start, trail, hl]

theorem Chained.update (hch : Chained R s) (hc : CallsOk R s) {i : Nat} {b : FinalBlock}
    (hi : s.calls[i]? = some ⟨b, .checked⟩) : Chained R (s.update i b) := by
  by_cases hn : s.inner.queuedState.next = b.number
  · obtain ⟨verified, -, hext⟩ := hc.checked i b hi
    rw [update_of_next hn]
    refine ⟨fun c hc' => ?_, ?_, by simp⟩ <;> dsimp only at *
    · rcases List.mem_append.mp hc' with hc' | hc'
      · exact hch.verified c hc'
      · rw [List.mem_singleton.mp hc']
        exact verified
    · rw [trail_concat]
      refine List.Chain'.append hch.linked (List.chain'_singleton _) fun x hx y hy => ?_
      rw [trail_getLast?, ← hch.queued_last] at hx
      obtain ⟨q, hq, rfl⟩ := Option.mem_map.mp hx
      simp only [List.head?_cons, Option.mem_def, Option.some.injEq] at hy
      subst hy
      exact hext hn q hq
  · rw [update_of_ne hn]
    exact ⟨hch.1, hch.2, hch.3⟩

theorem Chained.preserved (hch : Chained R s) (hc : CallsOk R s) (h : step R s l = some s') :
    Chained R s' := by
  rcases step_cases R h with ⟨cs, rs, rfl⟩ | ⟨i, b, hi, -, rfl⟩ | ⟨b, rest, -, -, rfl⟩ |
    ⟨b, -, rfl⟩ | ⟨b, -, rfl⟩ | ⟨-, rfl⟩
  · exact ⟨hch.1, hch.2, hch.3⟩
  · exact hch.update hc hi
  all_goals exact ⟨hch.1, hch.2, hch.3⟩

theorem Reachable.chained (reach : Reachable R p s) : Chained R s := by
  induction reach with
  | start h => exact chained_start h
  | step reach h ih => exact ih.preserved reach.callsOk h

def accepted (s : System) : List FinalBlock := s.stored ++ s.inner.queue.drop s.runner.held

end System

end EraConsensus
