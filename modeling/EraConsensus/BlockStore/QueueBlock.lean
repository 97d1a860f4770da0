import EraConsensus.BlockStore.Chain

/-! The outcome of one `queue_block` call under any interleaving: it writes `Inner` in at
most one action, its locked update, and only when its block is still the next. -/

namespace EraConsensus

def Label.call? : Label → Option Nat
  | .check i | .update i | .cancel i => some i
  | _ => none

namespace System

variable {R : Roles} {p : PersistentBlockStore} {s s' t : System} {l : Label} {i : Nat}

def writes (s s' : System) : Bool :=
  s'.inner ≠ s.inner || s'.innerVersion ≠ s.innerVersion || s'.queuedVersion ≠ s.queuedVersion

variable (R) in
/-- How many actions of call `i` along a run write `Inner` or notify a watch. -/
def writesOf (i : Nat) : System → List Label → Nat
  | _, [] => 0
  | s, l :: ls =>
    match step R s l with
    | none => 0
    | some s' => (if l.call? = some i ∧ writes s s' = true then 1 else 0) + writesOf i s' ls

theorem writesOf_cons {ls : List Label} (h : step R s l = some s') :
    writesOf R i s (l :: ls) =
      (if l.call? = some i ∧ writes s s' = true then 1 else 0) + writesOf R i s' ls := by
  simp [writesOf, h]

theorem step_own_writes (h : step R s l = some s') (hl : l.call? = some i)
    (hw : writes s s' = true) :
    ∃ b, l = .update i ∧ s.calls[i]? = some ⟨b, .checked⟩ ∧
      s.inner.queuedState.next = b.number ∧ s' = s.update i b := by
  cases l with
  | check j | cancel j =>
    simp only [step] at h
    split at h
    · repeat' split at h
      all_goals first | (cases Option.some.inj h; simp [writes] at hw) | cases h
    · cases h
  | update j =>
    simp only [Label.call?, Option.some.injEq] at hl
    subst hl
    simp only [step] at h
    split at h
    · rename_i b hb
      cases Option.some.inj h
      by_cases hn : s.inner.queuedState.next = b.number
      · exact ⟨b, rfl, hb, hn, rfl⟩
      · rw [update_of_ne hn] at hw
        simp [writes] at hw
    · cases h
  | _ => simp [Label.call?] at hl

theorem step_of_returned {b : FinalBlock} {r : Except StoreError Unit}
    (hi : s.calls[i]? = some ⟨b, .returned r⟩) (h : step R s l = some s') :
    l.call? ≠ some i ∧ s'.calls[i]? = some ⟨b, .returned r⟩ := by
  have hlen : i < s.calls.length := (List.getElem?_eq_some_iff.mp hi).1
  rcases step_call_cases R h with ⟨hc, -⟩ | ⟨b', rfl, rfl⟩ | ⟨j, b', rfl, hj, -, rfl⟩ |
    ⟨j, b', rfl, hj, rfl⟩ | ⟨j, b', rfl, hj, rfl⟩
  · refine ⟨fun hl => ?_, hc ▸ hi⟩
    cases l <;> simp only [Label.call?, Option.some.injEq, reduceCtorEq] at hl <;> subst hl <;>
      simp [step, hi] at h
  · exact ⟨by simp [Label.call?], by rw [List.getElem?_append_left hlen, hi]⟩
  all_goals
    have hne : j ≠ i := by rintro rfl; simp [hi] at hj
    exact ⟨by simpa [Label.call?] using hne, by simpa [List.getElem?_set_ne hne] using hi⟩

theorem writesOf_of_returned {b : FinalBlock} {r : Except StoreError Unit} {ls : List Label}
    (hi : s.calls[i]? = some ⟨b, .returned r⟩) (h : run R s ls = some t) :
    writesOf R i s ls = 0 ∧ t.calls[i]? = some ⟨b, .returned r⟩ := by
  induction ls generalizing s with
  | nil => cases h; exact ⟨rfl, hi⟩
  | cons l ls ih =>
    obtain ⟨s', hs, hr⟩ := (run_cons R).mp h
    obtain ⟨hl, hi'⟩ := step_of_returned hi hs
    rw [writesOf_cons hs, if_neg (fun h => hl h.1), (ih hi' hr).1]
    exact ⟨rfl, (ih hi' hr).2⟩

theorem returned_of_own_writes (h : step R s l = some s') (hl : l.call? = some i)
    (hw : writes s s' = true) : ∃ b, s'.calls[i]? = some ⟨b, .returned (.ok ())⟩ := by
  obtain ⟨b, -, hi, -, rfl⟩ := step_own_writes h hl hw
  have hlen : i < s.calls.length := (List.getElem?_eq_some_iff.mp hi).1
  exact ⟨b, by simp [List.getElem?_set_self hlen]⟩

theorem writesOf_le_one {ls : List Label} (h : run R s ls = some t) :
    writesOf R i s ls ≤ 1 ∧
      (0 < writesOf R i s ls → ∃ b, t.calls[i]? = some ⟨b, .returned (.ok ())⟩) := by
  induction ls generalizing s with
  | nil => simp [writesOf]
  | cons l ls ih =>
    obtain ⟨s', hs, hr⟩ := (run_cons R).mp h
    rw [writesOf_cons hs]
    split_ifs with hw
    · obtain ⟨b, hb⟩ := returned_of_own_writes hs hw.1 hw.2
      obtain ⟨h0, ht⟩ := writesOf_of_returned hb hr
      exact ⟨by omega, fun _ => ⟨b, ht⟩⟩
    · simpa using ih hr

/-- The outcome contract of `queue_block`: at most one write, none for an error; the check
of a stale block returns `Ok` and the update of a checked one returns `Ok`, appending
exactly when its block is still next; `Ok` leaves `wait_until_queued` satisfied. -/
theorem queue_block_outcome {inner : Inner} {ls : List Label} {t : System}
    (hnew : BlockStore.new R p = .ok inner) (hrun : run R (start p inner) ls = some t)
    (i : Nat) :
    writesOf R i (start p inner) ls ≤ 1 ∧
    (∀ b e, t.calls[i]? = some ⟨b, .returned (.error e)⟩ →
      writesOf R i (start p inner) ls = 0) ∧
    (∀ l t', l.call? = some i → step R t l = some t' → writes t t' = true →
      ∃ b, l = .update i ∧ t.calls[i]? = some ⟨b, .checked⟩ ∧
        t.inner.queuedState.next = b.number ∧
        t'.inner = ⟨{ t.inner.queuedState with last := some b.justification },
          t.inner.persistedState, t.inner.queue ++ [b]⟩ ∧
        t'.innerVersion = t.innerVersion + 1 ∧ t'.queuedVersion = t.queuedVersion + 1) ∧
    (∀ b, t.calls[i]? = some ⟨b, .waiting⟩ → b.number < t.inner.queuedState.next →
      ∃ t', step R t (.check i) = some t' ∧
        t'.calls[i]? = some ⟨b, .returned (.ok ())⟩ ∧ writes t t' = false) ∧
    (∀ b, t.calls[i]? = some ⟨b, .checked⟩ → ∃ t', step R t (.update i) = some t' ∧
      t'.calls[i]? = some ⟨b, .returned (.ok ())⟩ ∧
      (writes t t' = true ↔ t.inner.queuedState.next = b.number)) ∧
    (∀ b, t.calls[i]? = some ⟨b, .returned (.ok ())⟩ →
      waitUntilQueued t.inner.queuedState b.number = true) := by
  have reach := (Reachable.start hnew).of_run R hrun
  obtain ⟨hle, hpos⟩ := writesOf_le_one (i := i) hrun
  refine ⟨hle, fun b e hb => ?_, fun l t' hl h hw => ?_, fun b hb hlt => ?_, fun b hb => ?_,
    fun b hb => by simpa [waitUntilQueued] using reach.callsOk.returned_ok i b hb⟩
  · by_contra hne
    obtain ⟨b', hb'⟩ := hpos (Nat.pos_of_ne_zero hne)
    simp [hb] at hb'
  · obtain ⟨b, rfl, hi, hn, rfl⟩ := step_own_writes h hl hw
    rw [update_of_next hn]
    exact ⟨b, rfl, hi, hn, rfl, rfl, rfl⟩
  · have hlen : i < t.calls.length := (List.getElem?_eq_some_iff.mp hb).1
    refine ⟨{ t with calls := t.calls.set i ⟨b, .returned (.ok ())⟩ },
      by simp [step, hb, queueBlockReady, hlt.le, queueBlockCheck, hlt], ?_⟩
    simp [List.getElem?_set_self hlen, writes]
  · have hlen : i < t.calls.length := (List.getElem?_eq_some_iff.mp hb).1
    refine ⟨t.update i b, by simp [step, hb], by simp [List.getElem?_set_self hlen], ?_⟩
    by_cases hn : t.inner.queuedState.next = b.number <;>
      simp [writes, update_of_next, update_of_ne, hn]

theorem queue_block_outcome_sample :
    writesOf sampleRoles 0 (start sampleStore ⟨sampleStore.initialState,
      sampleStore.initialState, []⟩) [.queueBlock sampleBlock, .check 0, .update 0, .take] ≤ 1 ∧
    (∀ b e, sampleState.calls[0]? = some ⟨b, .returned (.error e)⟩ →
      writesOf sampleRoles 0 (start sampleStore ⟨sampleStore.initialState,
        sampleStore.initialState, []⟩) [.queueBlock sampleBlock, .check 0, .update 0, .take] = 0) ∧
    (∀ l t', l.call? = some 0 → step sampleRoles sampleState l = some t' →
      writes sampleState t' = true →
      ∃ b, l = .update 0 ∧ sampleState.calls[0]? = some ⟨b, .checked⟩ ∧
        sampleState.inner.queuedState.next = b.number ∧
        t'.inner = ⟨{ sampleState.inner.queuedState with last := some b.justification },
          sampleState.inner.persistedState, sampleState.inner.queue ++ [b]⟩ ∧
        t'.innerVersion = sampleState.innerVersion + 1 ∧
        t'.queuedVersion = sampleState.queuedVersion + 1) ∧
    (∀ b, sampleState.calls[0]? = some ⟨b, .waiting⟩ →
      b.number < sampleState.inner.queuedState.next →
      ∃ t', step sampleRoles sampleState (.check 0) = some t' ∧
        t'.calls[0]? = some ⟨b, .returned (.ok ())⟩ ∧ writes sampleState t' = false) ∧
    (∀ b, sampleState.calls[0]? = some ⟨b, .checked⟩ →
      ∃ t', step sampleRoles sampleState (.update 0) = some t' ∧
        t'.calls[0]? = some ⟨b, .returned (.ok ())⟩ ∧
        (writes sampleState t' = true ↔ sampleState.inner.queuedState.next = b.number)) ∧
    (∀ b, sampleState.calls[0]? = some ⟨b, .returned (.ok ())⟩ →
      waitUntilQueued sampleState.inner.queuedState b.number = true) :=
  queue_block_outcome (show BlockStore.new sampleRoles sampleStore = _ from rfl)
    (show run sampleRoles _ [.queueBlock sampleBlock, .check 0, .update 0, .take] = some sampleState
      from rfl) 0

end System

end EraConsensus
