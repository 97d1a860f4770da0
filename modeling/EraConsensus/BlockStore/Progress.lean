import EraConsensus.BlockStore.Chain

/-! Progress of the store's tasks: the runner alone drains the queue, and `queue_block`
adds a block as soon as all the blocks before it are queued. -/

namespace EraConsensus

namespace System

variable {R : Roles} {p : PersistentBlockStore} {s : System} {b : FinalBlock}

def RunnerLabels (ls : List Label) : Prop := ∀ l ∈ ls, l = .take ∨ l = .store ∨ l = .persist

theorem step_take {rest : List FinalBlock} (hr : s.runner = .idle) (hq : s.inner.queue = b :: rest) :
    step R s .take = some { s with runner := .storing b } := by
  simp [step, hr, hq]

theorem step_store (hr : s.runner = .storing b) :
    step R s .store = some { s with stored := s.stored ++ [b], runner := .stored b } := by
  simp [step, hr]

theorem step_persist (hr : s.runner = .stored b) :
    step R s .persist =
      some { s with inner := s.inner.persist b, innerVersion := s.innerVersion + 1,
                    runner := .idle } := by
  simp [step, hr]

theorem drain_idle (n : Nat) : ∀ s, Reachable R p s → s.runner = .idle →
    s.inner.queue.length = n →
    ∃ ls t, run R s ls = some t ∧ RunnerLabels ls ∧ t.runner = .idle ∧ t.inner.queue = [] ∧
      t.inner.queuedState = s.inner.queuedState ∧ t.appended = s.appended := by
  induction n with
  | zero =>
    intro s _ hr hn
    exact ⟨[], s, rfl, by simp [RunnerLabels], hr, List.eq_nil_of_length_eq_zero hn, rfl, rfl⟩
  | succ n ih =>
    intro s reach hr hn
    obtain ⟨b, rest, hq⟩ := List.exists_cons_of_length_eq_add_one hn
    have h1 := step_take (R := R) hr hq
    have h2 := step_store (R := R) (s := { s with runner := .storing b }) rfl
    have h3 := step_persist (R := R) (s := { s with stored := s.stored ++ [b], runner := .stored b })
      rfl
    obtain ⟨ls, t, hrun, hls, htr, htq, hqs, hta⟩ :=
      ih _ (((reach.step h1).step h2).step h3) rfl (by simp [Inner.persist, hq] at hn ⊢; omega)
    refine ⟨.take :: .store :: .persist :: ls, t, ?_, ?_, htr, htq, hqs, hta⟩
    · simp only [run, h1, h2, h3, Option.some_bind]
      exact hrun
    · intro l hl
      simp only [List.mem_cons] at hl
      rcases hl with rfl | rfl | rfl | hl
      exacts [.inl rfl, .inr (.inl rfl), .inr (.inr rfl), hls l hl]

theorem to_idle (reach : Reachable R p s) (live : s.runner ≠ .stopped) :
    ∃ ls t, run R s ls = some t ∧ RunnerLabels ls ∧ Reachable R p t ∧ t.runner = .idle ∧
      t.inner.queuedState = s.inner.queuedState ∧ t.appended = s.appended := by
  cases hr : s.runner with
  | idle => exact ⟨[], s, rfl, by simp [RunnerLabels], reach, hr, rfl, rfl⟩
  | storing b =>
    have h2 := step_store (R := R) hr
    have h3 := step_persist (R := R) (s := { s with stored := s.stored ++ [b], runner := .stored b })
      rfl
    refine ⟨[.store, .persist], _, ?_, by simp [RunnerLabels], (reach.step h2).step h3, rfl, rfl, rfl⟩
    simp only [run, h2, h3, Option.some_bind]
  | stored b =>
    have h3 := step_persist (R := R) hr
    exact ⟨[.persist], _, by simp only [run, h3, Option.some_bind], by simp [RunnerLabels],
      reach.step h3, rfl, rfl, rfl⟩
  | stopped => exact (live hr).elim

/-- From every reachable state with a live runner, the runner's own actions empty the
queue and give `store_next_block` exactly the blocks ever queued, in order. -/
theorem runner_drains_queue (reach : Reachable R p s) (live : s.runner ≠ .stopped) :
    ∃ ls t, run R s ls = some t ∧ RunnerLabels ls ∧ t.runner = .idle ∧ t.inner.queue = [] ∧
      t.inner.queuedState = s.inner.queuedState ∧
      t.inner.persistedState.next = s.inner.queuedState.next ∧ t.stored = s.appended := by
  obtain ⟨ls₁, u, hu, hls₁, reachU, hur, huq, hua⟩ := to_idle reach live
  obtain ⟨ls₂, t, ht, hls₂, htr, htq, hqs, hta⟩ := drain_idle _ u reachU hur rfl
  have reachT := reachU.of_run R ht
  have hf := reachT.frontier
  have hp := reachT.persisted
  refine ⟨ls₁ ++ ls₂, t, ?_, ?_, htr, htq, hqs.trans huq, ?_, ?_⟩
  · simp only [run_append, hu, Option.some_bind, ht]
  · intro l hl
    rcases List.mem_append.mp hl with hl | hl
    exacts [hls₁ l hl, hls₂ l hl]
  · have := hf.contiguous
    rw [htq, List.length_nil, Nat.add_zero] at this
    rw [this, hqs, huq]
  · have hlen : t.appended.length ≤ t.stored.length := by
      have hq := congrArg List.length hp.queue_eq
      have := hp.persisted_next
      rw [htq, htr] at *
      simp only [List.length_nil, List.length_drop, Runner.held, Nat.add_zero] at hq this
      omega
    rw [← hua, ← hta]
    exact hp.stored_appended.eq_of_length_le hlen

theorem runner_drains_queue_sample :
    sampleState.runner ≠ .stopped ∧
    ∃ ls t, run sampleRoles sampleState ls = some t ∧ RunnerLabels ls ∧ t.runner = .idle ∧
      t.inner.queue = [] ∧ t.inner.queuedState = sampleState.inner.queuedState ∧
      t.inner.persistedState.next = sampleState.inner.queuedState.next ∧
      t.stored = sampleState.appended :=
  ⟨by decide, runner_drains_queue sampleState_reachable (by decide)⟩

/-- `bs` continues the range `a`: each block is numbered at its next, verifies, and
names its last certificate's header as parent. -/
def Continues (R : Roles) (genesis : Genesis) : BlockStoreState → List FinalBlock → Prop
  | _, [] => True
  | a, b :: bs => b.number = a.next ∧ R.verifyBlock genesis b = true ∧ Extends R a.last b ∧
      Continues R genesis { a with last := some b.justification } bs

theorem Continues.next_le {genesis : Genesis} {a : BlockStoreState} {bs : List FinalBlock}
    (h : Continues R genesis a bs) : ∀ b ∈ bs, a.next ≤ b.number := by
  induction bs generalizing a with
  | nil => simp
  | cons b bs ih =>
    obtain ⟨hn, -, -, hrest⟩ := h
    intro b' hb'
    rcases List.mem_cons.mp hb' with rfl | hb'
    · exact hn.ge
    · have := ih hrest b' hb'
      simp only [BlockStoreState.next_mk_some, b.number_justification] at this
      omega

theorem queue_next {i : Nat} (hc : s.calls[i]? = some ⟨b, .waiting⟩)
    (next : b.number = s.inner.queuedState.next) (verified : R.verifyBlock s.genesis b = true)
    (ext : Extends R s.inner.queuedState.last b) :
    ∃ t, run R s [.check i, .update i] = some t ∧
      t.calls = s.calls.set i ⟨b, .returned (.ok ())⟩ ∧
      t.inner = ⟨{ s.inner.queuedState with last := some b.justification },
        s.inner.persistedState, s.inner.queue ++ [b]⟩ ∧
      t.appended = s.appended ++ [b] ∧ t.persistent = s.persistent := by
  have hlen := (List.getElem?_eq_some_iff.mp hc).1
  have hchk : queueBlockCheck R s.genesis s.inner.queuedState b = .checked :=
    (queueBlockCheck_eq_checked R _).mpr ⟨by omega, verified, ext⟩
  have h1 : step R s (.check i) =
      some { s with calls := s.calls.set i ⟨b, .checked⟩ } := by
    simp [step, hc, queueBlockReady, next, hchk]
  let s₁ := { s with calls := s.calls.set i ⟨b, .checked⟩ }
  have h2 : step R s₁ (.update i) = some (s₁.update i b) := by
    simp [step, s₁, List.getElem?_set_self hlen]
  refine ⟨s₁.update i b, by simp only [run, h1, h2, Option.some_bind], ?_⟩
  rw [update_of_next (s := s₁) next.symm]
  exact ⟨List.set_set _ _ _ _, rfl, rfl, rfl⟩

/-- Calls waiting on a valid continuation of the queued range, in any order, all return
`Ok` through their own actions and append their blocks in number order. -/
theorem queue_continuation (cs : List (Nat × FinalBlock))
    (waiting : ∀ x ∈ cs, s.calls[x.1]? = some ⟨x.2, .waiting⟩)
    (continues : Continues R s.genesis s.inner.queuedState (cs.map Prod.snd)) :
    ∃ ls t, run R s ls = some t ∧ (∀ l ∈ ls, ∃ x ∈ cs, l = .check x.1 ∨ l = .update x.1) ∧
      (∀ x ∈ cs, t.calls[x.1]? = some ⟨x.2, .returned (.ok ())⟩) ∧
      (∀ j, (∀ x ∈ cs, x.1 ≠ j) → t.calls[j]? = s.calls[j]?) ∧
      t.inner.queue = s.inner.queue ++ cs.map Prod.snd ∧
      t.appended = s.appended ++ cs.map Prod.snd ∧
      t.inner.queuedState.next = s.inner.queuedState.next + cs.length := by
  induction cs generalizing s with
  | nil => exact ⟨[], s, rfl, by simp, by simp, fun _ _ => rfl, by simp, by simp, rfl⟩
  | cons c cs ih =>
    obtain ⟨i, b⟩ := c
    obtain ⟨hn, hv, hext, hrest⟩ := continues
    have hb := waiting _ (List.mem_cons_self _ _)
    obtain ⟨t₁, h₁, hcalls, hinner, happ, hpers⟩ := queue_next hb hn hv hext
    have hne : ∀ x ∈ cs, x.1 ≠ i := by
      rintro x hx hxi
      obtain rfl : b = x.2 := by simpa [hxi, hb] using waiting x (List.mem_cons_of_mem _ hx)
      have := hrest.next_le x.2 (List.mem_map_of_mem _ hx)
      simp only [BlockStoreState.next_mk_some, FinalBlock.number_justification] at this
      omega
    have hw₁ : ∀ x ∈ cs, t₁.calls[x.1]? = some ⟨x.2, .waiting⟩ := fun x hx => by
      rw [hcalls, List.getElem?_set_ne (Ne.symm (hne x hx))]
      exact waiting x (List.mem_cons_of_mem _ hx)
    obtain ⟨ls, t, ht, hls, hret, hframe, hq, ha, hnext⟩ :=
      ih hw₁ (by rw [hinner, genesis, hpers]; exact hrest)
    refine ⟨[.check i, .update i] ++ ls, t, by rw [run_append, h₁, Option.some_bind, ht], ?_, ?_, ?_,
      by simp [hq, hinner], by simp [ha, happ], ?_⟩
    · intro l hl
      rcases List.mem_append.mp hl with hl | hl
      · exact ⟨(i, b), List.mem_cons_self _ _, by simpa using hl⟩
      · obtain ⟨x, hx, hlx⟩ := hls l hl
        exact ⟨x, List.mem_cons_of_mem _ hx, hlx⟩
    · intro x hx
      rcases List.mem_cons.mp hx with rfl | hx
      · rw [hframe i hne, hcalls]
        exact List.getElem?_set_self (List.getElem?_eq_some_iff.mp hb).1
      · exact hret x hx
    · intro j hj
      rw [hframe j (fun x hx => hj x (List.mem_cons_of_mem _ hx)), hcalls,
        List.getElem?_set_ne (hj _ (List.mem_cons_self _ _))]
    · simp only [hnext, hinner, BlockStoreState.next_mk_some, FinalBlock.number_justification, hn,
        List.length_cons]
      omega

def sampleBlock6 : FinalBlock := ⟨0, ⟨⟨some 5, 6, 0⟩, 0⟩⟩

def sampleWaiting : System :=
  { start sampleStore ⟨sampleStore.initialState, sampleStore.initialState, []⟩ with
    calls := [⟨sampleBlock6, .waiting⟩, ⟨sampleBlock, .waiting⟩] }

def sampleCalls : List (Nat × FinalBlock) := [(1, sampleBlock), (0, sampleBlock6)]

theorem queue_continuation_sample :
    (∀ x ∈ sampleCalls, sampleWaiting.calls[x.1]? = some ⟨x.2, .waiting⟩) ∧
    Continues sampleRoles sampleWaiting.genesis sampleWaiting.inner.queuedState
      (sampleCalls.map Prod.snd) ∧
    ∃ ls t, run sampleRoles sampleWaiting ls = some t ∧
      (∀ l ∈ ls, ∃ x ∈ sampleCalls, l = .check x.1 ∨ l = .update x.1) ∧
      (∀ x ∈ sampleCalls, t.calls[x.1]? = some ⟨x.2, .returned (.ok ())⟩) ∧
      (∀ j, (∀ x ∈ sampleCalls, x.1 ≠ j) → t.calls[j]? = sampleWaiting.calls[j]?) ∧
      t.inner.queue = sampleWaiting.inner.queue ++ sampleCalls.map Prod.snd ∧
      t.appended = sampleWaiting.appended ++ sampleCalls.map Prod.snd ∧
      t.inner.queuedState.next = sampleWaiting.inner.queuedState.next + sampleCalls.length := by
  have waiting : ∀ x ∈ sampleCalls, sampleWaiting.calls[x.1]? = some ⟨x.2, .waiting⟩ := by decide
  have continues : Continues sampleRoles sampleWaiting.genesis sampleWaiting.inner.queuedState
      (sampleCalls.map Prod.snd) := by
    show Continues sampleRoles _ ⟨5, none⟩ [sampleBlock, sampleBlock6]
    exact ⟨rfl, rfl, (fun _ h => nomatch h), rfl, rfl, (fun _ h => by cases h; rfl), trivial⟩
  exact ⟨waiting, continues, queue_continuation sampleCalls waiting continues⟩

end System

end EraConsensus
