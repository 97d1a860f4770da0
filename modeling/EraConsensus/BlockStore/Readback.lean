import EraConsensus.BlockStore.Chain

/-! Readback through `BlockStore::block`: either branch returns the block the store has
for the number, which never changes once it exists. -/

namespace EraConsensus

theorem lastQC_isSome (init : Option CommitQC) (bs : List FinalBlock) :
    (lastQC init bs).isSome = true ↔ init.isSome = true ∨ bs ≠ [] := by
  rcases List.eq_nil_or_concat bs with rfl | ⟨L, b, rfl⟩ <;> simp

theorem find?_numbered {l : List FinalBlock} {k : Nat}
    (h : ∀ i b, l[i]? = some b → b.number = k + i) (n : Nat) :
    l.find? (fun b => decide (b.number = n)) = if k ≤ n then l[n - k]? else none := by
  induction l generalizing k with
  | nil => simp
  | cons b l ih =>
    have hb : b.number = k := by simpa using h 0 b (by simp)
    have hl : ∀ i c, l[i]? = some c → c.number = (k + 1) + i := fun i c hc => by
      have := h (i + 1) c (by simpa using hc)
      omega
    by_cases hn : n = k
    · subst hn
      rw [List.find?_cons_of_pos _ (by simp [hb])]
      simp
    · rw [List.find?_cons_of_neg _ (by simp [hb, Ne.symm hn]), ih hl]
      by_cases hk : k + 1 ≤ n
      · rw [if_pos hk, if_pos (by omega), show n - k = (n - (k + 1)) + 1 by omega,
          List.getElem?_cons_succ]
      · rw [if_neg hk, if_neg (by omega)]

namespace System

variable {R : Roles} {p : PersistentBlockStore} {s s' t : System} {l : Label}

/-- The block the store has for `n`: appended by `queue_block`, or held at construction. -/
def content (s : System) (n : Nat) : Option FinalBlock :=
  if n < s.persistent.initialState.first then none
  else if s.persistent.initialState.next ≤ n then
    s.appended[n - s.persistent.initialState.next]?
  else s.persistent.blocks n

theorem step_extends (h : step R s l = some s') :
    s.appended <+: s'.appended ∧ s.stored <+: s'.stored := by
  rcases step_cases R h with ⟨cs, rs, rfl⟩ | ⟨i, b, -, -, rfl⟩ | ⟨b, rest, -, -, rfl⟩ |
    ⟨b, -, rfl⟩ | ⟨b, -, rfl⟩ | ⟨-, rfl⟩
  · exact ⟨List.prefix_refl _, List.prefix_refl _⟩
  · by_cases hn : s.inner.queuedState.next = b.number
    · rw [update_of_next hn]
      exact ⟨List.prefix_append _ _, List.prefix_refl _⟩
    · rw [update_of_ne hn]
      exact ⟨List.prefix_refl _, List.prefix_refl _⟩
  · exact ⟨List.prefix_refl _, List.prefix_refl _⟩
  · exact ⟨List.prefix_refl _, List.prefix_append _ _⟩
  all_goals exact ⟨List.prefix_refl _, List.prefix_refl _⟩

theorem run_extends {ls : List Label} (h : run R s ls = some t) :
    s.appended <+: t.appended ∧ s.stored <+: t.stored ∧ t.persistent = s.persistent := by
  induction ls generalizing s with
  | nil => cases h; exact ⟨List.prefix_refl _, List.prefix_refl _, rfl⟩
  | cons l ls ih =>
    obtain ⟨s', hs, hr⟩ := (run_cons R).mp h
    obtain ⟨ha, hst⟩ := step_extends hs
    obtain ⟨ha', hst', hp⟩ := ih hr
    exact ⟨ha.trans ha', hst.trans hst', hp.trans (step_persistent R hs)⟩

theorem startup_block (hold : p.Holds) {n : Nat} (first : p.initialState.first ≤ n)
    (below : n < p.initialState.next) :
    ∃ b, p.blocks n = some b ∧ b.number = n := by
  apply hold n
  rw [BlockStoreState.contains_iff]
  rcases hl : p.last with _ | q
  · simp [PersistentBlockStore.initialState, hl] at first below
    omega
  · exact ⟨by simp [PersistentBlockStore.initialState, hl], first, below⟩

section
variable (reach : Reachable R p s)
include reach

theorem contains_iff_content (hold : p.Holds) (n : Nat) :
    (s.inner.queuedState.contains n = true ↔ (s.content n).isSome = true) ∧
    ∀ b, s.content n = some b → b.number = n := by
  have hf := reach.frontier
  have hp := reach.persisted
  have hch := reach.chained
  obtain rfl := reach.persistent_eq
  have hq := hp.queued_next hf
  have hfirst : s.inner.queuedState.first = s.persistent.initialState.first := hf.queued_first
  have hne : s.inner.queuedState.last.isSome = true ↔
      s.persistent.last.isSome = true ∨ s.appended ≠ [] := by
    rw [hch.queued_last, lastQC_isSome]
  rw [BlockStoreState.contains_iff, hfirst, hne, hq]
  unfold content
  split_ifs with hlt hge
  · simp [hlt]
  · have hlen : n - s.persistent.initialState.next < s.appended.length ↔
        n < s.persistent.initialState.next + s.appended.length := by omega
    refine ⟨?_, fun b hb => by have := hp.numbers (n - s.persistent.initialState.next) b hb; omega⟩
    simp only [Option.isSome_iff_exists, List.getElem?_eq_some_iff]
    constructor
    · rintro ⟨-, -, hn⟩
      exact ⟨_, hlen.mpr hn, rfl⟩
    · rintro ⟨b, hi, -⟩
      exact ⟨.inr (List.ne_nil_of_length_pos (show 0 < s.appended.length by omega)), by omega, hlen.mp hi⟩
  · obtain ⟨b, hb, hbn⟩ := startup_block hold (show s.persistent.initialState.first ≤ n by omega) (by omega)
    have hsome : s.persistent.last.isSome = true := by
      rcases hl : s.persistent.last with _ | q
      · simp [PersistentBlockStore.initialState, hl] at hge hlt
        omega
      · rfl
    refine ⟨by simp [hb, hsome]; omega, fun b' hb' => ?_⟩
    rw [hb] at hb'
    exact Option.some.inj hb' ▸ hbn

theorem lookup_queued {n : Nat} {r : Option FinalBlock} (h : s.inner.lookup n = .queued r) :
    s.inner.persistedState.next ≤ n ∧
      n - s.inner.persistedState.next < s.inner.queue.length ∧ r = s.content n := by
  have hf := reach.frontier
  have hp := reach.persisted
  unfold Inner.lookup at h
  split_ifs at h with hq hpc
  cases h
  simp only [Bool.not_eq_true', Bool.not_eq_false] at hq hpc
  rw [BlockStoreState.contains_iff] at hq
  have hpfirst : s.inner.persistedState.first = s.inner.queuedState.first :=
    hf.persisted_first.trans hf.queued_first.symm
  have hpn : s.inner.persistedState.next ≤ n := by
    rcases hl : s.inner.persistedState.last with _ | q
    · simp [BlockStoreState.next, hl]
      omega
    · have := (BlockStoreState.contains_iff s.inner.persistedState n).not.mp (by simp [hpc])
      simp only [hl, Option.isSome_some, true_and, not_and, not_lt] at this
      exact this (by omega)
  have hlen := hf.contiguous
  have hle := hp.persisted_le
  refine ⟨hpn, by omega, ?_⟩
  have hfirst : s.persistent.initialState.first ≤ n :=
    (show s.inner.queuedState.first = s.persistent.initialState.first from hf.queued_first) ▸
      hq.2.1
  rw [content, if_neg (by omega), if_pos (by omega), hp.queue_eq, List.getElem?_drop]
  congr 1
  omega

theorem lookup_persisted {n : Nat} (h : s.inner.lookup n = .persisted) {ls : List Label}
    (hr : run R s ls = some t) : p.block t.stored n = s.content n := by
  have hf := reach.frontier
  have hp := reach.persisted
  have hpt := (reach.of_run R hr).persisted
  obtain ⟨-, hst, hper⟩ := run_extends hr
  obtain rfl := reach.persistent_eq
  unfold Inner.lookup at h
  split_ifs at h with hq hpc
  simp only [Bool.not_eq_true', Bool.not_eq_false] at hq hpc
  have hpc' := (BlockStoreState.contains_iff _ _).mp hpc
  have hfirst : s.persistent.initialState.first ≤ n :=
    (show s.inner.persistedState.first = s.persistent.initialState.first from hf.persisted_first) ▸
      hpc'.2.1
  have hnum : ∀ i b, t.stored[i]? = some b → b.number = s.persistent.initialState.next + i :=
    fun i b hb => by
      have := hpt.numbers i b (isPrefix_getElem?_eq hpt.stored_appended hb)
      rwa [hper] at this
  unfold PersistentBlockStore.block content
  rw [find?_numbered hnum, if_neg (show ¬n < s.persistent.initialState.first by omega)]
  by_cases hge : s.persistent.initialState.next ≤ n
  · have := hp.persisted_next
    obtain ⟨b, hb⟩ : ∃ b, s.stored[n - s.persistent.initialState.next]? = some b :=
      ⟨_, List.getElem?_eq_getElem (by omega)⟩
    rw [if_pos hge, if_pos hge, isPrefix_getElem?_eq hst hb,
      isPrefix_getElem?_eq hp.stored_appended hb]
  · rw [if_neg hge, if_neg hge]

theorem block_content (hold : p.Holds) (n : Nat) {ls : List Label} (hr : run R s ls = some t) :
    s.inner.block (p.block t.stored) n = .ok (s.content n) := by
  obtain ⟨hiff, -⟩ := contains_iff_content reach hold n
  unfold Inner.block
  split
  next h =>
    have : s.content n = none := by simpa [Inner.lookup_eq_absent.mp h] using hiff
    rw [this]
  next r h => rw [(lookup_queued reach h).2.2]
  next h =>
    rw [lookup_persisted reach h hr]
    obtain ⟨b, hb⟩ := Option.isSome_iff_exists.mp
      (hiff.mp (by simpa [h] using mt (@Inner.lookup_eq_absent s.inner n).mpr))
    simp [hb, Inner.readResult]

end

/-- Where a `block(n)` call can be once its borrow was taken at `s`. -/
def ReadAfter (s : System) (n : Nat) (rd : Read) : Prop :=
  rd.number = n ∧ ((rd.phase = .persistent ∧ s.inner.lookup n = .persisted) ∨
    rd.phase = .returned (.ok (s.content n)) ∨ rd.phase = .returned (.error .canceled))

theorem readAfter_snapshot (hold : p.Holds) (reach : Reachable R p s) (n : Nat) :
    ReadAfter s n ⟨n, (s.inner.lookup n).phase⟩ := by
  have hb := block_content reach hold n (run_nil R s)
  refine ⟨rfl, ?_⟩
  unfold Inner.block at hb
  cases hl : s.inner.lookup n <;> simp only [hl] at hb <;> simp [Inner.Lookup.phase, hb]

theorem ReadAfter.step (hold : p.Holds) (reach : Reachable R p s) {u u' : System} {l : Label}
    {ls : List Label} (hu : run R s ls = some u) {i n : Nat} {rd : Read}
    (hd : u.reads[i]? = some rd) (ha : ReadAfter s n rd) (h : step R u l = some u') :
    ∃ rd', u'.reads[i]? = some rd' ∧ ReadAfter s n rd' := by
  obtain ⟨rfl, hph⟩ := ha
  rcases step_read_cases R h hd with hd' | ⟨-, hp, -⟩ | ⟨-, hp, hd'⟩ | ⟨-, hp, hd'⟩
  · exact ⟨rd, hd', rfl, hph⟩
  · rcases hph with ⟨h', -⟩ | h' | h' <;> simp [hp] at h'
  · have hl := (hph.resolve_right (by simp [hp])).2
    have hb := block_content reach hold rd.number hu
    simp only [Inner.block, hl, ← (reach.of_run R hu).persistent_eq] at hb
    exact ⟨_, hd', rfl, .inr (.inl (congrArg ReadPhase.returned hb))⟩
  · exact ⟨_, hd', rfl, .inr (.inr rfl)⟩

theorem ReadAfter.of_run (hold : p.Holds) (reach : Reachable R p s) {i n : Nat}
    {ls ls₀ : List Label} {u t : System} {rd : Read} (hu : run R s ls₀ = some u)
    (hd : u.reads[i]? = some rd) (ha : ReadAfter s n rd) (h : run R u ls = some t) :
    ∃ rd', t.reads[i]? = some rd' ∧ ReadAfter s n rd' := by
  induction ls generalizing ls₀ u rd with
  | nil => cases h; exact ⟨rd, hd, ha⟩
  | cons l ls ih =>
    obtain ⟨u', hu', hr⟩ := (run_cons R).mp h
    obtain ⟨rd', hd', ha'⟩ := ha.step hold reach hu hd hu'
    have hu₁ : run R s (ls₀ ++ [l]) = some u' := by
      rw [run_append, hu]
      simpa [System.run] using hu'
    exact ih hu₁ hd' ha' hr

/-- A `block(n)` call of the system returns the store's block for `n` at its borrow, unless
it is canceled at its persistent read. -/
theorem Reachable.read_call (hold : p.Holds) (reach : Reachable R p s) {i n : Nat}
    (hi : s.reads[i]? = some ⟨n, .pending⟩) {ls : List Label}
    (hrun : run R s (.snapshot i :: ls) = some t) {r : Except StoreError (Option FinalBlock)}
    (ht : t.reads[i]? = some ⟨n, .returned r⟩) :
    r = .ok (s.content n) ∨ r = .error .canceled := by
  obtain ⟨s₁, h₁, hr⟩ := (run_cons R).mp hrun
  have hd₁ : s₁.reads[i]? = some ⟨n, (s.inner.lookup n).phase⟩ := by
    simp only [System.step, hi, Option.some.injEq] at h₁
    subst h₁
    simp [List.getElem?_set_self (List.getElem?_eq_some_iff.mp hi).1]
  have h₀ : run R s [.snapshot i] = some s₁ := by simpa [System.run] using h₁
  obtain ⟨rd, hd, -, hph⟩ := ReadAfter.of_run hold reach h₀ hd₁ (readAfter_snapshot hold reach n) hr
  obtain rfl : rd = ⟨n, .returned r⟩ := Option.some.inj (hd.symm.trans ht)
  rcases hph with ⟨⟨⟩, -⟩ | h' | h'
  exacts [.inl (ReadPhase.returned.inj h'), .inr (ReadPhase.returned.inj h')]

end System

end EraConsensus
