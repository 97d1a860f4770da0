import EraConsensus.BlockStore.Store

/-! The block store as a system of concurrent tasks: each step is one atomic action of a
`queue_block` call, the runner or a `block` call. `appended` is a history variable. -/

namespace EraConsensus

inductive Runner
  | idle
  | storing (b : FinalBlock)
  | stored (b : FinalBlock)
  | stopped
  deriving DecidableEq, Repr

structure Call where
  block : FinalBlock
  phase : CallPhase
  deriving DecidableEq, Repr

inductive ReadPhase
  | pending
  | persistent
  | returned (r : Except StoreError (Option FinalBlock))
  deriving DecidableEq, Repr

structure Read where
  number : Nat
  phase : ReadPhase
  deriving DecidableEq, Repr

def Inner.Lookup.phase : Inner.Lookup → ReadPhase
  | .absent => .returned (.ok none)
  | .queued r => .returned (.ok r)
  | .persisted => .persistent

structure System where
  persistent : PersistentBlockStore
  stored : List FinalBlock
  inner : Inner
  innerVersion : Nat
  queuedVersion : Nat
  runner : Runner
  calls : List Call
  reads : List Read
  appended : List FinalBlock

/-- One atomic action: a `queue_block` call's check or locked update, the runner's take,
store, locked update or stop, or a `block` call's borrow or persistent read. -/
inductive Label
  | queueBlock (b : FinalBlock)
  | check (i : Nat)
  | update (i : Nat)
  | cancel (i : Nat)
  | take
  | store
  | persist
  | stop
  | block (number : Nat)
  | snapshot (i : Nat)
  | read (i : Nat)
  | readCancel (i : Nat)
  deriving DecidableEq, Repr

namespace System

def genesis (s : System) : Genesis := s.persistent.genesis

def start (p : PersistentBlockStore) (inner : Inner) : System :=
  ⟨p, [], inner, 0, 0, .idle, [], [], []⟩

/-- The locked update of call `i`; each watch is notified only on a change. -/
def update (s : System) (i : Nat) (b : FinalBlock) : System :=
  let r := s.inner.queueBlockUpdate b
  { s with inner := r.1, innerVersion := s.innerVersion + r.2.toNat,
           queuedVersion := s.queuedVersion + r.2.toNat,
           calls := s.calls.set i ⟨b, .returned (.ok ())⟩,
           appended := if r.2 then s.appended ++ [b] else s.appended }

theorem update_of_next {s : System} {i : Nat} {b : FinalBlock}
    (h : s.inner.queuedState.next = b.number) :
    s.update i b = { s with
      inner := ⟨{ s.inner.queuedState with last := some b.justification },
                s.inner.persistedState, s.inner.queue ++ [b]⟩,
      innerVersion := s.innerVersion + 1, queuedVersion := s.queuedVersion + 1,
      calls := s.calls.set i ⟨b, .returned (.ok ())⟩, appended := s.appended ++ [b] } := by
  simp [update, Inner.queueBlockUpdate_of_next h]

theorem update_of_ne {s : System} {i : Nat} {b : FinalBlock}
    (h : s.inner.queuedState.next ≠ b.number) :
    s.update i b = { s with calls := s.calls.set i ⟨b, .returned (.ok ())⟩ } := by
  simp [update, Inner.queueBlockUpdate_of_ne h]

@[simp] theorem update_calls (s : System) (i : Nat) (b : FinalBlock) :
    (s.update i b).calls = s.calls.set i ⟨b, .returned (.ok ())⟩ := rfl

variable (R : Roles)

def step (s : System) : Label → Option System
  | .queueBlock b => some { s with calls := s.calls ++ [⟨b, .waiting⟩] }
  | .check i =>
    match s.calls[i]? with
    | some ⟨b, .waiting⟩ =>
      if queueBlockReady s.inner.queuedState b.number then
        some { s with
          calls := s.calls.set i (Call.mk b (queueBlockCheck R s.genesis s.inner.queuedState b)) }
      else none
    | _ => none
  | .update i =>
    match s.calls[i]? with
    | some ⟨b, .checked⟩ => some (s.update i b)
    | _ => none
  | .cancel i =>
    match s.calls[i]? with
    | some ⟨b, .waiting⟩ => some { s with calls := s.calls.set i ⟨b, .returned (.error .canceled)⟩ }
    | _ => none
  | .take =>
    match s.runner, s.inner.queue with
    | .idle, b :: _ => some { s with runner := .storing b }
    | _, _ => none
  | .store =>
    match s.runner with
    | .storing b => some { s with stored := s.stored ++ [b], runner := .stored b }
    | _ => none
  | .persist =>
    match s.runner with
    | .stored b => some { s with inner := s.inner.persist b,
                                 innerVersion := s.innerVersion + 1, runner := .idle }
    | _ => none
  | .stop =>
    match s.runner with
    | .idle | .storing _ => some { s with runner := .stopped }
    | _ => none
  | .block number => some { s with reads := s.reads ++ [⟨number, .pending⟩] }
  | .snapshot i =>
    match s.reads[i]? with
    | some ⟨n, .pending⟩ => some { s with reads := s.reads.set i ⟨n, (s.inner.lookup n).phase⟩ }
    | _ => none
  | .read i =>
    match s.reads[i]? with
    | some ⟨n, .persistent⟩ =>
      let r := Inner.readResult (s.persistent.block s.stored n)
      some { s with reads := s.reads.set i ⟨n, .returned r⟩ }
    | _ => none
  | .readCancel i =>
    match s.reads[i]? with
    | some ⟨n, .persistent⟩ => some { s with reads := s.reads.set i ⟨n, .returned (.error .canceled)⟩ }
    | _ => none

def run : System → List Label → Option System
  | s, [] => some s
  | s, l :: ls => (step R s l).bind fun s' => run s' ls

inductive Reachable (p : PersistentBlockStore) : System → Prop
  | start {inner : Inner} : BlockStore.new R p = .ok inner → Reachable p (start p inner)
  | step {s s' : System} {l : Label} : Reachable p s → step R s l = some s' → Reachable p s'

@[simp] theorem run_nil (s : System) : run R s [] = some s := rfl

theorem run_cons {s s' : System} {l : Label} {ls : List Label} :
    run R s (l :: ls) = some s' ↔ ∃ t, step R s l = some t ∧ run R t ls = some s' := by
  simp [run, Option.bind_eq_some]

theorem run_append (s : System) (ls₁ ls₂ : List Label) :
    run R s (ls₁ ++ ls₂) = (run R s ls₁).bind fun t => run R t ls₂ := by
  induction ls₁ generalizing s with
  | nil => rfl
  | cons l ls ih =>
    show (step R s l).bind (fun s' => run R s' (ls ++ ls₂)) = _
    simp only [ih, run, Option.bind_assoc]

theorem Reachable.of_run {p : PersistentBlockStore} {s s' : System} {ls : List Label}
    (reach : Reachable R p s) (h : run R s ls = some s') : Reachable R p s' := by
  induction ls generalizing s with
  | nil => cases h; exact reach
  | cons l ls ih =>
    obtain ⟨t, ht, hr⟩ := (run_cons R).mp h
    exact ih (reach.step ht) hr

theorem step_cases {s s' : System} {l : Label} (h : step R s l = some s') :
    (∃ calls reads, s' = { s with calls := calls, reads := reads }) ∨
    (∃ i b, s.calls[i]? = some ⟨b, .checked⟩ ∧ l = .update i ∧ s' = s.update i b) ∨
    (∃ b rest, s.runner = .idle ∧ s.inner.queue = b :: rest ∧
      s' = { s with runner := .storing b }) ∨
    (∃ b, s.runner = .storing b ∧ s' = { s with stored := s.stored ++ [b], runner := .stored b }) ∨
    (∃ b, s.runner = .stored b ∧
      s' = { s with inner := s.inner.persist b, innerVersion := s.innerVersion + 1,
                    runner := .idle }) ∨
    ((s.runner = .idle ∨ ∃ b, s.runner = .storing b) ∧ s' = { s with runner := .stopped }) := by
  have frame : ∀ calls reads, some { s with calls := calls, reads := reads } = some s' →
      ∃ calls reads, s' = { s with calls := calls, reads := reads } :=
    fun calls reads h => ⟨calls, reads, (Option.some.inj h).symm⟩
  cases l with
  | queueBlock b => exact .inl (frame _ _ h)
  | block n => exact .inl (frame _ _ h)
  | check i =>
    simp only [step] at h
    split at h
    · split at h
      · exact .inl (frame _ _ h)
      · cases h
    · cases h
  | cancel i | snapshot i | read i | readCancel i =>
    simp only [step] at h
    split at h
    · exact .inl (frame _ _ h)
    · cases h
  | update i =>
    simp only [step] at h
    split at h
    · exact .inr (.inl ⟨i, _, ‹_›, rfl, (Option.some.inj h).symm⟩)
    · cases h
  | take =>
    simp only [step] at h
    split at h
    · exact .inr (.inr (.inl ⟨_, _, ‹_›, ‹_›, (Option.some.inj h).symm⟩))
    · cases h
  | store =>
    simp only [step] at h
    split at h
    · exact .inr (.inr (.inr (.inl ⟨_, ‹_›, (Option.some.inj h).symm⟩)))
    · cases h
  | persist =>
    simp only [step] at h
    split at h
    · exact .inr (.inr (.inr (.inr (.inl ⟨_, ‹_›, (Option.some.inj h).symm⟩))))
    · cases h
  | stop =>
    simp only [step] at h
    split at h
    · exact .inr (.inr (.inr (.inr (.inr ⟨.inl ‹_›, (Option.some.inj h).symm⟩))))
    · exact .inr (.inr (.inr (.inr (.inr ⟨.inr ⟨_, ‹_›⟩, (Option.some.inj h).symm⟩))))
    · cases h

theorem step_call_cases {s s' : System} {l : Label} (h : step R s l = some s') :
    (s'.calls = s.calls ∧ s'.inner.queuedState = s.inner.queuedState) ∨
    (∃ b, l = .queueBlock b ∧ s' = { s with calls := s.calls ++ [⟨b, .waiting⟩] }) ∨
    (∃ i b, l = .check i ∧ s.calls[i]? = some ⟨b, .waiting⟩ ∧
      b.number ≤ s.inner.queuedState.next ∧
      s' = { s with calls := s.calls.set i ⟨b, queueBlockCheck R s.genesis s.inner.queuedState b⟩ }) ∨
    (∃ i b, l = .cancel i ∧ s.calls[i]? = some ⟨b, .waiting⟩ ∧
      s' = { s with calls := s.calls.set i ⟨b, .returned (.error .canceled)⟩ }) ∨
    (∃ i b, l = .update i ∧ s.calls[i]? = some ⟨b, .checked⟩ ∧ s' = s.update i b) := by
  have same : ∀ t : System, some t = some s' → t.calls = s.calls →
      t.inner.queuedState = s.inner.queuedState →
      s'.calls = s.calls ∧ s'.inner.queuedState = s.inner.queuedState :=
    fun t h hc hq => Option.some.inj h ▸ ⟨hc, hq⟩
  cases l with
  | queueBlock b => exact .inr (.inl ⟨b, rfl, (Option.some.inj h).symm⟩)
  | check i =>
    simp only [step] at h
    split at h
    · split at h
      · rename_i b hc hr
        exact .inr (.inr (.inl ⟨i, b, rfl, hc, by simpa [queueBlockReady] using hr,
          (Option.some.inj h).symm⟩))
      · cases h
    · cases h
  | cancel i =>
    simp only [step] at h
    split at h
    · exact .inr (.inr (.inr (.inl ⟨i, _, rfl, ‹_›, (Option.some.inj h).symm⟩)))
    · cases h
  | update i =>
    simp only [step] at h
    split at h
    · exact .inr (.inr (.inr (.inr ⟨i, _, rfl, ‹_›, (Option.some.inj h).symm⟩)))
    · cases h
  | block n => exact .inl (same _ h rfl rfl)
  | snapshot i | read i | readCancel i =>
    simp only [step] at h
    split at h
    · exact .inl (same _ h rfl rfl)
    · cases h
  | take | store | persist =>
    simp only [step] at h
    split at h
    · exact .inl (same _ h rfl rfl)
    · cases h
  | stop =>
    simp only [step] at h
    split at h
    · exact .inl (same _ h rfl rfl)
    · exact .inl (same _ h rfl rfl)
    · cases h

theorem step_read_cases {s s' : System} {l : Label} (h : step R s l = some s') {i : Nat}
    {rd : Read} (hi : s.reads[i]? = some rd) :
    s'.reads[i]? = some rd ∨
    (l = .snapshot i ∧ rd.phase = .pending ∧
      s'.reads[i]? = some ⟨rd.number, (s.inner.lookup rd.number).phase⟩) ∨
    (l = .read i ∧ rd.phase = .persistent ∧ s'.reads[i]? =
      some ⟨rd.number, .returned (Inner.readResult (s.persistent.block s.stored rd.number))⟩) ∨
    (l = .readCancel i ∧ rd.phase = .persistent ∧
      s'.reads[i]? = some ⟨rd.number, .returned (.error .canceled)⟩) := by
  have hlen := (List.getElem?_eq_some_iff.mp hi).1
  cases l with
  | block n =>
    cases h
    exact .inl (by rw [List.getElem?_append_left hlen, hi])
  | snapshot j | read j | readCancel j =>
    simp only [step] at h
    split at h
    · next n hj =>
      cases h
      by_cases hij : j = i
      · subst hij
        rw [hi] at hj
        cases hj
        simp [List.getElem?_set_self hlen]
      · exact .inl (by rw [List.getElem?_set_ne hij, hi])
    · cases h
  | _ =>
    simp only [step] at h
    repeat' split at h
    all_goals first | (cases h; exact .inl hi) | cases h

theorem step_persistent {s s' : System} {l : Label} (h : step R s l = some s') :
    s'.persistent = s.persistent := by
  rcases step_cases R h with ⟨cs, rs, rfl⟩ | ⟨i, b, -, -, rfl⟩ | ⟨b, rest, -, -, rfl⟩ |
    ⟨b, -, rfl⟩ | ⟨b, -, rfl⟩ | ⟨-, rfl⟩ <;> rfl

def sampleRoles : Roles := ⟨fun h => h.number, fun _ _ => true, fun _ _ => true⟩

def sampleStore : PersistentBlockStore := ⟨⟨⟨5⟩⟩, none, fun _ => none⟩

def sampleBlock : FinalBlock := ⟨0, ⟨⟨none, 5, 0⟩, 0⟩⟩

def sampleState : System :=
  { persistent := sampleStore, stored := [],
    inner := ⟨⟨5, some sampleBlock.justification⟩, ⟨5, none⟩, [sampleBlock]⟩,
    innerVersion := 1, queuedVersion := 1, runner := .storing sampleBlock,
    calls := [⟨sampleBlock, .returned (.ok ())⟩], reads := [], appended := [sampleBlock] }

theorem sampleState_reachable : Reachable sampleRoles sampleStore sampleState :=
  Reachable.of_run sampleRoles (.start rfl)
    (show run sampleRoles _ [.queueBlock sampleBlock, .check 0, .update 0, .take] = _ from rfl)

end System

end EraConsensus
