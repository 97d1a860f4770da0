import EraConsensus.BlockStore.State

/-! The operations of `BlockStore`, split where the code releases a borrow or takes the
lock. -/

namespace EraConsensus

instance instDecidableEqExcept {ε α : Type} [DecidableEq ε] [DecidableEq α] :
    DecidableEq (Except ε α)
  | .error a, .error b => decidable_of_iff (a = b) (by simp)
  | .ok a, .ok b => decidable_of_iff (a = b) (by simp)
  | .error _, .ok _ => isFalse (by simp)
  | .ok _, .error _ => isFalse (by simp)

/-- `ctx::Error` of the store; `internal` carries the error's context. -/
inductive StoreError
  | canceled
  | internal (context : String)
  | parent (parent : Option Nat) (want : Nat)
  deriving DecidableEq, Repr

inductive CallPhase
  | waiting
  | checked
  | returned (r : Except StoreError Unit)
  deriving DecidableEq, Repr

section
variable (R : Roles) (genesis : Genesis)

/-- The body of `queue_block` on the snapshot `queued` that `wait_for` hands back. -/
def queueBlockCheck (queued : BlockStoreState) (b : FinalBlock) : CallPhase :=
  if b.number < queued.next then .returned (.ok ())
  else if R.verifyBlock genesis b = false then .returned (.error (.internal "block.verify()"))
  else match queued.last with
    | some last =>
      if some (R.hash last.header) ≠ b.header.parent then
        .returned (.error (.parent b.header.parent (R.hash last.header)))
      else .checked
    | none => .checked

theorem queueBlockCheck_eq_checked {queued : BlockStoreState} {b : FinalBlock} :
    queueBlockCheck R genesis queued b = .checked ↔
      ¬ b.number < queued.next ∧ R.verifyBlock genesis b = true ∧
        ∀ last, queued.last = some last → b.header.parent = some (R.hash last.header) := by
  unfold queueBlockCheck
  by_cases stale : b.number < queued.next
  · simp [stale]
  cases verified : R.verifyBlock genesis b
  · simp [stale, verified]
  rcases queued.last with _ | last
  · simp [stale]
  · by_cases hp : b.header.parent = some (R.hash last.header) <;> simp [stale, hp, eq_comm]

theorem queueBlockCheck_returned {queued : BlockStoreState} {b : FinalBlock}
    (h : queueBlockCheck R genesis queued b ≠ .checked) :
    ∃ r, queueBlockCheck R genesis queued b = .returned r ∧
      (r = .ok () → b.number < queued.next) := by
  unfold queueBlockCheck at h ⊢
  by_cases stale : b.number < queued.next
  · simp [stale]
  cases verified : R.verifyBlock genesis b
  · simp [stale, verified]
  rcases hl : queued.last with _ | last
  · simp [stale, verified, hl] at h
  · by_cases hp : some (R.hash last.header) = b.header.parent
    · simp [stale, verified, hl, hp] at h
    · simp [stale, hp]

end

/-- The closure passed to `queued_state.send_if_modified`. -/
def modifyQueued (number : Nat) (justification : CommitQC) (queued : BlockStoreState) :
    BlockStoreState × Bool :=
  if queued.next ≠ number then (queued, false)
  else ({ queued with last := some justification }, true)

namespace Inner

/-- The closure passed to `inner.send_if_modified`. -/
def queueBlockUpdate (b : FinalBlock) (inner : Inner) : Inner × Bool :=
  let (queued, modified) := modifyQueued b.number b.justification inner.queuedState
  if modified then ({ inner with queuedState := queued, queue := inner.queue ++ [b] }, true)
  else ({ inner with queuedState := queued }, false)

theorem queueBlockUpdate_of_next {inner : Inner} {b : FinalBlock}
    (h : inner.queuedState.next = b.number) :
    inner.queueBlockUpdate b =
      ({ inner with queuedState := { inner.queuedState with last := some b.justification },
                    queue := inner.queue ++ [b] }, true) := by
  simp [queueBlockUpdate, modifyQueued, h]

theorem queueBlockUpdate_of_ne {inner : Inner} {b : FinalBlock}
    (h : inner.queuedState.next ≠ b.number) : inner.queueBlockUpdate b = (inner, false) := by
  simp [queueBlockUpdate, modifyQueued, h]

/-- The runner's closure passed to `inner.send_modify`. -/
def persist (b : FinalBlock) (inner : Inner) : Inner :=
  { inner with persistedState := { inner.persistedState with last := some b.justification },
               queue := inner.queue.tail }

def persistAssert (b : FinalBlock) (inner : Inner) : Bool :=
  inner.persistedState.next = b.header.number

inductive Lookup
  | absent
  | queued (r : Option FinalBlock)
  | persisted
  deriving DecidableEq, Repr

/-- The borrow part of `BlockStore::block`; the index is the code's `u64` subtraction. -/
def lookup (inner : Inner) (number : Nat) : Lookup :=
  if !inner.queuedState.contains number then .absent
  else if !inner.persistedState.contains number then
    .queued inner.queue[number - inner.persistedState.next]?
  else .persisted

theorem lookup_eq_absent {inner : Inner} {n : Nat} :
    inner.lookup n = .absent ↔ inner.queuedState.contains n = false := by
  unfold lookup
  split_ifs <;> simp_all

def readResult : Option FinalBlock → Except StoreError (Option FinalBlock)
  | some b => .ok (some b)
  | none => .error (.internal "persistent.block()")

def block (inner : Inner) (read : Nat → Option FinalBlock) (number : Nat) :
    Except StoreError (Option FinalBlock) :=
  match inner.lookup number with
  | .absent => .ok none
  | .queued r => .ok r
  | .persisted => readResult (read number)

end Inner

def BlockStore.new (R : Roles) (p : PersistentBlockStore) : Except StoreError Inner :=
  if p.last.any (fun last => !R.verifyQC p.genesis last) then .error (.internal "last.verify()")
  else
    let inner : Inner := ⟨p.initialState, p.initialState, []⟩
    match inner.block (p.block []) p.genesis.fork.firstBlock with
    | .error e => .error e
    | .ok none => .ok inner
    | .ok (some b) =>
      if R.verifyBlock p.genesis b then .ok inner
      else .error (.internal ("verify(BlockNumber(" ++ toString p.genesis.fork.firstBlock ++ "))"))

theorem BlockStore.new_eq {R : Roles} {p : PersistentBlockStore} {inner : Inner}
    (h : BlockStore.new R p = .ok inner) :
    inner = ⟨p.initialState, p.initialState, []⟩ := by
  unfold BlockStore.new at h
  dsimp only at h
  split at h
  · cases h
  · split at h
    · cases h
    · exact (Except.ok.inj h).symm
    · split at h
      · exact (Except.ok.inj h).symm
      · cases h

def queueBlockReady (queued : BlockStoreState) (number : Nat) : Bool := number ≤ queued.next

def waitUntilQueued (queued : BlockStoreState) (number : Nat) : Bool := number < queued.next

def waitUntilPersisted (inner : Inner) (number : Nat) : Bool :=
  number < inner.persistedState.next

end EraConsensus
