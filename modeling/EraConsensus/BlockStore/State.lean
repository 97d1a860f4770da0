import EraConsensus.Roles

/-! The values the block store keeps: the range `BlockStoreState`, the record `Inner`
guarded by the store's watch, and the persistent store behind it. -/

namespace EraConsensus

/-- The range `first ..= last` of stored blocks; `last` is `none` iff it is empty. -/
structure BlockStoreState where
  first : Nat
  last : Option CommitQC
  deriving DecidableEq, Repr

namespace BlockStoreState

def contains (s : BlockStoreState) (number : Nat) : Bool :=
  match s.last with
  | none => false
  | some last => s.first ≤ number && number ≤ last.header.number

def next (s : BlockStoreState) : Nat :=
  match s.last with
  | some qc => qc.header.number + 1
  | none => s.first

@[simp] theorem next_mk_some (first : Nat) (qc : CommitQC) :
    (BlockStoreState.mk first (some qc)).next = qc.header.number + 1 := rfl

@[simp] theorem next_mk_none (first : Nat) : (BlockStoreState.mk first none).next = first := rfl

theorem next_of_last {s : BlockStoreState} {qc : CommitQC} (h : s.last = some qc) :
    s.next = qc.header.number + 1 := by
  simp [next, h]

theorem contains_iff (s : BlockStoreState) (n : Nat) :
    s.contains n = true ↔ s.last.isSome ∧ s.first ≤ n ∧ n < s.next := by
  rcases s with ⟨first, _ | qc⟩
  · simp [contains]
  · simp [contains, next]
    omega

end BlockStoreState

structure Inner where
  queuedState : BlockStoreState
  persistedState : BlockStoreState
  queue : List FinalBlock
  deriving DecidableEq, Repr

/-- Modelled from the spec: a `PersistentBlockStore` keeping its contract, as reported at
construction; the blocks `store_next_block` gets later are kept beside it. -/
structure PersistentBlockStore where
  genesis : Genesis
  last : Option CommitQC
  blocks : Nat → Option FinalBlock

namespace PersistentBlockStore

def initialState (p : PersistentBlockStore) : BlockStoreState :=
  ⟨p.genesis.fork.firstBlock, p.last⟩

def block (p : PersistentBlockStore) (stored : List FinalBlock) (number : Nat) :
    Option FinalBlock :=
  match stored.find? (fun b => decide (b.number = number)) with
  | some b => some b
  | none => p.blocks number

def next (p : PersistentBlockStore) (stored : List FinalBlock) : Nat :=
  p.initialState.next + stored.length

/-- Every block of the reported range is held under its own number. -/
def Holds (p : PersistentBlockStore) : Prop :=
  ∀ n, p.initialState.contains n = true → ∃ b, p.blocks n = some b ∧ b.number = n

end PersistentBlockStore

end EraConsensus
