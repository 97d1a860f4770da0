import Mathlib.Data.List.Basic

/-! Validator-role values the block store reads, with only the fields it uses; the
cryptographic operations are parameters. -/

namespace EraConsensus

structure BlockHeader where
  parent : Option Nat
  number : Nat
  payload : Nat
  deriving DecidableEq, Repr

structure CommitQC where
  header : BlockHeader
  signature : Nat
  deriving DecidableEq, Repr

/-- Modelled from the spec: a block and the certificate that finalized it. -/
structure FinalBlock where
  payload : Nat
  justification : CommitQC
  deriving DecidableEq, Repr

namespace FinalBlock

def header (b : FinalBlock) : BlockHeader := b.justification.header

def number (b : FinalBlock) : Nat := b.header.number

theorem number_justification (b : FinalBlock) :
    b.justification.header.number = b.number := rfl

end FinalBlock

structure Fork where
  firstBlock : Nat
  deriving DecidableEq, Repr

structure Genesis where
  fork : Fork
  deriving DecidableEq, Repr

/-- Modelled from the spec: `BlockHeader::hash`, `CommitQC::verify` and
`FinalBlock::verify`. -/
structure Roles where
  hash : BlockHeader → Nat
  verifyQC : Genesis → CommitQC → Bool
  verifyBlock : Genesis → FinalBlock → Bool

theorem getElem?_concat_eq_some {α : Type} {l : List α} {a x : α} {i : Nat}
    (h : (l ++ [a])[i]? = some x) : l[i]? = some x ∨ (i = l.length ∧ x = a) := by
  rw [List.getElem?_append] at h
  split at h
  · exact .inl h
  · rename_i hi
    have hle : i - l.length = 0 := by
      by_contra hne
      simp [List.getElem?_eq_none (show [a].length ≤ i - l.length by simp; omega)] at h
    simp only [hle, List.getElem?_cons_zero, Option.some.injEq] at h
    exact .inr ⟨by omega, h.symm⟩

theorem getElem?_set_eq_some {α : Type} {l : List α} {i j : Nat} {a x : α}
    (h : (l.set i a)[j]? = some x) : (j = i ∧ x = a) ∨ (j ≠ i ∧ l[j]? = some x) := by
  rw [List.getElem?_set] at h
  split_ifs at h with hij
  · exact .inl ⟨hij.symm, (Option.some.inj h).symm⟩
  · exact .inr ⟨Ne.symm hij, h⟩

end EraConsensus
