import EraConsensus.Roles

/-! The handshake's message and its checks. The field encodings are parameters, and
signatures are ideal: a signature is its signer's key and the message it signs. -/

namespace EraConsensus

structure PublicKey where
  id : Nat
  deriving DecidableEq, Repr

structure SecretKey where
  id : Nat
  deriving DecidableEq, Repr

def SecretKey.public (sk : SecretKey) : PublicKey := ⟨sk.id⟩

structure SessionId where
  bytes : Nat
  deriving DecidableEq, Repr

structure Signature where
  signer : PublicKey
  msg : SessionId
  deriving DecidableEq, Repr

structure Signed where
  msg : SessionId
  key : PublicKey
  sig : Signature
  deriving DecidableEq, Repr

inductive ValidatorError
  | invalidSignature
  deriving DecidableEq, Repr

def SecretKey.signMsg (sk : SecretKey) (msg : SessionId) : Signed :=
  ⟨msg, sk.public, ⟨sk.public, msg⟩⟩

def Signed.verify (s : Signed) : Except ValidatorError Unit :=
  if s.sig = ⟨s.key, s.msg⟩ then .ok () else .error .invalidSignature

theorem Signed.verify_eq_ok (s : Signed) : s.verify = .ok () ↔ s.sig = ⟨s.key, s.msg⟩ := by
  unfold verify
  split_ifs <;> simp_all

@[simp] theorem SecretKey.verify_signMsg (sk : SecretKey) (msg : SessionId) :
    (sk.signMsg msg).verify = .ok () := by
  simp [Signed.verify_eq_ok, signMsg]

structure GenesisHash where
  hash : Nat
  deriving DecidableEq, Repr

structure Handshake where
  sessionId : Signed
  genesis : GenesisHash
  deriving DecidableEq, Repr

/-- `ProtoFmt`; an `anyhow::Error` is its chain of contexts, outermost first. -/
structure ProtoFmt (α P : Type) where
  read : P → Except (List String) α
  build : α → P

def ProtoFmt.Lawful {α P : Type} (f : ProtoFmt α P) : Prop :=
  ∀ a, f.read (f.build a) = .ok a

def readRequired {α P : Type} (f : ProtoFmt α P) : Option P → Except (List String) α
  | none => .error ["missing field"]
  | some p => f.read p

def context {α : Type} (msg : String) (r : Except (List String) α) : Except (List String) α :=
  r.mapError (msg :: ·)

structure HandshakeProto (S G : Type) where
  sessionId : Option S
  genesis : Option G

structure Wire (S G : Type) where
  signed : ProtoFmt Signed S
  genesis : ProtoFmt GenesisHash G

structure Wire.Lawful {S G : Type} (w : Wire S G) : Prop where
  signed : w.signed.Lawful
  genesis : w.genesis.Lawful

variable {S G : Type}

def Wire.plain : Wire Signed GenesisHash := ⟨⟨.ok, id⟩, ⟨.ok, id⟩⟩

theorem Wire.plain_lawful : Wire.plain.Lawful := ⟨fun _ => rfl, fun _ => rfl⟩

def Handshake.read (w : Wire S G) (r : HandshakeProto S G) : Except (List String) Handshake := do
  let sessionId ← context "session_id" (readRequired w.signed r.sessionId)
  let genesis ← context "genesis" (readRequired w.genesis r.genesis)
  pure ⟨sessionId, genesis⟩

def Handshake.build (w : Wire S G) (h : Handshake) : HandshakeProto S G :=
  ⟨some (w.signed.build h.sessionId), some (w.genesis.build h.genesis)⟩

theorem Handshake.read_build {w : Wire S G} (lawful : w.Lawful) (h : Handshake) :
    Handshake.read w (Handshake.build w h) = .ok h := by
  simp [Handshake.read, Handshake.build, readRequired, context, lawful.signed h.sessionId,
    lawful.genesis h.genesis, Except.mapError, bind, Except.bind, pure, Except.pure]

inductive Error
  | genesisMismatch
  | sessionIdMismatch
  | peerMismatch
  | signature (e : ValidatorError)
  | stream (e : List String)
  deriving DecidableEq, Repr

def outboundCheck (sessionId : SessionId) (genesis : GenesisHash) (peer : PublicKey)
    (h : Handshake) : Except Error Unit :=
  if h.genesis ≠ genesis then .error .genesisMismatch
  else if h.sessionId.msg ≠ sessionId then .error .sessionIdMismatch
  else if h.sessionId.key ≠ peer then .error .peerMismatch
  else h.sessionId.verify.mapError .signature

def inboundCheck (sessionId : SessionId) (genesis : GenesisHash) (h : Handshake) :
    Except Error Unit :=
  if h.genesis ≠ genesis then .error .genesisMismatch
  else if h.sessionId.msg ≠ sessionId then .error .sessionIdMismatch
  else h.sessionId.verify.mapError .signature

theorem mapError_signature_eq_ok (r : Except ValidatorError Unit) :
    r.mapError Error.signature = .ok () ↔ r = .ok () := by
  cases r <;> simp [Except.mapError]

theorem outboundCheck_eq_ok {sessionId : SessionId} {genesis : GenesisHash}
    {peer : PublicKey} {h : Handshake} :
    outboundCheck sessionId genesis peer h = .ok () ↔
      h.genesis = genesis ∧ h.sessionId.msg = sessionId ∧ h.sessionId.key = peer ∧
        h.sessionId.sig = ⟨peer, sessionId⟩ := by
  unfold outboundCheck
  split_ifs with hg hm hk
  · simp [hg]
  · simp [hm]
  · simp [hk]
  · simp only [not_not] at hg hm hk
    rw [mapError_signature_eq_ok, Signed.verify_eq_ok, hk, hm]
    simp [hg]

theorem inboundCheck_eq_ok {sessionId : SessionId} {genesis : GenesisHash} {h : Handshake} :
    inboundCheck sessionId genesis h = .ok () ↔
      h.genesis = genesis ∧ h.sessionId.msg = sessionId ∧
        h.sessionId.sig = ⟨h.sessionId.key, sessionId⟩ := by
  unfold inboundCheck
  split_ifs with hg hm
  · simp [hg]
  · simp [hm]
  · simp only [not_not] at hg hm
    rw [mapError_signature_eq_ok, Signed.verify_eq_ok, hm]
    simp [hg]

end EraConsensus
