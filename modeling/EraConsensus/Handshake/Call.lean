import EraConsensus.Handshake.Message

/-! `outbound` and `inbound` as the state machines their `async` bodies are; any
suspension point may end in a stream error. -/

namespace EraConsensus

/-- `noise::Stream`: the connection's id, shared by both ends, and the end's side. -/
structure NoiseStream where
  id : Nat
  side : Bool
  deriving DecidableEq, Repr

namespace NoiseStream

def other (t : NoiseStream) : NoiseStream := ⟨t.id, !t.side⟩

def sessionId (t : NoiseStream) : SessionId := ⟨t.id⟩

@[simp] theorem other_other (t : NoiseStream) : t.other.other = t := by
  simp [other]

@[simp] theorem other_ne (t : NoiseStream) : t.other ≠ t := by
  cases t; simp [other]

@[simp] theorem sessionId_other (t : NoiseStream) : t.other.sessionId = t.sessionId := rfl

theorem eq_or_eq_other_of_sessionId {t u : NoiseStream} (h : u.sessionId = t.sessionId) :
    u = t ∨ u = t.other := by
  obtain ⟨i, a⟩ := t
  obtain ⟨j, b⟩ := u
  simp only [sessionId, SessionId.mk.injEq] at h
  subst h
  cases a <;> cases b <;> simp [other]

end NoiseStream

structure Party where
  me : SecretKey
  genesis : GenesisHash
  stream : NoiseStream
  deriving DecidableEq, Repr

/-- The `Handshake` both calls send. -/
def Party.hello (p : Party) : Handshake :=
  ⟨p.me.signMsg p.stream.sessionId, p.genesis⟩

inductive Outbound
  | send
  | recv
  | returned (r : Except Error Unit)

inductive Inbound
  | recv
  | send (h : Handshake)
  | returned (r : Except Error PublicKey)

inductive Role
  | outbound (peer : PublicKey)
  | inbound
  deriving DecidableEq, Repr

inductive HandshakeCall
  | outbound (party : Party) (peer : PublicKey) (pc : Outbound)
  | inbound (party : Party) (pc : Inbound)

def Outbound.afterRecv (p : Party) (peer : PublicKey) : Except (List String) Handshake →
    Except Error Unit
  | .error e => .error (.stream e)
  | .ok h => outboundCheck p.stream.sessionId p.genesis peer h

def Inbound.afterRecv (p : Party) : Except (List String) Handshake → Inbound
  | .error e => .returned (.error (.stream e))
  | .ok h =>
    match inboundCheck p.stream.sessionId p.genesis h with
    | .ok () => .send h
    | .error e => .returned (.error e)

namespace HandshakeCall

def party : HandshakeCall → Party
  | .outbound p _ _ | .inbound p _ => p

def role : HandshakeCall → Role
  | .outbound _ peer _ => .outbound peer
  | .inbound _ _ => .inbound

@[simp] theorem party_outbound (p : Party) (peer : PublicKey) (pc : Outbound) :
    (HandshakeCall.outbound p peer pc).party = p := rfl

@[simp] theorem party_inbound (p : Party) (pc : Inbound) : (HandshakeCall.inbound p pc).party = p := rfl

def Fresh : HandshakeCall → Prop
  | .outbound _ _ pc => pc = .send
  | .inbound _ pc => pc = .recv

def send : HandshakeCall → Option (HandshakeCall × Handshake)
  | .outbound p peer .send => some (.outbound p peer .recv, p.hello)
  | .inbound p (.send h) => some (.inbound p (.returned (.ok h.sessionId.key)), p.hello)
  | _ => none

def recv (c : HandshakeCall) (r : Except (List String) Handshake) : Option HandshakeCall :=
  match c with
  | .outbound p peer .recv => some (.outbound p peer (.returned (Outbound.afterRecv p peer r)))
  | .inbound p .recv => some (.inbound p (Inbound.afterRecv p r))
  | _ => none

def fail (c : HandshakeCall) (e : List String) : Option HandshakeCall :=
  match c with
  | .outbound p peer .send | .outbound p peer .recv =>
    some (.outbound p peer (.returned (.error (.stream e))))
  | .inbound p .recv | .inbound p (.send _) => some (.inbound p (.returned (.error (.stream e))))
  | _ => none

variable {c c' : HandshakeCall} {h : Handshake}

theorem send_eq_some (hs : c.send = some (c', h)) :
    h = c.party.hello ∧
      ((∃ p peer, c = .outbound p peer .send ∧ c' = .outbound p peer .recv) ∨
       (∃ p g, c = .inbound p (.send g) ∧ c' = .inbound p (.returned (.ok g.sessionId.key)))) := by
  unfold send at hs
  split at hs <;> simp only [Option.some.injEq, Prod.mk.injEq, reduceCtorEq] at hs <;>
    obtain ⟨rfl, rfl⟩ := hs
  · exact ⟨rfl, .inl ⟨_, _, rfl, rfl⟩⟩
  · exact ⟨rfl, .inr ⟨_, _, rfl, rfl⟩⟩

theorem recv_eq_some {r : Except (List String) Handshake} (hr : c.recv r = some c') :
    (∃ p peer, c = .outbound p peer .recv ∧
      c' = .outbound p peer (.returned (Outbound.afterRecv p peer r))) ∨
    (∃ p, c = .inbound p .recv ∧ c' = .inbound p (Inbound.afterRecv p r)) := by
  unfold recv at hr
  split at hr <;> simp only [Option.some.injEq, reduceCtorEq] at hr <;> subst hr
  · exact .inl ⟨_, _, rfl, rfl⟩
  · exact .inr ⟨_, rfl, rfl⟩

theorem fail_eq_some {e : List String} (hf : c.fail e = some c') :
    (∃ p peer pc, c = .outbound p peer pc ∧
      c' = .outbound p peer (.returned (.error (.stream e)))) ∨
    (∃ p pc, c = .inbound p pc ∧ c' = .inbound p (.returned (.error (.stream e)))) := by
  unfold fail at hf
  split at hf <;> simp only [Option.some.injEq, reduceCtorEq] at hf <;> subst hf
  · exact .inl ⟨_, _, _, rfl, rfl⟩
  · exact .inl ⟨_, _, _, rfl, rfl⟩
  · exact .inr ⟨_, _, rfl, rfl⟩
  · exact .inr ⟨_, _, rfl, rfl⟩

theorem send_shape (hs : c.send = some (c', h)) : c'.party = c.party ∧ c'.role = c.role := by
  rcases (send_eq_some hs).2 with ⟨p, peer, rfl, rfl⟩ | ⟨p, g, rfl, rfl⟩ <;> exact ⟨rfl, rfl⟩

theorem recv_shape {r : Except (List String) Handshake} (hr : c.recv r = some c') :
    c'.party = c.party ∧ c'.role = c.role := by
  rcases recv_eq_some hr with ⟨p, peer, rfl, rfl⟩ | ⟨p, rfl, rfl⟩ <;> exact ⟨rfl, rfl⟩

theorem fail_shape {e : List String} (hf : c.fail e = some c') :
    c'.party = c.party ∧ c'.role = c.role := by
  rcases fail_eq_some hf with ⟨p, peer, pc, rfl, rfl⟩ | ⟨p, pc, rfl, rfl⟩ <;> exact ⟨rfl, rfl⟩

end HandshakeCall

end EraConsensus
