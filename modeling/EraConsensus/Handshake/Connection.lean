import EraConsensus.Handshake.Auth

/-! An honest connection inside any network: each end reads only the other's handshake,
so each call returns what it returns alone, or a stream error. -/

namespace EraConsensus

theorem Inbound.afterRecv_cases (p : Party) (r : Except (List String) Handshake) :
    (∃ g, Inbound.afterRecv p r = .send g) ∨ ∃ e, Inbound.afterRecv p r = .returned (.error e) := by
  unfold Inbound.afterRecv
  split
  · exact .inr ⟨_, rfl⟩
  · split
    · exact .inl ⟨_, rfl⟩
    · exact .inr ⟨_, rfl⟩

namespace HandshakeCall

/-- What a call's result says of the handshake it read on its end. -/
def Explained (log : List (NoiseStream × Handshake)) : HandshakeCall → Prop
  | .outbound p peer (.returned r) => (∃ e, r = .error (.stream e)) ∨
      ∃ g, (p.stream, g) ∈ log ∧ r = outboundCheck p.stream.sessionId p.genesis peer g
  | .inbound p (.returned (.error e)) => (∃ e', e = .stream e') ∨
      ∃ g, (p.stream, g) ∈ log ∧ inboundCheck p.stream.sessionId p.genesis g = .error e
  | _ => True

variable {log log' : List (NoiseStream × Handshake)} {c c' : HandshakeCall}

theorem Explained.mono (h : c.Explained log) (sub : ∀ x ∈ log, x ∈ log') : c.Explained log' := by
  rcases c with ⟨p, peer, _ | _ | r⟩ | ⟨p, _ | g | (e | k)⟩ <;> simp only [Explained] at h ⊢
  · exact h.imp id fun ⟨g, hg, hr⟩ => ⟨g, sub _ hg, hr⟩
  · exact h.imp id fun ⟨g, hg, hr⟩ => ⟨g, sub _ hg, hr⟩

theorem explained_send {g : Handshake} (hs : c.send = some (c', g)) : c'.Explained log := by
  rcases (send_eq_some hs).2 with ⟨p, peer, -, rfl⟩ | ⟨p, g, -, rfl⟩ <;> simp [Explained]

theorem explained_recv {r : Except (List String) Handshake} (hr : c.recv r = some c') :
    c'.Explained (log ++ Network.readLog c.party.stream r) := by
  rcases recv_eq_some hr with ⟨p, peer, rfl, rfl⟩ | ⟨p, rfl, rfl⟩
  · cases r with
    | error e => simp [Explained, Outbound.afterRecv]
    | ok g =>
      simp only [Explained, Outbound.afterRecv, Network.readLog, party_outbound]
      exact .inr ⟨g, by simp, rfl⟩
  · cases r with
    | error e => simp [Explained, Inbound.afterRecv]
    | ok g =>
      simp only [Inbound.afterRecv]
      split
      · simp [Explained]
      · simp only [Explained, Network.readLog, party_inbound]
        exact .inr ⟨g, by simp, ‹_›⟩

theorem explained_fail {e : List String} (hf : c.fail e = some c') : c'.Explained log := by
  rcases fail_eq_some hf with ⟨p, peer, pc, -, rfl⟩ | ⟨p, pc, -, rfl⟩ <;> simp [Explained]

theorem recv_moves {r : Except (List String) Handshake} (hr : c.recv r = some c') :
    c' ≠ c ∧ ∀ q k, c' ≠ .inbound q (.returned (.ok k)) := by
  rcases recv_eq_some hr with ⟨p, peer, rfl, rfl⟩ | ⟨p, rfl, rfl⟩
  · simp
  · rcases Inbound.afterRecv_cases p r with ⟨g, hg⟩ | ⟨e, he⟩
    · simp [hg]
    · simp [he]

end HandshakeCall

namespace Network

variable {S G : Type} {net : Network S G} {s s' : State S G} {l : Label S G}

theorem explained_step (h : net.step s l = some s')
    (hex : ∀ (i : Nat) (c : HandshakeCall), s.calls[i]? = some c → c.Explained s.received) :
    ∀ (i : Nat) (c : HandshakeCall), s'.calls[i]? = some c → c.Explained s'.received := by
  intro i c' hi
  rcases step_getElem?_cases h hi with hio | ⟨d, g, -, hs⟩ | ⟨d, m, rest, -, -, hr, -, hrec⟩ |
    ⟨d, e, -, hf⟩
  · exact (hex i c' hio).mono (step_received h)
  · exact HandshakeCall.explained_send hs
  · exact hrec ▸ HandshakeCall.explained_recv hr
  · exact HandshakeCall.explained_fail hf

theorem Reachable.explained (reach : net.Reachable s) :
    ∀ (i : Nat) (c : HandshakeCall), s.calls[i]? = some c → c.Explained s.received := by
  induction reach with
  | start =>
    intro i c hc
    have fresh := net.fresh c (List.getElem?_mem hc)
    rcases c with ⟨p, peer, pc⟩ | ⟨p, pc⟩ <;> simp only [HandshakeCall.Fresh] at fresh <;>
      subst fresh <;> simp [HandshakeCall.Explained]
  | step _ h ih => exact explained_step h ih

variable (net) in
def ReadFrom (s : State S G) : Prop :=
  ∀ t g, (t, g) ∈ s.received → (t.other, g) ∈ s.sent ∨ net.Adversarial t.other

theorem ReadFrom.step (lawful : net.wire.Lawful) (ho : Origins net s) (hr : ReadFrom net s)
    (h : net.step s l = some s') : ReadFrom net s' := by
  have old : ∀ t g, (t, g) ∈ s.received → (t.other, g) ∈ s'.sent ∨ net.Adversarial t.other :=
    fun t g htg => (hr t g htg).imp (step_sent h _) id
  rcases step_cases h with ⟨k, c, c', g, -, -, -, rfl⟩ | ⟨k, c, c', m, rest, -, -, hm, -, rfl⟩ |
    ⟨k, e, c, c', -, -, -, rfl⟩ | ⟨t, m, -, -, -, rfl⟩
  · exact old
  · intro t g htg
    rcases List.mem_append.mp htg with hold | hnew
    · exact old t g hold
    cases hread : Handshake.read net.wire m with
    | error e => simp [readLog, hread] at hnew
    | ok g' =>
      simp only [readLog, hread, List.mem_singleton, Prod.mk.injEq] at hnew
      obtain ⟨rfl, rfl⟩ := hnew
      rcases ho.inbox _ m (hm ▸ List.mem_cons_self m rest) with ⟨j, d, -, -, rfl, hs⟩ | ⟨hadv, -⟩
      · rw [Handshake.read_build lawful] at hread
        cases hread
        exact .inl hs
      · exact .inr hadv
  · exact old
  · exact old

theorem Reachable.readFrom (lawful : net.wire.Lawful) (reach : net.Reachable s) :
    ReadFrom net s := by
  induction reach with
  | start => exact fun t g h => by simp [Network.start] at h
  | step reach h ih => exact ih.step lawful reach.origins h

theorem Reachable.read_facing (lawful : net.wire.Lawful) (reach : net.Reachable s) {j : Nat}
    {d : HandshakeCall} (hj : s.calls[j]? = some d) {g : Handshake}
    (hg : (d.party.stream.other, g) ∈ s.received) : g = d.party.hello ∧ d.Sent := by
  rcases reach.readFrom lawful _ _ hg with hs | hadv
  · rw [NoiseStream.other_other] at hs
    obtain ⟨j', d', hj', hdt, rfl, hsent⟩ := reach.origins.sent _ _ hs
    obtain ⟨rfl, rfl⟩ := reach.call_unique hj' hj hdt
    exact ⟨rfl, hsent⟩
  · rw [NoiseStream.other_other] at hadv
    exact absurd rfl (reach.adversarial hadv hj)

theorem outboundCheck_hello {p q : Party} (facing : q.stream = p.stream.other)
    (same : q.genesis = p.genesis) (peer : PublicKey) :
    outboundCheck p.stream.sessionId p.genesis peer q.hello =
      if q.me.public = peer then .ok () else .error .peerMismatch := by
  by_cases hk : q.me.public = peer <;>
    simp [outboundCheck, hk, same, facing, Party.hello, SecretKey.signMsg, Signed.verify,
      Except.mapError]

theorem inboundCheck_hello {p q : Party} (facing : q.stream = p.stream.other) :
    inboundCheck q.stream.sessionId q.genesis p.hello =
      if p.genesis = q.genesis then .ok () else .error .genesisMismatch := by
  by_cases hg : p.genesis = q.genesis <;>
    simp [inboundCheck, hg, facing, Party.hello, SecretKey.signMsg, Signed.verify, Except.mapError]

section
variable (lawful : net.wire.Lawful) (reach : net.Reachable s) {i j : Nat} {p q : Party}
  {peer : PublicKey} {pc : Outbound} {qc : Inbound}
  (hi : s.calls[i]? = some (.outbound p peer pc)) (hj : s.calls[j]? = some (.inbound q qc))
  (facing : q.stream = p.stream.other)
include lawful reach hi hj facing

theorem Reachable.facing_accepted {k : PublicKey} (hk : qc.accepted = some k) :
    k = p.me.public ∧ p.genesis = q.genesis ∧ pc ≠ .send := by
  obtain ⟨g, hg, hchk, rfl⟩ := (reach.accepts lawful).checked j q qc k hj hk
  rw [facing] at hg
  obtain ⟨hgp, hsent⟩ := reach.read_facing lawful hi hg
  obtain rfl : g = p.hello := hgp
  rw [inboundCheck_hello facing] at hchk
  exact ⟨rfl, by by_contra hne; simp [hne] at hchk, hsent⟩

theorem Reachable.facing_outbound_result {r : Except Error Unit} (hr : pc = .returned r) :
    (∃ e, r = .error (.stream e)) ∨
      (p.genesis = q.genesis ∧ r = (if q.me.public = peer then .ok () else .error .peerMismatch) ∧
        ∃ k, qc = .returned (.ok k)) := by
  subst hr
  rcases reach.explained i _ hi with hstream | ⟨g, hg, rfl⟩
  · exact .inl hstream
  rw [← NoiseStream.other_other p.stream, ← facing] at hg
  obtain ⟨rfl, k, hk⟩ := reach.read_facing lawful hj hg
  obtain ⟨-, same, -⟩ :=
    reach.facing_accepted lawful hi hj facing (k := k) (by simp [hk, Inbound.accepted])
  exact .inr ⟨same, outboundCheck_hello facing same.symm peer, k, hk⟩

theorem Reachable.facing_inbound_result {r : Except Error PublicKey} (hr : qc = .returned r) :
    (∃ e, r = .error (.stream e)) ∨
      r = if p.genesis = q.genesis then .ok p.me.public else .error .genesisMismatch := by
  subst hr
  cases r with
  | ok k =>
    obtain ⟨rfl, same, -⟩ := reach.facing_accepted lawful hi hj facing (k := k) rfl
    exact .inr (by simp [same])
  | error e =>
    rcases reach.explained j _ hj with ⟨e', rfl⟩ | ⟨g, hg, hchk⟩
    · exact .inl ⟨e', rfl⟩
    rw [facing] at hg
    obtain rfl : g = p.hello := (reach.read_facing lawful hi hg).1
    rw [inboundCheck_hello facing] at hchk
    by_cases same : p.genesis = q.genesis
    · simp [same] at hchk
    · simp only [same, if_false, Except.error.injEq] at hchk
      exact .inr (by simp [same, hchk])

end

def State.outboundResult (s : State S G) (i : Nat) : Option (Except Error Unit) :=
  match s.calls[i]? with
  | some (.outbound _ _ (.returned r)) => some r
  | _ => none

def State.inboundResult (s : State S G) (i : Nat) : Option (Except Error PublicKey) :=
  match s.calls[i]? with
  | some (.inbound _ (.returned r)) => some r
  | _ => none

def State.Waiting (s : State S G) (i : Nat) : Prop :=
  match s.calls[i]? with
  | some (.outbound p _ .recv) | some (.inbound p .recv) => s.inbox p.stream = []
  | _ => False

theorem outboundResult_eq_some {i : Nat} {p : Party} {peer : PublicKey} {pc : Outbound}
    (hi : s.calls[i]? = some (.outbound p peer pc)) {r : Except Error Unit} :
    s.outboundResult i = some r ↔ pc = .returned r := by
  cases pc <;> simp [State.outboundResult, hi]

theorem inboundResult_eq_some {j : Nat} {q : Party} {qc : Inbound}
    (hj : s.calls[j]? = some (.inbound q qc)) {r : Except Error PublicKey} :
    s.inboundResult j = some r ↔ qc = .returned r := by
  cases qc <;> simp [State.inboundResult, hj]

variable (net) in
def Pending (s : State S G) : Prop :=
  ∀ (i j : Nat) (p q : Party) (peer : PublicKey),
    s.calls[i]? = some (.outbound p peer .recv) → s.calls[j]? = some (.inbound q .recv) →
    q.stream = p.stream.other → Handshake.build net.wire p.hello ∈ s.inbox q.stream

theorem inbound_recv_before (h : net.step s l = some s') {j : Nat} {q : Party}
    (hj : s'.calls[j]? = some (.inbound q .recv)) : s.calls[j]? = some (.inbound q .recv) := by
  rcases step_getElem?_cases h hj with hjo | ⟨d, g, -, hs⟩ | ⟨d, m, rest, hd, -, hr, -⟩ | ⟨d, e, -, hf⟩
  · exact hjo
  · rcases (HandshakeCall.send_eq_some hs).2 with ⟨_, _, -, hd⟩ | ⟨_, _, -, hd⟩ <;> cases hd
  · rcases HandshakeCall.recv_eq_some hr with ⟨_, _, -, hd'⟩ | ⟨p', rfl, hd'⟩
    · cases hd'
    · simp only [HandshakeCall.inbound.injEq] at hd'
      obtain ⟨rfl, -⟩ := hd'
      exact hd
  · rcases HandshakeCall.fail_eq_some hf with ⟨_, _, _, -, hd⟩ | ⟨_, _, -, hd⟩ <;> cases hd

theorem outbound_recv_before (h : net.step s l = some s') {i : Nat} {p : Party}
    {peer : PublicKey} (hi : s'.calls[i]? = some (.outbound p peer .recv)) :
    s.calls[i]? = some (.outbound p peer .recv) ∨
      (s.calls[i]? = some (.outbound p peer .send) ∧
        s'.inbox = deliver s.inbox p.stream.other (Handshake.build net.wire p.hello)) := by
  rcases step_cases h with ⟨k, c, c', g, -, hc, hs, rfl⟩ | ⟨k, c, c', m, rest, -, hc, -, hr, rfl⟩ |
    ⟨k, e, c, c', -, hc, hf, rfl⟩ | ⟨t, m, -, -, -, rfl⟩
  · rcases getElem?_set_eq_some hi with ⟨rfl, rfl⟩ | ⟨-, hio⟩
    · obtain ⟨rfl, ⟨p', peer', rfl, hd⟩ | ⟨_, _, -, hd⟩⟩ := HandshakeCall.send_eq_some hs <;>
        cases hd
      exact .inr ⟨hc, rfl⟩
    · exact .inl hio
  · rcases getElem?_set_eq_some hi with ⟨rfl, rfl⟩ | ⟨-, hio⟩
    · rcases HandshakeCall.recv_eq_some hr with ⟨_, _, -, hd⟩ | ⟨_, -, hd⟩ <;> cases hd
    · exact .inl hio
  · rcases getElem?_set_eq_some hi with ⟨rfl, rfl⟩ | ⟨-, hio⟩
    · rcases HandshakeCall.fail_eq_some hf with ⟨_, _, _, -, hd⟩ | ⟨_, _, -, hd⟩ <;> cases hd
    · exact .inl hio
  · exact .inl hi

theorem inbound_ok_before (h : net.step s l = some s') {j : Nat} {q : Party} {k : PublicKey}
    (hj : s'.calls[j]? = some (.inbound q (.returned (.ok k)))) :
    s.calls[j]? = some (.inbound q (.returned (.ok k))) ∨
      s'.inbox = deliver s.inbox q.stream.other (Handshake.build net.wire q.hello) := by
  rcases step_cases h with ⟨k', c, c', g, -, hc, hs, rfl⟩ | ⟨k', c, c', m, rest, -, hc, -, hr, rfl⟩ |
    ⟨k', e, c, c', -, hc, hf, rfl⟩ | ⟨t, m, -, -, -, rfl⟩
  · rcases getElem?_set_eq_some hj with ⟨rfl, rfl⟩ | ⟨-, hjo⟩
    · obtain ⟨rfl, ⟨_, _, -, hd⟩ | ⟨q', g', rfl, hd⟩⟩ := HandshakeCall.send_eq_some hs <;>
        cases hd
      exact .inr rfl
    · exact .inl hjo
  · rcases getElem?_set_eq_some hj with ⟨rfl, rfl⟩ | ⟨-, hjo⟩
    · exact absurd rfl ((HandshakeCall.recv_moves hr).2 _ _)
    · exact .inl hjo
  · rcases getElem?_set_eq_some hj with ⟨rfl, rfl⟩ | ⟨-, hjo⟩
    · rcases HandshakeCall.fail_eq_some hf with ⟨_, _, _, -, hd⟩ | ⟨_, _, -, hd⟩ <;> cases hd
    · exact .inl hjo
  · exact .inl hj

theorem mem_inbox_step (reach : net.Reachable s) (h : net.step s l = some s') {j : Nat}
    {d : HandshakeCall} (hj : s.calls[j]? = some d) (hj' : s'.calls[j]? = some d)
    {m : HandshakeProto S G} (hm : m ∈ s.inbox d.party.stream) : m ∈ s'.inbox d.party.stream := by
  rcases step_cases h with ⟨k, c, c', g, -, -, -, rfl⟩ | ⟨k, c, c', m', rest, -, hc, -, hr, rfl⟩ |
    ⟨k, e, c, c', -, -, -, rfl⟩ | ⟨t, m', -, -, -, rfl⟩
  · exact mem_deliver.mpr (.inl hm)
  · by_cases hq : d.party.stream = c.party.stream
    · -- only the call on that end receives there, and a receive moves it on
      obtain ⟨rfl, rfl⟩ := reach.call_unique hj hc hq
      rcases getElem?_set_eq_some hj' with ⟨-, hc'⟩ | ⟨hne, -⟩
      · exact absurd hc'.symm (HandshakeCall.recv_moves hr).1
      · exact absurd rfl hne
    · simpa [Function.update_noteq hq] using hm
  · exact hm
  · exact mem_deliver.mpr (.inl hm)

theorem Pending.step (reach : net.Reachable s) (hp : Pending net s) (h : net.step s l = some s') :
    Pending net s' := by
  intro i j p q peer hi hj facing
  have hj₀ := inbound_recv_before h hj
  rcases outbound_recv_before h hi with hi₀ | ⟨-, hinbox⟩
  · exact mem_inbox_step reach h hj₀ hj (hp i j p q peer hi₀ hj₀ facing)
  · -- the action was the `outbound`'s send
    rw [hinbox, facing]
    exact mem_deliver.mpr (.inr ⟨rfl, rfl⟩)

theorem Reachable.pending (reach : net.Reachable s) : Pending net s := by
  induction reach with
  | start =>
    intro i j p q peer hi
    have := net.fresh _ (List.getElem?_mem hi)
    simp [HandshakeCall.Fresh] at this
  | step reach h ih => exact ih.step reach h

theorem Reachable.not_both_waiting (reach : net.Reachable s) {i j : Nat} {p q : Party}
    {peer : PublicKey} {pc : Outbound} {qc : Inbound} (hi : s.calls[i]? = some (.outbound p peer pc))
    (hj : s.calls[j]? = some (.inbound q qc)) (facing : q.stream = p.stream.other) :
    ¬ (s.Waiting i ∧ s.Waiting j) := by
  rintro ⟨hwi, hwj⟩
  cases pc <;> cases qc <;> simp only [State.Waiting, hi, hj] at hwi hwj
  have := reach.pending i j p q peer hi hj facing
  rw [hwj] at this
  exact List.not_mem_nil _ this

/-- In every reachable state, a facing `outbound` and `inbound` have each returned a
stream error or what they return alone, and never both wait to receive. -/
theorem honest_connection_outcomes (lawful : net.wire.Lawful) (reach : net.Reachable s)
    {i j : Nat} {p q : Party} {peer : PublicKey} {pc : Outbound} {qc : Inbound}
    (hi : s.calls[i]? = some (.outbound p peer pc)) (hj : s.calls[j]? = some (.inbound q qc))
    (facing : q.stream = p.stream.other) :
    (∀ r, pc = .returned r → (∃ e, r = .error (.stream e)) ∨
      (p.genesis = q.genesis ∧ r = if q.me.public = peer then .ok () else .error .peerMismatch)) ∧
    (∀ r, qc = .returned r → (∃ e, r = .error (.stream e)) ∨
      r = if p.genesis = q.genesis then .ok p.me.public else .error .genesisMismatch) ∧
    ¬ (s.Waiting i ∧ s.Waiting j) :=
  ⟨fun _ hr => (reach.facing_outbound_result lawful hi hj facing hr).imp id fun h => ⟨h.1, h.2.1⟩,
    fun _ => reach.facing_inbound_result lawful hi hj facing, reach.not_both_waiting hi hj facing⟩

def connAlice : Party := ⟨⟨1⟩, ⟨7⟩, ⟨0, false⟩⟩

def connBob : Party := ⟨⟨2⟩, ⟨7⟩, ⟨0, true⟩⟩

def connectionNet : Network Signed GenesisHash where
  wire := Wire.plain
  calls := [.outbound connAlice ⟨2⟩ .send, .inbound connBob .recv,
    .inbound ⟨⟨3⟩, ⟨7⟩, ⟨1, false⟩⟩ .recv]
  corrupt := fun k => k.id == 9
  fresh := by simp [HandshakeCall.Fresh]
  ends_nodup := by simp [connAlice, connBob]
  honest := by simp [connAlice, connBob, SecretKey.public]

def adversaryHello : Handshake := ⟨(⟨9⟩ : SecretKey).signMsg ⟨1⟩, ⟨7⟩⟩

def connection : List (Label Signed GenesisHash) :=
  [.send 0, .inject ⟨1, false⟩ (Handshake.build Wire.plain adversaryHello), .recv 1, .recv 2,
    .send 1, .send 2, .recv 0]

def connected : State Signed GenesisHash :=
  (connectionNet.run connectionNet.start connection).getD connectionNet.start

theorem connected_reachable : connectionNet.Reachable connected :=
  Reachable.start.of_run
    (show connectionNet.run connectionNet.start connection = some connected from rfl)

theorem honest_connection_outcomes_connected :
    connectionNet.wire.Lawful ∧
    connected.calls[0]? = some (.outbound connAlice ⟨2⟩ (.returned (.ok ()))) ∧
    connected.calls[1]? = some (.inbound connBob (.returned (.ok ⟨1⟩))) ∧
    connBob.stream = connAlice.stream.other ∧
    (∀ r, Outbound.returned (.ok ()) = .returned r → (∃ e, r = .error (.stream e)) ∨
      (connAlice.genesis = connBob.genesis ∧
        r = if connBob.me.public = ⟨2⟩ then .ok () else .error .peerMismatch)) ∧
    (∀ r, Inbound.returned (.ok ⟨1⟩) = .returned r → (∃ e, r = .error (.stream e)) ∨
      r = if connAlice.genesis = connBob.genesis then .ok connAlice.me.public
        else .error .genesisMismatch) ∧
    ¬ (connected.Waiting 0 ∧ connected.Waiting 1) :=
  ⟨Wire.plain_lawful, rfl, rfl, rfl,
    honest_connection_outcomes Wire.plain_lawful connected_reachable rfl rfl rfl⟩

variable (net) in
def Replied (s : State S G) : Prop :=
  ∀ (i j : Nat) (p q : Party) (peer k : PublicKey),
    s.calls[i]? = some (.outbound p peer .recv) →
    s.calls[j]? = some (.inbound q (.returned (.ok k))) →
    q.stream = p.stream.other → Handshake.build net.wire q.hello ∈ s.inbox p.stream

theorem Replied.step (lawful : net.wire.Lawful) (reach : net.Reachable s) (hr : Replied net s)
    (h : net.step s l = some s') : Replied net s' := by
  intro i j p q peer k hi hj facing
  rcases inbound_ok_before h hj with hj₀ | hinbox
  · rcases outbound_recv_before h hi with hi₀ | ⟨hi₀, -⟩
    · exact mem_inbox_step reach h hi₀ hi (hr i j p q peer k hi₀ hj₀ facing)
    · -- the `inbound` accepted only once the `outbound` had sent
      exact absurd rfl (reach.facing_accepted lawful hi₀ hj₀ facing rfl).2.2
  · -- the action was the `inbound`'s send
    rw [hinbox, facing, NoiseStream.other_other]
    exact mem_deliver.mpr (.inr ⟨rfl, rfl⟩)

theorem Reachable.replied (lawful : net.wire.Lawful) (reach : net.Reachable s) :
    Replied net s := by
  induction reach with
  | start =>
    intro i j p q peer k _ hj
    have := net.fresh _ (List.getElem?_mem hj)
    simp [HandshakeCall.Fresh] at this
  | step reach h ih => exact ih.step lawful reach h

theorem index_ne {i j : Nat} {p q : Party} {peer : PublicKey} {pc : Outbound} {qc : Inbound}
    (hi : s.calls[i]? = some (.outbound p peer pc)) (hj : s.calls[j]? = some (.inbound q qc)) :
    i ≠ j := by
  rintro rfl
  simp [hi] at hj

theorem Reachable.inbox_head (reach : net.Reachable s) {i : Nat} {d : HandshakeCall}
    (hi : s.calls[i]? = some d)
    (hm : Handshake.build net.wire d.party.hello ∈ s.inbox d.party.stream.other) :
    ∃ rest, s.inbox d.party.stream.other = Handshake.build net.wire d.party.hello :: rest := by
  cases hin : s.inbox d.party.stream.other with
  | nil => simp [hin] at hm
  | cons m rest =>
    refine ⟨rest, ?_⟩
    rcases reach.origins.inbox _ m (hin ▸ List.mem_cons_self m rest) with
      ⟨j, d', hj, hdt, rfl, -⟩ | ⟨hadv, -⟩
    · rw [NoiseStream.other_other] at hdt
      obtain ⟨rfl, rfl⟩ := reach.call_unique hj hi hdt
      rfl
    · rw [NoiseStream.other_other] at hadv
      exact absurd rfl (reach.adversarial hadv hi)

theorem step_send_some {k : Nat} {c c' : HandshakeCall} {g : Handshake}
    (hc : s.calls[k]? = some c) (hs : c.send = some (c', g)) :
    net.step s (.send k) =
      some { s with calls := s.calls.set k c',
                    inbox := deliver s.inbox c.party.stream.other (Handshake.build net.wire g),
                    sent := s.sent ++ [(c.party.stream, g)] } := by
  simp [step, hc, hs]

theorem step_recv_some {k : Nat} {c c' : HandshakeCall} {m : HandshakeProto S G}
    {rest : List (HandshakeProto S G)} (hc : s.calls[k]? = some c)
    (hm : s.inbox c.party.stream = m :: rest) (hr : c.recv (Handshake.read net.wire m) = some c') :
    net.step s (.recv k) =
      some { s with calls := s.calls.set k c', inbox := Function.update s.inbox c.party.stream rest,
                    received := s.received ++ readLog c.party.stream (Handshake.read net.wire m) } := by
  simp [step, hc, hm, hr]

theorem run_singleton {t : State S G} (h : net.step s l = some t) : net.run s [l] = some t := by
  simp [run, h]

theorem run_allowed_cons {L : List (Label S G)} {P : State S G → Prop}
    (hstep : net.step s l = some s') (hl : l ∈ L)
    (h : ∃ ls t, net.run s' ls = some t ∧ ls ⊆ L ∧ P t) :
    ∃ ls t, net.run s ls = some t ∧ ls ⊆ L ∧ P t := by
  obtain ⟨ls, t, ht, hls, hp⟩ := h
  exact ⟨l :: ls, t, run_cons.mpr ⟨_, hstep, ht⟩, List.cons_subset.mpr ⟨hl, hls⟩, hp⟩

/-- The pair's calls have returned what they return alone. -/
def Completed (s : State S G) (i j : Nat) (p q : Party) (peer : PublicKey) : Prop :=
  s.inboundResult j =
    some (if p.genesis = q.genesis then .ok p.me.public else .error .genesisMismatch) ∧
  (p.genesis = q.genesis →
    s.outboundResult i = some (if q.me.public = peer then .ok () else .error .peerMismatch))

section
variable (lawful : net.wire.Lawful) {i j : Nat} {p q : Party} {peer : PublicKey}
  (facing : q.stream = p.stream.other)
include lawful facing

theorem Reachable.finish_reply (reach : net.Reachable s) {k : PublicKey}
    (hi : s.calls[i]? = some (.outbound p peer .recv))
    (hj : s.calls[j]? = some (.inbound q (.returned (.ok k)))) :
    ∃ ls t, net.run s ls = some t ∧ ls ⊆ [.send i, .recv i, .send j, .recv j] ∧
      Completed t i j p q peer := by
  obtain ⟨rfl, same, -⟩ := reach.facing_accepted lawful hi hj facing rfl
  have hij := index_ne hi hj
  have hm := reach.replied lawful i j p q peer _ hi hj facing
  rw [← NoiseStream.other_other p.stream, ← facing] at hm
  obtain ⟨rest, hin⟩ := reach.inbox_head hj hm
  simp only [HandshakeCall.party_inbound, facing, NoiseStream.other_other] at hin
  have hstep : net.step s (.recv i) = some _ := step_recv_some hi hin rfl
  refine ⟨[.recv i], _, run_singleton hstep, by simp, ?_, fun _ => ?_⟩
  · simp [State.inboundResult, List.getElem?_set_ne hij, hj, same]
  · simp [State.outboundResult, List.getElem?_set_self (List.getElem?_eq_some_iff.mp hi).1,
      Handshake.read_build lawful, Outbound.afterRecv, outboundCheck_hello facing same.symm]

theorem Reachable.finish_send (reach : net.Reachable s) {pc : Outbound} {g : Handshake}
    (hi : s.calls[i]? = some (.outbound p peer pc)) (hj : s.calls[j]? = some (.inbound q (.send g)))
    (hpc : ∀ e, pc ≠ .returned (.error (.stream e))) :
    ∃ ls t, net.run s ls = some t ∧ ls ⊆ [.send i, .recv i, .send j, .recv j] ∧
      Completed t i j p q peer := by
  obtain ⟨hk, same, hsent⟩ := reach.facing_accepted lawful hi hj facing rfl
  have hij := index_ne hi hj
  have hstep : net.step s (.send j) = some _ := step_send_some hj rfl
  have reach₁ := reach.step hstep
  have hj₁ : (s.calls.set j (.inbound q (.returned (.ok g.sessionId.key))))[j]? =
      some (.inbound q (.returned (.ok g.sessionId.key))) :=
    List.getElem?_set_self (List.getElem?_eq_some_iff.mp hj).1
  have hi₁ : (s.calls.set j (.inbound q (.returned (.ok g.sessionId.key))))[i]? =
      some (.outbound p peer pc) := by rw [List.getElem?_set_ne (Ne.symm hij), hi]
  cases pc with
  | send => exact (hsent rfl).elim
  | recv => exact run_allowed_cons hstep (by simp) (reach₁.finish_reply lawful facing hi₁ hj₁)
  | returned r =>
    rcases reach.facing_outbound_result lawful hi hj facing rfl with ⟨e, rfl⟩ | ⟨-, hr, -⟩
    · exact (hpc e rfl).elim
    refine ⟨[.send j], _, run_singleton hstep, by simp, ?_, fun _ => ?_⟩
    · simp only [State.inboundResult, hj₁]
      simp [same, hk]
    · simp [State.outboundResult, hi₁, hr]

theorem Reachable.finish_recv (reach : net.Reachable s)
    (hi : s.calls[i]? = some (.outbound p peer .recv)) (hj : s.calls[j]? = some (.inbound q .recv)) :
    ∃ ls t, net.run s ls = some t ∧ ls ⊆ [.send i, .recv i, .send j, .recv j] ∧
      Completed t i j p q peer := by
  have hij := index_ne hi hj
  have hm := reach.pending i j p q peer hi hj facing
  rw [facing] at hm
  obtain ⟨rest, hin⟩ := reach.inbox_head hi hm
  simp only [HandshakeCall.party_outbound, ← facing] at hin
  have hstep : net.step s (.recv j) = some _ := step_recv_some hj hin rfl
  have reach₁ := reach.step hstep
  have hlen := (List.getElem?_eq_some_iff.mp hj).1
  have hi₁ : (s.calls.set j (.inbound q (Inbound.afterRecv q
      (Handshake.read net.wire (Handshake.build net.wire p.hello)))))[i]? =
      some (.outbound p peer .recv) := by rw [List.getElem?_set_ne (Ne.symm hij), hi]
  have hafter : Inbound.afterRecv q (Handshake.read net.wire (Handshake.build net.wire p.hello)) =
      if p.genesis = q.genesis then .send p.hello else .returned (.error .genesisMismatch) := by
    rw [Handshake.read_build lawful, Inbound.afterRecv, inboundCheck_hello facing]
    split_ifs <;> rfl
  by_cases same : p.genesis = q.genesis
  · have hj₁ : (s.calls.set j (.inbound q (Inbound.afterRecv q
        (Handshake.read net.wire (Handshake.build net.wire p.hello)))))[j]? =
        some (.inbound q (.send p.hello)) := by
      rw [List.getElem?_set_self hlen, hafter, if_pos same]
    exact run_allowed_cons hstep (by simp)
      (reach₁.finish_send lawful facing hi₁ hj₁ fun _ => Outbound.noConfusion)
  · refine ⟨[.recv j], _, run_singleton hstep, by simp, ?_, fun h => (same h).elim⟩
    simp [State.inboundResult, List.getElem?_set_self hlen, hafter, same]

theorem Reachable.finish_start (reach : net.Reachable s)
    (hi : s.calls[i]? = some (.outbound p peer .send)) (hj : s.calls[j]? = some (.inbound q .recv)) :
    ∃ ls t, net.run s ls = some t ∧ ls ⊆ [.send i, .recv i, .send j, .recv j] ∧
      Completed t i j p q peer := by
  have hij := index_ne hi hj
  have hstep : net.step s (.send i) = some _ := step_send_some hi rfl
  have hi₁ : (s.calls.set i (.outbound p peer .recv))[i]? = some (.outbound p peer .recv) :=
    List.getElem?_set_self (List.getElem?_eq_some_iff.mp hi).1
  have hj₁ : (s.calls.set i (.outbound p peer .recv))[j]? = some (.inbound q .recv) := by
    rw [List.getElem?_set_ne hij, hj]
  exact run_allowed_cons hstep (by simp) ((reach.step hstep).finish_recv lawful facing hi₁ hj₁)

theorem Reachable.finish (reach : net.Reachable s) {pc : Outbound} {qc : Inbound}
    (hi : s.calls[i]? = some (.outbound p peer pc)) (hj : s.calls[j]? = some (.inbound q qc))
    (hpc : ∀ e, pc ≠ .returned (.error (.stream e)))
    (hqc : ∀ e, qc ≠ .returned (.error (.stream e))) :
    ∃ ls t, net.run s ls = some t ∧ ls ⊆ [.send i, .recv i, .send j, .recv j] ∧
      Completed t i j p q peer := by
  have mismatch : ∀ e, qc = .returned (.error e) → ∃ ls t, net.run s ls = some t ∧
      ls ⊆ [.send i, .recv i, .send j, .recv j] ∧ Completed t i j p q peer := by
    rintro e rfl
    rcases reach.facing_inbound_result lawful hi hj facing rfl with ⟨e', he⟩ | he
    · exact (hqc e' (by rw [Except.error.inj he])).elim
    by_cases same : p.genesis = q.genesis
    · simp [same] at he
    · exact ⟨[], s, rfl, by simp, by simp [State.inboundResult, hj, he, same],
        fun h => (same h).elim⟩
  cases pc with
  | send =>
    cases qc with
    | recv => exact reach.finish_start lawful facing hi hj
    | send g => exact absurd rfl (reach.facing_accepted lawful hi hj facing rfl).2.2
    | returned r =>
      cases r with
      | ok k => exact absurd rfl (reach.facing_accepted lawful hi hj facing rfl).2.2
      | error e => exact mismatch e rfl
  | recv =>
    cases qc with
    | recv => exact reach.finish_recv lawful facing hi hj
    | send g => exact reach.finish_send lawful facing hi hj hpc
    | returned r =>
      cases r with
      | ok k => exact reach.finish_reply lawful facing hi hj
      | error e => exact mismatch e rfl
  | returned r =>
    rcases reach.facing_outbound_result lawful hi hj facing rfl with ⟨e, rfl⟩ | ⟨same, hr, k, rfl⟩
    · exact (hpc e rfl).elim
    obtain ⟨rfl, -, -⟩ := reach.facing_accepted lawful hi hj facing rfl
    exact ⟨[], s, rfl, by simp, by simp [State.inboundResult, hj, same],
      fun _ => by simp [State.outboundResult, hi, hr]⟩

end

/-- Without stream errors, the pair's own actions complete its handshake with what it
returns alone: the adversary cannot block it. -/
theorem honest_connection_completes (lawful : net.wire.Lawful) (reach : net.Reachable s)
    {i j : Nat} {p q : Party} {peer : PublicKey} {pc : Outbound} {qc : Inbound}
    (hi : s.calls[i]? = some (.outbound p peer pc)) (hj : s.calls[j]? = some (.inbound q qc))
    (facing : q.stream = p.stream.other) (hpc : ∀ e, pc ≠ .returned (.error (.stream e)))
    (hqc : ∀ e, qc ≠ .returned (.error (.stream e))) :
    ∃ ls t, net.run s ls = some t ∧ ls ⊆ [.send i, .recv i, .send j, .recv j] ∧
      t.inboundResult j =
        some (if p.genesis = q.genesis then .ok p.me.public else .error .genesisMismatch) ∧
      (p.genesis = q.genesis →
        t.outboundResult i = some (if q.me.public = peer then .ok () else .error .peerMismatch)) :=
  reach.finish lawful facing hi hj hpc hqc

theorem honest_connection_completes_start :
    connectionNet.wire.Lawful ∧
    connectionNet.start.calls[0]? = some (.outbound connAlice ⟨2⟩ .send) ∧
    connectionNet.start.calls[1]? = some (.inbound connBob .recv) ∧
    connBob.stream = connAlice.stream.other ∧
    (∀ e, Outbound.send ≠ .returned (.error (.stream e))) ∧
    (∀ e, Inbound.recv ≠ .returned (.error (.stream e))) ∧
    ∃ ls t, connectionNet.run connectionNet.start ls = some t ∧
      ls ⊆ [.send 0, .recv 0, .send 1, .recv 1] ∧
      t.inboundResult 1 = some (if connAlice.genesis = connBob.genesis then .ok connAlice.me.public
        else .error .genesisMismatch) ∧
      (connAlice.genesis = connBob.genesis → t.outboundResult 0 =
        some (if connBob.me.public = ⟨2⟩ then .ok () else .error .peerMismatch)) :=
  ⟨Wire.plain_lawful, rfl, rfl, rfl, fun _ => Outbound.noConfusion, fun _ => Inbound.noConfusion,
    honest_connection_completes Wire.plain_lawful .start rfl rfl rfl
      (fun _ => Outbound.noConfusion) (fun _ => Inbound.noConfusion)⟩

end Network

end EraConsensus
