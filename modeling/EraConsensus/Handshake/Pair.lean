import EraConsensus.Handshake.Connection

/-! An honest pair on one connection: without stream errors it completes as it does alone. -/

namespace EraConsensus

structure HonestPair (S G : Type) where
  wire : Wire S G
  a : SecretKey
  b : SecretKey
  genesisA : GenesisHash
  genesisB : GenesisHash
  peer : PublicKey
  id : Nat

namespace Network.Label

def Reliable {S G : Type} : Label S G → Prop
  | .fail _ _ => False
  | _ => True

end Network.Label

namespace HandshakeCall

def StreamFailed : HandshakeCall → Prop
  | .outbound _ _ pc => ∃ e, pc = .returned (.error (.stream e))
  | .inbound _ qc => ∃ e, qc = .returned (.error (.stream e))

theorem not_streamFailed_of_recv_ok {c c' : HandshakeCall} {g : Handshake}
    (hr : c.recv (.ok g) = some c') : ¬ c'.StreamFailed := by
  rcases recv_eq_some hr with ⟨p, peer, -, rfl⟩ | ⟨p, -, rfl⟩ <;> rintro ⟨e, he⟩
  · simp only [Outbound.afterRecv, Outbound.returned.injEq, outboundCheck] at he
    split_ifs at he <;> first | cases he | cases h : g.sessionId.verify <;> simp [h, Except.mapError] at he
  · simp only [Inbound.afterRecv] at he
    split at he
    · cases he
    · next e' hchk =>
      simp only [Inbound.returned.injEq, Except.error.injEq] at he
      subst he
      simp only [inboundCheck] at hchk
      split_ifs at hchk <;> first | cases hchk |
        cases h : g.sessionId.verify <;> simp [h, Except.mapError] at hchk

theorem Fresh.not_streamFailed : ∀ {c : HandshakeCall}, c.Fresh → ¬ c.StreamFailed
  | .outbound _ _ _, rfl, ⟨_, h⟩ => Outbound.noConfusion h
  | .inbound _ _, rfl, ⟨_, h⟩ => Inbound.noConfusion h

end HandshakeCall

namespace Network

variable {S G : Type} {net : Network S G} {s s' t : State S G} {l : Label S G}

theorem streamFailed_before (lawful : net.wire.Lawful) (reach : net.Reachable s)
    (h : net.step s l = some s') (hl : l.Reliable) {k : Nat} {c' : HandshakeCall}
    (hk : s'.calls[k]? = some c') (hc' : c'.StreamFailed)
    (honest : ¬ net.Adversarial c'.party.stream.other) :
    ∃ c, s.calls[k]? = some c ∧ c.party = c'.party ∧ c.StreamFailed := by
  rcases step_cases h with ⟨k', c, c'', g, -, hc, hs, rfl⟩ |
    ⟨k', c, c'', m, rest, -, hc, hm, hr, rfl⟩ | ⟨k', e, c, c'', rfl, -, -, -⟩ | ⟨u, m, -, -, -, rfl⟩
  · rcases getElem?_set_eq_some hk with ⟨rfl, rfl⟩ | ⟨-, hko⟩
    · rcases (HandshakeCall.send_eq_some hs).2 with ⟨_, _, -, rfl⟩ | ⟨_, _, -, rfl⟩ <;>
        simp [HandshakeCall.StreamFailed] at hc'
    · exact ⟨c', hko, rfl, hc'⟩
  · rcases getElem?_set_eq_some hk with ⟨rfl, rfl⟩ | ⟨-, hko⟩
    · rcases reach.origins.inbox _ m (hm ▸ List.mem_cons_self m rest) with
        ⟨j, d, -, -, rfl, -⟩ | ⟨hadv, -⟩
      · rw [Handshake.read_build lawful] at hr
        exact absurd hc' (HandshakeCall.not_streamFailed_of_recv_ok hr)
      · rw [(HandshakeCall.recv_shape hr).1] at honest
        exact absurd hadv honest
    · exact ⟨c', hko, rfl, hc'⟩
  · exact hl.elim
  · exact ⟨c', hk, rfl, hc'⟩

theorem Reachable.streamFailed_of_run (lawful : net.wire.Lawful) (reach : net.Reachable s)
    {ls : List (Label S G)} (reliable : ∀ l ∈ ls, l.Reliable) (h : net.run s ls = some t)
    {k : Nat} {c' : HandshakeCall} (hk : t.calls[k]? = some c') (hc' : c'.StreamFailed)
    (honest : ¬ net.Adversarial c'.party.stream.other) :
    ∃ c, s.calls[k]? = some c ∧ c.party = c'.party ∧ c.StreamFailed := by
  induction ls generalizing s with
  | nil => cases h; exact ⟨c', hk, rfl, hc'⟩
  | cons l ls ih =>
    obtain ⟨s₁, h₁, hr⟩ := run_cons.mp h
    obtain ⟨c₁, hk₁, hp₁, hc₁⟩ :=
      ih (reach.step h₁) (fun l' hl' => reliable l' (List.mem_cons_of_mem _ hl')) hr
    obtain ⟨c, hk₀, hp, hc⟩ := streamFailed_before lawful reach h₁
      (reliable l (List.mem_cons_self _ _)) hk₁ hc₁ (by rwa [hp₁])
    exact ⟨c, hk₀, hp.trans hp₁, hc⟩

end Network

namespace HonestPair

variable {S G : Type} (pr : HonestPair S G)

def alice : Party := ⟨pr.a, pr.genesisA, ⟨pr.id, false⟩⟩

def bob : Party := ⟨pr.b, pr.genesisB, ⟨pr.id, true⟩⟩

def net : Network S G where
  wire := pr.wire
  calls := [.outbound pr.alice pr.peer .send, .inbound pr.bob .recv]
  corrupt := fun _ => false
  fresh := by simp [HandshakeCall.Fresh]
  ends_nodup := by simp [alice, bob, HandshakeCall.party]
  honest := by simp

variable {pr} {s t : Network.State S G}

theorem calls_of_reachable (reach : pr.net.Reachable s) :
    ∃ pc qc, s.calls[0]? = some (.outbound pr.alice pr.peer pc) ∧
      s.calls[1]? = some (.inbound pr.bob qc) := by
  obtain ⟨d, hd, hdp, hdr⟩ := Network.shape_getElem? reach.shape_eq.symm
    (show pr.net.calls[0]? = some (.outbound pr.alice pr.peer .send) from rfl)
  obtain ⟨d', hd', hdp', hdr'⟩ := Network.shape_getElem? reach.shape_eq.symm
    (show pr.net.calls[1]? = some (.inbound pr.bob .recv) from rfl)
  rcases d with ⟨p, peer, pc⟩ | ⟨p, pc⟩ <;> rcases d' with ⟨q, peer', qc⟩ | ⟨q, qc⟩ <;>
    simp only [HandshakeCall.party, HandshakeCall.role, reduceCtorEq, Role.outbound.injEq] at hdp hdr hdp' hdr'
  subst hdp hdr hdp'
  exact ⟨pc, qc, hd, hd'⟩

theorem no_stream_error (lawful : pr.wire.Lawful) {ls : List (Network.Label S G)}
    (reliable : ∀ l ∈ ls, l.Reliable) (h : pr.net.run pr.net.start ls = some t) {pc : Outbound}
    {qc : Inbound} (hi : t.calls[0]? = some (.outbound pr.alice pr.peer pc))
    (hj : t.calls[1]? = some (.inbound pr.bob qc)) :
    (∀ e, pc ≠ .returned (.error (.stream e))) ∧ (∀ e, qc ≠ .returned (.error (.stream e))) := by
  have fresh {k : Nat} {c : HandshakeCall} (hc : pr.net.start.calls[k]? = some c) : ¬ c.StreamFailed :=
    (pr.net.fresh c (List.getElem?_mem hc)).not_streamFailed
  refine ⟨fun e he => ?_, fun e he => ?_⟩
  · obtain ⟨c, hc, -, hf⟩ := Network.Reachable.start.streamFailed_of_run lawful reliable h hi
      ⟨e, he⟩ fun ha => ha (.inbound pr.bob .recv) (by simp [net]) rfl
    exact fresh hc hf
  · obtain ⟨c, hc, -, hf⟩ := Network.Reachable.start.streamFailed_of_run lawful reliable h hj
      ⟨e, he⟩ fun ha => ha (.outbound pr.alice pr.peer .send) (by simp [net]) rfl
    exact fresh hc hf

theorem reliable_of_subset {ls : List (Network.Label S G)} (hls : ls ⊆ [.send 0, .recv 0, .send 1, .recv 1]) :
    ∀ l ∈ ls, l.Reliable := fun l hl => by
  obtain rfl | rfl | rfl | rfl : l = .send 0 ∨ l = .recv 0 ∨ l = .send 1 ∨ l = .recv 1 := by
    simpa using hls hl
  all_goals trivial

end HonestPair

variable {S G : Type}

open HonestPair in
/-- Completeness and genesis isolation of two honest nodes over every run without stream
errors: both return `Ok` exactly when the geneses agree and `peer` is `b`'s key. -/
theorem handshake_pair (pr : HonestPair S G) (lawful : pr.wire.Lawful) :
    ((∃ (ls : List (Network.Label S G)) (t : Network.State S G) (k : PublicKey),
        (∀ l ∈ ls, l.Reliable) ∧ pr.net.run pr.net.start ls = some t ∧
        t.outboundResult 0 = some (.ok ()) ∧ t.inboundResult 1 = some (.ok k)) ↔
      pr.genesisA = pr.genesisB ∧ pr.peer = pr.b.public) ∧
    ∀ (ls : List (Network.Label S G)) (t : Network.State S G), (∀ l ∈ ls, l.Reliable) →
      pr.net.run pr.net.start ls = some t →
      (∀ r, t.outboundResult 0 = some r → pr.genesisA = pr.genesisB ∧
        r = if pr.b.public = pr.peer then .ok () else .error .peerMismatch) ∧
      (∀ r, t.inboundResult 1 = some r →
        r = if pr.genesisA = pr.genesisB then .ok pr.a.public else .error .genesisMismatch) ∧
      ¬ (t.Waiting 0 ∧ t.Waiting 1) ∧
      ∃ (ls' : List (Network.Label S G)) (t' : Network.State S G), (∀ l ∈ ls', l.Reliable) ∧
        pr.net.run t ls' = some t' ∧
        t'.inboundResult 1 =
          some (if pr.genesisA = pr.genesisB then .ok pr.a.public else .error .genesisMismatch) ∧
        (pr.genesisA = pr.genesisB → t'.outboundResult 0 =
          some (if pr.b.public = pr.peer then .ok () else .error .peerMismatch)) := by
  have facing : pr.bob.stream = pr.alice.stream.other := rfl
  refine ⟨⟨fun ⟨ls, t, k, hl, h, hout, _⟩ => ?_, fun ⟨hg, hp⟩ => ?_⟩, fun ls t hl h => ?_⟩
  · have reach := Network.Reachable.start.of_run h
    obtain ⟨pc, qc, hi, hj⟩ := calls_of_reachable reach
    rcases reach.facing_outbound_result lawful hi hj facing ((Network.outboundResult_eq_some hi).mp hout)
      with ⟨e, he⟩ | ⟨hg, hr, -⟩
    · cases he
    · split_ifs at hr with hp
      exact ⟨hg, hp.symm⟩
  · obtain ⟨ls, t, h, hls, hin, hout⟩ := Network.Reachable.start.finish lawful facing
      (show pr.net.start.calls[0]? = some (.outbound pr.alice pr.peer .send) from rfl)
      (show pr.net.start.calls[1]? = some (.inbound pr.bob .recv) from rfl)
      (fun _ => Outbound.noConfusion) (fun _ => Inbound.noConfusion)
    exact ⟨ls, t, pr.a.public, reliable_of_subset hls, h,
      by simpa [alice, bob, hp] using hout hg, by simpa [alice, bob, hg] using hin⟩
  · have reach := Network.Reachable.start.of_run h
    obtain ⟨pc, qc, hi, hj⟩ := calls_of_reachable reach
    obtain ⟨hpc, hqc⟩ := no_stream_error lawful hl h hi hj
    obtain ⟨ls', t', h', hls', hc⟩ := reach.finish lawful facing hi hj hpc hqc
    refine ⟨fun r hr => ?_, fun r hr => ?_, reach.not_both_waiting hi hj facing,
      ls', t', reliable_of_subset hls', h', hc⟩
    · have hr := (Network.outboundResult_eq_some hi).mp hr
      obtain ⟨hg, hr', -⟩ := (reach.facing_outbound_result lawful hi hj facing hr).resolve_left
        fun ⟨e, he⟩ => hpc e (he ▸ hr)
      exact ⟨hg, hr'⟩
    · have hr := (Network.inboundResult_eq_some hj).mp hr
      exact (reach.facing_inbound_result lawful hi hj facing hr).resolve_left
        fun ⟨e, he⟩ => hqc e (he ▸ hr)

def samplePair : HonestPair Signed GenesisHash := ⟨Wire.plain, ⟨1⟩, ⟨2⟩, ⟨7⟩, ⟨7⟩, ⟨2⟩, 0⟩

theorem handshake_pair_sample :
    samplePair.wire.Lawful ∧
    ((∃ (ls : List (Network.Label Signed GenesisHash)) (t : Network.State Signed GenesisHash) (k : PublicKey),
        (∀ l ∈ ls, l.Reliable) ∧ samplePair.net.run samplePair.net.start ls = some t ∧
        t.outboundResult 0 = some (.ok ()) ∧ t.inboundResult 1 = some (.ok k)) ↔
      samplePair.genesisA = samplePair.genesisB ∧ samplePair.peer = samplePair.b.public) ∧
    ∀ (ls : List (Network.Label Signed GenesisHash)) (t : Network.State Signed GenesisHash), (∀ l ∈ ls, l.Reliable) →
      samplePair.net.run samplePair.net.start ls = some t →
      (∀ r, t.outboundResult 0 = some r → samplePair.genesisA = samplePair.genesisB ∧
        r = if samplePair.b.public = samplePair.peer then .ok () else .error .peerMismatch) ∧
      (∀ r, t.inboundResult 1 = some r →
        r = if samplePair.genesisA = samplePair.genesisB then .ok samplePair.a.public else .error .genesisMismatch) ∧
      ¬ (t.Waiting 0 ∧ t.Waiting 1) ∧
      ∃ (ls' : List (Network.Label Signed GenesisHash)) (t' : Network.State Signed GenesisHash), (∀ l ∈ ls', l.Reliable) ∧
        samplePair.net.run t ls' = some t' ∧
        t'.inboundResult 1 =
          some (if samplePair.genesisA = samplePair.genesisB then .ok samplePair.a.public else .error .genesisMismatch) ∧
        (samplePair.genesisA = samplePair.genesisB → t'.outboundResult 0 =
          some (if samplePair.b.public = samplePair.peer then .ok () else .error .peerMismatch)) :=
  ⟨Wire.plain_lawful, handshake_pair samplePair Wire.plain_lawful⟩

end EraConsensus
