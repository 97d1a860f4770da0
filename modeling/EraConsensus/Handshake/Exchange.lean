import EraConsensus.Handshake.Auth
import Mathlib.Data.List.Nodup

/-! How much each end exchanges: at most one handshake each way, and nothing between two
facing `inbound` calls. -/

namespace EraConsensus

namespace HandshakeCall

def PastRecv : HandshakeCall → Prop
  | .outbound _ _ pc => ∃ r, pc = .returned r
  | .inbound _ pc => pc ≠ .recv

variable {c c' : HandshakeCall} {r : Except (List String) Handshake}

theorem not_pastRecv_of_recv (h : c.recv r = some c') : ¬ c.PastRecv := by
  rcases recv_eq_some h with ⟨p, peer, rfl, -⟩ | ⟨p, rfl, -⟩ <;> simp [PastRecv]

theorem pastRecv_of_recv (h : c.recv r = some c') : c'.PastRecv := by
  rcases recv_eq_some h with ⟨p, peer, -, rfl⟩ | ⟨p, -, rfl⟩
  · exact ⟨_, rfl⟩
  · unfold Inbound.afterRecv
    split
    · simp [PastRecv]
    · split <;> simp [PastRecv]

theorem PastRecv.step (hs : c.PastRecv) (h : c.Step c') : c'.PastRecv := by
  rcases h with ⟨g, h⟩ | ⟨r, h⟩ | ⟨e, h⟩
  · rcases (send_eq_some h).2 with ⟨p, peer, rfl, -⟩ | ⟨p, g, -, rfl⟩
    · simp [PastRecv] at hs
    · simp [PastRecv]
  · exact absurd hs (not_pastRecv_of_recv h)
  · rcases fail_eq_some h with ⟨p, peer, pc, -, rfl⟩ | ⟨p, pc, -, rfl⟩
    · exact ⟨_, rfl⟩
    · simp [PastRecv]

end HandshakeCall

namespace Network

variable {S G : Type} {net : Network S G} {s s' : State S G} {l : Label S G}

def ReadBy (s : State S G) : Prop :=
  ∀ t g, (t, g) ∈ s.received →
    ∃ (j : Nat) (d : HandshakeCall), s.calls[j]? = some d ∧ d.party.stream = t ∧ d.PastRecv

theorem ReadBy.step (hr : ReadBy s) (h : net.step s l = some s') : ReadBy s' := by
  have old : ∀ t g, (t, g) ∈ s.received →
      ∃ (j : Nat) (d : HandshakeCall), s'.calls[j]? = some d ∧ d.party.stream = t ∧ d.PastRecv := by
    intro t g htg
    obtain ⟨j, d, hj, hdt, hd⟩ := hr t g htg
    obtain ⟨d', hj', hp, hstep⟩ := step_resumes h hj
    exact ⟨j, d', hj', hp ▸ hdt, hstep.elim (· ▸ hd) hd.step⟩
  rcases step_cases h with ⟨k, c, c', g, -, -, -, rfl⟩ | ⟨k, c, c', m, rest, -, hc, -, hrv, rfl⟩ |
    ⟨k, e, c, c', -, -, -, rfl⟩ | ⟨t, m, -, -, -, rfl⟩
  · exact old
  · intro t g htg
    rcases List.mem_append.mp htg with hold | hnew
    · exact old t g hold
    · have ht : t = c.party.stream := by
        cases hm : Handshake.read net.wire m <;> simp only [readLog, hm, List.mem_singleton,
          List.not_mem_nil, Prod.mk.injEq] at hnew
        exact hnew.1
      have hk := (List.getElem?_eq_some_iff.mp hc).1
      exact ⟨k, c', by simp [hk], by rw [(HandshakeCall.recv_shape hrv).1, ht],
        HandshakeCall.pastRecv_of_recv hrv⟩
  · exact old
  · exact old

/-- Two facing `inbound` calls never send. -/
theorem facing_inbounds_silent (reach : net.Reachable s) {i j : Nat} {p q : Party}
    {pc qc : Inbound} (hi : s.calls[i]? = some (.inbound p pc))
    (hj : s.calls[j]? = some (.inbound q qc)) (facing : q.stream = p.stream.other) :
    s.inbox p.stream = [] ∧ s.inbox q.stream = [] ∧ pc.Silent ∧ qc.Silent := by
  have ho := reach.origins
  obtain ⟨hp, hpc⟩ := ho.silent i j p q pc qc hi hj facing
  obtain ⟨hq, hqc⟩ := ho.silent j i q p qc pc hj hi (by rw [facing, NoiseStream.other_other])
  exact ⟨hp, hq, hpc, hqc⟩

def facingNet : Network Signed GenesisHash where
  wire := Wire.plain
  calls := [.inbound ⟨⟨1⟩, ⟨7⟩, ⟨0, false⟩⟩ .recv, .inbound ⟨⟨2⟩, ⟨7⟩, ⟨0, true⟩⟩ .recv,
    .outbound ⟨⟨3⟩, ⟨7⟩, ⟨1, false⟩⟩ ⟨4⟩ .send]
  corrupt := fun _ => false
  fresh := by simp [HandshakeCall.Fresh]
  ends_nodup := by simp
  honest := by simp

def facingRun : List (Label Signed GenesisHash) :=
  [.send 2, .inject ⟨1, false⟩ ⟨none, none⟩, .recv 2, .fail 0 ["timeout"]]

def facingReached : State Signed GenesisHash :=
  (facingNet.run facingNet.start facingRun).getD facingNet.start

theorem facingReached_reachable : facingNet.Reachable facingReached :=
  Reachable.start.of_run (show facingNet.run facingNet.start facingRun = some facingReached from rfl)

theorem facing_inbounds_silent_reached :
    facingReached.inbox ⟨0, false⟩ = [] ∧ facingReached.inbox ⟨0, true⟩ = [] ∧
      (Inbound.returned (.error (.stream ["timeout"]))).Silent ∧ Inbound.recv.Silent :=
  facing_inbounds_silent (p := ⟨⟨1⟩, ⟨7⟩, ⟨0, false⟩⟩) (q := ⟨⟨2⟩, ⟨7⟩, ⟨0, true⟩⟩) (i := 0) (j := 1)
    facingReached_reachable rfl rfl rfl

end Network

end EraConsensus
