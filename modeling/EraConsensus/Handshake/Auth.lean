import EraConsensus.Handshake.Network

/-! Authentication of the handshake against an adversary: a signature over a call's own
session id comes from one of the two ends of its stream, its peer's or, reflected back by
an adversary holding the other end, its own. -/

namespace EraConsensus

namespace HandshakeCall

/-- A call that sent its handshake. -/
def Sent : HandshakeCall → Prop
  | .outbound _ _ pc => pc ≠ .send
  | .inbound _ pc => ∃ k, pc = .returned (.ok k)

def Step (c c' : HandshakeCall) : Prop :=
  (∃ g, c.send = some (c', g)) ∨ (∃ r, c.recv r = some c') ∨ (∃ e, c.fail e = some c')

theorem not_sent_of_send {c c' : HandshakeCall} {g : Handshake} (h : c.send = some (c', g)) :
    ¬ c.Sent := by
  rcases (send_eq_some h).2 with ⟨p, peer, rfl, -⟩ | ⟨p, g, rfl, -⟩ <;> simp [Sent]

theorem sent_of_send {c c' : HandshakeCall} {g : Handshake} (h : c.send = some (c', g)) :
    c'.Sent := by
  rcases (send_eq_some h).2 with ⟨p, peer, -, rfl⟩ | ⟨p, g, -, rfl⟩ <;> simp [Sent]

theorem Sent.step {c c' : HandshakeCall} (hs : c.Sent) (h : c.Step c') : c'.Sent := by
  rcases h with ⟨g, h⟩ | ⟨r, h⟩ | ⟨e, h⟩
  · exact absurd hs (not_sent_of_send h)
  · rcases recv_eq_some h with ⟨p, peer, rfl, rfl⟩ | ⟨p, rfl, -⟩ <;> simp [Sent] at hs ⊢
  · rcases fail_eq_some h with ⟨p, peer, pc, rfl, rfl⟩ | ⟨p, pc, rfl, -⟩
    · simp [Sent]
    · obtain ⟨k, rfl⟩ := hs
      simp [fail] at h

end HandshakeCall

namespace Inbound

def accepted : Inbound → Option PublicKey
  | .send h => some h.sessionId.key
  | .returned (.ok k) => some k
  | _ => none

def Silent : Inbound → Prop
  | .recv => True
  | .returned (.error _) => True
  | _ => False

theorem Silent.send_eq_none {p : Party} {pc : Inbound} (hs : pc.Silent) :
    (HandshakeCall.inbound p pc).send = none := by
  rcases pc with _ | _ | (_ | _) <;> simp_all [Silent, HandshakeCall.send]

theorem afterRecv_accepted {p : Party} {r : Except (List String) Handshake} {k : PublicKey}
    (h : (afterRecv p r).accepted = some k) :
    ∃ g, r = .ok g ∧ inboundCheck p.stream.sessionId p.genesis g = .ok () ∧
      g.sessionId.key = k := by
  unfold afterRecv at h
  split at h
  · simp [accepted] at h
  · rename_i g
    split at h
    · exact ⟨g, rfl, ‹_›, by simpa [accepted] using h⟩
    · simp [accepted] at h

end Inbound

theorem Outbound.afterRecv_eq_ok {p : Party} {peer : PublicKey}
    {r : Except (List String) Handshake} (h : afterRecv p peer r = .ok ()) :
    ∃ g, r = .ok g ∧ outboundCheck p.stream.sessionId p.genesis peer g = .ok () := by
  cases r with
  | error e => simp [afterRecv] at h
  | ok g => exact ⟨g, rfl, h⟩

namespace Network

variable {S G : Type} {net : Network S G} {s s' : State S G} {l : Label S G}

theorem step_getElem?_cases (h : net.step s l = some s') {i : Nat} {d' : HandshakeCall}
    (hi : s'.calls[i]? = some d') :
    s.calls[i]? = some d' ∨
    (∃ d g, s.calls[i]? = some d ∧ d.send = some (d', g)) ∨
    (∃ d m rest, s.calls[i]? = some d ∧ s.inbox d.party.stream = m :: rest ∧
      d.recv (Handshake.read net.wire m) = some d' ∧ s'.sent = s.sent ∧
      s'.received = s.received ++ readLog d.party.stream (Handshake.read net.wire m)) ∨
    (∃ d e, s.calls[i]? = some d ∧ d.fail e = some d') := by
  rcases step_cases h with ⟨k, c, c', g, -, hc, hs, rfl⟩ | ⟨k, c, c', m, rest, -, hc, hm, hr, rfl⟩ |
    ⟨k, e, c, c', -, hc, hf, rfl⟩ | ⟨t, m, -, -, -, rfl⟩
  · rcases getElem?_set_eq_some hi with ⟨rfl, rfl⟩ | ⟨-, hio⟩
    exacts [.inr (.inl ⟨c, g, hc, hs⟩), .inl hio]
  · rcases getElem?_set_eq_some hi with ⟨rfl, rfl⟩ | ⟨-, hio⟩
    exacts [.inr (.inr (.inl ⟨c, m, rest, hc, hm, hr, rfl, rfl⟩)), .inl hio]
  · rcases getElem?_set_eq_some hi with ⟨rfl, rfl⟩ | ⟨-, hio⟩
    exacts [.inr (.inr (.inr ⟨c, e, hc, hf⟩)), .inl hio]
  · exact .inl hi

theorem step_resumes (h : net.step s l = some s') {j : Nat} {d : HandshakeCall}
    (hj : s.calls[j]? = some d) :
    ∃ d', s'.calls[j]? = some d' ∧ d'.party = d.party ∧ (d' = d ∨ d.Step d') := by
  obtain ⟨d', hj', hp, -⟩ := step_call h hj
  refine ⟨d', hj', hp, ?_⟩
  rcases step_getElem?_cases h hj' with hj₀ | ⟨d₀, g, hj₀, hs⟩ | ⟨d₀, m, rest, hj₀, -, hr, -⟩ |
    ⟨d₀, e, hj₀, hf⟩ <;> rw [hj] at hj₀ <;> cases hj₀
  exacts [.inl rfl, .inr (.inl ⟨g, hs⟩), .inr (.inr (.inl ⟨_, hr⟩)), .inr (.inr (.inr ⟨e, hf⟩))]

theorem step_sent (h : net.step s l = some s') : ∀ x ∈ s.sent, x ∈ s'.sent := by
  rcases step_cases h with ⟨k, c, c', g, -, -, -, rfl⟩ | ⟨k, c, c', m, rest, -, -, -, -, rfl⟩ |
    ⟨k, e, c, c', -, -, -, rfl⟩ | ⟨t, m, -, -, -, rfl⟩
  · exact fun x hx => List.mem_append_left _ hx
  all_goals exact fun x hx => hx

theorem injectable_mono (hsub : ∀ x ∈ s.sent, x ∈ s'.sent) {m : HandshakeProto S G}
    (hm : net.Injectable s m = true) : net.Injectable s' m = true := by
  unfold Injectable Forgeable at *
  split at hm
  · rename_i g hg
    simp only [hg, Bool.or_eq_true, List.any_eq_true] at hm ⊢
    exact hm.imp id fun ⟨x, hx, e⟩ => ⟨x, hsub x hx, e⟩
  · rename_i hg
    simp [hg]

/-- A frame in the inbox of `t` is the other end's handshake, or the adversary's. -/
def Delivered (net : Network S G) (s : State S G) (t : NoiseStream) (m : HandshakeProto S G) :
    Prop :=
  (∃ (j : Nat) (d : HandshakeCall), s.calls[j]? = some d ∧ d.party.stream = t.other ∧
    m = Handshake.build net.wire d.party.hello ∧ (t.other, d.party.hello) ∈ s.sent) ∨
  (net.Adversarial t.other ∧ net.Injectable s m = true)

theorem Delivered.step {t : NoiseStream} {m : HandshakeProto S G} (h : net.step s l = some s')
    (hd : net.Delivered s t m) : net.Delivered s' t m := by
  rcases hd with ⟨j, d, hj, ht, rfl, hs⟩ | ⟨ha, hi⟩
  · obtain ⟨d', hj', hp, -⟩ := step_call h hj
    exact .inl ⟨j, d', hj', hp ▸ ht, by rw [hp], hp ▸ step_sent h _ hs⟩
  · exact .inr ⟨ha, injectable_mono (step_sent h) hi⟩

variable (net) in
structure Origins (s : State S G) : Prop where
  sent : ∀ t g, (t, g) ∈ s.sent →
    ∃ (j : Nat) (d : HandshakeCall), s.calls[j]? = some d ∧ d.party.stream = t ∧ g = d.party.hello ∧ d.Sent
  inbox : ∀ t m, m ∈ s.inbox t → net.Delivered s t m
  silent : ∀ (i j : Nat) (p q : Party) (pc qc : Inbound), s.calls[i]? = some (.inbound p pc) →
    s.calls[j]? = some (.inbound q qc) → q.stream = p.stream.other →
    s.inbox p.stream = [] ∧ pc.Silent

theorem origins_start : Origins net net.start := by
  refine ⟨by simp [start], by simp [start], fun i j p q pc qc hi _ _ => ⟨rfl, ?_⟩⟩
  have := net.fresh _ (List.getElem?_mem hi)
  simp only [HandshakeCall.Fresh] at this
  subst this
  trivial

theorem Origins.sent_step (ho : Origins net s)
    (h : net.step s l = some s') : ∀ t g, (t, g) ∈ s'.sent →
      ∃ (j : Nat) (d : HandshakeCall), s'.calls[j]? = some d ∧ d.party.stream = t ∧ g = d.party.hello ∧ d.Sent := by
  have old : ∀ t g, (t, g) ∈ s.sent →
      ∃ (j : Nat) (d : HandshakeCall), s'.calls[j]? = some d ∧ d.party.stream = t ∧ g = d.party.hello ∧ d.Sent := by
    intro t g htg
    obtain ⟨j, d, hj, hdt, rfl, hds⟩ := ho.sent t g htg
    obtain ⟨d', hj', hp, hd⟩ := step_resumes h hj
    exact ⟨j, d', hj', hp ▸ hdt, by rw [hp], hd.elim (· ▸ hds) hds.step⟩
  rcases step_cases h with ⟨k, c, c', g', -, hc, hs, rfl⟩ | ⟨k, c, c', m, rest, -, hc, -, hr, rfl⟩ |
    ⟨k, e, c, c', -, hc, hf, rfl⟩ | ⟨t, m, -, -, -, rfl⟩
  · intro t g htg
    rcases List.mem_append.mp htg with hold | hnew
    · exact old t g hold
    · simp only [List.mem_singleton, Prod.mk.injEq] at hnew
      obtain ⟨rfl, rfl⟩ := hnew
      have hk := (List.getElem?_eq_some_iff.mp hc).1
      have hp := (HandshakeCall.send_shape hs).1
      exact ⟨k, c', by simp [hk], by rw [hp], by rw [hp, (HandshakeCall.send_eq_some hs).1],
        HandshakeCall.sent_of_send hs⟩
  all_goals exact old

theorem Origins.inbox_step (ho : Origins net s) (h : net.step s l = some s') :
    ∀ t m, m ∈ s'.inbox t → net.Delivered s' t m := by
  rcases step_cases h with ⟨k, c, c', g, -, hc, hs, rfl⟩ | ⟨k, c, c', m, rest, -, hc, hm, hr, rfl⟩ |
    ⟨k, e, c, c', -, hc, hf, rfl⟩ | ⟨t, m, -, ha, hi, rfl⟩
  · -- the new frame is the sender's handshake, delivered to its peer
    intro t m hm
    rcases mem_deliver.mp hm with hm | ⟨rfl, rfl⟩
    · exact (ho.inbox _ m hm).step h
    · have hk := (List.getElem?_eq_some_iff.mp hc).1
      have hp := (HandshakeCall.send_shape hs).1
      refine .inl ⟨k, c', by simp [hk], by simp [hp], ?_, ?_⟩
      · rw [hp, (HandshakeCall.send_eq_some hs).1]
      · rw [NoiseStream.other_other, hp, ← (HandshakeCall.send_eq_some hs).1]
        exact List.mem_append_right _ (List.mem_singleton_self _)
  · -- a receive takes the head frame off its inbox
    intro t m' hm'
    refine (ho.inbox t m' ?_).step h
    by_cases ht : t = c.party.stream
    · subst ht
      rw [hm]
      exact List.mem_cons_of_mem _ (by simpa using hm')
    · simpa [Function.update_noteq ht] using hm'
  · exact fun t m hm => (ho.inbox t m hm).step h
  · -- the adversary's frame
    intro t' m' hm'
    rcases mem_deliver.mp hm' with hm' | ⟨rfl, rfl⟩
    · exact (ho.inbox _ m' hm').step h
    · exact .inr ⟨ha, hi⟩

theorem inbound_before (h : net.step s l = some s') {i : Nat} {p : Party} {pc : Inbound}
    (hi : s'.calls[i]? = some (.inbound p pc)) : ∃ pc₀, s.calls[i]? = some (.inbound p pc₀) := by
  obtain ⟨d, hd, hp, hr⟩ := step_call_before h hi
  cases d with
  | outbound q peer qc => simp [HandshakeCall.role] at hr
  | inbound q qc => exact ⟨qc, by rw [hd, show q = p from hp]⟩

theorem Origins.silent_step (reach : net.Reachable s) (ho : Origins net s)
    (h : net.step s l = some s') :
    ∀ (i j : Nat) (p q : Party) (pc qc : Inbound), s'.calls[i]? = some (.inbound p pc) →
      s'.calls[j]? = some (.inbound q qc) → q.stream = p.stream.other →
      s'.inbox p.stream = [] ∧ pc.Silent := by
  intro i j p q pc qc hi hj hq
  obtain ⟨pc₀, hi₀⟩ := inbound_before h hi
  obtain ⟨qc₀, hj₀⟩ := inbound_before h hj
  obtain ⟨hin, hsil⟩ := ho.silent _ _ _ _ _ _ hi₀ hj₀ hq
  have hqsil := (ho.silent _ _ _ _ _ _ hj₀ hi₀ (by rw [hq, NoiseStream.other_other])).2
  have kept : ∀ {k : Nat} {c' : HandshakeCall}, (s.calls.set k c')[i]? = some (.inbound p pc) →
      i ≠ k → pc = pc₀ := by
    intro k c' hset hik
    rw [List.getElem?_set_ne (Ne.symm hik), hi₀] at hset
    simpa using hset.symm
  rcases step_cases h with ⟨k, c, c', g, -, hc, hs, rfl⟩ | ⟨k, c, c', m, rest, -, hc, hm, hr, rfl⟩ |
    ⟨k, e, c, c', -, hc, hf, rfl⟩ | ⟨t, m, -, ha, -, rfl⟩
  · -- a send: a silent call does not send, and the frame goes to the sender's peer
    have notSender : ∀ {x : Nat} {y : Party} {yc : Inbound}, s.calls[x]? = some (.inbound y yc) →
        yc.Silent → x ≠ k := by
      rintro x y yc hx hy rfl
      rw [hc] at hx
      cases hx
      rw [hy.send_eq_none] at hs
      cases hs
    obtain rfl := kept hi (notSender hi₀ hsil)
    refine ⟨(deliver_of_ne ?_).trans hin, hsil⟩
    intro heq
    exact notSender hj₀ hqsil (reach.index_unique hj₀ hc
      (show q.stream = _ by rw [hq, heq, NoiseStream.other_other]))
  · -- a receive: a silent call has nothing to receive
    have hik : i ≠ k := by
      rintro rfl
      rw [hc] at hi₀
      cases hi₀
      exact List.cons_ne_nil m rest (hm.symm.trans hin)
    obtain rfl := kept hi hik
    exact ⟨(Function.update_noteq (fun heq => hik (reach.index_unique hi₀ hc heq)) _ _).trans hin,
      hsil⟩
  · -- a stream error leaves every inbox alone, and ends the call if it is the one at `i`
    refine ⟨hin, ?_⟩
    rcases getElem?_set_eq_some hi with ⟨-, hci⟩ | ⟨hik, -⟩
    · rcases HandshakeCall.fail_eq_some hf with ⟨_, _, _, -, rfl⟩ | ⟨_, _, -, rfl⟩ <;> cases hci
      trivial
    · exact kept hi hik ▸ hsil
  · -- the adversary holds neither end of the stream
    cases hi.symm.trans hi₀
    refine ⟨(deliver_of_ne ?_).trans hin, hsil⟩
    rintro rfl
    exact reach.adversarial ha hj₀ hq

theorem Origins.preserved (reach : net.Reachable s) (ho : Origins net s)
    (h : net.step s l = some s') : Origins net s' :=
  ⟨ho.sent_step h, ho.inbox_step h, ho.silent_step reach h⟩

theorem Reachable.origins (reach : net.Reachable s) : Origins net s := by
  induction reach with
  | start => exact origins_start
  | step reach h ih => exact ih.preserved reach h

theorem step_received (h : net.step s l = some s') : ∀ x ∈ s.received, x ∈ s'.received := by
  rcases step_cases h with ⟨k, c, c', g, -, -, -, rfl⟩ | ⟨k, c, c', m, rest, -, -, -, -, rfl⟩ |
    ⟨k, e, c, c', -, -, -, rfl⟩ | ⟨t, m, -, -, -, rfl⟩
  · exact fun x hx => hx
  · exact fun x hx => List.mem_append_left _ hx
  all_goals exact fun x hx => hx

theorem outbound_ok_step (h : net.step s l = some s') {i : Nat} {p : Party} {peer : PublicKey}
    (hi : s'.calls[i]? = some (.outbound p peer (.returned (.ok ())))) :
    s.calls[i]? = some (.outbound p peer (.returned (.ok ()))) ∨
    ∃ m rest, s.calls[i]? = some (.outbound p peer .recv) ∧ s.inbox p.stream = m :: rest ∧
      Outbound.afterRecv p peer (Handshake.read net.wire m) = .ok () ∧ s'.sent = s.sent := by
  rcases step_getElem?_cases h hi with hio | ⟨d, g, -, hs⟩ | ⟨d, m, rest, hd, hm, hr, hsent, -⟩ |
    ⟨d, e, -, hf⟩
  · exact .inl hio
  · rcases (HandshakeCall.send_eq_some hs).2 with ⟨_, _, -, hd'⟩ | ⟨_, _, -, hd'⟩ <;> cases hd'
  · rcases HandshakeCall.recv_eq_some hr with ⟨p', peer', rfl, hd'⟩ | ⟨_, -, hd'⟩
    · simp only [HandshakeCall.outbound.injEq, Outbound.returned.injEq] at hd'
      obtain ⟨rfl, rfl, hok⟩ := hd'
      exact .inr ⟨m, rest, hd, hm, hok.symm, hsent⟩
    · cases hd'
  · rcases HandshakeCall.fail_eq_some hf with ⟨_, _, _, -, hd'⟩ | ⟨_, _, -, hd'⟩ <;> cases hd'

theorem inbound_accepted_step (h : net.step s l = some s') {i : Nat} {p : Party}
    {pc : Inbound} {k : PublicKey} (hi : s'.calls[i]? = some (.inbound p pc))
    (hk : pc.accepted = some k) :
    (∃ pc₀ : Inbound, s.calls[i]? = some (.inbound p pc₀) ∧ pc₀.accepted = some k) ∨
    ∃ m rest, s.calls[i]? = some (.inbound p .recv) ∧ s.inbox p.stream = m :: rest ∧
      (Inbound.afterRecv p (Handshake.read net.wire m)).accepted = some k ∧ s'.sent = s.sent ∧
      s'.received = s.received ++ readLog p.stream (Handshake.read net.wire m) := by
  rcases step_getElem?_cases h hi with hio | ⟨d, g, hd, hs⟩ | ⟨d, m, rest, hd, hm, hr, hsent, hrec⟩ |
    ⟨d, e, -, hf⟩
  · exact .inl ⟨pc, hio, hk⟩
  · rcases (HandshakeCall.send_eq_some hs).2 with ⟨_, _, -, hd'⟩ | ⟨p', g', rfl, hd'⟩
    · cases hd'
    · simp only [HandshakeCall.inbound.injEq] at hd'
      obtain ⟨rfl, rfl⟩ := hd'
      exact .inl ⟨.send g', hd, by simpa [Inbound.accepted] using hk⟩
  · rcases HandshakeCall.recv_eq_some hr with ⟨_, _, -, hd'⟩ | ⟨p', rfl, hd'⟩
    · cases hd'
    · simp only [HandshakeCall.inbound.injEq] at hd'
      obtain ⟨rfl, rfl⟩ := hd'
      exact .inr ⟨m, rest, hd, hm, hk, hsent, hrec⟩
  · rcases HandshakeCall.fail_eq_some hf with ⟨_, _, _, -, hd'⟩ | ⟨p', pc', -, hd'⟩
    · cases hd'
    · simp only [HandshakeCall.inbound.injEq] at hd'
      obtain ⟨rfl, rfl⟩ := hd'
      simp [Inbound.accepted] at hk

theorem outbound_started {j : Nat} {d : HandshakeCall} (hj : net.calls[j]? = some d) {peer : PublicKey}
    (hr : d.role = .outbound peer) : d = .outbound d.party peer .send := by
  have fresh := net.fresh d (List.getElem?_mem hj)
  cases d with
  | outbound q p' pc =>
    simp only [HandshakeCall.role, Role.outbound.injEq] at hr
    simp only [HandshakeCall.Fresh] at fresh
    subst hr fresh
    rfl
  | inbound q pc => simp [HandshakeCall.role] at hr

variable (net) in
/-- What a call that accepted its peer knows of the handshake it read. -/
structure Accepts (s : State S G) : Prop where
  outbound : ∀ (i : Nat) (p : Party) (peer : PublicKey),
    s.calls[i]? = some (.outbound p peer (.returned (.ok ()))) → net.corrupt peer = false →
    ∃ (j : Nat) (d : HandshakeCall), net.calls[j]? = some d ∧ (d.party.stream, d.party.hello) ∈ s.sent ∧
      d.party.me.public = peer ∧ d.party.genesis = p.genesis ∧
      (d.party.stream = p.stream.other ∨
        (d.party.stream = p.stream ∧ net.Adversarial p.stream.other))
  inbound : ∀ (i : Nat) (p : Party) (pc : Inbound) (k : PublicKey),
    s.calls[i]? = some (.inbound p pc) → pc.accepted = some k → net.corrupt k = false →
    ∃ (j : Nat) (q : Party) (peer : PublicKey), net.calls[j]? = some (.outbound q peer .send) ∧
      (q.stream, q.hello) ∈ s.sent ∧ q.me.public = k ∧ q.genesis = p.genesis ∧
      q.stream = p.stream.other
  checked : ∀ (i : Nat) (p : Party) (pc : Inbound) (k : PublicKey),
    s.calls[i]? = some (.inbound p pc) → pc.accepted = some k →
    ∃ g, (p.stream, g) ∈ s.received ∧ inboundCheck p.stream.sessionId p.genesis g = .ok () ∧
      g.sessionId.key = k

theorem accepts_start : Accepts net net.start := by
  refine ⟨fun i p peer hi => ?_, fun i p pc k hi hk => ?_, fun i p pc k hi hk => ?_⟩ <;>
    have fresh := net.fresh _ (List.getElem?_mem hi) <;> simp only [HandshakeCall.Fresh] at fresh
  · cases fresh
  all_goals subst fresh; simp [Inbound.accepted] at hk

theorem forged_signature (reach : net.Reachable s) (ho : Origins net s) {t : NoiseStream}
    {m : HandshakeProto S G} {g : Handshake} {k : PublicKey} (hadv : net.Adversarial t.other)
    (hinj : net.Injectable s m = true) (hg : Handshake.read net.wire m = .ok g)
    (hsig : g.sessionId.sig = ⟨k, t.sessionId⟩) (hk : net.corrupt k = false) :
    ∃ (j : Nat) (d : HandshakeCall), s.calls[j]? = some d ∧ d.party.stream = t ∧
      (t, d.party.hello) ∈ s.sent ∧ d.party.me.public = k ∧ d.Sent := by
  simp only [Injectable, hg, Forgeable, hsig, hk, Bool.false_or, List.any_eq_true,
    decide_eq_true_eq] at hinj
  obtain ⟨⟨u, g'⟩, hx, hxs⟩ := hinj
  obtain ⟨j, d, hj, rfl, rfl, hsent⟩ := ho.sent u g' hx
  simp only [Party.hello, SecretKey.signMsg, Signature.mk.injEq] at hxs
  rcases NoiseStream.eq_or_eq_other_of_sessionId hxs.2 with hds | hds
  · exact ⟨j, d, hj, hds, hds ▸ hx, hxs.1, hsent⟩
  · exact absurd hds (reach.adversarial hadv hj)

theorem Accepts.checked_step (ha : Accepts net s) (h : net.step s l = some s') (i : Nat) (p : Party) (pc : Inbound)
    (k : PublicKey) (hi : s'.calls[i]? = some (.inbound p pc)) (hk : pc.accepted = some k) :
    ∃ g, (p.stream, g) ∈ s'.received ∧ inboundCheck p.stream.sessionId p.genesis g = .ok () ∧
      g.sessionId.key = k := by
  rcases inbound_accepted_step h hi hk with ⟨pc₀, hio, hk₀⟩ | ⟨m, rest, hio, hm, hacc, -, hrec⟩
  · obtain ⟨g, hg, hchk, hkey⟩ := ha.checked i p pc₀ k hio hk₀
    exact ⟨g, step_received h _ hg, hchk, hkey⟩
  · obtain ⟨g, hg, hchk, rfl⟩ := Inbound.afterRecv_accepted hacc
    exact ⟨g, by rw [hrec, hg]; simp [readLog], hchk, rfl⟩

section
variable (reach : net.Reachable s) (lawful : net.wire.Lawful) (ho : Origins net s)
  (ha : Accepts net s)
include reach lawful ho ha

theorem Accepts.outbound_step (h : net.step s l = some s') (i : Nat) (p : Party)
    (peer : PublicKey) (hi : s'.calls[i]? = some (.outbound p peer (.returned (.ok ()))))
    (hpeer : net.corrupt peer = false) :
    ∃ (j : Nat) (d : HandshakeCall), net.calls[j]? = some d ∧ (d.party.stream, d.party.hello) ∈ s'.sent ∧
      d.party.me.public = peer ∧ d.party.genesis = p.genesis ∧
      (d.party.stream = p.stream.other ∨
        (d.party.stream = p.stream ∧ net.Adversarial p.stream.other)) := by
  rcases outbound_ok_step h hi with hio | ⟨m, rest, hio, hm, hok, hsent⟩
  · obtain ⟨j, d, hj, hs, hr⟩ := ha.outbound i p peer hio hpeer
    exact ⟨j, d, hj, step_sent h _ hs, hr⟩
  rw [hsent]
  obtain ⟨g, hg, hchk⟩ := Outbound.afterRecv_eq_ok hok
  obtain ⟨hgen, -, hkey, hsig⟩ := outboundCheck_eq_ok.mp hchk
  rcases ho.inbox p.stream m (hm ▸ List.mem_cons_self m rest) with
    ⟨j, d, hj, hdt, rfl, hs⟩ | ⟨hadv, hinj⟩
  · -- the frame is the handshake of the call on the other end
    rw [Handshake.read_build lawful] at hg
    cases hg
    obtain ⟨d₀, hj₀, hp, -⟩ := reach.started hj
    refine ⟨j, d₀, hj₀, by rw [hp, hdt]; exact hs, ?_, by rw [hp]; exact hgen, .inl (hp ▸ hdt)⟩
    rw [hp]
    simpa [Party.hello, SecretKey.signMsg] using hkey
  · -- the adversary's frame carries the signature of the call on this end: its own
    obtain ⟨j, d, hj, hds, hx, hkey', -⟩ := forged_signature reach ho hadv hinj hg hsig hpeer
    obtain ⟨rfl, rfl⟩ := reach.call_unique hj hio hds
    obtain ⟨d₀, hj₀, hp, -⟩ := reach.started hio
    exact ⟨j, d₀, hj₀, by rw [hp]; exact hx, by rw [hp]; exact hkey', by rw [hp]; rfl,
      .inr ⟨by rw [hp]; rfl, hadv⟩⟩

theorem Accepts.inbound_step (h : net.step s l = some s') (i : Nat) (p : Party) (pc : Inbound)
    (k : PublicKey) (hi : s'.calls[i]? = some (.inbound p pc)) (hk : pc.accepted = some k)
    (hkey : net.corrupt k = false) :
    ∃ (j : Nat) (q : Party) (peer : PublicKey), net.calls[j]? = some (.outbound q peer .send) ∧
      (q.stream, q.hello) ∈ s'.sent ∧ q.me.public = k ∧ q.genesis = p.genesis ∧
      q.stream = p.stream.other := by
  rcases inbound_accepted_step h hi hk with ⟨pc₀, hio, hk₀⟩ | ⟨m, rest, hio, hm, hacc, hsent, -⟩
  · obtain ⟨j, q, peer, hj, hs, hr⟩ := ha.inbound i p pc₀ k hio hk₀ hkey
    exact ⟨j, q, peer, hj, step_sent h _ hs, hr⟩
  rw [hsent]
  obtain ⟨g, hg, hchk, rfl⟩ := Inbound.afterRecv_accepted hacc
  obtain ⟨hgen, -, hsig⟩ := inboundCheck_eq_ok.mp hchk
  rcases ho.inbox p.stream m (hm ▸ List.mem_cons_self m rest) with
    ⟨j, d, hj, hdt, rfl, hs⟩ | ⟨hadv, hinj⟩
  · -- the frame is the handshake of the call on the other end, which is an `outbound`:
    rw [Handshake.read_build lawful] at hg
    cases hg
    obtain ⟨d₀, hj₀, hp, hrole⟩ := reach.started hj
    cases d with
    | inbound q qc =>
      exact absurd (ho.silent i j p q .recv qc hio hj hdt).1 (by rw [hm]; exact List.cons_ne_nil _ _)
    | outbound q peer qpc =>
      have hd₀ := outbound_started hj₀ (hrole.trans rfl)
      rw [hp] at hd₀
      refine ⟨j, q, peer, hd₀ ▸ hj₀, by rw [show q.stream = p.stream.other from hdt]; exact hs,
        rfl, hgen, hdt⟩
  · -- the adversary's frame carries the signature of the call on this end, which has not
    obtain ⟨j, d, hj, hds, -, -, hsent⟩ := forged_signature reach ho hadv hinj hg hsig hkey
    obtain ⟨rfl, rfl⟩ := reach.call_unique hj hio hds
    simp [HandshakeCall.Sent] at hsent

theorem Accepts.preserved (h : net.step s l = some s') : Accepts net s' :=
  ⟨ha.outbound_step reach lawful ho h, ha.inbound_step reach lawful ho h,
    ha.checked_step h⟩

end

theorem Reachable.accepts (lawful : net.wire.Lawful) (reach : net.Reachable s) :
    Accepts net s := by
  induction reach with
  | start => exact accepts_start
  | step reach h ih => exact ih.preserved reach lawful reach.origins h

/-- An `outbound` that returned `Ok` for an honest key read that key's handshake sent on
an end of its stream; an `inbound` that returned `Ok(k)` for an honest `k` faces `k`'s
`outbound`; an `inbound` sends only after its checks passed. -/
theorem handshake_authentication (lawful : net.wire.Lawful) (reach : net.Reachable s) :
    (∀ (i : Nat) (p : Party) (peer : PublicKey),
      s.calls[i]? = some (.outbound p peer (.returned (.ok ()))) → net.corrupt peer = false →
      ∃ (j : Nat) (d : HandshakeCall), net.calls[j]? = some d ∧ (d.party.stream, d.party.hello) ∈ s.sent ∧
        d.party.me.public = peer ∧ d.party.genesis = p.genesis ∧
        (d.party.stream = p.stream.other ∨
          (d.party.stream = p.stream ∧ net.Adversarial p.stream.other))) ∧
    (∀ (i : Nat) (p : Party) (k : PublicKey),
      s.calls[i]? = some (.inbound p (.returned (.ok k))) → net.corrupt k = false →
      ∃ (j : Nat) (q : Party) (peer : PublicKey), net.calls[j]? = some (.outbound q peer .send) ∧
        (q.stream, q.hello) ∈ s.sent ∧ q.me.public = k ∧ q.genesis = p.genesis ∧
        q.stream = p.stream.other) ∧
    (∀ (t : NoiseStream) (g : Handshake) (i : Nat) (p : Party) (pc : Inbound), (t, g) ∈ s.sent →
      s.calls[i]? = some (.inbound p pc) → p.stream = t →
      ∃ k g', pc = .returned (.ok k) ∧ (t, g') ∈ s.received ∧
        inboundCheck t.sessionId p.genesis g' = .ok () ∧ g'.sessionId.key = k) := by
  have ho := reach.origins
  have ha := reach.accepts lawful
  refine ⟨ha.outbound, fun i p k hi hk => ha.inbound i p _ k hi rfl hk,
    fun t g i p pc hs hi hpt => ?_⟩
  obtain ⟨j, d, hj, rfl, rfl, hsent⟩ := ho.sent t g hs
  obtain rfl := reach.index_unique hi hj hpt
  rw [hi] at hj
  cases hj
  obtain ⟨k, rfl⟩ := hsent
  obtain ⟨g', hg', hchk, hkey⟩ := ha.checked i p _ k hi rfl
  exact ⟨k, g', rfl, hg', hchk, hkey⟩

def reflectionParty : Party := ⟨⟨0⟩, ⟨0⟩, ⟨0, false⟩⟩

def reflectionNet : Network Signed GenesisHash where
  wire := Wire.plain
  calls := [.outbound reflectionParty ⟨0⟩ .send]
  corrupt := fun _ => false
  fresh := by simp [HandshakeCall.Fresh]
  ends_nodup := by simp
  honest := by simp

/-- The node sends, the adversary puts that frame back, and the node receives it. -/
def reflection : List (Label Signed GenesisHash) :=
  [.send 0, .inject ⟨0, false⟩ (Handshake.build Wire.plain reflectionParty.hello), .recv 0]

def reflected : State Signed GenesisHash :=
  (reflectionNet.run reflectionNet.start reflection).getD reflectionNet.start

theorem reflected_reachable : reflectionNet.Reachable reflected :=
  Reachable.start.of_run
    (show reflectionNet.run reflectionNet.start reflection = some reflected from rfl)

theorem handshake_authentication_reflected :
    reflectionNet.wire.Lawful ∧
    (∀ (i : Nat) (p : Party) (peer : PublicKey),
      reflected.calls[i]? = some (.outbound p peer (.returned (.ok ()))) →
      reflectionNet.corrupt peer = false →
      ∃ (j : Nat) (d : HandshakeCall), reflectionNet.calls[j]? = some d ∧
        (d.party.stream, d.party.hello) ∈ reflected.sent ∧
        d.party.me.public = peer ∧ d.party.genesis = p.genesis ∧
        (d.party.stream = p.stream.other ∨
          (d.party.stream = p.stream ∧ reflectionNet.Adversarial p.stream.other))) ∧
    (∀ (i : Nat) (p : Party) (k : PublicKey),
      reflected.calls[i]? = some (.inbound p (.returned (.ok k))) →
      reflectionNet.corrupt k = false →
      ∃ (j : Nat) (q : Party) (peer : PublicKey),
        reflectionNet.calls[j]? = some (.outbound q peer .send) ∧
        (q.stream, q.hello) ∈ reflected.sent ∧ q.me.public = k ∧ q.genesis = p.genesis ∧
        q.stream = p.stream.other) ∧
    (∀ (t : NoiseStream) (g : Handshake) (i : Nat) (p : Party) (pc : Inbound),
      (t, g) ∈ reflected.sent → reflected.calls[i]? = some (.inbound p pc) → p.stream = t →
      ∃ k g', pc = .returned (.ok k) ∧ (t, g') ∈ reflected.received ∧
        inboundCheck t.sessionId p.genesis g' = .ok () ∧ g'.sessionId.key = k) :=
  ⟨Wire.plain_lawful, handshake_authentication Wire.plain_lawful reflected_reachable⟩

/-- An `outbound` expecting its own key accepts its own handshake reflected back. -/
theorem outbound_accepts_reflection :
    ¬ ∀ (net : Network Signed GenesisHash) (s : State Signed GenesisHash), net.wire.Lawful →
      net.Reachable s → ∀ (i : Nat) (p : Party) (peer : PublicKey),
        s.calls[i]? = some (.outbound p peer (.returned (.ok ()))) → net.corrupt peer = false →
        ∃ (j : Nat) (d : HandshakeCall), net.calls[j]? = some d ∧
          (d.party.stream, d.party.hello) ∈ s.sent ∧ d.party.me.public = peer ∧
          d.party.genesis = p.genesis ∧ d.party.stream = p.stream.other := by
  intro claim
  obtain ⟨j, d, hj, -, -, -, hother⟩ := claim reflectionNet reflected Wire.plain_lawful
    reflected_reachable 0 reflectionParty ⟨0⟩ rfl rfl
  rcases j with _ | j <;> simp only [reflectionNet, List.getElem?_cons_zero, Option.some.injEq,
    List.getElem?_cons_succ, List.getElem?_nil, reduceCtorEq] at hj
  subst hj
  simp [HandshakeCall.party, reflectionParty, NoiseStream.other] at hother

end Network

end EraConsensus
