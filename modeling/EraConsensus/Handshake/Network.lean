import EraConsensus.Handshake.Call

/-! The handshake on a network of honest calls and an adversary that holds every other
end and sends any frame whose signature it can make. `sent` and `received` are ghost logs. -/

namespace EraConsensus

structure Network (S G : Type) where
  wire : Wire S G
  calls : List HandshakeCall
  corrupt : PublicKey → Bool
  fresh : ∀ c ∈ calls, c.Fresh
  ends_nodup : (calls.map fun c => c.party.stream).Nodup
  honest : ∀ c ∈ calls, corrupt c.party.me.public = false

namespace Network

variable {S G : Type}

structure State (S G : Type) where
  calls : List HandshakeCall
  inbox : NoiseStream → List (HandshakeProto S G)
  sent : List (NoiseStream × Handshake)
  received : List (NoiseStream × Handshake)

inductive Label (S G : Type)
  | send (i : Nat)
  | recv (i : Nat)
  | fail (i : Nat) (e : List String)
  | inject (t : NoiseStream) (m : HandshakeProto S G)

def deliver (inbox : NoiseStream → List (HandshakeProto S G)) (t : NoiseStream)
    (m : HandshakeProto S G) : NoiseStream → List (HandshakeProto S G) :=
  Function.update inbox t (inbox t ++ [m])

theorem mem_deliver {inbox : NoiseStream → List (HandshakeProto S G)} {t u : NoiseStream}
    {m m' : HandshakeProto S G} :
    m' ∈ deliver inbox t m u ↔ m' ∈ inbox u ∨ (u = t ∧ m' = m) := by
  by_cases hu : u = t
  · subst hu
    simp [deliver]
  · simp [deliver, Function.update_noteq hu, hu]

theorem deliver_of_ne {inbox : NoiseStream → List (HandshakeProto S G)} {t u : NoiseStream}
    {m : HandshakeProto S G} (hu : u ≠ t) : deliver inbox t m u = inbox u :=
  Function.update_noteq hu _ _

def readLog (t : NoiseStream) : Except (List String) Handshake → List (NoiseStream × Handshake)
  | .ok h => [(t, h)]
  | .error _ => []

variable (net : Network S G)

def start : State S G := ⟨net.calls, fun _ => [], [], []⟩

def Adversarial (t : NoiseStream) : Prop := ∀ c ∈ net.calls, c.party.stream ≠ t

instance (t : NoiseStream) : Decidable (net.Adversarial t) :=
  inferInstanceAs (Decidable (∀ c ∈ net.calls, c.party.stream ≠ t))

/-- A handshake whose signature the adversary owns or has seen. -/
def Forgeable (s : State S G) (h : Handshake) : Bool :=
  net.corrupt h.sessionId.sig.signer || s.sent.any fun x => x.2.sessionId.sig = h.sessionId.sig

def Injectable (s : State S G) (m : HandshakeProto S G) : Bool :=
  match Handshake.read net.wire m with
  | .ok h => net.Forgeable s h
  | .error _ => true

def step (s : State S G) : Label S G → Option (State S G)
  | .send i => do
    let c ← s.calls[i]?
    let (c', h) ← c.send
    pure { s with calls := s.calls.set i c',
                  inbox := deliver s.inbox c.party.stream.other (Handshake.build net.wire h),
                  sent := s.sent ++ [(c.party.stream, h)] }
  | .recv i => do
    let c ← s.calls[i]?
    match s.inbox c.party.stream with
    | [] => none
    | m :: rest =>
      let c' ← c.recv (Handshake.read net.wire m)
      pure { s with calls := s.calls.set i c',
                    inbox := Function.update s.inbox c.party.stream rest,
                    received := s.received ++ readLog c.party.stream (Handshake.read net.wire m) }
  | .fail i e => do
    let c ← s.calls[i]?
    let c' ← c.fail e
    pure { s with calls := s.calls.set i c' }
  | .inject t m =>
    if net.Adversarial t.other ∧ net.Injectable s m = true then
      some { s with inbox := deliver s.inbox t m }
    else none

def run : State S G → List (Label S G) → Option (State S G)
  | s, [] => some s
  | s, l :: ls => (net.step s l).bind fun s' => run s' ls

inductive Reachable : State S G → Prop
  | start : Reachable net.start
  | step {s s' : State S G} {l : Label S G} : Reachable s → net.step s l = some s' → Reachable s'

variable {net}

theorem run_cons {s s' : State S G} {l : Label S G} {ls : List (Label S G)} :
    net.run s (l :: ls) = some s' ↔ ∃ t, net.step s l = some t ∧ net.run t ls = some s' := by
  simp [run, Option.bind_eq_some]

theorem Reachable.of_run {s s' : State S G} {ls : List (Label S G)} (reach : net.Reachable s)
    (h : net.run s ls = some s') : net.Reachable s' := by
  induction ls generalizing s with
  | nil => cases h; exact reach
  | cons l ls ih =>
    obtain ⟨t, ht, hr⟩ := run_cons.mp h
    exact ih (reach.step ht) hr

theorem step_cases {s s' : State S G} {l : Label S G} (h : net.step s l = some s') :
    (∃ i c c' g, l = .send i ∧ s.calls[i]? = some c ∧ c.send = some (c', g) ∧
      s' = { s with calls := s.calls.set i c',
                    inbox := deliver s.inbox c.party.stream.other (Handshake.build net.wire g),
                    sent := s.sent ++ [(c.party.stream, g)] }) ∨
    (∃ i c c' m rest, l = .recv i ∧ s.calls[i]? = some c ∧ s.inbox c.party.stream = m :: rest ∧
      c.recv (Handshake.read net.wire m) = some c' ∧
      s' = { s with calls := s.calls.set i c', inbox := Function.update s.inbox c.party.stream rest,
                    received := s.received ++ readLog c.party.stream (Handshake.read net.wire m) }) ∨
    (∃ i e c c', l = .fail i e ∧ s.calls[i]? = some c ∧ c.fail e = some c' ∧
      s' = { s with calls := s.calls.set i c' }) ∨
    (∃ t m, l = .inject t m ∧ net.Adversarial t.other ∧ net.Injectable s m = true ∧
      s' = { s with inbox := deliver s.inbox t m }) := by
  cases l with
  | send i =>
    simp only [step, Option.bind_eq_bind, Option.bind_eq_some, Option.pure_def,
      Option.some.injEq, Prod.exists] at h
    obtain ⟨c, hc, c', g, hs, rfl⟩ := h
    exact .inl ⟨i, c, c', g, rfl, hc, hs, rfl⟩
  | recv i =>
    simp only [step, Option.bind_eq_bind, Option.bind_eq_some] at h
    obtain ⟨c, hc, h⟩ := h
    split at h
    · cases h
    · rename_i m rest hm
      simp only [Option.bind_eq_bind, Option.bind_eq_some, Option.pure_def,
        Option.some.injEq] at h
      obtain ⟨c', hr, rfl⟩ := h
      exact .inr (.inl ⟨i, c, c', m, rest, rfl, hc, hm, hr, rfl⟩)
  | fail i e =>
    simp only [step, Option.bind_eq_bind, Option.bind_eq_some, Option.pure_def,
      Option.some.injEq] at h
    obtain ⟨c, hc, c', hf, rfl⟩ := h
    exact .inr (.inr (.inl ⟨i, e, c, c', rfl, hc, hf, rfl⟩))
  | inject t m =>
    simp only [step] at h
    split_ifs at h with hg
    cases h
    exact .inr (.inr (.inr ⟨t, m, rfl, hg.1, hg.2, rfl⟩))

def shape (calls : List HandshakeCall) : List (Party × Role) := calls.map fun c => (c.party, c.role)

theorem shape_set {calls : List HandshakeCall} {i : Nat} {c c' : HandshakeCall} (hc : calls[i]? = some c)
    (same : c'.party = c.party ∧ c'.role = c.role) :
    shape (calls.set i c') = shape calls := by
  apply List.ext_getElem?
  intro j
  by_cases hj : i = j
  · subst hj
    obtain ⟨hlt, rfl⟩ := List.getElem?_eq_some_iff.mp hc
    simp [shape, same, hlt]
  · simp [shape, hj]

theorem shape_getElem? {a b : List HandshakeCall} (hs : shape a = shape b) {j : Nat}
    {c : HandshakeCall} (hc : a[j]? = some c) :
    ∃ d, b[j]? = some d ∧ d.party = c.party ∧ d.role = c.role := by
  have h := congrArg (·[j]?) hs
  simp only [shape, List.getElem?_map, hc, Option.map_some'] at h
  cases hd : b[j]? with
  | none => simp [hd] at h
  | some d =>
    simp only [hd, Option.map_some', Option.some.injEq, Prod.mk.injEq] at h
    exact ⟨d, rfl, h.1.symm, h.2.symm⟩

theorem step_shape {s s' : State S G} {l : Label S G} (h : net.step s l = some s') :
    shape s'.calls = shape s.calls := by
  rcases step_cases h with ⟨i, c, c', g, -, hc, hs, rfl⟩ | ⟨i, c, c', m, rest, -, hc, -, hr, rfl⟩ |
    ⟨i, e, c, c', -, hc, hf, rfl⟩ | ⟨t, m, -, -, -, rfl⟩
  · exact shape_set hc (HandshakeCall.send_shape hs)
  · exact shape_set hc (HandshakeCall.recv_shape hr)
  · exact shape_set hc (HandshakeCall.fail_shape hf)
  · rfl

theorem Reachable.shape_eq {s : State S G} (reach : net.Reachable s) :
    shape s.calls = shape net.calls := by
  induction reach with
  | start => rfl
  | step _ h ih => exact (step_shape h).trans ih

theorem Reachable.started {s : State S G} (reach : net.Reachable s) {i : Nat} {c : HandshakeCall}
    (hc : s.calls[i]? = some c) :
    ∃ c₀, net.calls[i]? = some c₀ ∧ c₀.party = c.party ∧ c₀.role = c.role :=
  shape_getElem? reach.shape_eq hc

theorem Reachable.index_unique {s : State S G} (reach : net.Reachable s) {i j : Nat}
    {c d : HandshakeCall} (hc : s.calls[i]? = some c) (hd : s.calls[j]? = some d)
    (same : c.party.stream = d.party.stream) : i = j := by
  obtain ⟨c₀, hc₀, hpc, -⟩ := reach.started hc
  obtain ⟨d₀, hd₀, hpd, -⟩ := reach.started hd
  exact List.getElem?_inj (by simpa using (List.getElem?_eq_some_iff.mp hc₀).1) net.ends_nodup
    (by simp [List.getElem?_map, hc₀, hd₀, hpc, hpd, same])

theorem Reachable.call_unique {s : State S G} (reach : net.Reachable s) {i j : Nat}
    {c d : HandshakeCall} (hc : s.calls[i]? = some c) (hd : s.calls[j]? = some d)
    (same : c.party.stream = d.party.stream) : i = j ∧ c = d := by
  obtain rfl := reach.index_unique hc hd same
  exact ⟨rfl, Option.some.inj (hc.symm.trans hd)⟩

theorem Reachable.adversarial {s : State S G} (reach : net.Reachable s) {t : NoiseStream}
    (ht : net.Adversarial t) {i : Nat} {c : HandshakeCall} (hc : s.calls[i]? = some c) :
    c.party.stream ≠ t := by
  obtain ⟨c₀, hc₀, hp, -⟩ := reach.started hc
  exact hp ▸ ht c₀ (List.getElem?_mem hc₀)

theorem step_call {s s' : State S G} {l : Label S G} (h : net.step s l = some s') {j : Nat}
    {d : HandshakeCall} (hd : s.calls[j]? = some d) :
    ∃ d', s'.calls[j]? = some d' ∧ d'.party = d.party ∧ d'.role = d.role :=
  shape_getElem? (step_shape h).symm hd

theorem step_call_before {s s' : State S G} {l : Label S G} (h : net.step s l = some s') {j : Nat}
    {d' : HandshakeCall} (hd' : s'.calls[j]? = some d') :
    ∃ d, s.calls[j]? = some d ∧ d.party = d'.party ∧ d.role = d'.role :=
  shape_getElem? (step_shape h) hd'

end Network

end EraConsensus
