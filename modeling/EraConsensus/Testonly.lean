import EraConsensus.Handshake.Message
import Mathlib.Data.List.Dedup
import Mathlib.Data.Nat.ModEq
import Mathlib.Logic.Relation

/-! `testonly::new_configs`, where node `i` gets the next `gossip_peers` nodes around the
ring as static outbound peers, and `new_fullnode`. `HashMap` is kept as its entries. -/

namespace EraConsensus

structure HashMap (K V : Type) where
  entries : List (K × V)
  keys_nodup : (entries.map Prod.fst).Nodup

namespace HashMap

theorem entries_nodup {K V : Type} (m : HashMap K V) : m.entries.Nodup := m.keys_nodup.of_map _

variable {K V : Type} [DecidableEq K]

def empty : HashMap K V := ⟨[], List.nodup_nil⟩

theorem insert_keys_nodup (m : HashMap K V) (k : K) (v : V) :
    ((m.entries.filter (·.1 ≠ k) ++ [(k, v)]).map Prod.fst).Nodup := by
  rw [List.map_append, List.map_singleton]
  refine (m.keys_nodup.sublist ((List.filter_sublist _).map _)).append (List.nodup_singleton k)
    (List.disjoint_singleton.mpr ?_)
  simp

def insert (m : HashMap K V) (k : K) (v : V) : HashMap K V :=
  ⟨m.entries.filter (·.1 ≠ k) ++ [(k, v)], insert_keys_nodup m k v⟩

theorem mem_insert {m : HashMap K V} {k : K} {v : V} {e : K × V} :
    e ∈ (m.insert k v).entries ↔ e = (k, v) ∨ (e ∈ m.entries ∧ e.1 ≠ k) := by
  simp [insert, or_comm]

def insertAll (m : HashMap K V) (L : List (K × V)) : HashMap K V :=
  L.foldl (fun m e => m.insert e.1 e.2) m

def Consistent (L : List (K × V)) : Prop := ∀ e ∈ L, ∀ e' ∈ L, e.1 = e'.1 → e = e'

theorem mem_insertAll {L : List (K × V)} (hL : Consistent L) (m : HashMap K V) {e : K × V} :
    e ∈ (m.insertAll L).entries ↔ e ∈ L ∨ (e ∈ m.entries ∧ e.1 ∉ L.map Prod.fst) := by
  induction L generalizing m with
  | nil => simp [insertAll]
  | cons a L ih =>
    have hL' : Consistent L := fun x hx y hy => hL x (.tail _ hx) y (.tail _ hy)
    show e ∈ ((m.insert a.1 a.2).insertAll L).entries ↔ _
    rw [ih hL', mem_insert]
    simp only [List.mem_cons, List.map_cons, not_or]
    constructor
    · rintro (he | ⟨rfl | ⟨hm, hne⟩, hnot⟩)
      · exact .inl (.inr he)
      · exact .inl (.inl rfl)
      · exact .inr ⟨hm, hne, hnot⟩
    · rintro ((rfl | he) | ⟨hm, hne, hnot⟩)
      · by_cases hin : e.1 ∈ L.map Prod.fst
        · obtain ⟨x, hx, hxe⟩ := List.mem_map.mp hin
          exact .inl (hL x (.tail _ hx) e (.head _) hxe ▸ hx)
        · exact .inr ⟨.inl rfl, hin⟩
      · exact .inl he
      · exact .inr ⟨.inr ⟨hm, hne⟩, hnot⟩

end HashMap

structure Node.SecretKey where
  id : Nat
  deriving DecidableEq, Repr

structure Node.PublicKey where
  id : Nat
  deriving DecidableEq, Repr

def Node.SecretKey.public (k : Node.SecretKey) : Node.PublicKey := ⟨k.id⟩

structure SocketAddr where
  port : Nat
  deriving DecidableEq, Repr

def usizeMax : Nat := 2 ^ 64 - 1

structure GossipConfig where
  key : Node.SecretKey
  dynamicInboundLimit : Nat
  staticInbound : List Node.PublicKey
  staticOutbound : HashMap Node.PublicKey SocketAddr

/-- `Config`, without `rpc`, which no modelled function reads. -/
structure Config where
  serverAddr : SocketAddr
  publicAddr : SocketAddr
  pingTimeout : Option Nat
  validatorKey : Option SecretKey
  gossip : GossipConfig
  maxBlockSize : Nat

namespace Config

def peerEntry (c : Config) : Node.PublicKey × SocketAddr := (c.gossip.key.public, c.serverAddr)

def insertStaticOutbound (c : Config) (peer : Node.PublicKey) (addr : SocketAddr) : Config :=
  { c with gossip := { c.gossip with staticOutbound := c.gossip.staticOutbound.insert peer addr } }

def withStaticOutbound (c : Config) (m : HashMap Node.PublicKey SocketAddr) : Config :=
  { c with gossip := { c.gossip with staticOutbound := m } }

@[simp] theorem peerEntry_insertStaticOutbound (c : Config) (peer : Node.PublicKey)
    (addr : SocketAddr) : (c.insertStaticOutbound peer addr).peerEntry = c.peerEntry := rfl

@[simp] theorem peerEntry_withStaticOutbound (c : Config) (m : HashMap Node.PublicKey SocketAddr) :
    (c.withStaticOutbound m).peerEntry = c.peerEntry := rfl

@[simp] theorem staticOutbound_withStaticOutbound (c : Config)
    (m : HashMap Node.PublicKey SocketAddr) : (c.withStaticOutbound m).gossip.staticOutbound = m :=
  rfl

end Config

/-- What `new_configs` draws for a validator key: the reserved address and the gossip key. -/
structure NodeSetup where
  validatorKey : SecretKey
  addr : SocketAddr
  gossipKey : Node.SecretKey
  deriving DecidableEq, Repr

def NodeSetup.config (nd : NodeSetup) : Config where
  serverAddr := nd.addr
  publicAddr := nd.addr
  pingTimeout := none
  validatorKey := some nd.validatorKey
  gossip := ⟨nd.gossipKey, usizeMax, [], HashMap.empty⟩
  maxBlockSize := usizeMax

/-- What a node offers its peers: its gossip key's public key and its address. -/
def NodeSetup.entry (nd : NodeSetup) : Node.PublicKey × SocketAddr := (nd.gossipKey.public, nd.addr)

/-- The inner loop's body of `new_configs`. -/
def addPeer (n i j : Nat) (cfgs : List Config) : List Config :=
  match cfgs[(i + j + 1) % n]?, cfgs[i]? with
  | some peer, some c => cfgs.set i (c.insertStaticOutbound peer.gossip.key.public peer.serverAddr)
  | _, _ => cfgs

def newConfigs (nodes : List NodeSetup) (gossipPeers : Nat) : List Config :=
  let cfgs := nodes.map NodeSetup.config
  let n := cfgs.length
  (List.range n).foldl (fun cfgs i =>
    (List.range gossipPeers).foldl (fun cfgs j => addPeer n i j cfgs) cfgs) cfgs

section Ring

theorem ring_index_inj {n i j j' : Nat} (hj : j < n) (hj' : j' < n)
    (h : (i + j + 1) % n = (i + j' + 1) % n) : j = j' := by
  have hmod : i + 1 + j ≡ i + 1 + j' [MOD n] := by
    unfold Nat.ModEq
    rwa [show i + 1 + j = i + j + 1 by omega, show i + 1 + j' = i + j' + 1 by omega]
  have := Nat.ModEq.add_left_cancel' (i + 1) hmod
  rwa [Nat.ModEq, Nat.mod_eq_of_lt hj, Nat.mod_eq_of_lt hj'] at this

theorem ring_index_mod (n i j : Nat) : (i + j + 1) % n = (i + j % n + 1) % n :=
  (((Nat.mod_modEq j n).add_left i).add_right 1).symm

theorem ring_self_iff {n i g : Nat} (hi : i < n) :
    (∃ j < g, (i + j + 1) % n = i) ↔ n ≤ g := by
  constructor
  · rintro ⟨j, hj, hself⟩
    by_contra hg
    have hmod : i + (j + 1) ≡ i + 0 [MOD n] := by
      unfold Nat.ModEq
      rw [show i + (j + 1) = i + j + 1 by omega, hself, Nat.add_zero, Nat.mod_eq_of_lt hi]
    have := Nat.ModEq.add_left_cancel' i hmod
    rw [Nat.ModEq, Nat.mod_eq_of_lt (show j + 1 < n by omega), Nat.zero_mod] at this
    omega
  · intro hg
    refine ⟨n - 1, by omega, ?_⟩
    rw [show i + (n - 1) + 1 = i + n by omega, Nat.add_mod_right, Nat.mod_eq_of_lt hi]

end Ring

section Loop

variable (E : List (Node.PublicKey × SocketAddr))

def peerList (i : Nat) (js : List Nat) : List (Node.PublicKey × SocketAddr) :=
  js.filterMap fun j => E[(i + j + 1) % E.length]?

variable {E} {cfgs : List Config} {i : Nat}

theorem getElem?_addPeer (hE : cfgs.map Config.peerEntry = E) (hi : i < E.length) (j : Nat) :
    ∃ e, E[(i + j + 1) % E.length]? = some e ∧ ∀ x, (addPeer E.length i j cfgs)[x]? =
      if x = i then cfgs[x]?.map (·.insertStaticOutbound e.1 e.2) else cfgs[x]? := by
  have hlen : cfgs.length = E.length := by rw [← hE, List.length_map]
  obtain ⟨peer, hpeer⟩ : ∃ peer, cfgs[(i + j + 1) % E.length]? = some peer :=
    ⟨_, List.getElem?_eq_getElem (hlen ▸ Nat.mod_lt _ (by omega))⟩
  obtain ⟨c, hc⟩ : ∃ c, cfgs[i]? = some c := ⟨_, List.getElem?_eq_getElem (hlen ▸ hi)⟩
  have entry : ∀ k, E[k]? = cfgs[k]?.map Config.peerEntry := fun k => by rw [← hE, List.getElem?_map]
  refine ⟨peer.peerEntry, by rw [entry, hpeer, Option.map_some'], fun x => ?_⟩
  simp only [addPeer, hpeer, hc, List.getElem?_set]
  by_cases hx : x = i
  · subst hx
    simp [hc, hlen ▸ hi, Config.peerEntry]
  · simp [hx, Ne.symm hx]

theorem peerEntries_addPeer (hE : cfgs.map Config.peerEntry = E) (hi : i < E.length) (j : Nat) :
    (addPeer E.length i j cfgs).map Config.peerEntry = E := by
  obtain ⟨e, -, hx⟩ := getElem?_addPeer hE hi j
  refine List.ext_getElem? fun x => ?_
  rw [List.getElem?_map, hx, ← hE, List.getElem?_map]
  split_ifs <;> simp [Option.map_map, Function.comp_def]

theorem inner_loop (js : List Nat) (hE : cfgs.map Config.peerEntry = E) (hi : i < E.length) :
    (js.foldl (fun cs j => addPeer E.length i j cs) cfgs).map Config.peerEntry = E ∧
    ∀ x, (js.foldl (fun cs j => addPeer E.length i j cs) cfgs)[x]? = if x = i then
      cfgs[x]?.map fun c => c.withStaticOutbound (c.gossip.staticOutbound.insertAll (peerList E i js))
    else cfgs[x]? := by
  induction js generalizing cfgs with
  | nil =>
    refine ⟨hE, fun x => ?_⟩
    split_ifs <;> simp [peerList, HashMap.insertAll, Config.withStaticOutbound]
  | cons j js ih =>
    obtain ⟨e, he, hx⟩ := getElem?_addPeer hE hi j
    obtain ⟨hE', hx'⟩ := ih (peerEntries_addPeer hE hi j)
    refine ⟨hE', fun x => ?_⟩
    rw [List.foldl_cons, hx', hx]
    by_cases hxi : x = i
    · simp only [hxi, if_true, Option.map_map, Function.comp_def]
      simp [peerList, he, HashMap.insertAll, Config.insertStaticOutbound,
        Config.withStaticOutbound]
    · simp [hxi]

theorem outer_loop (g : Nat) (is : List Nat) (nodup : is.Nodup) (bound : ∀ i ∈ is, i < E.length)
    (hE : cfgs.map Config.peerEntry = E) :
    (is.foldl (fun cs i => (List.range g).foldl (fun cs j => addPeer E.length i j cs) cs)
      cfgs).map Config.peerEntry = E ∧
    ∀ x, (is.foldl (fun cs i => (List.range g).foldl (fun cs j => addPeer E.length i j cs) cs)
      cfgs)[x]? = if x ∈ is then
        cfgs[x]?.map fun c =>
          c.withStaticOutbound (c.gossip.staticOutbound.insertAll (peerList E x (List.range g)))
      else cfgs[x]? := by
  induction is generalizing cfgs with
  | nil => exact ⟨hE, fun x => by simp⟩
  | cons i is ih =>
    obtain ⟨hnot, hnodup⟩ := List.nodup_cons.mp nodup
    have hi := bound i (.head _)
    obtain ⟨hE₁, hx₁⟩ := inner_loop (List.range g) hE hi
    obtain ⟨hE₂, hx₂⟩ := ih hnodup (fun k hk => bound k (.tail _ hk)) hE₁
    refine ⟨hE₂, fun x => ?_⟩
    rw [List.foldl_cons, hx₂, hx₁]
    by_cases hxi : x = i
    · subst hxi
      simp [hnot]
    · by_cases hxs : x ∈ is <;> simp [hxi, hxs]

end Loop

theorem newConfigs_spec (nodes : List NodeSetup) (g : Nat) :
    (newConfigs nodes g).length = nodes.length ∧
    ∀ x : Nat, (newConfigs nodes g)[x]? = nodes[x]?.map fun nd =>
      nd.config.withStaticOutbound
        (HashMap.empty.insertAll (peerList (nodes.map NodeSetup.entry) x (List.range g))) := by
  have hE : (nodes.map NodeSetup.config).map Config.peerEntry = nodes.map NodeSetup.entry := by
    simp only [List.map_map]
    rfl
  have hlen : (nodes.map NodeSetup.config).length = (nodes.map NodeSetup.entry).length := by
    simp
  have loop := outer_loop g (List.range _) (List.nodup_range _)
    (fun i hi => List.mem_range.mp hi) hE
  rw [← hlen] at loop
  simp only [newConfigs]
  refine ⟨by simpa using congrArg List.length loop.1, fun x => ?_⟩
  rw [loop.2 x]
  split_ifs with hx
  · rw [List.getElem?_map, Option.map_map]
    rfl
  · have : nodes.length ≤ x := by simpa using hx
    simp [List.getElem?_eq_none this]

theorem newConfigs_getElem?_node {nodes : List NodeSetup} {g k : Nat} {c : Config}
    (hk : (newConfigs nodes g)[k]? = some c) :
    ∃ nd, nodes[k]? = some nd ∧ c.gossip.key = nd.gossipKey ∧ c.publicAddr = c.serverAddr := by
  rw [(newConfigs_spec nodes g).2 k] at hk
  obtain ⟨nd, hnd, rfl⟩ := Option.map_eq_some'.mp hk
  exact ⟨nd, hnd, rfl, rfl⟩

theorem nodup_filterMap_of_injOn {α β : Type} {f : α → Option β} {l : List α} (hl : l.Nodup)
    (inj : ∀ a ∈ l, ∀ a' ∈ l, ∀ b, f a = some b → f a' = some b → a = a') :
    (l.filterMap f).Nodup := by
  induction l with
  | nil => exact List.nodup_nil
  | cons a l ih =>
    obtain ⟨ha, hl⟩ := List.nodup_cons.mp hl
    have inj' := fun x hx y hy => inj x (.tail _ hx) y (.tail _ hy)
    rw [List.filterMap_cons]
    cases hfa : f a with
    | none => exact ih hl inj'
    | some b =>
      refine List.nodup_cons.mpr ⟨fun hb => ?_, ih hl inj'⟩
      obtain ⟨a', ha', hfa'⟩ := List.mem_filterMap.mp hb
      exact ha (inj a (.head _) a' (.tail _ ha') b hfa hfa' ▸ ha')

section Peers

variable {nodes : List NodeSetup} (distinct : (nodes.map fun nd => nd.gossipKey.public).Nodup)

theorem mem_peerList {E : List (Node.PublicKey × SocketAddr)} {i : Nat} {js : List Nat}
    {e : Node.PublicKey × SocketAddr} :
    e ∈ peerList E i js ↔ ∃ j ∈ js, E[(i + j + 1) % E.length]? = some e :=
  List.mem_filterMap

include distinct in
theorem entries_nodup_keys : ((nodes.map NodeSetup.entry).map Prod.fst).Nodup := by
  simpa [List.map_map, Function.comp_def, NodeSetup.entry] using distinct

include distinct in
theorem peerList_consistent (i : Nat) (js : List Nat) :
    HashMap.Consistent (peerList (nodes.map NodeSetup.entry) i js) := by
  intro e he e' he' hk
  obtain ⟨j, -, hj⟩ := mem_peerList.mp he
  obtain ⟨j', -, hj'⟩ := mem_peerList.mp he'
  exact List.inj_on_of_nodup_map (entries_nodup_keys distinct) (List.getElem?_mem hj)
    (List.getElem?_mem hj') hk

include distinct in
theorem newConfigs_peers_mem (g : Nat) {i : Nat} {nd : NodeSetup} (hi : nodes[i]? = some nd) :
    ∃ M : HashMap Node.PublicKey SocketAddr,
      (newConfigs nodes g)[i]? = some (nd.config.withStaticOutbound M) ∧
      M = HashMap.empty.insertAll (peerList (nodes.map NodeSetup.entry) i (List.range g)) ∧
      ∀ e, e ∈ M.entries ↔
        ∃ j < g, nodes[(i + j + 1) % nodes.length]?.map NodeSetup.entry = some e := by
  refine ⟨_, by rw [(newConfigs_spec nodes g).2 i, hi, Option.map_some'], rfl, fun e => ?_⟩
  rw [HashMap.mem_insertAll (peerList_consistent distinct i _), mem_peerList]
  simp [HashMap.empty, List.getElem?_map]

include distinct in
theorem staticOutbound_key_newConfigs {g a : Nat} {c : Config}
    (ha : (newConfigs nodes g)[a]? = some c) {e : Node.PublicKey × SocketAddr}
    (he : e ∈ c.gossip.staticOutbound.entries) : ∃ nd ∈ nodes, e.1 = nd.gossipKey.public := by
  obtain ⟨nd, hnd, -, -⟩ := newConfigs_getElem?_node ha
  obtain ⟨M, hM, -, hmem⟩ := newConfigs_peers_mem distinct g hnd
  obtain rfl := Option.some.inj (ha.symm.trans hM)
  obtain ⟨j, -, hj⟩ := (hmem e).mp he
  obtain ⟨nd', hnd', rfl⟩ := Option.map_eq_some'.mp hj
  exact ⟨nd', List.getElem?_mem hnd', rfl⟩

include distinct in
theorem peers_length (g : Nat) {i : Nat} (hi : i < nodes.length) :
    (HashMap.empty.insertAll (peerList (nodes.map NodeSetup.entry) i (List.range g))).entries.length =
      min g nodes.length := by
  set E := nodes.map NodeSetup.entry
  have hn : E.length = nodes.length := List.length_map _ _
  have hpos : 0 < E.length := by omega
  have some_of_lt : ∀ j, ∃ e, E[(i + j + 1) % E.length]? = some e :=
    fun j => ⟨_, List.getElem?_eq_getElem (Nat.mod_lt _ hpos)⟩
  have hEnodup : E.Nodup := (entries_nodup_keys distinct).of_map _
  have hmin : (peerList E i (List.range (min g nodes.length))).Nodup := by
    refine nodup_filterMap_of_injOn (List.nodup_range _) fun j hj j' hj' b hb hb' => ?_
    rw [List.mem_range] at hj hj'
    have := List.getElem?_inj (Nat.mod_lt _ hpos) hEnodup (hb.trans hb'.symm)
    exact ring_index_inj (by omega) (by omega) this
  have hperm : (HashMap.empty.insertAll (peerList E i (List.range g))).entries.Perm
      (peerList E i (List.range (min g nodes.length))) :=
    (List.perm_ext_iff_of_nodup (HashMap.entries_nodup _) hmin).mpr fun e => by
    rw [HashMap.mem_insertAll (peerList_consistent distinct i _), mem_peerList, mem_peerList]
    simp only [HashMap.empty, List.not_mem_nil, false_and, or_false, List.mem_range]
    constructor
    · rintro ⟨j, hj, he⟩
      refine ⟨j % E.length, lt_min (lt_of_le_of_lt (Nat.mod_le _ _) hj) (hn ▸ Nat.mod_lt _ hpos), ?_⟩
      rwa [← ring_index_mod]
    · rintro ⟨j, hj, he⟩
      exact ⟨j, lt_of_lt_of_le hj (min_le_left _ _), he⟩
  rw [hperm.length_eq, peerList, List.length_filterMap_eq_countP,
    List.countP_eq_length.mpr fun j _ => ?_, List.length_range]
  obtain ⟨e, he⟩ := some_of_lt j
  simp [he]

end Peers

/-- With distinct gossip keys, config `i` is node `i`'s, with exactly the entries of the
nodes `(i + j + 1) % n` for `j < gossip_peers`, `min gossip_peers n` of them. -/
theorem new_configs_peers (nodes : List NodeSetup) (g : Nat)
    (distinct : (nodes.map fun nd => nd.gossipKey.public).Nodup) :
    (newConfigs nodes g).length = nodes.length ∧
    ∀ i nd, nodes[i]? = some nd → ∃ M : HashMap Node.PublicKey SocketAddr,
      (newConfigs nodes g)[i]? = some (nd.config.withStaticOutbound M) ∧
      (∀ e, e ∈ M.entries ↔
        ∃ j < g, nodes[(i + j + 1) % nodes.length]?.map NodeSetup.entry = some e) ∧
      M.entries.length = min g nodes.length := by
  refine ⟨(newConfigs_spec nodes g).1, fun i nd hi => ?_⟩
  obtain ⟨M, hM, rfl, hmem⟩ := newConfigs_peers_mem distinct g hi
  exact ⟨_, hM, hmem, peers_length distinct g (List.getElem?_eq_some_iff.mp hi).1⟩

def sampleNodes : List NodeSetup :=
  [⟨⟨1⟩, ⟨8001⟩, ⟨11⟩⟩, ⟨⟨2⟩, ⟨8002⟩, ⟨12⟩⟩, ⟨⟨3⟩, ⟨8003⟩, ⟨13⟩⟩]

theorem new_configs_peers_sample :
    (sampleNodes.map fun nd => nd.gossipKey.public).Nodup ∧
    (newConfigs sampleNodes 1).length = sampleNodes.length ∧
    ∀ i nd, sampleNodes[i]? = some nd → ∃ M : HashMap Node.PublicKey SocketAddr,
      (newConfigs sampleNodes 1)[i]? = some (nd.config.withStaticOutbound M) ∧
      (∀ e, e ∈ M.entries ↔
        ∃ j < 1, sampleNodes[(i + j + 1) % sampleNodes.length]?.map NodeSetup.entry = some e) ∧
      M.entries.length = min 1 sampleNodes.length :=
  ⟨by decide, new_configs_peers sampleNodes 1 (by decide)⟩

/-- `a`'s config maps `b`'s gossip key to `b`'s server address. -/
def StaticPeer (cfgs : List Config) (a b : Nat) : Prop :=
  ∃ c d, cfgs[a]? = some c ∧ cfgs[b]? = some d ∧ d.peerEntry ∈ c.gossip.staticOutbound.entries

theorem staticPeer_newConfigs {nodes : List NodeSetup}
    (distinct : (nodes.map fun nd => nd.gossipKey.public).Nodup) (g : Nat) {a b : Nat}
    (ha : a < nodes.length) (hb : b < nodes.length) :
    StaticPeer (newConfigs nodes g) a b ↔ ∃ j < g, (a + j + 1) % nodes.length = b := by
  obtain ⟨nda, hnda⟩ : ∃ nd, nodes[a]? = some nd := ⟨_, List.getElem?_eq_getElem ha⟩
  obtain ⟨ndb, hndb⟩ : ∃ nd, nodes[b]? = some nd := ⟨_, List.getElem?_eq_getElem hb⟩
  obtain ⟨Ma, hMa, -, hmem⟩ := newConfigs_peers_mem distinct g hnda
  obtain ⟨Mb, hMb, -, -⟩ := newConfigs_peers_mem distinct g hndb
  have hEnodup := (entries_nodup_keys distinct).of_map _
  have hpos : 0 < nodes.length := by omega
  have hentry : ∀ k, (nodes.map NodeSetup.entry)[k]? = nodes[k]?.map NodeSetup.entry :=
    fun k => List.getElem?_map _ _ _
  simp only [StaticPeer, hMa, hMb, Option.some.injEq, exists_and_left, exists_eq_left',
    Config.peerEntry_withStaticOutbound, Config.staticOutbound_withStaticOutbound]
  rw [show (ndb.config).peerEntry = ndb.entry from rfl, hmem]
  constructor
  · rintro ⟨j, hj, he⟩
    refine ⟨j, hj, List.getElem?_inj (by simpa using Nat.mod_lt _ hpos) hEnodup ?_⟩
    rw [hentry, hentry, he, hndb, Option.map_some']
  · rintro ⟨j, hj, rfl⟩
    exact ⟨j, hj, by rw [hndb, Option.map_some']⟩

theorem staticPeer_reaches {nodes : List NodeSetup}
    (distinct : (nodes.map fun nd => nd.gossipKey.public).Nodup) {g i m : Nat} (hg : 0 < g)
    (hi : i < nodes.length) (hm : m < nodes.length) :
    Relation.ReflTransGen (StaticPeer (newConfigs nodes g)) i m := by
  set n := nodes.length
  have next : ∀ a < n, StaticPeer (newConfigs nodes g) a ((a + 1) % n) := fun a ha =>
    (staticPeer_newConfigs distinct g ha (Nat.mod_lt _ (by omega))).mpr ⟨0, hg, rfl⟩
  have reach : ∀ d, Relation.ReflTransGen (StaticPeer (newConfigs nodes g)) i ((i + d) % n) := by
    intro d
    induction d with
    | zero => rw [Nat.add_zero, Nat.mod_eq_of_lt hi]
    | succ d ih =>
      refine ih.tail ?_
      have := next _ (Nat.mod_lt (i + d) (by omega))
      rwa [((Nat.mod_modEq (i + d) n).add_right 1)] at this
  have := reach (m + n - i)
  rwa [show i + (m + n - i) = m + n by omega, Nat.add_mod_right, Nat.mod_eq_of_lt hm] at this

/-- A node is its own peer exactly when `gossip_peers ≥ n`, and with one peer each every
node reaches every other. -/
theorem new_configs_ring (nodes : List NodeSetup) (g : Nat)
    (distinct : (nodes.map fun nd => nd.gossipKey.public).Nodup) {i : Nat}
    (hi : i < nodes.length) :
    (StaticPeer (newConfigs nodes g) i i ↔ nodes.length ≤ g) ∧
    (0 < g → ∀ m < nodes.length, Relation.ReflTransGen (StaticPeer (newConfigs nodes g)) i m) :=
  ⟨(staticPeer_newConfigs distinct g hi hi).trans (ring_self_iff hi),
    fun hg _ hm => staticPeer_reaches distinct hg hi hm⟩

theorem new_configs_ring_sample :
    (sampleNodes.map fun nd => nd.gossipKey.public).Nodup ∧ 0 < sampleNodes.length ∧
    (StaticPeer (newConfigs sampleNodes 1) 0 0 ↔ sampleNodes.length ≤ 1) ∧
    (0 < 1 → ∀ m < sampleNodes.length,
      Relation.ReflTransGen (StaticPeer (newConfigs sampleNodes 1)) 0 m) :=
  ⟨by decide, by decide, new_configs_ring sampleNodes 1 (by decide) (by decide)⟩

def newFullnode (addr : SocketAddr) (key : Node.SecretKey) (peer : Config) : Config where
  serverAddr := addr
  publicAddr := addr
  pingTimeout := none
  validatorKey := none
  gossip := ⟨key, usizeMax, [], HashMap.empty.insert peer.gossip.key.public peer.publicAddr⟩
  maxBlockSize := usizeMax

theorem StaticPeer.append {cfgs : List Config} (more : List Config) {a b : Nat}
    (h : StaticPeer cfgs a b) : StaticPeer (cfgs ++ more) a b := by
  obtain ⟨c, d, ha, hb, he⟩ := h
  refine ⟨c, d, ?_, ?_, he⟩
  · rw [List.getElem?_append_left (List.getElem?_eq_some_iff.mp ha).1, ha]
  · rw [List.getElem?_append_left (List.getElem?_eq_some_iff.mp hb).1, hb]

/-- A full node on node `k` has node `k`'s entry as its only one, reaches every
validator, and with a key of its own is dialed by none. -/
theorem new_fullnode_reaches (nodes : List NodeSetup) (g : Nat)
    (distinct : (nodes.map fun nd => nd.gossipKey.public).Nodup) (hg : 0 < g) {k : Nat}
    {peer : Config} (hk : (newConfigs nodes g)[k]? = some peer) (addr : SocketAddr)
    (key : Node.SecretKey) :
    (newFullnode addr key peer).gossip.staticOutbound.entries = [peer.peerEntry] ∧
    StaticPeer (newConfigs nodes g ++ [newFullnode addr key peer]) nodes.length k ∧
    (∀ m < nodes.length, Relation.ReflTransGen
      (StaticPeer (newConfigs nodes g ++ [newFullnode addr key peer])) nodes.length m) ∧
    (key.public ∉ nodes.map (fun nd => nd.gossipKey.public) →
      ∀ a, ¬ StaticPeer (newConfigs nodes g ++ [newFullnode addr key peer]) a nodes.length) := by
  have hlen := (newConfigs_spec nodes g).1
  have hfull : (newConfigs nodes g ++ [newFullnode addr key peer])[nodes.length]? =
      some (newFullnode addr key peer) := by
    rw [List.getElem?_append_right (by omega), hlen, Nat.sub_self]
    rfl
  obtain ⟨nd, hnd, hpeer, hpub⟩ := newConfigs_getElem?_node hk
  have hkn : k < nodes.length := (List.getElem?_eq_some_iff.mp hnd).1
  have only : (newFullnode addr key peer).gossip.staticOutbound.entries = [peer.peerEntry] := by
    simp [newFullnode, HashMap.insert, HashMap.empty, Config.peerEntry, hpub]
  have dial : StaticPeer (newConfigs nodes g ++ [newFullnode addr key peer]) nodes.length k :=
    ⟨_, peer, hfull, by rw [List.getElem?_append_left (by omega), hk], by simp [only]⟩
  refine ⟨only, dial, fun m hm => .head dial
    ((staticPeer_reaches distinct hg hkn hm).mono fun _ _ h => h.append _), fun hkey a => ?_⟩
  rintro ⟨c, d, ha, hd, he⟩
  obtain rfl : d = newFullnode addr key peer := Option.some.inj (hd.symm.trans hfull)
  obtain ⟨nd', hnd', hkey'⟩ : ∃ nd ∈ nodes, key.public = nd.gossipKey.public := by
    rcases Nat.lt_or_ge a nodes.length with hlt | hge
    · rw [List.getElem?_append_left (by omega)] at ha
      exact staticOutbound_key_newConfigs distinct ha he
    · rw [List.getElem?_append_right (by omega), hlen] at ha
      obtain rfl := List.mem_singleton.mp (List.getElem?_mem ha)
      simp only [only, List.mem_singleton, Config.peerEntry, Prod.mk.injEq, hpeer] at he
      exact ⟨nd, List.getElem?_mem hnd, he.1⟩
  exact hkey (List.mem_map.mpr ⟨nd', hnd', hkey'.symm⟩)

def sampleNode0Config : Option Config := (newConfigs sampleNodes 1)[0]?

def sampleFullnode : Config := newFullnode ⟨9000⟩ ⟨20⟩ (sampleNode0Config.get rfl)

theorem new_fullnode_reaches_sample :
    (sampleNodes.map fun nd => nd.gossipKey.public).Nodup ∧ 0 < 1 ∧
    (newConfigs sampleNodes 1)[0]? = some (sampleNode0Config.get rfl) ∧
    (⟨20⟩ : Node.SecretKey).public ∉ sampleNodes.map (fun nd => nd.gossipKey.public) ∧
    sampleFullnode.gossip.staticOutbound.entries = [(sampleNode0Config.get rfl).peerEntry] ∧
    StaticPeer (newConfigs sampleNodes 1 ++ [sampleFullnode]) 3 0 ∧
    (∀ m < 3, Relation.ReflTransGen (StaticPeer (newConfigs sampleNodes 1 ++ [sampleFullnode])) 3 m) ∧
    ∀ a, ¬ StaticPeer (newConfigs sampleNodes 1 ++ [sampleFullnode]) a 3 := by
  have h := new_fullnode_reaches sampleNodes 1 (by decide) (by decide)
    (Option.eq_some_of_isSome (o := sampleNode0Config) rfl) ⟨9000⟩ ⟨20⟩
  exact ⟨by decide, by decide, Option.eq_some_of_isSome (o := sampleNode0Config) rfl, by decide, h.1,
    h.2.1, h.2.2.1, h.2.2.2 (by decide)⟩

end EraConsensus
