import Pktflow.Flows.Runs
import Pktflow.Flows.KeyLaw

/-!
# The store is a forest

The well-formedness of the stream store, in its own terms, and that every reachable state has it: under
either eviction policy, with condensation on or off, whatever the packets.
-/

set_option autoImplicit false

namespace Pktflow.Flows

open Pktflow.Core Pktflow.Lib

namespace Aggregator

/-- Where both ids are live, the first was created before the second. -/
def CreatedBefore (a : Aggregator) (x y : StreamId) : Prop :=
  ∀ s t, a.get x = some s → a.get y = some t → s.createdSeq < t.createdSeq

/-- A well-formed store. -/
structure WellFormed (a : Aggregator) : Prop where
  /-- A live stream is stored in the slot its id names. -/
  stored : ∀ (i g : Nat) (s : Stream), a.arena.slots[i]? = some ⟨g, some s⟩ → s.id = ⟨i, g⟩
  /-- A parent is live and older, and lists the stream exactly once. -/
  parent : ∀ id s p, a.get id = some s → s.parent = some p →
    ∃ ps, a.get p = some ps ∧ ps.createdSeq < s.createdSeq ∧ ps.children.count id = 1
  /-- A listed child is live and has the listing stream as its parent. -/
  child : ∀ id s c, a.get id = some s → c ∈ s.children →
    ∃ cs, a.get c = some cs ∧ cs.parent = some id
  /-- The roots are exactly the live parentless streams, each once. -/
  roots : ∀ id, id ∈ a.roots ↔ ∃ s, a.get id = some s ∧ s.parent = none
  roots_nodup : a.roots.Nodup
  children_ordered : ∀ id s, a.get id = some s → s.children.Pairwise a.CreatedBefore
  roots_ordered : a.roots.Pairwise a.CreatedBefore
  /-- The free list holds exactly the empty slots, without duplicates. -/
  free : ∀ i, i ∈ a.arena.free ↔ ∃ g, a.arena.slots[i]? = some ⟨g, none⟩
  free_nodup : a.arena.free.Nodup
  /-- The live count is the number of occupied slots. -/
  count : a.liveCount = (a.arena.slots.filter fun slot => slot.value.isSome).length

theorem createdBefore_of_rankLt {a : Aggregator} {l : List StreamId}
    (h : l.Pairwise (Forest.RankLt a.nodes)) : l.Pairwise a.CreatedBefore := by
  apply h.imp
  intro x y hxy s t hs ht
  exact hxy s.node t.node (nodes_of_get hs) (nodes_of_get ht)

/-- The forest invariant, together with the arena's own, is the well-formedness of the store. -/
theorem ForestInv.wellFormed {a : Aggregator} (h : ForestInv a) : WellFormed a where
  stored := by
    intro i g s hslot
    exact h.id_eq (h := ⟨i, g⟩) (Arena.get_eq_some_iff.2 hslot)
  parent := by
    intro id s p hs hp
    obtain ⟨m, hm, hlt, hmem⟩ := h.forest.parent_node (nodes_of_get hs) hp
    -- the parent lists the child, and lists none twice
    obtain ⟨ps, hps, rfl⟩ := nodes_eq_some.1 hm
    exact ⟨ps, hps, hlt, List.count_eq_one_of_mem (h.forest.children_nodup hm) hmem⟩
  child := by
    intro id s c hs hc
    obtain ⟨m, hm, hp⟩ := h.forest.child_node (nodes_of_get hs) hc
    obtain ⟨cs, hcs, rfl⟩ := nodes_eq_some.1 hm
    exact ⟨cs, hcs, hp⟩
  roots := by
    intro id
    rw [h.forest.mem_roots]
    constructor
    · rintro ⟨m, hm, hp⟩
      obtain ⟨s, hs, rfl⟩ := nodes_eq_some.1 hm
      exact ⟨s, hs, hp⟩
    · rintro ⟨s, hs, hp⟩
      exact ⟨s.node, nodes_of_get hs, hp⟩
  roots_nodup := h.forest.roots_nodup
  children_ordered := by
    intro id s hs
    exact createdBefore_of_rankLt (h.forest.children_sorted (nodes_of_get hs))
  roots_ordered := createdBefore_of_rankLt h.forest.roots_sorted
  free := by
    intro i
    rw [a.arena.mem_free]
    constructor
    · rintro ⟨⟨g, v⟩, hslot, rfl⟩
      exact ⟨g, hslot⟩
    · rintro ⟨g, hslot⟩
      exact ⟨_, hslot, rfl⟩
  free_nodup := a.arena.free_nodup
  count := by
    rw [h.count]
    unfold streams Arena.values
    rw [List.length_filterMap_eq_countP, List.countP_eq_length_filter]

/-- **The store is a forest in every reachable state.** -/
theorem wellFormed_of_reaches {env : Env} {ops : List Op} {a : Aggregator} (h : Reaches env ops a) :
    a.WellFormed :=
  (forestInv_of_reaches h).wellFormed

end Aggregator

/-! ## A sample run -/

/-- A TCP-like lifecycle: any packet with a `fin` field closes, any other one reopens. -/
def finLifecycle : LifecycleSpec where
  initial := "open"
  advance := fun fields _ _ => if (fields.get "fin").isSome then "closed" else "open"
  closedStates := ["closed"]

/-- A plugin keyed by one endpoint pair. -/
def pairPlugin (name : ProtocolName) : LayerPlugin where
  name := name
  parse := fun _ _ => .error (.malformed "ingest-only")
  streamIdentity := some pairIdentity

/-- Ethernet and IP conversations, TCP ones with a lifecycle, condensable UDP ones. -/
def sampleBuilder : EngineBuilder where
  plugins := [pairPlugin "eth", pairPlugin "ip",
    { pairPlugin "tcp" with streamIdentity := some { pairIdentity with lifecycle := some finLifecycle } },
    { pairPlugin "udp" with condense := some ⟨⟨"src", some "dst"⟩⟩ }]

/-- The registry of `sampleBuilder`. -/
def sampleRegistry : Registry :=
  match sampleBuilder.build with
  | .ok registry => registry
  | .error _ => ⟨[], ∅, ∅, []⟩

/-- The engine of `sampleBuilder`. -/
def sampleEngine : Engine := ⟨sampleRegistry, sampleBuilder, rfl⟩

/-- An environment of the sample engine with a digest that collides often. -/
def sampleEnv (eviction : EvictionPolicy) (condenseThreshold : Nat) : Env where
  engine := sampleEngine
  config := { eviction := eviction, condenseThreshold := condenseThreshold, sink := true }
  digest := fun bytes => UInt64.ofNat (bytes.length % 4)

/-- A layer of a protocol between two endpoints. -/
def sampleLayer (protocol : ProtocolName) (src dst : UInt64) : LayerRecord :=
  ⟨protocol, 0, 0, pairFields src dst⟩

/-- The ingest of a 60-byte packet with a 7-byte opaque tail. -/
def samplePacket (ts : SystemTime) (layers : List LayerRecord) : Op :=
  .ingest ⟨⟨ts, 60, 60, 1⟩, layers, .complete, 7, none⟩

/-- Six packets: a hierarchy, UDP flows past a threshold of two, and a late packet that expires them. -/
def sampleOps : List Op :=
  [samplePacket 0 [sampleLayer "eth" 1 2, sampleLayer "ip" 3 4, sampleLayer "udp" 9 5],
    samplePacket 1 [sampleLayer "eth" 1 2, sampleLayer "ip" 3 4, sampleLayer "udp" 9 6],
    samplePacket 2 [sampleLayer "eth" 2 1, sampleLayer "ip" 4 3, sampleLayer "udp" 9 7],
    samplePacket 3 [sampleLayer "eth" 1 2, sampleLayer "ip" 3 4, sampleLayer "udp" 8 9],
    samplePacket 4 [sampleLayer "eth" 8 9, sampleLayer "tcp" 1 1],
    samplePacket 100 [sampleLayer "eth" 8 9]]

/-- A TCP conversation that is closed by its second packet, at time 5. -/
def closingOps : List Op :=
  [samplePacket 0 [sampleLayer "eth" 1 2, sampleLayer "tcp" 5 6],
    samplePacket 5 [sampleLayer "eth" 1 2,
      ⟨"tcp", 0, 0, (pairFields 5 6).insert "fin" (.bool true)⟩]]

/-- The sample run leaves a forest: a condensed node was created in it, and streams were evicted. -/
theorem wellFormed_sample :
    (run (sampleEnv (.live 50 10 4) 2) sampleOps).WellFormed ∧
      (run (sampleEnv (.live 50 10 4) 2) sampleOps).removed.length = 7 ∧
      (run (sampleEnv (.live 50 10 4) 2) sampleOps).totals.flowsCondensed = 1 := by
  refine ⟨Aggregator.wellFormed_of_reaches (reaches_run _ sampleOps (by decide)), ?_, ?_⟩
  · decide +kernel
  · decide +kernel

end Pktflow.Flows
