import Pktflow.Lib.Grouping
import Pktflow.Flows.Snapshot

/-!
# The merged view

Model of `at_layer` and `at_layer_merged` (`pktflow-flows/src/store.rs`): the live nodes of one protocol in
creation order, folded into one row for each key. The rows are those of the nodes grouped by key
(`rowsOf_atLayerMerged`).
-/

set_option autoImplicit false

namespace Pktflow.Flows

open Pktflow.Core Pktflow.Lib

/-- `MergedStreamView`. -/
structure MergedStreamView where
  protocol : ProtocolName
  key : FlowKey
  keyFields : FieldMap
  stats : StatsPair
  firstSeen : SystemTime
  lastSeen : SystemTime
  nodes : List StreamId
  deriving DecidableEq

/-- A row of one node. -/
def MergedStreamView.ofNode (node : Stream) : MergedStreamView :=
  ⟨node.protocol, node.key, node.keyFields, node.stats, node.firstSeen, node.lastSeen, [node.id]⟩

/-- A row takes in one more node. -/
def MergedStreamView.absorb (row : MergedStreamView) (node : Stream) : MergedStreamView :=
  { row with
    stats := ⟨⟨row.stats.aToB.packets + node.stats.aToB.packets, row.stats.aToB.bytes + node.stats.aToB.bytes⟩,
      ⟨row.stats.bToA.packets + node.stats.bToA.packets, row.stats.bToA.bytes + node.stats.bToA.bytes⟩⟩
    firstSeen := min row.firstSeen node.firstSeen
    lastSeen := max row.lastSeen node.lastSeen
    nodes := row.nodes ++ [node.id] }

namespace Aggregator

/-- `at_layer`. -/
def atLayer (a : Aggregator) (protocol : ProtocolName) : List Stream :=
  sortByKey Stream.createdSeq (a.streams.filter fun s => s.protocol = protocol)

/-- `at_layer_merged`. -/
def atLayerMerged (a : Aggregator) (protocol : ProtocolName) : List MergedStreamView :=
  (a.atLayer protocol).foldl (fun rows node =>
    upsert (fun row => decide (row.key = node.key)) (fun row => row.absorb node) (.ofNode node) rows) []

end Aggregator

/-- The row of a group of nodes: the key and the display fields of the first, the sums in each direction, the
extent in time and the ids in order. -/
structure MergedFrom (g : List Stream) (row : MergedStreamView) : Prop where
  first : ∃ s ∈ g.head?, row.protocol = s.protocol ∧ row.key = s.key ∧ row.keyFields = s.keyFields
  key : ∀ s ∈ g, s.key = row.key
  packetsAToB : row.stats.aToB.packets = (g.map fun s => s.stats.aToB.packets).sum
  bytesAToB : row.stats.aToB.bytes = (g.map fun s => s.stats.aToB.bytes).sum
  packetsBToA : row.stats.bToA.packets = (g.map fun s => s.stats.bToA.packets).sum
  bytesBToA : row.stats.bToA.bytes = (g.map fun s => s.stats.bToA.bytes).sum
  firstSeen_mem : ∃ s ∈ g, s.firstSeen = row.firstSeen
  firstSeen_le : ∀ s ∈ g, row.firstSeen ≤ s.firstSeen
  lastSeen_mem : ∃ s ∈ g, s.lastSeen = row.lastSeen
  le_lastSeen : ∀ s ∈ g, s.lastSeen ≤ row.lastSeen
  nodes : row.nodes = g.map Stream.id

section Rows

variable {g : List Stream} {row : MergedStreamView}

theorem MergedFrom.ofNode (s : Stream) : MergedFrom [s] (.ofNode s) := by
  constructor
  case first => exact ⟨s, rfl, rfl, rfl, rfl⟩
  case key => exact fun t ht => congrArg Stream.key (List.mem_singleton.1 ht)
  case packetsAToB => simp [MergedStreamView.ofNode]
  case bytesAToB => simp [MergedStreamView.ofNode]
  case packetsBToA => simp [MergedStreamView.ofNode]
  case bytesBToA => simp [MergedStreamView.ofNode]
  case firstSeen_mem => exact ⟨s, List.mem_singleton_self s, rfl⟩
  case firstSeen_le => exact fun t ht => (congrArg Stream.firstSeen (List.mem_singleton.1 ht)).ge
  case lastSeen_mem => exact ⟨s, List.mem_singleton_self s, rfl⟩
  case le_lastSeen => exact fun t ht => (congrArg Stream.lastSeen (List.mem_singleton.1 ht)).le
  case nodes => rfl

/-- The row of a group with one more node of its key. -/
theorem MergedFrom.absorb (h : MergedFrom g row) {node : Stream} (hkey : row.key = node.key) :
    MergedFrom (g ++ [node]) (row.absorb node) := by
  constructor
  case first =>
    obtain ⟨s, hs, hfields⟩ := h.first
    exact ⟨s, List.mem_head?_append_of_mem_head? hs, hfields⟩
  case key =>
    intro s hs
    rcases List.mem_append.1 hs with hs | hs
    · exact h.key s hs
    · rw [List.mem_singleton.1 hs]
      exact hkey.symm
  case packetsAToB => simp [MergedStreamView.absorb, h.packetsAToB]
  case bytesAToB => simp [MergedStreamView.absorb, h.bytesAToB]
  case packetsBToA => simp [MergedStreamView.absorb, h.packetsBToA]
  case bytesBToA => simp [MergedStreamView.absorb, h.bytesBToA]
  case firstSeen_mem =>
    rcases min_choice row.firstSeen node.firstSeen with hmin | hmin
    · obtain ⟨s, hs, heq⟩ := h.firstSeen_mem
      exact ⟨s, List.mem_append_left _ hs, heq.trans hmin.symm⟩
    · exact ⟨node, List.mem_append_right _ (List.mem_singleton_self node), hmin.symm⟩
  case firstSeen_le =>
    intro s hs
    rcases List.mem_append.1 hs with hs | hs
    · exact (min_le_left _ _).trans (h.firstSeen_le s hs)
    · rw [List.mem_singleton.1 hs]
      exact min_le_right _ _
  case lastSeen_mem =>
    rcases max_choice row.lastSeen node.lastSeen with hmax | hmax
    · obtain ⟨s, hs, heq⟩ := h.lastSeen_mem
      exact ⟨s, List.mem_append_left _ hs, heq.trans hmax.symm⟩
    · exact ⟨node, List.mem_append_right _ (List.mem_singleton_self node), hmax.symm⟩
  case le_lastSeen =>
    intro s hs
    rcases List.mem_append.1 hs with hs | hs
    · exact (h.le_lastSeen s hs).trans (le_max_left _ _)
    · rw [List.mem_singleton.1 hs]
      exact le_max_right _ _
  case nodes =>
    rw [List.map_append, ← h.nodes]
    rfl

end Rows

namespace Aggregator

variable {env : Env} {ops : List Op} {a : Aggregator}

/-- The rows of the merged view are those of the keys, each of its group of nodes. -/
theorem rowsOf_atLayerMerged (a : Aggregator) (protocol : ProtocolName) :
    RowsOf MergedStreamView.key MergedFrom Stream.key (a.atLayer protocol)
      (firstKeys Stream.key (a.atLayer protocol)) (a.atLayerMerged protocol) :=
  @rowsOf_foldl_upsert Stream FlowKey MergedStreamView _ Stream.key MergedStreamView.key MergedFrom
    MergedStreamView.absorb MergedStreamView.ofNode (fun _ _ => rfl) (fun _ => rfl) MergedFrom.ofNode
    (fun _ _ _ h hkey => h.absorb hkey) (a.atLayer protocol)

theorem mem_atLayer {protocol : ProtocolName} {s : Stream} :
    s ∈ a.atLayer protocol ↔ s ∈ a.streams ∧ s.protocol = protocol := by
  rw [atLayer, mem_sortByKey, List.mem_filter, decide_eq_true_eq]

/-- The nodes are the part of the snapshot that is of the protocol, in its order. -/
theorem atLayer_eq (h : Reaches env ops a) (protocol : ProtocolName) :
    a.atLayer protocol = a.snapshot.streams.filter fun s => s.protocol = protocol := by
  have hsnap := (snapshot_wellFormed h).ordered
  have hnodup : ((a.atLayer protocol).map Stream.createdSeq).Nodup :=
    ((perm_sortByKey _ _).map Stream.createdSeq).nodup_iff.2 (List.Nodup.sublist (List.filter_sublist.map _) (seqs_nodup h))
  have hordered : (a.atLayer protocol).Pairwise fun s t => s.createdSeq < t.createdSeq :=
    ((pairwise_keys Stream.createdSeq _).and (List.pairwise_map.1 hnodup)).imp fun hlt =>
      lt_of_le_of_ne hlt.1 hlt.2
  apply @eq_of_ordered Stream Nat _ Stream.createdSeq Stream.createdSeq
  · exact hordered.imp .inl
  · exact (hsnap.filter _).imp .inl
  · intro s
    rw [mem_atLayer, List.mem_filter, mem_snapshot, decide_eq_true_eq]

end Aggregator

end Pktflow.Flows
