import Pktflow.Cli.Tree
import Pktflow.Flows.Merged

/-!
# The merged view of the command line

Model of `streams_merged` (`pktflow-cli/src/views.rs`), which groups the streams of a snapshot anew, with a map
and the order of its keys. Without a query it finds the groups of `at_layer_merged` (`merged_views`).
-/

set_option autoImplicit false

namespace Pktflow.Cli

open Pktflow.Core Pktflow.Flows Pktflow.Lib Pktflow.View

/-- A row before its numbers are rendered: its label, the two totals, and the display ids of its nodes. -/
structure MergedRow where
  label : String
  packets : Nat
  bytes : Nat
  nodes : List Nat
  deriving DecidableEq

/-- The row of a group and its first node. -/
def mergedRow (nodes : List Stream) (first : Stream) : MergedRow :=
  let endpoints := endpointsStr first
  { label := if endpoints.isEmpty then first.protocol else first.protocol ++ "  " ++ endpoints
    packets := (nodes.map totalPackets).sum
    bytes := (nodes.map totalBytes).sum
    nodes := nodes.map Stream.createdSeq }

/-- `streams_merged`, up to the rows it renders. There is no result if a group has no first node. -/
def streamsMerged (env : LensEnv) (snap : AggregatorSnapshot) (protocol : ProtocolName) (query : Option Expr) :
    Option (List MergedRow) :=
  let ids := streamsById snap.streams
  let selected := (snap.streams.filter fun s => s.protocol = protocol).filter fun s =>
    match query with
    | none => true
    | some q => env.isMatch q s ids
  let (order, groups) := selected.foldl (collectGroup Stream.key) ([], fun _ => [])
  order.mapM fun key => (groups key).head?.map (mergedRow (groups key))

/-- The printed row of a group: protocol and endpoints of the first node, the sums over both directions and
all nodes, and the display ids in order. -/
structure RowFrom (g : List Stream) (line : MergedRow) : Prop where
  label : ∃ s ∈ g.head?, line.label =
    if endpointsStr s = "" then s.protocol else s.protocol ++ "  " ++ endpointsStr s
  packets : line.packets = (g.map fun s => s.stats.aToB.packets).sum + (g.map fun s => s.stats.bToA.packets).sum
  bytes : line.bytes = (g.map fun s => s.stats.aToB.bytes).sum + (g.map fun s => s.stats.bToA.bytes).sum
  nodes : line.nodes = g.map Stream.createdSeq

/-- A printed row and a row of the aggregator agree: the totals are those of both directions, and the display
ids are those of the nodes that the row's handles find. -/
structure SameRow (a : Aggregator) (row : MergedStreamView) (line : MergedRow) : Prop where
  packets : line.packets = row.stats.aToB.packets + row.stats.bToA.packets
  bytes : line.bytes = row.stats.aToB.bytes + row.stats.bToA.bytes
  nodes : List.Forall₂ (fun id seq => ∃ s, a.get id = some s ∧ s.createdSeq = seq) row.nodes line.nodes

/-- The two merged views of one protocol have the same groups of nodes, one row each. -/
structure MergedViews (a : Aggregator) (protocol : ProtocolName) (groups : List (List Stream))
    (rows : List MergedStreamView) (printed : List MergedRow) : Prop where
  /-- Every live node of the protocol is in one group. -/
  partition : groups.flatten.Perm (a.streams.filter fun s => s.protocol = protocol)
  rows_from : List.Forall₂ MergedFrom groups rows
  keys_nodup : (rows.map MergedStreamView.key).Nodup
  printed_from : List.Forall₂ RowFrom groups printed
  same_rows : List.Forall₂ (SameRow a) rows printed
  nonempty : ∀ g ∈ groups, g ≠ []
  nodes_created : ∀ g ∈ groups, g.Pairwise fun s t => s.createdSeq < t.createdSeq
  rows_created : (groups.filterMap List.head?).Pairwise fun s t => s.createdSeq < t.createdSeq

section Views

variable {env : Env} {ops : List Op} {a : Aggregator}

theorem rowFrom_mergedRow {g : List Stream} {s : Stream} (hs : s ∈ g.head?) : RowFrom g (mergedRow g s) := by
  constructor
  case label =>
    refine ⟨s, hs, ?_⟩
    simp only [mergedRow, String.isEmpty_iff]
  case packets => exact List.sum_map_add
  case bytes => exact List.sum_map_add
  case nodes => rfl

/-- The two rows of one group of live nodes agree. -/
theorem sameRow_of_group {g : List Stream} {row : MergedStreamView} {line : MergedRow} (hrow : MergedFrom g row)
    (hline : RowFrom g line) (hlive : ∀ s ∈ g, a.get s.id = some s) : SameRow a row line := by
  constructor
  case packets => rw [hline.packets, hrow.packetsAToB, hrow.packetsBToA]
  case bytes => rw [hline.bytes, hrow.bytesAToB, hrow.bytesBToA]
  case nodes =>
    rw [hrow.nodes, hline.nodes, List.forall₂_map_left_iff, List.forall₂_map_right_iff, List.forall₂_same]
    exact fun s hs => ⟨s, hlive s hs, rfl⟩

/-- The rows of the two views side by side, group by group. -/
theorem sameRows {groups : List (List Stream)} {rows : List MergedStreamView} {printed : List MergedRow}
    (hrows : List.Forall₂ MergedFrom groups rows) (hprinted : List.Forall₂ RowFrom groups printed)
    (hlive : ∀ g ∈ groups, ∀ s ∈ g, a.get s.id = some s) : List.Forall₂ (SameRow a) rows printed := by
  induction hrows generalizing printed with
  | nil =>
      cases hprinted
      exact .nil
  | cons hrow _ ih =>
      cases hprinted with
      | cons hline hprinted =>
          exact .cons (sameRow_of_group hrow hline (hlive _ List.mem_cons_self))
            (ih hprinted fun g hg => hlive g (List.mem_cons_of_mem _ hg))

theorem mapM_rows {nodes : List Stream} (ks : List FlowKey) (h : ∀ k ∈ ks, k ∈ firstKeys Stream.key nodes) :
    ∃ printed, ks.mapM (fun k => (ofKey Stream.key nodes k).head?.map (mergedRow (ofKey Stream.key nodes k))) =
        some printed ∧ List.Forall₂ RowFrom (ks.map (ofKey Stream.key nodes)) printed := by
  induction ks with
  | nil => exact ⟨[], rfl, .nil⟩
  | cons k ks ih =>
      obtain ⟨printed, hmap, hfrom⟩ := ih fun k' hk' => h k' (List.mem_cons_of_mem k hk')
      obtain ⟨s, g, hg⟩ := List.exists_cons_of_ne_nil (ofKey_ne_nil (h k List.mem_cons_self))
      have hhead : (ofKey Stream.key nodes k).head? = some s := by rw [hg, List.head?_cons]
      refine ⟨mergedRow (ofKey Stream.key nodes k) s :: printed, ?_, .cons (rowFrom_mergedRow hhead) hfrom⟩
      rw [List.mapM_cons, hhead, hmap]
      rfl

/-- In every reachable state the merged view of a protocol has the live nodes partitioned by key, in order of
creation, and the command line prints the same rows of the state's snapshot. -/
theorem merged_views (h : Reaches env ops a) (lens : LensEnv) (protocol : ProtocolName) :
    ∃ groups printed, streamsMerged lens a.snapshot protocol none = some printed ∧
      MergedViews a protocol groups (a.atLayerMerged protocol) printed := by
  have hrows := a.rowsOf_atLayerMerged protocol
  have hordered : (a.atLayer protocol).Pairwise fun s t => s.createdSeq < t.createdSeq := by
    rw [Aggregator.atLayer_eq h]
    exact (Aggregator.snapshot_wellFormed h).ordered.filter _
  obtain ⟨printed, hprinted, hfrom⟩ := mapM_rows (firstKeys Stream.key (a.atLayer protocol)) fun _ hk => hk
  refine ⟨groups Stream.key (a.atLayer protocol), printed, ?_, ?_⟩
  · -- without a query all streams of the protocol are selected
    rw [streamsMerged]
    rw [← Aggregator.atLayer_eq h]
    dsimp only
    rw [List.filter_true, foldl_collectGroup]
    exact hprinted
  · constructor
    case partition => exact (flatten_groups_perm _).trans (perm_sortByKey _ _)
    case rows_from => exact hrows.forall₂
    case keys_nodup =>
      rw [hrows.map_key]
      exact nodup_firstKeys _
    case printed_from => exact hfrom
    case same_rows =>
      refine sameRows hrows.forall₂ hfrom ?_
      intro g hg s hs
      obtain ⟨k, -, rfl⟩ := List.mem_map.1 hg
      have hlive := (Aggregator.mem_atLayer.1 (mem_ofKey.1 hs).1).1
      obtain ⟨i, hi⟩ := Aggregator.mem_streams.1 hlive
      rw [(Aggregator.forestInv_of_reaches h).id_eq hi]
      exact hi
    case nonempty =>
      intro g hg
      obtain ⟨k, hk, rfl⟩ := List.mem_map.1 hg
      exact ofKey_ne_nil hk
    case nodes_created =>
      intro g hg
      obtain ⟨k, -, rfl⟩ := List.mem_map.1 hg
      exact hordered.filter _
    case rows_created =>
      have hheads := hordered.sublist (heads_sublist Stream.key (a.atLayer protocol))
      rw [groups, List.filterMap_map]
      exact hheads

/-- One conversation seen under two parents. -/
def crossedOps : List Op :=
  [samplePacket 0 [sampleLayer "eth" 1 2, sampleLayer "ip" 3 4],
    samplePacket 1 [sampleLayer "eth" 5 6, sampleLayer "ip" 4 3]]

/-- Its two nodes make one row, printed with the packets and bytes of both. -/
theorem merged_views_crossed :
    (∃ groups printed, streamsMerged sampleLens (run (sampleEnv .none 2) crossedOps).snapshot "ip" none = some printed ∧
      MergedViews (run (sampleEnv .none 2) crossedOps) "ip" groups
        ((run (sampleEnv .none 2) crossedOps).atLayerMerged "ip") printed) ∧
    ((run (sampleEnv .none 2) crossedOps).atLayerMerged "ip").map (fun row => row.nodes.length) = [2] ∧
    (streamsMerged sampleLens (run (sampleEnv .none 2) crossedOps).snapshot "ip" none).map (fun lines =>
      lines.map fun line => (line.packets, line.bytes, line.nodes)) = some [(2, 120, [1, 3])] :=
  ⟨merged_views (reaches_run _ crossedOps (by decide)) sampleLens "ip", by decide +kernel, by decide +kernel⟩

end Views

end Pktflow.Cli
