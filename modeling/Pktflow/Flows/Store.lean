import Pktflow.Flows.Key
import Pktflow.Flows.Unknown
import Pktflow.Lib.Arena
import Pktflow.Lib.MinHeap
import Mathlib.Data.Finset.Card

/-!
# The stream store: data

Model of the data types of `pktflow-flows/src/store.rs`. `SystemTime` arithmetic and the `u64` counters
are unbounded; slot indices and generations are 32-bit words (`idLimit`). The `Arc` around a stream
record is value sharing and is left out.

Two parts of the state are ghosts that no operation reads: `Stream.history`, the packets folded into a
stream in ingest order, and `Aggregator.removed`, the streams taken out of the store. The sink is
modelled by the list of calls it has received.
-/

set_option autoImplicit false

namespace Pktflow.Flows

open Pktflow.Core Pktflow.Lib

/-- `CloseReason`: why a stream was closed or evicted. -/
inductive CloseReason where
  | protocolClose
  | idleTimeout
  | lruEvicted
  | captureEnd
  deriving DecidableEq, Repr

/-- `EvictionPolicy`. -/
inductive EvictionPolicy where
  | none
  | live (idleTimeout closeLinger : Duration) (maxStreams : Nat)
  deriving DecidableEq, Repr

/-- `DEFAULT_CONDENSE_THRESHOLD`. -/
def defaultCondenseThreshold : Nat := 256

/-- `AggregatorConfig`, with its defaults; `sink` tells whether one is installed. -/
structure AggregatorConfig where
  eviction : EvictionPolicy := .none
  sink : Bool := false
  condenseThreshold : Nat := defaultCondenseThreshold
  rollupSeriesDefaultCap : Nat := 1024
  rollupSeriesMaxCap : Option Nat := none
  unknown : UnknownRegistryConfig := {}

/-- `CONDENSE_MEMBER_CAP`. -/
def condenseMemberCap : Nat := 65536

/-- Slot indices and generations are `u32`. -/
def idLimit : Nat := 2 ^ 32

/-- `StreamId`: slot index and generation. -/
abbrev StreamId := Handle

/-- `DirStats`: per-direction baseline stats. -/
structure DirStats where
  packets : Nat := 0
  bytes : Nat := 0
  deriving DecidableEq, Repr

/-- `[DirStats; 2]`, indexed by `dir_index`. -/
structure StatsPair where
  aToB : DirStats := {}
  bToA : DirStats := {}
  deriving DecidableEq, Repr

/-- One packet of `origlen` bytes added to the slot of its direction. -/
def StatsPair.record (s : StatsPair) (dir : PacketDirection) (origlen : Nat) : StatsPair :=
  match dir with
  | .aToB => { s with aToB := ⟨s.aToB.packets + 1, s.aToB.bytes + origlen⟩ }
  | .bToA => { s with bToA := ⟨s.bToA.packets + 1, s.bToA.bytes + origlen⟩ }

/-- Packets of both directions. -/
def StatsPair.packets (s : StatsPair) : Nat := s.aToB.packets + s.bToA.packets

/-- Bytes of both directions. -/
def StatsPair.bytes (s : StatsPair) : Nat := s.aToB.bytes + s.bToA.bytes

/-- `CondensedInfo`: what a condensed node knows about its folded members. -/
structure CondensedInfo where
  memberFlows : Nat
  ephemeralField : FieldName
  overflow : Bool
  deriving DecidableEq, Repr

/-- Ghost record of one packet folded into a stream: its time, wire length, attributed direction,
the layer and its flow key, and the lifecycle state after it. -/
structure Fold where
  ts : SystemTime
  origlen : Nat
  dir : PacketDirection
  layer : LayerRecord
  key : FlowKey
  state : Option StateName

/-- `Stream`: one conversation node. -/
structure Stream where
  id : StreamId
  protocol : ProtocolName
  key : FlowKey
  keyFields : FieldMap
  parent : Option StreamId
  children : List StreamId
  initiator : PacketDirection
  firstSeen : SystemTime
  lastSeen : SystemTime
  stats : StatsPair
  opaqueBytes : Nat
  state : Option StateName
  rollups : RollupSet
  closed : Option CloseReason
  closeEligible : Bool
  closeEligibleSince : Option SystemTime
  createdSeq : Nat
  condensed : Option CondensedInfo
  /-- Ghost: the packets folded into the stream, in ingest order. -/
  history : List Fold

/-- `EvictedStream`: a closed stream on its way to the sink. -/
structure EvictedStream where
  stream : Stream
  reason : CloseReason

/-- `Totals`: counters that survive eviction. -/
structure Totals where
  packets : Nat := 0
  bytes : Nat := 0
  streamsCreated : Nat := 0
  flowsCondensed : Nat := 0
  keyErrors : Nat := 0
  deriving DecidableEq, Repr

/-- `CondenseGroup`: the tally of one anchor, and its condensed node once triggered. -/
structure CondenseGroup where
  expanded : Nat := 0
  node : Option StreamId := none
  members : Finset UInt64 := ∅

/-- `CondenseKey`: parent scope, protocol and anchor encoding. -/
abbrev CondenseKey := Option StreamId × ProtocolName × KeyBuf

/-- Key of the lookup index: parent scope, protocol and key digest. -/
abbrev IndexKey := Option StreamId × ProtocolName × UInt64

/-- `CONDENSED_KEY_SENTINEL`. -/
def condensedKeySentinel : UInt8 := 0xFE

/-- Entry of the `expiry` heap, ordered by deadline, then index, then generation. -/
structure ExpiryEntry where
  deadline : SystemTime
  index : Nat
  generation : Nat
  deriving DecidableEq, Repr

/-- Entry of the `lru` heap, ordered by last-seen time, then creation, then index and generation. -/
structure LruEntry where
  lastSeen : SystemTime
  createdSeq : Nat
  index : Nat
  generation : Nat
  deriving DecidableEq, Repr

/-- The tuple order of the source's expiry entries. -/
def ExpiryEntry.toTuple (e : ExpiryEntry) : SystemTime ×ₗ Nat ×ₗ Nat :=
  toLex (e.deadline, toLex (e.index, e.generation))

/-- The tuple order of the source's LRU entries. -/
def LruEntry.toTuple (e : LruEntry) : SystemTime ×ₗ Nat ×ₗ Nat ×ₗ Nat :=
  toLex (e.lastSeen, toLex (e.createdSeq, toLex (e.index, e.generation)))

theorem ExpiryEntry.toTuple_injective : Function.Injective ExpiryEntry.toTuple := by
  rintro ⟨d, i, g⟩ ⟨d', i', g'⟩ h
  simpa [ExpiryEntry.toTuple] using h

theorem LruEntry.toTuple_injective : Function.Injective LruEntry.toTuple := by
  rintro ⟨l, c, i, g⟩ ⟨l', c', i', g'⟩ h
  simpa [LruEntry.toTuple] using h

instance : LinearOrder ExpiryEntry := LinearOrder.lift' ExpiryEntry.toTuple ExpiryEntry.toTuple_injective

instance : LinearOrder LruEntry := LinearOrder.lift' LruEntry.toTuple LruEntry.toTuple_injective

/-- An earlier entry of the expiry heap has no later deadline. -/
theorem ExpiryEntry.deadline_le {e x : ExpiryEntry} (h : e ≤ x) : e.deadline ≤ x.deadline :=
  Prod.Lex.monotone_fst e.toTuple x.toTuple h

/-- The rank of an LRU entry: last-seen time, then creation. -/
def LruEntry.rank (e : LruEntry) : SeenRank := ⟨e.lastSeen, e.createdSeq⟩

/-- An earlier entry of the LRU heap has no greater rank. -/
theorem LruEntry.rank_le {e x : LruEntry} (h : e ≤ x) : e.rank ≤ x.rank := by
  have htuple : e.lastSeen < x.lastSeen ∨ e.lastSeen = x.lastSeen ∧
      toLex (e.createdSeq, toLex (e.index, e.generation)) ≤
        toLex (x.createdSeq, toLex (x.index, x.generation)) := Prod.Lex.toLex_le_toLex.1 h
  rcases htuple with hlt | ⟨heq, hle⟩
  · exact SeenRank.le_iff.2 (.inl hlt)
  · exact SeenRank.le_iff.2 (.inr ⟨heq, Prod.Lex.monotone_fst _ _ hle⟩)

/-- The stream an expiry entry names. -/
def ExpiryEntry.id (e : ExpiryEntry) : StreamId := ⟨e.index, e.generation⟩

/-- The stream an LRU entry names. -/
def LruEntry.id (e : LruEntry) : StreamId := ⟨e.index, e.generation⟩

/-- An expiry entry for a stream. -/
def expiryEntry (deadline : SystemTime) (id : StreamId) : ExpiryEntry :=
  ⟨deadline, id.index, id.generation⟩

/-- An LRU entry for a stream. -/
def lruEntry (lastSeen : SystemTime) (createdSeq : Nat) (id : StreamId) : LruEntry :=
  ⟨lastSeen, createdSeq, id.index, id.generation⟩

@[simp] theorem lruEntry_id (lastSeen : SystemTime) (createdSeq : Nat) (id : StreamId) :
    (lruEntry lastSeen createdSeq id).id = id := rfl

/-- What an aggregator is configured with and never changes: `engine`, `config`, and the
deterministic `DefaultHasher` digest of a byte string, an arbitrary function. -/
structure Env where
  engine : Engine
  config : AggregatorConfig
  digest : List UInt8 → UInt64

/-- `Aggregator`: the mutable fields. -/
structure Aggregator where
  /-- `slots` and `free`. -/
  arena : Arena Stream := Arena.empty
  index : HashMap IndexKey (List StreamId) := ∅
  roots : List StreamId := []
  totals : Totals := {}
  clock : SystemTime := unixEpoch
  nextSeq : Nat := 0
  stopClasses : StopClass → Nat := fun _ => 0
  createdPerProtocol : HashMap ProtocolName Nat := ∅
  livePerProtocol : HashMap ProtocolName Nat := ∅
  liveBytesPerProtocol : HashMap ProtocolName Nat := ∅
  expiry : MinHeap ExpiryEntry := MinHeap.empty
  lru : MinHeap LruEntry := MinHeap.empty
  liveCount : Nat := 0
  unknowns : UnknownRegistry := {}
  condense : HashMap CondenseKey CondenseGroup := ∅
  /-- The calls the configured sink has received. -/
  sinkCalls : List EvictedStream := []
  /-- Ghost: the streams taken out of the store, in order. -/
  removed : List EvictedStream := []

namespace Aggregator

/-- `Aggregator::new`. -/
def new : Aggregator := {}

/-- `Aggregator::get`: generation-checked lookup. -/
def get (a : Aggregator) (id : StreamId) : Option Stream := a.arena.get id

/-- `Aggregator::get_mut`, and a mutation through the reference it returns. -/
def modify (a : Aggregator) (id : StreamId) (f : Stream → Stream) : Aggregator :=
  { a with arena := a.arena.modify id f }

/-- `Aggregator::streams`: live streams, arena order. -/
def streams (a : Aggregator) : List Stream := a.arena.values

/-- The ids filed under an index key. -/
def bucket (a : Aggregator) (k : IndexKey) : List StreamId := (a.index.lookup k).getD []

end Aggregator

/-- `*map.entry(p).or_insert(0) += n`. -/
def bumpCount (m : HashMap ProtocolName Nat) (p : ProtocolName) (n : Nat) : HashMap ProtocolName Nat :=
  m.insert p ((m.lookup p).getD 0 + n)

/-- `if let Some(count) = map.get_mut(p) { *count -= n }`, saturating. -/
def dropCount (m : HashMap ProtocolName Nat) (p : ProtocolName) (n : Nat) : HashMap ProtocolName Nat :=
  match m.lookup p with
  | none => m
  | some c => m.insert p (c - n)

/-- The count of a protocol, zero when it has no entry. -/
def countOf (m : HashMap ProtocolName Nat) (p : ProtocolName) : Nat := (m.lookup p).getD 0

theorem countOf_bumpCount (m : HashMap ProtocolName Nat) (p q : ProtocolName) (n : Nat) :
    countOf (bumpCount m p n) q = countOf m q + if q = p then n else 0 := by
  by_cases h : q = p
  · subst h
    simp [countOf, bumpCount]
  · simp [countOf, bumpCount, AList.lookup_insert_ne h, h]

theorem countOf_dropCount (m : HashMap ProtocolName Nat) (p q : ProtocolName) (n : Nat) :
    countOf (dropCount m p n) q = countOf m q - if q = p then n else 0 := by
  rw [dropCount]
  cases hm : m.lookup p with
  | none =>
      by_cases h : q = p
      · subst h
        simp [countOf, hm]
      · simp [h]
  | some c =>
      by_cases h : q = p
      · subst h
        simp [countOf, hm]
      · simp [countOf, AList.lookup_insert_ne h, h]

theorem mem_bumpCount {m : HashMap ProtocolName Nat} {p q : ProtocolName} {n : Nat} :
    q ∈ bumpCount m p n ↔ q = p ∨ q ∈ m := AList.mem_insert _

theorem mem_dropCount {m : HashMap ProtocolName Nat} {p q : ProtocolName} {n : Nat} :
    q ∈ dropCount m p n ↔ q ∈ m := by
  rw [dropCount]
  cases hm : m.lookup p with
  | none => rfl
  | some c =>
      have hp : p ∈ m := AList.lookup_isSome.1 (by rw [hm]; rfl)
      simp only [AList.mem_insert]
      constructor
      · rintro (rfl | hq)
        · exact hp
        · exact hq
      · exact Or.inr

end Pktflow.Flows
