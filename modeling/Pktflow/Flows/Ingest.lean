import Pktflow.Flows.Ops

/-!
# The stream store: ingest, eviction loops and queries

Model of the entry points of `pktflow-flows/src/store.rs`: `ingest` with its timeout sweep, LRU cap and
heap compaction, `finish` and `summary`; and the runs of an aggregator.

The two eviction loops are given by what one iteration picks (`sweepPick`, `enforcePick`); they are run
with as much fuel as a measure that every iteration lowers.
-/

set_option autoImplicit false

namespace Pktflow.Flows

open Pktflow.Core Pktflow.Lib

/-- What one iteration of an eviction loop does: leave the loop, drop or re-arm the popped entry, or
evict the stream it names. The states given are those after the pop. -/
inductive Pick where
  | exit
  | skip (a : Aggregator)
  | evict (a : Aggregator) (id : StreamId) (reason : CloseReason)

/-- The state after an iteration. -/
def Pick.run (env : Env) : Pick → Option Aggregator
  | .exit => none
  | .skip a => some a
  | .evict a id reason => some (a.evict env id reason)

/-- `opaque_bytes += n`. -/
def Stream.addOpaqueBytes (s : Stream) (n : Nat) : Stream :=
  { s with opaqueBytes := s.opaqueBytes + n }

namespace Aggregator

/-- The reason `sweep` gives: `ProtocolClose` once the linger after the entry into a closed state is
over. -/
def sweepReason (linger : Duration) (now : SystemTime) (s : Stream) : CloseReason :=
  match s.closeEligibleSince with
  | some entered => if entered + linger ≤ now then .protocolClose else .idleTimeout
  | none => .idleTimeout

/-- One iteration of the loop of `sweep`. -/
def sweepPick (env : Env) (a : Aggregator) : Pick :=
  match env.config.eviction with
  | .none => .exit
  | .live _ linger _ =>
      match a.expiry.pop with
      | none => .exit
      | some (entry, rest) =>
          -- nothing is due before the earliest entry is
          if a.clock < entry.deadline then .exit
          else
            let a := { a with expiry := rest }
            match a.deadlineOf env entry.id with
            -- the stream is gone: the entry is dropped
            | none => .skip a
            | some actual =>
                -- touched since the entry was armed: it is armed again at the actual deadline
                if a.clock < actual then
                  .skip { a with expiry := a.expiry.push (expiryEntry actual entry.id) }
                else
                  match a.get entry.id with
                  | none => .skip a
                  | some s =>
                      -- an inner stream waits for its children; the last one to go arms it again
                      if s.children ≠ [] then .skip a
                      else .evict a entry.id (sweepReason linger a.clock s)

/-- The loop body of `sweep`. -/
def sweepBody (env : Env) (a : Aggregator) : Option Aggregator := (a.sweepPick env).run env

/-- `sweep`: evicts the streams whose actual deadline has passed, in packet time. -/
def sweep (env : Env) (a : Aggregator) : Aggregator :=
  Loop.iterate (sweepBody env) (a.streams.length + a.expiry.length) a

/-- One iteration of the loop of `enforce_max_streams`. -/
def enforcePick (env : Env) (a : Aggregator) : Pick :=
  match env.config.eviction with
  | .none => .exit
  | .live _ _ maxStreams =>
      if a.liveCount ≤ maxStreams then .exit
      else
        match a.lru.pop with
        | none => .exit
        | some (entry, rest) =>
            let a := { a with lru := rest }
            match a.get entry.id with
            | none => .skip a
            | some s =>
                -- not a leaf: `evict` pushes a new entry when a child goes
                if s.children ≠ [] then .skip a
                -- touched since: the entry goes back with the actual recency
                else if (s.lastSeen, s.createdSeq) ≠ (entry.lastSeen, entry.createdSeq) then
                  .skip { a with lru := a.lru.push (lruEntry s.lastSeen s.createdSeq entry.id) }
                else .evict a entry.id .lruEvicted

/-- The loop body of `enforce_max_streams`. -/
def enforceBody (env : Env) (a : Aggregator) : Option Aggregator := (a.enforcePick env).run env

/-- `enforce_max_streams`: while over the cap, evicts the least recently updated leaf. -/
def enforceMaxStreams (env : Env) (a : Aggregator) : Aggregator :=
  Loop.iterate (enforceBody env)
    (a.streams.length * (2 * a.lru.length + 1) + 2 * a.lru.length) a

/-- `compact_lru`: once the heap has doubled past the live set it is rebuilt from the leaves. -/
def compactLru (a : Aggregator) : Aggregator :=
  if a.lru.length ≤ 2 * a.liveCount + 1024 then a
  else
    { a with lru := MinHeap.ofList ((a.streams.filter fun s => s.children = []).map fun s =>
        lruEntry s.lastSeen s.createdSeq s.id) }

/-! ## Ingest -/

/-- The local variables of `ingest` while it walks the layers. -/
structure Walk where
  agg : Aggregator
  parent : Option StreamId := none
  lastEndpoint : Option EndpointKey := none

/-- The identity of a layer: its registered plugin and that plugin's stream identity. -/
def identityOf (env : Env) (protocol : ProtocolName) : Option (LayerPlugin × StreamIdentity) := do
  let plugin ← env.engine.pluginByName protocol
  let identity ← plugin.streamIdentity
  return (plugin, identity)

/-- One layer of the walk of `ingest`. A layer without a plugin or identity is skipped, a layer whose
key cannot be built is counted and skipped; the parent chain stays intact. -/
def ingestLayer (env : Env) (pkt : DissectedPacket) (w : Walk) (layer : LayerRecord) : Walk :=
  match identityOf env layer.protocol with
  -- no plugin or no identity: the layer is transparent
  | none => w
  | some (plugin, identity) =>
      match flowKey identity layer.fields with
      -- a key field is missing
      | .error _ =>
          { w with agg := { w.agg with
              totals := { w.agg.totals with keyErrors := w.agg.totals.keyErrors + 1 } } }
      | .ok (key, dir) =>
          let (a, id, dir) := w.agg.getOrInsert env w.parent key identity plugin.condense layer dir
            pkt.meta_.timestamp
          { agg := a.touch env id identity layer key dir pkt.meta_.timestamp pkt.meta_.origlen
            -- the next layer hangs below this stream
            parent := some id
            lastEndpoint := some ⟨layer.protocol, key⟩ }

/-- First part of `ingest`: the clock and the packet counters. -/
def tick (a : Aggregator) (pkt : DissectedPacket) : Aggregator :=
  let cls := pkt.stop.toClass
  { a with
    clock := max a.clock pkt.meta_.timestamp
    totals := { a.totals with
      packets := a.totals.packets + 1
      bytes := a.totals.bytes + pkt.meta_.origlen }
    stopClasses := Function.update a.stopClasses cls (a.stopClasses cls + 1) }

/-- The state in which `ingest` starts to walk the layers. -/
def beforeWalk (env : Env) (a : Aggregator) (pkt : DissectedPacket) : Aggregator :=
  ((a.tick pkt).sweep env).compactLru

/-- The walk of `ingest` over a list of layers. -/
def walkLayers (env : Env) (a : Aggregator) (pkt : DissectedPacket) (layers : List LayerRecord) :
    Walk :=
  layers.foldl (ingestLayer env pkt) { agg := a.beforeWalk env pkt }

/-- The unparsed payload lands on the innermost stream only. -/
def addOpaque (a : Aggregator) (innermost : Option StreamId) (opaqueLen : Nat) : Aggregator :=
  match innermost with
  | none => a
  | some id => a.modify id fun s => s.addOpaqueBytes opaqueLen

/-- The unknown registry's part of `ingest`. -/
def addUnknown (env : Env) (a : Aggregator) (pkt : DissectedPacket)
    (endpoint : Option EndpointKey) : Aggregator :=
  match pkt.unknown with
  | none => a
  | some diag =>
      -- `u32::try_from(opaque_len).unwrap_or(u32::MAX)`
      let bytes := min pkt.opaqueLen u32Max
      { a with
        unknowns := a.unknowns.ingest diag bytes pkt.meta_.timestamp endpoint env.config.unknown }

/-- `ingest` up to its call of `enforce_max_streams`. -/
def beforeEnforce (env : Env) (a : Aggregator) (pkt : DissectedPacket) : Aggregator :=
  let w := a.walkLayers env pkt pkt.layers
  (w.agg.addOpaque w.parent pkt.opaqueLen).addUnknown env pkt w.lastEndpoint

/-- `ingest`: folds one dissected packet into the store. -/
def ingest (env : Env) (a : Aggregator) (pkt : DissectedPacket) : Aggregator :=
  (a.beforeEnforce env pkt).enforceMaxStreams env

/-! ## End of capture -/

/-- The upward walk of `finish`: the number of ancestors from `cursor` on. -/
def ancestorCount (a : Aggregator) : Nat → Option StreamId → Nat
  | _, none => 0
  | 0, some _ => 0
  | fuel + 1, some id => a.ancestorCount fuel ((a.get id).bind Stream.parent) + 1

/-- A stream's depth in the forest; creation order bounds the walk. -/
def depthOf (a : Aggregator) (s : Stream) : Nat := a.ancestorCount a.nextSeq s.parent

/-- Sort entry of `finish`: depth, creation order, id. -/
structure FinishEntry where
  depth : Nat
  seq : Nat
  id : StreamId

/-- Deeper nodes first, creation order within a depth. -/
def FinishEntry.before (x y : FinishEntry) : Prop :=
  y.depth < x.depth ∨ y.depth = x.depth ∧ x.seq ≤ y.seq

instance : DecidableRel FinishEntry.before := fun _ _ => by
  unfold FinishEntry.before
  infer_instance

/-- The order in which `finish` closes the streams. -/
def finishOrder (a : Aggregator) : List FinishEntry :=
  (a.streams.map fun s => (⟨a.depthOf s, s.createdSeq, s.id⟩ : FinishEntry)).insertionSort
    FinishEntry.before

/-- `finish` under the `None` policy: one stream is marked closed and copied to the sink. -/
def closeStream (env : Env) (a : Aggregator) (id : StreamId) : Aggregator :=
  match a.get id with
  | none => a
  | some s =>
      let a := a.modify id fun s => s.markClosed .captureEnd
      { a with sinkCalls := if env.config.sink then
          a.sinkCalls ++ [⟨s.markClosed .captureEnd, .captureEnd⟩] else a.sinkCalls }

/-- One stream closed by `finish`. -/
def finishOne (env : Env) (a : Aggregator) (id : StreamId) : Aggregator :=
  match env.config.eviction with
  | .live _ _ _ => a.evict env id .captureEnd
  | .none => a.closeStream env id

/-- `finish`: closes every remaining stream, children before parents. -/
def finish (env : Env) (a : Aggregator) : Aggregator :=
  (a.finishOrder.map FinishEntry.id).foldl (finishOne env) a

end Aggregator

/-! ## Summary -/

/-- `ProtocolCounts`. -/
structure ProtocolCounts where
  protocol : ProtocolName
  ever : Nat
  live : Nat
  bytes : Nat
  deriving DecidableEq, Repr

/-- `STOP_CLASSES`. -/
def stopClassOrder : List StopClass := [.clean, .unknownPayload, .malformed, .suspicious]

/-- `AggregateSummary`. -/
structure AggregateSummary where
  packets : Nat
  bytes : Nat
  streamsCreated : Nat
  streamsLive : Nat
  flowsCondensed : Nat
  keyErrors : Nat
  perProtocol : List ProtocolCounts
  stopClasses : List (StopClass × Nat)
  deriving DecidableEq, Repr

/-- `Aggregator::summary`. -/
def Aggregator.summary (a : Aggregator) : AggregateSummary where
  packets := a.totals.packets
  bytes := a.totals.bytes
  streamsCreated := a.totals.streamsCreated
  streamsLive := a.liveCount
  flowsCondensed := a.totals.flowsCondensed
  keyErrors := a.totals.keyErrors
  perProtocol := (a.createdPerProtocol.entries.map fun e =>
      (⟨e.1, e.2, countOf a.livePerProtocol e.1, countOf a.liveBytesPerProtocol e.1⟩ :
        ProtocolCounts)).insertionSort fun x y => x.protocol ≤ y.protocol
  stopClasses := stopClassOrder.map fun c => (c, a.stopClasses c)

/-! ## Runs -/

/-- A call of one of the two mutating entry points. -/
inductive Op where
  | ingest (pkt : DissectedPacket)
  | finish

/-- The state after one call. -/
def Aggregator.call (env : Env) (a : Aggregator) : Op → Aggregator
  | .ingest pkt => a.ingest env pkt
  | .finish => a.finish env

/-- The state after a list of calls on a new aggregator. -/
def run (env : Env) (ops : List Op) : Aggregator := ops.foldl (Aggregator.call env) Aggregator.new

/-- `Reaches env ops a`: the calls `ops` on a new aggregator lead to the state `a`. Slot indices are
`u32`, so the arena holds fewer than `2 ^ 32` slots. -/
inductive Reaches (env : Env) : List Op → Aggregator → Prop
  | new : Reaches env [] Aggregator.new
  | call {ops : List Op} {a : Aggregator} (op : Op) : Reaches env ops a →
      (a.call env op).arena.slots.length < idLimit → Reaches env (ops ++ [op]) (a.call env op)

/-- The packets a run ingests, in order. -/
def packetsOf (ops : List Op) : List DissectedPacket :=
  ops.filterMap fun op => match op with | .ingest pkt => some pkt | .finish => none

/-- The timestamps of the packets a run ingests, in order. -/
def timestamps (ops : List Op) : List SystemTime :=
  (packetsOf ops).map fun pkt => pkt.meta_.timestamp

end Pktflow.Flows
