import Pktflow.Flows.Store

/-!
# The stream store: creation, folding and eviction

Model of the operations of `pktflow-flows/src/store.rs` that change single streams: `create_stream_raw`,
the per-layer update of `ingest`, the condensation of high-cardinality flows and `evict`.
-/

set_option autoImplicit false

namespace Pktflow.Flows

open Pktflow.Core Pktflow.Lib

/-! ## Condensation candidates -/

/-- `CondenseCandidate`: one candidate anchor of a flow under a condense declaration. -/
structure CondenseCandidate where
  anchor : KeyBuf
  anchorField : FieldName
  anchorValue : Value
  varyingDigest : UInt64
  foldDir : PacketDirection

/-- Two encodings in endpoint-sorted order. -/
def sortedPair (ea eb : KeyBuf) : KeyBuf := if ea ≤ eb then ea ++ eb else eb ++ ea

/-- The encoding of every key component but the ephemeral pair, in key order with pairs sorted. -/
def anchorBase (eph : KeyField) (fields : FieldMap) : List KeyField → Option KeyBuf
  | [] => some []
  | kf :: rest =>
      -- the ephemeral pair is left out
      if kf.a = eph.a ∧ kf.b = eph.b then anchorBase eph fields rest
      else
        match kf.b with
        | none => do
            let va ← fields.get kf.a
            let tail ← anchorBase eph fields rest
            return encodeValue va ++ tail
        | some b => do
            let va ← fields.get kf.a
            let vb ← fields.get b
            let tail ← anchorBase eph fields rest
            return sortedPair (encodeValue va) (encodeValue vb) ++ tail

/-- `condense_candidates`: the anchors of a flow, one per side of the ephemeral pair, one in all when
both sides are equal. -/
def condenseCandidates (env : Env) (identity : StreamIdentity) (spec : CondenseSpec)
    (fields : FieldMap) : Option (List CondenseCandidate) := do
  let eph := spec.ephemeral
  let bName ← eph.b
  let va ← fields.get eph.a
  let vb ← fields.get bName
  let base ← anchorBase eph fields identity.key
  let encA := encodeValue va
  let encB := encodeValue vb
  let first : CondenseCandidate := ⟨base ++ encA, eph.a, va, env.digest encB, .aToB⟩
  let second : CondenseCandidate := ⟨base ++ encB, bName, vb, env.digest encA, .bToA⟩
  -- equal sides give one anchor, not two with the same tally
  return if encA = encB then [first] else [first, second]

/-! ## Creation -/

/-- What `create_stream_raw` is told about the stream to create. -/
structure NewStream where
  parent : Option StreamId
  key : FlowKey
  keyFields : FieldMap
  state : Option StateName
  rollups : RollupSet
  condensed : Option CondensedInfo
  dir : PacketDirection
  protocol : ProtocolName
  ts : SystemTime

/-- The record `create_stream_raw` stores. -/
def NewStream.record (n : NewStream) (id : StreamId) (createdSeq : Nat) : Stream where
  id := id
  protocol := n.protocol
  key := n.key
  keyFields := n.keyFields
  parent := n.parent
  children := []
  initiator := n.dir
  firstSeen := n.ts
  lastSeen := n.ts
  stats := {}
  opaqueBytes := 0
  state := n.state
  rollups := n.rollups
  closed := none
  closeEligible := false
  closeEligibleSince := none
  createdSeq := createdSeq
  condensed := n.condensed
  history := []

/-- `children.push(id)`. -/
def Stream.addChild (s : Stream) (id : StreamId) : Stream := { s with children := s.children ++ [id] }

/-- `children.retain(|c| *c != id)`. -/
def Stream.dropChild (s : Stream) (id : StreamId) : Stream :=
  { s with children := s.children.filter fun c => c ≠ id }

/-- `closed = Some(reason)`. -/
def Stream.markClosed (s : Stream) (reason : CloseReason) : Stream := { s with closed := some reason }

/-- `info.member_flows += 1`. -/
def Stream.countMember (s : Stream) : Stream :=
  { s with condensed := s.condensed.map fun info => { info with memberFlows := info.memberFlows + 1 } }

/-- `info.overflow = true`. -/
def Stream.markOverflow (s : Stream) : Stream :=
  { s with condensed := s.condensed.map fun info => { info with overflow := true } }

namespace Aggregator

/-- The id the next creation takes: a recycled slot with its bumped generation, or a grown one. -/
def freshId (a : Aggregator) : StreamId := a.arena.nextHandle idLimit

/-- First part of `create_stream_raw`: counters, slot and index. -/
def storeStream (env : Env) (a : Aggregator) (n : NewStream) : Aggregator :=
  let k : IndexKey := (n.parent, n.protocol, env.digest n.key)
  { a with
    nextSeq := a.nextSeq + 1
    totals := { a.totals with streamsCreated := a.totals.streamsCreated + 1 }
    createdPerProtocol := bumpCount a.createdPerProtocol n.protocol 1
    livePerProtocol := bumpCount a.livePerProtocol n.protocol 1
    liveCount := a.liveCount + 1
    arena := a.arena.insert idLimit (n.record a.freshId a.nextSeq)
    index := a.index.insert k (a.bucket k ++ [a.freshId]) }

/-- The parent, if it names a live stream. -/
def liveParent (a : Aggregator) (parent : Option StreamId) : Option StreamId :=
  parent.filter fun p => (a.get p).isSome

/-- Second part of `create_stream_raw`: the parent's child list, or the roots. -/
def linkStream (a : Aggregator) (parent : Option StreamId) (id : StreamId) : Aggregator :=
  { a with
    arena := match a.liveParent parent with
      | some p => a.arena.modify p fun s => s.addChild id
      | none => a.arena
    roots := match a.liveParent parent with
      | some _ => a.roots
      | none => a.roots ++ [id] }

/-- Third part of `create_stream_raw`: the heap entries of a new stream. -/
def armStream (env : Env) (a : Aggregator) (ts : SystemTime) (createdSeq : Nat) (id : StreamId) :
    Aggregator :=
  { a with
    expiry := match env.config.eviction with
      | .none => a.expiry
      | .live idle _ _ => a.expiry.push (expiryEntry (ts + idle) id)
    lru := match env.config.eviction with
      | .none => a.lru
      | .live _ _ _ => a.lru.push (lruEntry ts createdSeq id) }

/-- `create_stream_raw`: the slot, index, hierarchy and counter mechanics of a creation. -/
def createStreamRaw (env : Env) (a : Aggregator) (n : NewStream) : Aggregator × StreamId :=
  let id := a.freshId
  (((a.storeStream env n).linkStream n.parent id).armStream env n.ts a.nextSeq id, id)

/-- `key_fields`: the key-named fields of the creating layer. -/
def keyFieldsOf (identity : StreamIdentity) (fields : FieldMap) : FieldMap :=
  (identity.key.flatMap fun kf => kf.a :: kf.b.toList).foldl
    (fun m name =>
      match fields.get name with
      | none => m
      | some v => m.insert name v)
    FieldMap.new

/-- The `RollupSet::new` call of a creation. -/
def newRollups (env : Env) (identity : StreamIdentity) : RollupSet :=
  RollupSet.new identity.rollups env.config.rollupSeriesDefaultCap env.config.rollupSeriesMaxCap

/-- What `create_stream` tells of the stream of a layer. -/
def layerStream (env : Env) (parent : Option StreamId) (key : FlowKey) (identity : StreamIdentity)
    (layer : LayerRecord) (dir : PacketDirection) (ts : SystemTime) : NewStream where
  parent := parent
  key := key
  keyFields := keyFieldsOf identity layer.fields
  state := identity.lifecycle.map LifecycleSpec.initial
  rollups := newRollups env identity
  condensed := none
  dir := dir
  protocol := layer.protocol
  ts := ts

/-- `create_stream`: an ordinary expanded stream for a layer. -/
def createStream (env : Env) (a : Aggregator) (parent : Option StreamId) (key : FlowKey)
    (identity : StreamIdentity) (layer : LayerRecord) (dir : PacketDirection) (ts : SystemTime) :
    Aggregator × StreamId :=
  a.createStreamRaw env (layerStream env parent key identity layer dir ts)

/-! ## Condensation -/

/-- What `condense_fold` tells of a group's condensed node. -/
def nodeStream (env : Env) (ckey : CondenseKey) (identity : StreamIdentity) (c : CondenseCandidate)
    (ts : SystemTime) : NewStream where
  parent := ckey.1
  key := condensedKeySentinel :: ckey.2.2
  keyFields := FieldMap.new.insert c.anchorField c.anchorValue
  state := none
  rollups := newRollups env identity
  condensed := some ⟨0, c.anchorField, false⟩
  dir := c.foldDir
  protocol := ckey.2.1
  ts := ts

/-- `condense_fold`, lazy creation: the group's condensed node, uncounted as a created flow. -/
def createNode (env : Env) (a : Aggregator) (ckey : CondenseKey) (group : CondenseGroup)
    (identity : StreamIdentity) (c : CondenseCandidate) (ts : SystemTime) : Aggregator × StreamId :=
  let (b, id) := a.createStreamRaw env (nodeStream env ckey identity c ts)
  ({ b with
      totals := { b.totals with streamsCreated := b.totals.streamsCreated - 1 }
      createdPerProtocol := dropCount b.createdPerProtocol ckey.2.1 1
      condense := b.condense.insert ckey { group with node := some id } }, id)

/-- `condense_fold`, membership: the varying-side digest is tallied in the group, up to the cap. -/
def addMember (a : Aggregator) (ckey : CondenseKey) (nodeId : StreamId) (digest : UInt64) :
    Aggregator :=
  match a.condense.lookup ckey with
  | none => a
  | some group =>
      if group.members.card < condenseMemberCap then
        -- a member already counted
        if digest ∈ group.members then a
        else
          let b := { a with
            condense := a.condense.insert ckey { group with members := insert digest group.members }
            totals := { a.totals with
              streamsCreated := a.totals.streamsCreated + 1
              flowsCondensed := a.totals.flowsCondensed + 1 }
            createdPerProtocol := bumpCount a.createdPerProtocol ckey.2.1 1 }
          b.modify nodeId Stream.countMember
      else if digest ∈ group.members then a
      -- past the cap new members are flagged, not counted
      else a.modify nodeId Stream.markOverflow

/-- `condense_fold`: folds the packet into the group's condensed node, or declines if the group is
not over its threshold. -/
def condenseFold (env : Env) (a : Aggregator) (parent : Option StreamId) (protocol : ProtocolName)
    (identity : StreamIdentity) (c : CondenseCandidate) (ts : SystemTime) :
    Option (Aggregator × StreamId × PacketDirection) :=
  let ckey : CondenseKey := (parent, protocol, c.anchor)
  match a.condense.lookup ckey with
  | none => none
  | some group =>
      if group.node.isSome ∨ env.config.condenseThreshold ≤ group.expanded then
        match group.node.filter fun id => (a.get id).isSome with
        -- the node of the group is live
        | some id => some (a.addMember ckey id c.varyingDigest, id, c.foldDir)
        | none =>
            -- first flow over the threshold: the node is created now
            let (b, id) := a.createNode env ckey group identity c ts
            some (b.addMember ckey id c.varyingDigest, id, c.foldDir)
      else none

/-- An expanded flow is tallied toward one of its anchors. -/
def tallyAnchor (parent : Option StreamId) (protocol : ProtocolName)
    (m : HashMap CondenseKey CondenseGroup) (c : CondenseCandidate) :
    HashMap CondenseKey CondenseGroup :=
  let ckey : CondenseKey := (parent, protocol, c.anchor)
  let group := (m.lookup ckey).getD {}
  m.insert ckey { group with expanded := group.expanded + 1 }

/-- `get_or_insert`: an index hit, a fold into a condensed node, or a fresh expanded stream; with the
direction to attribute the packet with. -/
def getOrInsert (env : Env) (a : Aggregator) (parent : Option StreamId) (key : FlowKey)
    (identity : StreamIdentity) (condense : Option CondenseSpec) (layer : LayerRecord)
    (dir : PacketDirection) (ts : SystemTime) : Aggregator × StreamId × PacketDirection :=
  let hit := (a.bucket (parent, layer.protocol, env.digest key)).find? fun id =>
    (a.get id).any fun s => s.key = key
  match hit with
  -- a flow seen before
  | some id => (a, id, dir)
  | none =>
      let candidates := if 0 < env.config.condenseThreshold then
          condense.bind fun spec => condenseCandidates env identity spec layer.fields
        else none
      match candidates with
      | none =>
          let (b, id) := a.createStream env parent key identity layer dir ts
          (b, id, dir)
      | some cs =>
          match cs.findSome? fun c => a.condenseFold env parent layer.protocol identity c ts with
          -- the first candidate whose group condenses takes the packet
          | some resolved => resolved
          | none =>
              let (b, id) := a.createStream env parent key identity layer dir ts
              ({ b with condense := cs.foldl (tallyAnchor parent layer.protocol) b.condense }, id, dir)

end Aggregator

/-! ## Folding one packet into a stream -/

/-- The lifecycle part of the per-layer update: the plugin advances the state, and entry into a closed
state sets the linger anchor. Also tells whether the stream just became close-eligible. -/
def Stream.advance (s : Stream) (identity : StreamIdentity) (layer : LayerRecord)
    (dir : PacketDirection) (ts : SystemTime) : Stream × Bool :=
  match identity.lifecycle, s.state with
  | some spec, some current =>
      let next := spec.advance layer.fields current dir
      let eligible : Bool := next ∈ spec.closedStates
      let became : Bool := eligible && !s.closeEligible
      ({ s with
          state := some next
          closeEligibleSince :=
            -- the anchor stays where the closed states began, and goes once the state opens again
            if became then some ts else if eligible then s.closeEligibleSince else none
          closeEligible := eligible }, became)
  | _, _ => (s, false)

/-- The per-layer update of `ingest` on the resolved stream. -/
def Stream.absorb (s : Stream) (identity : StreamIdentity) (layer : LayerRecord) (key : FlowKey)
    (dir : PacketDirection) (ts : SystemTime) (origlen : Nat) : Stream × Bool :=
  let s := { s with lastSeen := ts, stats := s.stats.record dir origlen }
  let (s, became) := s.advance identity layer dir ts
  ({ s with
      rollups := s.rollups.apply layer.fields s.firstSeen ts dir
      history := s.history ++ [⟨ts, origlen, dir, layer, key, s.state⟩] }, became)

namespace Aggregator

/-- The per-layer update of `ingest` once the layer is resolved to a stream. The linger deadline of a
stream that just became close-eligible is armed eagerly. -/
def touch (env : Env) (a : Aggregator) (id : StreamId) (identity : StreamIdentity)
    (layer : LayerRecord) (key : FlowKey) (dir : PacketDirection) (ts : SystemTime) (origlen : Nat) :
    Aggregator :=
  let becameEligible := (a.get id).any fun s => (s.absorb identity layer key dir ts origlen).2
  { a with
    liveBytesPerProtocol := bumpCount a.liveBytesPerProtocol layer.protocol origlen
    arena := a.arena.modify id fun s => (s.absorb identity layer key dir ts origlen).1
    expiry := match env.config.eviction with
      | .none => a.expiry
      | .live _ linger _ =>
          if becameEligible then a.expiry.push (expiryEntry (ts + linger) id) else a.expiry }

end Aggregator

/-! ## Eviction -/

/-- The earlier of `last_seen + idle` and `closed-entry + linger`. -/
def Stream.deadline (idle linger : Duration) (s : Stream) : SystemTime :=
  match s.closeEligibleSince with
  | some entered => min (s.lastSeen + idle) (entered + linger)
  | none => s.lastSeen + idle

namespace Aggregator

/-- `deadline_of`: a live stream's current expiry deadline under the `Live` policy. -/
def deadlineOf (env : Env) (a : Aggregator) (id : StreamId) : Option SystemTime :=
  match env.config.eviction with
  | .none => none
  | .live idle linger _ => (a.get id).map (Stream.deadline idle linger)

/-- An anchor of an evicted expanded flow loses a tally; an empty group without a node is dropped. -/
def untallyAnchor (parent : Option StreamId) (protocol : ProtocolName)
    (m : HashMap CondenseKey CondenseGroup) (c : CondenseCandidate) :
    HashMap CondenseKey CondenseGroup :=
  let ckey : CondenseKey := (parent, protocol, c.anchor)
  match m.lookup ckey with
  | none => m
  | some group =>
      -- a group that neither counts nor condenses is forgotten
      if group.expanded - 1 = 0 ∧ group.node = none then m.erase ckey
      else m.insert ckey { group with expanded := group.expanded - 1 }

/-- The groups after `condense_evict`: that of a condensed node goes; an expanded flow's anchors, which
its key fields reconstruct, lose a tally. -/
def groupsWithout (env : Env) (m : HashMap CondenseKey CondenseGroup) (stream : Stream) :
    HashMap CondenseKey CondenseGroup :=
  if env.config.condenseThreshold = 0 then m
  else if stream.condensed.isSome then
    -- the anchor is the key behind the sentinel
    m.erase (stream.parent, stream.protocol, stream.key.drop 1)
  else
    match env.engine.pluginByName stream.protocol with
    | none => m
    | some plugin =>
        match plugin.condense, plugin.streamIdentity with
        | some spec, some identity =>
            match condenseCandidates env identity spec stream.keyFields with
            | none => m
            | some cs => cs.foldl (untallyAnchor stream.parent stream.protocol) m
        | _, _ => m

/-- `condense_evict`. -/
def condenseEvict (env : Env) (a : Aggregator) (stream : Stream) : Aggregator :=
  { a with condense := groupsWithout env a.condense stream }

/-- The index part of `evict`: the id leaves its bucket, and an empty bucket goes. -/
def unindex (env : Env) (a : Aggregator) (stream : Stream) (id : StreamId) : Aggregator :=
  let k : IndexKey := (stream.parent, stream.protocol, env.digest stream.key)
  { a with
    index := match a.index.lookup k with
      | none => a.index
      | some ids =>
          let rest := ids.filter fun c => c ≠ id
          if rest = [] then a.index.erase k else a.index.insert k rest }

/-- The hierarchy part of `evict`: the parent loses the child and is re-armed in both heaps, or the
roots lose the stream. -/
def unlink (env : Env) (a : Aggregator) (parent : Option StreamId) (id : StreamId) : Aggregator :=
  match parent with
  | none => { a with roots := a.roots.filter fun r => r ≠ id }
  | some p =>
      let b := a.modify p fun s => s.dropChild id
      { b with
        expiry := match b.deadlineOf env p with
          | none => b.expiry
          | some deadline => b.expiry.push (expiryEntry deadline p)
        lru := match b.get p with
          | none => b.lru
          | some s => b.lru.push (lruEntry s.lastSeen s.createdSeq p) }

/-- First part of `evict`: the slot is emptied and the live counters drop. -/
def takeStream (a : Aggregator) (stream : Stream) (id : StreamId) : Aggregator :=
  { a with
    arena := a.arena.remove idLimit id
    liveCount := a.liveCount - 1
    livePerProtocol := dropCount a.livePerProtocol stream.protocol 1
    liveBytesPerProtocol := dropCount a.liveBytesPerProtocol stream.protocol stream.stats.bytes }

/-- Last part of `evict`: the closed stream goes to the sink. -/
def emit (env : Env) (a : Aggregator) (stream : Stream) (reason : CloseReason) : Aggregator :=
  let evicted : EvictedStream := ⟨stream.markClosed reason, reason⟩
  { a with
    sinkCalls := if env.config.sink then a.sinkCalls ++ [evicted] else a.sinkCalls
    removed := a.removed ++ [evicted] }

/-- `evict`: removes one live stream, if the id still names one. -/
def evict (env : Env) (a : Aggregator) (id : StreamId) (reason : CloseReason) : Aggregator :=
  match a.get id with
  | none => a
  | some stream =>
      ((((a.takeStream stream id).condenseEvict env stream).unindex env stream id).unlink env
        stream.parent id).emit env stream reason

end Aggregator

end Pktflow.Flows
