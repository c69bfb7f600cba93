import Pktflow.Core.Engine
import Pktflow.Flows.Rollup
import Pktflow.Lib.Loop
import Mathlib.Data.List.MinMax
import Mathlib.Data.Prod.Lex

/-!
# The unknown-occurrence registry

Model of `pktflow-flows/src/unknown.rs`: one row per distinct shape of unknown, bounded by a cap on the
number of groups and independent of the stream store.
-/

set_option autoImplicit false

namespace Pktflow.Flows

open Pktflow.Core Pktflow.Lib

/-- The key both LRU choices compare: last-seen time, then insertion order. -/
structure SeenRank where
  lastSeen : SystemTime
  seq : Nat
  deriving DecidableEq, Repr

/-- The tuple order of the source's keys. -/
def SeenRank.toTuple (r : SeenRank) : SystemTime ×ₗ Nat := toLex (r.lastSeen, r.seq)

theorem SeenRank.toTuple_injective : Function.Injective SeenRank.toTuple := by
  rintro ⟨l, q⟩ ⟨l', q'⟩ h
  simpa [SeenRank.toTuple] using h

instance : LinearOrder SeenRank := LinearOrder.lift' SeenRank.toTuple SeenRank.toTuple_injective

theorem SeenRank.le_iff {x y : SeenRank} :
    x ≤ y ↔ x.lastSeen < y.lastSeen ∨ x.lastSeen = y.lastSeen ∧ x.seq ≤ y.seq :=
  Prod.Lex.toLex_le_toLex

/-- `EndpointKey`: the innermost keyed layer at the point dissection stopped. -/
structure EndpointKey where
  protocol : ProtocolName
  key : FlowKey
  deriving DecidableEq

/-- `UnknownKey`: predecessor, and the unclaimed route if one was named. -/
structure UnknownKey where
  predecessor : ProtocolName
  route : Option RouteId
  deriving DecidableEq

/-- `UnknownKey::from`. -/
def UnknownKey.ofContext : UnknownContext → UnknownKey
  | .unclaimedRoute predecessor route => ⟨predecessor, some route⟩
  | .noHeuristicWinner predecessor => ⟨predecessor, none⟩

/-- `u32::MAX`. -/
def u32Max : Nat := 2 ^ 32 - 1

/-- `UnknownGroup`: one distinct shape of unknown. -/
structure UnknownGroup where
  key : UnknownKey
  count : Nat
  bytesTotal : Nat
  bytesMin : Nat
  bytesMax : Nat
  firstSeen : SystemTime
  lastSeen : SystemTime
  endpoints : List EndpointKey
  endpointsOverflow : Bool
  nearMisses : List (ProtocolName × Confidence)
  samples : List (List UInt8)

/-- `UnknownRegistryConfig`, with its defaults. -/
structure UnknownRegistryConfig where
  maxGroups : Nat := 500
  samplesPerGroup : Nat := 5

/-- `UnknownRegistry`. -/
structure UnknownRegistry where
  groups : HashMap UnknownKey UnknownGroup := ∅
  seqs : HashMap UnknownKey Nat := ∅
  nextSeq : Nat := 0

/-- The group `entry(..).or_insert_with(..)` starts from. -/
def UnknownGroup.new (key : UnknownKey) (ts : SystemTime) : UnknownGroup where
  key := key
  count := 0
  bytesTotal := 0
  bytesMin := u32Max
  bytesMax := 0
  firstSeen := ts
  lastSeen := ts
  endpoints := []
  endpointsOverflow := false
  nearMisses := []
  samples := []

/-- Files the endpoint of one occurrence in the capped set. -/
def UnknownGroup.addEndpoint (g : UnknownGroup) : Option EndpointKey → UnknownGroup
  | none => g
  | some ep =>
      if ep ∈ g.endpoints then g
      else if g.endpoints.length < accumulateSetCap then { g with endpoints := g.endpoints ++ [ep] }
      else { g with endpointsOverflow := true }

/-- The score of the best near miss. -/
def topScore (nearMisses : List (ProtocolName × Confidence)) : Option Nat :=
  nearMisses.head?.map fun m => m.2.score

/-- `candidate_top.is_some() && candidate_top >= current_top`. -/
def outranks (candidate current : Option Nat) : Bool :=
  match candidate, current with
  | none, _ => false
  | some _, none => true
  | some c, some b => b ≤ c

/-- The part of `UnknownRegistry::ingest` that folds one occurrence into its group. -/
def UnknownGroup.observe (g : UnknownGroup) (diag : UnknownDiagnostics) (bytes : Nat)
    (ts : SystemTime) (endpoint : Option EndpointKey) (samplesPerGroup : Nat) : UnknownGroup :=
  let g := { g with
    count := g.count + 1
    bytesTotal := g.bytesTotal + bytes
    bytesMin := min g.bytesMin bytes
    bytesMax := max g.bytesMax bytes
    firstSeen := min g.firstSeen ts
    lastSeen := max g.lastSeen ts }
  let g := g.addEndpoint endpoint
  let g := if outranks (topScore diag.nearMisses) (topScore g.nearMisses) then
    { g with nearMisses := diag.nearMisses } else g
  { g with samples := (if samplesPerGroup ≤ g.samples.length then g.samples.drop 1 else g.samples) ++
      [diag.sample] }

namespace UnknownRegistry

/-- The group least recently updated, insertion order breaking ties. -/
def coldest (r : UnknownRegistry) : Option UnknownKey :=
  ((r.groups.entries.map Sigma.snd).argmin fun g =>
    (⟨g.lastSeen, (r.seqs.lookup g.key).getD 0⟩ : SeenRank)).map UnknownGroup.key

/-- The loop body of `enforce_max_groups`. -/
def enforceStep (maxGroups : Nat) (r : UnknownRegistry) : Option UnknownRegistry :=
  if maxGroups < r.groups.entries.length then
    r.coldest.map fun k => { r with groups := r.groups.erase k, seqs := r.seqs.erase k }
  else none

/-- `UnknownRegistry::enforce_max_groups`; every iteration removes a group. -/
def enforceMaxGroups (r : UnknownRegistry) (maxGroups : Nat) : UnknownRegistry :=
  Loop.iterate (enforceStep maxGroups) r.groups.entries.length r

/-- `UnknownRegistry::ingest`. -/
def ingest (r : UnknownRegistry) (diag : UnknownDiagnostics) (bytes : Nat) (ts : SystemTime)
    (endpoint : Option EndpointKey) (config : UnknownRegistryConfig) : UnknownRegistry :=
  let key := UnknownKey.ofContext diag.context
  let r := if (r.seqs.lookup key).isSome then r
    else { r with seqs := r.seqs.insert key r.nextSeq, nextSeq := r.nextSeq + 1 }
  let group := ((r.groups.lookup key).getD (UnknownGroup.new key ts)).observe diag bytes ts endpoint
    config.samplesPerGroup
  { r with groups := r.groups.insert key group }.enforceMaxGroups config.maxGroups

end UnknownRegistry

end Pktflow.Flows
