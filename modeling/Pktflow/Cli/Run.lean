import Pktflow.Capture.Pump
import Pktflow.Core.Registry
import Pktflow.Core.Walk
import Pktflow.Flows.Intake
import Pktflow.Flows.Snapshot
import Pktflow.Plugins.Keyless

/-!
# The run pipeline

Model of the pipeline of `pktflow-cli/src/run.rs`: a producer thread pumps packets through the engine into a bounded
channel, this thread aggregates, and when both are done the report and the final snapshot are handed back. The two
threads are interleaved in every order (`Lib.Handoff`), and the outcome is nevertheless that of reading, dissecting
and ingesting the packets one after the other (`runObserved_law`).

Opening the source, the elapsed time and the two names of a `RunOutcome` are left out.
-/

set_option autoImplicit false

namespace Pktflow.Cli

open Pktflow.Core Pktflow.Flows Pktflow.Lib Pktflow.Capture

/-- `CliError`, with the texts it carries. -/
inductive CliError where
  | usage (message : String)
  | capture (error : CaptureError)
  | io (message : String)
  | internal (message : String)
  | notFound (message : String)
  deriving DecidableEq, Repr

/-- `DepthArg`. -/
inductive DepthArg where
  | keys
  | structural
  | full
  deriving DecidableEq, Repr

/-- `DepthArg::to_depth`. -/
def DepthArg.toDepth : DepthArg → Depth
  | .keys => .keys
  | .structural => .structural
  | .full => .full

/-- `SharedArgs`: what the pipeline reads of it. -/
structure SharedArgs where
  iface : Option String := none
  count : Option Nat := none
  depth : DepthArg := .structural
  /-- In seconds. -/
  idleTimeout : Option Nat := none
  maxStreams : Option Nat := none
  seriesCap : Option Nat := none
  noCondense : Bool := false
  condenseThreshold : Option Nat := none
  entry : Option String := none

/-- `Duration::from_secs`. -/
def fromSecs (secs : Nat) : Duration := secs * 1000000000

namespace SharedArgs

/-- `SharedArgs::wants_live_eviction`. -/
def wantsLiveEviction (shared : SharedArgs) : Bool :=
  shared.iface.isSome || shared.idleTimeout.isSome || shared.maxStreams.isSome

/-- `SharedArgs::series_max_cap`: 0 is explicitly unclamped. -/
def seriesMaxCap (shared : SharedArgs) : Option Nat :=
  match shared.seriesCap with
  | some 0 => none
  | other => other

/-- `SharedArgs::condense_threshold`. -/
def condenseThresholdOr (shared : SharedArgs) : Nat :=
  if shared.noCondense then 0 else shared.condenseThreshold.getD defaultCondenseThreshold

end SharedArgs

/-- `aggregator_config`. -/
def aggregatorConfig (shared : SharedArgs) : AggregatorConfig where
  eviction :=
    if shared.wantsLiveEviction then
      .live (fromSecs (shared.idleTimeout.getD 300)) (fromSecs 15) (shared.maxStreams.getD 1000000)
    else .none
  rollupSeriesMaxCap := shared.seriesMaxCap
  condenseThreshold := shared.condenseThresholdOr

/-- The engine, its digest, and how a string is shown with its quotes. -/
structure Program where
  engine : Engine
  digest : List UInt8 → UInt64
  quoted : String → String

/-- The environment of the aggregator of a run. -/
def Program.env (p : Program) (shared : SharedArgs) : Env := ⟨p.engine, aggregatorConfig shared, p.digest⟩

/-- The usage error of a name that is not registered. -/
def entryError (p : Program) (name : String) : CliError :=
  .usage ("--entry " ++ p.quoted name ++ " is not a registered plugin")

/-- `resolve_opts`. -/
def resolveOpts (p : Program) (shared : SharedArgs) (aggregate diagnoseUnknown : Bool) : Except CliError ParseOpts := do
  let entry ← match shared.entry with
    | none => .ok none
    | some name =>
        match p.engine.pluginByName name with
        | none => .error (entryError p name)
        | some plugin => .ok (some plugin.name)
  return {
    depth := shared.depth.toDepth
    aggregation := aggregate
    entry := entry
    diagnoseUnknown := diagnoseUnknown }

/-- `CHANNEL_CAPACITY`. -/
def channelCapacity : Nat := 1024

/-- `AggregatorSnapshot`, with the fields that `snapshot` reads off the counters. -/
structure RunSnapshot extends AggregatorSnapshot where
  summary : AggregateSummary
  clock : SystemTime
  unknowns : UnknownRegistry

/-- `Aggregator::snapshot`, with all its fields; the unknown groups are those of the registry. -/
def runSnapshot (a : Aggregator) : RunSnapshot where
  toAggregatorSnapshot := a.snapshot
  summary := a.summary
  clock := a.clock
  unknowns := a.unknowns

/-- `RunOutcome`. -/
structure RunOutcome where
  snapshot : Option RunSnapshot
  report : PumpReport

/-- The callbacks `on_packet` and `on_ingested`, over the state that they change and what they read of the outside. -/
structure Observers (D I O : Type) where
  onPacket : Nat → I → O → O
  onIngested : D → Aggregator → O → O

/-- The consuming thread: the index of its loop, the aggregator, and the state of the callbacks. -/
structure Consumer (O : Type) where
  index : Nat := 0
  agg : Option Aggregator
  observed : O

/-- What goes through the channel: how it is made of a packet, the dissection in it, and what the pump returns when the
receiving side is gone. -/
structure Mode (I : Type) where
  work : RawPacket → Option I
  packetOf : I → DissectedPacket
  gone : PumpReport → Except CaptureError PumpReport

/-- The items of a mode hold the dissections of their packets. -/
def Mode.Dissects {I : Type} (mode : Mode I) (engine : Engine) (opts : ParseOpts) : Prop :=
  ∀ raw, (mode.work raw).map mode.packetOf = dissectRaw engine opts raw

/-- One turn of the consumer's loop. -/
def consumeItem {D I O : Type} (env : Env) (mode : Mode I) (obs : Observers D I O) (d : D) (c : Consumer O) (item : I) :
    Consumer O :=
  let observed := obs.onPacket c.index item c.observed
  match c.agg with
  | none => { index := c.index + 1, agg := none, observed := observed }
  | some agg =>
      let agg := agg.ingest env (mode.packetOf item)
      { index := c.index + 1, agg := some agg, observed := obs.onIngested d agg observed }

/-- The mode of `run_observed`: dissections go through the channel. -/
def plainMode (p : Program) (opts : ParseOpts) : Mode DissectedPacket where
  work := dissectRaw p.engine opts
  packetOf := id
  gone := fun _ => .error (.backend "aggregation channel closed")

/-! ## Packets mode -/

/-- `TAIL_SAMPLE_CAP`. -/
def tailSampleCap : Nat := 64

/-- `PacketEvent`. -/
structure PacketEvent where
  packet : DissectedPacket
  heuristic : List Bool
  tailSample : List UInt8

/-- `for step in layers.by_ref()`: the layers of a walk, and the walk behind them. -/
def layerSteps (it : LayerIter) : List LayerStep × LayerIter :=
  match _hnext : it.next with
  | (some step, it') =>
      let rest := layerSteps it'
      (step :: rest.1, rest.2)
  | (none, it') => ([], it')
termination_by it.opts.maxLayers - it.records.length
decreasing_by
  have hnext := LayerIter.next_records (congrArg Prod.fst _hnext)
  rw [_hnext] at hnext
  obtain ⟨hlt, hlen, hopts⟩ := hnext
  simp only at hlen hopts
  rw [hlen, hopts]
  omega

/-- The body of the producer's loop in `run_packets`, up to the counters. -/
def packetEvent (engine : Engine) (opts : ParseOpts) (raw : RawPacket) : Option PacketEvent :=
  (engine.layers raw.bytes raw.meta_ opts).map fun it =>
    let walked := layerSteps it
    let packet := walked.2.intoPacket raw.meta_
    let tailStart := raw.bytes.length - packet.opaqueLen
    let sampleLen := min packet.opaqueLen tailSampleCap
    { packet := packet
      heuristic := walked.1.map LayerStep.viaHeuristic
      tailSample := (raw.bytes.drop tailStart).take sampleLen }

/-- The mode of `run_packets`: a consumer that is gone ends the reading. -/
def packetsMode (p : Program) (opts : ParseOpts) : Mode PacketEvent where
  work := packetEvent p.engine opts
  packetOf := PacketEvent.packet
  gone := .ok

theorem layerSteps_of_some {it it' : LayerIter} {step : LayerStep} (h : it.next = (some step, it')) :
    layerSteps it = (step :: (layerSteps it').1, (layerSteps it').2) := by
  rw [layerSteps, h]

theorem layerSteps_of_none {it it' : LayerIter} (h : it.next = (none, it')) : layerSteps it = ([], it') := by
  rw [layerSteps, h]

theorem layerSteps_drain (it : LayerIter) : (layerSteps it).2 = it.drain := by
  induction it using layerSteps.induct with
  | case1 it step it' hnext ih =>
      rw [layerSteps_of_some hnext, LayerIter.drain_of_some hnext]
      exact ih
  | case2 it it' hnext =>
      rw [layerSteps_of_none hnext, LayerIter.drain_of_none hnext]

/-- The loop sees the layers that the walk records. -/
theorem layerSteps_records {it : LayerIter} (h : it.Consistent) :
    it.drain.records = it.records ++ (layerSteps it).1.map LayerStep.record := by
  induction it using layerSteps.induct with
  | case1 it step it' hnext ih =>
      have happend := LayerIter.next_append h
      have hconsistent := h.next
      rw [hnext] at happend hconsistent
      rw [LayerIter.drain_of_some hnext, ih hconsistent, happend, layerSteps_of_some hnext]
      simp
  | case2 it it' hnext =>
      have happend := LayerIter.next_append h
      rw [hnext] at happend
      rw [LayerIter.drain_of_none hnext, happend, layerSteps_of_none hnext]
      rfl

/-- An event of packets mode: the dissection of `pump`, a flag for each of its layers, and the first bytes of what is
behind the layers. -/
theorem packetEvent_spec {engine : Engine} {opts : ParseOpts} {raw : RawPacket} {event : PacketEvent}
    (h : packetEvent engine opts raw = some event) :
    dissectRaw engine opts raw = some event.packet ∧ event.heuristic.length = event.packet.layers.length ∧
      event.packet.opaqueLen ≤ raw.bytes.length ∧
      event.tailSample = (raw.bytes.drop (raw.bytes.length - event.packet.opaqueLen)).take tailSampleCap := by
  obtain ⟨it, hit, rfl⟩ := Option.map_eq_some_iff.1 h
  have hconsistent : it.Consistent := consistent_of_layers hit
  have hbytes : it.drain.bytes = raw.bytes := by
    rw [it.drain_frame.2.1, layers_eq_some hit]
  have hrecords : it.records = [] := by rw [layers_eq_some hit]
  -- the loop has drained the walk, so `into_packet` finds it stopped
  have hpacket : (layerSteps it).2.intoPacket raw.meta_ = it.intoPacket raw.meta_ := by
    rw [layerSteps_drain, LayerIter.intoPacket, LayerIter.drain_of_stop (LayerIter.drain_stop hconsistent),
      LayerIter.intoPacket]
  have hopaque : (it.intoPacket raw.meta_).opaqueLen ≤ raw.bytes.length := by
    show it.drain.bytes.length - it.drain.cursor ≤ raw.bytes.length
    rw [hbytes]
    exact Nat.sub_le _ _
  simp only [hpacket]
  refine ⟨?_, ?_, hopaque, ?_⟩
  · rw [dissectRaw, Engine.dissect, hit, Option.map_some]
  · have hlength := congrArg List.length (layerSteps_records hconsistent)
    rw [hrecords, List.nil_append, List.length_map] at hlength
    rw [List.length_map]
    exact hlength.symm
  · -- the tail has as many bytes as are unparsed
    rw [← List.take_take, List.take_of_length_le]
    rw [List.length_take, List.length_drop]
    omega

/-- Only an unregistered entry makes a dissection panic. -/
theorem dissectRaw_isSome {engine : Engine} {opts : ParseOpts}
    (hentry : ∀ name ∈ opts.entry, (engine.pluginByName name).isSome) (raw : RawPacket) :
    dissectRaw engine opts raw ≠ none := by
  rw [dissectRaw, Engine.dissect, layers_eq hentry]
  intro hnone
  cases hnone

theorem plainMode_dissects (p : Program) (opts : ParseOpts) : (plainMode p opts).Dissects p.engine opts := by
  intro raw
  show (dissectRaw p.engine opts raw).map id = _
  rw [Option.map_id_fun, id]

theorem packetsMode_dissects (p : Program) (opts : ParseOpts) : (packetsMode p opts).Dissects p.engine opts := by
  intro raw
  show (packetEvent p.engine opts raw).map PacketEvent.packet = _
  cases hevent : packetEvent p.engine opts raw with
  | none =>
      have hlayers := Option.map_eq_none_iff.1 hevent
      rw [dissectRaw, Engine.dissect, hlayers]
      rfl
  | some event => exact (packetEvent_spec hevent).1.symm

/-! ## The two threads -/

section Pipeline

variable {E D I σ O : Type}

/-- The two threads. -/
def pipeline (p : Program) (shared : SharedArgs) (mode : Mode I) (src : PacketSource E σ) (obs : Observers D I O) :
    Handoff E D (PumpState σ) I PumpEnd (Consumer O) where
  capacity := channelCapacity
  turn := pumpTurn src mode.work shared.count
  refused := fun s _ => .returned (mode.gone { s.report with stats := src.stats s.source })
  consume := consumeItem (p.env shared) mode obs

/-- `aggregate.then(|| Aggregator::new(..))`. -/
def newAggregator (aggregate : Bool) : Option Aggregator := if aggregate then some Aggregator.new else none

/-- The consumer before the first packet. -/
def Consumer.start (aggregate : Bool) (o : O) : Consumer O := { agg := newAggregator aggregate, observed := o }

/-- The state in which the threads start. -/
def pipelineStart (aggregate : Bool) (s₀ : σ) (o : O) :
    Handoff.State D (PumpState σ) I PumpEnd (Consumer O) :=
  Handoff.init { source := s₀ } (.start aggregate o)

/-- The end of `run_observed`: the producer is joined, and the aggregator finished. -/
def joined (env : Env) (c : Consumer O) : PumpEnd → Except CliError RunOutcome
  | .panicked => .error (.internal "pump thread panicked")
  | .returned (.error e) => .error (.capture e)
  | .returned (.ok report) => .ok ⟨c.agg.map fun agg => runSnapshot (agg.finish env), report⟩

/-- The results of a run over all interleavings, with the state that the callbacks are left in. -/
inductive RunWith (p : Program) (shared : SharedArgs) (modeOf : ParseOpts → Mode I) (src : PacketSource E σ)
    (aggregate diagnoseUnknown : Bool) (obs : Observers D I O) (s₀ : σ) (o : O) :
    Except CliError RunOutcome → O → Prop where
  | rejected {e : CliError} (rejected : resolveOpts p shared aggregate diagnoseUnknown = .error e) :
      RunWith p shared modeOf src aggregate diagnoseUnknown obs s₀ o (.error e) o
  | ran {opts : ParseOpts} {s : Handoff.State D (PumpState σ) I PumpEnd (Consumer O)} {r : PumpEnd}
      (opts_eq : resolveOpts p shared aggregate diagnoseUnknown = .ok opts)
      (reaches : (pipeline p shared (modeOf opts) src obs).Reaches (pipelineStart aggregate s₀ o) s)
      (done : s.Done r) :
      RunWith p shared modeOf src aggregate diagnoseUnknown obs s₀ o (joined (p.env shared) s.consumer r)
        s.consumer.observed

/-- `run_observed`. -/
def RunObserved (p : Program) (shared : SharedArgs) (src : PacketSource E σ) (aggregate diagnoseUnknown : Bool)
    (obs : Observers D DissectedPacket O) (s₀ : σ) (o : O) : Except CliError RunOutcome → O → Prop :=
  RunWith p shared (plainMode p) src aggregate diagnoseUnknown obs s₀ o

/-- `run_packets`: unknown stops are not diagnosed, and nothing is called after an ingest. -/
def RunPackets (p : Program) (shared : SharedArgs) (src : PacketSource E σ) (aggregate : Bool)
    (onPacket : Nat → PacketEvent → O → O) (s₀ : σ) (o : O) : Except CliError RunOutcome → O → Prop :=
  RunWith p shared (packetsMode p) src aggregate false
    ({ onPacket := onPacket, onIngested := fun _ _ o => o } : Observers Unit PacketEvent O) s₀ o

/-! ## One thread -/

/-- The state of the callbacks after items that are dealt with one by one. -/
def observe (env : Env) (mode : Mode I) (obs : Observers D I O) (aggregate : Bool) (o : O) (received : List (D × I)) :
    O :=
  (received.foldl (fun c x => consumeItem env mode obs x.1 c x.2) (Consumer.start aggregate o)).observed

/-- The aggregator that ingested some packets. -/
def ingestAll (env : Env) (packets : List DissectedPacket) : Aggregator := run env (packets.map Op.ingest)

theorem ingestAll_snoc (env : Env) (packets : List DissectedPacket) (packet : DissectedPacket) :
    ingestAll env (packets ++ [packet]) = (ingestAll env packets).ingest env packet := by
  rw [ingestAll, List.map_append, run, List.foldl_append]
  rfl

/-- The consumer ingests what it receives, in order. -/
theorem agg_consumed (env : Env) (mode : Mode I) (obs : Observers D I O) (aggregate : Bool) (o : O)
    (received : List (D × I)) :
    (received.foldl (fun c x => consumeItem env mode obs x.1 c x.2) (Consumer.start aggregate o)).agg =
      if aggregate then some (ingestAll env (received.map fun x => mode.packetOf x.2)) else none := by
  induction received using List.reverseRecOn with
  | nil =>
      cases aggregate <;> rfl
  | append_singleton received x ih =>
      rw [List.foldl_append, List.map_append, List.foldl_cons, List.foldl_nil, List.map_singleton, ingestAll_snoc,
        consumeItem]
      cases aggregate with
      | false => simp [ih]
      | true => simp [ih]

/-! ## Producer and consumer together -/

/-- What the pump yields by itself. -/
theorem pumps_of_yields {p : Program} {shared : SharedArgs} {mode : Mode I} {src : PacketSource E σ}
    {obs : Observers D I O} {s₀ : σ} {items : List I} {s : PumpState σ}
    (h : (pipeline p shared mode src obs).Yields { source := s₀ } items s) :
    ∃ raws, Pumps src mode.work shared.count s₀ raws items s := by
  induction h with
  | nil => exact ⟨[], .init src mode.work shared.count s₀⟩
  | snoc e _ turn ih =>
      obtain ⟨raws, hpumps⟩ := ih
      obtain ⟨raw, hraw⟩ := hpumps.turn turn
      exact ⟨_, hraw⟩

theorem name_of_pluginByName {engine : Engine} {name : ProtocolName} {plugin : LayerPlugin}
    (h : engine.pluginByName name = some plugin) : plugin.name = name := by
  obtain ⟨b, hb⟩ := engine.built
  obtain ⟨byName, claims, hnames, -, -, -, -, hr⟩ := EngineBuilder.build_eq_ok.1 hb
  obtain ⟨idx, hidx, hplugin⟩ := Option.bind_eq_some_iff.1 h
  simp only [hr] at hidx hplugin
  rw [EngineBuilder.byName_lookup hnames] at hidx
  obtain ⟨hlt, hname, -⟩ := List.findIdx?_eq_some_iff_getElem.1 hidx
  rw [List.getElem?_eq_getElem hlt] at hplugin
  obtain rfl := Option.some.inj hplugin
  exact of_decide_eq_true hname

/-- The options are those of a registered entry, or the name is the error's. -/
theorem resolveOpts_cases (p : Program) (shared : SharedArgs) (aggregate diagnoseUnknown : Bool) :
    (∃ name, shared.entry = some name ∧ p.engine.pluginByName name = none ∧
      resolveOpts p shared aggregate diagnoseUnknown = .error (entryError p name)) ∨
    ((∀ name ∈ shared.entry, (p.engine.pluginByName name).isSome) ∧
      resolveOpts p shared aggregate diagnoseUnknown = .ok
        { depth := shared.depth.toDepth, aggregation := aggregate, entry := shared.entry
          diagnoseUnknown := diagnoseUnknown }) := by
  rw [resolveOpts]
  cases hentry : shared.entry with
  | none => exact .inr ⟨by simp, rfl⟩
  | some name =>
      cases hplugin : p.engine.pluginByName name with
      | none => exact .inl ⟨name, rfl, hplugin, by simp only [hplugin]; rfl⟩
      | some plugin =>
          refine .inr ⟨fun n hn => ?_, ?_⟩
          · cases hn
            rw [hplugin]
            rfl
          · simp only [hplugin, name_of_pluginByName hplugin]
            rfl

/-- Options that are resolved ask for what the command asks for, and their entry is registered. -/
theorem resolveOpts_eq_ok {p : Program} {shared : SharedArgs} {aggregate diagnoseUnknown : Bool} {opts : ParseOpts}
    (h : resolveOpts p shared aggregate diagnoseUnknown = .ok opts) :
    opts.aggregation = aggregate ∧ ∀ name ∈ opts.entry, (p.engine.pluginByName name).isSome := by
  obtain ⟨_, -, -, hrejected⟩ | ⟨hentry, haccepted⟩ := resolveOpts_cases p shared aggregate diagnoseUnknown
  · rw [h] at hrejected
    cases hrejected
  · rw [h] at haccepted
    obtain rfl := Except.ok.inj haccepted
    exact ⟨rfl, hentry⟩

/-- With a registered entry the pump returns: with the error of the source, or with its report. -/
theorem returned_of_stop {engine : Engine} {opts : ParseOpts} {mode : Mode I} {src : PacketSource E σ}
    {limit : Option Nat} {raws : List RawPacket} {source : σ} {r : PumpEnd} (hmode : mode.Dissects engine opts)
    (hentry : ∀ name ∈ opts.entry, (engine.pluginByName name).isSome)
    (h : PumpStop src mode.work limit raws source r) :
    PumpStop src (dissectRaw engine opts) limit raws source r ∧
      ((∃ err, r = .returned (.error err)) ∨ ∃ report, r = .returned (.ok report)) := by
  cases h with
  | error e err source' next => exact ⟨.error e err source' next, .inl ⟨err, rfl⟩⟩
  | ended e source' next => exact ⟨.ended e source' next, .inr ⟨_, rfl⟩⟩
  | limited limit_eq => exact ⟨.limited limit_eq, .inr ⟨_, rfl⟩⟩
  | panicked e raw source' _ panics =>
      -- only an unregistered entry panics
      have hnone := hmode raw
      rw [panics] at hnone
      exact absurd hnone.symm (dissectRaw_isSome hentry raw)

/-- When both threads are done: the packets that were read went through in the order of the reads. -/
theorem pipeline_done {p : Program} {shared : SharedArgs} {mode : Mode I} {src : PacketSource E σ}
    {obs : Observers D I O} {aggregate : Bool} {s₀ : σ} {o : O}
    {s : Handoff.State D (PumpState σ) I PumpEnd (Consumer O)} {r : PumpEnd}
    (hreaches : (pipeline p shared mode src obs).Reaches (pipelineStart aggregate s₀ o) s) (hdone : s.Done r) :
    ∃ raws source, src.Reads s₀ raws source ∧ raws.mapM mode.work = some (s.received.map Prod.snd) ∧
      (∀ l ∈ shared.count, raws.length ≤ l) ∧ PumpStop src mode.work shared.count raws source r ∧
      s.consumer.agg =
        (if aggregate then some (ingestAll (p.env shared) (s.received.map fun x => mode.packetOf x.2)) else none) ∧
      s.consumer.observed = observe (p.env shared) mode obs aggregate o s.received := by
  obtain ⟨⟨ps, e, hyields, hfinish⟩, hconsumer⟩ := Handoff.consumed_of_done hreaches hdone
  obtain ⟨raws, hpumps⟩ := pumps_of_yields hyields
  refine ⟨raws, ps.source, hpumps.reads, hpumps.items, hpumps.limited, hpumps.finish hfinish, ?_, ?_⟩
  · rw [hconsumer]
    exact agg_consumed (p.env shared) mode obs aggregate o s.received
  · rw [hconsumer]
    rfl

/-- The items of a mode that dissects hold the dissections of the packets. -/
theorem mapM_dissectRaw {engine : Engine} {opts : ParseOpts} {mode : Mode I} (hmode : mode.Dissects engine opts)
    {raws : List RawPacket} {items : List I} (hitems : raws.mapM mode.work = some items) :
    raws.mapM (dissectRaw engine opts) = some (items.map mode.packetOf) := by
  induction raws generalizing items with
  | nil =>
      obtain rfl := Option.some.inj hitems
      rfl
  | cons raw raws ih =>
      rw [List.mapM_cons] at hitems ⊢
      obtain ⟨item, hitem, hitems⟩ := Option.bind_eq_some_iff.1 hitems
      obtain ⟨rest, hrest, hitems⟩ := Option.bind_eq_some_iff.1 hitems
      obtain rfl := Option.some.inj hitems
      have hraw := hmode raw
      rw [hitem] at hraw
      rw [← hraw, ih hrest]
      rfl

/-- The packets that go out have the capture data of those that were read. -/
theorem metas_of_dissected {engine : Engine} {opts : ParseOpts} {raws : List RawPacket}
    {packets : List DissectedPacket} (h : raws.mapM (dissectRaw engine opts) = some packets) :
    packets.map DissectedPacket.meta_ = raws.map RawPacket.meta_ := by
  induction raws generalizing packets with
  | nil =>
      obtain rfl := Option.some.inj h
      rfl
  | cons raw raws ih =>
      rw [List.mapM_cons] at h
      obtain ⟨packet, hpacket, h⟩ := Option.bind_eq_some_iff.1 h
      obtain ⟨rest, hrest, h⟩ := Option.bind_eq_some_iff.1 h
      obtain rfl := Option.some.inj h
      obtain ⟨it, -, rfl⟩ := Option.map_eq_some_iff.1 hpacket
      rw [List.map_cons, List.map_cons, ih hrest]
      rfl

/-- The results of one thread that reads, dissects and ingests the packets one after the other: the usage error of an
unregistered entry, the source's error, or the report of the packets read and the snapshot behind their ingest and
`finish`. -/
def OneByOne (p : Program) (shared : SharedArgs) (modeOf : ParseOpts → Mode I) (src : PacketSource E σ)
    (aggregate diagnoseUnknown : Bool) (obs : Observers D I O) (s₀ : σ) (o : O) (result : Except CliError RunOutcome)
    (observed : O) : Prop :=
  (∃ name, shared.entry = some name ∧ p.engine.pluginByName name = none ∧
    result = .error (entryError p name) ∧ observed = o) ∨
  ∃ opts raws packets source, ∃ received : List (D × I),
    resolveOpts p shared aggregate diagnoseUnknown = .ok opts ∧ src.Reads s₀ raws source ∧
    raws.mapM (dissectRaw p.engine opts) = some packets ∧ (∀ l ∈ shared.count, raws.length ≤ l) ∧
    raws.mapM (modeOf opts).work = some (received.map Prod.snd) ∧
    observed = observe (p.env shared) (modeOf opts) obs aggregate o received ∧
    ((∃ err, PumpStop src (dissectRaw p.engine opts) shared.count raws source (.returned (.error err)) ∧
        result = .error (.capture err)) ∨
      ∃ report, PumpStop src (dissectRaw p.engine opts) shared.count raws source (.returned (.ok report)) ∧
        result = .ok
          ⟨if aggregate then
              some (runSnapshot ((ingestAll (p.env shared) packets).finish (p.env shared)))
            else none, report⟩)

section Law

variable {p : Program} {shared : SharedArgs} {modeOf : ParseOpts → Mode I} {mode : Mode I} {src : PacketSource E σ}
  {aggregate diagnoseUnknown : Bool} {obs : Observers D I O} {s₀ : σ} {o : O}

/-- Whatever the interleaving, a run comes to what one thread comes to. -/
theorem runWith_law (hmode : ∀ opts, (modeOf opts).Dissects p.engine opts) {result : Except CliError RunOutcome}
    {observed : O} (h : RunWith p shared modeOf src aggregate diagnoseUnknown obs s₀ o result observed) :
    OneByOne p shared modeOf src aggregate diagnoseUnknown obs s₀ o result observed := by
  obtain ⟨name, hname, hnone, hopts⟩ | ⟨-, hopts⟩ := resolveOpts_cases p shared aggregate diagnoseUnknown
  · left
    cases h with
    | rejected hrejected =>
        rw [hopts] at hrejected
        cases hrejected
        exact ⟨name, hname, hnone, rfl, rfl⟩
    | ran hran _ _ =>
        rw [hopts] at hran
        cases hran
  · right
    cases h with
    | rejected hrejected =>
        rw [hopts] at hrejected
        cases hrejected
    | @ran opts s r hran hreaches hdone =>
        obtain ⟨raws, source, hreads, hitems, hlimit, hstop, hagg, hobserved⟩ := pipeline_done hreaches hdone
        have hpackets := mapM_dissectRaw (hmode opts) hitems
        refine ⟨opts, raws, _, source, s.received, hran, hreads, hpackets, hlimit, hitems, hobserved, ?_⟩
        obtain ⟨hstopped, ⟨err, rfl⟩ | ⟨report, rfl⟩⟩ :=
          returned_of_stop (hmode opts) (resolveOpts_eq_ok hran).2 hstop
        · exact .inl ⟨err, hstopped, rfl⟩
        · refine .inr ⟨report, hstopped, ?_⟩
          rw [joined, hagg, List.map_map]
          cases aggregate <;> rfl

end Law

section Law

variable {p : Program} {shared : SharedArgs} {src : PacketSource E σ} {aggregate diagnoseUnknown : Bool} {s₀ : σ}
  {o : O}

/-- Whatever the interleaving, `run_observed` comes to what one thread comes to; above all, no packet is lost and the
pump does not panic. -/
theorem runObserved_law {obs : Observers D DissectedPacket O} {result : Except CliError RunOutcome} {observed : O}
    (h : RunObserved p shared src aggregate diagnoseUnknown obs s₀ o result observed) :
    OneByOne p shared (plainMode p) src aggregate diagnoseUnknown obs s₀ o result observed :=
  runWith_law (plainMode_dissects p) h

/-- Packets mode is the plain run seen more closely: the same outcome, and every event has a flag for each layer and
shows the first bytes behind the layers. -/
theorem runPackets_law {onPacket : Nat → PacketEvent → O → O} {result : Except CliError RunOutcome} {observed : O}
    (h : RunPackets p shared src aggregate onPacket s₀ o result observed) :
    OneByOne p shared (packetsMode p) src aggregate false
        ({ onPacket := onPacket, onIngested := fun _ _ o => o } : Observers Unit PacketEvent O) s₀ o result observed ∧
      ∀ opts raw event, packetEvent p.engine opts raw = some event →
        event.heuristic.length = event.packet.layers.length ∧ event.packet.opaqueLen ≤ raw.bytes.length ∧
        event.tailSample = (raw.bytes.drop (raw.bytes.length - event.packet.opaqueLen)).take tailSampleCap :=
  ⟨runWith_law (packetsMode_dissects p) h, fun _ _ _ hevent => (packetEvent_spec hevent).2⟩

/-- The final summary and the report count the same packets and bytes, and every packet has its stop class. -/
theorem summary_matches_report {outcome : RunOutcome} {observed : O}
    {obs : Observers D DissectedPacket O}
    (h : RunObserved p shared src aggregate diagnoseUnknown obs s₀ o (.ok outcome) observed) {snap : RunSnapshot}
    (hsnap : outcome.snapshot = some snap) :
    snap.summary.packets = outcome.report.packets ∧ snap.summary.bytes = outcome.report.bytes ∧
      (snap.summary.stopClasses.map Prod.snd).sum = outcome.report.packets := by
  obtain ⟨_, _, _, heq, _⟩ | ⟨opts, raws, packets, source, _, _, _, hpackets, _, _, _, hend⟩ :=
    runWith_law (plainMode_dissects p) h
  · cases heq
  · obtain ⟨_, _, heq⟩ | ⟨report, hstop, heq⟩ := hend
    · cases heq
    · obtain rfl := Except.ok.inj heq
      have hreport : ∃ stats, report = reportOf raws stats := by
        cases hstop with
        | ended e source' next => exact ⟨_, rfl⟩
        | limited limit_eq => exact ⟨_, rfl⟩
      obtain ⟨stats, rfl⟩ := hreport
      cases aggregate with
      | false => cases hsnap
      | true =>
          obtain rfl := Option.some.inj hsnap
          have hintake : ((ingestAll (p.env shared) packets).finish (p.env shared)).intake =
              intakeOf (p.env shared) packets := by
            rw [Aggregator.intake_finish, ingestAll, intake_run, ingested_map]
          have hmetas := metas_of_dissected hpackets
          have hlen : packets.length = raws.length := by
            simpa using congrArg List.length hmetas
          refine ⟨?_, ?_, ?_⟩
          · exact (congrArg Intake.packets hintake).trans hlen
          · refine (congrArg Intake.bytes hintake).trans ?_
            have hsums := congrArg (fun l => (l.map PacketMeta.origlen).sum) hmetas
            simpa [intakeOf, reportOf, Function.comp_def] using hsums
          · exact (sum_stopClasses hintake).trans hlen

theorem sum_keyMissing {env : Env} {opts : ParseOpts}
    (hplugins : ∀ plugin ∈ env.engine.registry.plugins, plugin ∈ Plugins.builtins) (hagg : opts.aggregation = true)
    {raws : List RawPacket} {packets : List DissectedPacket}
    (h : raws.mapM (dissectRaw env.engine opts) = some packets) :
    (packets.map fun packet => packet.layers.countP (keyMissing env)).sum =
      ((raws.zip packets).map fun x => Plugins.keylessLayers x.1.bytes x.2).sum := by
  induction raws generalizing packets with
  | nil =>
      obtain rfl := Option.some.inj h
      rfl
  | cons raw raws ih =>
      rw [List.mapM_cons] at h
      obtain ⟨packet, hpacket, h⟩ := Option.bind_eq_some_iff.1 h
      obtain ⟨rest, hrest, h⟩ := Option.bind_eq_some_iff.1 h
      obtain rfl := Option.some.inj h
      rw [List.map_cons, List.sum_cons, ih hrest, List.zip_cons_cons, List.map_cons, List.sum_cons,
        Plugins.countP_keyMissing hplugins hagg hpacket]

theorem keysTold_zip {env : Env} {opts : ParseOpts}
    (hplugins : ∀ plugin ∈ env.engine.registry.plugins, plugin ∈ Plugins.builtins) (hagg : opts.aggregation = true)
    {raws : List RawPacket} {packets : List DissectedPacket}
    (h : raws.mapM (dissectRaw env.engine opts) = some packets) :
    ∀ x ∈ raws.zip packets, Plugins.KeysTold env x.1.bytes x.2 := by
  induction raws generalizing packets with
  | nil =>
      intro x hx
      rw [List.zip_nil_left] at hx
      cases hx
  | cons raw raws ih =>
      rw [List.mapM_cons] at h
      obtain ⟨packet, hpacket, h⟩ := Option.bind_eq_some_iff.1 h
      obtain ⟨rest, hrest, h⟩ := Option.bind_eq_some_iff.1 h
      obtain rfl := Option.some.inj h
      intro x hx
      rw [List.zip_cons_cons] at hx
      rcases List.mem_cons.1 hx with rfl | hx
      · exact Plugins.keysTold hplugins hagg hpacket
      · exact ih hrest x hx

/-- A run that aggregates, with plugins of the model, counts as key errors exactly the QUIC packets with the short
header and the 802.11 control frames of one address: these miss a field of their key, and every other layer with an
identity carries all of them. -/
theorem observed_keyErrors (hplugins : ∀ plugin ∈ p.engine.registry.plugins, plugin ∈ Plugins.builtins)
    {outcome : RunOutcome} {observed : O} {obs : Observers D DissectedPacket O}
    (h : RunObserved p shared src aggregate diagnoseUnknown obs s₀ o (.ok outcome) observed) {snap : RunSnapshot}
    (hsnap : outcome.snapshot = some snap) :
    ∃ opts raws packets source, resolveOpts p shared aggregate diagnoseUnknown = .ok opts ∧
      src.Reads s₀ raws source ∧ raws.mapM (dissectRaw p.engine opts) = some packets ∧
      snap.summary.keyErrors = ((raws.zip packets).map fun x => Plugins.keylessLayers x.1.bytes x.2).sum ∧
      ∀ x ∈ raws.zip packets, Plugins.KeysTold (p.env shared) x.1.bytes x.2 := by
  obtain ⟨_, _, _, heq, _⟩ | ⟨opts, raws, packets, source, _, hopts, hreads, hpackets, _, _, _, hend⟩ :=
    runWith_law (plainMode_dissects p) h
  · cases heq
  · refine ⟨opts, raws, packets, source, hopts, hreads, hpackets, ?_⟩
    obtain ⟨_, _, heq⟩ | ⟨report, -, heq⟩ := hend
    · cases heq
    · obtain rfl := Except.ok.inj heq
      cases aggregate with
      | false => cases hsnap
      | true =>
          obtain rfl := Option.some.inj hsnap
          have hagg : opts.aggregation = true := (resolveOpts_eq_ok hopts).1
          have hintake : ((ingestAll (p.env shared) packets).finish (p.env shared)).intake =
              intakeOf (p.env shared) packets := by
            rw [Aggregator.intake_finish, ingestAll, intake_run, ingested_map]
          refine ⟨(congrArg Intake.keyErrors hintake).trans ?_, ?_⟩
          · exact @sum_keyMissing (p.env shared) opts hplugins hagg raws packets hpackets
          · exact @keysTold_zip (p.env shared) opts hplugins hagg raws packets hpackets

/-- In every state of every interleaving: at most 1024 packets wait in the channel, and what was read is, in its order,
what the aggregator has ingested, what waits, and what is being sent. -/
theorem pipeline_inflight {opts : ParseOpts} {mode : Mode I} (hmode : mode.Dissects p.engine opts)
    {obs : Observers D I O} {s : Handoff.State D (PumpState σ) I PumpEnd (Consumer O)}
    (hreaches : (pipeline p shared mode src obs).Reaches (pipelineStart aggregate s₀ o) s) :
    s.channel.length ≤ channelCapacity ∧
      ∃ raws source, src.Reads s₀ raws source ∧ (∀ l ∈ shared.count, raws.length ≤ l) ∧
        raws.mapM (dissectRaw p.engine opts) =
          some ((s.received.map Prod.snd ++ (s.channel ++ s.phase.pending)).map mode.packetOf) ∧
        s.consumer.agg =
          if aggregate then some (ingestAll (p.env shared) (s.received.map fun x => mode.packetOf x.2)) else none := by
  obtain ⟨horder, hbounded, hconsumer, hproducer, -⟩ := Handoff.Inv.reaches hreaches
  refine ⟨hbounded, ?_⟩
  have hyields : ∃ ps, (pipeline p shared mode src obs).Yields { source := s₀ } s.yielded ps := by
    cases hphase : s.phase with
    | working ps =>
        rw [hphase] at hproducer
        exact ⟨ps, hproducer⟩
    | sending ps item =>
        rw [hphase] at hproducer
        exact ⟨ps, hproducer⟩
    | ended r =>
        rw [hphase] at hproducer
        obtain ⟨ps, _, hyields, _⟩ := hproducer
        exact ⟨ps, hyields⟩
  obtain ⟨ps, hyields⟩ := hyields
  obtain ⟨raws, hpumps⟩ := pumps_of_yields hyields
  refine ⟨raws, ps.source, hpumps.reads, hpumps.limited, ?_, ?_⟩
  · rw [mapM_dissectRaw hmode hpumps.items, horder]
  · rw [hconsumer]
    exact agg_consumed (p.env shared) mode obs aggregate o s.received

/-- With a source that has at most `left` packets, no interleaving deadlocks, and each takes at most `3 * left + 2`
steps: both threads end. -/
theorem pipeline_ends [Nonempty E] [Nonempty D] {mode : Mode I} {obs : Observers D I O} {left : σ → Nat}
    (hleft : ∀ e t t' raw, src.nextPacket e t = (.ok (some raw), t') → left t' < left t) {n : Nat}
    {s : Handoff.State D (PumpState σ) I PumpEnd (Consumer O)}
    (hrun : (pipeline p shared mode src obs).Run n (pipelineStart aggregate s₀ o) s) :
    n ≤ 3 * left s₀ + 2 ∧ ((∃ r, s.Done r) ∨ ∃ t, (pipeline p shared mode src obs).Step s t) := by
  refine ⟨?_, Handoff.progress (Nat.zero_lt_succ _) hrun.reaches⟩
  have hle : n + Handoff.measure (fun ps : PumpState σ => left ps.source) s ≤
      Handoff.measure (fun ps : PumpState σ => left ps.source) (pipelineStart (D := D) (I := I) aggregate s₀ o) := by
    apply hrun.length_le
    intro e ps ps' item hturn
    obtain ⟨raw, -, hnext, -⟩ := pumpTurn_yield hturn
    exact hleft e ps.source ps'.source raw hnext
  have hstart : Handoff.measure (fun ps : PumpState σ => left ps.source)
      (pipelineStart (D := D) (I := I) aggregate s₀ o) = 3 * left s₀ + 2 := by
    simp only [Handoff.measure, pipelineStart, Handoff.init, List.length_nil, if_true]
    omega
  omega

end Law

end Pipeline

/-! ## A run over two packets -/

/-- A program with the sample engine. -/
def sampleProgram : Program := ⟨sampleEngine, fun bytes => UInt64.ofNat (bytes.length % 4), fun name => name⟩

/-- Two packets, the second of an earlier time. -/
def sampleSource : MockSource := ⟨[(7, [1, 2]), (3, [4])], 1, 0⟩

/-- The indices that `on_packet` was called with. -/
def indexObservers {I : Type} : Observers Unit I (List Nat) where
  onPacket := fun index _ seen => seen ++ [index]
  onIngested := fun _ _ seen => seen

/-- An Ethernet frame: an IPv4 packet with a QUIC packet of the short header. -/
def quicFrame : List UInt8 :=
  [1, 2, 3, 4, 5, 6, 7, 8, 9, 10, 11, 12, 0x08, 0x00] ++
    [0x45, 0, 0, 32, 0, 1, 0, 0, 64, 17, 0, 0, 10, 0, 0, 1, 10, 0, 0, 2] ++
    [0x30, 0x39, 1, 187, 0, 12, 0, 0] ++
    [0x40, 1, 2, 3]

/-- The options of a run without arguments. -/
def sampleOpts : ParseOpts := { depth := .structural }

/-- The two threads of the sample run. -/
def samplePipeline : Handoff Unit Unit (PumpState MockSource) DissectedPacket PumpEnd (Consumer (List Nat)) :=
  pipeline sampleProgram {} (plainMode sampleProgram sampleOpts) mockSource indexObservers

/-- Over a mock source both threads can always be brought to their end. -/
theorem exists_mock_done {D I O : Type} [Nonempty D] (p : Program) (shared : SharedArgs) (mode : Mode I)
    (obs : Observers D I O) (aggregate : Bool) (s₀ : MockSource) (o : O) :
    ∃ s r, (pipeline p shared mode mockSource obs).Reaches (pipelineStart aggregate s₀ o) s ∧ s.Done r := by
  apply Handoff.exists_done (p := { source := s₀ }) (s := pipelineStart (I := I) aggregate s₀ o)
  · intro e ps ps' item hturn
    have hyield : pumpTurn mockSource mode.work shared.count e ps = .yield ps' item := hturn
    obtain ⟨raw, -, hnext, -⟩ := pumpTurn_yield hyield
    exact MockSource.left_lt hnext
  · exact Nat.zero_lt_succ _
  · exact .refl

theorem runObserved_law_sample : ∃ result observed,
    RunObserved sampleProgram {} mockSource true false indexObservers sampleSource [] result observed ∧
      OneByOne sampleProgram {} (plainMode sampleProgram) mockSource true false indexObservers sampleSource [] result
        observed := by
  obtain ⟨s, r, hreaches, hdone⟩ :=
    exists_mock_done sampleProgram {} (plainMode sampleProgram sampleOpts) indexObservers true sampleSource []
  have hrun : RunObserved sampleProgram {} mockSource true false indexObservers sampleSource [] _ _ :=
    .ran rfl hreaches hdone
  exact ⟨_, _, hrun, runObserved_law hrun⟩

theorem runPackets_law_sample : ∃ result observed,
    RunPackets sampleProgram {} mockSource true (fun index _ seen => seen ++ [index]) sampleSource ([] : List Nat)
        result observed ∧
      OneByOne sampleProgram {} (packetsMode sampleProgram) mockSource true false indexObservers sampleSource []
        result observed := by
  obtain ⟨s, r, hreaches, hdone⟩ :=
    exists_mock_done sampleProgram {} (packetsMode sampleProgram sampleOpts) indexObservers true sampleSource []
  have hrun : RunPackets sampleProgram {} mockSource true (fun index _ seen => seen ++ [index]) sampleSource [] _ _ :=
    .ran rfl hreaches hdone
  exact ⟨_, _, hrun, (runPackets_law hrun).1⟩

/-- A mock source does not fail, so a run over one hands a snapshot back. -/
theorem exists_mockOutcome (p : Program) (s₀ : MockSource) : ∃ outcome observed snap,
    RunObserved p {} mockSource true false indexObservers s₀ [] (.ok outcome) observed ∧
      outcome.snapshot = some snap := by
  obtain ⟨s, r, hreaches, hdone⟩ := exists_mock_done p {} (plainMode p sampleOpts) indexObservers true s₀ []
  obtain ⟨raws, source, -, -, -, hstop, hagg, -⟩ := pipeline_done hreaches hdone
  have hok : ∃ report, r = .returned (.ok report) := by
    cases hstop with
    | error e err source' next =>
        simp only [mockSource] at next
        split at next <;> cases next
    | ended e source' next => exact ⟨_, rfl⟩
    | limited limit_eq => cases limit_eq
    | panicked e raw source' next panics =>
        have hsome : dissectRaw p.engine sampleOpts raw ≠ none :=
          dissectRaw_isSome (fun _ hname => by cases hname) raw
        exact absurd panics hsome
  obtain ⟨report, rfl⟩ := hok
  have hjoined : ∃ snap, joined (p.env {}) s.consumer (.returned (.ok report)) = .ok ⟨some snap, report⟩ := by
    rw [joined, hagg]
    exact ⟨_, rfl⟩
  obtain ⟨snap, hjoined⟩ := hjoined
  have hrun : RunObserved p {} mockSource true false indexObservers s₀ [] _ _ := .ran rfl hreaches hdone
  exact ⟨_, _, snap, hjoined ▸ hrun, rfl⟩

theorem summary_matches_report_sample : ∃ outcome : RunOutcome, ∃ snap, outcome.snapshot = some snap ∧
    snap.summary.packets = outcome.report.packets ∧ snap.summary.bytes = outcome.report.bytes ∧
      (snap.summary.stopClasses.map Prod.snd).sum = outcome.report.packets := by
  obtain ⟨outcome, observed, snap, hrun, hsnap⟩ := exists_mockOutcome sampleProgram sampleSource
  exact ⟨outcome, snap, hsnap, summary_matches_report hrun hsnap⟩

/-- A run over an Ethernet frame with a short QUIC packet. -/
theorem observed_keyErrors_short : ∃ p : Program,
    p.engine.registry.plugins = [Plugins.ethernet, Plugins.ipv4, Plugins.udp, Plugins.quic] ∧
    ∃ outcome : RunOutcome, ∃ snap, outcome.snapshot = some snap ∧
      ∃ opts raws packets source, resolveOpts p {} true false = .ok opts ∧
        mockSource.Reads ⟨[(7, quicFrame)], 1, 0⟩ raws source ∧
        raws.mapM (dissectRaw p.engine opts) = some packets ∧
        snap.summary.keyErrors = ((raws.zip packets).map fun x => Plugins.keylessLayers x.1.bytes x.2).sum ∧
        ∀ x ∈ raws.zip packets, Plugins.KeysTold (p.env {}) x.1.bytes x.2 := by
  obtain ⟨e, he⟩ : ∃ e : Engine,
      e.registry.plugins = [Plugins.ethernet, Plugins.ipv4, Plugins.udp, Plugins.quic] :=
    ⟨⟨_, { plugins := [Plugins.ethernet, Plugins.ipv4, Plugins.udp, Plugins.quic] }, rfl⟩, rfl⟩
  have hbuiltins : ∀ plugin ∈ e.registry.plugins, plugin ∈ Plugins.builtins := by
    simp [he, Plugins.builtins, Plugins.keyedPlugins]
  obtain ⟨outcome, observed, snap, hrun, hsnap⟩ :=
    exists_mockOutcome ⟨e, fun _ => 0, fun name => name⟩ ⟨[(7, quicFrame)], 1, 0⟩
  exact ⟨⟨e, fun _ => 0, fun name => name⟩, he, outcome, snap, hsnap, observed_keyErrors hbuiltins hrun hsnap⟩

theorem pipeline_inflight_sample : ∃ s r, samplePipeline.Reaches (pipelineStart true sampleSource []) s ∧ s.Done r ∧
    s.channel.length ≤ channelCapacity ∧
      ∃ raws source, mockSource.Reads sampleSource raws source ∧ (∀ l ∈ (none : Option Nat), raws.length ≤ l) ∧
        raws.mapM (dissectRaw sampleEngine sampleOpts) =
          some ((s.received.map Prod.snd ++ (s.channel ++ s.phase.pending)).map id) ∧
        s.consumer.agg = some (ingestAll (sampleProgram.env {}) (s.received.map fun x => id x.2)) := by
  obtain ⟨s, r, hreaches, hdone⟩ :=
    exists_mock_done sampleProgram {} (plainMode sampleProgram sampleOpts) indexObservers true sampleSource []
  exact ⟨s, r, hreaches, hdone, pipeline_inflight (plainMode_dissects sampleProgram sampleOpts) hreaches⟩

theorem pipeline_ends_sample : ∃ t, samplePipeline.Step (pipelineStart true sampleSource []) t ∧
    1 ≤ 3 * sampleSource.left + 2 ∧ ((∃ r, t.Done r) ∨ ∃ u, samplePipeline.Step t u) := by
  obtain ⟨r, hended, -⟩ | ⟨t, hstep⟩ := Handoff.progress (h := samplePipeline) (s := pipelineStart true sampleSource [])
    (Nat.zero_lt_succ _) .refl
  · cases hended
  · exact ⟨t, hstep, pipeline_ends (fun _ _ _ _ => MockSource.left_lt) (.snoc (.nil _) hstep)⟩

end Pktflow.Cli
