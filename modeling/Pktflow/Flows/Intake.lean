import Pktflow.Flows.Steps

/-!
# What is counted of the packets themselves

Four counters of the store tell of the packets and not of the streams: packets, bytes, key errors and stop classes.
No fold, eviction, close or compaction touches them (`Intake` is the same before and after, unconditionally), so
after any calls they are the exact sums over the ingested packets (`intake_exact`): the summary stays right whatever
the eviction policy has thrown away, and however much was condensed.
-/

set_option autoImplicit false

namespace Pktflow.Flows

open Pktflow.Core Pktflow.Lib

/-- The counters that tell of the packets. -/
@[ext]
structure Intake where
  packets : Nat := 0
  bytes : Nat := 0
  keyErrors : Nat := 0
  stopClasses : StopClass → Nat := fun _ => 0

/-- A layer has an identity, but its fields do not give the key. -/
def keyMissing (env : Env) (layer : LayerRecord) : Bool :=
  match Aggregator.identityOf env layer.protocol with
  | none => false
  | some (_, identity) =>
      match flowKey identity layer.fields with
      | .error _ => true
      | .ok _ => false

/-- One more key error for each layer of a list without its key. -/
def Intake.addLayers (env : Env) (i : Intake) (layers : List LayerRecord) : Intake :=
  { i with keyErrors := i.keyErrors + layers.countP (keyMissing env) }

/-- The sums over a list of packets. -/
def intakeOf (env : Env) (packets : List DissectedPacket) : Intake where
  packets := packets.length
  bytes := (packets.map fun pkt => pkt.meta_.origlen).sum
  keyErrors := (packets.map fun pkt => pkt.layers.countP (keyMissing env)).sum
  stopClasses := fun c => packets.countP fun pkt => pkt.stop.toClass = c

/-- The packets among a list of calls. -/
def ingested : List Op → List DissectedPacket
  | [] => []
  | .ingest pkt :: ops => pkt :: ingested ops
  | .finish :: ops => ingested ops

namespace Aggregator

variable {env : Env} {a b : Aggregator}

/-- The counters that tell of the packets. -/
def intake (a : Aggregator) : Intake := ⟨a.totals.packets, a.totals.bytes, a.totals.keyErrors, a.stopClasses⟩

@[simp] theorem intake_modify (a : Aggregator) (id : StreamId) (f : Stream → Stream) :
    (a.modify id f).intake = a.intake := rfl

@[simp] theorem intake_evict (env : Env) (a : Aggregator) (id : StreamId) (reason : CloseReason) :
    (a.evict env id reason).intake = a.intake := by
  obtain ⟨-, htotals, -, -, hclasses⟩ := evict_unchanged env a id reason
  simp only [intake, htotals, hclasses]

@[simp] theorem intake_closeStream (env : Env) (a : Aggregator) (id : StreamId) :
    (a.closeStream env id).intake = a.intake := by
  obtain ⟨calls, heq⟩ := closeStream_eq env a id
  rw [heq]
  rfl

@[simp] theorem intake_finish (env : Env) (a : Aggregator) : (a.finish env).intake = a.intake := by
  have hone : ∀ (b : Aggregator) (id : StreamId), (b.finishOne env id).intake = b.intake := by
    intro b id
    rw [finishOne]
    cases env.config.eviction with
    | none => exact intake_closeStream env b id
    | live idle linger cap => exact intake_evict env b id .captureEnd
  rw [finish]
  generalize a.finishOrder.map FinishEntry.id = ids
  induction ids generalizing a with
  | nil => rfl
  | cons id ids ih =>
      rw [List.foldl_cons, ih]
      exact hone a id

theorem intake_loopStep {expiry : MinHeap ExpiryEntry} {lru : MinHeap LruEntry}
    (hstep : LoopStep env a expiry lru b) : b.intake = a.intake := by
  cases hstep with
  | heaps => rfl
  | evict reason _ _ => exact intake_evict env _ _ reason

@[simp] theorem intake_sweep (env : Env) (a : Aggregator) : (a.sweep env).intake = a.intake := by
  rw [sweep]
  refine Loop.iterate_invariant (I := fun b : Aggregator => b.intake = a.intake) ?_ _ rfl
  intro b c hb hbody
  obtain ⟨_, hstep⟩ := sweepBody_step hbody
  exact (intake_loopStep hstep).trans hb

@[simp] theorem intake_enforce (env : Env) (a : Aggregator) : (a.enforceMaxStreams env).intake = a.intake := by
  rw [enforceMaxStreams]
  refine Loop.iterate_invariant (I := fun b : Aggregator => b.intake = a.intake) ?_ _ rfl
  intro b c hb hbody
  obtain ⟨_, hstep⟩ := enforceBody_step hbody
  exact (intake_loopStep hstep).trans hb

@[simp] theorem intake_compactLru (a : Aggregator) : a.compactLru.intake = a.intake := by
  obtain ⟨lru, heq⟩ := compactLru_eq a
  rw [heq]
  rfl

theorem intake_addMember (a : Aggregator) (ckey : CondenseKey) (id : StreamId) (digest : UInt64) :
    (a.addMember ckey id digest).intake = a.intake := by
  have hm := addMember_spec a ckey id digest
  generalize a.addMember ckey id digest = b at hm ⊢
  cases hm with
  | known => rfl
  | counted _ _ => rfl
  | overflow => rfl

/-- Resolving a layer creates streams and members; it counts no packet. -/
theorem intake_resolution {parent : Option StreamId} {key : FlowKey} {identity : StreamIdentity}
    {condense : Option CondenseSpec} {layer : LayerRecord} {dir : PacketDirection} {ts : SystemTime}
    {r : Aggregator × StreamId × PacketDirection}
    (hr : Resolution env a parent key identity condense layer dir ts r) : r.1.intake = a.intake := by
  cases hr with
  | hit _ _ _ => rfl
  | member _ _ _ _ _ => exact intake_addMember _ _ _ _
  | node _ _ _ _ _ => exact intake_addMember _ _ _ _
  | fresh _ _ => rfl

theorem intake_touch (env : Env) (a : Aggregator) (id : StreamId) (identity : StreamIdentity)
    (layer : LayerRecord) (key : FlowKey) (dir : PacketDirection) (ts : SystemTime) (origlen : Nat) :
    (a.touch env id identity layer key dir ts origlen).intake = a.intake := by
  rw [touch]
  split <;> rfl

/-- A layer of the walk counts as a key error if its key cannot be built, and in no other way. -/
theorem intake_layer (env : Env) (pkt : DissectedPacket) (w : Walk) (layer : LayerRecord) :
    (ingestLayer env pkt w layer).agg.intake = w.agg.intake.addLayers env [layer] := by
  have hstep := ingestLayer_spec env pkt w layer
  generalize ingestLayer env pkt w layer = w' at hstep ⊢
  cases hstep with
  | skip hid => simp [Intake.addLayers, keyMissing, hid]
  | keyError hid hkey => simp [Intake.addLayers, keyMissing, hid, hkey, intake]
  | folded hid hkey hr _ =>
      rw [intake_touch, intake_resolution hr]
      simp [Intake.addLayers, keyMissing, hid, hkey]

theorem intake_walk (env : Env) (pkt : DissectedPacket) (layers : List LayerRecord) (w : Walk) :
    (layers.foldl (ingestLayer env pkt) w).agg.intake = w.agg.intake.addLayers env layers := by
  induction layers generalizing w with
  | nil => rfl
  | cons layer layers ih =>
      rw [List.foldl_cons, ih, intake_layer]
      simp only [Intake.addLayers, List.countP_cons, List.countP_nil]
      congr 1
      omega

/-- One packet is counted once, whatever becomes of it. -/
theorem intake_ingest (env : Env) (a : Aggregator) (pkt : DissectedPacket) :
    (a.ingest env pkt).intake = (a.tick pkt).intake.addLayers env pkt.layers := by
  have hopaque : ∀ (b : Aggregator) (id : Option StreamId), (b.addOpaque id pkt.opaqueLen).intake = b.intake := by
    intro b id
    cases id <;> rfl
  have hunknown : ∀ (b : Aggregator) (e : Option EndpointKey), (b.addUnknown env pkt e).intake = b.intake := by
    intro b e
    rw [addUnknown]
    split <;> rfl
  rw [ingest, intake_enforce, beforeEnforce, hunknown, hopaque, walkLayers, intake_walk, beforeWalk,
    intake_compactLru, intake_sweep]

end Aggregator

section Runs

variable {env : Env}

theorem intakeOf_snoc (packets : List DissectedPacket) (pkt : DissectedPacket) (a : Aggregator)
    (ha : a.intake = intakeOf env packets) :
    (a.tick pkt).intake.addLayers env pkt.layers = intakeOf env (packets ++ [pkt]) := by
  have hpackets := congrArg Intake.packets ha
  have hbytes := congrArg Intake.bytes ha
  have herrors := congrArg Intake.keyErrors ha
  have hclasses := congrArg Intake.stopClasses ha
  simp only [Aggregator.intake, intakeOf] at hpackets hbytes herrors hclasses
  ext c
  · simp [Intake.addLayers, Aggregator.intake, Aggregator.tick, intakeOf, hpackets]
  · simp [Intake.addLayers, Aggregator.intake, Aggregator.tick, intakeOf, hbytes]
  · simp [Intake.addLayers, Aggregator.intake, Aggregator.tick, intakeOf, herrors]
  · simp only [Intake.addLayers, Aggregator.intake, Aggregator.tick, intakeOf, hclasses,
      Function.update_apply, List.countP_append, List.countP_cons, List.countP_nil]
    by_cases hc : c = pkt.stop.toClass
    · simp [hc]
    · simp [hc, Ne.symm hc]

theorem ingested_append (ops ops' : List Op) : ingested (ops ++ ops') = ingested ops ++ ingested ops' := by
  induction ops with
  | nil => rfl
  | cons op ops ih => cases op <;> simp [ingested, ih]

/-- After any calls the packet counters are the sums over the ingested packets. -/
theorem intake_run (env : Env) (ops : List Op) : (run env ops).intake = intakeOf env (ingested ops) := by
  induction ops using List.reverseRecOn with
  | nil => rfl
  | append_singleton ops op ih =>
      rw [run, List.foldl_append, ingested_append]
      show ((run env ops).call env op).intake = _
      cases op with
      | finish =>
          rw [Aggregator.call, Aggregator.intake_finish, ih]
          simp [ingested]
      | ingest pkt =>
          rw [Aggregator.call, Aggregator.intake_ingest]
          exact intakeOf_snoc _ pkt _ ih

theorem ingested_map (packets : List DissectedPacket) : ingested (packets.map Op.ingest) = packets := by
  induction packets with
  | nil => rfl
  | cons pkt packets ih => rw [List.map_cons, ingested, ih]

/-- Every packet is in one stop class. -/
theorem sum_stopClasses {a : Aggregator} {packets : List DissectedPacket} (ha : a.intake = intakeOf env packets) :
    (a.summary.stopClasses.map Prod.snd).sum = packets.length := by
  have hclasses : a.stopClasses = (intakeOf env packets).stopClasses := congrArg Intake.stopClasses ha
  simp only [Aggregator.summary, List.map_map, Function.comp_def, hclasses, intakeOf]
  clear ha hclasses
  induction packets with
  | nil => simp [stopClassOrder]
  | cons pkt packets ih =>
      simp only [List.countP_cons, List.length_cons, ← ih]
      cases hclass : pkt.stop.toClass <;> simp [stopClassOrder] <;> omega

/-- The summary after any calls: packets, bytes and key errors are the sums over the ingested packets, and every packet
is in the count of its stop class. -/
theorem intake_exact (env : Env) (ops : List Op) :
    (run env ops).summary.packets = (ingested ops).length ∧
      (run env ops).summary.bytes = ((ingested ops).map fun pkt => pkt.meta_.origlen).sum ∧
      (run env ops).summary.keyErrors = ((ingested ops).map fun pkt => pkt.layers.countP (keyMissing env)).sum ∧
      (run env ops).summary.stopClasses =
        stopClassOrder.map (fun c => (c, (ingested ops).countP fun pkt => pkt.stop.toClass = c)) ∧
      ((run env ops).summary.stopClasses.map Prod.snd).sum = (ingested ops).length := by
  have hintake := intake_run env ops
  refine ⟨congrArg Intake.packets hintake, congrArg Intake.bytes hintake, congrArg Intake.keyErrors hintake, ?_,
    sum_stopClasses hintake⟩
  have hclasses : (run env ops).stopClasses = _ := congrArg Intake.stopClasses hintake
  rw [Aggregator.summary, hclasses]
  rfl

end Runs

end Pktflow.Flows
