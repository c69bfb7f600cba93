import Pktflow.Flows.Lookup
import Mathlib.Algebra.Order.BigOperators.Group.List

/-!
# Conservation across eviction and condensation

A measure of streams is summed over everything ever stored, live or removed (`tally`). Evictions move
a stream from one side to the other and keep every tally; a creation adds the measure of the new record
and a modification changes one summand. From these three facts follow the conservation of packets and
bytes per protocol, the fate of opaque tails, and the accounting of creations under condensation.
-/

set_option autoImplicit false

namespace Pktflow.Flows

open Pktflow.Core Pktflow.Lib

theorem StatsPair.packets_record (s : StatsPair) (dir : PacketDirection) (n : Nat) :
    (s.record dir n).packets = s.packets + 1 := by
  cases dir <;> simp only [StatsPair.record, StatsPair.packets] <;> omega

theorem StatsPair.bytes_record (s : StatsPair) (dir : PacketDirection) (n : Nat) :
    (s.record dir n).bytes = s.bytes + n := by
  cases dir <;> simp only [StatsPair.record, StatsPair.bytes] <;> omega

namespace Aggregator

/-! ## Tallies -/

/-- The sum of a measure over the live streams. -/
def liveSum (φ : Stream → Nat) (a : Aggregator) : Nat := (a.streams.map φ).sum

/-- All streams ever stored: the live ones and the removed ones. -/
def everStreams (a : Aggregator) : List Stream := a.streams ++ a.removed.map EvictedStream.stream

/-- The sum of a measure over all streams ever stored. -/
def tally (φ : Stream → Nat) (a : Aggregator) : Nat := (a.everStreams.map φ).sum

/-- A measure that child lists and close marks do not change. -/
def Factual (φ : Stream → Nat) : Prop := ∀ s, φ s.facts = φ s

/-- A sum with a condition is the sum over the filtered list. -/
theorem sum_ite_eq_filter (P : Stream → Bool) (φ : Stream → Nat) (l : List Stream) :
    (l.map fun s => if P s then φ s else 0).sum = ((l.filter P).map φ).sum := by
  rw [List.sum_map_ite, List.map_const', List.sum_replicate, smul_eq_mul,
    Nat.mul_zero, Nat.add_zero]
  simp only [Bool.decide_eq_true]

section Tally

variable {φ : Stream → Nat} {a b : Aggregator} {id : StreamId} {s : Stream}

theorem tally_eq (φ : Stream → Nat) (a : Aggregator) :
    tally φ a = liveSum φ a + (a.removed.map fun e => φ e.stream).sum := by
  simp only [tally, everStreams, liveSum, List.map_append, List.sum_append, List.map_map]
  rfl

theorem liveSum_eq (hφ : Factual φ) (a : Aggregator) : liveSum φ a = (a.liveFacts.map φ).sum := by
  rw [liveFacts, Multiset.map_coe, Multiset.sum_coe, List.map_map]
  rw [liveSum]
  congr 1
  exact List.map_congr_left fun s _ => (hφ s).symm

theorem le_liveSum (φ : Stream → Nat) (hs : s ∈ a.streams) : φ s ≤ liveSum φ a :=
  List.single_le_sum (fun _ _ => Nat.zero_le _) _ (List.mem_map_of_mem hs)

theorem liveSum_le_tally (φ : Stream → Nat) (a : Aggregator) : liveSum φ a ≤ tally φ a := by
  rw [tally_eq]
  exact Nat.le_add_right _ _

/-- Nothing but the arena and the removed streams matters. -/
theorem tally_congr (harena : b.arena = a.arena) (hremoved : b.removed = a.removed) :
    tally φ b = tally φ a := by
  unfold tally everStreams streams
  rw [harena, hremoved]

theorem tally_addUnknown (env : Env) (a : Aggregator) (pkt : DissectedPacket)
    (endpoint : Option EndpointKey) : tally φ (a.addUnknown env pkt endpoint) = tally φ a := by
  apply tally_congr (arena_addUnknown env a pkt endpoint)
  rw [addUnknown]
  cases pkt.unknown <;> rfl

theorem liveSum_modify (hφ : Factual φ) (f : Stream → Stream) (hs : a.get id = some s) :
    liveSum φ (a.modify id f) + φ s = liveSum φ a + φ (f s) := by
  -- `m` holds the other streams
  obtain ⟨m, h1, h2⟩ := liveFacts_modify f hs
  rw [liveSum_eq hφ, liveSum_eq hφ, h1, h2]
  simp only [Multiset.map_cons, Multiset.sum_cons, hφ s, hφ (f s)]
  omega

theorem tally_modify (hφ : Factual φ) (f : Stream → Stream) (hs : a.get id = some s) :
    tally φ (a.modify id f) + φ s = tally φ a + φ (f s) := by
  have h := liveSum_modify hφ f hs
  have hremoved : (a.modify id f).removed = a.removed := rfl
  rw [tally_eq, tally_eq, hremoved]
  omega

/-- A modification that keeps the measure keeps the sum over the live streams. -/
theorem liveSum_modify_eq (hφ : Factual φ) (a : Aggregator) (id : StreamId) {f : Stream → Stream}
    (hf : ∀ s, φ (f s) = φ s) : liveSum φ (a.modify id f) = liveSum φ a := by
  cases hs : a.get id with
  | none =>
      have harena : (a.modify id f).arena = a.arena := Arena.modify_of_get_none hs f
      unfold liveSum streams
      rw [harena]
  | some s =>
      have h := liveSum_modify hφ f hs
      rw [hf] at h
      omega

theorem tally_modify_eq (hφ : Factual φ) (a : Aggregator) (id : StreamId) {f : Stream → Stream}
    (hf : ∀ s, φ (f s) = φ s) : tally φ (a.modify id f) = tally φ a := by
  rw [tally_eq, tally_eq, liveSum_modify_eq hφ a id hf]
  rfl

theorem liveSum_create (hφ : Factual φ) (env : Env) {n : NewStream} (hlim : a.Fits)
    (hp : a.Linked n.parent) :
    liveSum φ (a.createStreamRaw env n).1 = φ (n.record a.freshId a.nextSeq) + liveSum φ a := by
  rw [liveSum_eq hφ, liveSum_eq hφ, liveFacts_create env hlim hp, Multiset.map_cons,
    Multiset.sum_cons]

theorem tally_create (hφ : Factual φ) (env : Env) {n : NewStream} (hlim : a.Fits)
    (hp : a.Linked n.parent) :
    tally φ (a.createStreamRaw env n).1 = φ (n.record a.freshId a.nextSeq) + tally φ a := by
  have hremoved : (a.createStreamRaw env n).1.removed = a.removed := rfl
  rw [tally_eq, tally_eq, liveSum_create hφ env hlim hp, hremoved, Nat.add_assoc]

theorem liveSum_evict (hφ : Factual φ) (env : Env) (reason : CloseReason) (hf : ForestInv a)
    (hs : a.get id = some s) :
    liveSum φ a = φ s + liveSum φ (a.evict env id reason) := by
  rw [liveSum_eq hφ, liveSum_eq hφ, liveFacts_evict env reason hs fun p hp => hf.parent_live hs hp,
    Multiset.map_cons, Multiset.sum_cons, hφ s]

/-- Evictions and closes keep every tally. -/
theorem tally_heapFree (env : Env) (hφ : Factual φ) (n : Nat) :
    HeapFree env fun a => tally φ a = n where
  close := by
    intro a id h
    obtain ⟨calls, heq⟩ := closeStream_eq env a id
    have hmod : tally φ (a.modify id fun s => s.markClosed .captureEnd) = tally φ a := by
      apply tally_modify_eq hφ a id
      intro s
      rw [← hφ, ← hφ s]
      rfl
    rw [heq, ← h, ← hmod]
    exact tally_congr rfl rfl
  evict := by
    intro a id s reason hf hs _ h
    have hmark : φ (s.markClosed reason) = φ s := by
      rw [← hφ, ← hφ s]
      rfl
    -- what the live side loses the removed side gains
    rw [← h, tally_eq, tally_eq, removed_evict hs, List.map_append, List.sum_append,
      liveSum_evict hφ env reason hf hs]
    simp only [List.map_cons, List.map_nil, List.sum_cons, List.sum_nil, hmark]
    omega
  heaps := fun _ _ h => h

end Tally

/-! ## Stats are conserved -/

/-- Resolution keeps the tally of a measure that is zero on new streams and blind to membership. -/
theorem tally_resolution {φ : Stream → Nat} (hφ : Factual φ) (hc : ∀ s, φ s.countMember = φ s)
    (ho : ∀ s, φ s.markOverflow = φ s) (hnew : ∀ (n : NewStream) id seq, φ (n.record id seq) = 0)
    {env : Env} {a : Aggregator} {parent : Option StreamId} {key : FlowKey}
    {identity : StreamIdentity} {condense : Option CondenseSpec} {layer : LayerRecord}
    {dir : PacketDirection} {ts : SystemTime} {r : Aggregator × StreamId × PacketDirection}
    (hp : a.Linked parent) (hr : Resolution env a parent key identity condense layer dir ts r)
    (hfits : r.1.Fits) : tally φ r.1 = tally φ a := by
  have hlim : a.Fits := hr.fits hfits
  refine hr.rule (J := fun b => tally φ b = tally φ a) rfl ?_ ?_ ?_ ?_
  · intro n hn _
    rw [tally_create hφ env hlim (by rw [hn]; exact hp), hnew, Nat.zero_add]
  · intro b id hb
    rw [tally_modify_eq hφ b id hc, hb]
  · intro b id hb
    rw [tally_modify_eq hφ b id ho, hb]
  · intro b m t c _ hb
    exact hb

/-- The tally after a touch of a live stream. -/
theorem tally_touch {φ : Stream → Nat} (hφ : Factual φ) (env : Env) {b : Aggregator} {id : StreamId}
    {s : Stream} (hs : b.get id = some s) (identity : StreamIdentity) (layer : LayerRecord)
    (key : FlowKey) (dir : PacketDirection) (ts : SystemTime) (origlen : Nat) :
    tally φ (b.touch env id identity layer key dir ts origlen) + φ s =
      tally φ b + φ (s.absorb identity layer key dir ts origlen).1 :=
  tally_modify hφ (fun s => (s.absorb identity layer key dir ts origlen).1) hs

/-- A layer that `ingest` folds into a stream: it has a registered plugin with a stream identity, and
its key can be built. -/
def keyed (env : Env) (layer : LayerRecord) : Bool :=
  match identityOf env layer.protocol with
  | none => false
  | some (_, identity) =>
      match flowKey identity layer.fields with
      | .error _ => false
      | .ok _ => true

/-- Whether a layer is keyed is what decides if a layer of the walk is folded. -/
theorem LayerStep.keyed_cases {env : Env} {pkt : DissectedPacket} {w w' : Walk} {layer : LayerRecord}
    (h : LayerStep env pkt w layer w') :
    (keyed env layer = false ∧ w'.parent = w.parent ∧ w'.agg.arena = w.agg.arena ∧
        w'.agg.removed = w.agg.removed) ∨
      (keyed env layer = true ∧ ∃ plugin identity key dir foldDir b id,
        identityOf env layer.protocol = some (plugin, identity) ∧
        flowKey identity layer.fields = .ok (key, dir) ∧
        Resolution env w.agg w.parent key identity plugin.condense layer dir pkt.meta_.timestamp
          (b, id, foldDir) ∧
        w'.parent = some id ∧
        w'.agg = b.touch env id identity layer key foldDir pkt.meta_.timestamp pkt.meta_.origlen) := by
  cases h with
  | skip hid => exact .inl ⟨by simp only [keyed, hid], rfl, rfl, rfl⟩
  | keyError hid hkey => exact .inl ⟨by simp only [keyed, hid, hkey], rfl, rfl, rfl⟩
  | folded hid hkey hr =>
      exact .inr ⟨by simp only [keyed, hid, hkey], _, _, _, _, _, _, _, hid, hkey, hr, rfl, rfl⟩

/-- The opaque tail and the unknown registry do not matter to a measure blind to opaque bytes. -/
theorem tally_beforeEnforce {φ : Stream → Nat} (hφ : Factual φ)
    (hblind : ∀ s n, φ (Stream.addOpaqueBytes s n) = φ s) (env : Env) (a : Aggregator)
    (pkt : DissectedPacket) :
    tally φ (a.beforeEnforce env pkt) = tally φ (a.walkLayers env pkt pkt.layers).agg := by
  rw [beforeEnforce]
  rw [tally_addUnknown]
  cases (a.walkLayers env pkt pkt.layers).parent with
  | none => rfl
  | some id => exact tally_modify_eq hφ _ id fun s => hblind s pkt.opaqueLen

/-- An amount of the stats of the streams of one protocol. -/
def statsOn (amount : StatsPair → Nat) (p : ProtocolName) (s : Stream) : Nat :=
  if s.protocol = p then amount s.stats else 0

section Stats

variable {amount : StatsPair → Nat} {inc : Nat → Nat} (hzero : amount {} = 0)
  (hrecord : ∀ st dir n, amount (StatsPair.record st dir n) = amount st + inc n)

include hzero hrecord

/-- One layer adds the amount of its packet to its protocol if it is keyed. -/
theorem tally_layer {env : Env} {pkt : DissectedPacket} {w w' : Walk} {layer : LayerRecord}
    (p : ProtocolName) (hw : WalkInv w) (htab : TableInv env w.agg)
    (hstep : LayerStep env pkt w layer w') (hfits : w'.agg.Fits) :
    tally (statsOn amount p) w'.agg = tally (statsOn amount p) w.agg +
      if keyed env layer ∧ layer.protocol = p then inc pkt.meta_.origlen else 0 := by
  rcases hstep.keyed_cases with ⟨hk, -, harena, hremoved⟩ |
    ⟨hk, plugin, identity, key, dir, foldDir, b, id, hid, hkey, hr, -, hagg⟩
  · -- a layer without a key touches no stream
    rw [tally_congr harena hremoved, hk]
    simp
  · have hφ : Factual (statsOn amount p) := fun _ => rfl
    rw [hagg] at hfits ⊢
    have hfits' : b.Fits := fits_of_touch hfits
    have hb : tally (statsOn amount p) b = tally (statsOn amount p) w.agg := by
      refine tally_resolution hφ (fun _ => rfl) (fun _ => rfl) ?_ hw.linked hr hfits'
      intro n i seq
      simp [statsOn, NewStream.record, hzero]
    -- the touched stream is one of the layer's protocol
    obtain ⟨-, f, hf, -, hpro⟩ := htab.resolution hw.linked hid hkey hr hfits'
    obtain ⟨s, hs, rfl⟩ := frames_eq_some.1 hf
    have hs' : b.get id = some s := hs
    have hpro' : s.protocol = layer.protocol := hpro
    have htouch := tally_touch hφ env hs' identity layer key foldDir pkt.meta_.timestamp
      pkt.meta_.origlen
    have habsorb : statsOn amount p (s.absorb identity layer key foldDir pkt.meta_.timestamp
        pkt.meta_.origlen).1 = statsOn amount p s +
          if layer.protocol = p then inc pkt.meta_.origlen else 0 := by
      rw [Stream.absorb_eq]
      simp only [statsOn, hrecord, hpro']
      split <;> rfl
    rw [hb, habsorb] at htouch
    simp only [hk, true_and]
    omega

/-- The walk adds the amount of its packet once for each keyed layer of the protocol. -/
theorem tally_walk {env : Env} {a : Aggregator} {pkt : DissectedPacket} (p : ProtocolName)
    (hf : ForestInv a) (htab : TableInv env a) (layers : List LayerRecord)
    (hfits : (a.walkLayers env pkt layers).agg.Fits) :
    tally (statsOn amount p) (a.walkLayers env pkt layers).agg = tally (statsOn amount p) a +
      (layers.filter fun l => keyed env l ∧ l.protocol = p).length * inc pkt.meta_.origlen := by
  have hstable := TableInv.runStable env
  have hφ : Factual (statsOn amount p) := fun _ => rfl
  refine (walk_rule (I := fun layers w => TableInv env w.agg ∧
    tally (statsOn amount p) w.agg = tally (statsOn amount p) a +
      (layers.filter fun l => keyed env l ∧ l.protocol = p).length * inc pkt.meta_.origlen)
    (hf.beforeWalk pkt) ⟨?_, ?_⟩ ?_ layers hfits).2.2
  · exact hstable.toHeapFree.loopStable.beforeWalk hf (hstable.tick pkt htab)
  · rw [List.filter_nil, List.length_nil, Nat.zero_mul, Nat.add_zero]
    exact (tally_heapFree env hφ _).loopStable.beforeWalk hf (tally_congr rfl rfl)
  · rintro layers w w' layer hw - hstep hfits ⟨ht, hsum⟩
    refine ⟨hstable.layer hw trivial hstep hfits ht, ?_⟩
    rw [tally_layer hzero hrecord p hw ht hstep hfits, hsum, List.filter_append, List.length_append,
      Nat.add_mul, Nat.add_assoc]
    congr 2
    by_cases hk : keyed env layer ∧ layer.protocol = p
    · rw [if_pos hk, List.filter_cons_of_pos (by simpa using hk)]
      simp
    · rw [if_neg hk, List.filter_cons_of_neg (by simpa using hk)]
      simp

/-- The amounts of the streams ever stored, after every run: the amounts of the keyed layers. -/
theorem tally_reaches {env : Env} {ops : List Op} {a : Aggregator} (h : Reaches env ops a)
    (p : ProtocolName) :
    tally (statsOn amount p) a = ((packetsOf ops).map fun pkt =>
      (pkt.layers.filter fun l => keyed env l ∧ l.protocol = p).length * inc pkt.meta_.origlen).sum := by
  have hφ : Factual (statsOn amount p) := fun _ => rfl
  induction h with
  | new => rfl
  | @call ops a op hr hfits ih =>
      obtain ⟨hf, htab⟩ := (TableInv.runStable env).reaches hr
      cases op with
      | finish =>
          -- `finish` only evicts and closes
          have hfin := (tally_heapFree env hφ _).toEvictStable.finish hf ih
          simp only [packetsOf, List.filterMap_append, List.filterMap_cons_none, List.filterMap_nil,
            List.append_nil]
          exact hfin.2
      | ingest pkt =>
          -- only the walk adds to the tally; the sweep before it and the cap after it keep it
          have hwalk := tally_walk hzero hrecord p hf htab pkt.layers (fits_walk hfits)
          obtain ⟨hfb, -⟩ := (runStable_true env).beforeEnforce hf trivial hfits
          have hbefore : tally (statsOn amount p) (a.beforeEnforce env pkt) =
              tally (statsOn amount p) (a.walkLayers env pkt pkt.layers).agg := by
            rw [tally_beforeEnforce hφ fun _ _ => rfl]
          have hcap : tally (statsOn amount p) (a.ingest env pkt) =
              tally (statsOn amount p) (a.beforeEnforce env pkt) :=
            (tally_heapFree env hφ _).loopStable.enforceMaxStreams hfb rfl
          show tally (statsOn amount p) (a.ingest env pkt) = _
          rw [hcap, hbefore, hwalk, ih]
          simp [packetsOf]

end Stats

/-! ## Created sequence numbers -/

/-- Counts the streams with a creation number. -/
def hasSeq (q : Nat) (s : Stream) : Nat := if s.createdSeq = q then 1 else 0

theorem hasSeq_factual (q : Nat) : Factual (hasSeq q) := fun _ => rfl

theorem tally_hasSeq (q : Nat) (a : Aggregator) :
    tally (hasSeq q) a = (a.everStreams.map Stream.createdSeq).count q := by
  rw [tally]
  induction a.everStreams with
  | nil => rfl
  | cons s l ih =>
      rw [List.map_cons, List.sum_cons, ih, List.map_cons, List.count_cons, hasSeq]
      simp only [beq_iff_eq]
      omega

/-- Every creation number below the next one was given to exactly one stream. -/
def SeqInv (a : Aggregator) : Prop :=
  ∀ q, tally (hasSeq q) a = if q < a.nextSeq then 1 else 0

namespace SeqInv

variable {a : Aggregator}

/-- A modification that keeps the creation number. -/
theorem modify (h : SeqInv a) (id : StreamId) {f : Stream → Stream}
    (hf : ∀ s, (f s).createdSeq = s.createdSeq) : SeqInv (a.modify id f) := by
  intro q
  rw [tally_modify_eq (hasSeq_factual q) a id fun s => by simp only [hasSeq, hf]]
  exact h q

/-- A new stream takes the next number, which no stream had. -/
theorem create (h : SeqInv a) (env : Env) {n : NewStream} (hlim : a.Fits) (hp : a.Linked n.parent) :
    SeqInv (a.createStreamRaw env n).1 := by
  intro q
  have hnew : hasSeq q (n.record a.freshId a.nextSeq) = if a.nextSeq = q then 1 else 0 := rfl
  have hnext : (a.createStreamRaw env n).1.nextSeq = a.nextSeq + 1 := rfl
  rw [tally_create (hasSeq_factual q) env hlim hp, h q, hnew, hnext]
  split_ifs <;> omega

/-- No two streams ever stored share a creation number. -/
theorem nodup (h : SeqInv a) : (a.everStreams.map Stream.createdSeq).Nodup := by
  rw [List.nodup_iff_count_le_one]
  intro q
  rw [← tally_hasSeq, h q]
  split <;> omega

theorem runStable (env : Env) : RunStable env (fun _ => True) SeqInv where
  close := by
    intro a id h q
    obtain ⟨calls, heq⟩ := closeStream_eq env a id
    have hseq : (a.closeStream env id).nextSeq = a.nextSeq := by rw [heq]; rfl
    rw [hseq]
    exact (tally_heapFree env (hasSeq_factual q) _).close id (h q)
  evict := by
    intro a id s reason hf hs hc h q
    rw [(evict_unchanged env a id reason).1]
    exact (tally_heapFree env (hasSeq_factual q) _).evict reason hf hs hc (h q)
  heaps := fun _ _ h => h
  new := fun _ => rfl
  tick := fun _ h => h
  layer := by
    intro pkt w w' layer hw _ hstep hfits h
    cases hstep with
    | skip _ => exact h
    | keyError _ _ => exact h
    | @folded plugin identity key dir foldDir b id hid hkey hr =>
        have hfits' : b.Fits := fits_of_touch hfits
        have hb : SeqInv b := by
          refine hr.rule (J := SeqInv) h ?_ (fun i hb => hb.modify i fun _ => rfl)
            (fun i hb => hb.modify i fun _ => rfl) (fun _ _ _ _ hb => hb)
          intro n hn _
          exact h.create env (hr.fits hfits') (by rw [hn]; exact hw.linked)
        apply hb.modify id
        intro s
        rw [Stream.absorb_eq]
  tail := fun id n h => h.modify id fun _ => rfl
  unknown := fun _ h => h

end SeqInv

/-! ## Opaque tails -/

/-- The opaque bytes of the streams with a creation number. -/
def opaqueAt (q : Nat) (s : Stream) : Nat := if s.createdSeq = q then s.opaqueBytes else 0

theorem opaqueAt_factual (q : Nat) : Factual (opaqueAt q) := fun _ => rfl

/-- The walk adds no opaque bytes; it ends below a stream exactly if a layer is keyed. -/
theorem opaque_walk {env : Env} {a : Aggregator} {pkt : DissectedPacket} (hf : ForestInv a)
    (layers : List LayerRecord) (hfits : (a.walkLayers env pkt layers).agg.Fits) :
    (∀ q, tally (opaqueAt q) (a.walkLayers env pkt layers).agg = tally (opaqueAt q) a) ∧
      (a.walkLayers env pkt layers).parent.isSome = layers.any (keyed env) := by
  refine (walk_rule (I := fun layers w =>
    (∀ q, tally (opaqueAt q) w.agg = tally (opaqueAt q) a) ∧ w.parent.isSome = layers.any (keyed env))
    (hf.beforeWalk pkt) ⟨?_, rfl⟩ ?_ layers hfits).2
  · intro q
    exact (tally_heapFree env (opaqueAt_factual q) _).loopStable.beforeWalk hf (tally_congr rfl rfl)
  · rintro layers w w' layer hw - hstep hfits ⟨hsum, hparent⟩
    rw [List.any_append, List.any_cons, List.any_nil, Bool.or_false, ← hparent]
    rcases hstep.keyed_cases with ⟨hk, hp, harena, hremoved⟩ |
      ⟨hk, plugin, identity, key, dir, foldDir, b, id, -, -, hr, hp, hagg⟩
    · refine ⟨fun q => ?_, by rw [hp, hk, Bool.or_false]⟩
      rw [tally_congr harena hremoved, hsum]
    · -- a folded layer is the new innermost one
      refine ⟨fun q => ?_, by rw [hp, hk, Bool.or_true]; rfl⟩
      rw [hagg] at hfits ⊢
      have hfits' : b.Fits := fits_of_touch hfits
      have hb : tally (opaqueAt q) b = tally (opaqueAt q) w.agg := by
        refine tally_resolution (opaqueAt_factual q) (fun _ => rfl) (fun _ => rfl) ?_ hw.linked hr hfits'
        intro n i seq
        exact ite_self 0
      rw [← hsum q, ← hb]
      apply tally_modify_eq (opaqueAt_factual q) b id
      intro s
      rw [Stream.absorb_eq]
      rfl

/-- One ingest adds the opaque tail to one stream if a layer is keyed, to none otherwise. -/
theorem opaque_ingest {env : Env} {a : Aggregator} {pkt : DissectedPacket} (hf : ForestInv a)
    (hfits : (a.ingest env pkt).Fits) :
    (pkt.layers.any (keyed env) = true → ∃ s ∈ (a.ingest env pkt).everStreams, ∀ q,
        tally (opaqueAt q) (a.ingest env pkt) =
          tally (opaqueAt q) a + if q = s.createdSeq then pkt.opaqueLen else 0) ∧
      (pkt.layers.any (keyed env) = false → ∀ q,
        tally (opaqueAt q) (a.ingest env pkt) = tally (opaqueAt q) a) := by
  obtain ⟨hsum, hparent⟩ := opaque_walk hf pkt.layers (fits_walk hfits)
  obtain ⟨hw, -⟩ := (runStable_true env).walk hf trivial (fits_walk hfits)
  obtain ⟨hfb, -⟩ := (runStable_true env).beforeEnforce hf trivial hfits
  -- the cap comes last and keeps every tally
  have hcap : ∀ {φ : Stream → Nat}, Factual φ →
      tally φ (a.ingest env pkt) = tally φ (a.beforeEnforce env pkt) := by
    intro φ hφ
    exact (tally_heapFree env hφ _).loopStable.enforceMaxStreams hfb rfl
  rw [← hparent]
  cases hp : (a.walkLayers env pkt pkt.layers).parent with
  | none =>
      -- nothing was keyed: the tail goes nowhere
      refine ⟨fun hsome => (by cases hsome), fun _ q => ?_⟩
      rw [hcap (opaqueAt_factual q), ← hsum q]
      rw [beforeEnforce]
      rw [tally_addUnknown, hp]
      rfl
  | some id =>
      refine ⟨fun _ => ?_, fun hnone => (by cases hnone)⟩
      obtain ⟨s, hs⟩ := hw.linked id hp
      -- the stream keeps its creation number, whatever the cap evicts
      have hseq : tally (hasSeq s.createdSeq) (a.ingest env pkt) =
          tally (hasSeq s.createdSeq) (a.walkLayers env pkt pkt.layers).agg := by
        rw [hcap (hasSeq_factual _), tally_beforeEnforce (hasSeq_factual _) fun _ _ => rfl]
      have hone : 1 ≤ tally (hasSeq s.createdSeq) (a.walkLayers env pkt pkt.layers).agg := by
        have hle := le_liveSum (hasSeq s.createdSeq) (mem_streams.2 ⟨id, hs⟩)
        rw [hasSeq, if_pos rfl] at hle
        exact le_trans hle (liveSum_le_tally _ _)
      rw [← hseq, tally_hasSeq] at hone
      obtain ⟨t, ht, hts⟩ := List.mem_map.1 (List.count_pos_iff.1 hone)
      refine ⟨t, ht, fun q => ?_⟩
      have hadd := tally_modify (opaqueAt_factual q) (fun s => s.addOpaqueBytes pkt.opaqueLen) hs
      rw [hcap (opaqueAt_factual q), ← hsum q, hts]
      rw [beforeEnforce]
      rw [tally_addUnknown, hp]
      simp only [addOpaque]
      have hinc : opaqueAt q (s.addOpaqueBytes pkt.opaqueLen) =
          opaqueAt q s + if q = s.createdSeq then pkt.opaqueLen else 0 := by
        simp only [opaqueAt, Stream.addOpaqueBytes, eq_comm]
        split <;> rfl
      omega

/-! ## Conservation -/

/-- The (packet, layer) pairs of a run that are folded into a stream of a protocol. -/
def foldedPairs (env : Env) (p : ProtocolName) (ops : List Op) : List (DissectedPacket × LayerRecord) :=
  (packetsOf ops).flatMap fun pkt =>
    (pkt.layers.filter fun l => keyed env l ∧ l.protocol = p).map fun l => (pkt, l)

/-- **Conservation.** After every run, for each protocol, the packets and the bytes of the live and the
removed streams are those of the folded (packet, layer) pairs. And the next ingest adds its opaque tail
to exactly one of the streams, which their creation numbers tell apart, if a layer of the packet is
keyed, and to none otherwise. -/
theorem conservation {env : Env} {ops : List Op} {a : Aggregator} (h : Reaches env ops a) :
    (∀ p, (a.everStreams.map fun s => if s.protocol = p then s.stats.packets else 0).sum =
        (foldedPairs env p ops).length) ∧
      (∀ p, (a.everStreams.map fun s => if s.protocol = p then s.stats.bytes else 0).sum =
        ((foldedPairs env p ops).map fun x => x.1.meta_.origlen).sum) ∧
      (a.everStreams.map Stream.createdSeq).Nodup ∧
      ∀ pkt, (a.ingest env pkt).Fits →
        (pkt.layers.any (keyed env) = true → ∃ s ∈ (a.ingest env pkt).everStreams, ∀ q,
            tally (opaqueAt q) (a.ingest env pkt) =
              tally (opaqueAt q) a + if q = s.createdSeq then pkt.opaqueLen else 0) ∧
          (pkt.layers.any (keyed env) = false → ∀ q,
            tally (opaqueAt q) (a.ingest env pkt) = tally (opaqueAt q) a) := by
  obtain ⟨hf, hseqs⟩ := (SeqInv.runStable env).reaches h
  refine ⟨?_, ?_, hseqs.nodup, fun pkt hfits => opaque_ingest hf hfits⟩
  · intro p
    have hsum := tally_reaches rfl StatsPair.packets_record h p
    simp only [Nat.mul_one] at hsum
    simp only [foldedPairs, List.length_flatMap, List.length_map]
    exact hsum
  · intro p
    have hsum := tally_reaches rfl StatsPair.bytes_record h p
    apply hsum.trans
    rw [foldedPairs, List.map_flatMap, List.flatMap_def, List.sum_flatten, List.map_map]
    congr 1
    apply List.map_congr_left
    intro pkt _
    simp only [Function.comp_apply, List.map_map, Function.comp_def, List.map_const', List.sum_replicate,
      smul_eq_mul]

/-- In the sample run, four packets reach UDP streams; two of the streams were evicted, one is a
condensed node. -/
theorem conservation_sample :
    ((run (sampleEnv (.live 50 10 4) 2) sampleOps).everStreams.map fun s =>
        if s.protocol = "udp" then s.stats.packets else 0).sum =
      (foldedPairs (sampleEnv (.live 50 10 4) 2) "udp" sampleOps).length ∧
    (foldedPairs (sampleEnv (.live 50 10 4) 2) "udp" sampleOps).length = 4 := by
  refine ⟨(conservation (reaches_run _ sampleOps (by decide))).1 "udp", ?_⟩
  decide +kernel

/-! ## Creations under condensation -/

/-- Counts the expanded streams. -/
def expandedOne (s : Stream) : Nat := if s.condensed.isSome then 0 else 1

/-- The folded flows a stream stands for: none unless it is a condensed node. -/
def memberFlowsOf (s : Stream) : Nat := (s.condensed.map CondensedInfo.memberFlows).getD 0

/-- The created flows of a protocol that a stream stands for: itself, or its members. -/
def createdOn (p : ProtocolName) (s : Stream) : Nat :=
  if s.protocol = p then (if s.condensed.isSome then memberFlowsOf s else 1) else 0

/-- The sum of a map of counters. -/
def totalOf (m : HashMap ProtocolName Nat) : Nat := (m.entries.map fun e => e.2).sum

theorem sum_kerase (p : ProtocolName) (l : List (Sigma fun _ : ProtocolName => Nat)) :
    (l.map fun e => e.2).sum = (l.dlookup p).getD 0 + ((l.kerase p).map fun e => e.2).sum := by
  induction l with
  | nil => rfl
  | cons entry l ih =>
      obtain ⟨q, n⟩ := entry
      by_cases h : p = q
      · subst h
        simp
      · rw [List.dlookup_cons_ne _ _ h, List.kerase_cons_ne h, List.map_cons, List.map_cons,
          List.sum_cons, List.sum_cons, ih]
        omega

theorem totalOf_insert (m : HashMap ProtocolName Nat) (p : ProtocolName) (n : Nat) :
    totalOf (m.insert p n) + countOf m p = totalOf m + n := by
  have h := sum_kerase p m.entries
  have hinsert : totalOf (m.insert p n) = n + ((m.entries.kerase p).map fun e => e.2).sum := by
    rw [totalOf, AList.entries_insert, List.map_cons, List.sum_cons]
  have hcount : countOf m p = (m.entries.dlookup p).getD 0 := rfl
  have htotal : totalOf m = (m.entries.map fun e => e.2).sum := rfl
  omega

theorem totalOf_bumpCount (m : HashMap ProtocolName Nat) (p : ProtocolName) (n : Nat) :
    totalOf (bumpCount m p n) = totalOf m + n := by
  have h := totalOf_insert m p ((m.lookup p).getD 0 + n)
  have hcount : countOf m p = (m.lookup p).getD 0 := rfl
  have hbump : bumpCount m p n = m.insert p ((m.lookup p).getD 0 + n) := rfl
  rw [hbump]
  omega

theorem totalOf_dropCount {m : HashMap ProtocolName Nat} {p : ProtocolName} {n : Nat}
    (h : n ≤ countOf m p) : totalOf (dropCount m p n) + n = totalOf m := by
  rw [dropCount]
  cases hm : m.lookup p with
  | none =>
      have hcount : countOf m p = 0 := by rw [countOf, hm]; rfl
      simp only
      omega
  | some c =>
      have hcount : countOf m p = c := by rw [countOf, hm]; rfl
      have hins := totalOf_insert m p (c - n)
      simp only
      omega

/-- The creation counters agree with the streams ever stored. -/
structure CreationInv (a : Aggregator) : Prop where
  created : a.totals.streamsCreated = tally expandedOne a + a.totals.flowsCondensed
  total : totalOf a.createdPerProtocol = a.totals.streamsCreated
  perProtocol : ∀ p, countOf a.createdPerProtocol p = tally (createdOn p) a
  members : a.totals.flowsCondensed = tally memberFlowsOf a

theorem expandedOne_factual : Factual expandedOne := fun _ => rfl

theorem memberFlowsOf_factual : Factual memberFlowsOf := fun _ => rfl

theorem createdOn_factual (p : ProtocolName) : Factual (createdOn p) := fun _ => rfl

namespace CreationInv

variable {env : Env} {a b : Aggregator}

/-- Nothing but the tallies and the creation counters matters. -/
theorem congr (h : CreationInv a) (hexp : tally expandedOne b = tally expandedOne a)
    (hmem : tally memberFlowsOf b = tally memberFlowsOf a)
    (hon : ∀ p, tally (createdOn p) b = tally (createdOn p) a) (htotals : b.totals = a.totals)
    (hcreated : b.createdPerProtocol = a.createdPerProtocol) : CreationInv b := by
  constructor
  case created =>
    rw [htotals, hexp]
    exact h.created
  case total =>
    rw [htotals, hcreated]
    exact h.total
  case perProtocol =>
    intro p
    rw [hcreated, hon]
    exact h.perProtocol p
  case members =>
    rw [htotals, hmem]
    exact h.members

/-- A modification that keeps protocol, node mark and member count. -/
theorem modify (h : CreationInv a) (id : StreamId) {f : Stream → Stream}
    (hp : ∀ s, (f s).protocol = s.protocol) (hc : ∀ s, (f s).condensed.isSome = s.condensed.isSome)
    (hm : ∀ s, memberFlowsOf (f s) = memberFlowsOf s) : CreationInv (a.modify id f) := by
  refine h.congr ?_ ?_ ?_ rfl rfl
  · exact tally_modify_eq expandedOne_factual a id fun s => by rw [expandedOne, hc, expandedOne]
  · exact tally_modify_eq memberFlowsOf_factual a id hm
  · intro p
    exact tally_modify_eq (createdOn_factual p) a id fun s => by
      simp only [createdOn, hp, hc, hm]

/-- A new member is counted as a created and a condensed flow, and in its node. -/
theorem addMember (h : CreationInv a) {ckey : CondenseKey} {id : StreamId} {s : Stream}
    (hs : a.get id = some s) (hnode : s.condensed.isSome = true) (hpro : s.protocol = ckey.2.1)
    (digest : UInt64) : CreationInv (a.addMember ckey id digest) := by
  have hm := addMember_spec a ckey id digest
  generalize a.addMember ckey id digest = b at hm
  obtain ⟨info, hinfo⟩ := Option.isSome_iff_exists.1 hnode
  cases hm with
  | known => exact h
  | overflow =>
      refine h.modify id (fun _ => rfl) (fun t => ?_) fun t => ?_
      · simp only [Stream.markOverflow, Option.isSome_map]
      · cases ht : t.condensed <;> simp [memberFlowsOf, Stream.markOverflow, ht]
  | counted _ _ =>
      -- the counters and the node move together, by one
      have hone : memberFlowsOf s.countMember = memberFlowsOf s + 1 := by
        simp [memberFlowsOf, Stream.countMember, hinfo]
      have hexp : tally expandedOne (a.modify id Stream.countMember) = tally expandedOne a :=
        tally_modify_eq expandedOne_factual a id fun t => by
          simp only [expandedOne, Stream.countMember, Option.isSome_map]
      have hmem := tally_modify memberFlowsOf_factual Stream.countMember hs
      constructor
      case created =>
        show a.totals.streamsCreated + 1 = tally expandedOne (a.modify id Stream.countMember) +
          (a.totals.flowsCondensed + 1)
        rw [hexp, h.created]
        omega
      case total =>
        show totalOf (bumpCount a.createdPerProtocol ckey.2.1 1) = a.totals.streamsCreated + 1
        rw [totalOf_bumpCount, h.total]
      case perProtocol =>
        intro p
        show countOf (bumpCount a.createdPerProtocol ckey.2.1 1) p =
          tally (createdOn p) (a.modify id Stream.countMember)
        have hon := tally_modify (createdOn_factual p) Stream.countMember hs
        have hadd : createdOn p s.countMember = createdOn p s + if p = ckey.2.1 then 1 else 0 := by
          have hsome : s.countMember.condensed.isSome = true := by
            simp only [Stream.countMember, Option.isSome_map, hnode]
          have hpro' : s.countMember.protocol = ckey.2.1 := hpro
          simp only [createdOn, hpro', hpro, hsome, hnode, if_true, hone, eq_comm]
          split <;> rfl
        rw [countOf_bumpCount, h.perProtocol p]
        omega
      case members =>
        show a.totals.flowsCondensed + 1 = tally memberFlowsOf (a.modify id Stream.countMember)
        have hmembers := h.members
        omega

/-- A condensed node is counted as a stream and uncounted again. -/
theorem createNode (h : CreationInv a) (env : Env) (hlim : a.Fits) (ckey : CondenseKey)
    (hp : a.Linked ckey.1) (group : CondenseGroup) (identity : StreamIdentity)
    (c : CondenseCandidate) (ts : SystemTime) :
    CreationInv (a.createNode env ckey group identity c ts).1 := by
  -- the new record has no weight in any of the tallies
  have hzero : ∀ {φ : Stream → Nat}, Factual φ →
      φ ((nodeStream env ckey identity c ts).record a.freshId a.nextSeq) = 0 →
      tally φ (a.createNode env ckey group identity c ts).1 = tally φ a := by
    intro φ hφ hnew
    have hcreate := tally_create (n := nodeStream env ckey identity c ts) hφ env hlim hp
    rw [hnew, Nat.zero_add] at hcreate
    exact hcreate
  constructor
  case created =>
    rw [hzero expandedOne_factual rfl]
    show a.totals.streamsCreated + 1 - 1 = _ + a.totals.flowsCondensed
    rw [Nat.add_sub_cancel, h.created]
  case total =>
    show totalOf (dropCount (bumpCount a.createdPerProtocol ckey.2.1 1) ckey.2.1 1) =
      a.totals.streamsCreated + 1 - 1
    have hbump := totalOf_bumpCount a.createdPerProtocol ckey.2.1 1
    -- the count taken back is the one just added, so the subtraction does not saturate
    have hle : 1 ≤ countOf (bumpCount a.createdPerProtocol ckey.2.1 1) ckey.2.1 := by
      rw [countOf_bumpCount, if_pos rfl]
      omega
    have hdrop := totalOf_dropCount hle
    have htotal := h.total
    omega
  case perProtocol =>
    intro p
    rw [hzero (createdOn_factual p) (ite_self 0), ← h.perProtocol p]
    show countOf (dropCount (bumpCount a.createdPerProtocol ckey.2.1 1) ckey.2.1 1) p = _
    rw [countOf_dropCount, countOf_bumpCount, Nat.add_sub_cancel]
  case members =>
    rw [hzero memberFlowsOf_factual rfl]
    exact h.members

theorem createStream (h : CreationInv a) (env : Env) (hlim : a.Fits) {n : NewStream}
    (hp : a.Linked n.parent) (hn : n.condensed = none) :
    CreationInv (a.createStreamRaw env n).1 := by
  have hcond : (n.record a.freshId a.nextSeq).condensed = none := hn
  constructor
  case created =>
    rw [tally_create expandedOne_factual env hlim hp, expandedOne, hcond, if_neg (by simp)]
    show a.totals.streamsCreated + 1 = _ + a.totals.flowsCondensed
    rw [h.created]
    omega
  case total =>
    show totalOf (bumpCount a.createdPerProtocol n.protocol 1) = a.totals.streamsCreated + 1
    rw [totalOf_bumpCount, h.total]
  case perProtocol =>
    intro p
    show countOf (bumpCount a.createdPerProtocol n.protocol 1) p = _
    have hpro : (n.record a.freshId a.nextSeq).protocol = n.protocol := rfl
    rw [tally_create (createdOn_factual p) env hlim hp, countOf_bumpCount, h.perProtocol p, createdOn,
      hcond, hpro]
    simp only [Option.isSome_none, Bool.false_eq_true, if_false, eq_comm]
    omega
  case members =>
    rw [tally_create memberFlowsOf_factual env hlim hp, memberFlowsOf, hcond]
    show a.totals.flowsCondensed = 0 + _
    rw [h.members, Nat.zero_add]

theorem resolution (h : CreationInv a) (htab : TableInv env a) {parent : Option StreamId}
    {key : FlowKey} {identity : StreamIdentity} {condense : Option CondenseSpec} {layer : LayerRecord}
    {dir : PacketDirection} {ts : SystemTime} {r : Aggregator × StreamId × PacketDirection}
    (hp : a.Linked parent) (hr : Resolution env a parent key identity condense layer dir ts r)
    (hfits : r.1.Fits) : CreationInv r.1 := by
  have hlim : a.Fits := hr.fits hfits
  cases hr with
  | hit _ _ _ => exact h
  | member _ _ hg hnode hs =>
      -- the group's node is a condensed stream of the layer's protocol
      obtain ⟨f, hf, hisnode, -, hpro, -⟩ := htab.groups.node_live hg hnode
      rw [frames_of_get hs] at hf
      obtain rfl := Option.some.inj hf
      exact h.addMember hs hisnode hpro _
  | @node cs c group _ _ hg _ _ =>
      have hcreated := h.createNode env hlim (parent, layer.protocol, c.anchor) hp group identity c ts
      have hget := get_create (n := nodeStream env (parent, layer.protocol, c.anchor) identity c ts)
        env hlim hp a.freshId
      rw [if_pos rfl] at hget
      exact hcreated.addMember hget rfl rfl _
  | fresh _ _ =>
      have hcreated : CreationInv (a.createStream env parent key identity layer dir ts).1 :=
        h.createStream env hlim hp rfl
      exact hcreated.congr rfl rfl (fun _ => rfl) rfl rfl

/-- The creation counters along every run. -/
theorem runStable (env : Env) : RunStable env (TableInv env) CreationInv where
  close := by
    intro a id h
    obtain ⟨calls, heq⟩ := closeStream_eq env a id
    have hmod : CreationInv (a.modify id fun s => s.markClosed .captureEnd) :=
      h.modify id (fun _ => rfl) (fun _ => rfl) fun _ => rfl
    rw [heq]
    exact hmod.congr rfl rfl (fun _ => rfl) rfl rfl
  evict := by
    intro a id s reason hf hs hc h
    -- eviction touches neither the tallies nor the creation counters
    have hkeep : ∀ {φ : Stream → Nat}, Factual φ → tally φ (a.evict env id reason) = tally φ a :=
      fun hφ => (tally_heapFree env hφ _).evict reason hf hs hc rfl
    exact h.congr (hkeep expandedOne_factual) (hkeep memberFlowsOf_factual)
      (fun p => hkeep (createdOn_factual p)) (evict_unchanged env a id reason).2.1
      (evict_unchanged env a id reason).2.2.2.1
  heaps := fun _ _ h => h.congr rfl rfl (fun _ => rfl) rfl rfl
  new := ⟨rfl, rfl, fun _ => rfl, rfl⟩
  tick := fun _ h => ⟨h.created, h.total, h.perProtocol, h.members⟩
  layer := by
    intro pkt w w' layer hw htab hstep hfits h
    cases hstep with
    | skip _ => exact h
    | keyError _ _ => exact ⟨h.created, h.total, h.perProtocol, h.members⟩
    | folded _ _ hr =>
        have hfits' := fits_of_touch hfits
        have hb := h.resolution htab hw.linked hr hfits'
        refine (hb.modify _ (fun s => ?_) (fun s => ?_) fun s => ?_).congr rfl rfl (fun _ => rfl) rfl rfl
        all_goals rw [Stream.absorb_eq]
        rfl
  tail := fun id n h => h.modify id (fun _ => rfl) (fun _ => rfl) fun _ => rfl
  unknown := fun _ h => h.congr rfl rfl (fun _ => rfl) rfl rfl

end CreationInv

/-- **Creation accounting under condensation.** After every run the created streams are the expanded
streams ever stored and the condensed flows, and the sum of the counts per protocol; the condensed
flows are the members of the condensed nodes ever stored; and a group with members has a live node. -/
theorem creation_accounting {env : Env} {ops : List Op} {a : Aggregator} (h : Reaches env ops a) :
    a.totals.streamsCreated =
        (a.everStreams.filter fun s => s.condensed.isNone).length + a.totals.flowsCondensed ∧
      a.totals.streamsCreated = (a.createdPerProtocol.entries.map fun e => e.2).sum ∧
      a.totals.flowsCondensed =
        (a.everStreams.map fun s => (s.condensed.map CondensedInfo.memberFlows).getD 0).sum ∧
      ∀ ck g, a.condense.lookup ck = some g → g.members ≠ ∅ →
        ∃ id s, g.node = some id ∧ a.get id = some s ∧ s.condensed.isSome = true := by
  obtain ⟨-, htab, hinv⟩ := ((TableInv.runStable env).and (CreationInv.runStable env)).reaches h
  refine ⟨?_, hinv.total.symm, hinv.members, ?_⟩
  · rw [hinv.created]
    congr 1
    have hone : expandedOne = fun s => if s.condensed.isNone then 1 else 0 := by
      funext s
      rw [expandedOne]
      cases s.condensed <;> rfl
    rw [tally]
    rw [hone, sum_ite_eq_filter (fun s => s.condensed.isNone) (fun _ => 1), List.map_const',
      List.sum_replicate, smul_eq_mul, Nat.mul_one]
  · intro ck g hg hne
    cases hn : g.node with
    | none => exact absurd (htab.groups.members hg hn) hne
    | some id =>
        obtain ⟨f, hf, hisnode, -⟩ := htab.groups.node_live hg hn
        obtain ⟨s, hs, rfl⟩ := frames_eq_some.1 hf
        exact ⟨id, s, rfl, hs, hisnode⟩

/-- In the sample run eight streams are counted: seven expanded ones and one condensed flow. -/
theorem creation_accounting_sample :
    (run (sampleEnv (.live 50 10 4) 2) sampleOps).totals.streamsCreated =
        ((run (sampleEnv (.live 50 10 4) 2) sampleOps).everStreams.filter fun s =>
          s.condensed.isNone).length +
          (run (sampleEnv (.live 50 10 4) 2) sampleOps).totals.flowsCondensed ∧
      (run (sampleEnv (.live 50 10 4) 2) sampleOps).totals.streamsCreated = 8 := by
  refine ⟨(creation_accounting (reaches_run _ sampleOps (by decide))).1, ?_⟩
  decide +kernel

end Aggregator

end Pktflow.Flows
