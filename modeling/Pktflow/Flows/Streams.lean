import Pktflow.Flows.Accounting

/-!
# Invariants of single streams

A property of stream records that holds of every stream ever stored, live or removed. It is enough that
folding a packet establishes it: `StreamRule` asks for a weaker property `Q` of the record that is about
to be touched, which a fresh record has too. Evictions and closes change child lists and close marks
only.
-/

set_option autoImplicit false

namespace Pktflow.Flows

open Pktflow.Core Pktflow.Lib

namespace Aggregator

/-- A property of streams that packets of time `ts` establish, from one that fresh records have. -/
structure StreamRule (env : Env) (ts : SystemTime) (P Q : Stream → Prop) : Prop where
  facts : ∀ s, P (Stream.facts s) ↔ P s
  tail : ∀ s n, P s → P (Stream.addOpaqueBytes s n)
  new : ∀ (n : NewStream) id seq, n.ts = ts → Q (n.record id seq)
  count : ∀ s, Q s → Q (Stream.countMember s)
  overflow : ∀ s, Q s → Q (Stream.markOverflow s)
  absorb : ∀ s plugin identity layer key dir origlen,
    identityOf env (Stream.protocol s) = some (plugin, identity) → Q s →
    P (s.absorb identity layer key dir ts origlen).1

/-- Every stream ever stored has the property. -/
def Everywhere (P : Stream → Prop) (a : Aggregator) : Prop := ∀ s ∈ a.everStreams, P s

open Classical in
/-- Counts the streams without the property. -/
noncomputable def lacking (P : Stream → Prop) (s : Stream) : Nat := if P s then 0 else 1

theorem lacking_eq_zero {P : Stream → Prop} {s : Stream} : lacking P s = 0 ↔ P s := by
  simp [lacking]

theorem everywhere_iff {P : Stream → Prop} {a : Aggregator} :
    Everywhere P a ↔ tally (lacking P) a = 0 := by
  rw [tally, List.sum_eq_zero_iff]
  constructor
  · intro h x hx
    obtain ⟨s, hs, rfl⟩ := List.mem_map.1 hx
    exact lacking_eq_zero.2 (h s hs)
  · intro h s hs
    exact lacking_eq_zero.1 (h _ (List.mem_map_of_mem hs))

theorem Everywhere.live {P : Stream → Prop} {a : Aggregator} (h : Everywhere P a) {id : StreamId}
    {s : Stream} (hs : a.get id = some s) : P s :=
  h s (List.mem_append_left _ (mem_streams.2 ⟨id, hs⟩))

theorem factual_lacking {P : Stream → Prop} (hfacts : ∀ s, P (Stream.facts s) ↔ P s) :
    Factual (lacking P) := by
  intro s
  have heq : P s.facts = P s := propext (hfacts s)
  rw [lacking, lacking, heq]

/-- A property that child lists and close marks do not change survives evictions and closes. -/
theorem everywhere_heapFree (env : Env) {P : Stream → Prop} (hfacts : ∀ s, P (Stream.facts s) ↔ P s) :
    HeapFree env (Everywhere P) := by
  have hfree := tally_heapFree env (factual_lacking hfacts) 0
  refine ⟨⟨?_, ?_⟩, ?_⟩
  · intro a id h
    exact everywhere_iff.2 (hfree.close id (everywhere_iff.1 h))
  · intro a id s reason hf hs hc h
    exact everywhere_iff.2 (hfree.evict reason hf hs hc (everywhere_iff.1 h))
  · intro a expiry lru h
    exact h

/-- The opaque tail of an ingest. -/
theorem Everywhere.tail {P : Stream → Prop} (hfacts : ∀ s, P (Stream.facts s) ↔ P s)
    (htail : ∀ s n, P s → P (Stream.addOpaqueBytes s n)) {a : Aggregator} (h : Everywhere P a)
    (id : StreamId) (n : Nat) : Everywhere P (a.modify id fun s => s.addOpaqueBytes n) := by
  cases hs : a.get id with
  | none =>
      have harena : (a.modify id fun s => s.addOpaqueBytes n).arena = a.arena :=
        Arena.modify_of_get_none hs _
      refine everywhere_iff.2 ?_
      rw [tally_congr harena rfl, everywhere_iff.1 h]
  | some s =>
      have hmod := tally_modify (factual_lacking hfacts) (fun s => s.addOpaqueBytes n) hs
      rw [everywhere_iff.1 h, lacking_eq_zero.2 (h.live hs),
        lacking_eq_zero.2 (htail s n (h.live hs))] at hmod
      exact everywhere_iff.2 hmod

section Rule

variable {env : Env} {P Q : Stream → Prop} {pkt : DissectedPacket}

/-- After a resolution the rule's property is missing at the resolved stream at most, and that stream
may be touched. -/
theorem Everywhere.resolution {ts : SystemTime} (hrule : StreamRule env ts P Q) {a : Aggregator}
    {parent : Option StreamId} {key : FlowKey} {identity : StreamIdentity}
    {condense : Option CondenseSpec} {layer : LayerRecord} {dir : PacketDirection}
    {r : Aggregator × StreamId × PacketDirection} (hp : a.Linked parent)
    (hr : Resolution env a parent key identity condense layer dir ts r) (hfits : r.1.Fits)
    (htouch : ∀ s, a.get r.2.1 = some s → P s → Q s) (h : Everywhere P a) :
    ∃ s, r.1.get r.2.1 = some s ∧ Q s ∧ tally (lacking P) r.1 = lacking P s := by
  have hφ := factual_lacking hrule.facts
  have hlim : a.Fits := hr.fits hfits
  refine hr.rule_at (J := fun i b => ∃ s, b.get i = some s ∧ Q s ∧
    tally (lacking P) b = lacking P s) ?_ ?_ ?_ ?_ ?_
  · intro s hs
    refine ⟨s, hs, htouch s hs (h.live hs), ?_⟩
    rw [everywhere_iff.1 h, lacking_eq_zero.2 (h.live hs)]
  · rintro n rfl hts
    have hget := get_create env hlim hp a.freshId
    rw [if_pos rfl] at hget
    refine ⟨_, hget, hrule.new n _ _ hts, ?_⟩
    rw [tally_create hφ env hlim hp, everywhere_iff.1 h, Nat.add_zero]
  · rintro c i ⟨s, hs, hQ, htally⟩
    refine ⟨s.countMember, ?_, hrule.count s hQ, ?_⟩
    · rw [get_modify, Function.update_self, hs]
      rfl
    · have hmod := tally_modify hφ Stream.countMember hs
      omega
  · rintro c i ⟨s, hs, hQ, htally⟩
    refine ⟨s.markOverflow, ?_, hrule.overflow s hQ, ?_⟩
    · rw [get_modify, Function.update_self, hs]
      rfl
    · have hmod := tally_modify hφ Stream.markOverflow hs
      omega
  · rintro i c m t p _ hc
    exact hc

/-- One layer, where the resolved stream may be touched. -/
theorem Everywhere.layer (hrule : StreamRule env pkt.meta_.timestamp P Q) {w w' : Walk}
    {layer : LayerRecord} (hw : WalkInv w) (htab : TableInv env w.agg)
    (hstep : LayerStep env pkt w layer w') (hfits : w'.agg.Fits)
    (htouch : ∀ id s, foldTarget env pkt w layer = some id → w.agg.get id = some s → P s → Q s)
    (h : Everywhere P w.agg) : Everywhere P w'.agg := by
  have hφ := factual_lacking hrule.facts
  cases hstep with
  | skip _ => exact h
  | keyError _ _ => exact h
  | @folded plugin identity key dir foldDir b id hid hkey hr htarget =>
      have hfits' : b.Fits := fits_of_touch hfits
      obtain ⟨s, hs, hQ, htally⟩ :=
        h.resolution hrule hw.linked hr hfits' (fun s => htouch id s htarget)
      simp only at hs htally
      obtain ⟨-, f, hf, -, hpro⟩ := htab.resolution hw.linked hid hkey hr hfits'
      have hf' : b.frames id = some f := hf
      rw [frames_of_get hs] at hf'
      obtain rfl := Option.some.inj hf'
      have hpro' : s.protocol = layer.protocol := hpro
      -- the touch establishes it there
      have hafter := hrule.absorb s plugin identity layer key foldDir pkt.meta_.origlen
        (by rw [hpro']; exact hid) hQ
      have hadd := tally_touch hφ env hs identity layer key foldDir pkt.meta_.timestamp pkt.meta_.origlen
      rw [lacking_eq_zero.2 hafter] at hadd
      refine everywhere_iff.2 ?_
      show tally (lacking P) (b.touch env id identity layer key foldDir pkt.meta_.timestamp
        pkt.meta_.origlen) = 0
      omega

/-- The ingest of a packet, where every stream may be touched. -/
theorem StreamRule.ingestStable (hrule : StreamRule env pkt.meta_.timestamp P Q)
    (htouch : ∀ s, P s → Q s) : IngestStable env pkt (TableInv env) (Everywhere P) where
  toLoopStable := (everywhere_heapFree env hrule.facts).loopStable
  layer := fun hw htab hstep hfits h =>
    h.layer hrule hw htab hstep hfits fun _ s _ _ hP => htouch s hP
  tail := fun id n h => h.tail hrule.facts hrule.tail id n
  unknown := fun _ h => h

/-- Runs, where every packet may touch every stream. -/
theorem StreamRule.runStable {Q : SystemTime → Stream → Prop} (hrule : ∀ ts, StreamRule env ts P (Q ts))
    (htouch : ∀ ts s, P s → Q ts s) : RunStable env (TableInv env) (Everywhere P) where
  toHeapFree := everywhere_heapFree env (hrule 0).facts
  new := fun s hs => (by cases hs)
  tick := fun _ h => h
  layer := by
    intro pkt w w' layer hw htab hstep hfits h
    exact h.layer (hrule pkt.meta_.timestamp) hw htab hstep hfits fun _ s _ _ hP => htouch _ s hP
  tail := fun id n h => h.tail (hrule 0).facts (hrule 0).tail id n
  unknown := fun _ h => h

end Rule

end Aggregator

end Pktflow.Flows
