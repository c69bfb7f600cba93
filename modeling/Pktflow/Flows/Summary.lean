import Pktflow.Flows.Accounting

/-!
# The incremental summary

The counters behind `summary` are kept up to date at creation, at each fold and at eviction. They equal
a recomputation from the live streams in every reachable state, and no subtraction of `evict` ever
saturates.
-/

set_option autoImplicit false

namespace Pktflow.Flows

open Pktflow.Core Pktflow.Lib

namespace Aggregator

/-- Counts the streams of a protocol. -/
def isOn (p : ProtocolName) (s : Stream) : Nat := if s.protocol = p then 1 else 0

theorem isOn_factual (p : ProtocolName) : Factual (isOn p) := fun _ => rfl

theorem bytesOn_factual (p : ProtocolName) : Factual (statsOn StatsPair.bytes p) := fun _ => rfl

/-- The live counters agree with the live streams, and every live stream has a summary row. -/
structure LiveInv (a : Aggregator) : Prop where
  live : ∀ p, countOf a.livePerProtocol p = liveSum (isOn p) a
  bytes : ∀ p, countOf a.liveBytesPerProtocol p = liveSum (statsOn StatsPair.bytes p) a
  row : ∀ {id f}, a.frames id = some f → f.protocol ∈ a.createdPerProtocol

namespace LiveInv

variable {env : Env} {a b : Aggregator}

/-- Nothing but the streams and the counters matters. -/
theorem congr (h : LiveInv a) (hlive : ∀ p, liveSum (isOn p) b = liveSum (isOn p) a)
    (hbytes : ∀ p, liveSum (statsOn StatsPair.bytes p) b = liveSum (statsOn StatsPair.bytes p) a)
    (hframes : b.frames = a.frames) (h1 : b.livePerProtocol = a.livePerProtocol)
    (h2 : b.liveBytesPerProtocol = a.liveBytesPerProtocol)
    (h3 : ∀ q, q ∈ a.createdPerProtocol → q ∈ b.createdPerProtocol) : LiveInv b := by
  constructor
  case live =>
    intro p
    rw [h1, hlive]
    exact h.live p
  case bytes =>
    intro p
    rw [h2, hbytes]
    exact h.bytes p
  case row =>
    intro id f hf
    rw [hframes] at hf
    exact h3 _ (h.row hf)

/-- A modification that keeps protocol, stats and frame. -/
theorem modify (h : LiveInv a) (id : StreamId) {f : Stream → Stream}
    (hp : ∀ s, (f s).protocol = s.protocol) (hs : ∀ s, (f s).stats = s.stats)
    (hf : ∀ s, (f s).frame = s.frame) : LiveInv (a.modify id f) := by
  refine h.congr ?_ ?_ (frames_modify a id hf) rfl rfl fun _ hq => hq
  · intro p
    exact liveSum_modify_eq (isOn_factual p) a id fun s => by simp only [isOn, hp]
  · intro p
    exact liveSum_modify_eq (bytesOn_factual p) a id fun s => by simp only [statsOn, hp, hs]

theorem create (h : LiveInv a) (env : Env) (hlim : a.Fits) {n : NewStream} (hp : a.Linked n.parent) :
    LiveInv (a.createStreamRaw env n).1 := by
  constructor
  case live =>
    intro p
    show countOf (bumpCount a.livePerProtocol n.protocol 1) p = _
    have hnew : isOn p (n.record a.freshId a.nextSeq) = if n.protocol = p then 1 else 0 := rfl
    rw [countOf_bumpCount, liveSum_create (isOn_factual p) env hlim hp, h.live p, hnew]
    simp only [eq_comm]
    omega
  case bytes =>
    intro p
    have hnew : statsOn StatsPair.bytes p (n.record a.freshId a.nextSeq) = 0 := ite_self 0
    rw [liveSum_create (bytesOn_factual p) env hlim hp, hnew, Nat.zero_add]
    exact h.bytes p
  case row =>
    intro id f hf
    show f.protocol ∈ bumpCount a.createdPerProtocol n.protocol 1
    rcases (frames_of_create env hlim hp).1 hf with ⟨-, rfl⟩ | hf
    · exact mem_bumpCount.2 (.inl rfl)
    · exact mem_bumpCount.2 (.inr (h.row hf))

/-- The bytes of a fold go to the protocol of the touched stream. -/
theorem touch (h : LiveInv a) (env : Env) {id : StreamId} {s : Stream} (hs : a.get id = some s)
    (identity : StreamIdentity) {layer : LayerRecord} (hpro : s.protocol = layer.protocol)
    (key : FlowKey) (dir : PacketDirection) (ts : SystemTime) (origlen : Nat) :
    LiveInv (a.touch env id identity layer key dir ts origlen) := by
  constructor
  case live =>
    intro p
    have hsum : liveSum (isOn p) (a.touch env id identity layer key dir ts origlen) =
        liveSum (isOn p) a := by
      apply liveSum_modify_eq (isOn_factual p) a id
      intro t
      rw [Stream.absorb_eq]
      rfl
    rw [hsum]
    exact h.live p
  case bytes =>
    intro p
    show countOf (bumpCount a.liveBytesPerProtocol layer.protocol origlen) p = _
    have hsum : liveSum (statsOn StatsPair.bytes p) (a.touch env id identity layer key dir ts origlen) +
        statsOn StatsPair.bytes p s = liveSum (statsOn StatsPair.bytes p) a +
          statsOn StatsPair.bytes p (s.absorb identity layer key dir ts origlen).1 :=
      liveSum_modify (bytesOn_factual p) _ hs
    have habsorb : statsOn StatsPair.bytes p (s.absorb identity layer key dir ts origlen).1 =
        statsOn StatsPair.bytes p s + if p = layer.protocol then origlen else 0 := by
      rw [Stream.absorb_eq]
      simp only [statsOn, StatsPair.bytes_record, hpro, eq_comm]
      split <;> rfl
    rw [countOf_bumpCount, h.bytes p]
    omega
  case row =>
    rw [frames_touch]
    exact h.row

theorem evict (h : LiveInv a) {id : StreamId} {s : Stream} (env : Env) (reason : CloseReason)
    (hf : ForestInv a) (hs : a.get id = some s) : LiveInv (a.evict env id reason) := by
  obtain ⟨-, hlive, hbytes, -, -⟩ := evict_updated env reason hs
  constructor
  case live =>
    intro p
    have hsum := liveSum_evict (isOn_factual p) env reason hf hs
    have hone : isOn p s = if p = s.protocol then 1 else 0 := by simp only [isOn, eq_comm]
    rw [hlive, countOf_dropCount, h.live p]
    omega
  case bytes =>
    intro p
    have hsum := liveSum_evict (bytesOn_factual p) env reason hf hs
    have hown : statsOn StatsPair.bytes p s = if p = s.protocol then s.stats.bytes else 0 := by
      simp only [statsOn, eq_comm]
    rw [hbytes, countOf_dropCount, h.bytes p]
    omega
  case row =>
    intro x f hx
    rw [(evict_unchanged env a id reason).2.2.2.1]
    exact h.row ((frames_of_evict env reason hs).1 hx).2

/-- The live counters along every run. -/
theorem runStable (env : Env) : RunStable env (TableInv env) LiveInv where
  close := by
    intro a id h
    obtain ⟨calls, heq⟩ := closeStream_eq env a id
    have hmod : LiveInv (a.modify id fun s => s.markClosed .captureEnd) :=
      h.modify id (fun _ => rfl) (fun _ => rfl) fun _ => rfl
    rw [heq]
    exact hmod.congr (fun _ => rfl) (fun _ => rfl) rfl rfl rfl fun _ hq => hq
  evict := fun reason hf hs _ h => h.evict env reason hf hs
  heaps := fun _ _ h => h.congr (fun _ => rfl) (fun _ => rfl) rfl rfl rfl fun _ hq => hq
  new := ⟨fun _ => rfl, fun _ => rfl, by intro id f hf; cases hf⟩
  tick := fun _ h => h.congr (fun _ => rfl) (fun _ => rfl) rfl rfl rfl fun _ hq => hq
  layer := by
    intro pkt w w' layer hw htab hstep hfits h
    cases hstep with
    | skip _ => exact h
    | keyError _ _ => exact h.congr (fun _ => rfl) (fun _ => rfl) rfl rfl rfl fun _ hq => hq
    | @folded plugin identity key dir foldDir b id hid hkey hr =>
        have hfits' : b.Fits := fits_of_touch hfits
        have hlim : w.agg.Fits := hr.fits hfits'
        have hb : LiveInv b := by
          refine hr.rule (J := LiveInv) h (fun n hn _ => ?_) (fun i hb => ?_) (fun i hb => ?_) ?_
          · exact h.create env hlim (by rw [hn]; exact hw.linked)
          · exact hb.modify i (fun _ => rfl) (fun _ => rfl) Stream.countMember_frame
          · exact hb.modify i (fun _ => rfl) (fun _ => rfl) Stream.markOverflow_frame
          · intro b m t c hc hb
            exact hb.congr (fun _ => rfl) (fun _ => rfl) rfl rfl rfl hc
        obtain ⟨-, f, hf, -, hpro⟩ := htab.resolution hw.linked hid hkey hr hfits'
        obtain ⟨s, hs, rfl⟩ := frames_eq_some.1 hf
        exact hb.touch env hs identity hpro key foldDir _ _
  tail := fun id n h => h.modify id (fun _ => rfl) (fun _ => rfl) fun _ => rfl
  unknown := fun _ h => h.congr (fun _ => rfl) (fun _ => rfl) rfl rfl rfl fun _ hq => hq

end LiveInv

/-- The summary with its live part recomputed by scanning the live streams. -/
def scannedSummary (a : Aggregator) : AggregateSummary :=
  { a.summary with
    streamsLive := a.streams.length
    perProtocol := (a.createdPerProtocol.entries.map fun e =>
        (⟨e.1, e.2, (a.streams.filter fun s => s.protocol = e.1).length,
          ((a.streams.filter fun s => s.protocol = e.1).map fun s => s.stats.bytes).sum⟩ :
          ProtocolCounts)).insertionSort fun x y => x.protocol ≤ y.protocol }

theorem LiveInv.live_eq {a : Aggregator} (h : LiveInv a) (p : ProtocolName) :
    countOf a.livePerProtocol p = (a.streams.filter fun s => s.protocol = p).length := by
  rw [h.live p, ← Nat.mul_one (a.streams.filter fun s => s.protocol = p).length, ← smul_eq_mul,
    ← List.sum_replicate, ← List.map_const', ← sum_ite_eq_filter]
  simp only [liveSum, decide_eq_true_eq]
  rfl

theorem LiveInv.bytes_eq {a : Aggregator} (h : LiveInv a) (p : ProtocolName) :
    countOf a.liveBytesPerProtocol p =
      ((a.streams.filter fun s => s.protocol = p).map fun s => s.stats.bytes).sum := by
  rw [h.bytes p, ← sum_ite_eq_filter]
  simp only [liveSum, decide_eq_true_eq]
  rfl

/-- A live stream with its protocol's row. -/
theorem LiveInv.exists_row {a : Aggregator} (h : LiveInv a) {s : Stream} (hs : s ∈ a.streams) :
    ∃ row ∈ a.summary.perProtocol, row.protocol = s.protocol := by
  obtain ⟨id, hid⟩ := mem_streams.1 hs
  have hmem : s.protocol ∈ a.createdPerProtocol := h.row (frames_of_get hid)
  obtain ⟨n, hn⟩ := List.exists_of_mem_keys hmem
  refine ⟨_, (List.mem_insertionSort _).2 (List.mem_map_of_mem hn), rfl⟩

/-- Without condensed nodes no protocol has more live streams than were ever created. -/
theorem live_le_created {a : Aggregator} (hlive : LiveInv a) (hcreated : CreationInv a)
    (hnone : ∀ s ∈ a.streams, s.condensed = none) (p : ProtocolName) :
    countOf a.livePerProtocol p ≤ countOf a.createdPerProtocol p := by
  have hsame : liveSum (isOn p) a = liveSum (createdOn p) a := by
    rw [liveSum]
    congr 1
    apply List.map_congr_left
    intro s hs
    simp [isOn, createdOn, hnone s hs]
  rw [hlive.live p, hcreated.perProtocol p, hsame]
  exact liveSum_le_tally _ a

/-- **The incremental summary is exact.** In every reachable state the summary is the one recomputed
from the live streams, with a row for each of them, and without condensation no row has more live
streams than were ever created; and at every call of `evict` the subtractions do not saturate. -/
theorem summary_exact (env : Env) :
    (∀ ops a, Reaches env ops a → a.summary = a.scannedSummary ∧
      (∀ s ∈ a.streams, ∃ row ∈ a.summary.perProtocol, row.protocol = s.protocol) ∧
      (env.config.condenseThreshold = 0 ∨ (∀ s ∈ a.streams, s.condensed = none) →
        ∀ row ∈ a.summary.perProtocol, row.live ≤ row.ever)) ∧
    ∀ b id reason, EvictCall env b id reason → ∃ s, b.get id = some s ∧ 1 ≤ b.liveCount ∧
      1 ≤ countOf b.livePerProtocol s.protocol ∧
      s.stats.bytes ≤ countOf b.liveBytesPerProtocol s.protocol := by
  have hboth := (TableInv.runStable env).and (LiveInv.runStable env)
  have hcreation := (TableInv.runStable env).and (CreationInv.runStable env)
  refine ⟨?_, ?_⟩
  · intro ops a h
    obtain ⟨hf, htab, hlive⟩ := hboth.reaches h
    obtain ⟨-, -, hcreated⟩ := hcreation.reaches h
    refine ⟨?_, fun s hs => hlive.exists_row hs, ?_⟩
    · unfold scannedSummary summary
      simp only [hf.count, hlive.live_eq, hlive.bytes_eq]
    · intro hoff row hrow
      have hnone : ∀ s ∈ a.streams, s.condensed = none := by
        rcases hoff with hoff | hnone
        · intro s hs
          obtain ⟨id, hid⟩ := mem_streams.1 hs
          cases hc : s.condensed with
          | none => rfl
          | some info =>
              -- a condensed node has a group, and there are none
              obtain ⟨anchor, g, -, hg, -⟩ := htab.groups.node_group (frames_of_get hid) (by
                show s.condensed.isSome = true
                rw [hc]
                rfl)
              rw [htab.groups.off hoff] at hg
              cases hg
        · exact hnone
      obtain ⟨e, he, rfl⟩ := List.mem_map.1 ((List.mem_insertionSort _).1 hrow)
      have hle := live_le_created hlive hcreated hnone e.1
      have hever : countOf a.createdPerProtocol e.1 = e.2 := by
        rw [countOf, AList.mem_lookup_iff.2 he]
        rfl
      rw [hever] at hle
      exact hle
  · intro b id reason h
    obtain ⟨hf, ⟨-, hlive⟩, s, hs, -⟩ := hboth.evictCall h
    have hmem : s ∈ b.streams := mem_streams.2 ⟨id, hs⟩
    refine ⟨s, hs, ?_, ?_, ?_⟩
    · rw [hf.count]
      exact List.length_pos_of_mem hmem
    · have hle := le_liveSum (isOn s.protocol) hmem
      rw [isOn, if_pos rfl] at hle
      rw [hlive.live]
      exact hle
    · have hle := le_liveSum (statsOn StatsPair.bytes s.protocol) hmem
      rw [statsOn, if_pos rfl] at hle
      rw [hlive.bytes]
      exact hle

/-- The sample run's summary after five packets. -/
theorem summary_sample :
    (run (sampleEnv (.live 50 10 9) 2) (sampleOps.take 5)).summary =
        (run (sampleEnv (.live 50 10 9) 2) (sampleOps.take 5)).scannedSummary ∧
      (run (sampleEnv (.live 50 10 9) 2) (sampleOps.take 5)).summary.perProtocol =
        [⟨"eth", 2, 2, 300⟩, ⟨"ip", 1, 1, 240⟩, ⟨"tcp", 1, 1, 60⟩, ⟨"udp", 3, 3, 240⟩] := by
  refine ⟨((summary_exact _).1 _ _ (reaches_run _ (sampleOps.take 5) (by decide))).1, ?_⟩
  decide +kernel

end Aggregator

end Pktflow.Flows
