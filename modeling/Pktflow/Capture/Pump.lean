import Pktflow.Core.Parser
import Pktflow.Lib.Handoff

/-!
# Packet sources and the pump

Model of `pktflow-capture/src/source.rs`: a source is read packet by packet, and a pump's loop works on each packet
and sends the outcome over the bounded channel. What the source does may depend on the outside (a stop flag, an
interface), so that `next_packet` takes the outside's move as an argument, and the theorems are about every sequence
of moves.

`Pumps` tells what a pump has done after any number of turns: the packets read were worked on in the order of
the reads, and the report is the exact account of them (`reportOf`).
-/

set_option autoImplicit false

namespace Pktflow.Capture

open Pktflow.Core Pktflow.Lib

/-- `CaptureError`, with the texts it carries. -/
inductive CaptureError where
  | deviceNotFound (device : String)
  | permissionDenied (device : String)
  | fileFormat (message : String)
  | io (message : String)
  | backend (message : String)
  deriving DecidableEq, Repr

/-- `RawPacket`. -/
structure RawPacket where
  bytes : List UInt8
  meta_ : PacketMeta
  deriving DecidableEq

/-- `CaptureStats`. -/
structure CaptureStats where
  received : Nat := 0
  droppedKernel : Nat := 0
  droppedIface : Nat := 0
  deriving DecidableEq, Repr

/-- `PumpReport`. -/
structure PumpReport where
  packets : Nat := 0
  bytes : Nat := 0
  timestampsRegressed : Nat := 0
  stats : CaptureStats := {}
  deriving DecidableEq, Repr

/-- `PacketSource`, over the state of a source and the moves of the outside. -/
structure PacketSource (E σ : Type) where
  nextPacket : E → σ → Except CaptureError (Option RawPacket) × σ
  stats : σ → CaptureStats

namespace PacketSource

variable {E σ : Type}

/-- The packets that successive calls of `next_packet` read. -/
inductive Reads (src : PacketSource E σ) (s : σ) : List RawPacket → σ → Prop where
  | nil : Reads src s [] s
  | snoc {raws : List RawPacket} {s₁ s₂ : σ} {raw : RawPacket} (e : E) (reads : Reads src s raws s₁)
      (next : src.nextPacket e s₁ = (.ok (some raw), s₂)) : Reads src s (raws ++ [raw]) s₂

end PacketSource

/-- `MockSource`. -/
structure MockSource where
  packets : List (SystemTime × List UInt8)
  linkType : UInt16
  cursor : Nat := 0

/-- The `PacketSource` implementation of `MockSource`. -/
def mockSource : PacketSource Unit MockSource where
  nextPacket := fun _ s =>
    match s.packets[s.cursor]? with
    | none => (.ok none, s)
    | some (ts, bytes) =>
        (.ok (some ⟨bytes, ⟨ts, bytes.length, bytes.length, s.linkType⟩⟩), { s with cursor := s.cursor + 1 })
  stats := fun s => { received := s.cursor }

/-! ## The pump -/

/-- The local variables of `pump`. -/
structure PumpState (σ : Type) where
  source : σ
  report : PumpReport := {}
  lastTs : Option SystemTime := none

/-- How the thread that runs `pump` ends. -/
inductive PumpEnd where
  | panicked
  | returned (result : Except CaptureError PumpReport)

/-- The report with one more packet. -/
def PumpReport.count (report : PumpReport) (lastTs : Option SystemTime) (raw : RawPacket) : PumpReport :=
  { report with
    timestampsRegressed :=
      if lastTs.any fun t => raw.meta_.timestamp < t then report.timestampsRegressed + 1
      else report.timestampsRegressed
    packets := report.packets + 1
    bytes := report.bytes + raw.meta_.origlen }

/-- One turn of a pump's loop, up to `tx.send`; what is sent for a packet is `work`, and a panic of it ends the
thread. The loops of `pump` and of `run_packets` are this one. -/
def pumpTurn {E σ I : Type} (src : PacketSource E σ) (work : RawPacket → Option I) (limit : Option Nat) (e : E)
    (s : PumpState σ) : Turn (PumpState σ) I PumpEnd :=
  if limit.all fun l => s.report.packets < l then
    match src.nextPacket e s.source with
    | (.error err, _) => .finish (.returned (.error err))
    | (.ok none, source) => .finish (.returned (.ok { s.report with stats := src.stats source }))
    | (.ok (some raw), source) =>
        match work raw with
        | none => .finish .panicked
        | some item =>
            .yield
              { source := source
                report := s.report.count s.lastTs raw
                lastTs := some (s.lastTs.elim raw.meta_.timestamp fun t => max t raw.meta_.timestamp) }
              item
  else .finish (.returned (.ok { s.report with stats := src.stats s.source }))

/-- The work of `pump`: the packet is dissected. -/
def dissectRaw (engine : Engine) (opts : ParseOpts) (raw : RawPacket) : Option DissectedPacket :=
  engine.dissect raw.bytes raw.meta_ opts

/-! ## What a pump has done -/

/-- The packets that came behind one of a later time. -/
def regressions (raws : List RawPacket) : Nat :=
  (List.range raws.length).countP fun i =>
    raws[i]?.any fun raw => (raws.take i).any fun r => raw.meta_.timestamp < r.meta_.timestamp

/-- The account of the packets read, and the counters of the source. -/
def reportOf (raws : List RawPacket) (stats : CaptureStats) : PumpReport where
  packets := raws.length
  bytes := (raws.map fun raw => raw.meta_.origlen).sum
  timestampsRegressed := regressions raws
  stats := stats

/-- `items` went out for the packets `raws`, and the state of the pump accounts for them. -/
structure Pumps {E σ I : Type} (src : PacketSource E σ) (work : RawPacket → Option I) (limit : Option Nat) (s₀ : σ)
    (raws : List RawPacket) (items : List I) (s : PumpState σ) : Prop where
  reads : src.Reads s₀ raws s.source
  items : raws.mapM work = some items
  report : s.report = reportOf raws {}
  /-- The clock of the pump is the latest time so far. -/
  latest : ∀ t : SystemTime, (s.lastTs.any fun last => t < last) = raws.any fun r => t < r.meta_.timestamp
  limited : ∀ l ∈ limit, raws.length ≤ l

section Pump

variable {E σ I : Type} {src : PacketSource E σ} {work : RawPacket → Option I} {limit : Option Nat} {s₀ : σ}
  {raws : List RawPacket} {items : List I} {s : PumpState σ}

theorem regressions_snoc (raws : List RawPacket) (raw : RawPacket) :
    regressions (raws ++ [raw]) = regressions raws +
      if raws.any fun r => raw.meta_.timestamp < r.meta_.timestamp then 1 else 0 := by
  rw [regressions, List.length_append, List.length_singleton, List.range_succ, List.countP_append,
    List.countP_singleton]
  congr 1
  · rw [regressions]
    apply List.countP_congr
    intro i hi
    have hlt : i < raws.length := List.mem_range.1 hi
    rw [List.getElem?_append_left hlt, List.take_append_of_le_length (Nat.le_of_lt hlt)]
  · simp

theorem mapM_snoc {raw : RawPacket} {item : I} (hitems : raws.mapM work = some items) (hitem : work raw = some item) :
    (raws ++ [raw]).mapM work = some (items ++ [item]) := by
  simp [List.mapM_append, hitems, hitem]

theorem Pumps.init (src : PacketSource E σ) (work : RawPacket → Option I) (limit : Option Nat) (s₀ : σ) :
    Pumps src work limit s₀ [] [] { source := s₀ } where
  reads := .nil
  items := rfl
  report := rfl
  latest := fun _ => rfl
  limited := fun _ _ => Nat.zero_le _

/-- What a turn that sends a packet has done. -/
theorem pumpTurn_yield {e : E} {s' : PumpState σ} {item : I}
    (hturn : pumpTurn src work limit e s = .yield s' item) :
    ∃ raw, (∀ l ∈ limit, s.report.packets < l) ∧ src.nextPacket e s.source = (.ok (some raw), s'.source) ∧
      work raw = some item ∧ s'.report = s.report.count s.lastTs raw ∧
      s'.lastTs = some (s.lastTs.elim raw.meta_.timestamp fun t => max t raw.meta_.timestamp) := by
  rw [pumpTurn] at hturn
  split at hturn
  next hlimit =>
    simp only [Option.all_eq_true, decide_eq_true_eq] at hlimit
    split at hturn
    next => cases hturn
    next => cases hturn
    next raw source hnext =>
      split at hturn
      next => cases hturn
      next item' hwork =>
        cases hturn
        exact ⟨raw, hlimit, hnext, hwork, rfl, rfl⟩
  next => cases hturn

/-- A turn that sends a packet keeps the account. -/
theorem Pumps.turn {e : E} {s' : PumpState σ} {item : I}
    (h : Pumps src work limit s₀ raws items s)
    (hturn : pumpTurn src work limit e s = .yield s' item) :
    ∃ raw, Pumps src work limit s₀ (raws ++ [raw]) (items ++ [item]) s' := by
  obtain ⟨raw, hlimit, hnext, hwork, hreport, hlast⟩ := pumpTurn_yield hturn
  refine ⟨raw, h.reads.snoc e hnext, mapM_snoc h.items hwork, ?_, ?_, ?_⟩
  · rw [hreport, PumpReport.count, h.latest, h.report]
    simp only [reportOf, regressions_snoc, List.length_append, List.length_singleton, List.map_append, List.map_cons,
      List.map_nil, List.sum_append, List.sum_singleton]
    split <;> rfl
  · intro t
    rw [hlast, List.any_append, ← h.latest t]
    cases s.lastTs with
    | none => simp
    | some last => simp
  · intro l hl
    have hlt := hlimit l hl
    rw [h.report] at hlt
    rw [List.length_append]
    exact hlt

/-- What a pump is when it ends: stopped by the source's error or by a panic, or returned with the
account of the packets read, because the source ended or the limit is reached. -/
inductive PumpStop (src : PacketSource E σ) (work : RawPacket → Option I) (limit : Option Nat)
    (raws : List RawPacket) (source : σ) : PumpEnd → Prop where
  | error (e : E) (err : CaptureError) (source' : σ) (next : src.nextPacket e source = (.error err, source')) :
      PumpStop src work limit raws source (.returned (.error err))
  | ended (e : E) (source' : σ) (next : src.nextPacket e source = (.ok none, source')) :
      PumpStop src work limit raws source (.returned (.ok (reportOf raws (src.stats source'))))
  | limited (limit_eq : limit = some raws.length) :
      PumpStop src work limit raws source (.returned (.ok (reportOf raws (src.stats source))))
  | panicked (e : E) (raw : RawPacket) (source' : σ) (next : src.nextPacket e source = (.ok (some raw), source'))
      (panics : work raw = none) : PumpStop src work limit raws source .panicked

/-- How a turn can end the pump. -/
theorem Pumps.finish {e : E} {r : PumpEnd} (h : Pumps src work limit s₀ raws items s)
    (hturn : pumpTurn src work limit e s = .finish r) : PumpStop src work limit raws s.source r := by
  have hstats : ∀ stats : CaptureStats, { s.report with stats := stats } = reportOf raws stats := by
    intro stats
    rw [h.report]
    rfl
  rw [pumpTurn] at hturn
  split at hturn
  next =>
    split at hturn
    next err source' hnext =>
      cases hturn
      exact .error e err source' hnext
    next source' hnext =>
      cases hturn
      rw [hstats]
      exact .ended e source' hnext
    next raw source' hnext =>
      split at hturn
      next hwork =>
        cases hturn
        exact .panicked e raw source' hnext hwork
      next => cases hturn
  next hlimit =>
    cases hturn
    rw [hstats]
    cases hl : limit with
    | none =>
        rw [hl] at hlimit
        exact absurd rfl hlimit
    | some l =>
        -- the limit was not passed, so it is what was read
        have hle := h.limited l hl
        simp only [hl, h.report, reportOf, Option.all_some, decide_eq_true_eq, Nat.not_lt] at hlimit
        rw [Nat.le_antisymm hlimit hle]
        exact .limited rfl

/-- Only an unregistered entry makes a walk panic. -/
theorem layers_eq {engine : Engine} {opts : ParseOpts}
    (hentry : ∀ name ∈ opts.entry, (engine.pluginByName name).isSome) (bytes : List UInt8) (meta_ : PacketMeta) :
    engine.layers bytes meta_ opts = some { engine := engine, bytes := bytes, meta_ := meta_, opts := opts } := by
  have hany : (opts.entry.any fun name => (engine.pluginByName name).isNone) = false := by
    rw [Option.any_eq_false]
    intro name hname
    have hsome := hentry name hname
    cases hplugin : engine.pluginByName name with
    | none =>
        rw [hplugin] at hsome
        cases hsome
    | some p => simp
  simp [Engine.layers, hany]

/-- The packets that a mock source has left. -/
def MockSource.left (s : MockSource) : Nat := s.packets.length - s.cursor

/-- A packet read is one less left. -/
theorem MockSource.left_lt {e : Unit} {s s' : MockSource} {raw : RawPacket}
    (hnext : mockSource.nextPacket e s = (.ok (some raw), s')) : s'.left < s.left := by
  simp only [mockSource] at hnext
  split at hnext
  next => cases hnext
  next ts bytes hget =>
    cases hnext
    obtain ⟨hlt, -⟩ := List.getElem?_eq_some_iff.1 hget
    simp only [MockSource.left]
    omega

end Pump

/-- The packets that a mock source is still to yield. -/
def MockSource.raws (s : MockSource) : List RawPacket :=
  (s.packets.drop s.cursor).map fun x => ⟨x.2, ⟨x.1, x.2.length, x.2.length, s.linkType⟩⟩

end Pktflow.Capture
