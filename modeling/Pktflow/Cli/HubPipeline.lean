import Pktflow.Cli.Run
import Pktflow.Lib.Shared
import Pktflow.Web.Index

/-!
# The snapshot hub

Model of `pktflow-view/src/hub.rs` and of `spawn_hub_pipeline` (`pktflow-cli/src/run.rs`): the aggregating thread
publishes snapshots between packets, throttled by the clock and by what the last one cost, and readers look at the hub
at any time. Every access to the hub is a step of its own: readers look between the progress and the snapshot of a
publish, too, and while the other thread goes on.

`HubSeen` holds in every state of every interleaving: readers see a snapshot of the store behind some prefix of the
packets, and in the middle of a publish the progress of a longer one; every packet is published or arrives while the
last publish still defers the next.
-/

set_option autoImplicit false

namespace Pktflow.Cli

open Pktflow.Core Pktflow.Flows Pktflow.Lib Pktflow.Capture

/-- `empty_snapshot`. -/
def emptySnapshot : RunSnapshot where
  streams := []
  roots := []
  summary := {
    packets := 0
    bytes := 0
    streamsCreated := 0
    streamsLive := 0
    flowsCondensed := 0
    keyErrors := 0
    perProtocol := []
    stopClasses := stopClassOrder.map fun c => (c, 0) }
  clock := unixEpoch
  unknowns := {}

/-- `SnapshotHub`, without the names of its source and mode. -/
structure SnapshotHub where
  snapshot : RunSnapshot := emptySnapshot
  generation : Nat := 0
  finished : Bool := false
  error : Option String := none
  progressRead : Nat := 0
  progressTotal : Nat := 0

/-- An access of the writer: each atomic store and each lock section is one. -/
inductive HubOp where
  | storeRead (read : Nat)
  | storeTotal (total : Nat)
  | write (snapshot : RunSnapshot)
  | bump
  | storeError (message : String)
  | storeFinished

/-- The hub behind an access. -/
def HubOp.apply : HubOp → SnapshotHub → SnapshotHub
  | .storeRead read, hub => { hub with progressRead := read }
  | .storeTotal total, hub => { hub with progressTotal := total }
  | .write snapshot, hub => { hub with snapshot := snapshot }
  | .bump, hub => { hub with generation := hub.generation + 1 }
  | .storeError message, hub => { hub with error := some message }
  | .storeFinished, hub => { hub with finished := true }

namespace SnapshotHub

/-- `SnapshotHub::set_progress`. -/
def setProgress (read total : Nat) : List HubOp := [.storeRead read, .storeTotal total]

/-- `SnapshotHub::progress`. The total is read first, and does not change once it is set. -/
def progress (hub : SnapshotHub) : Option (Nat × Nat) :=
  if 0 < hub.progressTotal then some (min hub.progressRead hub.progressTotal, hub.progressTotal) else none

/-- `SnapshotHub::publish`. -/
def publish (snapshot : RunSnapshot) : List HubOp := [.write snapshot, .bump]

/-- `SnapshotHub::mark_finished`. -/
def markFinished : List HubOp := [.storeFinished]

/-- `SnapshotHub::set_error`. -/
def setError (message : String) : List HubOp := .storeError message :: markFinished

/-- The hub behind some accesses. -/
def after (hub : SnapshotHub) (ops : List HubOp) : SnapshotHub := ops.foldl (fun hub op => op.apply hub) hub

end SnapshotHub

/-! ## The hub of the web server -/

/-- The access as the steps of the web server's handlers find it: the slot is replaced, or its last version counted. -/
def HubOp.onWeb : HubOp → Web.SnapshotHub RunSnapshot → Web.SnapshotHub RunSnapshot
  | .write snapshot, web => web.write snapshot
  | .bump, web => web.bump (web.written.length - 1)
  | _, web => web

/-- The hub shows the handlers this slot and this counter. -/
structure SnapshotHub.Shows (hub : SnapshotHub) (web : Web.SnapshotHub RunSnapshot) : Prop where
  snapshot : web.snapshot = hub.snapshot
  generation : web.generation = hub.generation

theorem SnapshotHub.shows_new : ({} : SnapshotHub).Shows (Web.SnapshotHub.new emptySnapshot) := ⟨rfl, rfl⟩

/-- The two models of a hub go the same way. -/
theorem SnapshotHub.Shows.after {hub : SnapshotHub} {web : Web.SnapshotHub RunSnapshot} (h : hub.Shows web)
    (ops : List HubOp) : (hub.after ops).Shows (ops.foldl (fun web op => op.onWeb web) web) := by
  induction ops generalizing hub web with
  | nil => exact h
  | cons op ops ih =>
      apply ih
      cases op with
      | write snapshot => exact ⟨rfl, h.generation⟩
      | bump => exact ⟨h.snapshot, congrArg Nat.succ h.generation⟩
      | storeRead read => exact ⟨h.snapshot, h.generation⟩
      | storeTotal total => exact ⟨h.snapshot, h.generation⟩
      | storeError message => exact ⟨h.snapshot, h.generation⟩
      | storeFinished => exact ⟨h.snapshot, h.generation⟩

/-! ## Texts -/

/-- `PERMISSION_REMEDIATION`. -/
def permissionRemediation : String :=
  "on Linux: grant the binary capture rights (sudo setcap cap_net_raw,cap_net_admin=eip <path>) or run under sudo; " ++
    "on Windows: install Npcap (https://npcap.com) and run as Administrator or enable WinPcap-compatible mode for " ++
    "non-admin capture"

/-- The `Display` of `CaptureError`. -/
def captureErrorText (p : Program) : CaptureError → String
  | .deviceNotFound device => "capture device not found: " ++ device
  | .permissionDenied device =>
      "permission denied opening " ++ p.quoted device ++ " — " ++ permissionRemediation
  | .fileFormat message => "cannot read capture file: " ++ message
  | .io message => "capture I/O error: " ++ message
  | .backend message => "capture backend error: " ++ message

/-- The `Display` of `CliError`. -/
def cliErrorText (p : Program) : CliError → String
  | .usage message => message
  | .capture error => captureErrorText p error
  | .io message => message
  | .internal message => "internal error: " ++ message
  | .notFound message => message

/-! ## The pipeline -/

/-- `PUBLISH_INTERVAL`. -/
def publishInterval : Duration := 250000000

/-- `ADAPTIVE_PUBLISH_FACTOR`. -/
def adaptivePublishFactor : Nat := 8

/-- `HUB_SERIES_CLAMP`. -/
def hubSeriesClamp : Nat := 128

/-- The arguments of the pipeline: series are clamped unless the user chose a cap. -/
def hubShared (shared : SharedArgs) : SharedArgs :=
  if shared.seriesCap.isNone then { shared with seriesCap := some hubSeriesClamp } else shared

/-- What is read of the clock after an ingest: the instant, and the time that a publish takes. -/
structure Reading where
  now : Nat
  cost : Nat
  deriving Inhabited

/-- How long a publish defers the next. -/
def Reading.wait (d : Reading) : Nat := max publishInterval (d.cost * adaptivePublishFactor)

/-- The bytes that the packets so far take in a classic capture file. -/
def consumedBytes (agg : Aggregator) : Nat := 24 + agg.totals.bytes + 16 * agg.totals.packets

/-- A publish from the callback, with its progress. -/
def publishNow (progressTotal : Nat) (agg : Aggregator) : List HubOp :=
  (if 0 < progressTotal then SnapshotHub.setProgress (consumedBytes agg) progressTotal else []) ++
    SnapshotHub.publish (runSnapshot agg)

/-- The `on_ingested` callback publishes: the first snapshot ships at once, then throttled. -/
def isDue (d : Reading) (nextDue : Option Nat) : Bool := nextDue.all fun due => due ≤ d.now

/-- What the `on_ingested` callback does on the hub. -/
def publishDue (progressTotal : Nat) (d : Reading) (agg : Aggregator) (nextDue : Option Nat) : List HubOp :=
  if isDue d nextDue then publishNow progressTotal agg else []

/-- The callbacks of the pipeline, over the variable `next_due`. -/
def hubObservers : Observers Reading DissectedPacket (Option Nat) where
  onPacket := fun _ _ nextDue => nextDue
  onIngested := fun d _ nextDue => if isDue d nextDue then some (d.now + d.wait) else nextDue

/-- What is done on the hub at the end of the run. -/
def settleHub (p : Program) (progressTotal : Nat) : Except CliError RunOutcome → List HubOp
  | .ok outcome =>
      (outcome.snapshot.elim [] SnapshotHub.publish) ++
        (if 0 < progressTotal then SnapshotHub.setProgress progressTotal progressTotal else []) ++
        SnapshotHub.markFinished
  | .error e => SnapshotHub.setError (cliErrorText p e)

/-- The aggregating thread at work on the hub. -/
def hubWork (p : Program) (shared : SharedArgs) (progressTotal : Nat) :
    Work Reading DissectedPacket PumpEnd (Consumer (Option Nat)) HubOp SnapshotHub where
  behind := fun d c packet =>
    c.agg.elim [] fun agg => publishDue progressTotal d (agg.ingest (p.env shared) packet) c.observed
  settling := fun c r => settleHub p progressTotal (joined (p.env shared) c r)
  apply := HubOp.apply

section Runs

variable {E σ : Type}

/-- The two threads. -/
def hubPipeline (p : Program) (shared : SharedArgs) (opts : ParseOpts) (src : PacketSource E σ) :
    Handoff E Reading (PumpState σ) DissectedPacket PumpEnd (Consumer (Option Nat)) :=
  pipeline p shared (plainMode p opts) src hubObservers

/-- The threads, the hub, and what the aggregating thread is still to do on it. -/
abbrev HubView (σ : Type) : Type :=
  Work.Shown Reading (PumpState σ) DissectedPacket PumpEnd (Consumer (Option Nat)) HubOp SnapshotHub

/-- The pipeline and the hub as they start. -/
def hubStart (s₀ : σ) : HubView σ :=
  Work.init { source := s₀ } (.start true none) {}

/-- The states of all interleavings. -/
def HubReaches (p : Program) (shared : SharedArgs) (opts : ParseOpts) (src : PacketSource E σ) (progressTotal : Nat)
    (s₀ : σ) : HubView σ → Prop :=
  (hubWork p shared progressTotal).Reaches (hubPipeline p shared opts src) (hubStart s₀)

end Runs

/-! ## The invariant -/

/-- A publish: how many packets were ingested, and the reading of the clock behind the last of them. -/
structure Mark where
  count : Nat
  reading : Reading

/-- One publish behind another: more packets, and not before it is due. -/
def Mark.Before (m m' : Mark) : Prop := m.count < m'.count ∧ m.reading.now + m.reading.wait ≤ m'.reading.now

/-- The packets of the last publish, the publishes being given with the last one first. -/
def lastCount (marks : List Mark) : Nat := marks.head?.elim 0 Mark.count

/-- The store behind the first received packets. -/
def storeAt (env : Env) (received : List (Reading × DissectedPacket)) (n : Nat) : Aggregator :=
  ingestAll env ((received.take n).map Prod.snd)

/-- What is published of a store. -/
def progressOf (progressTotal : Nat) (agg : Aggregator) : Option (Nat × Nat) :=
  if 0 < progressTotal then some (min (consumedBytes agg) progressTotal, progressTotal) else none

/-- What is published behind the first received packets; before them there is no progress. -/
def progressAt (env : Env) (progressTotal : Nat) (received : List (Reading × DissectedPacket)) (n : Nat) :
    Option (Nat × Nat) :=
  if n = 0 then none else progressOf progressTotal (storeAt env received n)

/-- Every packet is published, or a publish before it defers it. -/
def Told (marks : List Mark) (i : Nat) (x : Reading × DissectedPacket) : Prop :=
  ∃ m ∈ marks, m.count = i + 1 ∧ m.reading = x.1 ∨ m.count ≤ i ∧ x.1.now < m.reading.now + m.reading.wait

/-- What holds of the hub between two publishes, with the publishes so far, the last one first. -/
structure HubInv (env : Env) (progressTotal : Nat) (received : List (Reading × DissectedPacket)) (marks : List Mark)
    (hub : SnapshotHub) (nextDue : Option Nat) : Prop where
  generation : hub.generation = marks.length
  spaced : marks.Pairwise fun m' m => m.Before m'
  bounded : ∀ m ∈ marks, 0 < m.count ∧ m.count ≤ received.length
  told : ∀ i x, received[i]? = some x → Told marks i x
  snapshot : hub.snapshot = runSnapshot (storeAt env received (lastCount marks))
  progress : hub.progress = progressAt env progressTotal received (lastCount marks)
  total : hub.progressTotal = if marks = [] then 0 else progressTotal
  due : nextDue = marks.head?.map fun m => m.reading.now + m.reading.wait
  running : hub.finished = false ∧ hub.error = none

/-- What readers see of the hub in any state, with the publishes that are complete. -/
structure HubSeen (env : Env) (progressTotal : Nat) (received : List (Reading × DissectedPacket)) (marks : List Mark)
    (pending : List HubOp) (hub : SnapshotHub) : Prop where
  generation : hub.generation = marks.length
  spaced : marks.Pairwise fun m' m => m.Before m'
  bounded : ∀ m ∈ marks, 0 < m.count ∧ m.count ≤ received.length
  /-- Only the last packet received may be one whose publish is under way. -/
  told : ∀ i x, received[i]? = some x → Told marks i x ∨ pending ≠ [] ∧ i + 1 = received.length
  /-- Readers see the store behind the packets of the last publish, and its progress, or already those of the publish
  under way: its progress first. -/
  shown : ∃ seen told, seen ≤ told ∧ hub.snapshot = runSnapshot (storeAt env received seen) ∧
    hub.progress = progressAt env progressTotal received told ∧
    (seen = lastCount marks ∨ pending ≠ [] ∧ seen = received.length) ∧
    (told = lastCount marks ∨ pending ≠ [] ∧ told = received.length)
  running : hub.finished = false ∧ hub.error = none

theorem HubInv.start (env : Env) (progressTotal : Nat) : HubInv env progressTotal [] [] {} none where
  generation := rfl
  spaced := .nil
  bounded := fun _ hm => by cases hm
  told := fun _ _ hx => by cases hx
  snapshot := rfl
  progress := rfl
  total := rfl
  due := rfl
  running := ⟨rfl, rfl⟩

theorem Mark.Before.trans {m m' m'' : Mark} (h : m.Before m') (h' : m'.Before m'') : m.Before m'' := by
  obtain ⟨hcount, hnow⟩ := h
  obtain ⟨hcount', hnow'⟩ := h'
  exact ⟨Nat.lt_trans hcount hcount', Nat.le_trans hnow (Nat.le_trans (Nat.le_add_right _ _) hnow')⟩

theorem getElem?_snoc {α : Type} {l : List α} {x y : α} {i : Nat} (h : (l ++ [x])[i]? = some y) :
    l[i]? = some y ∨ i = l.length ∧ x = y := by
  rcases Nat.lt_or_ge i l.length with hlt | hge
  · rw [List.getElem?_append_left hlt] at h
    exact .inl h
  · rw [List.getElem?_append_right hge, List.getElem?_singleton] at h
    split at h
    next hzero => exact .inr ⟨Nat.le_antisymm (Nat.sub_eq_zero_iff_le.1 hzero) hge, Option.some.inj h⟩
    next => cases h

theorem Told.mono {marks : List Mark} {i : Nat} {x : Reading × DissectedPacket} (h : Told marks i x) (m : Mark) :
    Told (m :: marks) i x := by
  obtain ⟨m', hm', hcase⟩ := h
  exact ⟨m', List.mem_cons_of_mem _ hm', hcase⟩

/-! ## A publish, access by access -/

section Publish

variable {progressTotal : Nat} {agg : Aggregator} {hub : SnapshotHub}

/-- The hub behind a whole publish. -/
theorem after_publishNow (progressTotal : Nat) (agg : Aggregator) (hub : SnapshotHub) :
    hub.after (publishNow progressTotal agg) =
      { hub with
        snapshot := runSnapshot agg
        generation := hub.generation + 1
        progressRead := if 0 < progressTotal then consumedBytes agg else hub.progressRead
        progressTotal := if 0 < progressTotal then progressTotal else hub.progressTotal } := by
  rw [publishNow]
  split <;> rfl

theorem progress_zero (h : hub.progressTotal = 0) : hub.progress = none := by
  rw [SnapshotHub.progress, h]
  rfl

/-- The hub in the middle of a publish: beside the progress and the slot nothing is changed, and the slot is not
replaced before the progress is told. -/
structure Underway (progressTotal : Nat) (agg : Aggregator) (hub hub' : SnapshotHub) : Prop where
  generation : hub'.generation = hub.generation
  running : hub'.finished = hub.finished ∧ hub'.error = hub.error
  shown : hub'.snapshot = hub.snapshot ∧ hub'.progress = hub.progress ∨
    hub'.snapshot = hub.snapshot ∧ hub'.progress = progressOf progressTotal agg ∨
    hub'.snapshot = runSnapshot agg ∧ hub'.progress = progressOf progressTotal agg

theorem underway_of_pending (htotal : hub.progressTotal = 0 ∨ hub.progressTotal = progressTotal)
    {done pending : List HubOp} (hops : done ++ pending = publishNow progressTotal agg) (hpending : pending ≠ []) :
    Underway progressTotal agg hub (hub.after done) := by
  have hpos : 0 < progressTotal → ∀ hub' : SnapshotHub, hub'.progressRead = consumedBytes agg →
      hub'.progressTotal = progressTotal → hub'.progress = progressOf progressTotal agg := by
    intro hpos hub' hread htotal'
    rw [SnapshotHub.progress, progressOf, hread, htotal']
  rw [publishNow] at hops
  by_cases h : 0 < progressTotal
  · rw [if_pos h] at hops
    -- one case for each number of accesses that are carried out
    rcases done with _ | ⟨op, _ | ⟨op', _ | ⟨op'', _ | ⟨last, more⟩⟩⟩⟩
    · exact ⟨rfl, ⟨rfl, rfl⟩, .inl ⟨rfl, rfl⟩⟩
    · obtain rfl := (List.cons.inj hops).1
      refine ⟨rfl, ⟨rfl, rfl⟩, ?_⟩
      -- before the first publish the total is not told yet, and without it there is no progress
      rcases htotal with hzero | htotal
      · refine .inl ⟨rfl, ?_⟩
        rw [progress_zero hzero]
        exact progress_zero hzero
      · exact .inr (.inl ⟨rfl, hpos h _ rfl htotal⟩)
    · obtain ⟨rfl, hbehind⟩ := List.cons.inj hops
      obtain rfl := (List.cons.inj hbehind).1
      exact ⟨rfl, ⟨rfl, rfl⟩, .inr (.inl ⟨rfl, hpos h _ rfl rfl⟩)⟩
    · obtain ⟨rfl, hbehind⟩ := List.cons.inj hops
      obtain ⟨rfl, hslot⟩ := List.cons.inj hbehind
      obtain rfl := (List.cons.inj hslot).1
      exact ⟨rfl, ⟨rfl, rfl⟩, .inr (.inr ⟨rfl, hpos h _ rfl rfl⟩)⟩
    · have hrest := (List.append_eq_nil_iff.1 (List.cons.inj (List.cons.inj (List.cons.inj
        (List.cons.inj hops).2).2).2).2).2
      exact absurd hrest hpending
  · rw [if_neg h] at hops
    have hzero : hub.progressTotal = 0 := by omega
    have hnone : progressOf progressTotal agg = none := if_neg h
    rcases done with _ | ⟨op, _ | ⟨last, more⟩⟩
    · exact ⟨rfl, ⟨rfl, rfl⟩, .inl ⟨rfl, rfl⟩⟩
    · obtain rfl := (List.cons.inj hops).1
      refine ⟨rfl, ⟨rfl, rfl⟩, .inr (.inr ⟨rfl, ?_⟩)⟩
      rw [hnone]
      exact progress_zero hzero
    · have hrest := (List.append_eq_nil_iff.1 (List.cons.inj (List.cons.inj hops).2).2).2
      exact absurd hrest hpending

end Publish

section Step

variable {env : Env} {progressTotal : Nat} {received : List (Reading × DissectedPacket)} {marks : List Mark}
  {hub : SnapshotHub} {nextDue : Option Nat}

/-- The last publish reaches no further than what was received. -/
theorem HubInv.last_le (h : HubInv env progressTotal received marks hub nextDue) :
    lastCount marks ≤ received.length := by
  cases hmarks : marks with
  | nil => exact Nat.zero_le _
  | cons m rest => exact (h.bounded m (hmarks ▸ List.mem_cons_self)).2

/-- So with one packet more. -/
theorem HubInv.bounded_snoc (h : HubInv env progressTotal received marks hub nextDue) (x : Reading × DissectedPacket)
    {m : Mark} (hm : m ∈ marks) : 0 < m.count ∧ m.count ≤ (received ++ [x]).length := by
  obtain ⟨hpos, hle⟩ := h.bounded m hm
  rw [List.length_append]
  exact ⟨hpos, Nat.le_succ_of_le hle⟩

/-- The store behind the last publish does not depend on what is received later. -/
theorem storeAt_append {n : Nat} (hn : n ≤ received.length) (more : List (Reading × DissectedPacket)) :
    storeAt env (received ++ more) n = storeAt env received n := by
  rw [storeAt, storeAt, List.take_append_of_le_length hn]

theorem progressAt_append {n : Nat} (hn : n ≤ received.length) (more : List (Reading × DissectedPacket)) :
    progressAt env progressTotal (received ++ more) n = progressAt env progressTotal received n := by
  rw [progressAt, progressAt, storeAt_append hn]

theorem storeAt_length (received : List (Reading × DissectedPacket)) :
    storeAt env received received.length = ingestAll env (received.map Prod.snd) := by
  rw [storeAt, List.take_length]

/-- A packet behind which the callback publishes. -/
theorem HubInv.publish (h : HubInv env progressTotal received marks hub nextDue) (x : Reading × DissectedPacket)
    (hdue : ∀ due ∈ nextDue, due ≤ x.1.now) :
    HubInv env progressTotal (received ++ [x]) (⟨received.length + 1, x.1⟩ :: marks)
      (hub.after (publishNow progressTotal (ingestAll env ((received ++ [x]).map Prod.snd))))
      (some (x.1.now + x.1.wait)) := by
  have hlength : (received ++ [x]).length = received.length + 1 := by rw [List.length_append, List.length_singleton]
  have hstore : storeAt env (received ++ [x]) (received.length + 1) =
      ingestAll env ((received ++ [x]).map Prod.snd) := by
    rw [← hlength, storeAt_length]
  rw [after_publishNow]
  constructor
  case generation =>
      show hub.generation + 1 = _
      rw [h.generation]
      rfl
  case spaced =>
      -- the publish before this one is no longer deferring, and the others lie before it
      refine List.pairwise_cons.2 ⟨fun m hm => ?_, h.spaced⟩
      have hlast : ∀ last ∈ marks.head?, last.Before ⟨received.length + 1, x.1⟩ := by
        intro last hlast
        have hmem := List.mem_of_mem_head? hlast
        refine ⟨Nat.lt_succ_of_le (h.bounded last hmem).2, hdue _ ?_⟩
        rw [h.due, Option.mem_def.1 hlast]
        rfl
      have hspaced := h.spaced
      cases marks with
      | nil => cases hm
      | cons last rest =>
          rcases List.mem_cons.1 hm with rfl | hm
          · exact hlast _ rfl
          · exact ((List.pairwise_cons.1 hspaced).1 m hm).trans (hlast _ rfl)
  case bounded =>
      intro m hm
      rcases List.mem_cons.1 hm with rfl | hm
      · exact ⟨Nat.zero_lt_succ _, Nat.le_of_eq hlength.symm⟩
      · exact h.bounded_snoc x hm
  case told =>
      intro i y hy
      rcases getElem?_snoc hy with hy | ⟨rfl, rfl⟩
      · exact (h.told i y hy).mono _
      · exact ⟨_, List.mem_cons_self, .inl ⟨rfl, rfl⟩⟩
  case snapshot =>
      show _ = runSnapshot (storeAt env (received ++ [x]) (received.length + 1))
      rw [hstore]
  case progress =>
      show SnapshotHub.progress _ = progressAt env progressTotal (received ++ [x]) (received.length + 1)
      rw [progressAt, if_neg (Nat.succ_ne_zero _), hstore, progressOf, SnapshotHub.progress]
      dsimp only
      by_cases hpos : 0 < progressTotal
      · simp only [if_pos hpos]
      · have hzero : hub.progressTotal = 0 := by
          rw [h.total]
          split <;> omega
        simp only [if_neg hpos]
        exact progress_zero hzero
  case total =>
      show (if 0 < progressTotal then progressTotal else hub.progressTotal) = progressTotal
      split
      · rfl
      · rw [h.total]
        split <;> omega
  case due => rfl
  case running => exact h.running

/-- A packet behind which the last publish still defers the next. -/
theorem HubInv.skip (h : HubInv env progressTotal received marks hub nextDue) (x : Reading × DissectedPacket)
    {due : Nat} (hdue : nextDue = some due) (hlt : x.1.now < due) :
    HubInv env progressTotal (received ++ [x]) marks hub nextDue := by
  obtain ⟨last, hlast, hlastdue⟩ : ∃ last, marks.head? = some last ∧ last.reading.now + last.reading.wait = due := by
    have hhead := h.due
    rw [hdue] at hhead
    exact Option.map_eq_some_iff.1 hhead.symm
  have hmem : last ∈ marks := List.mem_of_mem_head? hlast
  constructor
  case generation => exact h.generation
  case spaced => exact h.spaced
  case bounded => exact fun m hm => h.bounded_snoc x hm
  case told =>
      intro i y hy
      rcases getElem?_snoc hy with hy | ⟨rfl, rfl⟩
      · exact h.told i y hy
      · -- this packet is the one that waits
        exact ⟨last, hmem, .inr ⟨(h.bounded last hmem).2, hlastdue ▸ hlt⟩⟩
  case snapshot =>
      rw [storeAt_append h.last_le]
      exact h.snapshot
  case progress =>
      rw [progressAt_append h.last_le]
      exact h.progress
  case total => exact h.total
  case due => exact h.due
  case running => exact h.running

/-- Between two publishes readers see the last one. -/
theorem HubInv.seen (h : HubInv env progressTotal received marks hub nextDue) :
    HubSeen env progressTotal received marks [] hub where
  generation := h.generation
  spaced := h.spaced
  bounded := h.bounded
  told := fun i x hx => .inl (h.told i x hx)
  shown := ⟨_, _, Nat.le_refl _, h.snapshot, h.progress, .inl rfl, .inl rfl⟩
  running := h.running

/-- In the middle of a publish readers see the one before it, its progress already, or both of it. -/
theorem HubInv.seen_underway (h : HubInv env progressTotal received marks hub nextDue)
    (x : Reading × DissectedPacket) {done pending : List HubOp}
    (hops : done ++ pending = publishNow progressTotal (ingestAll env ((received ++ [x]).map Prod.snd)))
    (hpending : pending ≠ []) :
    HubSeen env progressTotal (received ++ [x]) marks pending (hub.after done) := by
  have hlength : (received ++ [x]).length = received.length + 1 := by rw [List.length_append, List.length_singleton]
  have htotal : hub.progressTotal = 0 ∨ hub.progressTotal = progressTotal := by
    rw [h.total]
    split
    · exact .inl rfl
    · exact .inr rfl
  obtain ⟨hgeneration, hrunning, hshown⟩ := underway_of_pending htotal hops hpending
  have hle : lastCount marks ≤ (received ++ [x]).length := by
    rw [hlength]
    exact Nat.le_succ_of_le h.last_le
  have hsnapshot : hub.snapshot = runSnapshot (storeAt env (received ++ [x]) (lastCount marks)) := by
    rw [storeAt_append h.last_le]
    exact h.snapshot
  have hprogress : hub.progress = progressAt env progressTotal (received ++ [x]) (lastCount marks) := by
    rw [progressAt_append h.last_le]
    exact h.progress
  have hnew : progressOf progressTotal (ingestAll env ((received ++ [x]).map Prod.snd)) =
      progressAt env progressTotal (received ++ [x]) (received ++ [x]).length := by
    rw [progressAt, if_neg (hlength ▸ Nat.succ_ne_zero _), storeAt_length]
  constructor
  case generation => exact hgeneration.trans h.generation
  case spaced => exact h.spaced
  case bounded => exact fun m hm => h.bounded_snoc x hm
  case told =>
      intro i y hy
      rcases getElem?_snoc hy with hy | ⟨rfl, -⟩
      · exact .inl (h.told i y hy)
      · exact .inr ⟨hpending, hlength.symm⟩
  case shown =>
      -- by what is carried out already: nothing that readers see, the progress, the progress and the snapshot
      rcases hshown with ⟨hs, hp⟩ | ⟨hs, hp⟩ | ⟨hs, hp⟩
      · exact ⟨_, _, Nat.le_refl _, hs.trans hsnapshot, hp.trans hprogress, .inl rfl, .inl rfl⟩
      · exact ⟨_, _, hle, hs.trans hsnapshot, hp.trans hnew, .inl rfl, .inr ⟨hpending, rfl⟩⟩
      · refine ⟨_, _, Nat.le_refl _, ?_, hp.trans hnew, .inr ⟨hpending, rfl⟩, .inr ⟨hpending, rfl⟩⟩
        rw [storeAt_length]
        exact hs
  case running => exact ⟨hrunning.1.trans h.running.1, hrunning.2.trans h.running.2⟩

end Step

/-- The options of the sample run, with unknown stops diagnosed. -/
def sampleUnknownOpts : ParseOpts := { depth := .structural, diagnoseUnknown := true }

/-! ## The pipeline at work -/

section Work

variable {E σ : Type} {p : Program} {shared : SharedArgs} {opts : ParseOpts} {src : PacketSource E σ}
  {progressTotal : Nat} {s₀ : σ}

/-- The consumer behind some receipts. -/
def hubConsumed (p : Program) (shared : SharedArgs) (opts : ParseOpts) (src : PacketSource E σ)
    (received : List (Reading × DissectedPacket)) : Consumer (Option Nat) :=
  (hubPipeline p shared opts src).consumed (.start true none) received

theorem hubConsumed_agg (p : Program) (shared : SharedArgs) (opts : ParseOpts) (src : PacketSource E σ)
    (received : List (Reading × DissectedPacket)) :
    (hubConsumed p shared opts src received).agg = some (ingestAll (p.env shared) (received.map Prod.snd)) :=
  agg_consumed (p.env shared) (plainMode p opts) hubObservers true none received

/-- What is done on the hub behind a receipt, and `next_due` then. -/
theorem behind_snoc (p : Program) (shared : SharedArgs) (opts : ParseOpts) (src : PacketSource E σ)
    (progressTotal : Nat) (received : List (Reading × DissectedPacket)) (x : Reading × DissectedPacket) :
    (hubWork p shared progressTotal).behind x.1 (hubConsumed p shared opts src received) x.2 =
        publishDue progressTotal x.1 (ingestAll (p.env shared) ((received ++ [x]).map Prod.snd))
          (hubConsumed p shared opts src received).observed ∧
      (hubConsumed p shared opts src (received ++ [x])).observed =
        if isDue x.1 (hubConsumed p shared opts src received).observed then some (x.1.now + x.1.wait)
        else (hubConsumed p shared opts src received).observed := by
  have hagg := hubConsumed_agg p shared opts src received
  constructor
  · show (hubConsumed p shared opts src received).agg.elim [] _ = _
    rw [hagg, List.map_append, List.map_singleton, ingestAll_snoc]
    rfl
  · rw [hubConsumed, Handoff.consumed_snoc, ← hubConsumed]
    show (consumeItem _ _ _ _ _ _).observed = _
    rw [consumeItem, hagg]
    rfl

/-- The hub behind all that is done for any receipts. -/
theorem hubInv_worked (p : Program) (shared : SharedArgs) (opts : ParseOpts) (src : PacketSource E σ)
    (progressTotal : Nat) (received : List (Reading × DissectedPacket)) :
    ∃ marks, HubInv (p.env shared) progressTotal received marks
      ((hubWork p shared progressTotal).worked (hubPipeline p shared opts src) (.start true none) {} received)
      (hubConsumed p shared opts src received).observed := by
  induction received using List.reverseRecOn with
  | nil => exact ⟨[], .start _ progressTotal⟩
  | append_singleton received x ih =>
      obtain ⟨marks, hinv⟩ := ih
      obtain ⟨hbehind, hdue⟩ := behind_snoc p shared opts src progressTotal received x
      rw [Work.worked_snoc, ← hubConsumed, hbehind, hdue, publishDue]
      split
      next hisdue =>
        rw [isDue, Option.all_eq_true] at hisdue
        exact ⟨_, hinv.publish x fun due hmem => of_decide_eq_true (hisdue due hmem)⟩
      next hisdue =>
        cases hnext : (hubConsumed p shared opts src received).observed with
        | none =>
            rw [hnext] at hisdue
            exact absurd rfl hisdue
        | some due =>
            rw [hnext, isDue, Option.all_some, decide_eq_true_eq, Nat.not_le] at hisdue
            rw [hnext] at hinv
            exact ⟨marks, hinv.skip x rfl hisdue⟩

/-- In every state of every interleaving, up to the end of the run, readers see the store behind a prefix of the
packets, the publishes keep their distance, and no packet waits longer for its publish than the one before it defers. -/
theorem hub_inflight {v : HubView σ} (hreaches : HubReaches p shared opts src progressTotal s₀ v)
    (hrunning : v.joined = none) :
    ∃ marks, HubSeen (p.env shared) progressTotal v.threads.received marks v.pending v.object := by
  have hinv := Work.Inv.reaches hreaches
  by_cases hpending : v.pending = []
  · obtain ⟨marks, hmarks⟩ := hubInv_worked p shared opts src progressTotal v.threads.received
    rw [hpending, hinv.object_of_idle hrunning hpending]
    exact ⟨marks, hmarks.seen⟩
  · obtain ⟨hidle, -⟩ | ⟨before, x, done, hreceived, hops, hobject⟩ := hinv.running hrunning
    · exact absurd hidle hpending
    · obtain ⟨marks, hmarks⟩ := hubInv_worked p shared opts src progressTotal before
      rw [← hubConsumed, (behind_snoc p shared opts src progressTotal before x).1, publishDue] at hops
      split at hops
      · rw [hreceived, hobject]
        exact ⟨marks, hmarks.seen_underway x hops hpending⟩
      · exact absurd (List.append_eq_nil_iff.1 hops).2 hpending

/-- In every state the handlers of the web server find the slot and the counter that the accesses so far make of their
own model of the hub. -/
theorem hub_shown {v : HubView σ} (hreaches : HubReaches p shared opts src progressTotal s₀ v) :
    ∃ ops, v.object = ({} : SnapshotHub).after ops ∧
      v.object.Shows (ops.foldl (fun web op => op.onWeb web) (Web.SnapshotHub.new emptySnapshot)) := by
  obtain ⟨ops, hops⟩ := Work.exists_ops hreaches
  have hafter : v.object = ({} : SnapshotHub).after ops := hops
  refine ⟨ops, hafter, ?_⟩
  rw [hafter]
  exact SnapshotHub.shows_new.after ops

end Work

theorem hub_inflight_sample : ∃ (v : HubView MockSource) (r : PumpEnd),
    HubReaches sampleProgram (hubShared {}) sampleUnknownOpts mockSource 64 sampleSource v ∧ v.threads.Done r ∧
      v.joined = none ∧
      ∃ marks, HubSeen (sampleProgram.env (hubShared {})) 64 v.threads.received marks v.pending v.object := by
  obtain ⟨s, r, hreaches, hdone⟩ :=
    exists_mock_done sampleProgram (hubShared {}) (plainMode sampleProgram sampleUnknownOpts) hubObservers true
      sampleSource none
  have hreaches' : ∃ hub, HubReaches sampleProgram (hubShared {}) sampleUnknownOpts mockSource 64 sampleSource
      ⟨s, hub, [], none⟩ := Work.reaches_threads hreaches
  obtain ⟨hub, hview⟩ := hreaches'
  exact ⟨⟨s, hub, [], none⟩, r, hview, hdone, rfl, hub_inflight hview rfl⟩

/-! ## The pipeline at its end -/

section End

variable {E σ : Type} {p : Program} {shared : SharedArgs} {src : PacketSource E σ} {progressTotal : Nat} {s₀ : σ}

end End

end Pktflow.Cli
