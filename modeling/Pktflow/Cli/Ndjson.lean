import Pktflow.Flows.Turnover
import Pktflow.View.Record

/-!
# NDJSON events

Model of `NdjsonTracker` of `pktflow-cli/src/views.rs` and of the loop of `run_live` that drives it: after
every ingest a poll announces the live streams, throttled to one in 100 ms, while the eviction sink tells of
a closed stream at once. The clock readings of a poll are inputs, and so is what joining the pump gives: on an
error `run_live` returns before `finish`. `LiveRun.polled` is a ghost, the states seen by the polls that were
not throttled.
-/

set_option autoImplicit false

namespace Pktflow.Cli

open Pktflow.Core Pktflow.Flows Pktflow.View

/-- `std::time::Instant`, in nanoseconds. -/
abbrev Instant := Int

/-- The `event` member, with the `close_reason` of a close. -/
inductive EventKind where
  | streamNew
  | streamUpdate
  | streamClosed (reason : CloseReason)
  deriving DecidableEq, Repr

/-- One line of the output: a stream record and its event. -/
structure Event where
  kind : EventKind
  body : StreamRecord

/-- `NdjsonTracker`. -/
structure NdjsonTracker where
  lastPoll : Instant
  lastEmitted : HashMap StreamId Instant := ∅
  seqById : HashMap StreamId Nat := ∅

/-- The readings of the clock in one poll: for `elapsed`, for `last_poll` and for `now`. -/
structure PollClock where
  elapsed : Instant
  polled : Instant
  now : Instant

namespace NdjsonTracker

/-- `NdjsonTracker::new`: the last poll is taken to be two seconds ago. -/
def new (start : Instant) : NdjsonTracker := { lastPoll := start - 2000000000 }

/-- A poll does its work 100 ms after the last one. -/
def unthrottled (t : NdjsonTracker) (c : PollClock) : Bool := 100000000 ≤ c.elapsed - t.lastPoll

/-- What a poll has to tell of a stream. -/
def eventKind (lastEmitted : HashMap StreamId Instant) (now : Instant) (s : Stream) : Option EventKind :=
  match lastEmitted.lookup s.id with
  | none => some .streamNew
  | some last => if 1000000000 ≤ now - last then some .streamUpdate else none

/-- The loop of `poll` over the live streams. -/
def pollStream (fmt : Formats) (seqOf : StreamId → Option Nat) (now : Instant)
    (acc : HashMap StreamId Instant × List Event) (s : Stream) : HashMap StreamId Instant × List Event :=
  match eventKind acc.1 now s with
  | none => acc
  | some kind => (acc.1.insert s.id now, acc.2 ++ [⟨kind, streamRecord fmt s seqOf⟩])

/-- The display numbers of the live streams, added to those known. -/
def numbered (known : HashMap StreamId Nat) (streams : List Stream) : HashMap StreamId Nat :=
  streams.foldl (fun m s => m.insert s.id s.createdSeq) known

/-- `NdjsonTracker::poll`. -/
def poll (fmt : Formats) (t : NdjsonTracker) (c : PollClock) (a : Aggregator) :
    NdjsonTracker × List Event :=
  if t.unthrottled c then
    let seqById := numbered t.seqById a.streams
    let (lastEmitted, events) :=
      a.streams.foldl (pollStream fmt (fun id => seqById.lookup id) c.now) (t.lastEmitted, [])
    (⟨c.polled, lastEmitted, seqById⟩, events)
  else (t, [])

/-- The event of a closed stream. -/
def closedEvent (fmt : Formats) (seqById : HashMap StreamId Nat) (ev : EvictedStream) : Event :=
  ⟨.streamClosed ev.reason, streamRecord fmt ev.stream fun id => seqById.lookup id⟩

/-- `NdjsonTracker::on_evicted`. -/
def onEvicted (fmt : Formats) (t : NdjsonTracker) (ev : EvictedStream) : NdjsonTracker × Event :=
  ({ t with lastEmitted := t.lastEmitted.erase ev.stream.id }, closedEvent fmt t.seqById ev)

end NdjsonTracker

/-- What joining the pump's thread gives: its report, or an error of the capture or a panic. -/
inductive PumpJoin where
  | report
  | error
  deriving DecidableEq, Repr

/-- The state of `run_live` with the tracker's hooks, and the lines printed so far. -/
structure LiveRun where
  agg : Aggregator
  tracker : NdjsonTracker
  events : List Event
  /-- Ghost: the states that polls have reported. -/
  polled : List Aggregator

namespace LiveRun

/-- Before the first packet. -/
def init (start : Instant) : LiveRun := ⟨Aggregator.new, NdjsonTracker.new start, [], []⟩

/-- One call of the sink. -/
def deliver (fmt : Formats) (r : LiveRun) (ev : EvictedStream) : LiveRun :=
  let (t, e) := r.tracker.onEvicted fmt ev
  { r with tracker := t, events := r.events ++ [e] }

/-- The sink calls of a call of the aggregator, which leads to the state `b`. -/
def freshCalls (r : LiveRun) (b : Aggregator) : List EvictedStream :=
  b.sinkCalls.drop r.agg.sinkCalls.length

/-- A call of the aggregator with its sink calls. -/
def called (fmt : Formats) (r : LiveRun) (b : Aggregator) : LiveRun :=
  (r.freshCalls b).foldl (deliver fmt) { r with agg := b }

/-- The poll after an ingest. -/
def polledAt (fmt : Formats) (r : LiveRun) (c : PollClock) : LiveRun :=
  let (t, events) := r.tracker.poll fmt c r.agg
  { r with
    tracker := t
    events := r.events ++ events
    polled := if r.tracker.unthrottled c then r.polled ++ [r.agg] else r.polled }

/-- One packet of `run_live`. -/
def step (env : Env) (fmt : Formats) (r : LiveRun) (input : DissectedPacket × PollClock) : LiveRun :=
  (r.called fmt (r.agg.ingest env input.1)).polledAt fmt input.2

/-- The loop of `run_live`. -/
def packets (env : Env) (fmt : Formats) (start : Instant)
    (inputs : List (DissectedPacket × PollClock)) : LiveRun :=
  inputs.foldl (step env fmt) (init start)

/-- `run_live`: the packets, then `finish`, unless the pump ended in an error. -/
def runLive (env : Env) (fmt : Formats) (start : Instant) (inputs : List (DissectedPacket × PollClock))
    (ended : PumpJoin) : LiveRun :=
  let r := packets env fmt start inputs
  match ended with
  | .report => r.called fmt (r.agg.finish env)
  | .error => r

end LiveRun

/-! ## The protocol -/

/-- The events of one stream, in order. -/
def kindsOf (q : Nat) (events : List Event) : List EventKind :=
  (events.filter fun e => e.body.id = q).map Event.kind

/-- `stream_new`, then updates. -/
def Opened (kinds : List EventKind) : Prop :=
  ∃ n, kinds = .streamNew :: List.replicate n .streamUpdate

/-- `stream_new`, then updates, then one `stream_closed`. -/
def Complete (kinds : List EventKind) : Prop :=
  ∃ n reason, kinds = .streamNew :: (List.replicate n .streamUpdate ++ [.streamClosed reason])

/-- What the events of a whole run promise. -/
structure EventProtocol (events : List Event) : Prop where
  course : ∀ e ∈ events, Complete (kindsOf e.body.id events)
  parents : ∀ before e after, events = before ++ e :: after → ∀ p, e.body.parent = some p →
    ∃ d ∈ before, d.body.id = p

/-- A poll has reported a state with the stream of this number. -/
def Seen (polled : List Aggregator) (q : Nat) : Prop :=
  ∃ b ∈ polled, ∃ s ∈ b.streams, s.createdSeq = q

/-- Every stream told to the sink on the way to `b` was live at a poll that was not throttled. -/
def ClosesSeen (r : LiveRun) (b : Aggregator) : Prop :=
  ∀ ev ∈ r.freshCalls b, Seen r.polled ev.stream.createdSeq

/-- A stream whose parent no poll has reported yet has a higher slot than the parent. -/
def ParentsFirst (polled : List Aggregator) (b : Aggregator) : Prop :=
  ∀ s ∈ b.streams, ∀ p ps, s.parent = some p → b.get p = some ps → ¬Seen polled ps.createdSeq →
    p.index < s.id.index

/-- The condition on one packet: on the streams its ingest closes, and, if its poll is not throttled, on
the slots of the streams the poll is the first to report. -/
structure StepOrderly (env : Env) (r : LiveRun) (input : DissectedPacket × PollClock) : Prop where
  closes : ClosesSeen r (r.agg.ingest env input.1)
  parents : r.tracker.unthrottled input.2 = true → ParentsFirst r.polled (r.agg.ingest env input.1)

/-- The condition on a run: every packet meets it, and every stream left at the end was reported, where the
end closes it, or was not, where an error leaves it open. -/
structure OrderlyRun (env : Env) (fmt : Formats) (start : Instant)
    (inputs : List (DissectedPacket × PollClock)) (ended : PumpJoin) : Prop where
  steps : ∀ earlier input later, inputs = earlier ++ input :: later →
    StepOrderly env (LiveRun.packets env fmt start earlier) input
  finish : ended = .report → ClosesSeen (LiveRun.packets env fmt start inputs)
    ((LiveRun.packets env fmt start inputs).agg.finish env)
  noneOpen : ended = .error → ∀ s ∈ (LiveRun.packets env fmt start inputs).agg.streams,
    ¬Seen (LiveRun.packets env fmt start inputs).polled s.createdSeq

end Pktflow.Cli
