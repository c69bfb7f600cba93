import Pktflow.Cli.Ndjson
import Pktflow.Flows.Hierarchy

/-!
# The NDJSON event protocol

In a run in which no stream is closed before a poll has reported it, and in which a poll that is the first to
report a stream and its parent finds the parent in the lower slot, each stream's events are `stream_new`,
updates and one `stream_closed`, and parents are announced before their children. `RunInv` is what holds
between two packets of such a run.
-/

set_option autoImplicit false

namespace Pktflow.Cli

open Pktflow.Core Pktflow.Flows Pktflow.Flows.Aggregator Pktflow.View NdjsonTracker

/-! ## What the hooks do -/

section Hooks

variable {fmt : Formats}

theorem kindsOf_append (q : Nat) (l₁ l₂ : List Event) : kindsOf q (l₁ ++ l₂) = kindsOf q l₁ ++ kindsOf q l₂ := by
  simp [kindsOf]

/-- The sink calls print their events and forget the streams. -/
theorem foldl_deliver (calls : List EvictedStream) (r : LiveRun) :
    calls.foldl (LiveRun.deliver fmt) r =
      { r with
        tracker := { r.tracker with
          lastEmitted := calls.foldl (fun m ev => m.erase ev.stream.id) r.tracker.lastEmitted }
        events := r.events ++ calls.map (closedEvent fmt r.tracker.seqById) } := by
  induction calls generalizing r with
  | nil => simp
  | cons ev calls ih =>
      rw [List.foldl_cons, ih]
      simp [LiveRun.deliver, onEvicted]

theorem lookup_foldl_erase (calls : List EvictedStream) (m : HashMap StreamId Instant) (h : StreamId) :
    (calls.foldl (fun m ev => m.erase ev.stream.id) m).lookup h =
      if ∃ ev ∈ calls, ev.stream.id = h then none else m.lookup h := by
  induction calls generalizing m with
  | nil => simp
  | cons ev calls ih =>
      rw [List.foldl_cons, ih]
      by_cases hev : ev.stream.id = h
      · subst hev
        simp
      · simp [hev, AList.lookup_erase_ne (Ne.symm hev)]

/-- The events of one stream among those of the sink calls. -/
theorem kindsOf_closed (q : Nat) (seqById : HashMap StreamId Nat) (calls : List EvictedStream) :
    kindsOf q (calls.map (closedEvent fmt seqById)) =
      (calls.filter fun ev => ev.stream.createdSeq = q).map fun ev => .streamClosed ev.reason := by
  rw [kindsOf]
  rw [List.filter_map, List.map_map]
  rfl

theorem filter_seq_of_nodup {calls : List EvictedStream} {q : Nat}
    (hnodup : (calls.map fun ev => ev.stream.createdSeq).Nodup)
    (hq : q ∈ calls.map fun ev => ev.stream.createdSeq) :
    ∃ ev ∈ calls, (calls.filter fun ev => ev.stream.createdSeq = q) = [ev] := by
  induction calls with
  | nil => cases hq
  | cons ev calls ih =>
      rw [List.map_cons, List.nodup_cons] at hnodup
      rw [List.map_cons, List.mem_cons] at hq
      by_cases hev : ev.stream.createdSeq = q
      · subst hev
        refine ⟨ev, List.mem_cons_self, ?_⟩
        rw [List.filter_cons_of_pos (by simp), List.filter_eq_nil_iff.2]
        intro d hd hseq
        exact hnodup.1 (of_decide_eq_true hseq ▸ List.mem_map_of_mem hd)
      · rcases hq with rfl | hq
        · exact absurd rfl hev
        · obtain ⟨d, hd, hfilter⟩ := ih hnodup.2 hq
          refine ⟨d, List.mem_cons_of_mem _ hd, ?_⟩
          rw [List.filter_cons_of_neg (by simpa using hev), hfilter]

/-- The events a poll prints. -/
def pollEvents (fmt : Formats) (lastEmitted : HashMap StreamId Instant) (seqOf : StreamId → Option Nat)
    (now : Instant) (streams : List Stream) : List Event :=
  streams.filterMap fun s => (eventKind lastEmitted now s).map fun kind => ⟨kind, streamRecord fmt s seqOf⟩

/-- The loop of `poll` decides for each stream by what was printed before the poll, since ids differ. -/
theorem foldl_pollStream (seqOf : StreamId → Option Nat) (now : Instant) {streams : List Stream}
    (hids : (streams.map Stream.id).Nodup) (m : HashMap StreamId Instant) (events : List Event) :
    (streams.foldl (pollStream fmt seqOf now) (m, events)).2 =
        events ++ pollEvents fmt m seqOf now streams ∧
      ∀ h, ((streams.foldl (pollStream fmt seqOf now) (m, events)).1.lookup h).isSome =
        ((m.lookup h).isSome || streams.any fun s => s.id = h) := by
  induction streams generalizing m events with
  | nil => simp [pollEvents]
  | cons s streams ih =>
      rw [List.map_cons, List.nodup_cons] at hids
      -- the other streams have other ids, so their events do not depend on this one's
      have hkind : ∀ d ∈ streams, eventKind (m.insert s.id now) now d = eventKind m now d := by
        intro d hd
        have hne : d.id ≠ s.id := fun heq => hids.1 (heq ▸ List.mem_map_of_mem hd)
        unfold eventKind
        rw [AList.lookup_insert_ne hne]
      rw [List.foldl_cons]
      cases hk : eventKind m now s with
      | none =>
          have hsome : (m.lookup s.id).isSome = true := by
            rw [eventKind] at hk
            cases hl : m.lookup s.id with
            | none => simp [hl] at hk
            | some last => rfl
          have hacc : pollStream fmt seqOf now (m, events) s = (m, events) := by simp [pollStream, hk]
          rw [hacc]
          obtain ⟨hevents, hlookup⟩ := ih hids.2 m events
          refine ⟨by rw [hevents]; simp [pollEvents, hk], ?_⟩
          intro h
          rw [hlookup, List.any_cons]
          by_cases hs : s.id = h
          · subst hs
            simp [hsome]
          · simp [hs]
      | some kind =>
          have hacc : pollStream fmt seqOf now (m, events) s =
              (m.insert s.id now, events ++ [⟨kind, streamRecord fmt s seqOf⟩]) := by
            simp [pollStream, hk]
          rw [hacc]
          obtain ⟨hevents, hlookup⟩ := ih hids.2 (m.insert s.id now) _
          refine ⟨?_, ?_⟩
          · rw [hevents]
            simp only [pollEvents, List.filterMap_cons, hk, Option.map_some, List.append_assoc,
              List.singleton_append]
            rw [List.filterMap_congr fun d hd => by rw [hkind d hd]]
          · intro h
            rw [hlookup, List.any_cons]
            by_cases hs : s.id = h
            · subst hs
              simp
            · rw [AList.lookup_insert_ne (Ne.symm hs)]
              simp [hs]

/-- The numbers after the first pass of a poll: those of the live streams, and the older ones. -/
theorem lookup_numbered {streams : List Stream} (hids : (streams.map Stream.id).Nodup)
    (known : HashMap StreamId Nat) :
    (∀ s ∈ streams, (numbered known streams).lookup s.id = some s.createdSeq) ∧
      ∀ h, (∀ s ∈ streams, s.id ≠ h) → (numbered known streams).lookup h = known.lookup h := by
  rw [numbered]
  induction streams generalizing known with
  | nil => simp
  | cons s streams ih =>
      rw [List.map_cons, List.nodup_cons] at hids
      obtain ⟨hlive, holder⟩ := ih hids.2 (known.insert s.id s.createdSeq)
      rw [List.foldl_cons]
      constructor
      · intro d hd
        rcases List.mem_cons.1 hd with rfl | hd
        · rw [holder d.id fun x hx heq => hids.1 (heq ▸ List.mem_map_of_mem hx), AList.lookup_insert]
        · exact hlive d hd
      · intro h hh
        rw [holder h fun d hd => hh d (List.mem_cons_of_mem _ hd),
          AList.lookup_insert_ne (Ne.symm (hh s List.mem_cons_self))]

/-- The events of one stream among those of a poll. -/
theorem kindsOf_pollEvents (lastEmitted : HashMap StreamId Instant) (seqOf : StreamId → Option Nat)
    (now : Instant) {streams : List Stream} (hseqs : (streams.map Stream.createdSeq).Nodup) :
    (∀ s ∈ streams, kindsOf s.createdSeq (pollEvents fmt lastEmitted seqOf now streams) =
        (eventKind lastEmitted now s).toList) ∧
      ∀ q, (∀ s ∈ streams, s.createdSeq ≠ q) →
        kindsOf q (pollEvents fmt lastEmitted seqOf now streams) = [] := by
  have hother : ∀ (l : List Stream) (q : Nat), (∀ s ∈ l, s.createdSeq ≠ q) →
      kindsOf q (pollEvents fmt lastEmitted seqOf now l) = [] := by
    intro l q hl
    rw [kindsOf]
    rw [List.map_eq_nil_iff, List.filter_eq_nil_iff]
    intro e he
    obtain ⟨s, hs, hmap⟩ := List.mem_filterMap.1 he
    obtain ⟨kind, -, rfl⟩ := Option.map_eq_some_iff.1 hmap
    exact fun heq => hl s hs (of_decide_eq_true heq)
  refine ⟨?_, hother streams⟩
  induction streams with
  | nil => intro s hs; cases hs
  | cons d streams ih =>
      rw [List.map_cons, List.nodup_cons] at hseqs
      have hcons : pollEvents fmt lastEmitted seqOf now (d :: streams) =
          ((eventKind lastEmitted now d).map fun kind => ⟨kind, streamRecord fmt d seqOf⟩).toList ++
            pollEvents fmt lastEmitted seqOf now streams := by
        rw [pollEvents]
        rw [List.filterMap_cons]
        cases eventKind lastEmitted now d <;> rfl
      intro s hs
      rw [hcons, kindsOf_append]
      rcases List.mem_cons.1 hs with rfl | hs
      · rw [hother streams s.createdSeq fun x hx heq => hseqs.1 (heq ▸ List.mem_map_of_mem hx),
          List.append_nil]
        cases eventKind lastEmitted now s with
        | none => rfl
        | some kind => simp [kindsOf]
      · have hne : d.createdSeq ≠ s.createdSeq := fun heq => hseqs.1 (heq ▸ List.mem_map_of_mem hs)
        rw [ih hseqs.2 s hs]
        cases eventKind lastEmitted now d with
        | none => rfl
        | some kind => simp [kindsOf, hne]

end Hooks

/-! ## Between two packets -/

/-- The numbers of the streams the sink was told of. -/
def closedSeqs (a : Aggregator) : List Nat := a.sinkCalls.map fun ev => ev.stream.createdSeq

/-- The events of a stream, by what polls and the sink have seen of it. -/
def OnCourse (polled : List Aggregator) (closed : List Nat) (events : List Event) (q : Nat) : Prop :=
  (Seen polled q → if q ∈ closed then Complete (kindsOf q events) else Opened (kindsOf q events)) ∧
    (¬Seen polled q → kindsOf q events = [] ∧ q ∉ closed)

/-- Parents in events refer to earlier events. -/
def ParentsAnnounced (events : List Event) : Prop :=
  ∀ before e after, events = before ++ e :: after → ∀ p, e.body.parent = some p →
    ∃ d ∈ before, d.body.id = p

/-- What holds between two packets of an orderly run. -/
structure RunInv (r : LiveRun) : Prop where
  forest : ForestInv r.agg
  seqs : SeqInv r.agg
  delivers : Delivers r.agg
  course : ∀ q, OnCourse r.polled (closedSeqs r.agg) r.events q
  parents : ParentsAnnounced r.events
  bound : ∀ q, Seen r.polled q → q < r.agg.nextSeq
  /-- The tracker knows of a live stream exactly if a poll has reported it. -/
  emitted : ∀ {h f}, r.agg.frames h = some f →
    ((r.tracker.lastEmitted.lookup h).isSome = true ↔ Seen r.polled f.createdSeq)
  emittedLive : ∀ {h}, (r.tracker.lastEmitted.lookup h).isSome = true → ∃ f, r.agg.frames h = some f
  /-- Display numbers come from reported streams. -/
  numbers : ∀ {h q}, r.tracker.seqById.lookup h = some q → Seen r.polled q
  /-- A reported stream's parent was reported. -/
  parentSeen : ∀ {h f p fp}, r.agg.frames h = some f → f.parent = some p → r.agg.frames p = some fp →
    Seen r.polled f.createdSeq → Seen r.polled fp.createdSeq

section Steps

variable {env : Env} {fmt : Formats} {r : LiveRun} {b : Aggregator}

/-- A reported stream has an event. -/
theorem exists_event {polled : List Aggregator} {closed : List Nat} {events : List Event} {q : Nat}
    (h : OnCourse polled closed events q) (hq : Seen polled q) : ∃ e ∈ events, e.body.id = q := by
  have hne : kindsOf q events ≠ [] := by
    intro hnil
    have hcourse := h.1 hq
    rw [hnil] at hcourse
    split at hcourse
    · obtain ⟨n, reason, hn⟩ := hcourse
      cases hn
    · obtain ⟨n, hn⟩ := hcourse
      cases hn
  obtain ⟨e, he⟩ := List.exists_mem_of_ne_nil (events.filter fun e => e.body.id = q) fun hnil =>
    hne (by unfold kindsOf; rw [hnil]; rfl)
  obtain ⟨hmem, hid⟩ := List.mem_filter.1 he
  exact ⟨e, hmem, of_decide_eq_true hid⟩

/-- More events whose parents are announced. -/
theorem ParentsAnnounced.append {events more : List Event} (h : ParentsAnnounced events)
    (hmore : ∀ before e after, more = before ++ e :: after → ∀ p, e.body.parent = some p →
      ∃ d ∈ events ++ before, d.body.id = p) : ParentsAnnounced (events ++ more) := by
  intro before e after hsplit p hp
  rcases List.append_eq_append_iff.1 hsplit with ⟨mid, hbefore, hmid⟩ | ⟨mid, hevents, hmid⟩
  · rw [hbefore]
    exact hmore mid e after hmid p hp
  · cases mid with
    | nil =>
        rw [List.append_nil] at hevents
        obtain ⟨d, hd, hid⟩ := hmore [] e after (by simpa using hmid.symm) p hp
        rw [List.append_nil, hevents] at hd
        exact ⟨d, hd, hid⟩
    | cons x mid =>
        obtain ⟨rfl, -⟩ := List.cons.inj hmid
        exact h before e mid hevents p hp

theorem called_eq (r : LiveRun) (b : Aggregator) :
    let emitted := (r.freshCalls b).foldl (fun m ev => m.erase ev.stream.id) r.tracker.lastEmitted
    r.called fmt b = ⟨b, { r.tracker with lastEmitted := emitted },
      r.events ++ (r.freshCalls b).map (closedEvent fmt r.tracker.seqById), r.polled⟩ := by
  rw [LiveRun.called]
  rw [foldl_deliver]

/-- The sink calls of a step: those streams, reported before, are complete now. -/
theorem course_called (fmt : Formats) (h : RunInv r) {calls : List EvictedStream}
    (hcalls : b.sinkCalls = r.agg.sinkCalls ++ calls) (hnodup : (closedSeqs b).Nodup)
    (hseen : ∀ ev ∈ calls, Seen r.polled ev.stream.createdSeq) (seqById : HashMap StreamId Nat) (q : Nat) :
    OnCourse r.polled (closedSeqs b) (r.events ++ calls.map (closedEvent fmt seqById)) q := by
  have hclosed : closedSeqs b = closedSeqs r.agg ++ calls.map fun ev => ev.stream.createdSeq := by
    unfold closedSeqs
    rw [hcalls, List.map_append]
  rw [hclosed] at hnodup ⊢
  obtain ⟨-, hfresh, hdisjoint⟩ := List.nodup_append.1 hnodup
  obtain ⟨hyes, hno⟩ := h.course q
  constructor
  · intro hq
    have hcourse := hyes hq
    rw [kindsOf_append, kindsOf_closed]
    by_cases hmem : q ∈ calls.map fun ev => ev.stream.createdSeq
    · -- one call closes it, and none did before
      have hold : q ∉ closedSeqs r.agg := fun hold => hdisjoint q hold q hmem rfl
      obtain ⟨ev, -, hfilter⟩ := filter_seq_of_nodup hfresh hmem
      rw [if_neg hold] at hcourse
      obtain ⟨n, hn⟩ := hcourse
      rw [if_pos (List.mem_append_right _ hmem), hfilter, hn]
      exact ⟨n, ev.reason, rfl⟩
    · have hnil : (calls.filter fun ev => ev.stream.createdSeq = q) = [] := by
        rw [List.filter_eq_nil_iff]
        intro ev hev heq
        exact hmem (of_decide_eq_true heq ▸ List.mem_map_of_mem hev)
      rw [hnil, List.map_nil, List.append_nil]
      have hiff : q ∈ closedSeqs r.agg ++ (calls.map fun ev => ev.stream.createdSeq) ↔
          q ∈ closedSeqs r.agg := by simp only [List.mem_append, hmem, or_false]
      simpa only [hiff] using hcourse
  · intro hq
    obtain ⟨hnil, hnot⟩ := hno hq
    have hmem : q ∉ calls.map fun ev => ev.stream.createdSeq := by
      intro hmem
      obtain ⟨ev, hev, rfl⟩ := List.mem_map.1 hmem
      exact hq (hseen ev hev)
    refine ⟨?_, ?_⟩
    · rw [kindsOf_append, kindsOf_closed, hnil, List.filter_eq_nil_iff.2]
      · rfl
      · intro ev hev heq
        exact hmem (of_decide_eq_true heq ▸ List.mem_map_of_mem hev)
    · rw [List.mem_append]
      exact not_or.2 ⟨hnot, hmem⟩

/-- The parent of a closed stream, if it is told, was reported. -/
theorem parents_called (h : RunInv r) (calls : List EvictedStream) :
    ParentsAnnounced (r.events ++ calls.map (closedEvent fmt r.tracker.seqById)) := by
  apply h.parents.append
  intro before e after hsplit p hp
  have hmem : e ∈ calls.map (closedEvent fmt r.tracker.seqById) := by
    rw [hsplit]
    exact List.mem_append_right _ List.mem_cons_self
  obtain ⟨ev, -, rfl⟩ := List.mem_map.1 hmem
  obtain ⟨i, -, hlookup⟩ := Option.bind_eq_some_iff.1 hp
  obtain ⟨d, hd, hid⟩ := exists_event (h.course p) (h.numbers hlookup)
  exact ⟨d, List.mem_append_left _ hd, hid⟩

/-- The numbers of the live streams and of those told to the sink are all different. -/
theorem seqs_nodup {b : Aggregator} (hseqs : SeqInv b) (hdelivers : Delivers b) :
    (b.streams.map Stream.createdSeq).Nodup ∧ (closedSeqs b).Nodup ∧ ∀ s ∈ b.streams, s.createdSeq ∉ closedSeqs b := by
  have hclosed : closedSeqs b = (b.removed.map EvictedStream.stream).map Stream.createdSeq := by
    rw [closedSeqs, hdelivers, List.map_map]
    rfl
  have hall := hseqs.nodup
  rw [everStreams, List.map_append, List.nodup_append] at hall
  obtain ⟨hlive, hremoved, hapart⟩ := hall
  rw [hclosed]
  refine ⟨hlive, hremoved, ?_⟩
  intro s hs hmem
  exact hapart _ (List.mem_map_of_mem hs) _ hmem rfl

/-- After an ingest whose calls concern reported streams, before the poll. -/
theorem RunInv.ingested (fmt : Formats) (hsink : env.config.sink = true) (h : RunInv r) {pkt : DissectedPacket}
    (hfits : (r.agg.ingest env pkt).Fits) (hseen : ClosesSeen r (r.agg.ingest env pkt)) :
    RunInv (r.called fmt (r.agg.ingest env pkt)) := by
  obtain ⟨gone, hturn⟩ := turnover_ingest h.forest hfits
  have hforest : ForestInv (r.agg.ingest env pkt) :=
    ((runStable_true env).ingest h.forest trivial hfits).1
  have hseqs : SeqInv (r.agg.ingest env pkt) := ((SeqInv.runStable env).ingest h.forest h.seqs hfits).2
  have hdelivers : Delivers (r.agg.ingest env pkt) :=
    ((Delivers.ingestStable hsink pkt).ingest h.forest h.delivers hfits).2
  generalize r.agg.ingest env pkt = b at *
  -- the calls are the streams that are gone
  have hcalls : b.sinkCalls = r.agg.sinkCalls ++ gone := by
    rw [hdelivers, h.delivers, hturn.removed]
  have hfresh : r.freshCalls b = gone := by
    rw [LiveRun.freshCalls]
    rw [hcalls, List.drop_left]
  obtain ⟨-, hnodup, hapart⟩ := seqs_nodup hseqs hdelivers
  rw [ClosesSeen] at hseen
  rw [called_eq]
  dsimp only
  rw [hfresh] at hseen ⊢
  -- an old live stream keeps its place, and no call has its id
  have hold : ∀ {i : StreamId} {f : Frame}, b.frames i = some f → f.createdSeq < r.agg.nextSeq →
      r.agg.frames i = some f ∧ ∀ e ∈ gone, e.stream.id ≠ i := by
    intro i f hf hlt
    have hf' := hturn.older hf hlt
    rcases hturn.stays hf' with ⟨-, hgone⟩ | ⟨e, he, heq⟩
    · exact ⟨hf', hgone⟩
    · -- it would be live and removed
      exfalso
      obtain ⟨s, hs, rfl⟩ := frames_eq_some.1 hf
      apply hapart s (mem_streams.2 ⟨i, hs⟩)
      rw [closedSeqs, hcalls, List.map_append]
      exact List.mem_append_right _ (List.mem_map.2 ⟨e, he, congrArg Frame.createdSeq heq⟩)
  refine ⟨hforest, hseqs, hdelivers, fun q => course_called fmt h hcalls hnodup hseen _ q,
    parents_called h gone, fun q hq => Nat.lt_of_lt_of_le (h.bound q hq) hturn.nextSeq, ?_, ?_, h.numbers, ?_⟩
  · -- what the tracker knows
    intro i f hf
    rw [lookup_foldl_erase]
    by_cases hlt : f.createdSeq < r.agg.nextSeq
    · obtain ⟨hf', hgone⟩ := hold hf hlt
      rw [if_neg (by rintro ⟨e, he, hid⟩; exact hgone e he hid)]
      exact h.emitted hf'
    · -- a new stream: whoever had its id before is gone
      have hunseen : ¬Seen r.polled f.createdSeq := fun hs => hlt (h.bound _ hs)
      refine iff_of_false ?_ hunseen
      split
      · simp
      · rename_i hgone
        intro hsome
        obtain ⟨f', hf'⟩ := h.emittedLive hsome
        obtain rfl := Option.some.inj (hf.symm.trans (hturn.keeps h.forest hf' hgone))
        exact hunseen ((h.emitted hf').1 hsome)
  · intro i hsome
    rw [lookup_foldl_erase] at hsome
    split at hsome
    · cases hsome
    · rename_i hgone
      obtain ⟨f, hf⟩ := h.emittedLive hsome
      exact ⟨f, hturn.keeps h.forest hf hgone⟩
  · intro i f p fp hf hp hfp hq
    -- a reported stream is old, and its parent is older still
    obtain ⟨hf', -⟩ := hold hf (h.bound _ hq)
    have hlt : fp.createdSeq < r.agg.nextSeq := by
      obtain ⟨s, hs, rfl⟩ := frames_eq_some.1 hf
      obtain ⟨ps, hps, rfl⟩ := frames_eq_some.1 hfp
      obtain ⟨m, hm, hrank, -⟩ := hforest.forest.parent_node (nodes_of_get hs) hp
      rw [nodes_of_get hps] at hm
      obtain rfl := Option.some.inj hm
      exact Nat.lt_trans hrank (h.bound _ hq)
    exact h.parentSeen hf' hp (hold hfp hlt).1 hq

/-- The ids and the numbers of the live streams. -/
theorem RunInv.nodup (h : RunInv r) : (r.agg.streams.map Stream.id).Nodup ∧
    (r.agg.streams.map Stream.createdSeq).Nodup := by
  exact ⟨h.forest.ids_nodup, (seqs_nodup h.seqs h.delivers).1⟩

theorem seen_append {polled : List Aggregator} {q : Nat} :
    Seen (polled ++ [b]) q ↔ Seen polled q ∨ ∃ s ∈ b.streams, s.createdSeq = q := by
  rw [Seen]
  simp only [List.mem_append, List.mem_singleton]
  constructor
  · rintro ⟨c, hc | rfl, hs⟩
    · exact .inl ⟨c, hc, hs⟩
    · exact .inr hs
  · rintro (⟨c, hc, hs⟩ | hs)
    · exact ⟨c, .inl hc, hs⟩
    · exact ⟨b, .inr rfl, hs⟩

/-- In slot order, a stream of a lower slot comes before one of a higher slot. -/
theorem mem_of_index_lt (hf : ForestInv b) {before after : List Stream} {s t : Stream}
    (hsplit : b.streams = before ++ s :: after) (ht : t ∈ b.streams) (hlt : t.id.index < s.id.index) :
    t ∈ before := by
  have hsorted : b.streams.Pairwise fun x y => x.id.index < y.id.index := by
    apply Lib.Arena.values_pairwise_of_lt
    intro i j x y hij hx hy
    have hx' : x.id = i := hf.id_eq hx
    have hy' : y.id = j := hf.id_eq hy
    rw [hx', hy']
    exact hij
  rw [hsplit] at ht hsorted
  rcases List.mem_append.1 ht with hmem | hmem
  · exact hmem
  · exfalso
    rcases List.mem_cons.1 hmem with rfl | hmem
    · exact Nat.lt_irrefl _ hlt
    · have hgt := List.rel_of_pairwise_cons (List.pairwise_append.1 hsorted).2.1 hmem
      omega

/-- A poll prints `stream_new` of the streams it is the first to report, and updates of others. -/
theorem course_polled (h : RunInv r) {now : Instant} {seqOf : StreamId → Option Nat} (q : Nat) :
    OnCourse (r.polled ++ [r.agg]) (closedSeqs r.agg)
      (r.events ++ pollEvents fmt r.tracker.lastEmitted seqOf now r.agg.streams) q := by
  obtain ⟨hlive, hother⟩ := @kindsOf_pollEvents fmt r.tracker.lastEmitted seqOf now _ h.nodup.2
  obtain ⟨hyes, hno⟩ := h.course q
  by_cases hq : ∃ s ∈ r.agg.streams, s.createdSeq = q
  · obtain ⟨s, hs, rfl⟩ := hq
    -- a live stream has not been told to the sink
    have hopen : s.createdSeq ∉ closedSeqs r.agg := (seqs_nodup h.seqs h.delivers).2.2 s hs
    refine ⟨fun _ => ?_, fun hunseen => absurd (seen_append.2 (.inr ⟨s, hs, rfl⟩)) hunseen⟩
    rw [if_neg hopen, kindsOf_append, hlive s hs]
    obtain ⟨i, hi⟩ := mem_streams.1 hs
    have hid : s.id = i := h.forest.id_eq hi
    have hemitted := h.emitted (frames_of_get hi)
    rw [eventKind]
    rw [hid]
    cases hl : r.tracker.lastEmitted.lookup i with
    | none =>
        rw [hl] at hemitted
        have hunseen : ¬Seen r.polled s.createdSeq := fun hs => by simpa using hemitted.2 hs
        rw [(hno hunseen).1]
        exact ⟨0, rfl⟩
    | some last =>
        rw [hl] at hemitted
        have hcourse := hyes (hemitted.1 rfl)
        rw [if_neg hopen] at hcourse
        obtain ⟨n, hn⟩ := hcourse
        rw [hn]
        by_cases hlate : 1000000000 ≤ now - last
        · refine ⟨n + 1, ?_⟩
          simp [hlate, List.replicate_succ']
        · refine ⟨n, ?_⟩
          simp [hlate]
  · -- a stream that is not live is where it was
    have hne : ∀ s ∈ r.agg.streams, s.createdSeq ≠ q := fun s hs heq => hq ⟨s, hs, heq⟩
    have hiff : Seen (r.polled ++ [r.agg]) q ↔ Seen r.polled q := by
      rw [seen_append]
      exact or_iff_left hq
    rw [OnCourse]
    rw [kindsOf_append, hother q hne, List.append_nil, hiff]
    exact h.course q

/-- In an orderly poll parents are announced before their children. -/
theorem parents_polled (h : RunInv r) {now : Instant} (hfirst : ParentsFirst r.polled r.agg) :
    ParentsAnnounced (r.events ++ pollEvents fmt r.tracker.lastEmitted
      (fun id => (numbered r.tracker.seqById r.agg.streams).lookup id) now r.agg.streams) := by
  apply h.parents.append
  intro before e after hsplit p hp
  -- the event is that of a live stream, and its parent is live
  obtain ⟨l₁, l₂, hstreams, hl₁, hl₂⟩ := List.filterMap_eq_append_iff.1 hsplit
  obtain ⟨l₃, s, l₄, hl₂eq, hl₃, hs, hl₄⟩ := List.filterMap_eq_cons_iff.1 hl₂
  obtain ⟨kind, -, rfl⟩ := Option.map_eq_some_iff.1 hs
  rw [streamRecord_parent] at hp
  obtain ⟨i, hi, hnumber⟩ := Option.bind_eq_some_iff.1 hp
  have hsplit' : r.agg.streams = (l₁ ++ l₃) ++ s :: l₄ := by
    rw [hstreams, hl₂eq, List.append_assoc]
  have hmem : s ∈ r.agg.streams := by
    rw [hsplit']
    exact List.mem_append_right _ List.mem_cons_self
  obtain ⟨hid, hget⟩ := mem_streams.1 hmem
  obtain ⟨-, ps, hps⟩ := h.forest.parent_live hget hi
  have hpid : ps.id = i := h.forest.id_eq hps
  have hpmem : ps ∈ r.agg.streams := mem_streams.2 ⟨i, hps⟩
  have hp' : p = ps.createdSeq := by
    have hlive := (lookup_numbered h.nodup.1 r.tracker.seqById).1 ps hpmem
    rw [hpid, hnumber] at hlive
    exact Option.some.inj hlive
  by_cases hseen : Seen r.polled ps.createdSeq
  · obtain ⟨d, hd, hdid⟩ := exists_event (h.course ps.createdSeq) hseen
    exact ⟨d, List.mem_append_left _ hd, hdid.trans hp'.symm⟩
  · -- the poll is the first to report the parent, whose slot is lower
    have hlt : ps.id.index < s.id.index := by
      rw [hpid]
      exact hfirst s hmem i ps hi hps hseen
    have hbefore := mem_of_index_lt h.forest hsplit' hpmem hlt
    have hnone : r.tracker.lastEmitted.lookup i = none := by
      cases hl : r.tracker.lastEmitted.lookup i with
      | none => rfl
      | some last => exact absurd ((h.emitted (frames_of_get hps)).1 (by rw [hl]; rfl)) hseen
    have hkind : eventKind r.tracker.lastEmitted now ps = some .streamNew := by
      rw [eventKind]
      rw [hpid, hnone]
    refine ⟨⟨.streamNew, streamRecord fmt ps fun id =>
      (numbered r.tracker.seqById r.agg.streams).lookup id⟩, List.mem_append_right _ ?_, hp'.symm⟩
    rw [← hl₁]
    have hl₁' : ps ∈ l₁ := by
      rcases List.mem_append.1 hbefore with hmem | hmem
      · exact hmem
      · -- the streams of `l₃` have nothing to tell
        have hsilent := hl₃ ps hmem
        rw [hkind] at hsilent
        cases hsilent
    refine List.mem_filterMap.2 ⟨ps, hl₁', ?_⟩
    rw [hkind]
    rfl

/-- After an orderly poll. -/
theorem RunInv.polledAt (h : RunInv r) {c : PollClock}
    (hfirst : r.tracker.unthrottled c = true → ParentsFirst r.polled r.agg) :
    RunInv (r.polledAt fmt c) := by
  rw [LiveRun.polledAt, poll]
  by_cases hc : r.tracker.unthrottled c = true
  · have hfirst := hfirst hc
    obtain ⟨hevents, hlookup⟩ := @foldl_pollStream fmt
      (fun id => (numbered r.tracker.seqById r.agg.streams).lookup id) c.now _ h.nodup.1 r.tracker.lastEmitted []
    rw [List.nil_append] at hevents
    simp only [hc, if_true]
    rw [hevents]
    -- every live stream is in the snapshot that is polled
    have hreported : ∀ {i : StreamId} {f : Frame}, r.agg.frames i = some f →
        Seen (r.polled ++ [r.agg]) f.createdSeq := by
      intro i f hf
      obtain ⟨s, hs, rfl⟩ := frames_eq_some.1 hf
      exact seen_append.2 (.inr ⟨s, mem_streams.2 ⟨i, hs⟩, rfl⟩)
    refine ⟨h.forest, h.seqs, h.delivers, course_polled h, parents_polled h hfirst, ?_, ?_, ?_, ?_, ?_⟩
    · intro q hq
      rcases seen_append.1 hq with hq | ⟨s, hs, rfl⟩
      · exact h.bound q hq
      · -- live streams have numbers below the next
        obtain ⟨i, hi⟩ := mem_streams.1 hs
        exact h.forest.forest.rank_lt (nodes_of_get hi)
    · intro i f hf
      obtain ⟨s, hs, rfl⟩ := frames_eq_some.1 hf
      refine iff_of_true ?_ (hreported hf)
      rw [hlookup, Bool.or_eq_true, List.any_eq_true]
      exact .inr ⟨s, mem_streams.2 ⟨i, hs⟩, decide_eq_true (h.forest.id_eq hs)⟩
    · intro i hsome
      rw [hlookup, Bool.or_eq_true, List.any_eq_true] at hsome
      rcases hsome with hsome | ⟨s, hs, hid⟩
      · exact h.emittedLive hsome
      · obtain ⟨j, hj⟩ := mem_streams.1 hs
        have hij : j = i := (h.forest.id_eq hj).symm.trans (of_decide_eq_true hid)
        exact ⟨s.frame, frames_of_get (hij ▸ hj)⟩
    · intro i q hq
      obtain ⟨hlive, holder⟩ := lookup_numbered h.nodup.1 r.tracker.seqById
      -- a number is that of a live stream, or one kept from before
      by_cases hi : ∃ s ∈ r.agg.streams, s.id = i
      · obtain ⟨s, hs, rfl⟩ := hi
        rw [hlive s hs] at hq
        exact seen_append.2 (.inr ⟨s, hs, Option.some.inj hq⟩)
      · rw [holder i fun s hs heq => hi ⟨s, hs, heq⟩] at hq
        exact seen_append.2 (.inl (h.numbers hq))
    · intro i f p fp _ _ hfp _
      exact hreported hfp
  · simp only [hc, if_false, List.append_nil, Bool.false_eq_true]
    exact ⟨h.forest, h.seqs, h.delivers, h.course, h.parents, h.bound, h.emitted, h.emittedLive,
      h.numbers, h.parentSeen⟩

/-- Before the first packet. -/
theorem runInv_init (start : Instant) : RunInv (LiveRun.init start) := by
  have hunseen : ∀ q, ¬Seen [] q := by
    rintro q ⟨b, hb, -⟩
    cases hb
  refine ⟨ForestInv.new, (SeqInv.runStable ⟨sampleEngine, {}, fun _ => 0⟩).new, rfl, ?_, ?_, ?_, ?_, ?_,
    ?_, ?_⟩
  · intro q
    exact ⟨fun hq => absurd hq (hunseen q), fun _ => ⟨rfl, List.not_mem_nil⟩⟩
  · intro before e after hsplit
    simp [LiveRun.init] at hsplit
  · intro q hq
    exact absurd hq (hunseen q)
  · intro i f hf
    cases hf
  · intro i hi
    cases hi
  · intro i q hq
    cases hq
  · intro i f p fp hf
    cases hf

theorem packets_append (env : Env) (fmt : Formats) (start : Instant)
    (inputs : List (DissectedPacket × PollClock)) (input : DissectedPacket × PollClock) :
    LiveRun.packets env fmt start (inputs ++ [input]) =
      (LiveRun.packets env fmt start inputs).step env fmt input := by
  simp only [LiveRun.packets, List.foldl_append, List.foldl_cons, List.foldl_nil]

/-- The calls of the aggregator in a run. -/
def opsOf (inputs : List (DissectedPacket × PollClock)) : List Op := inputs.map fun i => .ingest i.1

/-- The aggregator runs as it does without a tracker. -/
theorem agg_packets (env : Env) (fmt : Formats) (start : Instant)
    (inputs : List (DissectedPacket × PollClock)) :
    (LiveRun.packets env fmt start inputs).agg = run env (opsOf inputs) := by
  induction inputs using List.reverseRecOn with
  | nil => rfl
  | append_singleton inputs input ih =>
      rw [packets_append, opsOf, List.map_append, List.map_singleton, run_append]
      rw [LiveRun.step, LiveRun.polledAt]
      rw [called_eq]
      show (LiveRun.packets env fmt start inputs).agg.ingest env input.1 = _
      rw [ih]
      rfl

end Steps

/-- The run rule: between any two packets of an orderly run. -/
theorem runInv_packets {env : Env} {fmt : Formats} {start : Instant} (hsink : env.config.sink = true)
    {inputs : List (DissectedPacket × PollClock)}
    (hreach : Reaches env (opsOf inputs) (LiveRun.packets env fmt start inputs).agg)
    (hsteps : ∀ earlier input later, inputs = earlier ++ input :: later →
      StepOrderly env (LiveRun.packets env fmt start earlier) input) :
    RunInv (LiveRun.packets env fmt start inputs) := by
  induction inputs using List.reverseRecOn with
  | nil => exact runInv_init start
  | append_singleton inputs input ih =>
      rw [packets_append] at hreach ⊢
      have hops : opsOf (inputs ++ [input]) = opsOf inputs ++ [.ingest input.1] := by
        simp [opsOf]
      rw [hops] at hreach
      obtain ⟨hbefore, hfits⟩ := hreach.of_append_singleton
      rw [← agg_packets env fmt start] at hbefore hfits
      have hinv := ih hbefore fun earlier input' later hsplit =>
        hsteps earlier input' (later ++ [input]) (by rw [hsplit]; simp)
      have horderly := hsteps inputs input [] rfl
      have hingested := hinv.ingested fmt hsink hfits horderly.closes
      refine hingested.polledAt fun hc => ?_
      -- the poll reads the clock of the tracker before the sink calls
      rw [called_eq] at hc ⊢
      exact horderly.parents hc

/-- What `finish` tells the sink: every live stream, once. -/
theorem finish_calls {env : Env} {r : LiveRun} (hsink : env.config.sink = true) (h : RunInv r)
    {ops : List Op} (hreach : Reaches env ops r.agg) (hfits : r.agg.Fits) :
    ∃ calls, (r.agg.finish env).sinkCalls = r.agg.sinkCalls ++ calls ∧
      (closedSeqs (r.agg.finish env)).Nodup ∧
      ∀ s ∈ r.agg.streams, s.createdSeq ∈ closedSeqs (r.agg.finish env) := by
  cases hev : env.config.eviction with
  | none =>
      -- the streams are told in place
      have hcloses := closesInPlace hsink hev h.forest
      refine ⟨_, hcloses.told, ?_, ?_⟩
      · have hall := h.seqs.nodup
        rw [closedSeqs]
        rw [hcloses.told, List.map_append, h.delivers]
        refine (List.Perm.nodup_iff ?_).1 hall
        rw [everStreams]
        rw [List.map_append, List.map_map]
        refine List.perm_append_comm.trans (List.Perm.append (List.Perm.refl _) ?_)
        refine List.Perm.trans ?_ (hcloses.once.map _).symm
        rw [List.map_map]
        exact List.Perm.refl _
      · intro s hs
        rw [closedSeqs]
        rw [hcloses.told, List.map_append]
        apply List.mem_append_right _
        exact List.mem_map.2 ⟨closingCall s, hcloses.once.mem_iff.2 (List.mem_map_of_mem hs), rfl⟩
  | live idle linger cap =>
      -- the streams are evicted
      have hslots : ((r.agg.call env .finish).arena.slots.length) < idLimit := by
        show (r.agg.finish env).arena.slots.length < idLimit
        rw [slots_finish]
        exact hfits
      have hreach' := hreach.call .finish hslots
      have hdelivers : Delivers (r.agg.finish env) := delivers_of_reaches hsink hev hreach'
      have hseqs : SeqInv (r.agg.finish env) := ((SeqInv.runStable env).reaches hreach').2
      have hempty := streams_finish hev h.forest
      obtain ⟨gone, hturn⟩ := turnover_finish env h.forest
      have hcalls : (r.agg.finish env).sinkCalls = r.agg.sinkCalls ++ gone := by
        rw [hdelivers, h.delivers, hturn.removed]
      refine ⟨gone, hcalls, (seqs_nodup hseqs hdelivers).2.1, ?_⟩
      · intro s hs
        obtain ⟨i, hi⟩ := mem_streams.1 hs
        rcases hturn.stays (frames_of_get hi) with ⟨hlive, -⟩ | ⟨e, he, heq⟩
        · obtain ⟨t, ht, -⟩ := frames_eq_some.1 hlive
          have hmem := mem_streams.2 ⟨i, ht⟩
          rw [hempty] at hmem
          cases hmem
        · rw [closedSeqs]
          rw [hcalls, List.map_append]
          refine List.mem_append_right _ (List.mem_map.2 ⟨e, he, ?_⟩)
          exact congrArg Frame.createdSeq heq

section Ends

variable {env : Env} {r : LiveRun}

/-- A stream that was reported is live, or the sink was told of it. -/
theorem RunInv.live_or_closed (h : RunInv r) {q : Nat} (hq : Seen r.polled q) :
    (∃ s ∈ r.agg.streams, s.createdSeq = q) ∨ q ∈ closedSeqs r.agg := by
  have hever : q ∈ r.agg.everStreams.map Stream.createdSeq := by
    rw [← List.count_pos_iff, ← tally_hasSeq, h.seqs, if_pos (h.bound _ hq)]
    exact Nat.one_pos
  rw [everStreams] at hever
  rw [List.map_append, List.mem_append] at hever
  rcases hever with hlive | hremoved
  · exact .inl (List.mem_map.1 hlive)
  · unfold closedSeqs
    rw [h.delivers]
    right
    simpa [List.map_map, Function.comp_def] using hremoved

/-- A stream with an event was reported. -/
theorem seen_of_event {polled : List Aggregator} {closed : List Nat} {events : List Event} {e : Event}
    (h : OnCourse polled closed events e.body.id) (he : e ∈ events) : Seen polled e.body.id := by
  by_contra hunseen
  have hnil := (h.2 hunseen).1
  rw [kindsOf] at hnil
  rw [List.map_eq_nil_iff, List.filter_eq_nil_iff] at hnil
  exact hnil e he (decide_eq_true rfl)

/-- The protocol after `finish`. -/
theorem RunInv.finished (hsink : env.config.sink = true) (h : RunInv r) {ops : List Op}
    (hreach : Reaches env ops r.agg) (fmt : Formats) (hfinish : ClosesSeen r (r.agg.finish env)) :
    EventProtocol (r.called fmt (r.agg.finish env)).events := by
  obtain ⟨calls, hcalls, hnodup, hall⟩ := finish_calls hsink h hreach hreach.fits
  have hfresh : r.freshCalls (r.agg.finish env) = calls := by
    unfold LiveRun.freshCalls
    rw [hcalls, List.drop_left]
  rw [ClosesSeen] at hfinish
  rw [hfresh] at hfinish
  rw [called_eq]
  dsimp only
  rw [hfresh]
  have hcourse := fun q => course_called fmt h hcalls hnodup hfinish r.tracker.seqById q
  refine ⟨?_, parents_called h calls⟩
  intro e he
  have hseen := seen_of_event (hcourse e.body.id) he
  have hdone := (hcourse e.body.id).1 hseen
  rw [if_pos] at hdone
  · exact hdone
  · -- what was reported is closed before or by `finish`
    rcases h.live_or_closed hseen with ⟨s, hs, hid⟩ | hclosed
    · rw [← hid]
      exact hall s hs
    · unfold closedSeqs at hclosed ⊢
      rw [hcalls, List.map_append]
      exact List.mem_append_left _ hclosed

/-- The protocol where an error ends the run and leaves no reported stream open. -/
theorem RunInv.aborted (h : RunInv r) (hopen : ∀ s ∈ r.agg.streams, ¬Seen r.polled s.createdSeq) :
    EventProtocol r.events := by
  refine ⟨?_, h.parents⟩
  intro e he
  have hseen := seen_of_event (h.course e.body.id) he
  have hdone := (h.course e.body.id).1 hseen
  rw [if_pos] at hdone
  · exact hdone
  · rcases h.live_or_closed hseen with ⟨s, hs, hid⟩ | hclosed
    · rw [← hid] at hseen
      exact absurd hseen (hopen s hs)
    · exact hclosed

end Ends

/-- **The NDJSON event protocol.** In every run of `run_live`, under every eviction policy and for all clock
readings, in which no stream is closed that no unthrottled poll has reported, and in which an unthrottled
poll that is the first to report a stream and its parent finds the parent in the lower slot: the events of
each stream are `stream_new`, updates and one `stream_closed`, and every parent told is announced before. A run
that an error of the pump ends must besides have no reported stream left open. -/
theorem ndjson_protocol {env : Env} (hsink : env.config.sink = true) (fmt : Formats) (start : Instant)
    (inputs : List (DissectedPacket × PollClock)) (ended : PumpJoin) {a : Aggregator}
    (hreach : Reaches env (opsOf inputs) a) (horderly : OrderlyRun env fmt start inputs ended) :
    EventProtocol (LiveRun.runLive env fmt start inputs ended).events := by
  have hagg : (LiveRun.packets env fmt start inputs).agg = a := by rw [agg_packets, hreach.eq_run]
  have hreach' : Reaches env (opsOf inputs) (LiveRun.packets env fmt start inputs).agg := by
    rw [hagg]
    exact hreach
  have hinv := runInv_packets hsink hreach' horderly.steps
  cases ended with
  | report => exact hinv.finished hsink hreach' fmt (horderly.finish rfl)
  | error => exact hinv.aborted (horderly.noneOpen rfl)

/-- An input of the sample engine whose poll reads one time. -/
def liveInput (ts : SystemTime) (now : Instant) (layers : List LayerRecord) : DissectedPacket × PollClock :=
  (⟨⟨ts, 60, 60, 1⟩, layers, .complete, 7, none⟩, ⟨now, now, now⟩)

/-- Time stamps and names left out. -/
def plainFormats : Formats := ⟨fun _ => "", fun _ => none, fun name => name⟩

/-- Two packets of one hierarchy, a second apart. -/
def orderlyInputs : List (DissectedPacket × PollClock) :=
  [liveInput 0 0 [sampleLayer "eth" 1 2, sampleLayer "ip" 3 4],
    liveInput 1000000000 1000000000 [sampleLayer "eth" 1 2, sampleLayer "ip" 3 4]]

/-- The packets of `orderlyInputs` before a place. -/
theorem orderly_split {earlier later : List (DissectedPacket × PollClock)}
    {input : DissectedPacket × PollClock} (h : orderlyInputs = earlier ++ input :: later) :
    ∃ n < 2, earlier = orderlyInputs.take n ∧ orderlyInputs[n]? = some input := by
  refine ⟨earlier.length, ?_, ?_, ?_⟩
  · have hlen := congrArg List.length h
    rw [List.length_append, List.length_cons] at hlen
    have htwo : orderlyInputs.length = 2 := rfl
    omega
  · rw [h, List.take_left]
  · rw [h, List.getElem?_append_right (Nat.le_refl _), Nat.sub_self, List.getElem?_cons_zero]

theorem parentsFirst_of_all {polled : List Aggregator} {b : Aggregator}
    (h : ∀ s ∈ b.streams, ∀ p ∈ s.parent, p.index < s.id.index) : ParentsFirst polled b :=
  fun s hs p _ hp _ _ => h s hs p hp

theorem orderly_sample : OrderlyRun (sampleEnv .none 0) plainFormats 0 orderlyInputs .report where
  steps := by
    intro earlier input later hsplit
    obtain ⟨n, hn, rfl, hinput⟩ := orderly_split hsplit
    -- nothing is closed, and the parent has slot 0
    have hall : ∀ n < 2, ∀ input ∈ orderlyInputs[n]?,
        let r := LiveRun.packets (sampleEnv .none 0) plainFormats 0 (orderlyInputs.take n)
        let b := r.agg.ingest (sampleEnv .none 0) input.1
        r.freshCalls b = [] ∧ ∀ s ∈ b.streams, ∀ p ∈ s.parent, p.index < s.id.index := by
      decide +kernel
    obtain ⟨hcalls, hfirst⟩ := hall n hn input hinput
    refine ⟨?_, fun _ => parentsFirst_of_all hfirst⟩
    unfold ClosesSeen
    rw [hcalls]
    intro ev hev
    cases hev
  finish := by
    intro _
    unfold ClosesSeen Seen
    decide +kernel
  noneOpen := by
    intro herror
    cases herror

/-- The hierarchy's two streams are announced, updated and closed. -/
theorem ndjson_protocol_sample :
    EventProtocol (LiveRun.runLive (sampleEnv .none 0) plainFormats 0 orderlyInputs .report).events ∧
      (LiveRun.runLive (sampleEnv .none 0) plainFormats 0 orderlyInputs .report).events.length = 6 :=
  ⟨ndjson_protocol rfl plainFormats 0 orderlyInputs .report (reaches_run _ (opsOf orderlyInputs) (by decide))
    orderly_sample, by decide +kernel⟩

/-- The second packet comes 1 ms after the first, and its poll is skipped. -/
def hastyInputs : List (DissectedPacket × PollClock) :=
  [liveInput 0 0 [sampleLayer "eth" 1 2], liveInput 1000000 1000000 [sampleLayer "eth" 3 4]]

/-- Two streams expire before a packet of a new hierarchy, whose parent takes the slot freed last. -/
def reusedInputs : List (DissectedPacket × PollClock) :=
  [liveInput 0 0 [sampleLayer "eth" 1 2], liveInput 1000000000 1000000000 [sampleLayer "eth" 3 4],
    liveInput 9000000000 9000000000 [sampleLayer "eth" 5 6, sampleLayer "ip" 7 8]]

/-- One packet of one stream. -/
def cutInputs : List (DissectedPacket × PollClock) := [liveInput 0 0 [sampleLayer "eth" 1 2]]

/-- A stream is closed that was never announced; a child is announced before its parent; and a stream that was
announced is never closed, for the capture failed. -/
theorem ndjson_protocol_broken :
    (kindsOf 1 (LiveRun.runLive (sampleEnv .none 0) plainFormats 0 hastyInputs .report).events =
        [.streamClosed .captureEnd] ∧
      ¬EventProtocol (LiveRun.runLive (sampleEnv .none 0) plainFormats 0 hastyInputs .report).events) ∧
    ¬EventProtocol (LiveRun.runLive (sampleEnv (.live 5000000000 10 100) 0) plainFormats 0
      reusedInputs .report).events ∧
    (kindsOf 0 (LiveRun.runLive (sampleEnv .none 0) plainFormats 0 cutInputs .error).events = [.streamNew] ∧
      ¬EventProtocol (LiveRun.runLive (sampleEnv .none 0) plainFormats 0 cutInputs .error).events) := by
  have hkinds : kindsOf 1 (LiveRun.runLive (sampleEnv .none 0) plainFormats 0 hastyInputs .report).events =
      [.streamClosed .captureEnd] := by decide +kernel
  have hevent : ∃ e ∈ (LiveRun.runLive (sampleEnv .none 0) plainFormats 0 hastyInputs .report).events,
      e.body.id = 1 := by decide +kernel
  -- the child, stream 3, is told with its parent, stream 2, before stream 2 is
  have hchild : ∃ n < 12, ∃ e ∈ (LiveRun.runLive (sampleEnv (.live 5000000000 10 100) 0) plainFormats 0
      reusedInputs .report).events[n]?, e.body.parent = some 2 ∧
        ∀ d ∈ (LiveRun.runLive (sampleEnv (.live 5000000000 10 100) 0) plainFormats 0
          reusedInputs .report).events.take n, d.body.id ≠ 2 := by decide +kernel
  have hopened : kindsOf 0 (LiveRun.runLive (sampleEnv .none 0) plainFormats 0 cutInputs .error).events =
      [.streamNew] := by decide +kernel
  have hcut : ∃ e ∈ (LiveRun.runLive (sampleEnv .none 0) plainFormats 0 cutInputs .error).events,
      e.body.id = 0 := by decide +kernel
  refine ⟨⟨hkinds, ?_⟩, ?_, ⟨hopened, ?_⟩⟩
  · intro hprotocol
    obtain ⟨e, he, hid⟩ := hevent
    obtain ⟨n, reason, hcourse⟩ := hprotocol.course e he
    rw [hid, hkinds] at hcourse
    cases hcourse
  · intro hprotocol
    obtain ⟨n, -, e, he, hparent, hnone⟩ := hchild
    obtain ⟨hlt, heq⟩ := List.getElem?_eq_some_iff.1 he
    obtain ⟨d, hd, hid⟩ := hprotocol.parents _ e _ (by rw [← heq, List.cons_getElem_drop_succ,
      List.take_append_drop]) 2 hparent
    exact hnone d hd hid
  · intro hprotocol
    obtain ⟨e, he, hid⟩ := hcut
    obtain ⟨n, reason, hcourse⟩ := hprotocol.course e he
    rw [hid, hopened] at hcourse
    have hlen := congrArg List.length hcourse
    simp only [List.length_cons, List.length_append, List.length_replicate, List.length_nil] at hlen
    omega

end Pktflow.Cli
