import Pktflow.Lib.Bins
import Pktflow.View.Paging

/-!
# The timeline

Model of `SnapshotIndex::timeline` (`pktflow-view/src/index.rs`) and of `capture_span` (`stream_view.rs`).
The loop gives each of the first streams of the byte order a lane and adds up the rest in one more. The lanes
are the visible streams divided into groups (`laneGroups`), and a cell counts those of the group that are
active in its share of the capture (`timeline_conserves`).
-/

set_option autoImplicit false

namespace Pktflow.View

open Pktflow.Core Pktflow.Flows Pktflow.Lib

/-- `TimelineSpec`. -/
structure TimelineSpec where
  bins : Nat
  lanes : Nat
  query : Option Text

/-- `TimelineLane`. -/
structure TimelineLane where
  seq : Option Nat
  active : List Nat
  deriving DecidableEq

/-- `TimelineBins`. -/
structure TimelineBins where
  start : SystemTime
  end_ : SystemTime
  lanes : List TimelineLane
  deriving DecidableEq

/-- `capture_span`. -/
def captureSpan (snap : AggregatorSnapshot) : Option (SystemTime × SystemTime) := do
  let start ← (snap.streams.map Stream.firstSeen).min?
  let end_ ← (snap.streams.map Stream.lastSeen).max?
  return (start, end_)

/-- `usize::clamp`. -/
def clamp (n low high : Nat) : Nat := min (max n low) high

/-- `bin_of`: the bin of a time. -/
def timeBin (start : SystemTime) (span bins : Nat) (ts : SystemTime) : Nat :=
  min (nanosSince ts start * bins / span % 2 ^ 64) (bins - 1)

/-- The cells from one bin to another, changed. -/
def paint (f : Nat → Nat) (first last : Nat) (cells : List Nat) : List Nat :=
  cells.mapIdx fun i slot => if first ≤ i ∧ i ≤ last then f slot else slot

/-- The local variables of the loop of `timeline`. -/
structure Lanes where
  out : List TimelineLane
  rest : List Nat
  restUsed : Bool

/-- One stream of the loop. -/
def Lanes.step (binAt : SystemTime → Nat) (bins lanes : Nat) (keep : Stream → Bool) (st : Lanes) (s : Stream) :
    Lanes :=
  if !keep s then st
  else
    let first := binAt s.firstSeen
    let last := binAt s.lastSeen
    if st.out.length + 1 < lanes then
      { st with out := st.out ++
          [⟨some s.createdSeq, paint (fun _ => 1) first last (List.replicate bins 0)⟩] }
    else { st with rest := paint (· + 1) first last st.rest, restUsed := true }

/-- The lanes after the loop. -/
def Lanes.finish (st : Lanes) : List TimelineLane :=
  if st.restUsed then st.out ++ [⟨none, st.rest⟩] else st.out

/-- `SnapshotIndex::timeline`. -/
def SnapshotIndex.timeline (env : LensEnv) (index : SnapshotIndex) (spec : TimelineSpec) :
    Except Failure (Option TimelineBins × SnapshotIndex) :=
  let bins := clamp spec.bins 1 2048
  let lanes := clamp spec.lanes 1 512
  match captureSpan index.snap with
  | none => .ok (none, index)
  | some (start, end_) =>
      if end_ < start then .ok (none, index)
      else do
        let span := max (nanosSince end_ start) 1
        let (sets, index) ← index.windowSets env spec.query
        let (order, index) := index.order .bytes
        let st := (order.filterMap fun pos => index.snap.streams[pos]?).foldl
          (Lanes.step (timeBin start span bins) bins lanes (keeps (sets.map Prod.snd)))
          ⟨[], List.replicate bins 0, false⟩
        pure (some ⟨start, end_, st.finish⟩, index)

/-! ## The lanes as groups -/

/-- The streams that share a lane: each of the first `lanes - 1` has its own, the others have one without a
number. -/
def laneGroups (lanes : Nat) (shown : List Stream) : List (Option Nat × List Stream) :=
  (shown.take (lanes - 1)).map (fun s => (some s.createdSeq, [s])) ++
    if shown.drop (lanes - 1) = [] then [] else [(none, shown.drop (lanes - 1))]

/-- The stream is active in a bin, by the bins of its ends. -/
def inBins (binAt : SystemTime → Nat) (s : Stream) (b : Nat) : Bool :=
  decide (binAt s.firstSeen ≤ b ∧ b ≤ binAt s.lastSeen)

/-- The cells of a group. -/
def cellsOf (binAt : SystemTime → Nat) (bins : Nat) (group : List Stream) : List Nat :=
  (List.range bins).map fun b => group.countP fun s => inBins binAt s b

section Groups

variable {binAt : SystemTime → Nat} {bins lanes : Nat} {keep : Stream → Bool}

theorem replicate_eq_cells (binAt : SystemTime → Nat) (bins : Nat) :
    List.replicate bins 0 = cellsOf binAt bins [] := by
  apply List.ext_getElem
  · simp [cellsOf]
  · intro i hi hi'
    simp [cellsOf]

theorem paint_map_range (f : Nat → Nat) (first last : Nat) (g : Nat → Nat) :
    paint f first last ((List.range bins).map g) =
      (List.range bins).map fun b => if first ≤ b ∧ b ≤ last then f (g b) else g b := by
  rw [paint]
  apply List.ext_getElem
  · simp
  · intro i hi hi'
    simp

/-- The cells of one stream. -/
theorem paint_one (s : Stream) :
    paint (fun _ => 1) (binAt s.firstSeen) (binAt s.lastSeen) (List.replicate bins 0) = cellsOf binAt bins [s] := by
  rw [replicate_eq_cells binAt, cellsOf, paint_map_range]
  apply List.map_congr_left
  intro b _
  rw [List.countP_singleton, inBins]
  simp only [decide_eq_true_eq]
  rfl

/-- The cells of a group with one stream more. -/
theorem paint_snoc (group : List Stream) (s : Stream) :
    paint (· + 1) (binAt s.firstSeen) (binAt s.lastSeen) (cellsOf binAt bins group) =
      cellsOf binAt bins (group ++ [s]) := by
  rw [cellsOf, paint_map_range]
  apply List.map_congr_left
  intro b _
  rw [List.countP_append, List.countP_singleton, inBins]
  simp only [decide_eq_true_eq]
  split <;> rfl

/-- The lanes of the streams that the loop has shown so far. -/
def lanesOf (binAt : SystemTime → Nat) (bins lanes : Nat) (shown : List Stream) : Lanes where
  out := (shown.take (lanes - 1)).map fun s => ⟨some s.createdSeq, cellsOf binAt bins [s]⟩
  rest := cellsOf binAt bins (shown.drop (lanes - 1))
  restUsed := !(shown.drop (lanes - 1)).isEmpty

theorem step_lanesOf (shown : List Stream) {s : Stream} (hkeep : keep s = true) :
    (lanesOf binAt bins lanes shown).step binAt bins lanes keep s = lanesOf binAt bins lanes (shown ++ [s]) := by
  have hlen : (lanesOf binAt bins lanes shown).out.length = min (lanes - 1) shown.length := by
    rw [lanesOf, List.length_map, List.length_take]
  rw [Lanes.step]
  rw [hkeep, Bool.not_true, if_neg Bool.false_ne_true]
  dsimp only
  rw [hlen]
  by_cases hroom : min (lanes - 1) shown.length + 1 < lanes
  · -- a lane of its own
    rw [if_pos hroom, paint_one]
    unfold lanesOf
    rw [List.take_of_length_le (l := shown) (by omega), List.take_of_length_le (l := shown ++ [s]) (by simp; omega),
      List.drop_of_length_le (l := shown) (by omega), List.drop_of_length_le (l := shown ++ [s]) (by simp; omega),
      List.map_append]
    rfl
  · -- the rest
    rw [if_neg hroom]
    unfold lanesOf
    rw [paint_snoc, List.take_append_of_le_length (by omega), List.drop_append_of_le_length (by omega)]
    congr 1
    simp

/-- The loop shows the streams that are kept, in order. -/
theorem foldl_lanes (l : List Stream) :
    l.foldl (Lanes.step binAt bins lanes keep) ⟨[], List.replicate bins 0, false⟩ =
      lanesOf binAt bins lanes (l.filter keep) := by
  induction l using List.reverseRecOn with
  | nil =>
      rw [List.foldl_nil, List.filter_nil, lanesOf, List.take_nil, List.drop_nil,
        replicate_eq_cells binAt]
      rfl
  | append_singleton l s ih =>
      rw [List.foldl_append, ih, List.filter_append]
      cases hkeep : keep s with
      | true =>
          have hone : [s].filter keep = [s] := by simp [hkeep]
          rw [hone]
          exact step_lanesOf (l.filter keep) hkeep
      | false =>
          have hnone : [s].filter keep = [] := by simp [hkeep]
          rw [hnone, List.append_nil]
          show Lanes.step binAt bins lanes keep (lanesOf binAt bins lanes (l.filter keep)) s = _
          rw [Lanes.step]
          rw [hkeep, Bool.not_false, if_pos rfl]

/-- The lanes are those of the groups. -/
theorem finish_lanesOf (shown : List Stream) :
    (lanesOf binAt bins lanes shown).finish =
      (laneGroups lanes shown).map fun g => ⟨g.1, cellsOf binAt bins g.2⟩ := by
  rw [Lanes.finish, laneGroups, lanesOf]
  rw [List.map_append, List.map_map]
  by_cases hrest : shown.drop (lanes - 1) = []
  · rw [if_pos hrest, hrest, List.map_nil, List.append_nil]
    rfl
  · rw [if_neg hrest]
    have hused : (!(shown.drop (lanes - 1)).isEmpty) = true := by simpa using hrest
    rw [hused, if_pos rfl]
    rfl

/-- Every stream shown is in one group. -/
theorem flatMap_laneGroups (lanes : Nat) (shown : List Stream) : (laneGroups lanes shown).flatMap Prod.snd = shown := by
  have hown : ((shown.take (lanes - 1)).map fun s => (some s.createdSeq, [s])).flatMap Prod.snd =
      shown.take (lanes - 1) := by
    rw [List.flatMap_map]
    exact List.flatMap_singleton' _
  have hrest : (if shown.drop (lanes - 1) = [] then [] else [(none, shown.drop (lanes - 1))] :
      List (Option Nat × List Stream)).flatMap Prod.snd = shown.drop (lanes - 1) := by
    split
    · rename_i h
      rw [h]
      rfl
    · exact List.append_nil _
  rw [laneGroups, List.flatMap_append, hown, hrest, List.take_append_drop]

theorem length_laneGroups (hlanes : 0 < lanes) (shown : List Stream) : (laneGroups lanes shown).length ≤ lanes := by
  rw [laneGroups]
  rw [List.length_append, List.length_map, List.length_take]
  split
  · rw [List.length_nil]
    omega
  · rw [List.length_singleton]
    omega

/-- A bin has the counts of all groups together. -/
theorem sum_groups (p : Stream → Bool) (groups : List (Option Nat × List Stream)) :
    (groups.map fun g => g.2.countP p).sum = (groups.flatMap Prod.snd).countP p := by
  induction groups with
  | nil => rfl
  | cons g groups ih => rw [List.map_cons, List.sum_cons, ih, List.flatMap_cons, List.countP_append]

end Groups

/-! ## The capture -/

/-- The nanoseconds from the begin of the capture to its end, one at least. -/
def TimelineBins.span (tl : TimelineBins) : Nat := max (nanosSince tl.end_ tl.start) 1

/-- The stream's interval meets a bin's share of the capture. -/
def TimelineBins.Meets (tl : TimelineBins) (bins : Nat) (s : Stream) (b : Nat) : Prop :=
  MeetsBin tl.span bins (nanosSince s.firstSeen tl.start) (nanosSince s.lastSeen tl.start) b

open Classical in
/-- The number of streams of a group that meet a bin. -/
noncomputable def TimelineBins.active (tl : TimelineBins) (bins : Nat) (group : List Stream) (b : Nat) : Nat :=
  group.countP fun s => tl.Meets bins s b

/-- The capture begins with the first stream and ends with the last. -/
structure Spans (streams : List Stream) (start end_ : SystemTime) : Prop where
  start_mem : ∃ s ∈ streams, s.firstSeen = start
  start_le : ∀ s ∈ streams, start ≤ s.firstSeen
  end_mem : ∃ s ∈ streams, s.lastSeen = end_
  le_end : ∀ s ∈ streams, s.lastSeen ≤ end_

section Spans

variable {snap : AggregatorSnapshot} {start end_ : SystemTime}

theorem captureSpan_nil (h : snap.streams = []) : captureSpan snap = none := by
  rw [captureSpan, h]
  rfl

theorem exists_captureSpan (h : snap.streams ≠ []) :
    ∃ start end_, captureSpan snap = some (start, end_) ∧ Spans snap.streams start end_ := by
  have hfirst : (snap.streams.map Stream.firstSeen) ≠ [] := by simpa using h
  have hlast : (snap.streams.map Stream.lastSeen) ≠ [] := by simpa using h
  obtain ⟨start, hstart⟩ := Option.isSome_iff_exists.1 (List.isSome_min?_of_ne_nil hfirst)
  obtain ⟨end_, hend⟩ := Option.isSome_iff_exists.1 (List.isSome_max?_of_ne_nil hlast)
  refine ⟨start, end_, by rw [captureSpan, hstart, hend]; rfl, ?_⟩
  obtain ⟨hstartMem, hstartLe⟩ := List.min?_eq_some_iff.1 hstart
  obtain ⟨hendMem, hendLe⟩ := List.max?_eq_some_iff.1 hend
  exact ⟨List.mem_map.1 hstartMem, fun s hs => hstartLe _ (List.mem_map_of_mem hs), List.mem_map.1 hendMem,
    fun s hs => hendLe _ (List.mem_map_of_mem hs)⟩

/-- A capture of streams that begin before they end does so itself. -/
theorem Spans.start_le_end (h : Spans snap.streams start end_)
    (htimes : ∀ s ∈ snap.streams, s.firstSeen ≤ s.lastSeen) : start ≤ end_ := by
  obtain ⟨s, hs, rfl⟩ := h.start_mem
  exact (htimes s hs).trans (h.le_end s hs)

theorem nanosSince_mono {t u v : SystemTime} (h : t ≤ u) : nanosSince t v ≤ nanosSince u v :=
  Int.toNat_le_toNat (Int.sub_le_sub_right h v)

end Spans

/-! ## Conservation -/

/-- The timeline shows these streams: the visible ones, each once, those with the most bytes first. They are
divided into groups, each the streams of one lane, whose cells count those of them that meet a bin. -/
structure Conserves (env : LensEnv) (snap : AggregatorSnapshot) (query : Option Text) (bins lanes : Nat)
    (tl : TimelineBins) (shown : List Stream) : Prop where
  spans : Spans snap.streams tl.start tl.end_
  visible : ∀ s, s ∈ shown ↔ s ∈ snap.streams ∧ Passes env snap.streams query .roots s
  once : shown.Nodup
  byBytes : shown.Pairwise fun s t => totalBytes t ≤ totalBytes s
  few : tl.lanes.length ≤ lanes
  lanes_eq : tl.lanes = (laneGroups lanes shown).map fun g => ⟨g.1, (List.range bins).map (tl.active bins g.2)⟩
  groups : (laneGroups lanes shown).flatMap Prod.snd = shown
  width : ∀ lane ∈ tl.lanes, lane.active.length = bins
  sums : ∀ b < bins, (tl.lanes.map fun lane => lane.active.getD b 0).sum = tl.active bins shown b
  counted : ∀ s ∈ shown, ∃ b < bins, tl.Meets bins s b

section Conserves

variable {env : LensEnv} {snap : AggregatorSnapshot} {query : Option Text} {bins lanes : Nat}
  {start end_ : SystemTime}

/-- The index of a bin fits in a `usize`. -/
theorem timeBin_eq {span : Nat} (hmax : bins ≤ 2048) {ts : SystemTime}
    (hts : nanosSince ts start ≤ span) : timeBin start span bins ts = binOf span bins (nanosSince ts start) := by
  have hle : nanosSince ts start * bins / span ≤ bins := by
    apply Nat.div_le_of_le_mul
    exact Nat.mul_le_mul_right bins hts
  rw [timeBin, binOf]
  rw [Nat.mod_eq_of_lt (by omega)]

/-- The bins of a stream's ends are those that its interval meets. -/
theorem inBins_iff (hspans : Spans snap.streams start end_) (hmax : bins ≤ 2048) {s : Stream}
    (hs : s ∈ snap.streams) (htimes : s.firstSeen ≤ s.lastSeen) {b : Nat} (hb : b < bins) :
    inBins (timeBin start (max (nanosSince end_ start) 1) bins) s b = true ↔
      MeetsBin (max (nanosSince end_ start) 1) bins (nanosSince s.firstSeen start) (nanosSince s.lastSeen start) b := by
  have hspan : 0 < max (nanosSince end_ start) 1 := Nat.lt_of_lt_of_le Nat.zero_lt_one (le_max_right _ _)
  have hlast : nanosSince s.lastSeen start ≤ max (nanosSince end_ start) 1 :=
    (nanosSince_mono (hspans.le_end s hs)).trans (le_max_left _ _)
  have hle : nanosSince s.firstSeen start ≤ nanosSince s.lastSeen start := nanosSince_mono htimes
  have hfirst := hle.trans hlast
  rw [inBins]
  rw [decide_eq_true_eq, timeBin_eq hmax hfirst, timeBin_eq hmax hlast, meets_iff hspan hle hfirst hb]

theorem clamp_bounds (n : Nat) {low high : Nat} (h : low ≤ high) : low ≤ clamp n low high ∧ clamp n low high ≤ high := by
  rw [clamp]
  omega

/-- The sum of the cells of a bin. -/
theorem sum_cells {f : List Stream → Nat → Nat} (groups : List (Option Nat × List Stream)) {b : Nat} (hb : b < bins) :
    ((groups.map fun g => (⟨g.1, (List.range bins).map (f g.2)⟩ : TimelineLane)).map fun lane =>
      lane.active.getD b 0).sum = (groups.map fun g => f g.2 b).sum := by
  rw [List.map_map]
  congr 1
  apply List.map_congr_left
  intro g _
  simp [hb]

/-- On the streams of the capture, the bins of their ends say what they meet. -/
theorem cellsOf_timeBin (hspans : Spans snap.streams start end_)
    (htimes : ∀ s ∈ snap.streams, s.firstSeen ≤ s.lastSeen) (hmax : bins ≤ 2048) {group : List Stream}
    (hgroup : ∀ s ∈ group, s ∈ snap.streams) :
    cellsOf (timeBin start (max (nanosSince end_ start) 1) bins) bins group =
      (List.range bins).map (TimelineBins.active ⟨start, end_, []⟩ bins group) := by
  classical
  apply List.map_congr_left
  intro b hb
  apply List.countP_congr
  intro s hs
  rw [inBins_iff hspans hmax (hgroup s hs) (htimes s (hgroup s hs)) (List.mem_range.1 hb), decide_eq_true_eq]
  rfl

/-- The lanes are the groups of the streams shown, with the cells that their streams are active in. -/
theorem finish_lanesOf_timeBin (hspans : Spans snap.streams start end_)
    (htimes : ∀ s ∈ snap.streams, s.firstSeen ≤ s.lastSeen) (hmax : bins ≤ 2048) {shown : List Stream}
    (hmem : ∀ s ∈ shown, s ∈ snap.streams) :
    (lanesOf (timeBin start (max (nanosSince end_ start) 1) bins) bins lanes shown).finish =
      (laneGroups lanes shown).map fun g =>
        ⟨g.1, (List.range bins).map (TimelineBins.active ⟨start, end_, []⟩ bins g.2)⟩ := by
  rw [finish_lanesOf]
  apply List.map_congr_left
  intro g hg
  have hgroup : ∀ s ∈ g.2, s ∈ snap.streams := fun s hs =>
    hmem s (flatMap_laneGroups lanes shown ▸ List.mem_flatMap.2 ⟨g, hg, hs⟩)
  rw [cellsOf_timeBin hspans htimes hmax hgroup]

/-- The timeline of a capture conserves its visible streams: `shown` is the part of the byte order that is
kept. -/
theorem conserves_of_kept (h : snap.WellFormed) (hquery : Answerable query) {sets : Option QuerySets}
    (hsets : setsOf env snap.streams query = .ok sets) (hspans : Spans snap.streams start end_)
    (htimes : ∀ s ∈ snap.streams, s.firstSeen ≤ s.lastSeen) (hbins : 0 < bins) (hmax : bins ≤ 2048)
    (hlanes : 0 < lanes) :
    Conserves env snap query bins lanes
      ⟨start, end_, ((lanesOf (timeBin start (max (nanosSince end_ start) 1) bins) bins lanes
        ((ranked snap.streams .bytes).filter (keeps (sets.map Prod.snd)))).finish)⟩
      ((ranked snap.streams .bytes).filter (keeps (sets.map Prod.snd))) := by
  have hkeep : sets.map Prod.snd = keepOf sets .roots := rfl
  -- the streams shown are kept in byte order
  generalize hshown : (ranked snap.streams .bytes).filter (keeps (sets.map Prod.snd)) = shown
  have hmem : ∀ s ∈ shown, s ∈ snap.streams := by
    intro s hs
    rw [← hshown] at hs
    exact mem_sortByKey.1 (List.mem_filter.1 hs).1
  have hgroups := flatMap_laneGroups lanes shown
  rw [finish_lanesOf_timeBin hspans htimes hmax hmem]
  constructor
  case spans => exact hspans
  case visible =>
    intro s
    rw [← hshown, List.mem_filter, ranked, mem_sortByKey]
    apply and_congr_right
    intro hs
    rw [hkeep]
    exact keeps_iff h hquery hsets .roots hs
  case once =>
    rw [← hshown]
    exact ((perm_sortByKey _ _).nodup_iff.2 (streams_nodup h)).filter _
  case byBytes =>
    rw [← hshown]
    refine ((pairwise_keys (sortRank .bytes) snap.streams).imp ?_).filter _
    intro s t hle
    rcases Prod.Lex.toLex_le_toLex.1 hle with hlt | ⟨heq, -⟩
    · exact (OrderDual.toDual_lt_toDual.1 hlt).le
    · exact (OrderDual.toDual_inj.1 heq).ge
  case few =>
    rw [List.length_map]
    exact length_laneGroups hlanes shown
  case lanes_eq => rfl
  case groups => exact hgroups
  case width =>
    intro lane hlane
    obtain ⟨g, -, rfl⟩ := List.mem_map.1 hlane
    rw [List.length_map, List.length_range]
  case sums =>
    intro b hb
    rw [sum_cells _ hb]
    exact (sum_groups _ _).trans (congrArg (List.countP _) hgroups)
  case counted =>
    intro s hs
    have hle := htimes s (hmem s hs)
    -- the bin of its first packet is one that the stream meets
    have hspan : 0 < max (nanosSince end_ start) 1 := Nat.lt_of_lt_of_le Nat.zero_lt_one (le_max_right _ _)
    have hlast : nanosSince s.lastSeen start ≤ max (nanosSince end_ start) 1 :=
      (nanosSince_mono (hspans.le_end s (hmem s hs))).trans (le_max_left _ _)
    have hfirst := nanosSince_mono (v := start) hle
    have hb := binOf_lt hbins (max (nanosSince end_ start) 1) (nanosSince s.firstSeen start)
    exact ⟨_, hb, (meets_iff hspan hfirst (hfirst.trans hlast) hb).2 ⟨le_rfl, binOf_mono hfirst⟩⟩

/-- The timeline of a capture, under any query that does not stop the lexer: none without streams, else one that
conserves the visible streams. -/
theorem timeline_conserves (h : snap.WellFormed) (htimes : ∀ s ∈ snap.streams, s.firstSeen ≤ s.lastSeen)
    {index : SnapshotIndex} (hindex : IndexOf env snap index) (spec : TimelineSpec)
    (hquery : Answerable spec.query) :
    (snap.streams = [] → index.timeline env spec = .ok (none, index)) ∧
      (snap.streams ≠ [] → ∃ tl shown index', index.timeline env spec = .ok (some tl, index') ∧
        Conserves env snap spec.query (clamp spec.bins 1 2048) (clamp spec.lanes 1 512) tl shown) := by
  have hvalid := hindex.valid h.length_lt
  constructor
  · intro hnil
    rw [SnapshotIndex.timeline]
    rw [hvalid.snap_eq, captureSpan_nil hnil]
  · intro hne
    obtain ⟨start, end_, hcapture, hspans⟩ := exists_captureSpan hne
    obtain ⟨hbins, hmax⟩ := clamp_bounds spec.bins (show 1 ≤ 2048 by decide)
    obtain ⟨hlanes, -⟩ := clamp_bounds spec.lanes (show 1 ≤ 512 by decide)
    obtain ⟨sets, hsets⟩ : ∃ sets, setsOf env snap.streams spec.query = .ok sets := by
      rcases setsOf_ok hquery with ⟨hnone, -⟩ | ⟨e, hsome, -⟩
      · exact ⟨none, hnone⟩
      · exact ⟨_, hsome⟩
    obtain ⟨index₁, hwindow, hvalid₁⟩ := (hvalid.windowSets_eq spec.query).2 sets hsets
    obtain ⟨horder, hvalid₂⟩ := hvalid₁.order_eq .bytes
    refine ⟨_, _, (index₁.order .bytes).2, ?_, conserves_of_kept h hquery hsets hspans htimes hbins hmax hlanes⟩
    rw [SnapshotIndex.timeline]
    rw [hvalid.snap_eq, hcapture]
    dsimp only
    rw [if_neg (not_lt.2 (hspans.start_le_end htimes)), hwindow]
    dsimp only [bind, Except.bind]
    rw [hvalid₂.snap_eq, horder, filterMap_computeOrder h.length_lt, foldl_lanes]
    rfl

end Conserves

/-- A capture of one instant, two bins wide. -/
def instantLanes : Option (List TimelineLane) :=
  (((SnapshotIndex.new ⟨[bareStream 0 none 7 7], [⟨0, 0⟩]⟩).timeline sampleLens ⟨2, 4, none⟩).toOption.bind
    Prod.fst).map TimelineBins.lanes

/-- The end of such a capture, which belongs to the last share of its span, is counted in the first bin only. -/
theorem timeline_instant :
    captureSpan ⟨[bareStream 0 none 7 7], [⟨0, 0⟩]⟩ = some (7, 7) ∧ MeetsBin (nanosSince 7 7) 2 0 0 1 ∧
      instantLanes = some [⟨some 0, [1, 0]⟩] :=
  ⟨by decide +kernel, ⟨0, le_rfl, le_rfl, .inr ⟨rfl, rfl⟩⟩, by decide +kernel⟩

/-- The timeline of the sample capture, in four bins and three lanes. -/
theorem timeline_conserves_sample : ∃ tl shown index',
    (SnapshotIndex.new (run (sampleEnv .none 2) sampleOps).snapshot).timeline sampleLens ⟨4, 3, none⟩ =
      .ok (some tl, index') ∧
    Conserves sampleLens (run (sampleEnv .none 2) sampleOps).snapshot none 4 3 tl shown := by
  have hwf := Aggregator.snapshot_wellFormed (reaches_run (sampleEnv .none 2) sampleOps (by decide))
  have htimes : (run (sampleEnv .none 2) sampleOps).snapshot.streams.all (fun s => s.firstSeen ≤ s.lastSeen) = true := by
    decide +kernel
  have hlen : (run (sampleEnv .none 2) sampleOps).snapshot.streams.length = 7 := by decide +kernel
  refine (timeline_conserves hwf (fun s hs => ?_) .new ⟨4, 3, none⟩ ?_).2 ?_
  · exact of_decide_eq_true (List.all_eq_true.1 htimes s hs)
  · intro q hq
    cases hq
  · intro hnil
    rw [hnil] at hlen
    cases hlen

end Pktflow.View
