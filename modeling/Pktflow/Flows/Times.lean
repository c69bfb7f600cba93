import Pktflow.Flows.Streams

/-!
# First and last seen

`first_seen` is set when a stream is created and `last_seen` is overwritten by every packet. They are
the extreme times of the folded packets (`SeenExact`) in exactly those runs in which no packet is folded
into a stream that was seen later (`seenExact_iff`); a packet that is older than its stream takes
`last_seen` back.

For captures in time order, `OrderedStable` carries properties that depend on the time of the last packet
through a run.
-/

set_option autoImplicit false

namespace Pktflow.Flows

open Pktflow.Core Pktflow.Lib

/-- The times of the packets folded into a stream. -/
def Stream.times (s : Stream) : List SystemTime := s.history.map Fold.ts

section Absorb

variable (s : Stream) (identity : StreamIdentity) (layer : LayerRecord) (key : FlowKey)
  (dir : PacketDirection) (ts : SystemTime) (origlen : Nat)

theorem Stream.absorb_times :
    (s.absorb identity layer key dir ts origlen).1.times = s.times ++ [ts] := by
  rw [Stream.absorb_eq]
  simp only [Stream.times, List.map_append, List.map_cons, List.map_nil]

theorem Stream.absorb_seen :
    (s.absorb identity layer key dir ts origlen).1.firstSeen = s.firstSeen ∧
      (s.absorb identity layer key dir ts origlen).1.lastSeen = ts := by
  rw [Stream.absorb_eq]
  exact ⟨rfl, rfl⟩

end Absorb

/-- `first_seen` is the least and `last_seen` the greatest time of the folded packets. -/
structure SeenExact (s : Stream) : Prop where
  first : IsLeast {t | t ∈ s.times} s.firstSeen
  last : IsGreatest {t | t ∈ s.times} s.lastSeen

/-- A packet that is not older than the stream keeps it exact. -/
theorem SeenExact.absorb {s : Stream} {ts : SystemTime} (h : SeenExact s) (hle : s.lastSeen ≤ ts)
    (identity : StreamIdentity) (layer : LayerRecord) (key : FlowKey) (dir : PacketDirection)
    (origlen : Nat) : SeenExact (s.absorb identity layer key dir ts origlen).1 := by
  obtain ⟨hfirst, hlast⟩ := s.absorb_seen identity layer key dir ts origlen
  have htimes := s.absorb_times identity layer key dir ts origlen
  -- everything before is between `first_seen` and the old `last_seen`
  have hbefore : ∀ t ∈ s.times, s.firstSeen ≤ t ∧ t ≤ ts := fun t ht =>
    ⟨h.first.2 ht, le_trans (h.last.2 ht) hle⟩
  refine ⟨⟨?_, ?_⟩, ⟨?_, ?_⟩⟩
  · rw [htimes, hfirst]
    exact List.mem_append_left _ h.first.1
  · rintro t ht
    rw [htimes] at ht
    rw [hfirst]
    rcases List.mem_append.1 ht with hold | hnew
    · exact (hbefore t hold).1
    · obtain rfl := List.mem_singleton.1 hnew
      exact (hbefore _ h.first.1).2
  · rw [htimes, hlast]
    exact List.mem_append_right _ (List.mem_singleton_self ts)
  · rintro t ht
    rw [htimes] at ht
    rw [hlast]
    rcases List.mem_append.1 ht with hold | hnew
    · exact (hbefore t hold).2
    · exact le_of_eq (List.mem_singleton.1 hnew)

/-- The packet that creates a stream is its only one. -/
theorem seenExact_absorb_first {s : Stream} {ts : SystemTime} (hnil : s.times = [])
    (hts : s.firstSeen = ts) (identity : StreamIdentity) (layer : LayerRecord) (key : FlowKey)
    (dir : PacketDirection) (origlen : Nat) :
    SeenExact (s.absorb identity layer key dir ts origlen).1 := by
  obtain ⟨hfirst, hlast⟩ := s.absorb_seen identity layer key dir ts origlen
  have htimes := s.absorb_times identity layer key dir ts origlen
  rw [hnil, List.nil_append] at htimes
  have hset : {t | t ∈ (s.absorb identity layer key dir ts origlen).1.times} = {ts} := by
    rw [htimes]
    ext t
    exact List.mem_singleton
  constructor
  case first =>
    rw [hset, hfirst, hts]
    exact isLeast_singleton
  case last =>
    rw [hset, hlast]
    exact isGreatest_singleton

namespace Aggregator

/-! ## One packet -/

/-- A layer whose stream, if it is live, was last seen no later than the packet. -/
def FoldsForward (env : Env) (pkt : DissectedPacket) (w : Walk) (layer : LayerRecord) : Prop :=
  ∀ id s, foldTarget env pkt w layer = some id → w.agg.get id = some s →
    s.lastSeen ≤ pkt.meta_.timestamp

/-- An ingest that folds every layer forward. -/
def StepInOrder (env : Env) (a : Aggregator) : Op → Prop
  | .finish => True
  | .ingest pkt => ∀ layers layer rest, pkt.layers = layers ++ layer :: rest →
      FoldsForward env pkt (a.walkLayers env pkt layers) layer

/-- Exactness is established by a packet that is not older than the stream. -/
theorem seenExact_rule (env : Env) (ts : SystemTime) :
    StreamRule env ts SeenExact fun s =>
      (SeenExact s ∧ s.lastSeen ≤ ts) ∨ (s.times = [] ∧ s.firstSeen = ts) where
  facts := fun s => ⟨fun h => ⟨h.first, h.last⟩, fun h => ⟨h.first, h.last⟩⟩
  tail := fun s n h => ⟨h.first, h.last⟩
  new := fun n id seq hts => .inr ⟨rfl, hts⟩
  count := by
    rintro s (⟨h, hle⟩ | h)
    · exact .inl ⟨⟨h.first, h.last⟩, hle⟩
    · exact .inr h
  overflow := by
    rintro s (⟨h, hle⟩ | h)
    · exact .inl ⟨⟨h.first, h.last⟩, hle⟩
    · exact .inr h
  absorb := by
    intro s plugin identity layer key dir origlen _ h
    rcases h with ⟨h, hle⟩ | ⟨hnil, hts⟩
    · exact h.absorb hle identity layer key dir origlen
    · exact seenExact_absorb_first hnil hts identity layer key dir origlen

/-- In any order, `last_seen` is the time of a folded packet. -/
theorem lastSeen_rule (env : Env) (ts : SystemTime) :
    StreamRule env ts (fun s => s.lastSeen ∈ s.times) fun _ => True where
  facts := fun _ => Iff.rfl
  tail := fun _ _ h => h
  new := fun _ _ _ _ => trivial
  count := fun _ _ => trivial
  overflow := fun _ _ => trivial
  absorb := by
    intro s plugin identity layer key dir origlen _ _
    rw [s.absorb_times, (s.absorb_seen identity layer key dir ts origlen).2]
    exact List.mem_append_right _ (List.mem_singleton_self ts)

/-- An ingest in order keeps exactness. -/
theorem seenExact_ingest {env : Env} {a : Aggregator} {pkt : DissectedPacket} (hf : ForestInv a)
    (htab : TableInv env a) (hfits : (a.ingest env pkt).Fits) (h : Everywhere SeenExact a)
    (horder : StepInOrder env a (.ingest pkt)) : Everywhere SeenExact (a.ingest env pkt) := by
  have hrule := seenExact_rule env pkt.meta_.timestamp
  have hloops := (everywhere_heapFree env hrule.facts).loopStable
  have hstable := (TableInv.runStable env).ingestStable pkt
  -- the walk, over the prefixes of the packet's layers
  have hwalk := walk_rule (I := fun layers w => w = a.walkLayers env pkt layers ∧ TableInv env w.agg ∧
    ∀ rest, pkt.layers = layers ++ rest → Everywhere SeenExact w.agg) (hf.beforeWalk pkt)
    ⟨rfl, hstable.beforeWalk hf ((TableInv.runStable env).tick pkt htab), fun _ _ =>
      hloops.beforeWalk hf h⟩ (by
        rintro layers w w' layer hw hw' hstep hfits ⟨rfl, ht, hexact⟩
        refine ⟨?_, hstable.layer hw trivial hstep hfits ht, ?_⟩
        · rw [walkLayers_append, hw']
        · intro rest hrest
          rw [List.append_assoc, List.singleton_append] at hrest
          apply (hexact _ hrest).layer hrule hw ht hstep hfits
          intro id s htarget hs hP
          -- the layer folds forward, whatever came before it in the packet
          exact .inl ⟨hP, horder layers layer rest hrest id s htarget hs⟩)
    pkt.layers (fits_walk hfits)
  obtain ⟨hw, -, -, hexact⟩ := hwalk
  obtain ⟨hfb, -⟩ := (runStable_true env).beforeEnforce hf trivial hfits
  have hwalked : Everywhere SeenExact (a.walkLayers env pkt pkt.layers).agg :=
    hexact [] (List.append_nil _).symm
  have hbefore : Everywhere SeenExact (a.beforeEnforce env pkt) := by
    refine everywhere_iff.2 ?_
    have htail : ∀ s n, lacking SeenExact (Stream.addOpaqueBytes s n) = lacking SeenExact s := by
      intro s n
      have heq : SeenExact (s.addOpaqueBytes n) = SeenExact s :=
        propext ⟨fun h => ⟨h.first, h.last⟩, fun h => ⟨h.first, h.last⟩⟩
      rw [lacking, lacking, heq]
    rw [tally_beforeEnforce (factual_lacking hrule.facts) htail]
    exact everywhere_iff.1 hwalked
  exact hloops.enforceMaxStreams hfb hbefore

/-! ## A packet that is folded back -/

/-- Counts the streams whose `last_seen` is `ts` although a later packet was folded into them. -/
def regressed (ts : SystemTime) (s : Stream) : Nat :=
  if s.lastSeen = ts ∧ ∃ t ∈ s.times, ts < t then 1 else 0

theorem regressed_factual (ts : SystemTime) : Factual (regressed ts) := fun _ => rfl

/-- A regressed stream is not exact. -/
theorem not_seenExact_of_regressed {a : Aggregator} {ts : SystemTime} (h : 1 ≤ tally (regressed ts) a) :
    ¬ Everywhere SeenExact a := by
  intro hexact
  have hzero : tally (regressed ts) a = 0 := by
    apply List.sum_eq_zero_iff.2
    intro n hn
    obtain ⟨s, hs, rfl⟩ := List.mem_map.1 hn
    apply if_neg
    rintro ⟨rfl, t, ht, hlt⟩
    exact absurd ((hexact s hs).last.2 ht) (not_le.2 hlt)
  omega

/-- A packet older than one the stream has makes it regressed. -/
theorem regressed_absorb {s : Stream} {t ts : SystemTime} (ht : t ∈ s.times) (hlt : ts < t)
    (identity : StreamIdentity) (layer : LayerRecord) (key : FlowKey) (dir : PacketDirection)
    (origlen : Nat) : regressed ts (s.absorb identity layer key dir ts origlen).1 = 1 := by
  refine if_pos ⟨(s.absorb_seen _ _ _ _ _ _).2, t, ?_, hlt⟩
  rw [s.absorb_times]
  exact List.mem_append_left _ ht

/-- A regressed stream stays so under packets of the same time. -/
theorem regressed_le_absorb (s : Stream) (identity : StreamIdentity) (layer : LayerRecord)
    (key : FlowKey) (dir : PacketDirection) (ts : SystemTime) (origlen : Nat) :
    regressed ts s ≤ regressed ts (s.absorb identity layer key dir ts origlen).1 := by
  by_cases hold : s.lastSeen = ts ∧ ∃ t ∈ s.times, ts < t
  · obtain ⟨-, t, ht, hlt⟩ := id hold
    rw [regressed_absorb ht hlt, regressed, if_pos hold]
  · rw [regressed, if_neg hold]
    exact Nat.zero_le _

/-- Resolution does not change the times of the stream it leads to. -/
theorem Resolution.keeps_times {env : Env} {a : Aggregator} {parent : Option StreamId} {key : FlowKey}
    {identity : StreamIdentity} {condense : Option CondenseSpec} {layer : LayerRecord}
    {dir : PacketDirection} {ts : SystemTime} {r : Aggregator × StreamId × PacketDirection}
    (hr : Resolution env a parent key identity condense layer dir ts r) (hlim : a.Fits) :
    ∀ s₀, a.get r.2.1 = some s₀ →
      ∃ s, r.1.get r.2.1 = some s ∧ s.times = s₀.times ∧ s.lastSeen = s₀.lastSeen := by
  have hmod : ∀ {c : Aggregator} {i : StreamId} {f : Stream → Stream},
      (∀ s, (f s).times = s.times) → (∀ s, (f s).lastSeen = s.lastSeen) →
      (∀ s₀, a.get i = some s₀ → ∃ s, c.get i = some s ∧ s.times = s₀.times ∧
        s.lastSeen = s₀.lastSeen) →
      ∀ s₀, a.get i = some s₀ → ∃ s, (c.modify i f).get i = some s ∧ s.times = s₀.times ∧
        s.lastSeen = s₀.lastSeen := by
    intro c i f htimes hseen hc s₀ hs₀
    obtain ⟨s, hs, hst, hsl⟩ := hc s₀ hs₀
    refine ⟨f s, ?_, (htimes s).trans hst, (hseen s).trans hsl⟩
    rw [get_modify, Function.update_self, hs]
    rfl
  refine hr.rule_at (J := fun i b => ∀ s₀, a.get i = some s₀ → ∃ s, b.get i = some s ∧
    s.times = s₀.times ∧ s.lastSeen = s₀.lastSeen) ?_ ?_ ?_ ?_ ?_
  · intro s hs s₀ hs₀
    exact ⟨s₀, hs₀, rfl, rfl⟩
  · intro n _ _ s₀ hs₀
    -- a created stream was not there before
    rw [get_freshId hlim] at hs₀
    cases hs₀
  · intro c i hc
    exact hmod (fun _ => rfl) (fun _ => rfl) hc
  · intro c i hc
    exact hmod (fun _ => rfl) (fun _ => rfl) hc
  · intro i c m t p _ hc
    exact hc

/-- A layer keeps the streams regressed, and one that is not folded forward makes one so. -/
theorem regressed_layer {env : Env} {pkt : DissectedPacket} {w w' : Walk} {layer : LayerRecord}
    (hw : WalkInv w) (hstep : LayerStep env pkt w layer w') (hfits : w'.agg.Fits)
    (hlast : Everywhere (fun s => s.lastSeen ∈ s.times) w.agg)
    (h : 1 ≤ tally (regressed pkt.meta_.timestamp) w.agg ∨ ¬ FoldsForward env pkt w layer) :
    1 ≤ tally (regressed pkt.meta_.timestamp) w'.agg := by
  have hφ := regressed_factual pkt.meta_.timestamp
  have hnot : foldTarget env pkt w layer = none → FoldsForward env pkt w layer := by
    intro hnone id s htarget
    rw [hnone] at htarget
    cases htarget
  cases hstep with
  | skip hid =>
      refine h.resolve_right (not_not.2 (hnot ?_))
      simp only [foldTarget, hid]
  | keyError hid hkey =>
      refine h.resolve_right (not_not.2 (hnot ?_))
      simp only [foldTarget, hid, hkey]
  | @folded plugin identity key dir foldDir b id hid hkey hr htarget =>
      have hfits' : b.Fits := fits_of_touch hfits
      have hb : tally (regressed pkt.meta_.timestamp) b =
          tally (regressed pkt.meta_.timestamp) w.agg := by
        refine tally_resolution hφ (fun _ => rfl) (fun _ => rfl) ?_ hw.linked hr hfits'
        intro n i seq
        apply if_neg
        rintro ⟨-, t, ht, -⟩
        cases ht
      obtain ⟨-, s, hs⟩ := hw.forest.resolution hw.linked hr hfits'
      simp only at hs
      have htouch := tally_touch hφ env hs identity layer key foldDir pkt.meta_.timestamp
        pkt.meta_.origlen
      -- the touch is by a packet of that very time
      have hmono := regressed_le_absorb s identity layer key foldDir pkt.meta_.timestamp
        pkt.meta_.origlen
      show 1 ≤ tally (regressed pkt.meta_.timestamp) (b.touch env id identity layer key foldDir
        pkt.meta_.timestamp pkt.meta_.origlen)
      rcases h with h | h
      · omega
      · -- the stream was seen later than the packet
        simp only [FoldsForward, not_forall, not_le] at h
        obtain ⟨id', s₀, htarget', hs₀, hlt⟩ := h
        rw [htarget] at htarget'
        obtain rfl := Option.some.inj htarget'
        obtain ⟨u, hu, hut, hul⟩ := hr.keeps_times (hr.fits hfits') s₀ hs₀
        rw [hs] at hu
        obtain rfl := Option.some.inj hu
        have hmem : s₀.lastSeen ∈ s.times := by
          rw [hut]
          exact hlast.live hs₀
        have hone := regressed_absorb hmem hlt identity layer key foldDir pkt.meta_.origlen
        -- before the touch the stream is seen later, so it is not regressed yet
        have hzero : regressed pkt.meta_.timestamp s = 0 := by
          apply if_neg
          rintro ⟨heq, -⟩
          rw [hul] at heq
          exact absurd heq (ne_of_gt hlt)
        omega

/-- An ingest out of order loses exactness. -/
theorem not_seenExact_ingest {env : Env} {a : Aggregator} {pkt : DissectedPacket} (hf : ForestInv a)
    (htab : TableInv env a) (hfits : (a.ingest env pkt).Fits)
    (hlast : Everywhere (fun s => s.lastSeen ∈ s.times) a)
    (horder : ¬ StepInOrder env a (.ingest pkt)) : ¬ Everywhere SeenExact (a.ingest env pkt) := by
  have hstable := (TableInv.runStable env).and
    (StreamRule.runStable (lastSeen_rule env) fun _ _ _ => trivial)
  -- from the first layer that is folded back on, a stream is regressed
  have hwalk := walk_rule (I := fun layers w => w = a.walkLayers env pkt layers ∧
    (TableInv env w.agg ∧ Everywhere (fun s => s.lastSeen ∈ s.times) w.agg) ∧
    ∀ before layer after, layers = before ++ layer :: after →
      ¬ FoldsForward env pkt (a.walkLayers env pkt before) layer →
      1 ≤ tally (regressed pkt.meta_.timestamp) w.agg) (hf.beforeWalk pkt)
    ⟨rfl, (hstable.ingestStable pkt).beforeWalk hf (hstable.tick pkt ⟨htab, hlast⟩), by
      intro before layer after hnil
      simp at hnil⟩ (by
        rintro layers w w' layer hw hw' hstep hfits ⟨rfl, hinv, hback⟩
        refine ⟨?_, hstable.layer hw trivial hstep hfits hinv, ?_⟩
        · rw [walkLayers_append, hw']
        · intro before l after hsplit hnot
          apply regressed_layer hw hstep hfits hinv.2
          rcases after.eq_nil_or_concat with rfl | ⟨init, x, rfl⟩
          · obtain ⟨rfl, hl⟩ := List.append_inj' hsplit rfl
            obtain rfl := (List.cons.inj hl).1
            -- the last layer is the one folded back
            exact .inr hnot
          · rw [List.concat_eq_append, ← List.cons_append, ← List.append_assoc] at hsplit
            obtain ⟨rfl, -⟩ := List.append_inj' hsplit rfl
            -- an earlier one was, and the stream is regressed since
            exact .inl (hback before l init rfl hnot))
    pkt.layers (fits_walk hfits)
  obtain ⟨hfb, -⟩ := (runStable_true env).beforeEnforce hf trivial hfits
  obtain ⟨-, -, -, hback⟩ := hwalk
  simp only [StepInOrder, not_forall] at horder
  obtain ⟨before, layer, after, hsplit, hnot⟩ := horder
  have hcap : tally (regressed pkt.meta_.timestamp) (a.ingest env pkt) =
      tally (regressed pkt.meta_.timestamp) (a.beforeEnforce env pkt) :=
    (tally_heapFree env (regressed_factual _) _).loopStable.enforceMaxStreams hfb rfl
  have hone : 1 ≤ tally (regressed pkt.meta_.timestamp) (a.ingest env pkt) := by
    rw [hcap, tally_beforeEnforce (regressed_factual _) fun _ _ => rfl]
    exact hback before layer after hsplit hnot
  exact not_seenExact_of_regressed hone

end Aggregator

/-! ## Runs -/

/-- A run in which no packet is folded into a stream that was seen later. -/
def RunInOrder (env : Env) (ops : List Op) : Prop :=
  ∀ before op after, ops = before ++ op :: after → (run env before).StepInOrder env op

/-- One call keeps exactness if and only if it is in order. -/
theorem seenExact_call {env : Env} {ops : List Op} {op : Op} {a : Aggregator}
    (h : Reaches env (ops ++ [op]) a) (hexact : (run env ops).Everywhere SeenExact) :
    (run env ops).StepInOrder env op ↔ (run env (ops ++ [op])).Everywhere SeenExact := by
  obtain ⟨hr, hfits⟩ := h.of_append_singleton
  have hstable := (Aggregator.TableInv.runStable env).and
    (Aggregator.StreamRule.runStable (Aggregator.lastSeen_rule env) fun _ _ _ => trivial)
  obtain ⟨hf, htab, hlast⟩ := hstable.reaches hr
  rw [run_append]
  cases op with
  | finish =>
      -- `finish` folds no packet
      have hfree := Aggregator.everywhere_heapFree env (Aggregator.seenExact_rule env 0).facts
      exact ⟨fun _ => (hfree.toEvictStable.finish hf hexact).2, fun _ => trivial⟩
  | ingest pkt =>
      constructor
      · exact Aggregator.seenExact_ingest hf htab hfits hexact
      · intro hafter
        by_contra hnot
        exact Aggregator.not_seenExact_ingest hf htab hfits hlast hnot hafter

/-- **First and last seen.** Along a run, `first_seen` and `last_seen` of every live and every removed
stream are the least and the greatest time of the packets folded into it, after every call, exactly if
no packet is folded into a stream that was seen later. -/
theorem seenExact_iff {env : Env} {ops : List Op} {a : Aggregator} (h : Reaches env ops a) :
    RunInOrder env ops ↔
      ∀ before after, ops = before ++ after → (run env before).Everywhere SeenExact := by
  constructor
  · intro horder before
    -- over the calls so far
    induction before using List.reverseRecOn with
    | nil =>
        rintro after -
        intro s hs
        cases hs
    | append_singleton before op ih =>
        rintro after rfl
        have hsplit : before ++ [op] ++ after = before ++ op :: after := by simp
        exact (seenExact_call h.of_append (ih (op :: after) hsplit)).1 (horder before op after hsplit)
  · rintro hexact before op after rfl
    have hsplit : before ++ op :: after = before ++ [op] ++ after := by simp
    have hr := h
    rw [hsplit] at hr
    exact (seenExact_call hr.of_append (hexact before _ rfl)).2 (hexact _ after hsplit)

/-! ## Captures in time order -/

theorem timestamps_ingest (ops : List Op) (pkt : DissectedPacket) :
    timestamps (ops ++ [.ingest pkt]) = timestamps ops ++ [pkt.meta_.timestamp] := by
  simp [timestamps, packetsOf]

theorem timestamps_finish (ops : List Op) : timestamps (ops ++ [.finish]) = timestamps ops := by
  simp [timestamps, packetsOf]

/-- The packets before the last one of a capture in time order are in order and no later. -/
theorem timestamps_sorted {ops : List Op} {pkt : DissectedPacket}
    (h : (timestamps (ops ++ [.ingest pkt])).Pairwise (· ≤ ·)) :
    (timestamps ops).Pairwise (· ≤ ·) ∧ ∀ t ∈ timestamps ops, t ≤ pkt.meta_.timestamp := by
  rw [timestamps_ingest, List.pairwise_append] at h
  obtain ⟨hsorted, -, hle⟩ := h
  exact ⟨hsorted, fun t ht => hle t ht _ (List.mem_singleton_self _)⟩

/-- A stream last seen no later than `t`, with its packets in time order. -/
structure SeenBy (t : SystemTime) (s : Stream) : Prop where
  last : s.lastSeen ≤ t
  times : ∀ x ∈ s.times, x ≤ t
  sorted : s.times.Pairwise (· ≤ ·)

namespace Aggregator

theorem seenBy_rule (env : Env) (t : SystemTime) : StreamRule env t (SeenBy t) (SeenBy t) where
  facts := fun s => ⟨fun h => ⟨h.last, h.times, h.sorted⟩, fun h => ⟨h.last, h.times, h.sorted⟩⟩
  tail := fun s n h => ⟨h.last, h.times, h.sorted⟩
  new := fun n id seq hts => ⟨le_of_eq hts, fun x hx => (by cases hx), List.Pairwise.nil⟩
  count := fun s h => ⟨h.last, h.times, h.sorted⟩
  overflow := fun s h => ⟨h.last, h.times, h.sorted⟩
  absorb := by
    intro s plugin identity layer key dir origlen _ h
    have htimes := s.absorb_times identity layer key dir t origlen
    refine ⟨le_of_eq (s.absorb_seen identity layer key dir t origlen).2, ?_, ?_⟩
    · intro x hx
      rw [htimes] at hx
      rcases List.mem_append.1 hx with hold | hnew
      · exact h.times x hold
      · exact le_of_eq (List.mem_singleton.1 hnew)
    · rw [htimes, List.pairwise_append]
      refine ⟨h.sorted, List.pairwise_singleton _ _, ?_⟩
      intro x hx y hy
      obtain rfl := List.mem_singleton.1 hy
      exact h.times x hx

/-- A property of states and the time of the last packet, kept by every step of a capture in time
order; the layer step may rely on `G`. -/
structure OrderedStable (env : Env) (G I : SystemTime → Aggregator → Prop) : Prop where
  mono : ∀ {t t' : SystemTime} {a : Aggregator}, t ≤ t' → I t a → I t' a
  new : ∀ t, I t Aggregator.new
  tick : ∀ {t : SystemTime} {a : Aggregator} (pkt : DissectedPacket), I t a → I t (a.tick pkt)
  evictStable : ∀ t, EvictStable env (I t)
  ingestStable : ∀ pkt : DissectedPacket,
    IngestStable env pkt (G pkt.meta_.timestamp) (I pkt.meta_.timestamp)

namespace OrderedStable

variable {env : Env} {G I : SystemTime → Aggregator → Prop} {ops : List Op} {a : Aggregator}
  {pkt : DissectedPacket}

/-- Two properties, the second resting on the first. -/
theorem and (hG : OrderedStable env (fun _ _ => True) G) (hI : OrderedStable env G I) :
    OrderedStable env (fun _ _ => True) fun t a => G t a ∧ I t a where
  mono := fun hle h => ⟨hG.mono hle h.1, hI.mono hle h.2⟩
  new := fun t => ⟨hG.new t, hI.new t⟩
  tick := fun pkt h => ⟨hG.tick pkt h.1, hI.tick pkt h.2⟩
  evictStable := fun t =>
    { close := fun id h => ⟨(hG.evictStable t).close id h.1, (hI.evictStable t).close id h.2⟩
      evict := fun reason hf hs hc h =>
        ⟨(hG.evictStable t).evict reason hf hs hc h.1, (hI.evictStable t).evict reason hf hs hc h.2⟩ }
  ingestStable := fun pkt => (hG.ingestStable pkt).and (hI.ingestStable pkt)

/-- The run rule for captures in time order. -/
theorem reaches (hI : OrderedStable env (fun _ _ => True) I) (h : Reaches env ops a)
    (hsorted : (timestamps ops).Pairwise (· ≤ ·)) :
    ForestInv a ∧ ∀ t, (∀ x ∈ timestamps ops, x ≤ t) → I t a := by
  induction h with
  | new => exact ⟨ForestInv.new, fun t _ => hI.new t⟩
  | @call ops a op hr hfits ih =>
      cases op with
      | finish =>
          rw [timestamps_finish] at hsorted ⊢
          obtain ⟨hf, h⟩ := ih hsorted
          refine ⟨((runStable_true env).toEvictStable.finish hf trivial).1, fun t ht => ?_⟩
          exact ((hI.evictStable t).finish hf (h t ht)).2
      | ingest pkt =>
          obtain ⟨hsorted', hle⟩ := timestamps_sorted hsorted
          obtain ⟨hf, h⟩ := ih hsorted'
          obtain ⟨hf', h'⟩ := (hI.ingestStable pkt).ingest hf (hI.tick pkt (h _ hle)) hfits
          -- the property was established at the time of this packet, the last one
          refine ⟨hf', fun t ht => hI.mono (ht _ ?_) h'⟩
          rw [timestamps_ingest]
          exact List.mem_append_right _ (List.mem_singleton_self _)

/-- When the next packet of a capture in time order has arrived. -/
theorem arrives (hI : OrderedStable env (fun _ _ => True) I) (h : Reaches env ops a)
    (hsorted : (timestamps (ops ++ [.ingest pkt])).Pairwise (· ≤ ·)) :
    ForestInv a ∧ I pkt.meta_.timestamp (a.tick pkt) := by
  obtain ⟨hsorted', hle⟩ := timestamps_sorted hsorted
  obtain ⟨hf, h'⟩ := hI.reaches h hsorted'
  exact ⟨hf, hI.tick pkt (h' _ hle)⟩

end OrderedStable

/-- A property of runs does not depend on the time. -/
theorem RunStable.orderedStable {env : Env} {G I : Aggregator → Prop} (hI : RunStable env G I) :
    OrderedStable env (fun _ => G) fun _ => I where
  mono := fun _ h => h
  new := fun _ => hI.new
  tick := hI.tick
  evictStable := fun _ => hI.toEvictStable
  ingestStable := hI.ingestStable

/-- In a capture in time order every stream was last seen by the last packet. -/
theorem seenBy_orderedStable (env : Env) :
    OrderedStable env (fun _ => TableInv env) fun t => Everywhere (SeenBy t) where
  mono := fun hle h s hs =>
    ⟨le_trans (h s hs).last hle, fun x hx => le_trans ((h s hs).times x hx) hle, (h s hs).sorted⟩
  new := fun t s hs => (by cases hs)
  tick := fun _ h => h
  evictStable := fun t => (everywhere_heapFree env (seenBy_rule env t).facts).toEvictStable
  ingestStable := fun pkt => (seenBy_rule env pkt.meta_.timestamp).ingestStable fun _ h => h

/-- If every stream was seen by `ts`, so was the one a layer of that time is resolved to. -/
theorem Resolution.seen_le {env : Env} {a : Aggregator} {parent : Option StreamId} {key : FlowKey}
    {identity : StreamIdentity} {condense : Option CondenseSpec} {layer : LayerRecord}
    {dir : PacketDirection} {ts : SystemTime} {r : Aggregator × StreamId × PacketDirection}
    (hr : Resolution env a parent key identity condense layer dir ts r) (hlim : a.Fits)
    (hp : a.Linked parent) (hseen : Everywhere (SeenBy ts) a) :
    ∀ s, r.1.get r.2.1 = some s → s.lastSeen ≤ ts := by
  have hmod : ∀ {c : Aggregator} {i : StreamId} {f : Stream → Stream},
      (∀ s, (f s).lastSeen = s.lastSeen) → (∀ s, c.get i = some s → s.lastSeen ≤ ts) →
      ∀ s, (c.modify i f).get i = some s → s.lastSeen ≤ ts := by
    intro c i f hf hc s hs
    rw [get_modify, Function.update_self] at hs
    obtain ⟨t, ht, rfl⟩ := Option.map_eq_some_iff.1 hs
    rw [hf]
    exact hc t ht
  refine hr.rule_at (J := fun i b => ∀ s, b.get i = some s → s.lastSeen ≤ ts) ?_ ?_ ?_ ?_ ?_
  · intro _ _ s hs
    exact (hseen.live hs).last
  · rintro n rfl rfl s hs
    rw [get_create env hlim hp, if_pos rfl] at hs
    obtain rfl := Option.some.inj hs
    exact le_refl _
  · intro c i hc
    exact hmod (fun _ => rfl) hc
  · intro c i hc
    exact hmod (fun _ => rfl) hc
  · intro i c m t p _ hc
    exact hc

/-- The tables and the times, in captures in time order. -/
theorem ordered_base (env : Env) : OrderedStable env (fun _ _ => True) fun t a =>
    TableInv env a ∧ Everywhere (SeenBy t) a :=
  (TableInv.runStable env).orderedStable.and (seenBy_orderedStable env)

end Aggregator

/-- A capture in time order is folded forward. -/
theorem runInOrder_of_sorted {env : Env} {ops : List Op} {a : Aggregator} (h : Reaches env ops a)
    (hsorted : (timestamps ops).Pairwise (· ≤ ·)) : RunInOrder env ops := by
  rintro before op after rfl
  cases op with
  | finish => trivial
  | ingest pkt =>
      intro layers layer rest hlayers id s _ hs
      have hsplit : before ++ .ingest pkt :: after = before ++ [.ingest pkt] ++ after := by simp
      rw [hsplit] at h hsorted
      have hearlier : (timestamps (before ++ [.ingest pkt])).Pairwise (· ≤ ·) := by
        refine hsorted.sublist ?_
        simp only [timestamps, packetsOf, List.filterMap_append, List.map_append]
        exact List.sublist_append_left _ _
      obtain ⟨hr, hfits⟩ := h.of_append.of_append_singleton
      obtain ⟨hf, htick⟩ := (Aggregator.ordered_base env).arrives hr hearlier
      have hwalk := Aggregator.fits_walk hfits
      rw [hlayers] at hwalk
      obtain ⟨-, -, hseen⟩ := ((Aggregator.ordered_base env).ingestStable pkt).walk hf htick
        (Aggregator.fits_of_append _ _ hwalk)
      -- every live stream was seen by this packet's time, the layer's one too
      exact (hseen.live hs).last

/-- The sample capture is in time order, and every stream of it, live or evicted, is exact. -/
theorem seenExact_sample :
    (run (sampleEnv (.live 50 10 4) 2) sampleOps).Everywhere SeenExact ∧
      (run (sampleEnv (.live 50 10 4) 2) sampleOps).everStreams.length = 8 := by
  have hr := reaches_run (sampleEnv (.live 50 10 4) 2) sampleOps (by decide)
  refine ⟨?_, by decide +kernel⟩
  exact (seenExact_iff hr).1 (runInOrder_of_sorted hr (by decide)) sampleOps [] (by simp)

/-- Two packets of one conversation, the second dated before the first. -/
def reorderedOps : List Op :=
  [samplePacket 5 [sampleLayer "eth" 1 2], samplePacket 3 [sampleLayer "eth" 1 2]]

/-- After the two packets the stream was last seen at 3, before it was first seen at 5. -/
theorem seenExact_reordered :
    Reaches (sampleEnv .none 0) reorderedOps (run (sampleEnv .none 0) reorderedOps) ∧
      ¬ (run (sampleEnv .none 0) reorderedOps).Everywhere SeenExact := by
  refine ⟨reaches_run _ reorderedOps (by decide), fun h => ?_⟩
  have hstreams : ∃ s ∈ (run (sampleEnv .none 0) reorderedOps).everStreams,
      s.firstSeen = 5 ∧ s.lastSeen = 3 ∧ s.times = [5, 3] := by
    decide +kernel
  obtain ⟨s, hs, hfirst, hlast, htimes⟩ := hstreams
  have hle := (h s hs).last.2 (show (5 : SystemTime) ∈ s.times by rw [htimes]; decide)
  rw [hlast] at hle
  exact absurd hle (by decide)

end Pktflow.Flows
