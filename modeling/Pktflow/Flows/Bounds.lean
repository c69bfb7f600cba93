import Pktflow.Flows.Cap
import Pktflow.Flows.Sweep

/-!
# The size of the heaps

An eviction pushes at most one entry on each heap and takes a live stream away, so the entries of a heap
together with the live streams do not grow in the eviction loops (`LoadWithin`). A layer adds at most two
to that load of the LRU heap and three to that of the expiry heap.

`compact_lru` bounds the LRU heap before every walk, whatever the timestamps. The expiry heap has no
compaction: it loses the entries that are due and no others, and is bounded while every packet finds all
its entries due (`Spaced`).
-/

set_option autoImplicit false

namespace Pktflow.Flows

open Pktflow.Core Pktflow.Lib

namespace Aggregator

/-! ## What the steps add to the heaps -/

/-- The entries of the LRU heap and the live streams are at most `n`, those of the expiry heap and the
live streams at most `m`. -/
structure LoadWithin (n m : Nat) (a : Aggregator) : Prop where
  lru : a.lru.length + a.liveCount ≤ n
  expiry : a.expiry.length + a.liveCount ≤ m

namespace LoadWithin

variable {env : Env} {a b : Aggregator} {idle linger : Duration} {cap n m : Nat}

theorem mono (h : LoadWithin n m a) {n' m' : Nat} (hn : n ≤ n') (hm : m ≤ m') : LoadWithin n' m' a :=
  ⟨le_trans h.lru hn, le_trans h.expiry hm⟩

/-- The stream that goes pays for the entries of its parent. -/
theorem evict {id : StreamId} {s : Stream} (hev : env.config.eviction = .live idle linger cap)
    (reason : CloseReason) (hf : ForestInv a) (hs : a.get id = some s) (h : LoadWithin n m a) :
    LoadWithin n m (a.evict env id reason) := by
  have hcount := (evict_updated env reason hs).1
  have hlive : 1 ≤ a.liveCount := by
    rw [hf.count]
    exact List.length_pos_of_mem (mem_streams.2 ⟨id, hs⟩)
  obtain ⟨hlru, hexpiry⟩ := h
  rcases heaps_evict hev reason hf hs with ⟨-, he, hl⟩ | ⟨p, t, -, -, he, hl⟩
  · constructor
    · rw [hl, hcount]
      omega
    · rw [he, hcount]
      omega
  · constructor
    · rw [hl, hcount, MinHeap.length_push]
      omega
    · rw [he, hcount, MinHeap.length_push]
      omega

theorem evictStable (hev : env.config.eviction = .live idle linger cap) :
    EvictStable env (LoadWithin n m) where
  close := by
    intro a id h
    obtain ⟨calls, heq⟩ := closeStream_eq env a id
    rw [heq]
    exact ⟨h.lru, h.expiry⟩
  evict := fun reason hf hs _ h => h.evict hev reason hf hs

/-- Every iteration of `sweep` pops an entry before it pushes one. -/
theorem sweepBody (hev : env.config.eviction = .live idle linger cap) (hf : ForestInv a)
    (h : LoadWithin n m a) (hab : sweepBody env a = some b) : LoadWithin n m b := by
  obtain ⟨hlru, hexpiry⟩ := h
  have hpopped : ∀ {e : ExpiryEntry} {rest : MinHeap ExpiryEntry}, a.expiry.pop = some (e, rest) →
      rest.length + 1 + a.liveCount ≤ m := by
    intro e rest hpop
    rw [← MinHeap.length_of_pop hpop]
    exact hexpiry
  have hrest : ∀ {e : ExpiryEntry} {rest : MinHeap ExpiryEntry}, a.expiry.pop = some (e, rest) →
      LoadWithin n m { a with expiry := rest } := by
    intro e rest hpop
    refine ⟨hlru, le_trans ?_ (hpopped hpop)⟩
    exact Nat.add_le_add_right (Nat.le_succ _) _
  apply sweepBody_rule hev hab
  · intro e rest hpop _ _
    exact hrest hpop
  · intro e rest s hpop _ _ _
    refine ⟨hlru, ?_⟩
    rw [MinHeap.length_push]
    exact hpopped hpop
  · intro e rest s hpop _ hs _ _
    have hf' : ForestInv { a with expiry := rest } := hf.congr rfl rfl rfl rfl
    exact evict (a := { a with expiry := rest }) hev _ hf' hs (hrest hpop)

/-- Every iteration of `enforce_max_streams` likewise. -/
theorem enforceBody (hev : env.config.eviction = .live idle linger cap) (hf : ForestInv a)
    (h : LoadWithin n m a) (hab : enforceBody env a = some b) : LoadWithin n m b := by
  obtain ⟨hlru, hexpiry⟩ := h
  have hpopped : ∀ {e : LruEntry} {rest : MinHeap LruEntry}, a.lru.pop = some (e, rest) →
      rest.length + 1 + a.liveCount ≤ n := by
    intro e rest hpop
    rw [← MinHeap.length_of_pop hpop]
    exact hlru
  have hrest : ∀ {e : LruEntry} {rest : MinHeap LruEntry}, a.lru.pop = some (e, rest) →
      LoadWithin n m { a with lru := rest } := by
    intro e rest hpop
    refine ⟨le_trans ?_ (hpopped hpop), hexpiry⟩
    exact Nat.add_le_add_right (Nat.le_succ _) _
  apply enforceBody_rule hev hab
  · intro e rest hpop _
    exact hrest hpop
  · intro e rest s hpop _ _ _
    refine ⟨?_, hexpiry⟩
    rw [MinHeap.length_push]
    exact hpopped hpop
  · intro e rest s hpop hs _
    have hf' : ForestInv { a with lru := rest } := hf.congr rfl rfl rfl rfl
    exact evict (a := { a with lru := rest }) hev _ hf' hs (hrest hpop)

end LoadWithin

/-- `compact_lru` has nothing to do, or leaves one entry for each leaf. -/
theorem compactLru_cases {a : Aggregator} (hf : ForestInv a) :
    (a.lru.length ≤ 2 * a.liveCount + 1024 ∧ a.compactLru = a) ∨
      (2 * a.liveCount + 1024 < a.lru.length ∧
        ∃ leaves : MinHeap LruEntry, leaves.length ≤ a.liveCount ∧
          a.compactLru = { a with lru := leaves }) := by
  rw [compactLru]
  split
  · rename_i hsmall
    exact .inl ⟨hsmall, rfl⟩
  · rename_i hbig
    refine .inr ⟨lt_of_not_ge hbig, _, ?_, rfl⟩
    rw [MinHeap.length_ofList, List.length_map, hf.count]
    exact List.length_filter_le _ _

theorem expiry_compactLru (a : Aggregator) : a.compactLru.expiry = a.expiry := by
  obtain ⟨lru, heq⟩ := compactLru_eq a
  rw [heq]

/-- After `compact_lru` the heap is within twice the live set and 1024. -/
theorem length_lru_compactLru {a : Aggregator} (hf : ForestInv a) :
    a.compactLru.lru.length ≤ 2 * a.compactLru.liveCount + 1024 := by
  rcases compactLru_cases hf with ⟨hsmall, heq⟩ | ⟨-, leaves, hle, heq⟩
  · rw [heq]
    exact hsmall
  · rw [heq]
    show leaves.length ≤ 2 * a.liveCount + 1024
    omega

theorem LoadWithin.loopStable {env : Env} {idle linger : Duration} {cap n m : Nat}
    (hev : env.config.eviction = .live idle linger cap) : LoopStable env (LoadWithin n m) where
  sweepBody := fun hf h hab => h.sweepBody hev hf hab
  enforceBody := fun hf h hab => h.enforceBody hev hf hab
  compactLru := by
    intro a hf h
    rcases compactLru_cases hf with ⟨-, heq⟩ | ⟨hbig, leaves, hle, heq⟩
    · rw [heq]
      exact h
    · rw [heq]
      have hlru := h.lru
      refine ⟨?_, h.expiry⟩
      show leaves.length + a.liveCount ≤ n
      omega

/-- What a creation does to the heaps under the `Live` policy. -/
theorem heaps_create {env : Env} {idle linger : Duration} {cap : Nat}
    (hev : env.config.eviction = .live idle linger cap) (a : Aggregator) (n : NewStream) :
    (a.createStreamRaw env n).1.expiry = a.expiry.push (expiryEntry (n.ts + idle) a.freshId) ∧
      (a.createStreamRaw env n).1.lru = a.lru.push (lruEntry n.ts a.nextSeq a.freshId) := by
  simp only [createStreamRaw, armStream, hev]
  exact ⟨rfl, rfl⟩

/-- The entry `touch` pushes for a stream that was just closed. -/
theorem expiry_touch {env : Env} {idle linger : Duration} {cap : Nat}
    (hev : env.config.eviction = .live idle linger cap) (a : Aggregator) (id : StreamId)
    (identity : StreamIdentity) (layer : LayerRecord) (key : FlowKey) (dir : PacketDirection)
    (ts : SystemTime) (origlen : Nat) :
    (a.touch env id identity layer key dir ts origlen).expiry =
      if (a.get id).any fun s => (s.absorb identity layer key dir ts origlen).2 then
        a.expiry.push (expiryEntry (ts + linger) id)
      else a.expiry := by
  simp only [touch, hev]

/-- A layer creates at most one stream, with an entry on each heap, and may close the stream it is folded
into. -/
theorem LoadWithin.layer {env : Env} {idle linger : Duration} {cap n m : Nat}
    (hev : env.config.eviction = .live idle linger cap) {pkt : DissectedPacket} {w w' : Walk}
    {layer : LayerRecord} (hstep : LayerStep env pkt w layer w') (h : LoadWithin n m w.agg) :
    LoadWithin (n + 2) (m + 3) w'.agg := by
  obtain ⟨hlru, hexpiry⟩ := h
  cases hstep with
  | skip _ => exact ⟨le_trans hlru (Nat.le_add_right _ _), le_trans hexpiry (Nat.le_add_right _ _)⟩
  | keyError _ _ => exact ⟨le_trans hlru (Nat.le_add_right _ _), le_trans hexpiry (Nat.le_add_right _ _)⟩
  | @folded plugin identity key dir foldDir b id _ _ hr _ =>
      have hb : LoadWithin (n + 2) (m + 2) b := by
        refine hr.rule (J := LoadWithin (n + 2) (m + 2)) ?_ ?_ ?_ ?_ ?_
        · exact ⟨le_trans hlru (Nat.le_add_right _ _), le_trans hexpiry (Nat.le_add_right _ _)⟩
        · intro new _ _
          obtain ⟨he, hl⟩ := heaps_create hev w.agg new
          constructor
          · rw [hl, MinHeap.length_push]
            show w.agg.lru.length + 1 + (w.agg.liveCount + 1) ≤ n + 2
            omega
          · rw [he, MinHeap.length_push]
            show w.agg.expiry.length + 1 + (w.agg.liveCount + 1) ≤ m + 2
            omega
        · exact fun _ hc => ⟨hc.lru, hc.expiry⟩
        · exact fun _ hc => ⟨hc.lru, hc.expiry⟩
        · exact fun _ _ _ _ hc => ⟨hc.lru, hc.expiry⟩
      refine ⟨hb.lru, ?_⟩
      have hle := hb.expiry
      show (b.touch env id identity layer key foldDir _ _).expiry.length + b.liveCount ≤ m + 3
      rw [expiry_touch hev]
      split
      · rw [MinHeap.length_push]
        omega
      · omega

/-- What an ingest makes of the load that its walk starts with. -/
theorem LoadWithin.ingest {env : Env} {idle linger : Duration} {cap n m : Nat}
    (hev : env.config.eviction = .live idle linger cap) {a : Aggregator} {pkt : DissectedPacket}
    (hf : ForestInv a) (hfits : (a.ingest env pkt).Fits) (h : LoadWithin n m (a.beforeWalk env pkt)) :
    LoadWithin (n + 2 * pkt.layers.length) (m + 3 * pkt.layers.length) (a.ingest env pkt) := by
  obtain ⟨hw, hwalk⟩ := walk_rule
    (I := fun layers w => LoadWithin (n + 2 * layers.length) (m + 3 * layers.length) w.agg)
    (hf.beforeWalk pkt) h
    (by
      intro layers w w' layer _ _ hstep _ hload
      refine (hload.layer hev hstep).mono ?_ ?_
      · rw [List.length_append, List.length_singleton]
        omega
      · rw [List.length_append, List.length_singleton]
        omega) pkt.layers (fits_walk hfits)
  obtain ⟨hf', hbefore⟩ := @afterWalk_rule env pkt
    (LoadWithin (n + 2 * pkt.layers.length) (m + 3 * pkt.layers.length)) (fun _ _ hc => ⟨hc.lru, hc.expiry⟩) (fun _ hc => ⟨hc.lru, hc.expiry⟩) _ hw hwalk
  exact (LoadWithin.loopStable hev).enforceMaxStreams hf' hbefore

/-! ## Packets that find every entry due -/

/-- Every stream was last seen by `t`, and every entry is due within `d` of it. -/
def ArmedBy (d : Duration) (t : SystemTime) (a : Aggregator) : Prop :=
  Everywhere (fun s => s.lastSeen ≤ t) a ∧ ∀ e ∈ a.expiry.entries, e.deadline ≤ t + d

theorem seenUntil_rule (env : Env) {ts t : SystemTime} (hts : ts ≤ t) :
    StreamRule env ts (fun s => s.lastSeen ≤ t) fun _ => True where
  facts := fun _ => Iff.rfl
  tail := fun _ _ h => h
  new := fun _ _ _ _ => trivial
  count := fun _ _ => trivial
  overflow := fun _ _ => trivial
  absorb := by
    intro s plugin identity layer key dir origlen _ _
    rw [(s.absorb_seen identity layer key dir ts origlen).2]
    exact hts

namespace ArmedBy

variable {env : Env} {a b : Aggregator} {idle linger d : Duration} {cap : Nat} {t : SystemTime}

theorem new (d : Duration) (t : SystemTime) : ArmedBy d t Aggregator.new :=
  ⟨fun s hs => (by cases hs), fun e he => (by cases he)⟩

theorem mono (h : ArmedBy d t a) {t' : SystemTime} (hle : t ≤ t') : ArmedBy d t' a :=
  ⟨fun s hs => le_trans (h.1 s hs) hle, fun e he => le_trans (h.2 e he) (Int.add_le_add_right hle _)⟩

/-- A live stream is due within `d` as well. -/
theorem deadline_le (h : ArmedBy d t a) (hidle : idle ≤ d) {id : StreamId} {s : Stream}
    (hs : a.get id = some s) : s.deadline idle linger ≤ t + d := by
  have hseen : s.lastSeen ≤ t := h.1.live hs
  calc s.deadline idle linger ≤ s.lastSeen + idle := s.deadline_le idle linger
    _ ≤ t + d := Int.add_le_add hseen (Int.ofNat_le.2 hidle)

theorem push (h : ArmedBy d t a) {e : ExpiryEntry} (he : e.deadline ≤ t + d) {b : Aggregator}
    (hseen : Everywhere (fun s => s.lastSeen ≤ t) b) (hexpiry : b.expiry = a.expiry.push e) :
    ArmedBy d t b := by
  refine ⟨hseen, ?_⟩
  intro x hx
  rw [hexpiry, MinHeap.mem_push] at hx
  rcases hx with rfl | hx
  · exact he
  · exact h.2 x hx

theorem evict {id : StreamId} {s : Stream} (hev : env.config.eviction = .live idle linger cap)
    (hidle : idle ≤ d) (reason : CloseReason) (hf : ForestInv a) (hs : a.get id = some s)
    (hc : s.children = []) (h : ArmedBy d t a) : ArmedBy d t (a.evict env id reason) := by
  have hseen : Everywhere (fun s => s.lastSeen ≤ t) (a.evict env id reason) :=
    (everywhere_heapFree env fun _ => Iff.rfl).evict reason hf hs hc h.1
  rcases heaps_evict hev reason hf hs with ⟨-, he, -⟩ | ⟨p, u, -, hu, he, -⟩
  · refine ⟨hseen, ?_⟩
    rw [he]
    exact h.2
  · have hlast : u.lastSeen ≤ t := hseen.live hu
    apply h.push ?_ hseen he
    calc u.deadline idle linger ≤ u.lastSeen + idle := u.deadline_le idle linger
      _ ≤ t + d := Int.add_le_add hlast (Int.ofNat_le.2 hidle)

theorem evictStable (hev : env.config.eviction = .live idle linger cap) (hidle : idle ≤ d) :
    EvictStable env (ArmedBy d t) where
  close := by
    intro a id h
    refine ⟨(everywhere_heapFree env fun _ => Iff.rfl).close id h.1, ?_⟩
    obtain ⟨calls, heq⟩ := closeStream_eq env a id
    rw [heq]
    exact h.2
  evict := fun reason hf hs hc h => h.evict hev hidle reason hf hs hc

theorem popped {e : ExpiryEntry} {rest : MinHeap ExpiryEntry} (h : ArmedBy d t a)
    (hpop : a.expiry.pop = some (e, rest)) : ArmedBy d t { a with expiry := rest } :=
  ⟨h.1, fun x hx => h.2 x ((MinHeap.mem_of_pop hpop).2 (.inr hx))⟩

theorem loopStable (hev : env.config.eviction = .live idle linger cap) (hidle : idle ≤ d) :
    LoopStable env (ArmedBy d t) where
  sweepBody := by
    intro a b hf h hab
    apply sweepBody_rule hev hab
    · intro e rest hpop _ _
      exact h.popped hpop
    · intro e rest s hpop _ hs _
      exact (h.popped hpop).push (h.deadline_le hidle hs) h.1 rfl
    · intro e rest s hpop _ hs _ hc
      have hf' : ForestInv { a with expiry := rest } := hf.congr rfl rfl rfl rfl
      exact (h.popped hpop).evict hev hidle _ hf' hs hc
  enforceBody := by
    intro a b hf h hab
    obtain ⟨lru, hstep⟩ := enforceBody_step hab
    cases hstep with
    | heaps => exact h
    | evict reason hs hc =>
        have hf' : ForestInv { a with lru := lru } := hf.congr rfl rfl rfl rfl
        exact evict (a := { a with lru := lru }) hev hidle reason hf' hs hc h
  compactLru := by
    intro a _ h
    obtain ⟨lru, heq⟩ := compactLru_eq a
    rw [heq]
    exact h

/-- A packet of time `ts` arms what it creates or closes for a time within `d` of `ts`. -/
theorem ingestStable (hev : env.config.eviction = .live idle linger cap) (hidle : idle ≤ d)
    (hlinger : linger ≤ d) {pkt : DissectedPacket} (hts : pkt.meta_.timestamp ≤ t) :
    IngestStable env pkt (TableInv env) (ArmedBy d t) where
  toLoopStable := loopStable hev hidle
  layer := by
    intro w w' layer hw htab hstep hfits h
    have hrule := seenUntil_rule env hts
    have hseen : Everywhere (fun s => s.lastSeen ≤ t) w'.agg :=
      h.1.layer hrule hw htab hstep hfits fun _ _ _ _ _ => trivial
    refine ⟨hseen, ?_⟩
    have hentry : ∀ {x : Duration}, x ≤ d → pkt.meta_.timestamp + x ≤ t + d := fun hx =>
      Int.add_le_add hts (Int.ofNat_le.2 hx)
    cases hstep with
    | skip _ => exact h.2
    | keyError _ _ => exact h.2
    | @folded plugin identity key dir foldDir b id _ _ hr _ =>
        have hb : ∀ e ∈ b.expiry.entries, e.deadline ≤ t + d := by
          refine hr.rule (J := fun b => ∀ e ∈ b.expiry.entries, e.deadline ≤ t + d) h.2 ?_ ?_ ?_ ?_
          · intro n _ hn e he
            rw [(heaps_create hev w.agg n).1, MinHeap.mem_push] at he
            rcases he with rfl | he
            · show n.ts + idle ≤ t + d
              rw [hn]
              exact hentry hidle
            · exact h.2 e he
          · exact fun _ hc => hc
          · exact fun _ hc => hc
          · exact fun _ _ _ _ hc => hc
        intro e he
        rw [expiry_touch hev] at he
        split at he
        · rw [MinHeap.mem_push] at he
          rcases he with rfl | he
          · exact hentry hlinger
          · exact hb e he
        · exact hb e he
  tail := by
    intro a id n h
    exact ⟨h.1.tail (fun _ => Iff.rfl) (fun _ _ hs => hs) id n, h.2⟩
  unknown := fun _ h => h

end ArmedBy

/-- Nothing but the arrival of a packet moves the clock. -/
theorem clock_ingestStable (env : Env) (pkt : DissectedPacket) (c : SystemTime) :
    IngestStable env pkt (fun _ => True) fun a => a.clock = c where
  toLoopStable := (clock_heapFree env c).loopStable
  layer := by
    intro w w' layer _ _ hstep _ h
    cases hstep with
    | skip _ => exact h
    | keyError _ _ => exact h
    | folded _ _ hr =>
        exact hr.rule (J := fun b => b.clock = c) h (fun _ _ _ => h) (fun _ hb => hb) (fun _ hb => hb)
          fun _ _ _ _ hb => hb
  tail := fun _ _ h => h
  unknown := fun _ h => h

/-- In every reachable state the clock is a time by which all streams were seen. -/
theorem armedBy_of_reaches {env : Env} {idle linger d : Duration} {cap : Nat} {ops : List Op}
    {a : Aggregator} (hev : env.config.eviction = .live idle linger cap) (hidle : idle ≤ d)
    (hlinger : linger ≤ d) (h : Reaches env ops a) : ArmedBy d a.clock a := by
  induction h with
  | new => exact ArmedBy.new d _
  | @call ops a op hr hfits ih =>
      obtain ⟨hf, htab⟩ := (TableInv.runStable env).reaches hr
      cases op with
      | finish =>
          have hclock := ((clock_heapFree env a.clock).toEvictStable.finish hf rfl).2
          show ArmedBy d (a.finish env).clock (a.finish env)
          rw [hclock]
          exact ((ArmedBy.evictStable hev hidle).finish hf ih).2
      | ingest pkt =>
          have hclock := ((clock_ingestStable env pkt (a.tick pkt).clock).ingest hf rfl hfits).2
          have harmed : IngestStable env pkt (TableInv env) (ArmedBy d (a.tick pkt).clock) :=
            ArmedBy.ingestStable hev hidle hlinger (le_max_right _ _)
          have htick : ArmedBy d (a.tick pkt).clock (a.tick pkt) := ih.mono (le_max_left _ _)
          show ArmedBy d (a.ingest env pkt).clock (a.ingest env pkt)
          rw [hclock]
          exact (((TableInv.runStable env).ingestStable pkt).and harmed).ingest hf
            ⟨(TableInv.runStable env).tick pkt htab, htick⟩ hfits |>.2.2

/-- A sweep that finds every entry due empties the heap. -/
theorem expiry_sweep_of_armed {env : Env} {idle linger d : Duration} {cap : Nat} {a : Aggregator}
    {t : SystemTime} (hev : env.config.eviction = .live idle linger cap) (hidle : idle ≤ d)
    (hf : ForestInv a) (h : ArmedBy d t a) (hdue : t + d ≤ a.clock) :
    (a.sweep env).expiry.length = 0 := by
  have hpasses := Loop.passes_iterate (sweepBody env) (a.streams.length + a.expiry.length) a
  obtain ⟨-, harmed⟩ := (ArmedBy.loopStable hev hidle).passes_sweep hf h hpasses
  have hclock : (a.sweep env).clock = a.clock := clock_passes_sweep hf hpasses
  have hlater := later_of_sweepBody_none hev (sweep_exit env hf)
  rw [MinHeap.length, List.length_eq_zero_iff, List.eq_nil_iff_forall_not_mem]
  intro e he
  have hlt := hlater e he
  rw [hclock] at hlt
  exact absurd (le_trans (harmed.2 e he) hdue) (not_le.2 hlt)

/-! ## Bounded runs -/

/-- A packet that comes at least `d` after the newest one before it. -/
def StepSpaced (d : Duration) (a : Aggregator) : Op → Prop
  | .ingest pkt => a.clock + d ≤ (a.tick pkt).clock
  | .finish => True

end Aggregator

/-- A run of such packets. -/
def Spaced (env : Env) (d : Duration) (ops : List Op) : Prop :=
  ∀ before op after, ops = before ++ op :: after → (run env before).StepSpaced d op

/-- Without a delay every run is spaced. -/
theorem spaced_zero (env : Env) (ops : List Op) : Spaced env 0 ops := by
  intro before op after _
  cases op with
  | ingest pkt => exact le_trans (le_of_eq (Int.add_zero _)) (le_max_left _ _)
  | finish => trivial

theorem Spaced.of_append {env : Env} {d : Duration} {ops rest : List Op}
    (h : Spaced env d (ops ++ rest)) : Spaced env d ops := by
  intro before op after heq
  apply h before op (after ++ rest)
  rw [heq, List.append_assoc, List.cons_append]

/-- No packet of the run has more than `n` layers. -/
def LayersWithin (n : Nat) (ops : List Op) : Prop :=
  ∀ pkt ∈ packetsOf ops, pkt.layers.length ≤ n

theorem LayersWithin.of_append {n : Nat} {ops rest : List Op} (h : LayersWithin n (ops ++ rest)) :
    LayersWithin n ops := by
  intro pkt hpkt
  apply h pkt
  rw [packetsOf, List.filterMap_append]
  exact List.mem_append_left _ hpkt

theorem LayersWithin.last {n : Nat} {ops : List Op} {pkt : DissectedPacket}
    (h : LayersWithin n (ops ++ [.ingest pkt])) : pkt.layers.length ≤ n := by
  apply h pkt
  rw [packetsOf, List.filterMap_append]
  exact List.mem_append_right _ (List.mem_singleton_self pkt)

/-- The bound of both heaps. -/
def heapBound (cap layers : Nat) : Nat := 3 * cap + 3 * layers + 1024

namespace Aggregator

/-- The LRU heap is bounded along every run, the expiry heap along every spaced one. -/
theorem loads_of_reaches {env : Env} {idle linger d : Duration} {cap n : Nat} {ops : List Op}
    {a : Aggregator} (hev : env.config.eviction = .live idle linger cap) (hidle : idle ≤ d)
    (hlinger : linger ≤ d) (h : Reaches env ops a) (hlayers : LayersWithin n ops) :
    a.lru.length + a.liveCount ≤ 3 * cap + 1024 + 2 * n ∧
      (Spaced env d ops → a.expiry.length + a.liveCount ≤ cap + 3 * n) := by
  induction h with
  | new => exact ⟨Nat.zero_le _, fun _ => Nat.zero_le _⟩
  | @call ops a op hr hfits ih =>
      obtain ⟨hf, -, hcap⟩ := withinCap_of_reaches hev hr
      obtain ⟨hlru, hexpiry⟩ := ih hlayers.of_append
      cases op with
      | finish =>
          have hfinish : ∀ {m : Nat}, a.expiry.length + a.liveCount ≤ m →
              LoadWithin (3 * cap + 1024 + 2 * n) m (a.finish env) := fun hm =>
            ((LoadWithin.evictStable hev).finish hf ⟨hlru, hm⟩).2
          exact ⟨(hfinish (le_refl _)).lru, fun hspaced => (hfinish (hexpiry hspaced.of_append)).expiry⟩
      | ingest pkt =>
          have hsweep : (a.beforeWalk env pkt).liveCount ≤ cap :=
            (liveCount_heapFree env cap).loopStable.beforeWalk hf hcap
          have hcompact : (a.beforeWalk env pkt).lru.length ≤ 2 * (a.beforeWalk env pkt).liveCount + 1024 :=
            length_lru_compactLru (hf.tick pkt).sweep
          have hsize := hlayers.last
          have hingest : ∀ {m : Nat}, (a.beforeWalk env pkt).expiry.length +
              (a.beforeWalk env pkt).liveCount ≤ m →
              LoadWithin (3 * cap + 1024 + 2 * n) (m + 3 * n) (a.ingest env pkt) := by
            intro m hm
            have hstart : LoadWithin (3 * cap + 1024) m (a.beforeWalk env pkt) := ⟨by omega, hm⟩
            exact (hstart.ingest hev hf hfits).mono (by omega) (by omega)
          refine ⟨(hingest (le_refl _)).lru, fun hspaced => (hingest ?_).expiry⟩
          -- the clock has moved past every entry there was
          have hdue : a.clock + d ≤ (a.tick pkt).clock := by
            have hstep := hspaced ops (.ingest pkt) [] rfl
            rw [← hr.eq_run] at hstep
            exact hstep
          have harmed : ArmedBy d a.clock (a.tick pkt) := armedBy_of_reaches hev hidle hlinger hr
          have hempty := expiry_sweep_of_armed hev hidle (hf.tick pkt) harmed hdue
          have hkept : (a.beforeWalk env pkt).expiry = ((a.tick pkt).sweep env).expiry :=
            expiry_compactLru _
          rw [hkept, hempty, Nat.zero_add]
          exact hsweep

end Aggregator

end Pktflow.Flows
