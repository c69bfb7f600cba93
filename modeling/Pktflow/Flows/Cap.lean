import Pktflow.Flows.Heaps
import Pktflow.Flows.Times

/-!
# The stream cap

After every ingest the live set is within the cap, whatever the timestamps (`cap_enforced`). While an
ingest is over the cap, the streams it created itself are in the LRU heap with their exact rank, and the
youngest live stream is a leaf among them; so the heap never runs out of evictable entries.

In a capture in time order the cap evicts what a scan of the live leaves would choose
(`lru_evicts_least`): no entry is above the rank of its stream.
-/

set_option autoImplicit false

namespace Pktflow.Flows

open Pktflow.Core Pktflow.Lib

namespace Aggregator

/-! ## The streams of one ingest -/

/-- Counts the streams created before a creation number. -/
def olderThan (q : Nat) (s : Stream) : Nat := if s.createdSeq < q then 1 else 0

theorem olderThan_factual (q : Nat) : Factual (olderThan q) := fun _ => rfl

/-- What holds while a packet of time `ts` is ingested into a state with the next creation number `q`:
the streams created by it were last seen at `ts`, and the others are within the cap. -/
structure FreshInv (q : Nat) (ts : SystemTime) (cap : Nat) (a : Aggregator) : Prop where
  next : q ≤ a.nextSeq
  seen : ∀ {id s}, a.get id = some s → q ≤ s.createdSeq → s.lastSeen = ts
  older : liveSum (olderThan q) a ≤ cap

namespace FreshInv

variable {q cap : Nat} {ts : SystemTime} {env : Env} {a b : Aggregator}

/-- A modification that keeps the creation number, and `last_seen` unless it sets it to `ts`. -/
theorem modify (h : FreshInv q ts cap a) (id : StreamId) {f : Stream → Stream}
    (hseq : ∀ s, (f s).createdSeq = s.createdSeq)
    (hseen : ∀ s, (f s).lastSeen = s.lastSeen ∨ (f s).lastSeen = ts) :
    FreshInv q ts cap (a.modify id f) := by
  refine ⟨h.next, ?_, ?_⟩
  · intro i s hs hq
    rw [get_modify, Function.update_apply] at hs
    split at hs
    · obtain ⟨t, ht, rfl⟩ := Option.map_eq_some_iff.1 hs
      rw [hseq] at hq
      rcases hseen t with hkeep | hset
      · rw [hkeep]
        exact h.seen ht hq
      · exact hset
    · exact h.seen hs hq
  · have hsum := liveSum_modify_eq (olderThan_factual q) a id (f := f) fun s => by
      simp only [olderThan, hseq]
    rw [hsum]
    exact h.older

/-- A creation by the packet itself. -/
theorem create (h : FreshInv q ts cap a) {n : NewStream} (hlim : a.Fits) (hp : a.Linked n.parent)
    (hts : n.ts = ts) : FreshInv q ts cap (a.createStreamRaw env n).1 := by
  refine ⟨le_trans h.next (Nat.le_succ _), ?_, ?_⟩
  · intro i s hs hq
    rw [get_create env hlim hp] at hs
    split at hs
    · obtain rfl := Option.some.inj hs
      exact hts
    · split at hs
      · obtain ⟨t, ht, rfl⟩ := Option.map_eq_some_iff.1 hs
        show t.lastSeen = ts
        exact h.seen ht hq
      · exact h.seen hs hq
  · -- created by this packet, so not one of the older streams
    have hnew : olderThan q (n.record a.freshId a.nextSeq) = 0 := if_neg (not_lt.2 h.next)
    rw [liveSum_create (olderThan_factual q) env hlim hp, hnew, Nat.zero_add]
    exact h.older

theorem heapFree (env : Env) : HeapFree env (FreshInv q ts cap) where
  close := by
    intro a id h
    obtain ⟨calls, heq⟩ := closeStream_eq env a id
    have hmod : FreshInv q ts cap (a.modify id fun s => s.markClosed .captureEnd) :=
      h.modify id (fun _ => rfl) fun _ => .inl rfl
    rw [heq]
    exact ⟨hmod.next, hmod.seen, hmod.older⟩
  evict := by
    intro a id s reason hf hs _ h
    refine ⟨?_, ?_, ?_⟩
    · rw [(evict_unchanged env a id reason).1]
      exact h.next
    · intro i t ht hq
      rw [get_evict hs] at ht
      split at ht
      · cases ht
      · split at ht
        · obtain ⟨u, hu, rfl⟩ := Option.map_eq_some_iff.1 ht
          show u.lastSeen = ts
          exact h.seen hu hq
        · exact h.seen ht hq
    · have hsum := liveSum_evict (olderThan_factual q) env reason hf hs
      have hle := h.older
      omega
  heaps := fun _ _ h => ⟨h.next, h.seen, h.older⟩

theorem resolution (h : FreshInv q ts cap a) {parent : Option StreamId} {key : FlowKey}
    {identity : StreamIdentity} {condense : Option CondenseSpec} {layer : LayerRecord}
    {dir : PacketDirection} {r : Aggregator × StreamId × PacketDirection}
    (hp : a.Linked parent) (hr : Resolution env a parent key identity condense layer dir ts r)
    (hfits : r.1.Fits) : FreshInv q ts cap r.1 := by
  have hlim : a.Fits := hr.fits hfits
  refine hr.rule (J := FreshInv q ts cap) h ?_ ?_ ?_ ?_
  · rintro n rfl hts
    exact h.create hlim hp hts
  · intro b id hb
    exact hb.modify id (fun _ => rfl) fun _ => .inl rfl
  · intro b id hb
    exact hb.modify id (fun _ => rfl) fun _ => .inl rfl
  · intro b m t c _ hb
    exact ⟨hb.next, hb.seen, hb.older⟩

theorem ingestStable (env : Env) (pkt : DissectedPacket) :
    IngestStable env pkt (fun _ => True) (FreshInv q pkt.meta_.timestamp cap) where
  toLoopStable := (heapFree env).loopStable
  layer := by
    intro w w' layer hw _ hstep hfits h
    cases hstep with
    | skip _ => exact h
    | keyError _ _ => exact ⟨h.next, h.seen, h.older⟩
    | @folded plugin identity key dir foldDir b id _ _ hr =>
        have hfits' := fits_of_touch hfits
        have hb : FreshInv q pkt.meta_.timestamp cap b := h.resolution hw.linked hr hfits'
        have hmod : FreshInv q pkt.meta_.timestamp cap (b.modify id fun s =>
            (s.absorb identity layer key foldDir pkt.meta_.timestamp pkt.meta_.origlen).1) := by
          refine hb.modify id (fun s => ?_) fun s => .inr ?_
          all_goals rw [Stream.absorb_eq]
        exact ⟨hmod.next, hmod.seen, hmod.older⟩
  tail := fun id n h => h.modify id (fun _ => rfl) fun _ => .inl rfl
  unknown := fun _ h => ⟨h.next, h.seen, h.older⟩

end FreshInv

/-- The entries of streams created from the number `q` on are exact. -/
def ExactFrom (q : Nat) (x r : SeenRank) : Prop := q ≤ r.seq → x = r

/-- Along an ingest the streams it creates have exact entries. -/
theorem exactFrom_ingestStable {env : Env} {idle linger : Duration} {cap q : Nat}
    (hev : env.config.eviction = .live idle linger cap) (pkt : DissectedPacket) :
    IngestStable env pkt (FreshInv q pkt.meta_.timestamp cap) (LruCovers (ExactFrom q)) where
  toLoopStable := LruCovers.loopStable (fun _ _ => rfl) hev
  layer := by
    intro w w' layer hw hfresh hstep hfits h
    cases hstep with
    | skip _ => exact h
    | keyError _ _ => exact h
    | folded _ _ hr =>
        have hfits' := fits_of_touch hfits
        have hb := hfresh.resolution hw.linked hr hfits'
        -- a stream of this ingest was last seen at its time already: the touch leaves its rank as it is
        refine (h.resolution (fun _ _ => rfl) hev hw.linked hr hfits').touch ?_ _ _ _ _ _
        intro s hs r hexact hq
        have hrank : s.rank = ⟨pkt.meta_.timestamp, s.createdSeq⟩ := by
          rw [Stream.rank, hb.seen hs hq]
        rw [← hrank]
        exact hexact hq
  tail := fun id n h => h.modify id (fun _ => rfl) fun _ => rfl
  unknown := fun _ h => h

/-- A live leaf of the LRU heap that an entry names with its current rank. -/
def EvictableEntry (a : Aggregator) (e : LruEntry) : Prop :=
  ∃ s, a.get e.id = some s ∧ s.children = [] ∧ e.lastSeen = s.lastSeen ∧ e.createdSeq = s.createdSeq

/-- Over the cap the youngest live stream is one of the ingest, a leaf, and its entry is exact. -/
theorem exists_evictable {q cap : Nat} {ts : SystemTime} {a : Aggregator} (hf : ForestInv a)
    (hfresh : FreshInv q ts cap a) (hlru : LruCovers (ExactFrom q) a) (hover : cap < a.liveCount) :
    ∃ e ∈ a.lru.entries, a.EvictableEntry e := by
  have hcount := hf.count
  cases hmax : a.streams.argmax Stream.createdSeq with
  | none =>
      rw [List.argmax_eq_none] at hmax
      rw [hmax, List.length_nil] at hcount
      omega
  | some m =>
      obtain ⟨id, hm⟩ := mem_streams.1 (List.argmax_mem hmax)
      have hle : ∀ s ∈ a.streams, s.createdSeq ≤ m.createdSeq := fun s hs =>
        List.le_of_mem_argmax hs hmax
      -- were it older than the ingest, all of them would be
      have hq : q ≤ m.createdSeq := by
        by_contra hlt
        have hall : liveSum (olderThan q) a = a.streams.length := by
          have hone : ∀ s ∈ a.streams, olderThan q s = 1 := fun s hs =>
            if_pos (lt_of_le_of_lt (hle s hs) (not_le.1 hlt))
          rw [liveSum, List.map_congr_left hone, List.map_const', List.sum_replicate, smul_eq_mul,
            Nat.mul_one]
        have holder := hfresh.older
        omega
      -- a child would be younger still
      have hleaf : m.children = [] := by
        apply hf.forest.leaf_of_max (nodes_of_get hm)
        intro k n hn
        obtain ⟨s, hs, rfl⟩ := nodes_eq_some.1 hn
        exact hle s (mem_streams.2 ⟨k, hs⟩)
      obtain ⟨e, he, hid, hexact⟩ := hlru id m.rank (leafVal_of_get hm hleaf)
      have hrank : e.rank = m.rank := hexact hq
      obtain ⟨hlast, hseq⟩ := SeenRank.mk.inj hrank
      exact ⟨e, he, m, by rw [hid]; exact hm, hleaf, hlast, hseq⟩

/-! ## The cap holds -/

/-- The state in which an ingest is over the cap always has something to evict. -/
theorem freshState_ingestStable {env : Env} {idle linger : Duration} {cap q : Nat}
    (hev : env.config.eviction = .live idle linger cap) (pkt : DissectedPacket) :
    IngestStable env pkt (fun _ => True) fun a =>
      FreshInv q pkt.meta_.timestamp cap a ∧ LruCovers (ExactFrom q) a :=
  (FreshInv.ingestStable env pkt).and (exactFrom_ingestStable hev pkt)

/-- What a state within the cap provides when a packet arrives. -/
theorem freshState_tick {a : Aggregator} {cap : Nat} (hf : ForestInv a)
    (hlru : LruCovers (fun _ _ => True) a) (hcap : a.liveCount ≤ cap) (pkt : DissectedPacket) :
    FreshInv a.nextSeq pkt.meta_.timestamp cap (a.tick pkt) ∧
      LruCovers (ExactFrom a.nextSeq) (a.tick pkt) := by
  have hold : ∀ {id s}, a.get id = some s → s.createdSeq < a.nextSeq := fun hs =>
    hf.forest.rank_lt (nodes_of_get hs)
  refine ⟨⟨le_refl _, ?_, ?_⟩, ?_⟩
  · intro id s hs hq
    -- no stream is created yet
    exact absurd hq (not_le.2 (hold hs))
  · refine le_trans ?_ hcap
    rw [hf.count]
    refine (List.sum_le_card_nsmul _ 1 ?_).trans (le_of_eq ?_)
    · intro n hn
      obtain ⟨s, -, rfl⟩ := List.mem_map.1 hn
      rw [olderThan]
      split <;> omega
    · rw [List.length_map, smul_eq_mul, Nat.mul_one]
      rfl
  · intro id r hr
    obtain ⟨s, hs, hc, rfl⟩ := leafVal_eq_some.1 hr
    obtain ⟨e, he, hid, -⟩ := hlru id s.rank (leafVal_of_get hs hc)
    exact ⟨e, he, hid, fun hq => absurd hq (not_le.2 (hold hs))⟩

/-- `enforce_max_streams` does not stop over the cap while there is something to evict. -/
theorem liveCount_le_of_exit {env : Env} {idle linger : Duration} {cap : Nat} {a : Aggregator}
    (hev : env.config.eviction = .live idle linger cap)
    (hentry : cap < a.liveCount → ∃ e ∈ a.lru.entries, a.EvictableEntry e)
    (hexit : enforceBody env a = none) : a.liveCount ≤ cap := by
  have hp := enforcePick_spec a hev
  rw [enforceBody] at hexit
  generalize a.enforcePick env = pick at hexit hp
  cases hp with
  | under hle => exact hle
  | empty hover hnil =>
      -- the heap cannot have run dry
      obtain ⟨e, he, -⟩ := hentry hover
      rw [hnil] at he
      cases he
  | dead _ _ _ => cases hexit
  | inner _ _ _ _ => cases hexit
  | stale _ _ _ _ _ => cases hexit
  | least _ _ _ _ _ _ => cases hexit

/-- Evictions keep the live streams within a bound. -/
theorem liveCount_heapFree (env : Env) (cap : Nat) : HeapFree env fun a => a.liveCount ≤ cap where
  close := by
    intro a id h
    obtain ⟨calls, heq⟩ := closeStream_eq env a id
    rw [heq]
    exact h
  evict := by
    intro a id s reason _ hs _ h
    rw [(evict_updated env reason hs).1]
    exact le_trans (Nat.sub_le _ _) h
  heaps := fun _ _ h => h

/-- Every reachable state is within the cap, and no live leaf is missing in its LRU heap. -/
theorem withinCap_of_reaches {env : Env} {idle linger : Duration} {cap : Nat} {ops : List Op}
    {a : Aggregator} (hev : env.config.eviction = .live idle linger cap) (h : Reaches env ops a) :
    ForestInv a ∧ LruCovers (fun _ _ => True) a ∧ a.liveCount ≤ cap := by
  induction h with
  | new => exact ⟨ForestInv.new, LruCovers.new, Nat.zero_le _⟩
  | @call ops a op hr hfits ih =>
      obtain ⟨hf, hlru, hcap⟩ := ih
      have hlive : EvictStable env (LruCovers fun _ _ => True) :=
        LruCovers.evictStable (fun _ => trivial) hev
      cases op with
      | finish =>
          -- `finish` only takes streams away
          have hcount := (liveCount_heapFree env cap).toEvictStable
          exact ⟨(hlive.finish hf hlru).1, (hlive.finish hf hlru).2, (hcount.finish hf hcap).2⟩
      | ingest pkt =>
          have htick := freshState_tick hf hlru hcap pkt
          obtain ⟨hf', hfresh, hexact⟩ := (freshState_ingestStable hev pkt).ingest hf htick hfits
          -- the loop ends, and over the cap it cannot end
          have hexit : enforceBody env (a.ingest env pkt) = none :=
            enforce_exit env ((runStable_true env).beforeEnforce hf trivial hfits).1
          refine ⟨hf', ?_, liveCount_le_of_exit hev (exists_evictable hf' hfresh hexact) hexit⟩
          intro id r hr
          obtain ⟨e, he, hid, -⟩ := hexact id r hr
          exact ⟨e, he, hid, trivial⟩

/-- **The cap.** Under the `Live` policy, for every run and every next packet: when `ingest` returns the
live count is within `max_streams` and the loop of `enforce_max_streams` has ended; and at every state of
that loop, and of the walk before it, that is over the cap, the LRU heap holds an entry that names a live
leaf with its current `last_seen`, so the heap is not empty there. -/
theorem cap_enforced {env : Env} {idle linger : Duration} {cap : Nat}
    (hev : env.config.eviction = .live idle linger cap) {ops : List Op} {a : Aggregator}
    (h : Reaches env ops a) {pkt : DissectedPacket} (hfits : (a.ingest env pkt).Fits) :
    (a.ingest env pkt).liveCount ≤ cap ∧
      enforceBody env (a.ingest env pkt) = none ∧
      (∀ b, Loop.Passes (enforceBody env) (a.beforeEnforce env pkt) b → cap < b.liveCount →
        b.lru.pop ≠ none ∧ ∃ e ∈ b.lru.entries, b.EvictableEntry e) ∧
      ∀ layers rest, pkt.layers = layers ++ rest →
        cap < (a.walkLayers env pkt layers).agg.liveCount →
        ∃ e ∈ (a.walkLayers env pkt layers).agg.lru.entries,
          (a.walkLayers env pkt layers).agg.EvictableEntry e := by
  obtain ⟨hf, hlru, hcap⟩ := withinCap_of_reaches hev h
  have hstable := freshState_ingestStable (q := a.nextSeq) hev pkt
  have htick := freshState_tick hf hlru hcap pkt
  obtain ⟨hfb, hbefore⟩ := hstable.beforeEnforce hf htick hfits
  have hloop : ∀ b, Loop.Passes (enforceBody env) (a.beforeEnforce env pkt) b → cap < b.liveCount →
      ∃ e ∈ b.lru.entries, b.EvictableEntry e := by
    intro b hb hover
    obtain ⟨hf', hfresh, hexact⟩ := hstable.passes_enforce hfb hbefore hb
    exact exists_evictable hf' hfresh hexact hover
  have hexit : enforceBody env (a.ingest env pkt) = none := enforce_exit env hfb
  refine ⟨?_, hexit, ?_, ?_⟩
  · exact liveCount_le_of_exit hev (hloop _ (Loop.passes_iterate _ _ _)) hexit
  · intro b hb hover
    obtain ⟨e, he, hentry⟩ := hloop b hb hover
    refine ⟨fun hnone => ?_, e, he, hentry⟩
    rw [MinHeap.pop_eq_none.1 hnone] at he
    cases he
  · intro layers rest hlayers hover
    have hwalk := fits_walk hfits
    rw [hlayers] at hwalk
    obtain ⟨hw, hfresh, hexact⟩ := hstable.walk hf htick (fits_of_append _ _ hwalk)
    exact exists_evictable hw.forest hfresh hexact hover

/-- A cap of three streams. -/
def cappedEnv : Env := sampleEnv (.live 50 10 3) 2

/-- The state after the first packet of the sample run: three streams, one below the other. -/
def firstState : Aggregator := run cappedEnv (sampleOps.take 1)

/-- The second packet of the sample run. -/
def secondPacket : DissectedPacket :=
  ⟨⟨1, 60, 60, 1⟩, [sampleLayer "eth" 1 2, sampleLayer "ip" 3 4, sampleLayer "udp" 9 6], .complete, 7,
    none⟩

theorem reaches_firstState : Reaches cappedEnv (sampleOps.take 1) firstState :=
  reaches_run _ _ (by decide)

theorem fits_secondPacket : (firstState.ingest cappedEnv secondPacket).Fits := by
  unfold Fits idLimit
  decide +kernel

/-- The second packet takes the store over the cap, and the cap is enforced. -/
theorem cap_sample :
    (firstState.ingest cappedEnv secondPacket).liveCount ≤ 3 ∧
      (firstState.beforeEnforce cappedEnv secondPacket).liveCount = 4 :=
  ⟨(cap_enforced rfl reaches_firstState fits_secondPacket).1, by decide +kernel⟩

/-! ## The cap evicts the least recently seen leaf -/

/-- In a capture in time order no LRU entry is above the rank of its stream. -/
theorem lruCovers_orderedStable {env : Env} {idle linger : Duration} {cap : Nat}
    (hev : env.config.eviction = .live idle linger cap) :
    OrderedStable env (fun t a => TableInv env a ∧ Everywhere (SeenBy t) a)
      fun _ => LruCovers fun x r => x ≤ r where
  mono := fun _ h => h
  new := fun _ => LruCovers.new
  tick := fun _ h => h
  evictStable := fun _ => LruCovers.evictStable le_refl hev
  ingestStable := fun pkt =>
    { toLoopStable := LruCovers.loopStable le_refl hev
      layer := by
        rintro w w' layer hw ⟨-, hseen⟩ hstep hfits h
        cases hstep with
        | skip _ => exact h
        | keyError _ _ => exact h
        | folded _ _ hr =>
            have hfits' := fits_of_touch hfits
            have hlim : w.agg.Fits := hr.fits hfits'
            refine (h.resolution le_refl hev hw.linked hr hfits').touch ?_ _ _ _ _ _
            -- the packet raises the rank
            intro s hs r hle
            refine le_trans hle (SeenRank.le_iff.2 ?_)
            rcases lt_or_eq_of_le (hr.seen_le hlim hw.linked hseen s hs) with hlt | heq
            · exact .inl hlt
            · exact .inr ⟨heq, le_refl _⟩
      tail := fun id n h => h.modify id (fun _ => rfl) fun _ => rfl
      unknown := fun _ h => h }

/-- The reference: a scan of the live leaves for the least rank. -/
def scanLeast (a : Aggregator) : Option Stream :=
  (a.streams.filter fun s => s.children = []).argmin Stream.rank

/-- A leaf below all the others is the one the scan finds. -/
theorem scanLeast_eq {a : Aggregator} {s : Stream} (hs : s ∈ a.streams) (hc : s.children = [])
    (hleast : ∀ t ∈ a.streams, t.children = [] → t ≠ s → s.rank < t.rank) : a.scanLeast = some s := by
  have hmem : s ∈ a.streams.filter fun s => s.children = [] := List.mem_filter.2 ⟨hs, by simpa using hc⟩
  cases hmin : a.scanLeast with
  | none =>
      rw [scanLeast, List.argmin_eq_none] at hmin
      rw [hmin] at hmem
      cases hmem
  | some m =>
      obtain ⟨hm, hmc⟩ := List.mem_filter.1 (List.argmin_mem hmin)
      by_contra hne
      have hlt := hleast m hm (of_decide_eq_true hmc) fun heq => hne (congrArg some heq)
      exact absurd (List.le_of_mem_argmin hmem hmin) (not_le.2 hlt)

/-- Live streams with the same creation number are the same. -/
theorem eq_of_createdSeq_eq {a : Aggregator} (hnodup : (a.everStreams.map Stream.createdSeq).Nodup)
    {s t : Stream} (hs : s ∈ a.streams) (ht : t ∈ a.streams) (heq : s.createdSeq = t.createdSeq) :
    s = t :=
  List.inj_on_of_nodup_map hnodup (List.mem_append_left _ hs) (List.mem_append_left _ ht) heq

/-- **The cap refines the reference scan.** What `ingest` returns is the end of the loop of
`enforce_max_streams`. In a capture in time order, each stream that this loop evicts is, among the live streams
without children at that moment, the one of least `last_seen` and, with equal ones, least creation number: the
one that a full scan finds. -/
theorem lru_evicts_least {env : Env} {idle linger : Duration} {cap : Nat}
    (hev : env.config.eviction = .live idle linger cap) {ops : List Op} {a : Aggregator}
    (h : Reaches env ops a) {pkt : DissectedPacket} (hfits : (a.ingest env pkt).Fits)
    (hsorted : (timestamps (ops ++ [.ingest pkt])).Pairwise (· ≤ ·)) :
    Loop.Passes (enforceBody env) (a.beforeEnforce env pkt) (a.ingest env pkt) ∧
      enforceBody env (a.ingest env pkt) = none ∧
      ∀ b c id reason, Loop.Passes (enforceBody env) (a.beforeEnforce env pkt) b →
        b.enforcePick env = .evict c id reason →
        reason = .lruEvicted ∧ ∃ s, b.get id = some s ∧ b.scanLeast = some s ∧ s.children = [] ∧
          ∀ k t, b.get k = some t → t.children = [] → k ≠ id → s.rank < t.rank := by
  have hstable := (ordered_base env).and (lruCovers_orderedStable hev)
  obtain ⟨hf, htick⟩ := hstable.arrives h hsorted
  obtain ⟨hf', hbefore⟩ := (hstable.ingestStable pkt).beforeEnforce hf htick hfits
  refine ⟨Loop.passes_iterate _ _ _, enforce_exit env hf', ?_⟩
  intro b c id reason hb hpick
  obtain ⟨hfb, -, hlru⟩ := (hstable.ingestStable pkt).passes_enforce hf' hbefore hb
  -- creation numbers tell live streams apart, so the least rank has one owner
  have hseqs := SeqInv.runStable env
  obtain ⟨-, hseq⟩ := hseqs.toHeapFree.loopStable.passes_enforce hf'
    (hseqs.beforeEnforce hf (hseqs.reaches h).2 hfits).2 hb
  have hp := enforcePick_spec b hev
  rw [hpick] at hp
  cases hp with
  | @least e rest s _ hpop hs hc hlast hseqeq =>
      have hrank : e.rank = s.rank := by rw [LruEntry.rank, ← hlast, ← hseqeq]; rfl
      have hleast : ∀ k t, b.get k = some t → t.children = [] → k ≠ e.id → s.rank < t.rank := by
        intro k t ht htc hne
        obtain ⟨x, -, hle, hxt⟩ := LazyHeap.Covers.exists_of_pop hlru hpop (leafVal_of_get ht htc)
        refine lt_of_le_of_ne ?_ fun heq => hne ?_
        · rw [← hrank]
          exact le_trans (LruEntry.rank_le hle) hxt
        · -- equal ranks have equal creation numbers
          have hcreated := (SeenRank.mk.inj heq).2
          have hst := eq_of_createdSeq_eq hseq.nodup (mem_streams.2 ⟨_, hs⟩)
            (mem_streams.2 ⟨_, ht⟩) hcreated
          rw [← hfb.id_eq ht, ← hfb.id_eq hs, hst]
      refine ⟨rfl, s, hs, scanLeast_eq (mem_streams.2 ⟨_, hs⟩) hc ?_, hc, hleast⟩
      intro t ht htc hne
      obtain ⟨k, hk⟩ := mem_streams.1 ht
      refine hleast k t hk htc fun heq => hne ?_
      rw [heq, hs] at hk
      exact (Option.some.inj hk).symm

/-- The state of the cap's loop once the entries of the two inner streams are dropped. -/
def cappingState : Aggregator :=
  Loop.iterate (enforceBody cappedEnv) 2 (firstState.beforeEnforce cappedEnv secondPacket)

/-- There the UDP stream of the first packet is evicted: the other leaf was seen after it. -/
theorem lru_sample :
    ∃ s, cappingState.get ⟨2, 0⟩ = some s ∧ cappingState.scanLeast = some s := by
  have hpicked : (cappingState.enforcePick cappedEnv).evicted = some (⟨2, 0⟩, .lruEvicted) := by
    decide +kernel
  obtain ⟨c, hpick⟩ := Pick.eq_of_evicted hpicked
  obtain ⟨-, -, hleast⟩ := lru_evicts_least rfl reaches_firstState fits_secondPacket (by decide)
  obtain ⟨-, s, hs, hscan, -⟩ := hleast _ c _ _ (Loop.passes_iterate _ 2 _) hpick
  exact ⟨s, hs, hscan⟩

end Aggregator

end Pktflow.Flows
