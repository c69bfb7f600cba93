import Pktflow.Flows.Anchors
import Pktflow.Flows.Handles

/-!
# The sink protocol

Under the `Live` policy the sink receives exactly the streams taken out of the store, in that order, and
a stream is taken out as a leaf. Each creation number is stored once, so that after `finish`, which
leaves nothing in the store, every stream ever created has been delivered once, before its parent.

Ids are recycled, so that the parent of a delivered stream is told by its creation number: it is the last
stream created under the parent's id before the stream itself (`ParentSeq`).

Under the `None` policy only `finish` calls the sink, once for every live stream, which stays where it is.
-/

set_option autoImplicit false

namespace Pktflow.Flows

open Pktflow.Core Pktflow.Lib

namespace Aggregator

/-! ## What is left of an empty store -/

/-- No group is kept that neither counts a flow nor has a node. -/
def Tidy (m : HashMap CondenseKey CondenseGroup) : Prop :=
  ∀ ck g, m.lookup ck = some g → g.expanded = 0 → g.node ≠ none

theorem Tidy.insert {m : HashMap CondenseKey CondenseGroup} (h : Tidy m) {k : CondenseKey}
    {group : CondenseGroup} (hg : group.expanded = 0 → group.node ≠ none) : Tidy (m.insert k group) := by
  intro ck g hck
  rcases lookup_insert_eq_some.1 hck with ⟨-, rfl⟩ | ⟨-, hck⟩
  · exact hg
  · exact h ck g hck

theorem Tidy.erase {m : HashMap CondenseKey CondenseGroup} (h : Tidy m) (k : CondenseKey) :
    Tidy (m.erase k) := by
  intro ck g hck
  exact h ck g (lookup_erase_eq_some.1 hck).2

theorem Tidy.tally {m : HashMap CondenseKey CondenseGroup} (h : Tidy m) (parent : Option StreamId)
    (protocol : ProtocolName) (c : CondenseCandidate) : Tidy (tallyAnchor parent protocol m c) := by
  apply h.insert
  intro hzero
  cases hzero

theorem Tidy.untally {m : HashMap CondenseKey CondenseGroup} (h : Tidy m) (parent : Option StreamId)
    (protocol : ProtocolName) (c : CondenseCandidate) : Tidy (untallyAnchor parent protocol m c) := by
  unfold untallyAnchor
  dsimp only
  cases m.lookup (parent, protocol, c.anchor) with
  | none => exact h
  | some group =>
      dsimp only
      split
      · exact h.erase _
      · rename_i hkept
        exact h.insert fun hzero hnone => hkept ⟨hzero, hnone⟩

/-- Step by step along a list of anchors. -/
theorem Tidy.foldl {f : HashMap CondenseKey CondenseGroup → CondenseCandidate →
    HashMap CondenseKey CondenseGroup} (hf : ∀ m c, Tidy m → Tidy (f m c))
    (cs : List CondenseCandidate) {m : HashMap CondenseKey CondenseGroup} (h : Tidy m) :
    Tidy (cs.foldl f m) := by
  induction cs generalizing m with
  | nil => exact h
  | cons c cs ih => exact ih (hf m c h)

theorem Tidy.groupsWithout {m : HashMap CondenseKey CondenseGroup} (h : Tidy m) (env : Env)
    (s : Stream) : Tidy (groupsWithout env m s) := by
  rw [Aggregator.groupsWithout]
  split
  · exact h
  · split
    · exact h.erase _
    · cases env.engine.pluginByName s.protocol with
      | none => exact h
      | some plugin =>
          dsimp only
          split
          · split
            · exact h
            · exact Tidy.foldl (fun m c hm => hm.untally s.parent s.protocol c) _ h
          · exact h

/-- No bucket is stored empty, and no group is kept in vain. -/
structure TidyInv (a : Aggregator) : Prop where
  buckets : ∀ k, a.index.lookup k ≠ some []
  groups : Tidy a.condense

namespace TidyInv

variable {env : Env} {a b : Aggregator}

theorem congr (h : TidyInv a) (hindex : b.index = a.index) (hcondense : b.condense = a.condense) :
    TidyInv b := by
  constructor
  case buckets => rw [hindex]; exact h.buckets
  case groups => rw [hcondense]; exact h.groups

theorem create (h : TidyInv a) (env : Env) (n : NewStream) : TidyInv (a.createStreamRaw env n).1 := by
  refine ⟨?_, h.groups⟩
  intro k
  show (a.index.insert (n.parent, n.protocol, env.digest n.key)
    (a.bucket (n.parent, n.protocol, env.digest n.key) ++ [a.freshId])).lookup k ≠ some []
  by_cases hk : k = (n.parent, n.protocol, env.digest n.key)
  · rw [hk, AList.lookup_insert]
    simp
  · rw [AList.lookup_insert_ne hk]
    exact h.buckets k

theorem evict (h : TidyInv a) {id : StreamId} {s : Stream} (reason : CloseReason)
    (hs : a.get id = some s) : TidyInv (a.evict env id reason) := by
  obtain ⟨-, -, -, hcondense, hindex⟩ := evict_updated env reason hs
  constructor
  case buckets =>
    rw [hindex]
    rw [unindex]
    dsimp only
    generalize ((s.parent, s.protocol, env.digest s.key) : IndexKey) = key
    intro k
    cases hids : a.index.lookup key with
    | none => exact h.buckets k
    | some ids =>
        dsimp only
        by_cases hk : k = key
        · subst hk
          split
          · rw [AList.lookup_erase]
            simp
          · rename_i hrest
            rw [AList.lookup_insert]
            exact fun hempty => hrest (Option.some.inj hempty)
        · split
          · rw [AList.lookup_erase_ne hk]
            exact h.buckets k
          · rw [AList.lookup_insert_ne hk]
            exact h.buckets k
  case groups =>
    rw [hcondense]
    exact h.groups.groupsWithout env s

theorem addMember (h : TidyInv a) (ckey : CondenseKey) (id : StreamId) (digest : UInt64) :
    TidyInv (a.addMember ckey id digest) := by
  have hm := addMember_spec a ckey id digest
  generalize a.addMember ckey id digest = b at hm
  cases hm with
  | known => exact h
  | overflow => exact h.congr rfl rfl
  | @counted group hg _ => exact ⟨h.buckets, h.groups.insert (h.groups ckey group hg)⟩

theorem resolution (h : TidyInv a) {parent : Option StreamId} {key : FlowKey}
    {identity : StreamIdentity} {condense : Option CondenseSpec} {layer : LayerRecord}
    {dir : PacketDirection} {ts : SystemTime} {r : Aggregator × StreamId × PacketDirection}
    (hr : Resolution env a parent key identity condense layer dir ts r) : TidyInv r.1 := by
  cases hr with
  | hit _ _ _ => exact h
  | member _ _ _ _ _ => exact h.addMember _ _ _
  | @node cs c group _ _ _ _ _ =>
      apply TidyInv.addMember
      have hcreate := h.create env (nodeStream env (parent, layer.protocol, c.anchor) identity c ts)
      exact ⟨hcreate.buckets, h.groups.insert fun _ hnone => by cases hnone⟩
  | fresh _ _ =>
      have hcreate := h.create env (layerStream env parent key identity layer dir ts)
      exact ⟨hcreate.buckets, Tidy.foldl (fun m c hm => hm.tally parent layer.protocol c) _ h.groups⟩

end TidyInv

theorem tidyInv_runStable (env : Env) : RunStable env (fun _ => True) TidyInv where
  close := by
    intro a id h
    obtain ⟨calls, heq⟩ := closeStream_eq env a id
    rw [heq]
    exact h.congr rfl rfl
  evict := fun reason _ hs _ h => h.evict reason hs
  heaps := fun _ _ h => h.congr rfl rfl
  new := by
    refine ⟨fun _ h => ?_, fun _ _ h => ?_⟩
    · cases h
    · cases h
  tick := fun _ h => h.congr rfl rfl
  layer := by
    intro pkt w w' layer _ _ hstep _ h
    cases hstep with
    | skip _ => exact h
    | keyError _ _ => exact h.congr rfl rfl
    | folded _ _ hr => exact (h.resolution hr).congr rfl rfl
  tail := fun _ _ h => h.congr rfl rfl
  unknown := fun _ h => h.congr rfl rfl

/-- Nothing is live, and no table has an entry. -/
structure Vacant (a : Aggregator) : Prop where
  streams : a.streams = []
  roots : a.roots = []
  index : a.index.entries = []
  condense : a.condense.entries = []

/-- A map that finds nothing has no entries. -/
theorem entries_eq_nil {K V : Type} [DecidableEq K] {m : HashMap K V} (h : ∀ k, m.lookup k = none) :
    m.entries = [] := by
  cases hm : m.entries with
  | nil => rfl
  | cons e rest =>
      have hmem : e.1 ∈ m := by
        rw [AList.mem_keys]
        rw [AList.keys]
        rw [hm]
        exact List.mem_cons_self
      rw [← AList.lookup_isSome, h] at hmem
      cases hmem

/-- Without live streams the tables are empty: every bucket and every group is held by one. -/
theorem vacant_of_reaches {env : Env} {ops : List Op} {a : Aggregator} (h : Reaches env ops a)
    (hempty : a.streams = []) : Vacant a := by
  obtain ⟨hf, htab⟩ := (TableInv.runStable env).reaches h
  have htidy := ((tidyInv_runStable env).reaches h).2
  have hdead : ∀ id s, a.get id ≠ some s := by
    intro id s hs
    have hmem := mem_streams.2 ⟨id, hs⟩
    rw [hempty] at hmem
    cases hmem
  have hframes : ∀ id f, a.frames id ≠ some f := by
    intro id f hid
    obtain ⟨s, hs, -⟩ := frames_eq_some.1 hid
    exact hdead id s hs
  constructor
  case streams => exact hempty
  case roots =>
    apply List.eq_nil_iff_forall_not_mem.2
    intro id hid
    obtain ⟨n, hn, -⟩ := hf.forest.mem_roots.1 hid
    obtain ⟨s, hs, -⟩ := nodes_eq_some.1 hn
    exact hdead id s hs
  case index =>
    apply entries_eq_nil
    intro k
    cases hk : a.index.lookup k with
    | none => rfl
    | some ids =>
        cases ids with
        | nil => exact absurd hk (htidy.buckets k)
        | cons id ids =>
            have hmem : id ∈ a.bucket k := by
              rw [bucket]
              rw [hk]
              exact List.mem_cons_self
            obtain ⟨f, hframe, -⟩ := htab.index.mem_bucket.1 hmem
            exact absurd hframe (hframes id f)
  case condense =>
    apply entries_eq_nil
    intro ck
    cases hon : env.config.condenseThreshold with
    | zero => exact htab.groups.off hon ck
    | succ k =>
        cases hck : a.condense.lookup ck with
        | none => rfl
        | some g =>
            have hcount := ((countInv_runStable (by omega)).reaches h).2 ck
            have hlive : liveOn env ck a = 0 := by
              rw [liveOn, liveSum]
              rw [hempty]
              rfl
            rw [groupCount_of_lookup hck, hlive] at hcount
            -- a group without flows has a node, and that one is live
            obtain ⟨id, hid⟩ := Option.ne_none_iff_exists'.1 (htidy.groups ck g hck (by omega))
            obtain ⟨f, hframe, -⟩ := htab.groups.node_live hck hid
            exact absurd hframe (hframes id f)

/-! ## The order of removals -/

/-- The id was issued for the stream with that creation number. -/
def EverIssued (a : Aggregator) (h : StreamId) (q : Nat) : Prop :=
  ∃ s ∈ a.everStreams, s.id = h ∧ s.createdSeq = q

theorem everIssued_iff {a : Aggregator} {h : StreamId} {q : Nat} :
    a.EverIssued h q ↔ 0 < tally (hasIssue h q) a := tally_hasIssue_pos.symm

theorem everIssued_create (env : Env) {a : Aggregator} {n : NewStream} (hlim : a.Fits)
    (hp : a.Linked n.parent) {h : StreamId} {q : Nat} :
    (a.createStreamRaw env n).1.EverIssued h q ↔
      (h = a.freshId ∧ q = a.nextSeq) ∨ a.EverIssued h q := by
  rw [everIssued_iff, everIssued_iff, tally_create (hasIssue_factual h q) env hlim hp]
  have hnew : hasIssue h q (n.record a.freshId a.nextSeq) =
      if a.freshId = h ∧ a.nextSeq = q then 1 else 0 := rfl
  rw [hnew]
  by_cases hsame : a.freshId = h ∧ a.nextSeq = q
  · rw [if_pos hsame]
    have hsame' : h = a.freshId ∧ q = a.nextSeq := ⟨hsame.1.symm, hsame.2.symm⟩
    simp [hsame']
  · rw [if_neg hsame, Nat.zero_add]
    have hother : ¬(h = a.freshId ∧ q = a.nextSeq) := fun e => hsame ⟨e.1.symm, e.2.symm⟩
    simp [hother]

theorem everIssued_evict (env : Env) {a : Aggregator} {id : StreamId} {s : Stream}
    (reason : CloseReason) (hf : ForestInv a) (hs : a.get id = some s) (hc : s.children = [])
    {h : StreamId} {q : Nat} : (a.evict env id reason).EverIssued h q ↔ a.EverIssued h q := by
  rw [everIssued_iff, everIssued_iff, (tally_heapFree env (hasIssue_factual h q) _).evict reason hf hs hc rfl]

theorem everIssued_modify (a : Aggregator) (id : StreamId) {f : Stream → Stream}
    (hf : ∀ s, (f s).frame = s.frame) {h : StreamId} {q : Nat} :
    (a.modify id f).EverIssued h q ↔ a.EverIssued h q := by
  have hid : ∀ s, (f s).id = s.id := fun s => congrArg Frame.id (hf s)
  have hseq : ∀ s, (f s).createdSeq = s.createdSeq := fun s => congrArg Frame.createdSeq (hf s)
  rw [everIssued_iff, everIssued_iff,
    tally_modify_eq (hasIssue_factual h q) a id fun s => by simp only [hasIssue, hid, hseq]]

theorem everIssued_of_removed {a : Aggregator} {e : EvictedStream} (h : e ∈ a.removed) :
    a.EverIssued e.stream.id e.stream.createdSeq :=
  ⟨e.stream, List.mem_append_right _ (List.mem_map_of_mem h), rfl, rfl⟩

/-- The last stream created under the id `p` before number `n` has number `q`. -/
structure ParentSeq (a : Aggregator) (p : StreamId) (n q : Nat) : Prop where
  older : q < n
  latest : ∀ q', a.EverIssued p q' → q' < n → q' ≤ q

/-- What is known of the removed streams: they were leaves, and the parent of each is live still or was
removed later. -/
structure RemovalInv (a : Aggregator) : Prop where
  leaf : ∀ e ∈ a.removed, e.stream.children = []
  below : ∀ {h q}, a.EverIssued h q → q < a.nextSeq
  newest : ∀ {h f q}, a.frames h = some f → a.EverIssued h q → q ≤ f.createdSeq
  parents : ∀ {before e after p}, a.removed = before ++ e :: after → e.stream.parent = some p →
    ∃ q, ParentSeq a p e.stream.createdSeq q ∧
      ((∃ f, a.frames p = some f ∧ f.createdSeq = q) ∨
        ∃ d ∈ after, d.stream.id = p ∧ d.stream.createdSeq = q)

namespace RemovalInv

variable {env : Env} {a b : Aggregator}

/-- Nothing but the frames, the removed streams and the issued ids matters. -/
theorem congr (h : RemovalInv a) (hframes : b.frames = a.frames) (hremoved : b.removed = a.removed)
    (hseq : b.nextSeq = a.nextSeq) (hissued : ∀ {i q}, b.EverIssued i q ↔ a.EverIssued i q) :
    RemovalInv b := by
  constructor
  case leaf =>
    rw [hremoved]
    exact h.leaf
  case below =>
    intro i q hi
    rw [hseq]
    exact h.below (hissued.1 hi)
  case newest =>
    intro i f q hi hq
    rw [hframes] at hi
    exact h.newest hi (hissued.1 hq)
  case parents =>
    intro before e after p hsplit hp
    rw [hremoved] at hsplit
    obtain ⟨q, hq, hwhere⟩ := h.parents hsplit hp
    rw [hframes]
    exact ⟨q, ⟨hq.older, fun q' hi => hq.latest q' (hissued.1 hi)⟩, hwhere⟩

theorem modify (h : RemovalInv a) (id : StreamId) {f : Stream → Stream}
    (hf : ∀ s, (f s).frame = s.frame) : RemovalInv (a.modify id f) :=
  h.congr (frames_modify a id hf) rfl rfl (everIssued_modify a id hf)

theorem create (h : RemovalInv a) {n : NewStream} (hlim : a.Fits) (hp : a.Linked n.parent) :
    RemovalInv (a.createStreamRaw env n).1 := by
  have hissued : ∀ {i q}, (a.createStreamRaw env n).1.EverIssued i q ↔
      (i = a.freshId ∧ q = a.nextSeq) ∨ a.EverIssued i q := everIssued_create env hlim hp
  have hcases : ∀ {x f}, (a.createStreamRaw env n).1.frames x = some f ↔
      (x = a.freshId ∧ f = (n.record a.freshId a.nextSeq).frame) ∨ a.frames x = some f :=
    frames_of_create env hlim hp
  have hseq : (a.createStreamRaw env n).1.nextSeq = a.nextSeq + 1 := rfl
  constructor
  case leaf => exact h.leaf
  case below =>
    intro i q hi
    rw [hseq]
    rcases hissued.1 hi with ⟨-, rfl⟩ | hi
    · exact Nat.lt_succ_self _
    · exact Nat.lt_succ_of_lt (h.below hi)
  case newest =>
    intro i f q hi hq
    rcases hcases.1 hi with ⟨rfl, rfl⟩ | hi
    · -- the new stream has the greatest number of all
      rcases hissued.1 hq with ⟨-, rfl⟩ | hq
      · exact Nat.le_refl _
      · exact Nat.le_of_lt (h.below hq)
    · rcases hissued.1 hq with ⟨rfl, -⟩ | hq
      · obtain ⟨s, hs⟩ := live_iff_frames.2 ⟨f, hi⟩
        exact absurd rfl (ne_freshId hlim hs)
      · exact h.newest hi hq
  case parents =>
    intro before e after p hsplit hpar
    have hremoved : a.removed = before ++ e :: after := hsplit
    obtain ⟨q, hq, hwhere⟩ := h.parents hremoved hpar
    refine ⟨q, ⟨hq.older, ?_⟩, ?_⟩
    · intro q' hi hlt
      rcases hissued.1 hi with ⟨-, rfl⟩ | hi
      · -- a removed stream was created before the new one
        have hmem : e ∈ a.removed := by
          rw [hremoved]
          exact List.mem_append_right _ List.mem_cons_self
        have hbelow := h.below (everIssued_of_removed hmem)
        omega
      · exact hq.latest q' hi hlt
    · rcases hwhere with ⟨f, hf, hfq⟩ | hlater
      · exact .inl ⟨f, hcases.2 (.inr hf), hfq⟩
      · exact .inr hlater

theorem evict (h : RemovalInv a) {id : StreamId} {s : Stream} (reason : CloseReason) (hf : ForestInv a)
    (hs : a.get id = some s) (hc : s.children = []) : RemovalInv (a.evict env id reason) := by
  have hissued : ∀ {i q}, (a.evict env id reason).EverIssued i q ↔ a.EverIssued i q :=
    everIssued_evict env reason hf hs hc
  have hold : ∀ {x f}, (a.evict env id reason).frames x = some f ↔ x ≠ id ∧ a.frames x = some f :=
    frames_of_evict env reason hs
  constructor
  case leaf =>
    rw [removed_evict hs]
    intro e he
    rcases List.mem_append.1 he with he | he
    · exact h.leaf e he
    · obtain rfl := List.mem_singleton.1 he
      exact hc
  case below =>
    intro i q hi
    rw [(evict_unchanged env a id reason).1]
    exact h.below (hissued.1 hi)
  case newest => exact fun hi hq => h.newest (hold.1 hi).2 (hissued.1 hq)
  case parents =>
    intro before e after p hsplit hpar
    rw [removed_evict hs] at hsplit
    -- either the child is the last one removed, or it was removed before
    rcases List.eq_nil_or_concat after with rfl | ⟨after', last, rfl⟩
    · -- the stream itself goes, and its parent is live
      obtain ⟨-, hlast⟩ := List.append_inj' hsplit rfl
      obtain rfl := (List.cons.inj hlast).1
      have hpar' : s.parent = some p := hpar
      obtain ⟨hne, ps, hps⟩ := hf.parent_live hs hpar'
      obtain ⟨m, hm, hlt, -⟩ := hf.forest.parent_node (nodes_of_get hs) hpar'
      rw [nodes_of_get hps] at hm
      obtain rfl := Option.some.inj hm
      refine ⟨ps.createdSeq, ⟨hlt, ?_⟩, .inl ⟨ps.frame, hold.2 ⟨hne, frames_of_get hps⟩, rfl⟩⟩
      exact fun q' hi _ => h.newest (frames_of_get hps) (hissued.1 hi)
    · rw [List.concat_eq_append, ← List.cons_append, ← List.append_assoc] at hsplit
      obtain ⟨hremoved, hlast⟩ := List.append_inj' hsplit rfl
      obtain rfl := (List.cons.inj hlast).1
      obtain ⟨q, hq, hwhere⟩ := h.parents hremoved hpar
      refine ⟨q, ⟨hq.older, fun q' hi => hq.latest q' (hissued.1 hi)⟩, ?_⟩
      rcases hwhere with ⟨f, hfp, hfq⟩ | ⟨d, hd, hdp⟩
      · by_cases hpid : p = id
        · -- the parent goes now
          subst hpid
          rw [frames_of_get hs] at hfp
          obtain rfl := Option.some.inj hfp
          have hid : s.id = p := hf.id_eq hs
          refine .inr ⟨⟨s.markClosed reason, reason⟩, ?_, hid, hfq⟩
          rw [List.concat_eq_append]
          exact List.mem_append_right _ List.mem_cons_self
        · exact .inl ⟨f, hold.2 ⟨hpid, hfp⟩, hfq⟩
      · refine .inr ⟨d, ?_, hdp⟩
        rw [List.concat_eq_append]
        exact List.mem_append_left _ hd

end RemovalInv

theorem removalInv_runStable (env : Env) : RunStable env (fun _ => True) RemovalInv where
  close := by
    intro a id h
    obtain ⟨calls, heq⟩ := closeStream_eq env a id
    have hmod : RemovalInv (a.modify id fun s => s.markClosed .captureEnd) := h.modify id fun _ => rfl
    rw [heq]
    exact hmod.congr rfl rfl rfl Iff.rfl
  evict := fun reason hf hs hc h => h.evict reason hf hs hc
  heaps := fun _ _ h => h.congr rfl rfl rfl Iff.rfl
  new := by
    refine ⟨?_, ?_, ?_, ?_⟩
    · intro e he
      cases he
    · rintro h q ⟨s, hs, -⟩
      cases hs
    · intro h f q hf
      cases hf
    · intro before e after p hsplit
      have hlen := congrArg List.length hsplit
      simp [Aggregator.new] at hlen
  tick := fun _ h => h.congr rfl rfl rfl Iff.rfl
  layer := by
    intro pkt w w' layer hw _ hstep hfits h
    cases hstep with
    | skip _ => exact h
    | keyError _ _ => exact h.congr rfl rfl rfl Iff.rfl
    | @folded plugin identity key dir foldDir b id hid hkey hr =>
        have hfits' : b.Fits := fits_of_touch hfits
        have hlim : w.agg.Fits := hr.fits hfits'
        have hb : RemovalInv b := by
          refine hr.rule (J := RemovalInv) h ?_ ?_ ?_ ?_
          · intro n hn _
            exact h.create hlim (by rw [hn]; exact hw.linked)
          · exact fun i hb => hb.modify i Stream.countMember_frame
          · exact fun i hb => hb.modify i Stream.markOverflow_frame
          · exact fun _ _ _ _ hb => hb.congr rfl rfl rfl Iff.rfl
        have htouch := hb.modify id fun s =>
          s.absorb_frame identity layer key foldDir pkt.meta_.timestamp pkt.meta_.origlen
        exact htouch.congr rfl rfl rfl Iff.rfl
  tail := fun id _ h => h.modify id fun _ => rfl
  unknown := fun _ h => h.congr rfl rfl rfl Iff.rfl

/-! ## Deliveries of a live capture -/

section Live

variable {env : Env} {a b : Aggregator}

theorem sinkCalls_evict {id : StreamId} {s : Stream} (reason : CloseReason) (hs : a.get id = some s) :
    (a.evict env id reason).sinkCalls = if env.config.sink = true then
      a.sinkCalls ++ [⟨s.markClosed reason, reason⟩] else a.sinkCalls := by
  rw [evict_eq hs, unlink_eq]
  rfl

/-- The sink has received the removed streams, in order. -/
def Delivers (a : Aggregator) : Prop := a.sinkCalls = a.removed

theorem Delivers.evict (hsink : env.config.sink = true) (h : Delivers a) (id : StreamId)
    (reason : CloseReason) : Delivers (a.evict env id reason) := by
  cases hs : a.get id with
  | none =>
      rw [evict_of_none hs]
      exact h
  | some s =>
      rw [Delivers]
      rw [sinkCalls_evict reason hs, removed_evict hs, if_pos hsink, h]

theorem Delivers.loopStep (hsink : env.config.sink = true) (h : Delivers a)
    {expiry : MinHeap ExpiryEntry} {lru : MinHeap LruEntry} (hstep : LoopStep env a expiry lru b) :
    Delivers b := by
  have h' : Delivers { a with expiry := expiry, lru := lru } := h
  cases hstep with
  | heaps => exact h'
  | evict reason _ _ => exact h'.evict hsink _ reason

/-- The layers of an ingest call no sink and remove nothing. -/
theorem LayerStep.calls {pkt : DissectedPacket} {w w' : Walk} {layer : LayerRecord}
    (hstep : LayerStep env pkt w layer w') :
    w'.agg.sinkCalls = w.agg.sinkCalls ∧ w'.agg.removed = w.agg.removed := by
  cases hstep with
  | skip _ => exact ⟨rfl, rfl⟩
  | keyError _ _ => exact ⟨rfl, rfl⟩
  | @folded plugin identity key dir foldDir b id _ _ hr =>
      have hb : b.sinkCalls = w.agg.sinkCalls ∧ b.removed = w.agg.removed :=
        hr.rule (J := fun c => c.sinkCalls = w.agg.sinkCalls ∧ c.removed = w.agg.removed) ⟨rfl, rfl⟩
          (fun _ _ _ => ⟨rfl, rfl⟩) (fun _ hc => hc) (fun _ hc => hc) (fun _ _ _ _ hc => hc)
      exact hb

theorem Delivers.ingestStable (hsink : env.config.sink = true) (pkt : DissectedPacket) :
    IngestStable env pkt (fun _ => True) Delivers where
  sweepBody := by
    intro a b _ h hab
    obtain ⟨expiry, hstep⟩ := sweepBody_step hab
    exact h.loopStep hsink hstep
  enforceBody := by
    intro a b _ h hab
    obtain ⟨lru, hstep⟩ := enforceBody_step hab
    exact h.loopStep hsink hstep
  compactLru := by
    intro a _ h
    obtain ⟨lru, heq⟩ := compactLru_eq a
    rw [heq]
    exact h
  layer := by
    intro w w' layer _ _ hstep _ h
    obtain ⟨hcalls, hremoved⟩ := hstep.calls
    exact hcalls.trans (h.trans hremoved.symm)
  tail := fun _ _ h => h
  unknown := fun _ h => h

/-- In a live capture with a sink, at every state between two calls. -/
theorem delivers_of_reaches {idle linger : Duration} {cap : Nat} (hsink : env.config.sink = true)
    (hev : env.config.eviction = .live idle linger cap) {ops : List Op} (h : Reaches env ops a) :
    Delivers a := by
  induction h with
  | new => rfl
  | @call ops a op hr hfits ih =>
      cases op with
      | ingest pkt =>
          exact ((Delivers.ingestStable hsink pkt).ingest (forestInv_of_reaches hr) ih hfits).2
      | finish =>
          show Delivers ((a.finishOrder.map FinishEntry.id).foldl (finishOne env) a)
          clear hfits hr
          generalize a.finishOrder.map FinishEntry.id = todo
          induction todo generalizing a with
          | nil => exact ih
          | cons id todo ih' =>
              rw [List.foldl_cons, finishOne_live hev]
              exact ih' (ih.evict hsink id .captureEnd)

/-- `finish` leaves no stream under the `Live` policy. -/
theorem streams_finish {idle linger : Duration} {cap : Nat}
    (hev : env.config.eviction = .live idle linger cap) (hf : ForestInv a) :
    (a.finish env).streams = [] := by
  have hclosing := closing_finishOrder hf
  rw [← List.append_nil (a.finishOrder.map FinishEntry.id)] at hclosing
  obtain ⟨-, -, hdone⟩ := (heapFree_true env).toEvictStable.closing hev hf trivial hclosing
  apply List.eq_nil_iff_forall_not_mem.2
  intro s hs
  obtain ⟨id, hid⟩ := mem_streams.1 hs
  cases (hdone.mem id).2 ⟨s, hid⟩

/-- What the sink has received at the end of a live capture. -/
structure Delivered (a : Aggregator) : Prop where
  /-- Every stream ever created, once. -/
  once : (a.sinkCalls.map fun e => e.stream.createdSeq).Perm (List.range a.nextSeq)
  /-- Without children. -/
  leaf : ∀ e ∈ a.sinkCalls, e.stream.children = []
  /-- Before its parent: the last stream created under the parent's id before it. -/
  childFirst : ∀ before e after, a.sinkCalls = before ++ e :: after → ∀ p, e.stream.parent = some p →
    ∃ d ∈ after, d.stream.id = p ∧ d.stream.createdSeq < e.stream.createdSeq ∧
      ∀ c ∈ a.sinkCalls, c.stream.id = p → c.stream.createdSeq < e.stream.createdSeq →
        c.stream.createdSeq ≤ d.stream.createdSeq

/-- Without live streams, the deliveries are complete. -/
theorem delivered_of_reaches {ops : List Op} (h : Reaches env ops a) (hd : Delivers a)
    (hempty : a.streams = []) : Delivered a := by
  have hseqs := ((SeqInv.runStable env).reaches h).2
  have hinv := ((removalInv_runStable env).reaches h).2
  have hever : a.everStreams = a.sinkCalls.map EvictedStream.stream := by
    rw [everStreams]
    rw [hempty, hd, List.nil_append]
  constructor
  case once =>
    rw [List.perm_iff_count]
    intro q
    have hq := hseqs q
    rw [tally_hasSeq, hever, List.map_map] at hq
    rw [List.count_range]
    exact hq
  case leaf =>
    rw [hd]
    exact hinv.leaf
  case childFirst =>
    intro before e after hsplit p hp
    rw [hd] at hsplit
    obtain ⟨q, hq, ⟨f, hf, -⟩ | ⟨d, hmem, hid, rfl⟩⟩ := hinv.parents hsplit hp
    · obtain ⟨s, hs⟩ := live_iff_frames.2 ⟨f, hf⟩
      have hlive := mem_streams.2 ⟨p, hs⟩
      rw [hempty] at hlive
      cases hlive
    · refine ⟨d, hmem, hid, hq.older, ?_⟩
      intro c hc hcid hlt
      rw [hd] at hc
      exact hq.latest _ (hcid ▸ everIssued_of_removed hc) hlt

end Live

/-! ## Deliveries of an offline capture -/

section Offline

variable {env : Env}

theorem sweep_none (hev : env.config.eviction = .none) (a : Aggregator) : a.sweep env = a := by
  have hbody : sweepBody env a = none := by simp only [sweepBody, sweepPick, hev, Pick.run]
  exact Loop.iterate_of_none hbody _

theorem enforceMaxStreams_none (hev : env.config.eviction = .none) (a : Aggregator) :
    a.enforceMaxStreams env = a := by
  have hbody : enforceBody env a = none := by simp only [enforceBody, enforcePick, hev, Pick.run]
  exact Loop.iterate_of_none hbody _

theorem sinkCalls_walk (env : Env) (a : Aggregator) (pkt : DissectedPacket)
    (layers : List LayerRecord) :
    (a.walkLayers env pkt layers).agg.sinkCalls = (a.beforeWalk env pkt).sinkCalls := by
  induction layers using List.reverseRecOn with
  | nil => rfl
  | append_singleton layers layer ih =>
      rw [walkLayers_append, (ingestLayer_spec env pkt _ layer).calls.1, ih]

/-- Without eviction an ingest calls no sink. -/
theorem sinkCalls_ingest (hev : env.config.eviction = .none) (a : Aggregator) (pkt : DissectedPacket) :
    (a.ingest env pkt).sinkCalls = a.sinkCalls := by
  have hbefore : (a.beforeWalk env pkt).sinkCalls = a.sinkCalls := by
    obtain ⟨lru, heq⟩ := compactLru_eq (a.tick pkt)
    rw [beforeWalk]
    rw [sweep_none hev, heq]
    rfl
  rw [ingest]
  rw [enforceMaxStreams_none hev, ← hbefore, ← sinkCalls_walk env a pkt pkt.layers]
  unfold beforeEnforce addUnknown addOpaque
  dsimp only
  cases pkt.unknown with
  | none => cases (a.walkLayers env pkt pkt.layers).parent <;> rfl
  | some diag => cases (a.walkLayers env pkt pkt.layers).parent <;> rfl

/-- The call that tells the sink of a stream closed in place. -/
def closingCall (s : Stream) : EvictedStream := ⟨s.markClosed .captureEnd, .captureEnd⟩

/-- The calls for a list of live streams, in the order of the list. -/
def closingCalls (a : Aggregator) (todo : List StreamId) : List EvictedStream :=
  todo.filterMap fun id => (a.get id).map closingCall

theorem streams_closeStream (env : Env) {a : Aggregator} (hf : ForestInv a) (id : StreamId) :
    (a.closeStream env id).streams =
      a.streams.map fun s => if s.id = id then s.markClosed .captureEnd else s := by
  obtain ⟨calls, heq⟩ := closeStream_eq env a id
  rw [heq]
  show (a.arena.modify id fun s => s.markClosed .captureEnd).values = a.arena.values.map _
  cases hs : a.get id with
  | none =>
      rw [Arena.modify_of_get_none hs]
      refine (List.map_id' _).symm.trans (List.map_congr_left fun s hmem => ?_)
      obtain ⟨h, hh⟩ := mem_streams.1 hmem
      refine (if_neg fun hid => ?_).symm
      rw [← hid, hf.id_eq hh, hh] at hs
      cases hs
  | some s =>
      obtain ⟨l, r, hvalues, hmod⟩ := Arena.values_modify (fun s => s.markClosed .captureEnd) hs
      -- the ids of the others are other ones
      have hother : ∀ t ∈ l ++ r, t.id ≠ id := by
        have hperm : (a.streams.map Stream.id).Perm (id :: (l ++ r).map Stream.id) := by
          show (a.arena.values.map Stream.id).Perm _
          rw [hvalues, List.map_append, List.map_cons, hf.id_eq hs, List.map_append]
          exact List.perm_middle
        have hnot := (List.nodup_cons.1 (hperm.nodup_iff.1 hf.ids_nodup)).1
        intro t ht hid
        exact hnot (hid ▸ List.mem_map_of_mem ht)
      have hkeep : ∀ m : List Stream, (∀ t ∈ m, t ∈ l ++ r) →
          m.map (fun t => if t.id = id then t.markClosed .captureEnd else t) = m := by
        intro m hm
        apply (List.map_congr_left fun t ht => ?_).trans (List.map_id' m)
        exact if_neg (hother t (hm t ht))
      rw [hmod, hvalues, List.map_append, List.map_cons, if_pos (hf.id_eq hs),
        hkeep l fun t ht => List.mem_append_left _ ht, hkeep r fun t ht => List.mem_append_right _ ht]

theorem get_closeStream (env : Env) (a : Aggregator) (id h : StreamId) :
    ((a.closeStream env id).get h).map closingCall = (a.get h).map closingCall := by
  obtain ⟨calls, heq⟩ := closeStream_eq env a id
  rw [heq]
  exact map_get_modify (f := fun s => s.markClosed .captureEnd) closingCall a id (fun _ => rfl) h

theorem sinkCalls_closeStream (hsink : env.config.sink = true) (a : Aggregator) (id : StreamId) :
    (a.closeStream env id).sinkCalls = a.sinkCalls ++ ((a.get id).map closingCall).toList := by
  rw [closeStream]
  cases a.get id with
  | none => exact (List.append_nil _).symm
  | some s =>
      dsimp only
      rw [if_pos hsink]
      rfl

/-- Closing the streams of a list in place. -/
theorem closing_list (hsink : env.config.sink = true) (hev : env.config.eviction = .none)
    (todo : List StreamId) {a : Aggregator} (hf : ForestInv a) :
    (todo.foldl (finishOne env) a).sinkCalls = a.sinkCalls ++ a.closingCalls todo ∧
      (todo.foldl (finishOne env) a).streams =
        a.streams.map fun s => if s.id ∈ todo then s.markClosed .captureEnd else s := by
  rw [closingCalls]
  induction todo generalizing a with
  | nil => simp
  | cons id todo ih =>
      rw [List.foldl_cons, finishOne_none hev]
      obtain ⟨hcalls, hstreams⟩ := ih (@ForestInv.closeStream env a hf id)
      constructor
      · rw [hcalls, sinkCalls_closeStream hsink]
        simp only [get_closeStream, List.append_assoc, List.filterMap_cons]
        cases (a.get id).map closingCall <;> rfl
      · rw [hstreams, streams_closeStream env hf, List.map_map]
        apply List.map_congr_left
        intro s _
        by_cases hid : s.id = id
        · by_cases hmem : s.id ∈ todo
          · simp [hid, Stream.markClosed]
          · simp [hid, Stream.markClosed]
        · by_cases hmem : s.id ∈ todo
          · simp [hid, hmem]
          · simp [hid, hmem]

/-- What `finish` does to an offline capture: every live stream is delivered once, before its parent, and
stays in the store, closed. -/
structure ClosesInPlace (env : Env) (a : Aggregator) (calls : List EvictedStream) : Prop where
  told : (a.finish env).sinkCalls = a.sinkCalls ++ calls
  once : calls.Perm (a.streams.map closingCall)
  childFirst : ∀ before e after, calls = before ++ e :: after → ∀ p, e.stream.parent = some p →
    ∃ d ∈ after, d.stream.id = p
  stays : (a.finish env).streams = a.streams.map fun s => s.markClosed .captureEnd

/-- Every id of the list is live, so the calls go through the list one by one. -/
theorem ids_closingCalls {a : Aggregator} (hf : ForestInv a) {todo : List StreamId}
    (hlive : ∀ id ∈ todo, ∃ s, a.get id = some s) :
    (a.closingCalls todo).map (fun e => e.stream.id) = todo := by
  rw [closingCalls]
  induction todo with
  | nil => rfl
  | cons id todo ih =>
      obtain ⟨s, hs⟩ := hlive id List.mem_cons_self
      have hid : s.id = id := hf.id_eq hs
      have hcall : (closingCall s).stream.id = id := hid
      rw [List.filterMap_cons, hs, Option.map_some]
      simp only [List.map_cons, hcall, ih fun i hi => hlive i (List.mem_cons_of_mem _ hi)]

theorem closingCalls_streams {a : Aggregator} (hf : ForestInv a) :
    a.closingCalls (a.streams.map Stream.id) = a.streams.map closingCall := by
  rw [closingCalls]
  rw [List.filterMap_map, ← List.filterMap_eq_map]
  apply List.filterMap_congr
  intro s hs
  obtain ⟨h, hh⟩ := mem_streams.1 hs
  simp only [Function.comp_apply, hf.id_eq hh, hh, Option.map_some]

/-- In a list of streams to be closed a parent comes after its children. -/
theorem Closing.parent_after {depth : StreamId → Nat} {a : Aggregator} (hf : ForestInv a)
    {before after : List StreamId} {id p : StreamId} {s : Stream}
    (h : Closing depth (before ++ id :: after) a) (hs : a.get id = some s) (hp : s.parent = some p) :
    p ∈ after := by
  have hdeeper := h.parent hs hp
  obtain ⟨-, ps, hps⟩ := hf.parent_live hs hp
  rcases List.mem_append.1 ((h.mem p).2 ⟨ps, hps⟩) with hearlier | hlater
  · have hle := (List.pairwise_append.1 h.deeper).2.2 p hearlier id List.mem_cons_self
    omega
  · rcases List.mem_cons.1 hlater with rfl | hlater
    · exact absurd hdeeper (Nat.lt_irrefl _)
    · exact hlater

/-- Without eviction `finish` delivers the calls of its order. -/
theorem closesInPlace (hsink : env.config.sink = true) (hev : env.config.eviction = .none)
    {a : Aggregator} (hf : ForestInv a) :
    ClosesInPlace env a (a.closingCalls (a.finishOrder.map FinishEntry.id)) := by
  obtain ⟨hcalls, hstreams⟩ := closing_list hsink hev (a.finishOrder.map FinishEntry.id) hf
  have hclosing := closing_finishOrder hf
  constructor
  case told => exact hcalls
  case once =>
    rw [← closingCalls_streams hf]
    exact (finishOrder_perm a).filterMap _
  case childFirst =>
    intro before e after hsplit p hp
    have hids := ids_closingCalls hf fun id => (hclosing.mem id).1
    -- the call is that of a live stream
    have hmem : e ∈ a.closingCalls (a.finishOrder.map FinishEntry.id) := by
      rw [hsplit]
      exact List.mem_append_right _ List.mem_cons_self
    obtain ⟨id, -, hcall⟩ := List.mem_filterMap.1 hmem
    obtain ⟨s, hs, rfl⟩ := Option.map_eq_some_iff.1 hcall
    have hid : s.id = id := hf.id_eq hs
    have hcallId : (closingCall s).stream.id = id := hid
    rw [hsplit, List.map_append, List.map_cons, hcallId] at hids
    rw [← hids] at hclosing
    exact List.mem_map.1 (hclosing.parent_after hf hs hp)
  case stays =>
    refine hstreams.trans (List.map_congr_left ?_)
    intro s hs
    obtain ⟨h, hh⟩ := mem_streams.1 hs
    exact if_pos ((hclosing.mem s.id).2 ⟨s, by rw [hf.id_eq hh]; exact hh⟩)

end Offline

end Aggregator

/-- **The sink protocol.** At the end of every live capture each stream ever created has been delivered
once, as a leaf and before its parent, what was stored in any state of the run among them, and the store
is vacant. An offline capture calls the sink from `finish` alone, once for each live stream and before its
parent, and keeps the streams, closed. -/
theorem sink_protocol {env : Env} (hsink : env.config.sink = true) :
    (∀ idle linger cap, env.config.eviction = .live idle linger cap →
      ∀ ops a, Reaches env (ops ++ [.finish]) a →
        a.Delivered ∧ a.Vacant ∧
          ∀ earlier later b, ops ++ [.finish] = earlier ++ later → Reaches env earlier b →
            ∀ s ∈ b.everStreams, ∃ e ∈ a.sinkCalls, e.stream.id = s.id ∧
              e.stream.createdSeq = s.createdSeq) ∧
      (env.config.eviction = .none → ∀ ops a, Reaches env ops a →
        (∀ pkt, (a.ingest env pkt).sinkCalls = a.sinkCalls) ∧
          ∃ calls, a.ClosesInPlace env calls) := by
  constructor
  · intro idle linger cap hev ops a h
    have hempty : a.streams = [] := by
      rw [h.eq_run, run_append]
      exact Aggregator.streams_finish hev (Aggregator.forestInv_of_reaches h.of_append_singleton.1)
    have hdelivers := Aggregator.delivers_of_reaches hsink hev h
    refine ⟨Aggregator.delivered_of_reaches h hdelivers hempty, Aggregator.vacant_of_reaches h hempty, ?_⟩
    intro earlier later b hops hb s hs
    -- ids stay issued, and what is issued in the end was removed
    rw [hops] at h
    have hissued := (Aggregator.issued_persistent env s.id s.createdSeq).reaches hb
      (Aggregator.tally_hasIssue_pos.2 ⟨s, hs, rfl, rfl⟩) later h
    obtain ⟨t, ht, hid, hseq⟩ := Aggregator.tally_hasIssue_pos.1 hissued
    rw [Aggregator.everStreams] at ht
    rw [hempty, List.nil_append, ← hdelivers] at ht
    obtain ⟨e, he, rfl⟩ := List.mem_map.1 ht
    exact ⟨e, he, hid, hseq⟩
  · intro hev ops a h
    exact ⟨Aggregator.sinkCalls_ingest hev a, _, Aggregator.closesInPlace hsink hev
      (Aggregator.forestInv_of_reaches h)⟩

/-- Both sample captures, live and offline: eight streams, a condensed node among them, are delivered. -/
theorem sink_protocol_sample :
    ((run (sampleEnv (.live 50 10 4) 2) (sampleOps ++ [.finish])).Delivered ∧
      (run (sampleEnv (.live 50 10 4) 2) (sampleOps ++ [.finish])).Vacant ∧
      (run (sampleEnv (.live 50 10 4) 2) (sampleOps ++ [.finish])).sinkCalls.length = 8 ∧
      (run (sampleEnv (.live 50 10 4) 2) (sampleOps ++ [.finish])).sinkCalls.any fun e =>
        e.stream.condensed.isSome) ∧
    (run (sampleEnv .none 2) sampleOps).sinkCalls = [] ∧
    ∃ calls, (run (sampleEnv .none 2) sampleOps).ClosesInPlace (sampleEnv .none 2) calls := by
  have hlive := (@sink_protocol (sampleEnv (.live 50 10 4) 2) rfl).1 50 10 4 rfl sampleOps _
    (reaches_run _ (sampleOps ++ [.finish]) (by decide))
  have hoffline := (@sink_protocol (sampleEnv .none 2) rfl).2 rfl sampleOps _
    (reaches_run _ sampleOps (by decide))
  refine ⟨⟨hlive.1, hlive.2.1, ?_, ?_⟩, ?_, hoffline.2⟩
  · decide +kernel
  · decide +kernel
  · rw [← List.length_eq_zero_iff]
    decide +kernel

end Pktflow.Flows
