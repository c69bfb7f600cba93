import Pktflow.Flows.Bounds

/-!
# The expiry heap without a bound

One TCP conversation, all of its packets at the epoch, is closed and opened again by turns. Each turn leaves
an entry that lies ahead of the clock: the linger deadline of the close, or, without a linger, the idle
deadline of the stream that takes the place of the one swept away. No such entry is ever popped, so unless
both timeouts are zero the heap outgrows every bound (`exists_many_entries`).
-/

set_option autoImplicit false

namespace Pktflow.Flows

open Pktflow.Core Pktflow.Lib

/-! ## Entries ahead of the epoch -/

/-- Counts the entries that are due after the epoch. -/
def lateEntry (e : ExpiryEntry) : Nat := if 0 < e.deadline then 1 else 0

theorem lateEntry_le_one (e : ExpiryEntry) : lateEntry e ≤ 1 := by
  rw [lateEntry]
  split <;> omega

/-- One for a delay that is not zero. -/
def delayed (d : Duration) : Nat := if 0 < d then 1 else 0

theorem lateEntry_expiryEntry (d : Duration) (id : StreamId) :
    lateEntry (expiryEntry (0 + d) id) = delayed d := by
  rw [lateEntry, delayed]
  simp [expiryEntry]

namespace Aggregator

/-- The expiry entries ahead of the epoch. -/
def late (a : Aggregator) : Nat := LazyHeap.weight lateEntry a.expiry

theorem late_le_length (a : Aggregator) : a.late ≤ a.expiry.length := by
  have hle := LazyHeap.weight_le 1 lateEntry_le_one a.expiry
  rw [Nat.one_mul] at hle
  exact hle

theorem late_evict {env : Env} {idle linger : Duration} {cap : Nat} {a : Aggregator} {id : StreamId}
    {s : Stream} (hev : env.config.eviction = .live idle linger cap) (reason : CloseReason)
    (hf : ForestInv a) (hs : a.get id = some s) : a.late ≤ (a.evict env id reason).late := by
  unfold late
  rcases heaps_evict hev reason hf hs with ⟨-, he, -⟩ | ⟨p, t, -, -, he, -⟩
  · rw [he]
  · rw [he, LazyHeap.weight_push]
    exact Nat.le_add_left _ _

/-- With the clock at the epoch the entries ahead of it stay in the heap. -/
theorem late_loopStable {env : Env} {idle linger : Duration} {cap : Nat}
    (hev : env.config.eviction = .live idle linger cap) (n : Nat) :
    LoopStable env fun a => a.clock = 0 ∧ n ≤ a.late where
  sweepBody := by
    rintro a b hf ⟨hclock, hlate⟩ hab
    refine ⟨(clock_heapFree env 0).loopStable.sweepBody hf hclock hab, ?_⟩
    have hpopped : ∀ {e : ExpiryEntry} {rest : MinHeap ExpiryEntry}, a.expiry.pop = some (e, rest) →
        e.deadline ≤ a.clock → n ≤ LazyHeap.weight lateEntry rest := by
      intro e rest hpop hdue
      rw [hclock] at hdue
      unfold late at hlate
      rw [LazyHeap.weight_of_pop _ hpop, lateEntry, if_neg (not_lt.2 hdue), Nat.zero_add] at hlate
      exact hlate
    apply sweepBody_rule (J := fun b => n ≤ b.late) hev hab
    · intro e rest hpop hdue _
      exact hpopped hpop hdue
    · intro e rest s hpop hdue _ _
      show n ≤ LazyHeap.weight lateEntry (rest.push _)
      rw [LazyHeap.weight_push]
      exact le_trans (hpopped hpop hdue) (Nat.le_add_left _ _)
    · intro e rest s hpop hdue hs _ _
      have hf' : ForestInv { a with expiry := rest } := hf.congr rfl rfl rfl rfl
      exact le_trans (hpopped hpop hdue) (late_evict (a := { a with expiry := rest }) hev _ hf' hs)
  enforceBody := by
    rintro a b hf ⟨hclock, hlate⟩ hab
    refine ⟨(clock_heapFree env 0).loopStable.enforceBody hf hclock hab, ?_⟩
    obtain ⟨lru, hstep⟩ := enforceBody_step hab
    cases hstep with
    | heaps => exact hlate
    | evict reason hs _ =>
        have hf' : ForestInv { a with lru := lru } := hf.congr rfl rfl rfl rfl
        exact le_trans hlate (late_evict (a := { a with lru := lru }) hev reason hf' hs)
  compactLru := by
    rintro a hf ⟨hclock, hlate⟩
    refine ⟨(clock_heapFree env 0).loopStable.compactLru hf hclock, ?_⟩
    rw [late]
    rw [expiry_compactLru]
    exact hlate

end Aggregator

/-! ## One conversation -/

/-- The identity of the TCP conversations of the sample engine. -/
def tcpIdentity : StreamIdentity := { pairIdentity with lifecycle := some finLifecycle }

/-- A TCP layer of the conversation between 1 and 2, with or without a `fin`. -/
def tcpLayer (fin : Bool) : LayerRecord :=
  ⟨"tcp", 0, 0, if fin then (pairFields 1 2).insert "fin" (.bool true) else pairFields 1 2⟩

/-- The key of the conversation. -/
def tcpKey : FlowKey :=
  match flowKey tcpIdentity (pairFields 1 2) with
  | .ok (key, _) => key
  | .error _ => []

/-- The ingest of one of its packets, at the epoch. -/
def tcpPacket (fin : Bool) : DissectedPacket := ⟨⟨0, 60, 60, 1⟩, [tcpLayer fin], .complete, 0, none⟩

theorem flowKey_tcpLayer (fin : Bool) : flowKey tcpIdentity (tcpLayer fin).fields = .ok (tcpKey, .aToB) := by
  cases fin <;> rfl

/-- A stream of the conversation. -/
structure TcpStream (s : Stream) : Prop where
  parent : s.parent = none
  protocol : s.protocol = "tcp"
  key : s.key = tcpKey
  children : s.children = []
  state : s.state.isSome = true

/-- Whether it is closed, which it is since the epoch. -/
structure TcpState (fin : Bool) (s : Stream) : Prop extends TcpStream s where
  eligible : s.closeEligible = fin
  since : fin = true → s.closeEligibleSince = some 0

/-- A packet of the other kind than the last one closes the stream or opens it. -/
theorem TcpStream.absorb {s : Stream} (h : TcpStream s) {fin : Bool}
    (hopen : fin = true → s.closeEligible = false) (dir : PacketDirection) (origlen : Nat) :
    TcpState fin (s.absorb tcpIdentity (tcpLayer fin) tcpKey dir 0 origlen).1 ∧
      (s.absorb tcpIdentity (tcpLayer fin) tcpKey dir 0 origlen).2 = fin := by
  obtain ⟨current, hstate⟩ := Option.isSome_iff_exists.1 h.state
  have hlife : tcpIdentity.lifecycle = some finLifecycle := rfl
  have hclosed : decide (finLifecycle.advance (tcpLayer fin).fields current dir ∈
      finLifecycle.closedStates) = fin := by
    cases fin <;> rfl
  simp only [Stream.absorb, Stream.advance, hlife, hstate, hclosed]
  refine ⟨⟨⟨h.parent, h.protocol, h.key, h.children, rfl⟩, rfl, ?_⟩, ?_⟩
  · rintro rfl
    simp [hopen rfl]
  · cases fin with
    | false => rfl
    | true => simp [hopen rfl]

/-- The sample engine, without condensation. -/
def tcpEnv (idle linger : Duration) (cap : Nat) : Env := sampleEnv (.live idle linger cap) 0

namespace Aggregator

theorem identityOf_tcp (idle linger : Duration) (cap : Nat) {protocol : ProtocolName}
    {plugin : LayerPlugin} {identity : StreamIdentity} (hprotocol : protocol = "tcp")
    (hid : identityOf (tcpEnv idle linger cap) protocol = some (plugin, identity)) :
    identity = tcpIdentity := by
  subst hprotocol
  exact (congrArg Prod.snd (Option.some.inj hid)).symm

/-- One slot at most, and in it the conversation, closed or not. -/
structure Lone (fin : Bool) (a : Aggregator) : Prop where
  slots : a.arena.slots.length ≤ 1
  live : ∀ id s, a.get id = some s → TcpState fin s

namespace Lone

variable {idle linger : Duration} {cap : Nat} {fin : Bool} {a b : Aggregator}

theorem fits (h : Lone fin a) : a.Fits := lt_of_le_of_lt h.slots (by decide)

theorem modify (h : Lone fin a) (id : StreamId) {f : Stream → Stream}
    (hf : ∀ s, TcpState fin s → TcpState fin (f s)) : Lone fin (a.modify id f) := by
  refine ⟨le_of_eq_of_le (Arena.length_modify _ _ _) h.slots, ?_⟩
  intro i s hs
  rw [get_modify, Function.update_apply] at hs
  split at hs
  · obtain ⟨t, ht, rfl⟩ := Option.map_eq_some_iff.1 hs
    exact hf t (h.live id t ht)
  · exact h.live i s hs

theorem heapFree (env : Env) (fin : Bool) : HeapFree env (Lone fin) where
  close := by
    intro a id h
    obtain ⟨calls, heq⟩ := closeStream_eq env a id
    have hmod := h.modify id (f := fun s => s.markClosed .captureEnd)
      fun s hs => ⟨⟨hs.parent, hs.protocol, hs.key, hs.children, hs.state⟩, hs.eligible, hs.since⟩
    rw [heq]
    exact ⟨hmod.slots, hmod.live⟩
  evict := by
    intro a id s reason _ hs _ h
    refine ⟨le_of_eq_of_le (slots_evict env a id reason) h.slots, ?_⟩
    intro i t ht
    rw [get_evict hs, (h.live id s hs).parent] at ht
    split at ht
    · cases ht
    · rw [if_neg nofun] at ht
      exact h.live i t ht
  heaps := fun _ _ h => ⟨h.slots, h.live⟩

/-- The packet is folded into the only stream there is. -/
theorem touch (hslots : b.arena.slots.length ≤ 1) {id : StreamId} {s : Stream}
    (hs : b.get id = some s) (honly : ∀ i t, b.get i = some t → i = id) (htcp : TcpStream s)
    (hopen : fin = true → s.closeEligible = false) (dir : PacketDirection) (origlen : Nat) :
    Lone fin (b.touch (tcpEnv idle linger cap) id tcpIdentity (tcpLayer fin) tcpKey dir 0 origlen) ∧
      (b.touch (tcpEnv idle linger cap) id tcpIdentity (tcpLayer fin) tcpKey dir 0 origlen).late =
        b.late + if fin then delayed linger else 0 := by
  obtain ⟨hafter, hbecame⟩ := htcp.absorb hopen dir origlen
  refine ⟨⟨le_of_eq_of_le (Arena.length_modify _ _ _) hslots, ?_⟩, ?_⟩
  · intro i t ht
    have hmod : (b.modify id fun s => (s.absorb tcpIdentity (tcpLayer fin) tcpKey dir 0 origlen).1).get i =
        some t := ht
    rw [get_modify, Function.update_apply] at hmod
    split at hmod
    · rw [hs, Option.map_some] at hmod
      obtain rfl := Option.some.inj hmod
      exact hafter
    · rename_i hne
      exact absurd (honly i t hmod) hne
  · unfold late
    rw [@expiry_touch (tcpEnv idle linger cap) idle linger cap rfl, hs, Option.any_some, hbecame]
    cases fin with
    | false => rfl
    | true =>
        simp only [if_true]
        rw [LazyHeap.weight_push, lateEntry_expiryEntry, Nat.add_comm]

/-- A live stream is found, so the packet creates one only in an empty store. -/
theorem vacant_of_fresh (h : Lone fin a) {env : Env} (htab : TableInv env a) {layer : LayerRecord}
    (hlayer : layer.protocol = "tcp")
    (hmiss : ∀ id ∈ a.bucket (none, layer.protocol, env.digest tcpKey), ∀ s, a.get id = some s →
      s.key ≠ tcpKey) (id : StreamId) : a.get id = none := by
  cases hs : a.get id with
  | none => rfl
  | some s =>
      have htcp := h.live id s hs
      refine absurd htcp.key (hmiss id (htab.index.mem_bucket.2 ⟨s.frame, frames_of_get hs, ?_⟩) s hs)
      show (s.parent, s.protocol, env.digest s.key) = _
      rw [htcp.parent, htcp.protocol, htcp.key, hlayer]

/-- A creation in an empty store takes the slot there is. -/
theorem get_created (h : Lone fin a) (hvacant : ∀ id, a.get id = none) (env : Env) {n : NewStream}
    (hn : n.parent = none) {id : StreamId} {s : Stream}
    (hs : (a.createStreamRaw env n).1.get id = some s) :
    id = a.freshId ∧ s = n.record a.freshId a.nextSeq := by
  have hlinked : a.Linked n.parent := by
    intro p hp
    rw [hn] at hp
    cases hp
  rw [get_create env h.fits hlinked, hn] at hs
  split at hs
  · rename_i hid
    exact ⟨hid, (Option.some.inj hs).symm⟩
  · rw [if_neg nofun, hvacant] at hs
    cases hs

theorem late_created (idle linger : Duration) (cap : Nat) (a : Aggregator) {n : NewStream}
    (hn : n.ts = 0) :
    (a.createStreamRaw (tcpEnv idle linger cap) n).1.late = a.late + delayed idle := by
  unfold late
  rw [(@heaps_create (tcpEnv idle linger cap) idle linger cap rfl a n).1, LazyHeap.weight_push, hn,
    lateEntry_expiryEntry, Nat.add_comm]

theorem slots_created (h : Lone fin a) (hvacant : ∀ id, a.get id = none) (env : Env) (n : NewStream) :
    (a.createStreamRaw env n).1.arena.slots.length ≤ 1 := by
  rw [length_slots_create]
  exact le_trans (Arena.length_insert_of_vacant hvacant _ _) (max_le (le_refl 1) h.slots)

/-- One packet of the conversation, after one of the other kind. -/
theorem layer (h : Lone (!fin) a) (htab : TableInv (tcpEnv idle linger cap) a) {w : Walk}
    (hstep : LayerStep (tcpEnv idle linger cap) (tcpPacket fin) { agg := a } (tcpLayer fin) w) :
    Lone fin w.agg ∧ (a.late + if fin then delayed linger else 0) ≤ w.agg.late ∧
      ((∀ id, a.get id = none) → a.late + delayed idle ≤ w.agg.late) := by
  have hopen : ∀ id s, a.get id = some s → fin = true → s.closeEligible = false := by
    rintro id s hs rfl
    exact (h.live id s hs).eligible
  cases hstep with
  | skip hid => cases hid
  | keyError hid hkey =>
      obtain rfl := identityOf_tcp idle linger cap rfl hid
      rw [flowKey_tcpLayer] at hkey
      cases hkey
  | @folded plugin identity key dir foldDir b id hid hkey hr _ =>
      obtain rfl := identityOf_tcp idle linger cap rfl hid
      rw [flowKey_tcpLayer] at hkey
      obtain ⟨rfl, rfl⟩ := Prod.mk.inj (Except.ok.inj hkey)
      cases hr with
      | hit _ hs _ =>
          -- the streams have one parent, protocol and key, so the index has one of them at most
          have honly : ∀ i t, a.get i = some t → i = id := by
            intro i t ht
            have hi := h.live i t ht
            have hid := h.live id _ hs
            exact htab.index.unique (frames_of_get ht) (frames_of_get hs) (hi.parent.trans hid.parent.symm)
              (hi.protocol.trans hid.protocol.symm) (hi.key.trans hid.key.symm)
          obtain ⟨hlone, hlate⟩ := @touch idle linger cap fin a h.slots id _ hs honly
            (h.live id _ hs).toTcpStream (hopen id _ hs) .aToB 60
          refine ⟨hlone, le_of_eq hlate.symm, fun hnone => ?_⟩
          rw [hnone] at hs
          cases hs
      | member hcs _ _ _ _ => cases hcs
      | node hcs _ _ _ _ => cases hcs
      | fresh hcs hmiss =>
          -- a fresh stream is made only where none is live
          have hvacant := h.vacant_of_fresh htab rfl hmiss
          have hlinked : a.Linked none := by
            intro p hp
            cases hp
          have hmade := get_create (n := layerStream (tcpEnv idle linger cap) none tcpKey tcpIdentity
            (tcpLayer fin) .aToB 0) (tcpEnv idle linger cap) h.fits hlinked a.freshId
          rw [if_pos rfl] at hmade
          obtain ⟨hlone, hlate⟩ := @touch idle linger cap fin _ (h.slots_created hvacant _ _) _ _ hmade
            (fun i t ht => (h.get_created hvacant _ rfl ht).1) ⟨rfl, rfl, rfl, rfl, rfl⟩ (fun _ => rfl)
            .aToB 60
          rw [late_created idle linger cap a rfl] at hlate
          refine ⟨⟨hlone.slots, hlone.live⟩, ?_, fun _ => ?_⟩
          · exact le_of_le_of_eq (by omega) hlate.symm
          · exact le_of_le_of_eq (by omega) hlate.symm

/-- The ingest of the packet. -/
theorem ingest (h : Lone (!fin) a) (hf : ForestInv a) (htab : TableInv (tcpEnv idle linger cap) a)
    (hclock : a.clock = 0) :
    Lone fin (a.ingest (tcpEnv idle linger cap) (tcpPacket fin)) ∧
      (a.ingest (tcpEnv idle linger cap) (tcpPacket fin)).clock = 0 ∧
      (a.late + if fin then delayed linger else 0) ≤
        (a.ingest (tcpEnv idle linger cap) (tcpPacket fin)).late ∧
      ((∀ id, (a.beforeWalk (tcpEnv idle linger cap) (tcpPacket fin)).get id = none) →
        a.late + delayed idle ≤ (a.ingest (tcpEnv idle linger cap) (tcpPacket fin)).late) := by
  have hloop : ∀ n, LoopStable (tcpEnv idle linger cap) fun b => b.clock = 0 ∧ n ≤ b.late := fun n =>
    @late_loopStable (tcpEnv idle linger cap) idle linger cap rfl n
  have htick : (a.tick (tcpPacket fin)).clock = 0 := by
    show max a.clock 0 = 0
    rw [hclock]
    rfl
  -- up to the walk
  have hlone : Lone (!fin) (a.beforeWalk (tcpEnv idle linger cap) (tcpPacket fin)) :=
    (heapFree _ _).loopStable.beforeWalk hf ⟨h.slots, h.live⟩
  have htab' := (TableInv.runStable (tcpEnv idle linger cap)).toHeapFree.loopStable.beforeWalk hf
    ((TableInv.runStable (tcpEnv idle linger cap)).tick (tcpPacket fin) htab)
  obtain ⟨hclock', hlate⟩ := (hloop a.late).beforeWalk hf ⟨htick, le_refl _⟩
  -- the layer
  have hstep := ingestLayer_spec (tcpEnv idle linger cap) (tcpPacket fin)
    { agg := a.beforeWalk (tcpEnv idle linger cap) (tcpPacket fin) } (tcpLayer fin)
  have hwalk : WalkInv { agg := a.beforeWalk (tcpEnv idle linger cap) (tcpPacket fin) } :=
    ⟨hf.beforeWalk _, fun p hp => by cases hp⟩
  obtain ⟨hafter, hgain, hgain'⟩ := hlone.layer htab' hstep
  have hclockw := (clock_ingestStable (tcpEnv idle linger cap) (tcpPacket fin) 0).layer hwalk trivial hstep
    hafter.fits hclock'
  have hw := hwalk.layerStep hstep hafter.fits
  generalize hdone : ingestLayer (tcpEnv idle linger cap) (tcpPacket fin)
    { agg := a.beforeWalk (tcpEnv idle linger cap) (tcpPacket fin) } (tcpLayer fin) = w at *
  -- the rest of the ingest
  have hbefore : a.beforeEnforce (tcpEnv idle linger cap) (tcpPacket fin) =
      (w.agg.addOpaque w.parent 0).addUnknown (tcpEnv idle linger cap) (tcpPacket fin) w.lastEndpoint := by
    rw [← hdone]
    rfl
  obtain ⟨hf', hafter', hrest⟩ := @afterWalk_rule (tcpEnv idle linger cap) (tcpPacket fin)
    (fun b => Lone fin b ∧ b.clock = 0 ∧ w.agg.late ≤ b.late) (fun id n hb => ⟨hb.1.modify id fun s hs =>
      ⟨⟨hs.parent, hs.protocol, hs.key, hs.children, hs.state⟩, hs.eligible, hs.since⟩, hb.2⟩)
    (fun _ hb => ⟨⟨hb.1.slots, hb.1.live⟩, hb.2⟩) w hw ⟨hafter, hclockw, le_refl _⟩
  have hend : Lone fin (a.ingest (tcpEnv idle linger cap) (tcpPacket fin)) := by
    rw [Aggregator.ingest]
    rw [hbefore]
    exact (heapFree _ _).loopStable.enforceMaxStreams hf' hafter'
  obtain ⟨hclock'', hlate'⟩ : (a.ingest (tcpEnv idle linger cap) (tcpPacket fin)).clock = 0 ∧
      w.agg.late ≤ (a.ingest (tcpEnv idle linger cap) (tcpPacket fin)).late := by
    rw [Aggregator.ingest]
    rw [hbefore]
    exact (hloop _).enforceMaxStreams hf' hrest
  refine ⟨hend, hclock'', by omega, fun hvacant => ?_⟩
  have hmade := hgain' hvacant
  omega

/-- Without a linger the sweep takes a closed conversation away. -/
theorem vacant_of_closed {ops : List Op} (hr : Reaches (tcpEnv idle 0 cap) ops a) (h : Lone true a)
    (hclock : a.clock = 0) (hzero : ∀ t ∈ timestamps ops, t = 0) (fin : Bool) (id : StreamId) :
    (a.beforeWalk (tcpEnv idle 0 cap) (tcpPacket fin)).get id = none := by
  have hf := forestInv_of_reaches hr
  have hsorted : (timestamps (ops ++ [.ingest (tcpPacket fin)])).Pairwise (· ≤ ·) := by
    have hall : ∀ t ∈ timestamps (ops ++ [.ingest (tcpPacket fin)]), t = 0 := by
      intro t ht
      rw [timestamps_ingest] at ht
      rcases List.mem_append.1 ht with hold | hnew
      · exact hzero t hold
      · exact List.mem_singleton.1 hnew
    apply List.pairwise_of_forall_mem_list
    intro x hx y hy
    rw [hall x hx, hall y hy]
  have hkept : (a.beforeWalk (tcpEnv idle 0 cap) (tcpPacket fin)).get id =
      ((a.tick (tcpPacket fin)).sweep (tcpEnv idle 0 cap)).get id := by
    show (((a.tick (tcpPacket fin)).sweep (tcpEnv idle 0 cap)).compactLru).arena.get id = _
    rw [arena_compactLru]
    rfl
  have hlone : Lone true (a.beforeWalk (tcpEnv idle 0 cap) (tcpPacket fin)) :=
    (heapFree _ _).loopStable.beforeWalk hf ⟨h.slots, h.live⟩
  cases hs : (a.beforeWalk (tcpEnv idle 0 cap) (tcpPacket fin)).get id with
  | none => rfl
  | some s =>
      have htcp := hlone.live id s hs
      rw [hkept] at hs
      -- its linger was over when it began
      have hlater := @deadline_of_sweep (tcpEnv idle 0 cap) idle 0 cap rfl ops a hr (tcpPacket fin) hsorted
        id s hs htcp.children
      have hdue : s.deadline idle 0 ≤ 0 := by
        rw [Stream.deadline]
        rw [htcp.since rfl]
        exact min_le_right _ _
      have htick : (a.tick (tcpPacket fin)).clock = 0 := by
        show max a.clock 0 = 0
        rw [hclock]
        rfl
      rw [htick] at hlater
      exact absurd hdue (not_le.2 hlater)

end Lone

end Aggregator

/-! ## Runs -/

/-- Packets of the conversation, closing or not. -/
def tcpOps (fins : List Bool) : List Op := fins.map fun fin => .ingest (tcpPacket fin)

theorem tcpOps_append (fins : List Bool) (fin : Bool) :
    tcpOps (fins ++ [fin]) = tcpOps fins ++ [.ingest (tcpPacket fin)] := by
  simp [tcpOps]

theorem packetsOf_tcpOps (fins : List Bool) : packetsOf (tcpOps fins) = fins.map tcpPacket := by
  induction fins with
  | nil => rfl
  | cons fin fins ih => simp [tcpOps, packetsOf] at ih ⊢

theorem timestamps_tcpOps (fins : List Bool) : ∀ t ∈ timestamps (tcpOps fins), t = 0 := by
  intro t ht
  rw [timestamps, packetsOf_tcpOps, List.map_map] at ht
  obtain ⟨fin, -, rfl⟩ := List.mem_map.1 ht
  rfl

theorem layersWithin_tcpOps (fins : List Bool) : LayersWithin 1 (tcpOps fins) := by
  intro pkt hpkt
  rw [packetsOf_tcpOps] at hpkt
  obtain ⟨fin, -, rfl⟩ := List.mem_map.1 hpkt
  exact le_refl 1

/-- What one packet makes of a run of the conversation. -/
theorem tcpOps_step {idle linger : Duration} {cap : Nat} {fins : List Bool} {fin : Bool} {a : Aggregator}
    (hr : Reaches (tcpEnv idle linger cap) (tcpOps fins) a) (h : a.Lone (!fin)) (hclock : a.clock = 0) :
    ∃ b, Reaches (tcpEnv idle linger cap) (tcpOps (fins ++ [fin])) b ∧ b.Lone fin ∧ b.clock = 0 ∧
      (a.late + if fin then delayed linger else 0) ≤ b.late ∧
      (fin = false → linger = 0 → a.late + delayed idle ≤ b.late) := by
  obtain ⟨hf, htab⟩ := (Aggregator.TableInv.runStable (tcpEnv idle linger cap)).reaches hr
  obtain ⟨hlone, hclock', hgain, hgain'⟩ := h.ingest hf htab hclock
  refine ⟨_, ?_, hlone, hclock', hgain, ?_⟩
  · rw [tcpOps_append]
    exact .call (.ingest (tcpPacket fin)) hr hlone.fits
  · rintro rfl rfl
    exact hgain' (Aggregator.Lone.vacant_of_closed hr h hclock (timestamps_tcpOps fins) false)

/-- Closed and opened again, the conversation leaves an entry ahead of the clock. -/
theorem exists_many_entries {idle linger : Duration} (cap : Nat) (hpos : ¬(idle = 0 ∧ linger = 0)) (n : Nat) :
    ∃ fins a, Reaches (tcpEnv idle linger cap) (tcpOps fins) a ∧ n ≤ a.expiry.length := by
  have hlate : ∃ fins a, Reaches (tcpEnv idle linger cap) (tcpOps fins) a ∧ a.Lone false ∧ a.clock = 0 ∧
      n ≤ a.late := by
    induction n with
    | zero => exact ⟨[], Aggregator.new, .new, ⟨Nat.zero_le 1, fun _ _ hs => nomatch hs⟩, rfl, Nat.zero_le _⟩
    | succ n ih =>
        obtain ⟨fins, a, hr, hlone, hclock, hn⟩ := ih
        obtain ⟨b, hrb, hloneb, hclockb, hclosed, -⟩ := @tcpOps_step idle linger cap fins true a hr hlone hclock
        obtain ⟨c, hrc, hlonec, hclockc, hopened, hswept⟩ :=
          @tcpOps_step idle linger cap (fins ++ [true]) false b hrb hloneb hclockb
        refine ⟨_, c, hrc, hlonec, hclockc, ?_⟩
        simp only [if_true, Bool.false_eq_true, if_false, Nat.add_zero] at hclosed hopened
        by_cases hlinger : linger = 0
        · -- the stream that was closed is swept away, and a new one armed
          have hone : delayed idle = 1 := if_pos (Nat.pos_of_ne_zero fun h => hpos ⟨h, hlinger⟩)
          have hnew := hswept rfl hlinger
          omega
        · have hone : delayed linger = 1 := if_pos (Nat.pos_of_ne_zero hlinger)
          omega
  obtain ⟨fins, a, hr, -, -, hn⟩ := hlate
  exact ⟨fins, a, hr, le_trans hn a.late_le_length⟩

/-- Under a `Live` policy both heaps are within a bound that depends on the most layers of a packet, in
every state that any run of any engine reaches. -/
def HeapsBounded (idle linger : Duration) (cap : Nat) (bound : Nat → Nat) : Prop :=
  ∀ env : Env, env.config.eviction = .live idle linger cap → ∀ (layers : Nat) (ops : List Op)
    (a : Aggregator), Reaches env ops a → LayersWithin layers ops →
    a.lru.length ≤ bound layers ∧ a.expiry.length ≤ bound layers

/-- A run of one conversation outgrows the bound. -/
theorem not_heapsBounded {idle linger : Duration} (cap : Nat) (hpos : ¬(idle = 0 ∧ linger = 0))
    (bound : Nat → Nat) : ¬HeapsBounded idle linger cap bound := by
  intro h
  obtain ⟨fins, a, hr, hn⟩ := exists_many_entries cap hpos (bound 1 + 1)
  have hle := (h _ rfl 1 _ a hr (layersWithin_tcpOps fins)).2
  omega

/-- **The heaps.** Without timeouts both heaps are bounded by the cap and the layers of a packet; with any
other timeouts there is no bound. Whatever the timeouts, the LRU heap is bounded along every run, and the
expiry heap along every run whose packets come at least the longer timeout after the newest one before. -/
theorem heaps_bounded_iff (idle linger : Duration) (cap : Nat) :
    (idle = 0 ∧ linger = 0 → HeapsBounded idle linger cap (heapBound cap)) ∧
      ((∃ bound, HeapsBounded idle linger cap bound) → idle = 0 ∧ linger = 0) ∧
      ∀ env : Env, env.config.eviction = .live idle linger cap → ∀ (layers : Nat) (ops : List Op)
        (a : Aggregator), Reaches env ops a → LayersWithin layers ops →
        a.lru.length ≤ heapBound cap layers ∧
          (Spaced env (max idle linger) ops → a.expiry.length ≤ heapBound cap layers) := by
  have hruns : ∀ env : Env, env.config.eviction = .live idle linger cap → ∀ (layers : Nat) (ops : List Op)
      (a : Aggregator), Reaches env ops a → LayersWithin layers ops →
      a.lru.length ≤ heapBound cap layers ∧
        (Spaced env (max idle linger) ops → a.expiry.length ≤ heapBound cap layers) := by
    intro env hev layers ops a hr hlayers
    obtain ⟨hlru, hexpiry⟩ := Aggregator.loads_of_reaches hev (le_max_left idle linger)
      (le_max_right idle linger) hr hlayers
    rw [heapBound]
    refine ⟨by omega, fun hspaced => ?_⟩
    have hload := hexpiry hspaced
    omega
  refine ⟨?_, ?_, hruns⟩
  · rintro ⟨rfl, rfl⟩ env hev layers ops a hr hlayers
    obtain ⟨hlru, hexpiry⟩ := hruns env hev layers ops a hr hlayers
    exact ⟨hlru, hexpiry (spaced_zero env ops)⟩
  · rintro ⟨bound, hbound⟩
    by_contra hpos
    exact not_heapsBounded cap hpos bound hbound

/-- Two packets that come later than any deadline before them. -/
def spacedOps : List Op :=
  [samplePacket 60 [sampleLayer "eth" 1 2, sampleLayer "tcp" 5 6],
    samplePacket 120 [sampleLayer "eth" 1 2, sampleLayer "tcp" 7 8]]

theorem spaced_spacedOps : Spaced (sampleEnv (.live 50 10 4) 2) (max 50 10) spacedOps := by
  intro before op after heq
  match before, heq with
  | [], heq =>
      obtain ⟨rfl, -⟩ := List.cons.inj heq
      show (0 : SystemTime) + 50 ≤ max 0 60
      decide
  | [first], heq =>
      obtain ⟨rfl, hrest⟩ := List.cons.inj heq
      obtain ⟨rfl, -⟩ := List.cons.inj hrest
      have hclock : (run (sampleEnv (.live 50 10 4) 2) (spacedOps.take 1)).clock = 60 := by decide +kernel
      show (run (sampleEnv (.live 50 10 4) 2) (spacedOps.take 1)).clock + 50 ≤ max _ 120
      rw [hclock]
      decide
  | first :: second :: third, heq => simp [spacedOps] at heq

/-- The bound without timeouts, and along a run of spaced packets. -/
theorem heaps_bounded_sample :
    HeapsBounded 0 0 3 (heapBound 3) ∧
      (run (sampleEnv (.live 50 10 4) 2) spacedOps).expiry.length ≤ heapBound 4 2 := by
  have hlayers : LayersWithin 2 spacedOps := by
    intro pkt hpkt
    obtain rfl | hpkt := List.mem_cons.1 hpkt
    · exact le_refl 2
    · obtain rfl := List.mem_singleton.1 hpkt
      exact le_refl 2
  exact ⟨(heaps_bounded_iff 0 0 3).1 ⟨rfl, rfl⟩, ((heaps_bounded_iff 50 10 4).2.2 _ rfl 2 spacedOps _
    (reaches_run _ _ (by decide)) hlayers).2 spaced_spacedOps⟩

/-- With an idle timeout of 50 and a linger of 10 there is no bound. -/
theorem heaps_unbounded : ¬∃ bound, HeapsBounded 50 10 3 bound := by
  rintro ⟨bound, hbound⟩
  exact not_heapsBounded 3 (by decide) bound hbound

end Pktflow.Flows
