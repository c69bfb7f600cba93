import Pktflow.Flows.Anchors

/-!
# The condense tally

The `expanded` count of a group is meant to be the number of live expanded flows on its anchor, and with it
the threshold bounds these. Layers and the evictions of expanded flows keep the two equal. The eviction of
a condensed node does not: it drops the whole group, and the flows on the anchor that are still live are
counted no longer (`condense_tally_lost`). In a run that evicts no condensed node before the expanded
flows of its anchor are gone the count is exact and the threshold bounds the flows (`condense_tally`).

The condition is one on the evictions of a run (`Evicts`, `GuardedRun`); properties are carried through
such runs by `GuardedStable`.
-/

set_option autoImplicit false

namespace Pktflow.Flows

open Pktflow.Core Pktflow.Lib

/-! ## The evictions of a run -/

/-- `Evicts env a op b id`: while the call `op` runs on the state `a`, `evict` is called on the state `b`
with `id`. -/
inductive Evicts (env : Env) (a : Aggregator) : Op → Aggregator → StreamId → Prop
  | sweep {b c : Aggregator} {pkt : DissectedPacket} {id : StreamId} {reason : CloseReason} :
      Loop.Passes (Aggregator.sweepBody env) (a.tick pkt) b →
      b.sweepPick env = .evict c id reason → Evicts env a (.ingest pkt) c id
  | cap {b c : Aggregator} {pkt : DissectedPacket} {id : StreamId} {reason : CloseReason} :
      Loop.Passes (Aggregator.enforceBody env) (a.beforeEnforce env pkt) b →
      b.enforcePick env = .evict c id reason → Evicts env a (.ingest pkt) c id
  | finish {before after : List StreamId} {id : StreamId} {idle linger : Duration} {cap : Nat} :
      env.config.eviction = .live idle linger cap →
      a.finishOrder.map Aggregator.FinishEntry.id = before ++ id :: after →
      Evicts env a .finish (before.foldl (Aggregator.finishOne env) a) id

/-- Every eviction of the run meets the condition `Q` on the state and the stream. -/
def GuardedRun (env : Env) (Q : Aggregator → StreamId → Prop) (ops : List Op) : Prop :=
  ∀ before op after, ops = before ++ op :: after →
    ∀ b id, Evicts env (run env before) op b id → Q b id

theorem GuardedRun.of_append {env : Env} {Q : Aggregator → StreamId → Prop} {ops rest : List Op}
    (h : GuardedRun env Q (ops ++ rest)) : GuardedRun env Q ops := by
  intro before op after hops
  apply h before op (after ++ rest)
  rw [hops, List.append_assoc, List.cons_append]

namespace Aggregator

/-- A property kept by every step of a run whose evictions meet `Q`. -/
structure GuardedStable (env : Env) (Q : Aggregator → StreamId → Prop) (I : Aggregator → Prop) :
    Prop where
  close : ∀ {a : Aggregator} (id : StreamId), I a → I (a.closeStream env id)
  evict : ∀ {a : Aggregator} {id : StreamId} {s : Stream} (reason : CloseReason), ForestInv a →
    a.get id = some s → s.children = [] → Q a id → I a → I (a.evict env id reason)
  heaps : ∀ {a : Aggregator} (expiry : MinHeap ExpiryEntry) (lru : MinHeap LruEntry), I a →
    I { a with expiry := expiry, lru := lru }
  new : I Aggregator.new
  tick : ∀ {a : Aggregator} (pkt : DissectedPacket), I a → I (a.tick pkt)
  layer : ∀ {pkt : DissectedPacket} {w : Walk} {layer : LayerRecord}, WalkInv w →
    (ingestLayer env pkt w layer).agg.Fits → I w.agg → I (ingestLayer env pkt w layer).agg
  tail : ∀ {a : Aggregator} (id : StreamId) (n : Nat), I a →
    I (a.modify id fun s => s.addOpaqueBytes n)
  unknown : ∀ {a : Aggregator} (u : UnknownRegistry), I a → I { a with unknowns := u }

/-- An iteration of `sweep` that evicts nothing changes the heaps only. -/
theorem sweepPick_skip {env : Env} {a c : Aggregator} (h : a.sweepPick env = .skip c) :
    ∃ expiry lru, c = { a with expiry := expiry, lru := lru } := by
  cases hev : env.config.eviction with
  | none =>
      simp only [sweepPick, hev] at h
      cases h
  | live idle linger cap =>
      have hp := sweepPick_spec a hev
      rw [h] at hp
      cases hp with
      | dead _ _ _ => exact ⟨_, a.lru, rfl⟩
      | stale _ _ _ _ => exact ⟨_, a.lru, rfl⟩
      | inner _ _ _ _ _ => exact ⟨_, a.lru, rfl⟩

/-- An iteration of `enforce_max_streams`, likewise. -/
theorem enforcePick_skip {env : Env} {a c : Aggregator} (h : a.enforcePick env = .skip c) :
    ∃ expiry lru, c = { a with expiry := expiry, lru := lru } := by
  cases hev : env.config.eviction with
  | none =>
      simp only [enforcePick, hev] at h
      cases h
  | live idle linger cap =>
      have hp := enforcePick_spec a hev
      rw [h] at hp
      cases hp with
      | dead _ _ _ => exact ⟨a.expiry, _, rfl⟩
      | inner _ _ _ _ => exact ⟨a.expiry, _, rfl⟩
      | stale _ _ _ _ _ => exact ⟨a.expiry, _, rfl⟩

namespace GuardedStable

variable {env : Env} {Q : Aggregator → StreamId → Prop} {I : Aggregator → Prop} {a b : Aggregator}

/-- One iteration of either loop, given by what it picks. -/
theorem pick (hI : GuardedStable env Q I) (hf : ForestInv a) (h : I a) {p : Pick}
    (hskip : ∀ c, p = .skip c → ∃ expiry lru, c = { a with expiry := expiry, lru := lru })
    (hevict : ∀ c id reason, p = .evict c id reason →
      Q c id ∧ ∃ expiry lru s, c = { a with expiry := expiry, lru := lru } ∧ a.get id = some s ∧
        s.children = []) (hrun : p.run env = some b) : ForestInv b ∧ I b := by
  cases p with
  | exit => cases hrun
  | skip c =>
      obtain ⟨expiry, lru, rfl⟩ := hskip c rfl
      obtain rfl := Option.some.inj hrun
      exact ⟨hf.congr rfl rfl rfl rfl, hI.heaps expiry lru h⟩
  | evict c id reason =>
      obtain ⟨hq, expiry, lru, s, rfl, hs, hc⟩ := hevict c id reason rfl
      obtain rfl := Option.some.inj hrun
      have hf' : ForestInv { a with expiry := expiry, lru := lru } := hf.congr rfl rfl rfl rfl
      exact ⟨hf'.evict reason hs hc, hI.evict reason hf' hs hc hq (hI.heaps expiry lru h)⟩

/-- At every state `sweep` passes through. -/
theorem passes_sweep (hI : GuardedStable env Q I) (hf : ForestInv a) (h : I a)
    (hguard : ∀ b c id reason, Loop.Passes (Aggregator.sweepBody env) a b →
      b.sweepPick env = .evict c id reason → Q c id)
    (hp : Loop.Passes (Aggregator.sweepBody env) a b) : ForestInv b ∧ I b := by
  induction hp with
  | refl => exact ⟨hf, h⟩
  | @tail x y hx hxy ih =>
      apply hI.pick ih.1 ih.2 (fun c hc => sweepPick_skip hc) ?_ hxy
      exact fun c id reason hc => ⟨hguard x c id reason hx hc, sweepPick_evict hc⟩

/-- At every state `enforce_max_streams` passes through. -/
theorem passes_enforce (hI : GuardedStable env Q I) (hf : ForestInv a) (h : I a)
    (hguard : ∀ b c id reason, Loop.Passes (Aggregator.enforceBody env) a b →
      b.enforcePick env = .evict c id reason → Q c id)
    (hp : Loop.Passes (Aggregator.enforceBody env) a b) : ForestInv b ∧ I b := by
  induction hp with
  | refl => exact ⟨hf, h⟩
  | @tail x y hx hxy ih =>
      apply hI.pick ih.1 ih.2 (fun c hc => enforcePick_skip hc) ?_ hxy
      exact fun c id reason hc => ⟨hguard x c id reason hx hc, enforcePick_evict hc⟩

theorem ingest (hI : GuardedStable env Q I) {pkt : DissectedPacket} (hf : ForestInv a) (h : I a)
    (hguard : ∀ b id, Evicts env a (.ingest pkt) b id → Q b id) (hfits : (a.ingest env pkt).Fits) :
    ForestInv (a.ingest env pkt) ∧ I (a.ingest env pkt) := by
  obtain ⟨-, hswept⟩ := hI.passes_sweep (hf.tick pkt) (hI.tick pkt h)
    (fun b c id reason hp hpick => hguard c id (.sweep hp hpick)) (Loop.passes_iterate _ _ _)
  have hbefore : I (a.beforeWalk env pkt) := by
    obtain ⟨lru, heq⟩ := compactLru_eq ((a.tick pkt).sweep env)
    show I ((a.tick pkt).sweep env).compactLru
    rw [heq]
    exact hI.heaps _ lru hswept
  obtain ⟨hw, hIw⟩ := walk_rule (I := fun _ w => I w.agg) (hf.beforeWalk pkt) hbefore (by
    intro layers w w' layer hw heq _ hfits' hw'
    subst heq
    exact hI.layer hw hfits' hw') pkt.layers (fits_walk hfits)
  have htail : ForestInv (a.beforeEnforce env pkt) ∧ I (a.beforeEnforce env pkt) :=
    afterWalk_rule hI.tail hI.unknown hw hIw
  exact hI.passes_enforce htail.1 htail.2
    (fun b c id reason hp hpick => hguard c id (.cap hp hpick)) (Loop.passes_iterate _ _ _)

/-- Closing a list of streams under the `Live` policy. -/
theorem closing (hI : GuardedStable env Q I) {idle linger : Duration} {cap : Nat}
    (hev : env.config.eviction = .live idle linger cap) {depth : StreamId → Nat} {todo : List StreamId}
    (hf : ForestInv a) (h : I a) (hclosing : Closing depth todo a)
    (hguard : ∀ before id after, todo = before ++ id :: after →
      Q (before.foldl (finishOne env) a) id) : I (todo.foldl (finishOne env) a) := by
  induction todo generalizing a with
  | nil => exact h
  | cons id todo ih =>
      obtain ⟨s, hs, hc⟩ := hclosing.leaf hf
      have hhead : Q a id := hguard [] id todo rfl
      rw [List.foldl_cons, finishOne_live hev]
      apply ih (hf.evict _ hs hc) (hI.evict _ hf hs hc hhead h) (hclosing.evict hs)
      intro before id' after hsplit
      have hlater := hguard (id :: before) id' after (by rw [hsplit, List.cons_append])
      rw [List.foldl_cons, finishOne_live hev] at hlater
      exact hlater

theorem finish (hI : GuardedStable env Q I) (hf : ForestInv a) (h : I a)
    (hguard : ∀ b id, Evicts env a .finish b id → Q b id) : I (a.finish env) := by
  cases hev : env.config.eviction with
  | live idle linger cap =>
      apply hI.closing hev hf h (closing_finishOrder hf)
      exact fun before id after horder => hguard _ id (.finish hev horder)
  | none =>
      rw [Aggregator.finish]
      generalize a.finishOrder.map FinishEntry.id = todo
      clear hguard hf
      induction todo generalizing a with
      | nil => exact h
      | cons id todo ih =>
          have hone : finishOne env a id = a.closeStream env id := by
            simp only [finishOne, hev]
          rw [List.foldl_cons, hone]
          exact ih (hI.close id h)

/-- The rule for guarded runs. -/
theorem reaches (hI : GuardedStable env Q I) {ops : List Op} (h : Reaches env ops a)
    (hguard : GuardedRun env Q ops) : I a := by
  induction h with
  | new => exact hI.new
  | @call ops a op hr hfits ih =>
      have hprev := ih hguard.of_append
      have hf := forestInv_of_reaches hr
      have hlast : ∀ b id, Evicts env a op b id → Q b id := by
        intro b id hb
        rw [hr.eq_run] at hb
        exact hguard ops op [] rfl b id hb
      cases op with
      | ingest pkt => exact (hI.ingest hf hprev hlast hfits).2
      | finish => exact hI.finish hf hprev hlast

end GuardedStable

/-! ## The threshold -/

/-- A group that condenses: it has a node, or its count has reached the threshold. -/
def Condensing (env : Env) (a : Aggregator) (ck : CondenseKey) : Prop :=
  ∃ g, a.condense.lookup ck = some g ∧
    (g.node.isSome ∨ env.config.condenseThreshold ≤ g.expanded)

/-- `condense_fold` takes a packet exactly if the group condenses. -/
theorem condenseFold_none_iff {env : Env} {a : Aggregator} {parent : Option StreamId}
    {protocol : ProtocolName} {identity : StreamIdentity} {c : CondenseCandidate} {ts : SystemTime} :
    a.condenseFold env parent protocol identity c ts = none ↔
      ¬Condensing env a (parent, protocol, c.anchor) := by
  rw [condenseFold]
  cases hg : a.condense.lookup (parent, protocol, c.anchor) with
  | none =>
      simp only [true_iff]
      rintro ⟨g, hg', -⟩
      rw [hg] at hg'
      cases hg'
  | some group =>
      dsimp only
      by_cases htrig : group.node.isSome ∨ env.config.condenseThreshold ≤ group.expanded
      · rw [if_pos htrig]
        constructor
        · intro h
          split at h
          · cases h
          · cases h
        · exact fun h => absurd ⟨group, hg, htrig⟩ h
      · rw [if_neg htrig]
        simp only [true_iff]
        rintro ⟨g, hg', htrig'⟩
        rw [hg] at hg'
        obtain rfl := Option.some.inj hg'
        exact htrig htrig'

/-- A group that does not condense is below the threshold. -/
theorem groupCount_lt_of_not_condensing {env : Env} (hon : 0 < env.config.condenseThreshold)
    {a : Aggregator} {ck : CondenseKey} (h : ¬Condensing env a ck) :
    groupCount a.condense ck < env.config.condenseThreshold := by
  cases hg : a.condense.lookup ck with
  | none =>
      simp only [groupCount, hg]
      exact hon
  | some group =>
      rw [groupCount_of_lookup hg]
      by_contra hfull
      exact h ⟨group, hg, .inr (Nat.le_of_not_lt hfull)⟩

/-- A group counts a further flow only below the threshold. -/
theorem groupCount_getOrInsert {env : Env} (hon : 0 < env.config.condenseThreshold) {a : Aggregator}
    {parent : Option StreamId} {key : FlowKey} {identity : StreamIdentity}
    {condense : Option CondenseSpec} {layer : LayerRecord} {dir : PacketDirection} {ts : SystemTime}
    (h : ∀ ck, groupCount a.condense ck ≤ env.config.condenseThreshold) (ck : CondenseKey) :
    groupCount (a.getOrInsert env parent key identity condense layer dir ts).1.condense ck ≤
      env.config.condenseThreshold := by
  rw [getOrInsert]
  cases hit : (a.bucket (parent, layer.protocol, env.digest key)).find? fun id =>
      (a.get id).any fun s => s.key = key with
  | some id => exact h ck
  | none =>
      simp only [candidates_eq]
      cases hcs : candidatesOf env identity condense layer.fields with
      | none => exact h ck
      | some cs =>
          cases hfold : cs.findSome? fun c => a.condenseFold env parent layer.protocol identity c ts with
          | some r =>
              simp only [hfold]
              obtain ⟨c, -, hr⟩ := List.exists_of_findSome?_eq_some hfold
              obtain ⟨group, hg, ⟨id, s, hnode, hs, rfl⟩ | ⟨hdead, -, rfl⟩⟩ := condenseFold_cases hr
              · rw [groupCount_addMember]
                exact h ck
              · rw [groupCount_addMember, groupCount_createNode hg]
                exact h ck
          | none =>
              simp only [hfold]
              have hnodup : (groupKeys parent layer.protocol cs).Nodup := by
                obtain ⟨spec, -, hspec⟩ := candidatesOf_some hcs
                exact groupKeys_nodup hspec parent layer.protocol
              apply le_of_eq_of_le (groupCount_tallies parent layer.protocol cs a.condense ck)
              by_cases hmem : ck ∈ groupKeys parent layer.protocol cs
              · -- one of its anchors: the group has just declined the flow
                obtain ⟨c, hc, rfl⟩ := List.mem_map.1 hmem
                have hlt := groupCount_lt_of_not_condensing hon
                  (condenseFold_none_iff.1 (List.findSome?_eq_none_iff.1 hfold c hc))
                rw [List.count_eq_one_of_mem hnodup hmem]
                exact hlt
              · rw [List.count_eq_zero_of_not_mem hmem]
                exact h ck

/-- Whatever a layer is resolved to, no group counts more than the threshold. -/
theorem groupCount_ingestLayer {env : Env} (hon : 0 < env.config.condenseThreshold)
    (pkt : DissectedPacket) {w : Walk} (layer : LayerRecord)
    (h : ∀ ck, groupCount w.agg.condense ck ≤ env.config.condenseThreshold) (ck : CondenseKey) :
    groupCount (ingestLayer env pkt w layer).agg.condense ck ≤ env.config.condenseThreshold := by
  rw [ingestLayer]
  cases identityOf env layer.protocol with
  | none => exact h ck
  | some pair =>
      obtain ⟨plugin, identity⟩ := pair
      dsimp only
      cases flowKey identity layer.fields with
      | error e => exact h ck
      | ok built => exact groupCount_getOrInsert hon h ck

/-! ## The exact tally -/

/-- The live expanded flows that have an anchor as one of their sides. -/
def flowsOn (env : Env) (ck : CondenseKey) (a : Aggregator) : List Stream :=
  a.streams.filter fun s => ck ∈ s.sides env

/-- Every group counts the live expanded flows on its anchor, and the threshold bounds them. -/
def TallyExact (env : Env) (a : Aggregator) : Prop :=
  ∀ ck, groupCount a.condense ck = (flowsOn env ck a).length ∧
    (flowsOn env ck a).length ≤ env.config.condenseThreshold

/-- The eviction loses no count: if the stream is a condensed node, no live flow has its anchor. -/
def KeepsCount (env : Env) (a : Aggregator) (id : StreamId) : Prop :=
  ∀ s, a.get id = some s → s.condensed.isSome = true →
    flowsOn env (s.parent, s.protocol, s.key.drop 1) a = []

theorem tallyExact_guardedStable {env : Env} (hon : 0 < env.config.condenseThreshold) :
    GuardedStable env (KeepsCount env) fun a => ∀ ck, groupCount a.condense ck = liveOn env ck a ∧
      groupCount a.condense ck ≤ env.config.condenseThreshold where
  close := by
    intro a id h ck
    obtain ⟨calls, heq⟩ := closeStream_eq env a id
    rw [heq]
    have hlive := liveOn_modify (f := fun s => s.markClosed .captureEnd) env ck a id fun _ => rfl
    exact ⟨(h ck).1.trans hlive.symm, (h ck).2⟩
  evict := by
    intro a id s reason hf hs _ hkeep h ck
    obtain ⟨hexact, hle⟩ := h ck
    rcases groupCount_evict hon reason hf hs ck with ⟨-, hcount, hlive⟩ | ⟨hnode, hcount, hlive⟩
    · omega
    · rw [hcount, hlive]
      split
      · -- the group of the node goes, and no live flow was in it
        rename_i hck
        have hnone := congrArg List.length (hkeep s hs hnode)
        rw [← hck] at hnone
        rw [liveOn_eq_filter]
        exact ⟨hnone.symm, Nat.zero_le _⟩
      · exact ⟨hexact, hle⟩
  heaps := fun _ _ h => h
  new := fun _ => ⟨rfl, Nat.zero_le _⟩
  tick := fun _ h => h
  layer := by
    intro pkt w layer hw hfits h ck
    obtain ⟨d, hcount, hlive⟩ := groupCount_layer hon hw (ingestLayer_spec env pkt w layer) hfits ck
    refine ⟨?_, groupCount_ingestLayer hon pkt layer (fun ck => (h ck).2) ck⟩
    rw [hcount, hlive, (h ck).1]
  tail := by
    intro a id n h ck
    have hlive := liveOn_modify (f := fun s => s.addOpaqueBytes n) env ck a id fun _ => rfl
    exact ⟨(h ck).1.trans hlive.symm, (h ck).2⟩
  unknown := fun _ h => h

end Aggregator

/-- **The condense tally.** In every run that evicts no condensed node while an expanded flow of its anchor
is live, each group counts exactly the live expanded flows on its anchor, which are at most as many as the
threshold. -/
theorem condense_tally {env : Env} (hon : 0 < env.config.condenseThreshold) {ops : List Op}
    {a : Aggregator} (h : Reaches env ops a)
    (hkeeps : GuardedRun env (Aggregator.KeepsCount env) ops) : a.TallyExact env := by
  intro ck
  obtain ⟨hexact, hle⟩ := (Aggregator.tallyExact_guardedStable hon).reaches h hkeeps ck
  rw [Aggregator.liveOn_eq_filter] at hexact
  refine ⟨hexact, ?_⟩
  rw [Aggregator.flowsOn]
  rw [← hexact]
  exact hle

/-- Without eviction every run keeps its counts. -/
theorem guardedRun_none {env : Env} (hev : env.config.eviction = .none)
    (Q : Aggregator → StreamId → Prop) (ops : List Op) : GuardedRun env Q ops := by
  intro before op after _ b id hb
  cases hb with
  | sweep _ hpick =>
      simp only [Aggregator.sweepPick, hev] at hpick
      cases hpick
  | cap _ hpick =>
      simp only [Aggregator.enforcePick, hev] at hpick
      cases hpick
  | finish hlive _ =>
      rw [hev] at hlive
      cases hlive

/-- The group of the endpoint `n` among parentless UDP flows. -/
def udpGroup (n : UInt64) : CondenseKey := (none, "udp", encodeValue (.u64 n))

/-- Four UDP flows of endpoint 9 under a threshold of two: two are counted, two are folded. -/
theorem condense_tally_offline :
    (run (sampleEnv .none 2) (([5, 6, 7, 8] : List UInt64).map fun n =>
        samplePacket 0 [sampleLayer "udp" 9 n])).TallyExact (sampleEnv .none 2) ∧
      Aggregator.groupCount (run (sampleEnv .none 2) (([5, 6, 7, 8] : List UInt64).map fun n =>
        samplePacket 0 [sampleLayer "udp" 9 n])).condense (udpGroup 9) = 2 := by
  refine ⟨condense_tally (by decide) (reaches_run _ _ (by decide)) (guardedRun_none rfl _ _), ?_⟩
  decide +kernel

/-- Two UDP flows of endpoint 9, the second folded; the first is seen again, then the node is idle for too
long when a third flow comes. -/
def lostOps : List Op :=
  [samplePacket 0 [sampleLayer "udp" 9 5], samplePacket 1 [sampleLayer "udp" 9 6],
    samplePacket 45 [sampleLayer "udp" 9 5], samplePacket 60 [sampleLayer "udp" 9 7]]

/-- With the idle condensed node goes the count of a flow that is still live: under a threshold of one the
group counts one flow, and two are live. -/
theorem condense_tally_lost :
    Reaches (sampleEnv (.live 50 10 9) 1) lostOps (run (sampleEnv (.live 50 10 9) 1) lostOps) ∧
      Aggregator.groupCount (run (sampleEnv (.live 50 10 9) 1) lostOps).condense (udpGroup 9) = 1 ∧
      (Aggregator.flowsOn (sampleEnv (.live 50 10 9) 1) (udpGroup 9)
        (run (sampleEnv (.live 50 10 9) 1) lostOps)).length = 2 ∧
      ¬(run (sampleEnv (.live 50 10 9) 1) lostOps).TallyExact (sampleEnv (.live 50 10 9) 1) := by
  have hcount : Aggregator.groupCount (run (sampleEnv (.live 50 10 9) 1) lostOps).condense
      (udpGroup 9) = 1 := by decide +kernel
  have hlive : (Aggregator.flowsOn (sampleEnv (.live 50 10 9) 1) (udpGroup 9)
      (run (sampleEnv (.live 50 10 9) 1) lostOps)).length = 2 := by decide +kernel
  refine ⟨reaches_run _ lostOps (by decide), hcount, hlive, fun hexact => ?_⟩
  have heq := (hexact (udpGroup 9)).1
  rw [hcount, hlive] at heq
  cases heq

end Pktflow.Flows
