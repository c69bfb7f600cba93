import Pktflow.Flows.Effects

/-!
# What the steps of the aggregator can do

Inversion of the branching steps: an iteration of `sweep` (`SweepPicks`), an iteration of
`enforce_max_streams` (`EnforcePicks`), the resolution of a layer to a stream (`Resolution`), the
membership part of `condense_fold` (`Membership`) and a layer of the walk (`LayerStep`). Every later
proof about them is a case analysis on these relations.
-/

set_option autoImplicit false

namespace Pktflow.Flows

open Pktflow.Core Pktflow.Lib

namespace Aggregator

/-! ## The eviction loops -/

/-- The outcomes of one iteration of `sweep`. -/
inductive SweepPicks (a : Aggregator) (idle linger : Duration) : Pick → Prop
  -- no entry is due
  | exit : (∀ e ∈ a.expiry.entries, a.clock < e.deadline) → SweepPicks a idle linger .exit
  -- the entry of an evicted stream
  | dead {e : ExpiryEntry} {rest : MinHeap ExpiryEntry} : a.expiry.pop = some (e, rest) →
      e.deadline ≤ a.clock → a.get e.id = none →
      SweepPicks a idle linger (.skip { a with expiry := rest })
  -- a live stream with a later deadline
  | stale {e : ExpiryEntry} {rest : MinHeap ExpiryEntry} {s : Stream} :
      a.expiry.pop = some (e, rest) → e.deadline ≤ a.clock → a.get e.id = some s →
      a.clock < s.deadline idle linger →
      SweepPicks a idle linger
        (.skip { a with expiry := rest.push (expiryEntry (s.deadline idle linger) e.id) })
  -- overdue, with children
  | inner {e : ExpiryEntry} {rest : MinHeap ExpiryEntry} {s : Stream} :
      a.expiry.pop = some (e, rest) → e.deadline ≤ a.clock → a.get e.id = some s →
      s.deadline idle linger ≤ a.clock → s.children ≠ [] →
      SweepPicks a idle linger (.skip { a with expiry := rest })
  -- an overdue leaf
  | due {e : ExpiryEntry} {rest : MinHeap ExpiryEntry} {s : Stream} :
      a.expiry.pop = some (e, rest) → e.deadline ≤ a.clock → a.get e.id = some s →
      s.deadline idle linger ≤ a.clock → s.children = [] →
      SweepPicks a idle linger (.evict { a with expiry := rest } e.id (sweepReason linger a.clock s))

/-- The outcomes of one iteration of `enforce_max_streams`. -/
inductive EnforcePicks (a : Aggregator) (cap : Nat) : Pick → Prop
  | under : a.liveCount ≤ cap → EnforcePicks a cap .exit
  -- over the cap with an empty heap: `LruCovers` excludes it in a run
  | empty : cap < a.liveCount → a.lru.entries = [] → EnforcePicks a cap .exit
  | dead {e : LruEntry} {rest : MinHeap LruEntry} : cap < a.liveCount →
      a.lru.pop = some (e, rest) → a.get e.id = none → EnforcePicks a cap (.skip { a with lru := rest })
  | inner {e : LruEntry} {rest : MinHeap LruEntry} {s : Stream} : cap < a.liveCount →
      a.lru.pop = some (e, rest) → a.get e.id = some s → s.children ≠ [] →
      EnforcePicks a cap (.skip { a with lru := rest })
  | stale {e : LruEntry} {rest : MinHeap LruEntry} {s : Stream} : cap < a.liveCount →
      a.lru.pop = some (e, rest) → a.get e.id = some s → s.children = [] →
      (s.lastSeen, s.createdSeq) ≠ (e.lastSeen, e.createdSeq) →
      EnforcePicks a cap
        (.skip { a with lru := rest.push (lruEntry s.lastSeen s.createdSeq e.id) })
  -- the least entry is exact: the stream it names goes
  | least {e : LruEntry} {rest : MinHeap LruEntry} {s : Stream} : cap < a.liveCount →
      a.lru.pop = some (e, rest) → a.get e.id = some s → s.children = [] →
      s.lastSeen = e.lastSeen → s.createdSeq = e.createdSeq →
      EnforcePicks a cap (.evict { a with lru := rest } e.id .lruEvicted)

theorem sweepPick_spec {env : Env} {idle linger : Duration} {cap : Nat} (a : Aggregator)
    (hl : env.config.eviction = .live idle linger cap) :
    SweepPicks a idle linger (a.sweepPick env) := by
  simp only [sweepPick, hl]
  cases hpop : a.expiry.pop with
  | none =>
      refine .exit fun e he => ?_
      rw [MinHeap.pop_eq_none.1 hpop] at he
      cases he
  | some top =>
      obtain ⟨e, rest⟩ := top
      simp only [deadlineOf, hl]
      have hget : ({ a with expiry := rest } : Aggregator).get e.id = a.get e.id := rfl
      by_cases hdue : a.clock < e.deadline
      · rw [if_pos hdue]
        refine .exit fun x hx => ?_
        -- the least entry lies ahead, and with it all of them
        exact lt_of_lt_of_le hdue (ExpiryEntry.deadline_le (MinHeap.le_of_pop hpop hx))
      · rw [if_neg hdue]
        have hle : e.deadline ≤ a.clock := le_of_not_gt hdue
        cases hs : a.get e.id with
        | none =>
            simp only [hget, hs, Option.map_none]
            exact .dead hpop hle hs
        | some s =>
            simp only [hget, hs, Option.map_some]
            by_cases hstale : a.clock < s.deadline idle linger
            · rw [if_pos hstale]
              exact .stale hpop hle hs hstale
            · rw [if_neg hstale]
              by_cases hc : s.children = []
              · rw [if_neg (not_not.2 hc)]
                exact .due hpop hle hs (le_of_not_gt hstale) hc
              · rw [if_pos hc]
                exact .inner hpop hle hs (le_of_not_gt hstale) hc

theorem enforcePick_spec {env : Env} {idle linger : Duration} {cap : Nat} (a : Aggregator)
    (hl : env.config.eviction = .live idle linger cap) :
    EnforcePicks a cap (a.enforcePick env) := by
  simp only [enforcePick, hl]
  by_cases hcap : a.liveCount ≤ cap
  · rw [if_pos hcap]
    exact .under hcap
  · rw [if_neg hcap]
    have hover : cap < a.liveCount := lt_of_not_ge hcap
    cases hpop : a.lru.pop with
    | none => exact .empty hover (MinHeap.pop_eq_none.1 hpop)
    | some top =>
        obtain ⟨e, rest⟩ := top
        have hget : ({ a with lru := rest } : Aggregator).get e.id = a.get e.id := rfl
        cases hs : a.get e.id with
        | none =>
            simp only [hget, hs]
            exact .dead hover hpop hs
        | some s =>
            simp only [hget, hs]
            by_cases hc : s.children = []
            · rw [if_neg (not_not.2 hc)]
              by_cases hrank : (s.lastSeen, s.createdSeq) = (e.lastSeen, e.createdSeq)
              · rw [if_neg (not_not.2 hrank)]
                exact .least hover hpop hs hc (congrArg Prod.fst hrank) (congrArg Prod.snd hrank)
              · rw [if_pos hrank]
                exact .stale hover hpop hs hc hrank
            · rw [if_pos hc]
              exact .inner hover hpop hs hc

/-- An eviction picked by `sweep` is that of a live leaf, in a state that differs in the heaps only. -/
theorem sweepPick_evict {env : Env} {a c : Aggregator} {id : StreamId} {reason : CloseReason}
    (h : a.sweepPick env = .evict c id reason) :
    ∃ expiry lru s, c = { a with expiry := expiry, lru := lru } ∧ a.get id = some s ∧
      s.children = [] := by
  cases hev : env.config.eviction with
  | none =>
      simp only [sweepPick, hev] at h
      cases h
  | live idle linger cap =>
      have hp := sweepPick_spec a hev
      rw [h] at hp
      cases hp with
      | due _ _ hs _ hc => exact ⟨_, a.lru, _, rfl, hs, hc⟩

/-- An eviction picked by `enforce_max_streams`, likewise. -/
theorem enforcePick_evict {env : Env} {a c : Aggregator} {id : StreamId} {reason : CloseReason}
    (h : a.enforcePick env = .evict c id reason) :
    ∃ expiry lru s, c = { a with expiry := expiry, lru := lru } ∧ a.get id = some s ∧
      s.children = [] := by
  cases hev : env.config.eviction with
  | none =>
      simp only [enforcePick, hev] at h
      cases h
  | live idle linger cap =>
      have hp := enforcePick_spec a hev
      rw [h] at hp
      cases hp with
      | least _ _ hs hc _ _ => exact ⟨a.expiry, _, _, rfl, hs, hc⟩

section Iterations

variable {env : Env} {idle linger : Duration} {cap : Nat} {a b : Aggregator}
  (hev : env.config.eviction = .live idle linger cap)

include hev

/-- The rule for an iteration of `sweep`: it pops an entry that is due, drops it if it names no live leaf,
replaces it if its stream is due later, and else evicts the stream. -/
theorem sweepBody_rule {J : Aggregator → Prop} (hab : sweepBody env a = some b)
    (hdropped : ∀ e rest, a.expiry.pop = some (e, rest) → e.deadline ≤ a.clock →
      (∀ s, a.get e.id = some s → s.children ≠ []) → J { a with expiry := rest })
    (hrearmed : ∀ e rest s, a.expiry.pop = some (e, rest) → e.deadline ≤ a.clock →
      a.get e.id = some s → a.clock < s.deadline idle linger →
      J { a with expiry := rest.push (expiryEntry (s.deadline idle linger) e.id) })
    (hevicted : ∀ e rest s, a.expiry.pop = some (e, rest) → e.deadline ≤ a.clock →
      a.get e.id = some s → s.deadline idle linger ≤ a.clock → s.children = [] →
      J (({ a with expiry := rest } : Aggregator).evict env e.id (sweepReason linger a.clock s))) :
    J b := by
  have hp := sweepPick_spec a hev
  rw [sweepBody] at hab
  generalize a.sweepPick env = pick at hab hp
  cases hp with
  | exit _ => cases hab
  | dead hpop hdue hs =>
      cases hab
      apply hdropped _ _ hpop hdue
      intro s hs'
      rw [hs] at hs'
      cases hs'
  | stale hpop hdue hs hlater =>
      cases hab
      exact hrearmed _ _ _ hpop hdue hs hlater
  | inner hpop hdue hs _ hc =>
      cases hab
      apply hdropped _ _ hpop hdue
      intro s hs'
      rw [hs] at hs'
      obtain rfl := Option.some.inj hs'
      exact hc
  | due hpop hdue hs hover hc =>
      cases hab
      exact hevicted _ _ _ hpop hdue hs hover hc

/-- When `sweep` leaves its loop every entry lies ahead. -/
theorem later_of_sweepBody_none (h : sweepBody env a = none) :
    ∀ e ∈ a.expiry.entries, a.clock < e.deadline := by
  have hp := sweepPick_spec a hev
  rw [sweepBody] at h
  generalize a.sweepPick env = pick at h hp
  cases hp with
  | exit hlater => exact hlater
  | dead _ _ _ => cases h
  | stale _ _ _ _ => cases h
  | inner _ _ _ _ _ => cases h
  | due _ _ _ _ _ => cases h

/-- The rule for an iteration of `enforce_max_streams`, likewise; an entry is replaced if it is out of
date. -/
theorem enforceBody_rule {J : Aggregator → Prop} (hab : enforceBody env a = some b)
    (hdropped : ∀ e rest, a.lru.pop = some (e, rest) →
      (∀ s, a.get e.id = some s → s.children ≠ []) → J { a with lru := rest })
    (hrearmed : ∀ e rest s, a.lru.pop = some (e, rest) → a.get e.id = some s → s.children = [] →
      (s.lastSeen, s.createdSeq) ≠ (e.lastSeen, e.createdSeq) →
      J { a with lru := rest.push (lruEntry s.lastSeen s.createdSeq e.id) })
    (hevicted : ∀ e rest s, a.lru.pop = some (e, rest) → a.get e.id = some s → s.children = [] →
      J (({ a with lru := rest } : Aggregator).evict env e.id .lruEvicted)) : J b := by
  have hp := enforcePick_spec a hev
  rw [enforceBody] at hab
  generalize a.enforcePick env = pick at hab hp
  cases hp with
  | under _ => cases hab
  | empty _ _ => cases hab
  | dead _ hpop hs =>
      cases hab
      apply hdropped _ _ hpop
      intro s hs'
      rw [hs] at hs'
      cases hs'
  | inner _ hpop hs hc =>
      cases hab
      apply hdropped _ _ hpop
      intro s hs'
      rw [hs] at hs'
      obtain rfl := Option.some.inj hs'
      exact hc
  | stale _ hpop hs hc hne =>
      cases hab
      exact hrearmed _ _ _ hpop hs hc hne
  | least _ hpop hs hc _ _ =>
      cases hab
      exact hevicted _ _ _ hpop hs hc

end Iterations

/-- What every iteration of the two loops comes to: the heaps become `expiry` and `lru`, and a leaf may
be evicted after that. -/
inductive LoopStep (env : Env) (a : Aggregator) (expiry : MinHeap ExpiryEntry) (lru : MinHeap LruEntry) :
    Aggregator → Prop
  | heaps : LoopStep env a expiry lru { a with expiry := expiry, lru := lru }
  | evict {id : StreamId} {s : Stream} (reason : CloseReason) : a.get id = some s → s.children = [] →
      LoopStep env a expiry lru
        (({ a with expiry := expiry, lru := lru } : Aggregator).evict env id reason)

/-- An iteration of `sweep` leaves the LRU heap to `evict`. -/
theorem sweepBody_step {env : Env} {a b : Aggregator} (h : sweepBody env a = some b) :
    ∃ expiry, LoopStep env a expiry a.lru b := by
  cases hev : env.config.eviction with
  | none =>
      simp only [sweepBody, sweepPick, hev, Pick.run] at h
      cases h
  | live idle linger cap =>
      apply sweepBody_rule (J := fun b => ∃ expiry, LoopStep env a expiry a.lru b) hev h
      · exact fun e rest _ _ _ => ⟨rest, .heaps⟩
      · exact fun e rest s _ _ _ _ => ⟨_, .heaps⟩
      · exact fun e rest s _ _ hs _ hc => ⟨rest, .evict _ hs hc⟩

/-- An iteration of `enforce_max_streams` leaves the expiry heap to `evict`. -/
theorem enforceBody_step {env : Env} {a b : Aggregator} (h : enforceBody env a = some b) :
    ∃ lru, LoopStep env a a.expiry lru b := by
  cases hev : env.config.eviction with
  | none =>
      simp only [enforceBody, enforcePick, hev, Pick.run] at h
      cases h
  | live idle linger cap =>
      apply enforceBody_rule (J := fun b => ∃ lru, LoopStep env a a.expiry lru b) hev h
      · exact fun e rest _ _ => ⟨rest, .heaps⟩
      · exact fun e rest s _ _ _ _ => ⟨_, .heaps⟩
      · exact fun e rest s _ hs hc => ⟨rest, .evict _ hs hc⟩

/-- `compact_lru` changes nothing but the LRU heap. -/
theorem compactLru_eq (a : Aggregator) : ∃ lru, a.compactLru = { a with lru := lru } := by
  rw [compactLru]
  split
  · exact ⟨a.lru, rfl⟩
  · exact ⟨_, rfl⟩

/-! ## Resolution of a layer -/

/-- The candidates `get_or_insert` tries for a layer: none with condensation off. -/
def candidatesOf (env : Env) (identity : StreamIdentity) (condense : Option CondenseSpec)
    (fields : FieldMap) : Option (List CondenseCandidate) :=
  if 0 < env.config.condenseThreshold then
    condense.bind fun spec => condenseCandidates env identity spec fields
  else none

theorem candidates_eq (env : Env) (identity : StreamIdentity) (condense : Option CondenseSpec) (fields : FieldMap) :
    (if 0 < env.config.condenseThreshold then
      condense.bind fun spec => condenseCandidates env identity spec fields else none) =
      candidatesOf env identity condense fields := rfl

/-- Only a declared protocol has candidates. -/
theorem candidatesOf_some {env : Env} {identity : StreamIdentity} {condense : Option CondenseSpec}
    {fields : FieldMap} {cs : List CondenseCandidate}
    (h : candidatesOf env identity condense fields = some cs) :
    ∃ spec, condense = some spec ∧ condenseCandidates env identity spec fields = some cs := by
  rw [candidatesOf] at h
  split at h
  · exact Option.bind_eq_some_iff.1 h
  · cases h

/-- The outcomes of `get_or_insert`: a hit in the index bucket, a fold into a live condensed node, a
fold into a condensed node created for it, or a fresh expanded stream that is tallied toward its
anchors. -/
inductive Resolution (env : Env) (a : Aggregator) (parent : Option StreamId) (key : FlowKey)
    (identity : StreamIdentity) (condense : Option CondenseSpec) (layer : LayerRecord)
    (dir : PacketDirection) (ts : SystemTime) : Aggregator × StreamId × PacketDirection → Prop
  | hit {id : StreamId} {s : Stream} : id ∈ a.bucket (parent, layer.protocol, env.digest key) →
      a.get id = some s → s.key = key →
      Resolution env a parent key identity condense layer dir ts (a, id, dir)
  | member {cs : List CondenseCandidate} {c : CondenseCandidate} {group : CondenseGroup}
      {id : StreamId} {s : Stream} :
      candidatesOf env identity condense layer.fields = some cs → c ∈ cs →
      a.condense.lookup (parent, layer.protocol, c.anchor) = some group → group.node = some id →
      a.get id = some s →
      Resolution env a parent key identity condense layer dir ts
        (a.addMember (parent, layer.protocol, c.anchor) id c.varyingDigest, id, c.foldDir)
  | node {cs : List CondenseCandidate} {c : CondenseCandidate} {group : CondenseGroup} :
      candidatesOf env identity condense layer.fields = some cs → c ∈ cs →
      a.condense.lookup (parent, layer.protocol, c.anchor) = some group →
      (∀ id, group.node = some id → a.get id = none) →
      (group.node.isSome ∨ env.config.condenseThreshold ≤ group.expanded) →
      Resolution env a parent key identity condense layer dir ts
        ((a.createNode env (parent, layer.protocol, c.anchor) group identity c ts).1.addMember
            (parent, layer.protocol, c.anchor) a.freshId c.varyingDigest, a.freshId, c.foldDir)
  | fresh {cs : List CondenseCandidate} :
      cs = (candidatesOf env identity condense layer.fields).getD [] →
      (∀ id ∈ a.bucket (parent, layer.protocol, env.digest key), ∀ s, a.get id = some s →
        s.key ≠ key) →
      Resolution env a parent key identity condense layer dir ts
        ({ (a.createStream env parent key identity layer dir ts).1 with
            condense := cs.foldl (tallyAnchor parent layer.protocol) a.condense }, a.freshId, dir)

/-- A fold that succeeds goes into the group's live node, or into one created for it. -/
theorem condenseFold_cases {env : Env} {a : Aggregator} {parent : Option StreamId}
    {protocol : ProtocolName} {identity : StreamIdentity} {c : CondenseCandidate} {ts : SystemTime}
    {r : Aggregator × StreamId × PacketDirection}
    (h : a.condenseFold env parent protocol identity c ts = some r) :
    ∃ group, a.condense.lookup (parent, protocol, c.anchor) = some group ∧
      ((∃ id s, group.node = some id ∧ a.get id = some s ∧
          r = (a.addMember (parent, protocol, c.anchor) id c.varyingDigest, id, c.foldDir)) ∨
        ((∀ id, group.node = some id → a.get id = none) ∧
          (group.node.isSome ∨ env.config.condenseThreshold ≤ group.expanded) ∧
          r = ((a.createNode env (parent, protocol, c.anchor) group identity c ts).1.addMember
            (parent, protocol, c.anchor) a.freshId c.varyingDigest, a.freshId, c.foldDir))) := by
  rw [condenseFold] at h
  cases hg : a.condense.lookup (parent, protocol, c.anchor) with
  | none =>
      simp only [hg] at h
      cases h
  | some group =>
      refine ⟨group, rfl, ?_⟩
      simp only [hg] at h
      by_cases htrig : group.node.isSome ∨ env.config.condenseThreshold ≤ group.expanded
      · rw [if_pos htrig] at h
        cases hn : group.node.filter fun id => (a.get id).isSome with
        | none =>
            simp only [hn, Option.some.injEq] at h
            -- no node yet, or one evicted since
            refine .inr ⟨?_, htrig, h.symm⟩
            intro id hid
            rw [hid, Option.filter_some] at hn
            by_contra hne
            rw [if_pos (Option.isSome_iff_ne_none.2 hne)] at hn
            cases hn
        | some id =>
            simp only [hn, Option.some.injEq] at h
            obtain ⟨hnode, hlive⟩ := Option.filter_eq_some_iff.1 hn
            obtain ⟨s, hs⟩ := Option.isSome_iff_exists.1 hlive
            exact .inl ⟨id, s, hnode, hs, h.symm⟩
      · rw [if_neg htrig] at h
        cases h

theorem getOrInsert_spec (env : Env) (a : Aggregator) (parent : Option StreamId) (key : FlowKey)
    (identity : StreamIdentity) (condense : Option CondenseSpec) (layer : LayerRecord)
    (dir : PacketDirection) (ts : SystemTime) :
    Resolution env a parent key identity condense layer dir ts
      (a.getOrInsert env parent key identity condense layer dir ts) := by
  rw [getOrInsert]
  cases hit : (a.bucket (parent, layer.protocol, env.digest key)).find? fun id =>
      (a.get id).any fun s => s.key = key with
  | some id =>
      have hany := List.find?_some hit
      rw [Option.any_eq_true] at hany
      obtain ⟨s, hs, hkey⟩ := hany
      exact .hit (List.mem_of_find?_eq_some hit) hs (of_decide_eq_true hkey)
  | none =>
      -- colliding streams of the bucket have other keys
      have hmiss : ∀ id ∈ a.bucket (parent, layer.protocol, env.digest key), ∀ s,
          a.get id = some s → s.key ≠ key := by
        intro id hid s hs hkey
        have hno := List.find?_eq_none.1 hit id hid
        rw [hs, Option.any_some] at hno
        exact hno (decide_eq_true hkey)
      simp only [candidates_eq]
      cases hcs : candidatesOf env identity condense layer.fields with
      | none => exact .fresh (show [] = _ by rw [hcs]; rfl) hmiss
      | some cs =>
          cases hfold : cs.findSome? fun c => a.condenseFold env parent layer.protocol identity c ts with
          | none =>
              simp only [hfold]
              exact .fresh (by rw [hcs]; rfl) hmiss
          | some r =>
              simp only [hfold]
              obtain ⟨c, hc, hr⟩ := List.exists_of_findSome?_eq_some hfold
              obtain ⟨group, hg, ⟨id, s, hnode, hs, rfl⟩ | ⟨hdead, htrig, rfl⟩⟩ := condenseFold_cases hr
              · exact .member hcs hc hg hnode hs
              · exact .node hcs hc hg hdead htrig

/-- The outcomes of the membership part of `condense_fold`: nothing to count, a member counted, or
the cap reached. -/
inductive Membership (a : Aggregator) (ckey : CondenseKey) (id : StreamId) (digest : UInt64) :
    Aggregator → Prop
  | known : Membership a ckey id digest a
  | counted {group : CondenseGroup} : a.condense.lookup ckey = some group → digest ∉ group.members →
      Membership a ckey id digest
        (({ a with
          condense := a.condense.insert ckey { group with members := insert digest group.members }
          totals := { a.totals with
            streamsCreated := a.totals.streamsCreated + 1
            flowsCondensed := a.totals.flowsCondensed + 1 }
          createdPerProtocol := bumpCount a.createdPerProtocol ckey.2.1 1 } : Aggregator).modify id
            Stream.countMember)
  | overflow : Membership a ckey id digest (a.modify id Stream.markOverflow)

theorem addMember_spec (a : Aggregator) (ckey : CondenseKey) (id : StreamId) (digest : UInt64) :
    Membership a ckey id digest (a.addMember ckey id digest) := by
  rw [addMember]
  cases hg : a.condense.lookup ckey with
  | none => exact .known
  | some group =>
      by_cases hm : digest ∈ group.members
      · simp only [if_pos hm, ite_self]
        exact .known
      · simp only [if_neg hm]
        split
        · exact .counted hg hm
        · exact .overflow

/-- The rule for resolution: the stream is a live one, or one created under the walk's parent; at most
one change of its membership; and changes of the groups and the creation counters that forget no
protocol. -/
theorem Resolution.rule_at {env : Env} {a : Aggregator} {parent : Option StreamId} {key : FlowKey}
    {identity : StreamIdentity} {condense : Option CondenseSpec} {layer : LayerRecord}
    {dir : PacketDirection} {ts : SystemTime} {r : Aggregator × StreamId × PacketDirection}
    {J : StreamId → Aggregator → Prop}
    (hr : Resolution env a parent key identity condense layer dir ts r)
    (hlive : ∀ s, a.get r.2.1 = some s → J r.2.1 a)
    (hcreate : ∀ n : NewStream, n.parent = parent → n.ts = ts →
      J a.freshId (a.createStreamRaw env n).1)
    (hcount : ∀ {b : Aggregator} (id : StreamId), J id b → J id (b.modify id Stream.countMember))
    (hoverflow : ∀ {b : Aggregator} (id : StreamId), J id b → J id (b.modify id Stream.markOverflow))
    (htables : ∀ {id : StreamId} {b : Aggregator} (m : HashMap CondenseKey CondenseGroup) (t : Totals)
      (c : HashMap ProtocolName Nat), (∀ q, q ∈ b.createdPerProtocol → q ∈ c) → J id b →
      J id { b with condense := m, totals := t, createdPerProtocol := c }) : J r.2.1 r.1 := by
  -- membership is at most one change of the node, behind a change of the tables
  have hmember : ∀ {b : Aggregator} (ckey : CondenseKey) (id : StreamId) (digest : UInt64), J id b →
      J id (b.addMember ckey id digest) := by
    intro b ckey id digest hb
    have hm := addMember_spec b ckey id digest
    generalize b.addMember ckey id digest = b' at hm
    cases hm with
    | known => exact hb
    | counted _ _ => exact hcount id (htables _ _ _ (fun _ hq => mem_bumpCount.2 (.inr hq)) hb)
    | overflow => exact hoverflow id hb
  cases hr with
  | hit _ hs _ => exact hlive _ hs
  | member _ _ _ _ hs => exact hmember _ _ _ (hlive _ hs)
  | @node cs c group _ _ _ _ _ =>
      exact hmember _ _ _ (htables _ _ _ (fun _ hq => mem_dropCount.2 hq)
        (hcreate (nodeStream env (parent, layer.protocol, c.anchor) identity c ts) rfl rfl))
  | fresh _ _ =>
      exact htables _ _ _ (fun _ hq => hq)
        (hcreate (layerStream env parent key identity layer dir ts) rfl rfl)

/-- The rule for a property that does not mention the resolved stream. -/
theorem Resolution.rule {env : Env} {a : Aggregator} {parent : Option StreamId} {key : FlowKey}
    {identity : StreamIdentity} {condense : Option CondenseSpec} {layer : LayerRecord}
    {dir : PacketDirection} {ts : SystemTime} {r : Aggregator × StreamId × PacketDirection}
    {J : Aggregator → Prop} (hr : Resolution env a parent key identity condense layer dir ts r)
    (h : J a)
    (hcreate : ∀ n : NewStream, n.parent = parent → n.ts = ts → J (a.createStreamRaw env n).1)
    (hcount : ∀ {b : Aggregator} (id : StreamId), J b → J (b.modify id Stream.countMember))
    (hoverflow : ∀ {b : Aggregator} (id : StreamId), J b → J (b.modify id Stream.markOverflow))
    (htables : ∀ {b : Aggregator} (m : HashMap CondenseKey CondenseGroup) (t : Totals)
      (c : HashMap ProtocolName Nat), (∀ q, q ∈ b.createdPerProtocol → q ∈ c) → J b →
      J { b with condense := m, totals := t, createdPerProtocol := c }) : J r.1 :=
  hr.rule_at (J := fun _ b => J b) (fun _ _ => h) hcreate hcount hoverflow htables

/-! ## A layer of the walk -/

/-- The stream `ingest` folds a layer into: the one `get_or_insert` resolves it to, if it has a stream
identity and its key can be built. -/
def foldTarget (env : Env) (pkt : DissectedPacket) (w : Walk) (layer : LayerRecord) : Option StreamId :=
  match identityOf env layer.protocol with
  | none => none
  | some (plugin, identity) =>
      match flowKey identity layer.fields with
      | .error _ => none
      | .ok (key, dir) =>
          some (w.agg.getOrInsert env w.parent key identity plugin.condense layer dir
            pkt.meta_.timestamp).2.1

/-- The outcomes of one layer of the walk of `ingest`. -/
inductive LayerStep (env : Env) (pkt : DissectedPacket) (w : Walk) (layer : LayerRecord) : Walk → Prop
  | skip : identityOf env layer.protocol = none → LayerStep env pkt w layer w
  | keyError {plugin : LayerPlugin} {identity : StreamIdentity} {e : KeyError} :
      identityOf env layer.protocol = some (plugin, identity) →
      flowKey identity layer.fields = .error e →
      LayerStep env pkt w layer { w with agg := { w.agg with
        totals := { w.agg.totals with keyErrors := w.agg.totals.keyErrors + 1 } } }
  | folded {plugin : LayerPlugin} {identity : StreamIdentity} {key : FlowKey}
      {dir foldDir : PacketDirection} {b : Aggregator} {id : StreamId} :
      identityOf env layer.protocol = some (plugin, identity) →
      flowKey identity layer.fields = .ok (key, dir) →
      Resolution env w.agg w.parent key identity plugin.condense layer dir pkt.meta_.timestamp
        (b, id, foldDir) →
      foldTarget env pkt w layer = some id →
      LayerStep env pkt w layer
        { agg := b.touch env id identity layer key foldDir pkt.meta_.timestamp pkt.meta_.origlen
          parent := some id
          lastEndpoint := some ⟨layer.protocol, key⟩ }

theorem ingestLayer_spec (env : Env) (pkt : DissectedPacket) (w : Walk) (layer : LayerRecord) :
    LayerStep env pkt w layer (ingestLayer env pkt w layer) := by
  rw [ingestLayer]
  cases hid : identityOf env layer.protocol with
  | none => exact .skip hid
  | some pair =>
      obtain ⟨plugin, identity⟩ := pair
      cases hkey : flowKey identity layer.fields with
      | error e =>
          simp only [hkey]
          exact .keyError hid hkey
      | ok built =>
          obtain ⟨key, dir⟩ := built
          simp only [hkey]
          refine .folded hid hkey (getOrInsert_spec env w.agg w.parent key identity plugin.condense layer
            dir pkt.meta_.timestamp) ?_
          simp only [foldTarget, hid, hkey]

end Aggregator

end Pktflow.Flows
