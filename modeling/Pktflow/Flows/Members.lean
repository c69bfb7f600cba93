import Pktflow.Flows.Varying
import Pktflow.Flows.Folds

/-!
# The members of a condensed node

A condensed node counts its members by the value on the varying side, and is meant to count flows. The count is
that of the distinct varying values folded into the node, up to the cap (`MemberInv`). It is never more than the
flows, and exactly as many if the ephemeral pair is the only pair of the key (`member_count`). With another pair
it can be less: the group sorts that pair for itself, and two flows that combine the pairs the other way round
have one value (`members_merged`).
-/

set_option autoImplicit false

namespace Pktflow.Flows

open Pktflow.Core Pktflow.Lib

namespace Aggregator

/-! ## The varying values of a node's packets -/

/-- The varying value of a layer in the group of a node's key, by its digest. -/
def varyingOf (env : Env) (protocol : ProtocolName) (key : FlowKey) (layer : LayerRecord) : Option UInt64 :=
  (identityOf env protocol).bind fun p => (candidatesOf env p.2 p.1.condense layer.fields).bind fun cs =>
    (cs.find? fun c => condensedKeySentinel :: c.anchor = key).map CondenseCandidate.varyingDigest

theorem varyingOf_eq {env : Env} {protocol : ProtocolName} {plugin : LayerPlugin} {identity : StreamIdentity}
    {layer : LayerRecord} {cs : List CondenseCandidate} {c : CondenseCandidate}
    (hid : identityOf env protocol = some (plugin, identity))
    (hcs : candidatesOf env identity plugin.condense layer.fields = some cs) (hc : c ∈ cs) :
    varyingOf env protocol (condensedKeySentinel :: c.anchor) layer = some c.varyingDigest := by
  obtain ⟨spec, -, hspec⟩ := candidatesOf_some hcs
  have hnodup := condenseCandidates_nodup hspec
  have hfind : (cs.find? fun x => condensedKeySentinel :: x.anchor = condensedKeySentinel :: c.anchor) = some c := by
    cases h : cs.find? fun x => condensedKeySentinel :: x.anchor = condensedKeySentinel :: c.anchor with
    | none =>
        have hno := List.find?_eq_none.1 h c hc
        simp at hno
    | some x =>
        have hx := List.find?_some h
        have hanchor : x.anchor = c.anchor := by simpa using hx
        rw [List.inj_on_of_nodup_map hnodup (List.mem_of_find?_eq_some h) hc hanchor]
  rw [varyingOf]
  rw [hid, Option.bind_some, hcs, Option.bind_some, hfind]
  rfl

/-- The varying values folded into a stream. -/
def varyings (env : Env) (s : Stream) : Finset UInt64 :=
  (s.history.filterMap fun f => varyingOf env s.protocol s.key f.layer).toFinset

/-- The flow keys of the packets folded into a stream. -/
def flowKeys (s : Stream) : Finset FlowKey := (s.history.map Fold.key).toFinset

/-- The history of a stream has the flow keys of its packets; that of a node has packets of its group. -/
def Filed (env : Env) (s : Stream) : Prop :=
  ∀ f ∈ s.history, ∃ plugin identity dir, identityOf env s.protocol = some (plugin, identity) ∧
    flowKey identity f.layer.fields = .ok (f.key, dir) ∧
    (s.condensed.isSome = true → ∃ cs c, candidatesOf env identity plugin.condense f.layer.fields = some cs ∧
      c ∈ cs ∧ s.key = condensedKeySentinel :: c.anchor)

theorem Filed.congr {env : Env} {s s' : Stream} (h : Filed env s) (hprotocol : s'.protocol = s.protocol)
    (hkey : s'.key = s.key) (hcondensed : s'.condensed.isSome = s.condensed.isSome)
    (hhistory : s'.history = s.history) : Filed env s' := by
  rw [Filed]
  rw [hprotocol, hkey, hcondensed, hhistory]
  exact h

theorem filed_rule (env : Env) : FoldRule env (Filed env) where
  facts := fun _ => ⟨fun h => h.congr rfl rfl rfl rfl, fun h => h.congr rfl rfl rfl rfl⟩
  tail := fun _ _ h => h.congr rfl rfl rfl rfl
  count := fun s h => h.congr rfl rfl (congrArg Frame.isNode s.countMember_frame) rfl
  overflow := fun s h => h.congr rfl rfl (congrArg Frame.isNode s.markOverflow_frame) rfl
  fresh := by
    intro layer identity condense key dir ts s _ hs f hf
    cases hs with
    | flow => cases hf
    | node => cases hf
  absorb := by
    intro layer identity condense key dir d s ts origlen hk htakes h
    obtain ⟨⟨plugin, hid, rfl⟩, hbuilt⟩ := hk
    rw [Stream.absorb_eq]
    intro f hf
    rcases List.mem_append.1 hf with hf | hf
    · exact h f hf
    · obtain rfl := List.mem_singleton.1 hf
      cases htakes with
      | flow hp hc _ =>
          refine ⟨plugin, identity, dir, by rw [← hid, ← hp], hbuilt, ?_⟩
          intro hnode
          have hnone : s.condensed.isSome = true := hnode
          rw [hc] at hnone
          cases hnone
      | @node cs c hp _ hcs hc hkey =>
          exact ⟨plugin, identity, dir, by rw [← hid, ← hp], hbuilt, fun _ => ⟨cs, c, hcs, hc, hkey⟩⟩

/-! ## One fold of the tally -/

/-- What the tally of a node depends on. -/
def tallied (s : Stream) : Option CondensedInfo × ProtocolName × FlowKey × List Fold :=
  (s.condensed, s.protocol, s.key, s.history)

/-- The members of a group against the packets folded into its node. -/
structure Counts (env : Env) (s : Stream) (members : Finset UInt64) : Prop where
  subset : members ⊆ varyings env s
  card : members.card = min condenseMemberCap (varyings env s).card
  flows : ∀ info ∈ s.condensed, info.memberFlows = members.card
  overflow : ∀ info ∈ s.condensed, (info.overflow = true ↔ condenseMemberCap < (varyings env s).card)

/-- The numbers of a node against the packets folded into it. -/
def Counted (env : Env) (s : Stream) : Prop :=
  ∀ info ∈ s.condensed, info.memberFlows = min condenseMemberCap (varyings env s).card ∧
    (info.overflow = true ↔ condenseMemberCap < (varyings env s).card)

section Tally

variable {env : Env} {s s' : Stream} {members members' : Finset UInt64} {digest : UInt64}

theorem Counts.counted (h : Counts env s members) : Counted env s :=
  fun info hinfo => ⟨(h.flows info hinfo).trans h.card, h.overflow info hinfo⟩

theorem varyings_congr (h : tallied s' = tallied s) : varyings env s' = varyings env s := by
  obtain ⟨-, hprotocol, hkey, hhistory⟩ : s'.condensed = s.condensed ∧ s'.protocol = s.protocol ∧
      s'.key = s.key ∧ s'.history = s.history := by
    simpa [tallied] using h
  unfold varyings
  rw [hprotocol, hkey, hhistory]

theorem Counts.congr (h : Counts env s members) (heq : tallied s' = tallied s) : Counts env s' members := by
  have hcondensed : s'.condensed = s.condensed := congrArg Prod.fst heq
  refine ⟨?_, ?_, ?_, ?_⟩
  · rw [varyings_congr heq]
    exact h.subset
  · rw [varyings_congr heq]
    exact h.card
  · rw [hcondensed]
    exact h.flows
  · rw [hcondensed, varyings_congr heq]
    exact h.overflow

/-- What `condense_fold` does with a digest: the members and the node's record after it. -/
inductive Joins (members : Finset UInt64) (digest : UInt64) (s : Stream) : Finset UInt64 → Stream → Prop
  | known : digest ∈ members → Joins members digest s members s
  | counted : digest ∉ members → members.card < condenseMemberCap →
      Joins members digest s (insert digest members) s.countMember
  | overflow : digest ∉ members → condenseMemberCap ≤ members.card →
      Joins members digest s members s.markOverflow

theorem Joins.same (h : Joins members digest s members' s') :
    s'.protocol = s.protocol ∧ s'.key = s.key ∧ s'.history = s.history := by
  cases h <;> exact ⟨rfl, rfl, rfl⟩

/-- Below the cap the members are all the values. -/
theorem Counts.eq_of_lt (h : Counts env s members) (hlt : members.card < condenseMemberCap) :
    members = varyings env s := by
  have hcard := h.card
  exact Finset.eq_of_subset_of_card_le h.subset (by omega)

/-- A value that is a member already. -/
theorem Counts.known (h : Counts env s members) (hmem : digest ∈ members) {t : Stream}
    (hcondensed : t.condensed = s.condensed) (hvaryings : varyings env t = insert digest (varyings env s)) :
    Counts env t members := by
  have hsame : varyings env t = varyings env s := by
    rw [hvaryings, Finset.insert_eq_of_mem (h.subset hmem)]
  constructor
  case subset =>
    rw [hsame]
    exact h.subset
  case card =>
    rw [hsame]
    exact h.card
  case flows =>
    rw [hcondensed]
    exact h.flows
  case overflow =>
    rw [hcondensed, hsame]
    exact h.overflow

/-- A value that becomes a member. -/
theorem Counts.add (h : Counts env s members) (hnew : digest ∉ members)
    (hlt : members.card < condenseMemberCap) {t : Stream} (hcondensed : t.condensed = s.countMember.condensed)
    (hvaryings : varyings env t = insert digest (varyings env s)) : Counts env t (insert digest members) := by
  have hcap := h.card
  have hall := h.eq_of_lt hlt
  have hcard : (insert digest members).card = members.card + 1 := Finset.card_insert_of_notMem hnew
  rw [← hall] at hvaryings
  constructor
  case subset => rw [hvaryings]
  case card =>
    rw [hvaryings, hcard]
    omega
  case flows =>
    intro info hinfo
    rw [hcondensed] at hinfo
    obtain ⟨old, hold, rfl⟩ := Option.map_eq_some_iff.1 hinfo
    rw [hcard, ← h.flows old hold]
  case overflow =>
    intro info hinfo
    rw [hcondensed] at hinfo
    obtain ⟨old, hold, rfl⟩ := Option.map_eq_some_iff.1 hinfo
    rw [hvaryings, hcard]
    have hflag := h.overflow old hold
    rw [← hall] at hflag
    show old.overflow = true ↔ _
    rw [hflag]
    omega

/-- A value that is no member although the members are at the cap. -/
theorem Counts.full (h : Counts env s members) (hnew : digest ∉ members)
    (hfull : condenseMemberCap ≤ members.card) {t : Stream} (hcondensed : t.condensed = s.markOverflow.condensed)
    (hvaryings : varyings env t = insert digest (varyings env s)) : Counts env t members := by
  have hcap := h.card
  have hover : condenseMemberCap < (varyings env t).card := by
    have hsubset : insert digest members ⊆ varyings env t := by
      rw [hvaryings]
      exact Finset.insert_subset_insert digest h.subset
    have hle := Finset.card_le_card hsubset
    rw [Finset.card_insert_of_notMem hnew] at hle
    omega
  constructor
  case subset =>
    rw [hvaryings]
    exact h.subset.trans (Finset.subset_insert digest _)
  case card => omega
  case flows =>
    intro info hinfo
    rw [hcondensed] at hinfo
    obtain ⟨old, hold, rfl⟩ := Option.map_eq_some_iff.1 hinfo
    exact h.flows old hold
  case overflow =>
    intro info hinfo
    rw [hcondensed] at hinfo
    obtain ⟨old, -, rfl⟩ := Option.map_eq_some_iff.1 hinfo
    exact iff_of_true rfl hover

/-- A fold keeps the tally: the digest joins the members, and then the packet the history. -/
theorem Counts.join (h : Counts env s members) (hjoin : Joins members digest s members' s') {t : Stream}
    (hcondensed : t.condensed = s'.condensed) (hvaryings : varyings env t = insert digest (varyings env s)) :
    Counts env t members' := by
  cases hjoin with
  | known hmem => exact h.known hmem hcondensed hvaryings
  | counted hnew hlt => exact h.add hnew hlt hcondensed hvaryings
  | overflow hnew hfull => exact h.full hnew hfull hcondensed hvaryings

/-- A packet of the group adds its varying value. -/
theorem varyings_absorb {layer : LayerRecord} (hv : varyingOf env s.protocol s.key layer = some digest)
    (hsame : s'.protocol = s.protocol ∧ s'.key = s.key ∧ s'.history = s.history) (identity : StreamIdentity)
    (key : FlowKey) (dir : PacketDirection) (ts : SystemTime) (origlen : Nat) :
    varyings env (s'.absorb identity layer key dir ts origlen).1 = insert digest (varyings env s) := by
  obtain ⟨hprotocol, hkey, hhistory⟩ := hsame
  rw [Stream.absorb_eq]
  rw [varyings]
  dsimp only
  rw [hprotocol, hkey, hhistory, List.filterMap_append, List.toFinset_append]
  simp only [List.filterMap_cons, List.filterMap_nil, hv, List.toFinset_cons, List.toFinset_nil,
    insert_empty_eq]
  rw [Finset.union_comm]
  rfl

end Tally

/-! ## The tally along a run -/

/-- The members of every live node are counted, and those of the evicted ones were. -/
structure MemberInv (env : Env) (a : Aggregator) : Prop where
  live : ∀ {ck g id s}, a.condense.lookup ck = some g → g.node = some id → a.get id = some s →
    Counts env s g.members
  gone : ∀ e ∈ a.removed, Counted env e.stream

namespace MemberInv

variable {env : Env} {a b : Aggregator}

/-- One node belongs to one group. -/
theorem node_sole (htab : TableInv env a) {ck ck' : CondenseKey} {g g' : CondenseGroup} {x : StreamId}
    (hg : a.condense.lookup ck = some g) (hn : g.node = some x) (hg' : a.condense.lookup ck' = some g')
    (hn' : g'.node = some x) : ck' = ck := by
  obtain ⟨f, hf, -, hpar, hpro, hk⟩ := htab.groups.node_live hg hn
  obtain ⟨f', hf', -, hpar', hpro', hk'⟩ := htab.groups.node_live hg' hn'
  obtain rfl := Option.some.inj (hf.symm.trans hf')
  exact Prod.ext (hpar'.symm.trans hpar) (Prod.ext (hpro'.symm.trans hpro)
    (List.cons.inj (hk'.symm.trans hk)).2)

/-- The id that is given out next is no node. -/
theorem node_ne_freshId (htab : TableInv env a) (hlim : a.Fits) {ck : CondenseKey} {g : CondenseGroup}
    (hg : a.condense.lookup ck = some g) : g.node ≠ some a.freshId := by
  intro hn
  obtain ⟨f, hf, -⟩ := htab.groups.node_live hg hn
  obtain ⟨t, ht⟩ := live_iff_frames.2 ⟨f, hf⟩
  rw [get_freshId hlim] at ht
  cases ht

/-- A stream under a key that `flow_key` builds is no node: a node's key is none of these. -/
theorem node_ne_of_flowKey (htab : TableInv env a) {id : StreamId} {s : Stream} {key : FlowKey}
    {plugin : LayerPlugin} {identity : StreamIdentity} {layer : LayerRecord} {dir : PacketDirection}
    (hs : a.get id = some s) (hpro : s.protocol = layer.protocol) (hk : s.key = key)
    (hid : identityOf env layer.protocol = some (plugin, identity))
    (hkey : flowKey identity layer.fields = .ok (key, dir)) {ck : CondenseKey} {g : CondenseGroup}
    (hg : a.condense.lookup ck = some g) : g.node ≠ some id := by
  intro hn
  obtain ⟨f, hf, hisnode, -, -, hnodekey⟩ := htab.groups.node_live hg hn
  obtain ⟨plugin', identity', spec, hid', hspec⟩ := htab.groups.declared hf hisnode
  obtain rfl := Option.some.inj ((frames_of_get hs).symm.trans hf)
  have hsame : identityOf env s.protocol = some (plugin', identity') := hid'
  rw [hpro, hid] at hsame
  obtain ⟨rfl, rfl⟩ := Prod.mk.inj (Option.some.inj hsame)
  exact flowKey_ne_nodeKey hid hspec hkey ck.2.2 (hk.symm.trans hnodekey)

/-- Only the nodes of the groups and what their tally depends on matter. -/
theorem congr (h : MemberInv env a)
    (hgroups : ∀ {ck g id}, b.condense.lookup ck = some g → g.node = some id →
      ∃ g', a.condense.lookup ck = some g' ∧ g'.node = some id ∧ g'.members = g.members)
    (hget : ∀ {ck g id}, b.condense.lookup ck = some g → g.node = some id →
      (b.get id).map tallied = (a.get id).map tallied)
    (hremoved : b.removed = a.removed) : MemberInv env b where
  live := by
    intro ck g id s hg hn hs
    obtain ⟨g', hg', hn', hmembers⟩ := hgroups hg hn
    have hpart := hget hg hn
    rw [hs] at hpart
    obtain ⟨s', hs', heq⟩ := Option.map_eq_some_iff.1 hpart.symm
    rw [← hmembers]
    exact (h.live hg' hn' hs').congr heq.symm
  gone := by
    rw [hremoved]
    exact h.gone

/-- A change of no more than the records, which keeps what the tally depends on. -/
theorem modify (h : MemberInv env a) (id : StreamId) {f : Stream → Stream} (hf : ∀ s, tallied (f s) = tallied s) :
    MemberInv env (a.modify id f) :=
  h.congr (fun hg hn => ⟨_, hg, hn, rfl⟩) (fun _ _ => map_get_modify tallied a id hf _) rfl

/-- A packet that is folded into a stream that is no node. -/
theorem touch (h : MemberInv env a) {id : StreamId} (identity : StreamIdentity) (layer : LayerRecord)
    (key : FlowKey) (dir : PacketDirection) (ts : SystemTime) (origlen : Nat)
    (hother : ∀ {ck g}, a.condense.lookup ck = some g → g.node ≠ some id) :
    MemberInv env (a.touch env id identity layer key dir ts origlen) := by
  refine h.congr (fun hg hn => ⟨_, hg, hn, rfl⟩) ?_ rfl
  intro ck g x hg hn
  have hne : x ≠ id := by
    rintro rfl
    exact hother hg hn
  show ((a.modify id _).get x).map tallied = _
  rw [get_modify, Function.update_of_ne hne]

/-- The membership part of `condense_fold` on a group with a live node. -/
theorem addMember_joins {ck : CondenseKey} {g : CondenseGroup} {id : StreamId} {s : Stream}
    (hg : a.condense.lookup ck = some g) (hs : a.get id = some s) (digest : UInt64) :
    ∃ g' s', Joins g.members digest s g'.members s' ∧ g'.node = g.node ∧
      (a.addMember ck id digest).condense.lookup ck = some g' ∧
      (∀ ck', ck' ≠ ck → (a.addMember ck id digest).condense.lookup ck' = a.condense.lookup ck') ∧
      (a.addMember ck id digest).get = Function.update a.get id (some s') ∧
      (a.addMember ck id digest).removed = a.removed := by
  have hself : a.get = Function.update a.get id (some s) := by
    rw [← hs, Function.update_eq_self]
  by_cases hmem : digest ∈ g.members
  · have heq : a.addMember ck id digest = a := by
      rw [addMember]
      simp only [hg, if_pos hmem, ite_self]
    rw [heq]
    exact ⟨g, s, .known hmem, rfl, hg, fun _ _ => rfl, hself, rfl⟩
  · rw [addMember]
    simp only [hg, if_neg hmem]
    by_cases hlt : g.members.card < condenseMemberCap
    · rw [if_pos hlt]
      refine ⟨{ g with members := insert digest g.members }, s.countMember, .counted hmem hlt, rfl,
        AList.lookup_insert _, fun ck' hne => AList.lookup_insert_ne hne, ?_, rfl⟩
      rw [get_modify]
      exact congrArg (Function.update a.get id) (congrArg (Option.map Stream.countMember) hs)
    · rw [if_neg hlt]
      refine ⟨g, s.markOverflow, .overflow hmem (Nat.le_of_not_lt hlt), rfl, hg, fun _ _ => rfl, ?_, rfl⟩
      rw [get_modify, hs]
      rfl

/-- A packet that is folded into a node: it joins the members and then the history. -/
theorem member (h : MemberInv env a) {ck : CondenseKey} {g : CondenseGroup} {id : StreamId} {s : Stream}
    {layer : LayerRecord} {digest : UInt64} (hg : a.condense.lookup ck = some g) (hn : g.node = some id)
    (hs : a.get id = some s)
    (hsole : ∀ {ck' g'}, a.condense.lookup ck' = some g' → g'.node = some id → ck' = ck)
    (hv : varyingOf env s.protocol s.key layer = some digest) (identity : StreamIdentity) (key : FlowKey)
    (dir : PacketDirection) (ts : SystemTime) (origlen : Nat) :
    MemberInv env ((a.addMember ck id digest).touch env id identity layer key dir ts origlen) := by
  obtain ⟨g', s', hjoin, hnode, hlook, helse, hget, hremoved⟩ := addMember_joins hg hs digest
  have hget' : ((a.addMember ck id digest).touch env id identity layer key dir ts origlen).get =
      Function.update a.get id (some (s'.absorb identity layer key dir ts origlen).1) := by
    show ((a.addMember ck id digest).modify id _).get = _
    rw [get_modify, hget, Function.update_self, Function.update_idem]
    rfl
  refine ⟨?_, ?_⟩
  · intro ck' g'' x t hg'' hx ht
    have hg3 : (a.addMember ck id digest).condense.lookup ck' = some g'' := hg''
    rw [hget'] at ht
    by_cases hck : ck' = ck
    · subst hck
      rw [hlook] at hg3
      obtain rfl := Option.some.inj hg3
      rw [hnode, hn] at hx
      obtain rfl := Option.some.inj hx
      rw [Function.update_self] at ht
      obtain rfl := Option.some.inj ht
      refine (h.live hg hn hs).join hjoin ?_ (varyings_absorb hv hjoin.same identity key dir ts origlen)
      rw [Stream.absorb_eq]
    · rw [helse ck' hck] at hg3
      have hne : x ≠ id := by
        rintro rfl
        exact hck (hsole hg3 hx)
      rw [Function.update_of_ne hne] at ht
      exact h.live hg3 hx ht
  · intro e he
    have he' : e ∈ (a.addMember ck id digest).removed := he
    rw [hremoved] at he'
    exact h.gone e he'

/-- An evicted record keeps its tally, and takes the group along if it is a node. -/
theorem evict (h : MemberInv env a) (htab : TableInv env a) {id : StreamId} {s : Stream} (reason : CloseReason)
    (hs : a.get id = some s) : MemberInv env (a.evict env id reason) := by
  have hcounted : Counted env s := by
    intro info hinfo
    obtain ⟨anchor, g, -, hg, hn⟩ := htab.groups.node_group (frames_of_get hs) (by
      show s.condensed.isSome = true
      rw [Option.mem_def.1 hinfo]
      rfl)
    exact (h.live hg hn hs).counted info hinfo
  refine ⟨?_, ?_⟩
  · intro ck g x t hg hn ht
    rw [get_evict hs] at ht
    split at ht
    · cases ht
    · -- the groups that are left have the nodes and members they had
      obtain ⟨g', hg', hn', hmembers⟩ : ∃ g', a.condense.lookup ck = some g' ∧ g'.node = some x ∧
          g'.members = g.members := by
        rw [(evict_updated env reason hs).2.2.2.1] at hg
        cases hnode : s.condensed.isSome with
        | false =>
            rcases (SameNodes.groupsWithout env a.condense hnode).only hg with ⟨hnone, -⟩ | ⟨g', hg', hn', hm⟩
            · rw [hn] at hnone
              cases hnone
            · exact ⟨g', hg', hn'.trans hn, hm⟩
        | true =>
            obtain ⟨anchor, own, -, -, -, hwithout⟩ := htab.groups.groupsWithout_node hs hnode
            rw [hwithout] at hg
            by_cases hck : ck = (s.parent, s.protocol, anchor)
            · rw [hck, AList.lookup_erase] at hg
              cases hg
            · rw [AList.lookup_erase_ne hck] at hg
              exact ⟨g, hg, hn, rfl⟩
      rw [← hmembers]
      split at ht
      · obtain ⟨t', ht', rfl⟩ := Option.map_eq_some_iff.1 ht
        exact (h.live hg' hn' ht').congr rfl
      · exact h.live hg' hn' ht
  · intro e he
    rw [removed_evict hs] at he
    rcases List.mem_append.1 he with he | he
    · exact h.gone e he
    · obtain rfl := List.mem_singleton.1 he
      exact hcounted

/-- A node for a group that has none begins with nothing. -/
theorem createNode (h : MemberInv env a) (htab : TableInv env a) {ck : CondenseKey} {g : CondenseGroup}
    (identity : StreamIdentity) (c : CondenseCandidate) (ts : SystemTime) (hlim : a.Fits) (hp : a.Linked ck.1)
    (hg : a.condense.lookup ck = some g) (hnone : g.node = none) :
    MemberInv env (a.createNode env ck g identity c ts).1 := by
  have hget := fun x => get_create (n := nodeStream env ck identity c ts) env hlim hp x
  refine ⟨?_, h.gone⟩
  intro ck' g' x s hg' hn hs
  have hg'' : (a.condense.insert ck { g with node := some a.freshId }).lookup ck' = some g' := hg'
  have hs' := (hget x).symm.trans hs
  by_cases hck : ck' = ck
  · subst hck
    rw [AList.lookup_insert] at hg''
    obtain rfl := Option.some.inj hg''
    obtain rfl := Option.some.inj hn
    rw [if_pos rfl] at hs'
    obtain rfl := Option.some.inj hs'
    have hempty : g.members = ∅ := htab.groups.members hg hnone
    refine ⟨?_, ?_, ?_, ?_⟩
    · rw [hempty]
      exact Finset.empty_subset _
    · rw [hempty]
      rfl
    · intro info hinfo
      obtain rfl := Option.some.inj hinfo
      rw [hempty]
      rfl
    · intro info hinfo
      obtain rfl := Option.some.inj hinfo
      exact iff_of_false Bool.false_ne_true (Nat.not_lt_zero _)
  · rw [AList.lookup_insert_ne hck] at hg''
    split at hs'
    · rename_i hx
      exact absurd (hn.trans (congrArg some hx)) (node_ne_freshId htab hlim hg'')
    · split at hs'
      · obtain ⟨t, ht, rfl⟩ := Option.map_eq_some_iff.1 hs'
        exact (h.live hg'' hn ht).congr rfl
      · exact h.live hg'' hn hs'

/-- An expanded stream is no node. -/
theorem createStream (h : MemberInv env a) (htab : TableInv env a) {n : NewStream} (hlim : a.Fits)
    (hp : a.Linked n.parent) {m : HashMap CondenseKey CondenseGroup} (hm : SameNodes a.condense m) :
    MemberInv env { (a.createStreamRaw env n).1 with condense := m } ∧
      ∀ {ck g}, m.lookup ck = some g → g.node ≠ some a.freshId := by
  have hold : ∀ {ck g x}, m.lookup ck = some g → g.node = some x →
      ∃ g', a.condense.lookup ck = some g' ∧ g'.node = some x ∧ g'.members = g.members := by
    intro ck g x hg hn
    rcases hm.only hg with ⟨hnone, -⟩ | ⟨g', hg', hn', hmembers⟩
    · rw [hn] at hnone
      cases hnone
    · exact ⟨g', hg', hn'.trans hn, hmembers⟩
  have hfresh : ∀ {ck g}, m.lookup ck = some g → g.node ≠ some a.freshId := by
    intro ck g hg hn
    obtain ⟨g', hg', hn', -⟩ := hold hg hn
    exact node_ne_freshId htab hlim hg' hn'
  refine ⟨h.congr hold ?_ rfl, hfresh⟩
  intro ck g x hg hn
  have hne : x ≠ a.freshId := by
    rintro rfl
    exact hfresh hg hn
  show ((a.createStreamRaw env n).1.get x).map tallied = _
  rw [get_create env hlim hp x, if_neg hne]
  split
  · rw [Option.map_map]
    rfl
  · rfl

/-- A layer that is folded into its stream. -/
theorem folded (h : MemberInv env a) (htab : TableInv env a) {parent : Option StreamId} {key : FlowKey}
    {plugin : LayerPlugin} {identity : StreamIdentity} {layer : LayerRecord} {dir d : PacketDirection}
    {ts : SystemTime} {id : StreamId} (origlen : Nat) (hp : a.Linked parent)
    (hid : identityOf env layer.protocol = some (plugin, identity))
    (hkey : flowKey identity layer.fields = .ok (key, dir))
    (hr : Resolution env a parent key identity plugin.condense layer dir ts (b, id, d)) (hfits : b.Fits) :
    MemberInv env (b.touch env id identity layer key d ts origlen) := by
  have hlim : a.Fits := hr.fits hfits
  -- the varying value of a node is read off the candidate whose anchor it has
  have hvarying : ∀ {cs : List CondenseCandidate} {c : CondenseCandidate} {s : Stream},
      candidatesOf env identity plugin.condense layer.fields = some cs → c ∈ cs →
      s.protocol = layer.protocol → s.key = condensedKeySentinel :: c.anchor →
      varyingOf env s.protocol s.key layer = some c.varyingDigest := by
    intro cs c s hcs hc hprotocol hk
    rw [hprotocol, hk]
    exact varyingOf_eq hid hcs hc
  cases hr with
  | @hit _ s hmem hs hk =>
      obtain ⟨f, hf, hindex⟩ := htab.index.mem_bucket.1 hmem
      -- a stream found by its flow key is no node
      obtain rfl := Option.some.inj ((frames_of_get hs).symm.trans hf)
      have hpro : s.protocol = layer.protocol := congrArg (fun k => k.2.1) hindex
      exact h.touch identity layer key _ ts origlen fun hg hn =>
        node_ne_of_flowKey htab hs hpro hk hid hkey hg hn
  | @member cs c group _ s hcs hc hg hn hs =>
      obtain ⟨f, hf, -, -, hpro, hk⟩ := htab.groups.node_live hg hn
      obtain rfl := Option.some.inj ((frames_of_get hs).symm.trans hf)
      exact h.member hg hn hs (fun hg' hn' => node_sole htab hg hn hg' hn') (hvarying hcs hc hpro hk) identity key
        c.foldDir ts origlen
  | @node cs c group hcs hc hg hdead _ =>
      have hnone := htab.node_none hg hdead
      have hnode := h.createNode htab identity c ts hlim hp hg hnone
      have hget := get_create (n := nodeStream env (parent, layer.protocol, c.anchor) identity c ts) env hlim hp
        a.freshId
      rw [if_pos rfl] at hget
      refine hnode.member (AList.lookup_insert _) rfl hget ?_ (hvarying hcs hc rfl rfl) identity key c.foldDir ts
        origlen
      intro ck' g' hg' hn'
      have hg'' : (a.condense.insert (parent, layer.protocol, c.anchor)
        { group with node := some a.freshId }).lookup ck' = some g' := hg'
      by_contra hck
      rw [AList.lookup_insert_ne hck] at hg''
      exact node_ne_freshId htab hlim hg'' hn'
  | @fresh cs hcs _ =>
      have hsame := SameNodes.foldl (SameNodes.tally parent layer.protocol) cs a.condense
      obtain ⟨hcreated, hother⟩ := h.createStream (n := layerStream env parent key identity layer dir ts) htab
        hlim hp hsame
      exact hcreated.touch identity layer key dir ts origlen fun hg => hother hg

/-- The tally along every run. -/
theorem runStable (env : Env) :
    RunStable env (fun _ => True) fun a => TableInv env a ∧ MemberInv env a where
  close := by
    intro a id h
    refine ⟨(TableInv.runStable env).close id h.1, ?_⟩
    obtain ⟨calls, heq⟩ := closeStream_eq env a id
    have hmod : MemberInv env (a.modify id fun s => s.markClosed .captureEnd) := h.2.modify id fun _ => rfl
    rw [heq]
    exact ⟨hmod.live, hmod.gone⟩
  evict := fun reason hf hs hc h =>
    ⟨(TableInv.runStable env).evict reason hf hs hc h.1, h.2.evict h.1 reason hs⟩
  heaps := fun expiry lru h => ⟨(TableInv.runStable env).heaps expiry lru h.1, h.2.live, h.2.gone⟩
  new := ⟨(TableInv.runStable env).new, (fun hg => by cases hg), fun _ he => by cases he⟩
  tick := fun pkt h => ⟨(TableInv.runStable env).tick pkt h.1, h.2.live, h.2.gone⟩
  layer := by
    intro pkt w w' layer hw _ hstep hfits h
    refine ⟨(TableInv.runStable env).layer hw trivial hstep hfits h.1, ?_⟩
    cases hstep with
    | skip _ => exact h.2
    | keyError _ _ => exact ⟨h.2.live, h.2.gone⟩
    | folded hid hkey hr =>
        exact h.2.folded h.1 pkt.meta_.origlen hw.linked hid hkey hr (fits_of_touch hfits)
  tail := fun id n h => ⟨(TableInv.runStable env).tail id n h.1, h.2.modify id fun _ => rfl⟩
  unknown := fun u h => ⟨(TableInv.runStable env).unknown u h.1, h.2.live, h.2.gone⟩

end MemberInv

/-! ## Members and flows -/

/-- What one function tells apart in a list, a finer one does. -/
theorem card_map_le {α β γ : Type} [DecidableEq β] [DecidableEq γ] {p : α → β} {q : α → γ} {l : List α}
    (h : ∀ x ∈ l, ∀ y ∈ l, p x = p y → q x = q y) :
    (l.map q).toFinset.card ≤ (l.map p).toFinset.card := by
  induction l with
  | nil => rfl
  | cons x l ih =>
      have ihl := ih fun y hy z hz => h y (List.mem_cons_of_mem x hy) z (List.mem_cons_of_mem x hz)
      rw [List.map_cons, List.map_cons, List.toFinset_cons, List.toFinset_cons]
      by_cases hx : p x ∈ (l.map p).toFinset
      · obtain ⟨y, hy, heq⟩ := List.mem_map.1 (List.mem_toFinset.1 hx)
        have hq : q x ∈ (l.map q).toFinset := by
          rw [List.mem_toFinset, ← h y (List.mem_cons_of_mem x hy) x List.mem_cons_self heq]
          exact List.mem_map.2 ⟨y, hy, rfl⟩
        rw [Finset.insert_eq_of_mem hx, Finset.insert_eq_of_mem hq]
        exact ihl
      · rw [Finset.card_insert_of_notMem hx]
        exact (Finset.card_insert_le _ _).trans (Nat.succ_le_succ ihl)

/-- The ephemeral pair of a protocol's identity is its only pair. -/
def SoleIn (env : Env) (protocol : ProtocolName) : Prop :=
  ∀ plugin identity spec, identityOf env protocol = some (plugin, identity) → plugin.condense = some spec →
    SolePair identity spec

/-- The digest tells the encodings of the values of these packets apart. -/
def DigestInjective (env : Env) (history : List Fold) : Prop :=
  ∀ f ∈ history, ∀ g ∈ history, ∀ e ∈ f.layer.fields.entries, ∀ e' ∈ g.layer.fields.entries,
    env.digest (encodeValue e.2) = env.digest (encodeValue e'.2) → encodeValue e.2 = encodeValue e'.2

instance (env : Env) (history : List Fold) : Decidable (DigestInjective env history) :=
  inferInstanceAs (Decidable (∀ f ∈ history, ∀ g ∈ history, ∀ e ∈ f.layer.fields.entries,
    ∀ e' ∈ g.layer.fields.entries, _ → _))

section Flows

variable {env : Env} {s : Stream}

/-- A folded packet, its flow key and its side of the group. -/
theorem Filed.side (h : Filed env s) (hnode : s.condensed.isSome = true) {f : Fold} (hf : f ∈ s.history) :
    ∃ plugin identity spec dir c base own other, identityOf env s.protocol = some (plugin, identity) ∧
      plugin.condense = some spec ∧ flowKey identity f.layer.fields = .ok (f.key, dir) ∧
      SideOf env identity spec f.layer.fields c base own other ∧ s.key = condensedKeySentinel :: c.anchor ∧
      varyingOf env s.protocol s.key f.layer = some (env.digest (encodeValue other)) := by
  obtain ⟨plugin, identity, dir, hid, hkey, hcond⟩ := h f hf
  obtain ⟨cs, c, hcs, hc, hk⟩ := hcond hnode
  obtain ⟨spec, hspec, hcands⟩ := candidatesOf_some hcs
  obtain ⟨base, own, other, hside⟩ := sideOf_candidate hcands hc
  refine ⟨plugin, identity, spec, dir, c, base, own, other, hid, hspec, hkey, hside, hk, ?_⟩
  rw [hk, varyingOf_eq hid hcs hc, hside.varying]

/-- In the history of a node equal flow keys have equal varying values, and with one pair the other way
round. -/
theorem Filed.key_varying (h : Filed env s) (hnode : s.condensed.isSome = true) {f g : Fold}
    (hf : f ∈ s.history) (hg : g ∈ s.history) :
    (f.key = g.key → varyingOf env s.protocol s.key f.layer = varyingOf env s.protocol s.key g.layer) ∧
      (DigestInjective env s.history → SoleIn env s.protocol →
        varyingOf env s.protocol s.key f.layer = varyingOf env s.protocol s.key g.layer → f.key = g.key) := by
  obtain ⟨plugin, identity, spec, dir, c, base, own, other, hid, hspec, hkf, hside, hk, hv⟩ := h.side hnode hf
  obtain ⟨plugin', identity', spec', dir', c', base', own', other', hid', hspec', hkg, hside', hk', hv'⟩ :=
    h.side hnode hg
  obtain ⟨rfl, rfl⟩ := Prod.mk.inj (Option.some.inj (hid.symm.trans hid'))
  obtain rfl := Option.some.inj (hspec.symm.trans hspec')
  obtain ⟨hsort, heph, -⟩ := identityOf_valid hid hspec
  have hanchor : c.anchor = c'.anchor := (List.cons.inj (hk.symm.trans hk')).2
  rw [hv, hv']
  constructor
  · intro hkeys
    rw [hkeys] at hkf
    rw [hside.varying_of_key hside' hsort heph hanchor hkf hkg]
  · intro hdigest hsole heq
    obtain ⟨e, he, rfl⟩ := hside.other_mem
    obtain ⟨e', he', rfl⟩ := hside'.other_mem
    exact hside.key_of_varying hside' (hsole plugin identity spec hid hspec) hsort hanchor
      (hdigest f hf g hg e he e' he' (Option.some.inj heq)) hkf hkg

theorem Filed.varying_some (h : Filed env s) (hnode : s.condensed.isSome = true) {f : Fold}
    (hf : f ∈ s.history) :
    varyingOf env s.protocol s.key f.layer = some ((varyingOf env s.protocol s.key f.layer).getD 0) := by
  obtain ⟨_, _, _, _, _, _, _, other, -, -, -, -, -, hv⟩ := h.side hnode hf
  rw [hv]
  rfl

/-- The varying values, as a map of the history. -/
theorem Filed.varyings_eq (h : Filed env s) (hnode : s.condensed.isSome = true) :
    varyings env s =
      (s.history.map fun f => (varyingOf env s.protocol s.key f.layer).getD 0).toFinset := by
  rw [varyings]
  rw [List.filterMap_congr fun f hf => h.varying_some hnode hf, List.filterMap_eq_map']

theorem Filed.card_varyings (h : Filed env s) (hnode : s.condensed.isSome = true) :
    (varyings env s).card ≤ (flowKeys s).card ∧
      (DigestInjective env s.history → SoleIn env s.protocol → (varyings env s).card = (flowKeys s).card) := by
  have hle : (varyings env s).card ≤ (flowKeys s).card := by
    rw [h.varyings_eq hnode]
    refine card_map_le fun f hf g hg heq => ?_
    rw [(h.key_varying hnode hf hg).1 heq]
  refine ⟨hle, fun hdigest hsole => Nat.le_antisymm hle ?_⟩
  rw [h.varyings_eq hnode]
  refine card_map_le fun f hf g hg heq => ?_
  refine (h.key_varying hnode hf hg).2 hdigest hsole ?_
  rw [h.varying_some hnode hf, h.varying_some hnode hg]
  exact congrArg some heq

end Flows

/-- Every condensed node ever stored. -/
theorem counted_of_reaches {env : Env} {ops : List Op} {a : Aggregator} (h : Reaches env ops a) {s : Stream}
    (hs : s ∈ a.everStreams) : Counted env s := by
  obtain ⟨-, htab, hinv⟩ := (MemberInv.runStable env).reaches h
  rcases List.mem_append.1 hs with hlive | hgone
  · obtain ⟨id, hid⟩ := mem_streams.1 hlive
    intro info hinfo
    obtain ⟨anchor, g, -, hg, hn⟩ := htab.groups.node_group (frames_of_get hid) (by
      show s.condensed.isSome = true
      rw [Option.mem_def.1 hinfo]
      rfl)
    exact (hinv.live hg hn hid).counted info hinfo
  · obtain ⟨e, he, rfl⟩ := List.mem_map.1 hgone
    exact hinv.gone e he

end Aggregator

open Aggregator

/-- **Member count.** In every run a condensed node counts no more members than distinct flow keys were folded
into it, and does not overflow while these are at most the cap; if the ephemeral pair is the only pair of the
key, it counts exactly the flow keys until it overflows. -/
theorem member_count {env : Env} {ops : List Op} {a : Aggregator} (h : Reaches env ops a) {s : Stream}
    (hs : s ∈ a.everStreams) (hdigest : DigestInjective env s.history) {info : CondensedInfo}
    (hinfo : s.condensed = some info) :
    info.memberFlows ≤ (flowKeys s).card ∧
      ((flowKeys s).card ≤ condenseMemberCap → info.overflow = false) ∧
      (SoleIn env s.protocol → info.overflow = false → info.memberFlows = (flowKeys s).card) := by
  have hnode : s.condensed.isSome = true := by rw [hinfo]; rfl
  obtain ⟨hflows, hover⟩ := counted_of_reaches h hs info hinfo
  obtain ⟨hle, heq⟩ := ((filed_rule env).reaches h s hs).card_varyings hnode
  refine ⟨?_, ?_, ?_⟩
  · rw [hflows]
    omega
  · intro hcap
    rw [← Bool.not_eq_true, hover]
    omega
  · intro hsole hfalse
    have hcap : ¬condenseMemberCap < (varyings env s).card := by
      rw [← hover, hfalse]
      exact Bool.false_ne_true
    rw [hflows, ← heq hdigest hsole]
    omega

/-- UDP flows under a threshold, with the last byte as the digest. -/
def lastByteEnv (condenseThreshold : Nat) : Env where
  engine := sampleEngine
  config := { eviction := .none, condenseThreshold := condenseThreshold, sink := false }
  digest := fun bytes => (bytes.getLast?.getD 0).toUInt64

theorem soleIn_udp (threshold : Nat) : SoleIn (lastByteEnv threshold) "udp" := by
  intro plugin identity spec hid hspec
  have hudp : identityOf (lastByteEnv threshold) "udp" =
      some ({ pairPlugin "udp" with condense := some ⟨⟨"src", some "dst"⟩⟩ }, pairIdentity) := rfl
  obtain ⟨rfl, rfl⟩ := Prod.mk.inj (Option.some.inj (hudp.symm.trans hid))
  obtain rfl := Option.some.inj hspec
  rw [SolePair]
  decide

/-- Five packets of endpoint 9: two flows are expanded, and two of the other three packets are one flow. -/
def fanOps : List Op := ([5, 6, 7, 8, 7] : List UInt64).map fun n => samplePacket 0 [sampleLayer "udp" 9 n]

/-- The node counts two members. -/
theorem member_count_fan :
    ∃ s ∈ (run (lastByteEnv 2) fanOps).everStreams, ∃ info, s.condensed = some info ∧
      info.memberFlows = (flowKeys s).card ∧ info.memberFlows = 2 := by
  have hany : ((run (lastByteEnv 2) fanOps).everStreams.any fun s => decide (s.protocol = "udp" ∧
      s.condensed = some ⟨2, "src", false⟩ ∧ DigestInjective (lastByteEnv 2) s.history)) = true := by decide +kernel
  obtain ⟨s, hs, hall⟩ := List.any_eq_true.1 hany
  obtain ⟨hprotocol, hinfo, hdigest⟩ := of_decide_eq_true hall
  have hcount := member_count (reaches_run _ fanOps (by decide)) hs hdigest hinfo
  exact ⟨s, hs, _, hinfo, hcount.2.2 (hprotocol ▸ soleIn_udp 2) rfl, rfl⟩

/-! ### Two pairs -/

/-- A plugin keyed by addresses and ports, which condenses by the ports. -/
def quadPlugin : LayerPlugin where
  name := "quad"
  parse := fun _ _ => .error (.malformed "ingest-only")
  streamIdentity := some ⟨[⟨"src", some "dst"⟩, ⟨"sport", some "dport"⟩], .endpointSort, none, []⟩
  condense := some ⟨⟨"sport", some "dport"⟩⟩

/-- The builder accepts it. -/
def quadBuilder : EngineBuilder where
  plugins := [quadPlugin]

/-- The registry of `quadBuilder`. -/
def quadRegistry : Registry :=
  match quadBuilder.build with
  | .ok registry => registry
  | .error _ => ⟨[], ∅, ∅, []⟩

/-- The engine of `quadBuilder`. -/
def quadEngine : Engine := ⟨quadRegistry, quadBuilder, rfl⟩

/-- An environment that condenses from the second flow on, with the last byte as the digest. -/
def quadEnv : Env where
  engine := quadEngine
  config := { eviction := .none, condenseThreshold := 1, sink := false }
  digest := fun bytes => (bytes.getLast?.getD 0).toUInt64

/-- A packet between two endpoints, each an address and a port. -/
def quadPacket (src dst sport dport : UInt64) : Op :=
  samplePacket 0 [⟨"quad", 0, 0, ⟨[("src", .u64 src), ("dst", .u64 dst), ("sport", .u64 sport),
    ("dport", .u64 dport)]⟩⟩]

/-- Three flows with port 9: the second and the third have the same ports between the addresses 1 and 2, but
port 9 is that of 1 in the one and that of 2 in the other. -/
def quadOps : List Op := [quadPacket 1 2 9 5, quadPacket 1 2 9 6, quadPacket 2 1 9 6]

/-- The condensed node counts one member for two flows. -/
theorem members_merged :
    Reaches quadEnv quadOps (run quadEnv quadOps) ∧
      ∃ s ∈ (run quadEnv quadOps).everStreams, s.condensed = some ⟨1, "sport", false⟩ ∧
        (flowKeys s).card = 2 ∧ DigestInjective quadEnv s.history := by
  refine ⟨reaches_run _ quadOps (by decide), ?_⟩
  have hany : ((run quadEnv quadOps).everStreams.any fun s => decide (s.condensed = some ⟨1, "sport", false⟩ ∧
      (flowKeys s).card = 2 ∧ DigestInjective quadEnv s.history)) = true := by decide +kernel
  obtain ⟨s, hs, hall⟩ := List.any_eq_true.1 hany
  exact ⟨s, hs, of_decide_eq_true hall⟩

end Pktflow.Flows
