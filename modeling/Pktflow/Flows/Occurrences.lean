import Pktflow.Flows.Unknown
import Mathlib.Algebra.Order.Ring.Nat
import Mathlib.Algebra.Order.Ring.WithTop
import Mathlib.Data.Nat.Cast.Order.Basic
import Mathlib.Order.Bounds.Basic

/-!
# What the unknown registry holds

A run of the registry is a list of occurrences under a fixed configuration. `Folds` says what one group
holds of a list of occurrences; `Spell` cuts a run at the moment the group of a key was last created.
The law `registry_exact` tells every group of every run from the occurrences of its key since then, and
every eviction as that of the one group with the least last-seen time and insertion.
-/

set_option autoImplicit false

namespace Pktflow.Flows

open Pktflow.Core Pktflow.Lib

/-- What one call of `UnknownRegistry::ingest` is told; the byte count is a `u32`. -/
structure Occurrence where
  diag : UnknownDiagnostics
  bytes : Nat
  ts : SystemTime
  endpoint : Option EndpointKey
  bytes_le : bytes ≤ u32Max

/-- A top score in the order of the source's `Option`: none is below every score. -/
def scoreRank : Option Nat → WithBot Nat
  | none => ⊥
  | some score => score

namespace Occurrence

/-- The shape of the occurrence. -/
def key (o : Occurrence) : UnknownKey := .ofContext o.diag.context

/-- The score of its best near miss. -/
def top (o : Occurrence) : WithBot Nat := scoreRank (topScore o.diag.nearMisses)

end Occurrence

/-! ## One group -/

/-- The occurrence whose near misses the group shows: the latest among those of the highest top score. -/
structure Best (os : List Occurrence) (o : Occurrence) : Prop where
  split : ∃ before after, os = before ++ o :: after ∧ (∀ p ∈ before, p.top ≤ o.top) ∧
    ∀ p ∈ after, p.top < o.top

/-- What a group holds of the occurrences `os` of its key. -/
structure Folds (samplesPerGroup : Nat) (k : UnknownKey) (os : List Occurrence) (g : UnknownGroup) :
    Prop where
  key : g.key = k
  count : g.count = os.length
  bytesTotal : g.bytesTotal = (os.map Occurrence.bytes).sum
  bytesMin : IsLeast {b | b ∈ os.map Occurrence.bytes} g.bytesMin
  bytesMax : IsGreatest {b | b ∈ os.map Occurrence.bytes} g.bytesMax
  firstSeen : IsLeast {t | t ∈ os.map Occurrence.ts} g.firstSeen
  lastSeen : IsGreatest {t | t ∈ os.map Occurrence.ts} g.lastSeen
  /-- The first distinct endpoints, up to the cap. -/
  endpoints : g.endpoints = (os.filterMap Occurrence.endpoint).eraseDups.take accumulateSetCap
  overflow : g.endpointsOverflow = true ↔
    accumulateSetCap < (os.filterMap Occurrence.endpoint).eraseDups.length
  nearMisses : ∃ o, Best os o ∧ g.nearMisses = o.diag.nearMisses
  /-- The last samples, in order. -/
  samples : g.samples = (os.map fun o => o.diag.sample).drop (os.length - samplesPerGroup)

section Group

variable {α : Type} [LinearOrder α]

theorem isLeast_snoc {l : List α} {m : α} (h : IsLeast {b | b ∈ l} m) (x : α) :
    IsLeast {b | b ∈ l ++ [x]} (min m x) := by
  have hset : {b | b ∈ l ++ [x]} = insert x {b | b ∈ l} := by
    ext b
    simp [or_comm]
  rw [hset, min_comm]
  exact h.insert x

theorem isGreatest_snoc {l : List α} {m : α} (h : IsGreatest {b | b ∈ l} m) (x : α) :
    IsGreatest {b | b ∈ l ++ [x]} (max m x) := by
  have hset : {b | b ∈ l ++ [x]} = insert x {b | b ∈ l} := by
    ext b
    simp [or_comm]
  rw [hset, max_comm]
  exact h.insert x

end Group

/-- The capped set of endpoints after one more occurrence. -/
theorem addEndpoint_spec {g : UnknownGroup} (eps : List EndpointKey)
    (hset : g.endpoints = eps.eraseDups.take accumulateSetCap)
    (hover : g.endpointsOverflow = true ↔ accumulateSetCap < eps.eraseDups.length)
    (ep : Option EndpointKey) :
    (g.addEndpoint ep).endpoints = (eps ++ ep.toList).eraseDups.take accumulateSetCap ∧
      ((g.addEndpoint ep).endpointsOverflow = true ↔
        accumulateSetCap < (eps ++ ep.toList).eraseDups.length) := by
  cases ep with
  | none => simpa [UnknownGroup.addEndpoint] using ⟨hset, hover⟩
  | some x =>
      simp only [UnknownGroup.addEndpoint, Option.toList_some]
      rw [eraseDups_snoc]
      have hlen : g.endpoints.length = min accumulateSetCap eps.eraseDups.length := by
        rw [hset, List.length_take]
      by_cases hmem : x ∈ g.endpoints
      · -- an endpoint of the set is one of those seen
        have hseen : x ∈ eps.eraseDups := by
          rw [hset] at hmem
          exact List.mem_of_mem_take hmem
        rw [if_pos hmem, if_pos hseen]
        exact ⟨hset, hover⟩
      · rw [if_neg hmem]
        by_cases hroom : g.endpoints.length < accumulateSetCap
        · -- with room left, the set holds all that was seen
          have hshort : eps.eraseDups.length < accumulateSetCap := by omega
          have hall : g.endpoints = eps.eraseDups := by
            rw [hset, List.take_of_length_le (by omega)]
          rw [if_pos hroom, if_neg (hall ▸ hmem)]
          constructor
          · rw [hall, List.take_of_length_le]
            rw [List.length_append, List.length_singleton]
            omega
          · rw [List.length_append, List.length_singleton]
            constructor
            · intro h
              have := hover.1 h
              omega
            · intro h
              omega
        · rw [if_neg hroom]
          have hfull : accumulateSetCap ≤ eps.eraseDups.length := by omega
          by_cases hseen : x ∈ eps.eraseDups
          · -- seen, but not in the set: seen past the cap
            rw [if_pos hseen]
            refine ⟨hset, iff_of_true rfl (lt_of_le_of_ne hfull fun heq => hmem ?_)⟩
            rw [hset, heq, List.take_length]
            exact hseen
          · rw [if_neg hseen]
            constructor
            · rw [List.take_append_of_le_length hfull]
              exact hset
            · rw [List.length_append, List.length_singleton]
              exact iff_of_true rfl (by omega)

/-- The comparison of the source is that of scores with a bottom. -/
theorem outranks_iff {nms : List (ProtocolName × Confidence)} {current : Option Nat} :
    outranks (topScore nms) current = true ↔ nms ≠ [] ∧ scoreRank current ≤ scoreRank (topScore nms) := by
  cases nms with
  | nil => simp [outranks, topScore]
  | cons m ms =>
      cases current with
      | none => simp [outranks, topScore, scoreRank]
      | some b => simp [outranks, topScore, scoreRank]

theorem eq_nil_of_top {o : Occurrence} (h : o.top = ⊥) : o.diag.nearMisses = [] := by
  rw [Occurrence.top] at h
  cases hnms : o.diag.nearMisses with
  | nil => rfl
  | cons m ms =>
      rw [hnms] at h
      exact absurd h (WithBot.coe_ne_bot (a := m.2.score))

/-- The near misses a group shows after one more occurrence. -/
theorem Best.snoc {os : List Occurrence} {b : Occurrence} (h : Best os b) (o : Occurrence) :
    ∃ b', Best (os ++ [o]) b' ∧ b'.diag.nearMisses =
      if outranks (topScore o.diag.nearMisses) (topScore b.diag.nearMisses) then o.diag.nearMisses
      else b.diag.nearMisses := by
  obtain ⟨before, after, hsplit, hbefore, hafter⟩ := h.split
  have hall : ∀ p ∈ os, p.top ≤ b.top := by
    intro p hp
    rw [hsplit] at hp
    rcases List.mem_append.1 hp with hp | hp
    · exact hbefore p hp
    · rcases List.mem_cons.1 hp with rfl | hp
      · exact le_refl _
      · exact le_of_lt (hafter p hp)
  by_cases hle : b.top ≤ o.top
  · -- the latest of the highest top score is the new one
    refine ⟨o, ⟨os, [], rfl, fun p hp => le_trans (hall p hp) hle, by simp⟩, ?_⟩
    split
    · rfl
    · rename_i hout
      rw [outranks_iff, not_and_or, not_not] at hout
      have hnil : o.diag.nearMisses = [] := hout.resolve_right (not_not.2 hle)
      have hbot : o.top = ⊥ := by
        rw [Occurrence.top]
        rw [hnil]
        rfl
      rw [hnil, eq_nil_of_top (le_bot_iff.1 (hbot ▸ hle))]
  · refine ⟨b, ⟨before, after ++ [o], ?_, hbefore, ?_⟩, ?_⟩
    · rw [hsplit, List.append_assoc, List.cons_append]
    · intro p hp
      rcases List.mem_append.1 hp with hp | hp
      · exact hafter p hp
      · rw [List.mem_singleton.1 hp]
        exact not_le.1 hle
    · rw [if_neg]
      rw [outranks_iff]
      exact fun hout => hle hout.2

/-- The fold of one occurrence into a group, with the group's data named. -/
theorem observe_eq (g : UnknownGroup) (o : Occurrence) (n : Nat) :
    g.observe o.diag o.bytes o.ts o.endpoint n =
      { g with
        count := g.count + 1
        bytesTotal := g.bytesTotal + o.bytes
        bytesMin := min g.bytesMin o.bytes
        bytesMax := max g.bytesMax o.bytes
        firstSeen := min g.firstSeen o.ts
        lastSeen := max g.lastSeen o.ts
        endpoints := (g.addEndpoint o.endpoint).endpoints
        endpointsOverflow := (g.addEndpoint o.endpoint).endpointsOverflow
        nearMisses := if outranks (topScore o.diag.nearMisses) (topScore g.nearMisses) then
          o.diag.nearMisses else g.nearMisses
        samples := (if n ≤ g.samples.length then g.samples.drop 1 else g.samples) ++ [o.diag.sample] } := by
  unfold UnknownGroup.observe UnknownGroup.addEndpoint
  cases o.endpoint with
  | none =>
      simp only
      split <;> rfl
  | some ep =>
      simp only
      split
      · split <;> rfl
      · split <;> split <;> rfl

namespace Folds

variable {n : Nat} {k : UnknownKey} {os : List Occurrence} {g : UnknownGroup}

/-- The first occurrence of a key, in the group `or_insert_with` starts from. -/
theorem first (hn : 1 ≤ n) (o : Occurrence) :
    Folds n k [o] ((UnknownGroup.new k o.ts).observe o.diag o.bytes o.ts o.endpoint n) := by
  have hset := addEndpoint_spec (g := UnknownGroup.new k o.ts) [] rfl (by simp [UnknownGroup.new]) o.endpoint
  have hfilter : [o].filterMap Occurrence.endpoint = [] ++ o.endpoint.toList := by
    cases h : o.endpoint with
    | none => simp [h]
    | some ep => simp [h]
  rw [observe_eq]
  constructor
  case key => rfl
  case count => rfl
  case bytesTotal => exact Nat.add_comm 0 o.bytes
  case bytesMin =>
    have hmin : min u32Max o.bytes = o.bytes := min_eq_right o.bytes_le
    simp only [UnknownGroup.new, hmin, List.map_cons, List.map_nil, List.mem_singleton]
    exact isLeast_singleton
  case bytesMax =>
    simp only [UnknownGroup.new, Nat.zero_max, List.map_cons, List.map_nil, List.mem_singleton]
    exact isGreatest_singleton
  case firstSeen =>
    simp only [UnknownGroup.new, min_self, List.map_cons, List.map_nil, List.mem_singleton]
    exact isLeast_singleton
  case lastSeen =>
    simp only [UnknownGroup.new, max_self, List.map_cons, List.map_nil, List.mem_singleton]
    exact isGreatest_singleton
  case endpoints =>
    rw [hfilter]
    exact hset.1
  case overflow =>
    rw [hfilter]
    exact hset.2
  case nearMisses =>
    refine ⟨o, ⟨[], [], rfl, by simp, by simp⟩, ?_⟩
    show (if outranks (topScore o.diag.nearMisses) none then o.diag.nearMisses else []) = _
    split
    · rfl
    · rename_i hout
      rw [outranks_iff, not_and_or, not_not] at hout
      exact (hout.resolve_right (not_not.2 bot_le)).symm
  case samples =>
    have hzero : [o].length - n = 0 := by
      rw [List.length_singleton]
      omega
    rw [hzero]
    simp [UnknownGroup.new]

/-- One more occurrence of the key. -/
theorem observe (hn : 1 ≤ n) (h : Folds n k os g) (o : Occurrence) :
    Folds n k (os ++ [o]) (g.observe o.diag o.bytes o.ts o.endpoint n) := by
  have hset := addEndpoint_spec _ h.endpoints h.overflow o.endpoint
  have hfilter : (os ++ [o]).filterMap Occurrence.endpoint =
      os.filterMap Occurrence.endpoint ++ o.endpoint.toList := by
    rw [List.filterMap_append]
    cases hep : o.endpoint with
    | none => simp [hep]
    | some ep => simp [hep]
  rw [observe_eq]
  constructor
  case key => exact h.key
  case count =>
    rw [List.length_append, List.length_singleton, ← h.count]
  case bytesTotal =>
    rw [List.map_append, List.sum_append, ← h.bytesTotal]
    rfl
  case bytesMin =>
    rw [List.map_append]
    exact isLeast_snoc h.bytesMin o.bytes
  case bytesMax =>
    rw [List.map_append]
    exact isGreatest_snoc h.bytesMax o.bytes
  case firstSeen =>
    rw [List.map_append]
    exact isLeast_snoc h.firstSeen o.ts
  case lastSeen =>
    rw [List.map_append]
    exact isGreatest_snoc h.lastSeen o.ts
  case endpoints =>
    rw [hfilter]
    exact hset.1
  case overflow =>
    rw [hfilter]
    exact hset.2
  case nearMisses =>
    obtain ⟨b, hbest, hshown⟩ := h.nearMisses
    obtain ⟨b', hbest', hshown'⟩ := hbest.snoc o
    refine ⟨b', hbest', ?_⟩
    rw [hshown', ← hshown]
  case samples =>
    -- the ring is full exactly when the run of the key is at least that long
    have hlen : g.samples.length = os.length - (os.length - n) := by
      rw [h.samples, List.length_drop, List.length_map]
    simp only [List.map_append, List.map_cons, List.map_nil, List.length_append, List.length_singleton]
    by_cases hfull : n ≤ g.samples.length
    · have hdrop : os.length + 1 - n = os.length - n + 1 := by omega
      rw [if_pos hfull, h.samples, List.drop_drop, hdrop, List.drop_append_of_le_length]
      rw [List.length_map]
      omega
    · have hdrop : os.length + 1 - n = os.length - n := by omega
      rw [if_neg hfull, h.samples, hdrop, List.drop_append_of_le_length]
      rw [List.length_map]
      omega

end Folds

/-! ## The registry -/

namespace UnknownRegistry

/-- One call of `ingest`. -/
def file (config : UnknownRegistryConfig) (r : UnknownRegistry) (o : Occurrence) : UnknownRegistry :=
  r.ingest o.diag o.bytes o.ts o.endpoint config

/-- The state in which `ingest` calls `enforce_max_groups`. -/
def filed (config : UnknownRegistryConfig) (r : UnknownRegistry) (o : Occurrence) : UnknownRegistry :=
  let r := if (r.seqs.lookup o.key).isSome then r
    else { r with seqs := r.seqs.insert o.key r.nextSeq, nextSeq := r.nextSeq + 1 }
  let group := ((r.groups.lookup o.key).getD (UnknownGroup.new o.key o.ts)).observe o.diag o.bytes o.ts
    o.endpoint config.samplesPerGroup
  { r with groups := r.groups.insert o.key group }

theorem file_eq (config : UnknownRegistryConfig) (r : UnknownRegistry) (o : Occurrence) :
    r.file config o = (r.filed config o).enforceMaxGroups config.maxGroups := rfl

/-- The registry after a run of calls under one configuration. -/
def runOf (config : UnknownRegistryConfig) (os : List Occurrence) : UnknownRegistry :=
  os.foldl (file config) {}

theorem runOf_snoc (config : UnknownRegistryConfig) (os : List Occurrence) (o : Occurrence) :
    runOf config (os ++ [o]) = (runOf config os).file config o := by
  simp [runOf]

/-- The groups and the sequence numbers name the same keys, every number once. -/
structure Indexed (r : UnknownRegistry) : Prop where
  keyed : ∀ {k : UnknownKey} {g : UnknownGroup}, r.groups.lookup k = some g → g.key = k
  keys : ∀ k, k ∈ r.seqs ↔ k ∈ r.groups
  seq_lt : ∀ {k : UnknownKey} {q : Nat}, r.seqs.lookup k = some q → q < r.nextSeq
  seq_inj : ∀ {k k' : UnknownKey} {q : Nat}, r.seqs.lookup k = some q → r.seqs.lookup k' = some q → k = k'

/-- The key `enforce_max_groups` compares a group by. -/
def rank (r : UnknownRegistry) (g : UnknownGroup) : SeenRank :=
  ⟨g.lastSeen, (r.seqs.lookup g.key).getD 0⟩

/-- The groups in some iteration order. -/
def values (r : UnknownRegistry) : List UnknownGroup := r.groups.entries.map Sigma.snd

variable {config : UnknownRegistryConfig} {r r' : UnknownRegistry} {o : Occurrence} {k : UnknownKey}
  {g : UnknownGroup}

theorem mem_values : g ∈ r.values ↔ ∃ k, r.groups.lookup k = some g := by
  rw [values]
  constructor
  · intro h
    obtain ⟨⟨k, g'⟩, hmem, rfl⟩ := List.mem_map.1 h
    exact ⟨k, AList.mem_lookup_iff.2 hmem⟩
  · rintro ⟨k, hk⟩
    exact List.mem_map.2 ⟨⟨k, g⟩, AList.mem_lookup_iff.1 hk, rfl⟩

/-- The group of the occurrence's key before the evictions. -/
def groupAfter (config : UnknownRegistryConfig) (r : UnknownRegistry) (o : Occurrence) : UnknownGroup :=
  ((r.groups.lookup o.key).getD (UnknownGroup.new o.key o.ts)).observe o.diag o.bytes o.ts o.endpoint
    config.samplesPerGroup

theorem groups_filed (config : UnknownRegistryConfig) (r : UnknownRegistry) (o : Occurrence) :
    (r.filed config o).groups = r.groups.insert o.key (r.groupAfter config o) := by
  rw [filed, groupAfter]
  split <;> rfl

theorem filed_of_mem (config : UnknownRegistryConfig) (h : o.key ∈ r.seqs) :
    (r.filed config o).seqs = r.seqs ∧ (r.filed config o).nextSeq = r.nextSeq := by
  rw [filed]
  rw [if_pos (AList.lookup_isSome.2 h)]
  exact ⟨rfl, rfl⟩

theorem filed_of_notMem (config : UnknownRegistryConfig) (h : o.key ∉ r.seqs) :
    (r.filed config o).seqs = r.seqs.insert o.key r.nextSeq ∧
      (r.filed config o).nextSeq = r.nextSeq + 1 := by
  rw [filed]
  rw [if_neg (mt AList.lookup_isSome.1 h)]
  exact ⟨rfl, rfl⟩

theorem key_groupAfter (h : Indexed r) (config : UnknownRegistryConfig) (o : Occurrence) :
    (r.groupAfter config o).key = o.key := by
  rw [groupAfter]
  rw [observe_eq]
  cases hk : r.groups.lookup o.key with
  | none => rfl
  | some g =>
      have hkey := h.keyed hk
      exact hkey

namespace Indexed

theorem new : Indexed {} where
  keyed := fun h => by cases h
  keys := fun k => iff_of_false (AList.notMem_empty k) (AList.notMem_empty k)
  seq_lt := fun h => by cases h
  seq_inj := fun h => by cases h

/-- A live group has a sequence number. -/
theorem exists_seq (h : Indexed r) (hg : r.groups.lookup k = some g) : ∃ q, r.seqs.lookup k = some q := by
  apply Option.isSome_iff_exists.1
  rw [AList.lookup_isSome, h.keys, ← AList.lookup_isSome, hg]
  rfl

theorem rank_inj (h : Indexed r) {k' : UnknownKey} {g' : UnknownGroup}
    (hg : r.groups.lookup k = some g) (hg' : r.groups.lookup k' = some g')
    (heq : r.rank g = r.rank g') : k = k' := by
  obtain ⟨q, hq⟩ := h.exists_seq hg
  obtain ⟨q', hq'⟩ := h.exists_seq hg'
  have hseq : (r.seqs.lookup g.key).getD 0 = (r.seqs.lookup g'.key).getD 0 := (SeenRank.mk.inj heq).2
  rw [h.keyed hg, h.keyed hg', hq, hq', Option.getD_some, Option.getD_some] at hseq
  subst hseq
  exact h.seq_inj hq hq'

/-- The group found in any iteration order is the one of least rank. -/
theorem argmin_spec (h : Indexed r) {vs : List UnknownGroup} (hvs : vs.Perm r.values)
    (hg : vs.argmin r.rank = some g) :
    r.groups.lookup g.key = some g ∧ ∀ k' g', r.groups.lookup k' = some g' → k' ≠ g.key →
      r.rank g < r.rank g' := by
  obtain ⟨k, hk⟩ := mem_values.1 (hvs.mem_iff.1 (List.argmin_mem hg))
  obtain rfl := h.keyed hk
  refine ⟨hk, fun k' g' hk' hne => lt_of_le_of_ne ?_ fun heq => hne ?_⟩
  · exact List.le_of_mem_argmin (hvs.mem_iff.2 (mem_values.2 ⟨k', hk'⟩)) hg
  · exact (h.rank_inj hk hk' heq).symm

/-- The evicted group does not depend on the iteration order. -/
theorem argmin_perm (h : Indexed r) {vs : List UnknownGroup} (hvs : vs.Perm r.values) :
    (vs.argmin r.rank).map UnknownGroup.key = r.coldest := by
  show _ = (r.values.argmin r.rank).map UnknownGroup.key
  cases hg : vs.argmin r.rank with
  | none =>
      rw [List.argmin_eq_none] at hg
      rw [hg] at hvs
      rw [← hvs.nil_eq]
      rfl
  | some g =>
      cases hg' : r.values.argmin r.rank with
      | none =>
          rw [List.argmin_eq_none] at hg'
          rw [hg'] at hvs
          rw [hvs.eq_nil] at hg
          cases hg
      | some g' =>
          obtain ⟨hk, hmin⟩ := h.argmin_spec hvs hg
          obtain ⟨hk', hmin'⟩ := h.argmin_spec (List.Perm.refl _) hg'
          by_contra hne
          have hne' : g.key ≠ g'.key := fun heq => hne (congrArg some heq)
          exact lt_asymm (hmin _ _ hk' hne'.symm) (hmin' _ _ hk hne')

theorem erase (h : Indexed r) (k : UnknownKey) :
    Indexed { r with groups := r.groups.erase k, seqs := r.seqs.erase k } where
  keyed := fun hk' => h.keyed (lookup_erase_eq_some.1 hk').2
  keys := by
    intro k'
    show k' ∈ r.seqs.erase k ↔ k' ∈ r.groups.erase k
    rw [AList.mem_erase, AList.mem_erase, h.keys]
  seq_lt := fun hq => h.seq_lt (lookup_erase_eq_some.1 hq).2
  seq_inj := fun hq hq' => h.seq_inj (lookup_erase_eq_some.1 hq).2 (lookup_erase_eq_some.1 hq').2

/-- A call before its evictions: a new key takes the next number. -/
theorem filed (h : Indexed r) (config : UnknownRegistryConfig) (o : Occurrence) :
    Indexed (r.filed config o) := by
  have hkeyed : ∀ {k g}, (r.filed config o).groups.lookup k = some g → g.key = k := by
    intro k g hk
    rw [groups_filed] at hk
    rcases lookup_insert_eq_some.1 hk with ⟨rfl, rfl⟩ | ⟨-, hk⟩
    · exact key_groupAfter h config o
    · exact h.keyed hk
  by_cases hmem : o.key ∈ r.seqs
  · obtain ⟨hseqs, hnext⟩ := filed_of_mem config hmem
    constructor
    case keyed => exact hkeyed
    case keys =>
      intro k
      rw [hseqs, groups_filed, AList.mem_insert, h.keys]
      constructor
      · exact .inr
      · rintro (rfl | hk)
        · exact (h.keys _).1 hmem
        · exact hk
    case seq_lt =>
      intro k q hq
      rw [hseqs] at hq
      rw [hnext]
      exact h.seq_lt hq
    case seq_inj =>
      intro k k' q hq hq'
      rw [hseqs] at hq hq'
      exact h.seq_inj hq hq'
  · obtain ⟨hseqs, hnext⟩ := filed_of_notMem config hmem
    -- the next number is above all that are taken
    have hlookup : ∀ {k q}, (r.filed config o).seqs.lookup k = some q →
        k = o.key ∧ q = r.nextSeq ∨ k ≠ o.key ∧ r.seqs.lookup k = some q := by
      intro k q hq
      rw [hseqs] at hq
      exact lookup_insert_eq_some.1 hq
    constructor
    case keyed => exact hkeyed
    case keys =>
      intro k
      rw [hseqs, groups_filed, AList.mem_insert, AList.mem_insert, h.keys]
    case seq_lt =>
      intro k q hq
      rw [hnext]
      rcases hlookup hq with ⟨-, rfl⟩ | ⟨-, hq⟩
      · exact Nat.lt_succ_self _
      · exact Nat.lt_succ_of_lt (h.seq_lt hq)
    case seq_inj =>
      intro k k' q hq hq'
      rcases hlookup hq with ⟨rfl, rfl⟩ | ⟨-, hq⟩
      · rcases hlookup hq' with ⟨rfl, -⟩ | ⟨-, hq'⟩
        · rfl
        · exact absurd (h.seq_lt hq') (lt_irrefl _)
      · rcases hlookup hq' with ⟨rfl, rfl⟩ | ⟨-, hq'⟩
        · exact absurd (h.seq_lt hq) (lt_irrefl _)
        · exact h.seq_inj hq hq'

end Indexed

/-! ## The evictions of a call -/

/-- What one iteration of `enforce_max_groups` does. -/
theorem enforceStep_eq_some {max : Nat} (h : enforceStep max r = some r') :
    max < r.groups.entries.length ∧ ∃ k, r.coldest = some k ∧
      r' = { r with groups := r.groups.erase k, seqs := r.seqs.erase k } := by
  rw [enforceStep] at h
  split at h
  · rename_i hover
    obtain ⟨k, hk, rfl⟩ := Option.map_eq_some_iff.1 h
    exact ⟨hover, k, hk, rfl⟩
  · cases h

/-- The evicted key is that of a live group. -/
theorem Indexed.lookup_coldest (h : Indexed r) (hk : r.coldest = some k) :
    ∃ g, r.groups.lookup k = some g ∧ r.values.argmin r.rank = some g := by
  obtain ⟨g, hg, rfl⟩ := Option.map_eq_some_iff.1 hk
  exact ⟨g, (h.argmin_spec (List.Perm.refl _) hg).1, hg⟩

theorem length_erase (h : r.groups.lookup k = some g) :
    (r.groups.erase k).entries.length + 1 = r.groups.entries.length := by
  have hmem : k ∈ r.groups.keys := AList.mem_keys.1 (AList.lookup_isSome.1 (by rw [h]; rfl))
  have hlen := List.length_erase_of_mem hmem
  rw [← AList.keys_erase] at hlen
  have hpos := List.length_pos_of_mem hmem
  simp only [AList.keys, List.keys, List.length_map] at hlen hpos
  omega

/-- `s` is a state on the way of the evictions from `r`: groups are gone, the rest is as it was. -/
structure Thinned (r s : UnknownRegistry) : Prop where
  indexed : Indexed s
  groups : ∀ {k : UnknownKey} {g : UnknownGroup}, s.groups.lookup k = some g → r.groups.lookup k = some g
  seqs : ∀ {k : UnknownKey} {q : Nat}, s.seqs.lookup k = some q → r.seqs.lookup k = some q
  nextSeq : s.nextSeq = r.nextSeq

theorem Thinned.step {max : Nat} {s t : UnknownRegistry} (h : Thinned r s)
    (hstep : enforceStep max s = some t) : Thinned r t := by
  obtain ⟨-, k, -, rfl⟩ := enforceStep_eq_some hstep
  exact ⟨h.indexed.erase k, fun hk => h.groups (lookup_erase_eq_some.1 hk).2,
    fun hq => h.seqs (lookup_erase_eq_some.1 hq).2, h.nextSeq⟩

theorem Indexed.thinned {max : Nat} {s : UnknownRegistry} (h : Indexed r)
    (hs : Loop.Passes (enforceStep max) r s) : Thinned r s :=
  hs.invariant (fun _ _ => Thinned.step) ⟨h, id, id, rfl⟩

/-- `enforce_max_groups` leaves its loop. -/
theorem Indexed.enforceMaxGroups_exit (h : Indexed r) (max : Nat) :
    enforceStep max (r.enforceMaxGroups max) = none := by
  refine Loop.iterate_exit (I := Indexed) (fun s => s.groups.entries.length) ?_ ?_ _ r h (le_refl _)
  · intro s t hs hstep
    obtain ⟨-, k, -, rfl⟩ := enforceStep_eq_some hstep
    exact hs.erase k
  · intro s t hs hstep
    obtain ⟨-, k, hk, rfl⟩ := enforceStep_eq_some hstep
    obtain ⟨g, hg, -⟩ := hs.lookup_coldest hk
    have hlen := length_erase hg
    show (s.groups.erase k).entries.length < s.groups.entries.length
    omega

/-- The evictions stop at the cap. -/
theorem Indexed.length_enforceMaxGroups (h : Indexed r) (max : Nat) :
    (r.enforceMaxGroups max).groups.entries.length ≤ max := by
  have hexit := h.enforceMaxGroups_exit max
  rw [enforceStep] at hexit
  split at hexit
  · -- over the cap there is a group to evict
    rename_i hover
    rw [Option.map_eq_none_iff] at hexit
    have hnil := List.argmin_eq_none.1 (Option.map_eq_none_iff.1 hexit)
    rw [List.map_eq_nil_iff] at hnil
    rw [hnil] at hover
    exact absurd hover (Nat.not_lt_zero _)
  · omega

theorem Indexed.file (h : Indexed r) (config : UnknownRegistryConfig) (o : Occurrence) :
    Thinned (r.filed config o) (r.file config o) :=
  (h.filed config o).thinned (Loop.passes_iterate _ _ _)

theorem indexed_runOf (config : UnknownRegistryConfig) (os : List Occurrence) :
    Indexed (runOf config os) := by
  induction os using List.reverseRecOn with
  | nil => exact Indexed.new
  | append_singleton os o ih =>
      rw [runOf_snoc]
      exact (ih.file config o).indexed

/-! ## Since the group was created -/

/-- The key had no group before `after`, and has had one ever since its first call. -/
structure Spell (config : UnknownRegistryConfig) (k : UnknownKey) (before after : List Occurrence) :
    Prop where
  absent : k ∉ (runOf config before).groups
  present : ∀ mid, mid ≠ [] → mid <+: after → k ∈ (runOf config (before ++ mid)).groups

/-- The groups after a call: that of the occurrence, and others as they were. -/
theorem lookup_file (hr : Indexed r) (hg : (r.file config o).groups.lookup k = some g) :
    k = o.key ∧ g = r.groupAfter config o ∨ k ≠ o.key ∧ r.groups.lookup k = some g := by
  have hfiled := (hr.file config o).groups hg
  rw [groups_filed] at hfiled
  exact lookup_insert_eq_some.1 hfiled

/-- The sequence numbers before the evictions of a call: a key without a group takes the next. -/
theorem lookup_seqs_filed (hr : Indexed r) (config : UnknownRegistryConfig) :
    (r.filed config o).seqs.lookup k =
      if k = o.key ∧ k ∉ r.groups then some r.nextSeq else r.seqs.lookup k := by
  by_cases hmem : o.key ∈ r.seqs
  · rw [(filed_of_mem config hmem).1, if_neg]
    rintro ⟨rfl, habs⟩
    exact habs ((hr.keys _).1 hmem)
  · rw [(filed_of_notMem config hmem).1]
    by_cases heq : k = o.key
    · subst heq
      rw [AList.lookup_insert, if_pos ⟨rfl, fun h => hmem ((hr.keys _).2 h)⟩]
    · rw [AList.lookup_insert_ne heq, if_neg fun h => heq h.1]

theorem nextSeq_file (hr : Indexed r) :
    (r.file config o).nextSeq = if o.key ∈ r.groups then r.nextSeq else r.nextSeq + 1 := by
  rw [(hr.file config o).nextSeq]
  by_cases hmem : o.key ∈ r.seqs
  · rw [(filed_of_mem config hmem).2, if_pos ((hr.keys _).1 hmem)]
  · rw [(filed_of_notMem config hmem).2, if_neg fun h => hmem ((hr.keys _).2 h)]

theorem nextSeq_le_append (config : UnknownRegistryConfig) (os os' : List Occurrence) :
    (runOf config os).nextSeq ≤ (runOf config (os ++ os')).nextSeq := by
  induction os' using List.reverseRecOn with
  | nil => rw [List.append_nil]
  | append_singleton os' o ih =>
      rw [← List.append_assoc, runOf_snoc, nextSeq_file (indexed_runOf config _)]
      split <;> omega

namespace Spell

variable {before after : List Occurrence}

/-- A further call that leaves the key a group. -/
theorem snoc (h : Spell config k before after) (o : Occurrence)
    (hk : k ∈ (runOf config (before ++ (after ++ [o]))).groups) : Spell config k before (after ++ [o]) := by
  refine ⟨h.absent, fun mid hne hmid => ?_⟩
  rcases List.prefix_concat_iff.1 hmid with rfl | hmid
  · exact hk
  · exact h.present mid hne hmid

/-- The moment of the creation is determined. -/
theorem unique {before' after' : List Occurrence} (h : Spell config k before after)
    (h' : Spell config k before' after') (heq : before ++ after = before' ++ after') : before = before' := by
  -- a longer `before` would hold a moment with a group
  have hle : ∀ {b a b' a' : List Occurrence}, Spell config k b a → Spell config k b' a' →
      b ++ a = b' ++ a' → b'.length ≤ b.length := by
    intro b a b' a' hs hs' heq
    by_contra hlt
    obtain ⟨mid, rfl⟩ := List.prefix_of_prefix_length_le (List.prefix_append b a)
      (heq ▸ List.prefix_append b' a') (by omega)
    have hne : mid ≠ [] := by
      rintro rfl
      simp at hlt
    rw [List.append_assoc] at heq
    refine hs'.absent (hs.present mid hne ?_)
    rw [List.append_cancel_left heq]
    exact List.prefix_append mid a'
  have hlen : before.length = before'.length := Nat.le_antisymm (hle h' h heq.symm) (hle h h' heq)
  exact (List.append_inj heq hlen).1

/-- The call that created the group took a sequence number. -/
theorem nextSeq_lt (h : Spell config k before (o :: after)) :
    (runOf config before).nextSeq < (runOf config (before ++ [o])).nextSeq := by
  have hr := indexed_runOf config before
  have hmem := h.present [o] (by simp) (List.prefix_append [o] after)
  rw [runOf_snoc] at hmem ⊢
  obtain ⟨g, hg⟩ := Option.isSome_iff_exists.1 (AList.lookup_isSome.2 hmem)
  have hkey : o.key ∉ (runOf config before).groups := by
    rcases lookup_file hr hg with ⟨rfl, -⟩ | ⟨-, hold⟩
    · exact h.absent
    · exact absurd (AList.lookup_isSome.1 (by rw [hold]; rfl)) h.absent
  rw [nextSeq_file hr, if_neg hkey]
  exact Nat.lt_succ_self _

end Spell

/-- What a run leaves of a key: the fold of its occurrences since its group was created, and the
sequence number of that moment. -/
theorem lookup_runOf (hn : 1 ≤ config.samplesPerGroup) (os : List Occurrence) :
    ∀ {k : UnknownKey} {g : UnknownGroup}, (runOf config os).groups.lookup k = some g →
      ∃ before after, os = before ++ after ∧ Spell config k before after ∧
        Folds config.samplesPerGroup k (after.filter fun o => o.key = k) g ∧
        (runOf config os).seqs.lookup k = some (runOf config before).nextSeq := by
  induction os using List.reverseRecOn with
  | nil =>
      intro k g hg
      cases hg
  | append_singleton os o ih =>
      intro k g hg
      have hr := indexed_runOf config os
      have hmem : k ∈ (runOf config (os ++ [o])).groups := AList.lookup_isSome.1 (by rw [hg]; rfl)
      -- the evictions leave the numbers of the groups they leave
      have hseq : (runOf config (os ++ [o])).seqs.lookup k =
          if k = o.key ∧ k ∉ (runOf config os).groups then some (runOf config os).nextSeq
          else (runOf config os).seqs.lookup k := by
        obtain ⟨q, hq⟩ := (indexed_runOf config (os ++ [o])).exists_seq hg
        rw [hq, ← lookup_seqs_filed hr config (o := o)]
        rw [runOf_snoc] at hq
        exact ((hr.file config o).seqs hq).symm
      rw [runOf_snoc] at hg
      rcases lookup_file hr hg with ⟨rfl, rfl⟩ | ⟨hne, hold⟩
      · cases hold : (runOf config os).groups.lookup o.key with
        | none =>
            -- created by this call
            have habs : o.key ∉ (runOf config os).groups := AList.lookup_eq_none.1 hold
            have hstart : Spell config o.key os [] :=
              ⟨habs, fun mid hne hmid => absurd (List.prefix_nil.1 hmid) hne⟩
            refine ⟨os, [o], rfl, hstart.snoc o hmem, ?_, ?_⟩
            · rw [groupAfter]
              rw [hold, List.filter_cons_of_pos (by simp), List.filter_nil]
              exact Folds.first hn o
            · rw [hseq, if_pos ⟨rfl, habs⟩]
        | some g =>
            obtain ⟨before, after, rfl, hspell, hfolds, hborn⟩ := ih hold
            refine ⟨before, after ++ [o], List.append_assoc _ _ _, hspell.snoc o ?_, ?_, ?_⟩
            · rw [← List.append_assoc]
              exact hmem
            · rw [groupAfter]
              rw [hold, List.filter_append, List.filter_cons_of_pos (by simp), List.filter_nil]
              exact hfolds.observe hn o
            · rw [hseq, if_neg, hborn]
              rintro ⟨-, habs⟩
              exact habs (AList.lookup_isSome.1 (by rw [hold]; rfl))
      · obtain ⟨before, after, rfl, hspell, hfolds, hborn⟩ := ih hold
        refine ⟨before, after ++ [o], List.append_assoc _ _ _, hspell.snoc o ?_, ?_, ?_⟩
        · rw [← List.append_assoc]
          exact hmem
        · rw [List.filter_append, List.filter_cons_of_neg (by simpa using Ne.symm hne), List.filter_nil,
            List.append_nil]
          exact hfolds
        · rw [hseq, if_neg fun h => hne h.1, hborn]

/-- The key's group was created by the call with that index; one without a group in the run `os` is
created by the next call. -/
def Born (config : UnknownRegistryConfig) (os : List Occurrence) (k : UnknownKey) (n : Nat) : Prop :=
  ∃ before after, os = before ++ after ∧ before.length = n ∧ Spell config k before after

/-- Sequence numbers order the groups by creation. -/
theorem nextSeq_lt_of_born {os : List Occurrence}
    {before after before' after' : List Occurrence} (hos : os = before ++ after)
    (hos' : os = before' ++ after') (h : Spell config k before after)
    (hlt : before.length < before'.length) :
    (runOf config before).nextSeq < (runOf config before').nextSeq := by
  obtain ⟨mid, rfl⟩ := List.prefix_of_prefix_length_le (hos ▸ List.prefix_append before after)
    (hos' ▸ List.prefix_append before' after') (by omega)
  cases mid with
  | nil => simp at hlt
  | cons o mid =>
      have hafter : after = o :: (mid ++ after') := by
        rw [hos, List.append_assoc] at hos'
        exact List.append_cancel_left hos'
      rw [hafter] at h
      have hmid : before ++ o :: mid = before ++ [o] ++ mid := by simp
      rw [hmid]
      exact lt_of_lt_of_le h.nextSeq_lt (nextSeq_le_append config _ mid)

/-- A group on the way of the evictions of a call has a creation, and the number of that moment. -/
theorem exists_born (hn : 1 ≤ config.samplesPerGroup) {os : List Occurrence} {s : UnknownRegistry}
    (hs : Thinned ((runOf config os).filed config o) s) (hg : s.groups.lookup k = some g) :
    ∃ before after, os = before ++ after ∧ Spell config k before after ∧
      s.seqs.lookup k = some (runOf config before).nextSeq := by
  have hr := indexed_runOf config os
  obtain ⟨q, hq⟩ := hs.indexed.exists_seq hg
  have hq' := hs.seqs hq
  rw [lookup_seqs_filed hr _] at hq'
  by_cases hmem : k ∈ (runOf config os).groups
  · obtain ⟨g₀, hg₀⟩ := Option.isSome_iff_exists.1 (AList.lookup_isSome.2 hmem)
    obtain ⟨before, after, hos, hspell, -, hborn⟩ := lookup_runOf hn os hg₀
    refine ⟨before, after, hos, hspell, ?_⟩
    rw [if_neg fun h => h.2 hmem] at hq'
    rw [hq, ← hq', hborn]
  · -- created by this very call
    have hfiled := hs.groups hg
    have hkey : k = o.key := by
      by_contra hne
      rw [groups_filed, AList.lookup_insert_ne hne] at hfiled
      exact hmem (AList.lookup_isSome.1 (by rw [hfiled]; rfl))
    rw [if_pos ⟨hkey, hmem⟩] at hq'
    refine ⟨os, [], (List.append_nil os).symm, ⟨hmem, ?_⟩, hq.trans hq'.symm⟩
    exact fun mid hne hmid => absurd (List.prefix_nil.1 hmid) hne

/-- What holds of the registry after the run `os`, and of every eviction of a further call. -/
structure Exact (config : UnknownRegistryConfig) (os : List Occurrence) : Prop where
  within : (runOf config os).groups.entries.length ≤ config.maxGroups
  keys : ∀ k, k ∈ (runOf config os).seqs ↔ k ∈ (runOf config os).groups
  /-- Every group is the fold of its key's occurrences since it was last created. -/
  folds : ∀ k g, (runOf config os).groups.lookup k = some g → ∃ before after, os = before ++ after ∧
    Spell config k before after ∧
    Folds config.samplesPerGroup k (after.filter fun o => o.key = k) g
  /-- A further call files its occurrence: no group is gone before the evictions. -/
  files : ∀ o k, ((runOf config os).filed config o).groups.lookup k =
    if k = o.key then some ((runOf config os).groupAfter config o) else (runOf config os).groups.lookup k
  /-- The registry after the call is the end of its evictions. -/
  ends : ∀ o, Loop.Passes (enforceStep config.maxGroups) ((runOf config os).filed config o)
      (runOf config (os ++ [o])) ∧
    enforceStep config.maxGroups (runOf config (os ++ [o])) = none
  /-- An eviction is over the cap, and of the group whose last-seen time and creation are least, whatever
  the order in which the groups are visited. -/
  evicts : ∀ o s t, Loop.Passes (enforceStep config.maxGroups) ((runOf config os).filed config o) s →
    enforceStep config.maxGroups s = some t → config.maxGroups < s.groups.entries.length ∧ ∃ k g n,
      t = { s with groups := s.groups.erase k, seqs := s.seqs.erase k } ∧
      s.groups.lookup k = some g ∧ Born config os k n ∧
      (∀ k' g', s.groups.lookup k' = some g' → k' ≠ k → ∃ n', Born config os k' n' ∧
        (g.lastSeen < g'.lastSeen ∨ g.lastSeen = g'.lastSeen ∧ n < n')) ∧
      ∀ vs : List UnknownGroup, vs.Perm s.values → (vs.argmin s.rank).map UnknownGroup.key = some k

/-- **Every run of the registry is exact.** -/
theorem registry_exact (config : UnknownRegistryConfig) (hn : 1 ≤ config.samplesPerGroup)
    (os : List Occurrence) : Exact config os := by
  constructor
  case within =>
    induction os using List.reverseRecOn with
    | nil => exact Nat.zero_le _
    | append_singleton os o _ =>
        rw [runOf_snoc, file_eq]
        exact ((indexed_runOf config os).filed config o).length_enforceMaxGroups config.maxGroups
  case keys => exact (indexed_runOf config os).keys
  case folds =>
    intro k g hg
    obtain ⟨before, after, hos, hspell, hfolds, -⟩ := lookup_runOf hn os hg
    exact ⟨before, after, hos, hspell, hfolds⟩
  case files =>
    intro o k
    rw [groups_filed]
    split
    · rename_i heq
      rw [heq, AList.lookup_insert]
    · rename_i hne
      exact AList.lookup_insert_ne hne
  case ends =>
    intro o
    rw [runOf_snoc, file_eq]
    constructor
    · exact Loop.passes_iterate _ _ _
    · exact ((indexed_runOf config os).filed config o).enforceMaxGroups_exit config.maxGroups
  case evicts =>
    intro o s t hs hstep
    have hthin := ((indexed_runOf config os).filed config o).thinned hs
    obtain ⟨hover, k, hk, rfl⟩ := enforceStep_eq_some hstep
    obtain ⟨g, hg, hmin⟩ := hthin.indexed.lookup_coldest hk
    obtain ⟨before, after, hos, hspell, hseq⟩ := exists_born hn hthin hg
    refine ⟨hover, k, g, before.length, rfl, hg, ⟨before, after, hos, rfl, hspell⟩, ?_,
      fun vs hvs => (hthin.indexed.argmin_perm hvs).trans hk⟩
    intro k' g' hg' hne
    obtain ⟨before', after', hos', hspell', hseq'⟩ := exists_born hn hthin hg'
    refine ⟨before'.length, ⟨before', after', hos', rfl, hspell'⟩, ?_⟩
    have hkey : g.key = k := hthin.indexed.keyed hg
    have hlt := (hthin.indexed.argmin_spec (List.Perm.refl _) hmin).2 k' g' hg' (hkey ▸ hne)
    rcases SeenRank.le_iff.1 (le_of_lt hlt) with hseen | ⟨hseen, -⟩
    · exact .inl hseen
    · refine .inr ⟨hseen, ?_⟩
      by_contra hnot
      -- an earlier creation would have the lower rank
      have hrank : s.rank g' ≤ s.rank g := by
        refine SeenRank.le_iff.2 (.inr ⟨hseen.symm, ?_⟩)
        show (s.seqs.lookup g'.key).getD 0 ≤ (s.seqs.lookup g.key).getD 0
        rw [hkey, hthin.indexed.keyed hg', hseq, hseq']
        rcases Nat.lt_or_eq_of_le (Nat.le_of_not_lt hnot) with hlt' | heq
        · exact le_of_lt (nextSeq_lt_of_born hos' hos hspell' hlt')
        · rw [(List.append_inj (hos'.symm.trans hos) heq).1]
      exact absurd hlt (not_lt.2 hrank)

/-- An occurrence behind a protocol, without near misses. -/
def plainOccurrence (predecessor : ProtocolName) (ts : SystemTime) : Occurrence where
  diag := ⟨.noHeuristicWinner predecessor, [], [7]⟩
  bytes := 1
  ts := ts
  endpoint := none
  bytes_le := by decide

/-- Four shapes, the first of them twice. -/
def fourShapes : List Occurrence :=
  [plainOccurrence "eth" 3, plainOccurrence "ipv4" 4, plainOccurrence "eth" 5, plainOccurrence "udp" 4,
    plainOccurrence "tcp" 4]

/-- Room for two groups: of the shapes last seen at one time the earlier created go, the shape seen
later stays though it is the oldest. -/
theorem registry_exact_sample :
    Exact { maxGroups := 2, samplesPerGroup := 2 } fourShapes ∧
    (runOf { maxGroups := 2, samplesPerGroup := 2 } fourShapes).groups.keys =
      [⟨"tcp", none⟩, ⟨"eth", none⟩] ∧
    ((runOf { maxGroups := 2, samplesPerGroup := 2 } fourShapes).groups.lookup ⟨"eth", none⟩).map
      (fun g => (g.count, g.firstSeen, g.lastSeen)) = some (2, 3, 5) := by
  refine ⟨registry_exact _ ?_ _, ?_, ?_⟩
  · show 1 ≤ 2
    omega
  · decide
  · decide

end UnknownRegistry

end Pktflow.Flows
