import Pktflow.Flows.Folds
import Pktflow.Plugins.Transport
import Pktflow.View.Record

/-!
# Rollups in stream records

A stream's rollup slots follow its plugin's declarations one by one, while the JSON object and
`RollupSet::get` know slots by field name only. The record shows every slot exactly if no two
declarations of the plugin name the same field; those of `Tcp` do.
-/

set_option autoImplicit false

namespace Pktflow.Flows

open Pktflow.Core

/-- Whether a slot is one for declarations of this kind. -/
def Rollup.isOf : RollupKind → Rollup → Bool
  | .accumulate, .accumulate _ _ _ => true
  | .sample, .sample _ _ => true
  | .series _, .series _ _ _ => true
  | _, _ => false

/-- Whether a slot belongs to a declaration. -/
def Slot (spec : RollupSpec) (e : FieldName × Rollup) : Prop := e.1 = spec.field ∧ e.2.isOf spec.kind = true

theorem Rollup.isOf_ofKind (kind : RollupKind) (seriesDefaultCap : Nat) (seriesMaxCap : Option Nat) :
    (Rollup.ofKind seriesDefaultCap seriesMaxCap kind).isOf kind = true := by
  cases kind <;> rfl

theorem Rollup.isOf_observe (kind : RollupKind) (base ts : SystemTime) (dir : PacketDirection) (v : Value)
    (r : Rollup) : (r.observe base ts dir v).isOf kind = r.isOf kind := by
  cases r with
  | accumulate values count overflow =>
      rw [observe]
      split
      · cases kind <;> rfl
      · split
        · cases kind <;> rfl
        · cases kind <;> rfl
  | sample first last => cases kind <;> rfl
  | series ring cap truncated =>
      rw [observe]
      split
      · cases kind <;> rfl
      · cases kind <;> rfl

theorem RollupSet.slots_new (specs : List RollupSpec) (seriesDefaultCap : Nat)
    (seriesMaxCap : Option Nat) :
    List.Forall₂ Slot specs (RollupSet.new specs seriesDefaultCap seriesMaxCap).entries := by
  induction specs with
  | nil => exact List.Forall₂.nil
  | cons spec specs ih => exact List.Forall₂.cons ⟨rfl, Rollup.isOf_ofKind _ _ _⟩ ih

theorem RollupSet.slots_apply {specs : List RollupSpec} {set : RollupSet}
    (h : List.Forall₂ Slot specs set.entries) (fields : FieldMap) (base ts : SystemTime)
    (dir : PacketDirection) : List.Forall₂ Slot specs (set.apply fields base ts dir).entries := by
  refine List.forall₂_map_right_iff.2 (h.imp ?_)
  rintro spec ⟨field, slot⟩ ⟨hfield, hkind⟩
  cases hv : fields.get field with
  | none => simpa only [hv] using ⟨hfield, hkind⟩
  | some v =>
      exact ⟨hfield, by rw [Rollup.isOf_observe]; exact hkind⟩

namespace Aggregator

/-- The slots of a stream are those its protocol declares. -/
def SlotsDeclared (env : Env) (s : Stream) : Prop :=
  ∃ plugin identity, identityOf env s.protocol = some (plugin, identity) ∧
    List.Forall₂ Slot identity.rollups s.rollups.entries

theorem slotsDeclared_rule (env : Env) : FoldRule env (SlotsDeclared env) where
  facts := fun _ => Iff.rfl
  tail := fun _ _ h => h
  count := fun _ h => h
  overflow := fun _ h => h
  fresh := by
    intro layer identity condense key dir ts s hk hs
    obtain ⟨plugin, hid, -⟩ := hk.registered
    cases hs with
    | flow _ _ _ => exact ⟨plugin, identity, hid, RollupSet.slots_new _ _ _⟩
    | node _ _ _ _ _ => exact ⟨plugin, identity, hid, RollupSet.slots_new _ _ _⟩
  absorb := by
    intro layer identity condense key dir d s ts origlen _ _ h
    obtain ⟨plugin, declared, hid, hslots⟩ := h
    rw [Stream.absorb_eq]
    exact ⟨plugin, declared, hid, RollupSet.slots_apply hslots _ _ _ _⟩

end Aggregator

end Pktflow.Flows

namespace Pktflow.View

open Pktflow.Core Pktflow.Flows Pktflow.Lib Pktflow.Plugins

/-- The kind of a rollup as its object names it. -/
def kindName : RollupKind → String
  | .accumulate => "accumulate"
  | .sample => "sample"
  | .series _ => "series"

/-- The record of a stream loses no rollup that the stream's identity declares. -/
structure KeepsRollups (fmt : Formats) (seqOf : StreamId → Option Nat) (identity : StreamIdentity)
    (s : Stream) : Prop where
  /-- One entry of the `rollups` object for each declaration. -/
  entries : (streamRecord fmt s seqOf).rollups.length = identity.rollups.length
  /-- Each declaration has its slot, whose contents stand under its field, in an object that names the kind. -/
  shown : ∀ (i : Nat) (spec : RollupSpec), identity.rollups[i]? = some spec → ∃ slot members,
    s.rollups.entries[i]? = some (spec.field, slot) ∧ slot.isOf spec.kind = true ∧
      rollupJson fmt s.firstSeen s.protocol spec.field slot = .obj members ∧
      SortedMap.get members "kind" = some (.str (kindName spec.kind)) ∧
      (streamRecord fmt s seqOf).rollups.get spec.field = some (.obj members)
  /-- Every slot is found by its field name. -/
  reachable : ∀ (field : FieldName) (slot : Rollup), (field, slot) ∈ s.rollups.entries →
    s.rollups.get field = some slot ∨ (streamRecord fmt s seqOf).rollups.get field =
      some (rollupJson fmt s.firstSeen s.protocol field slot)

section Slots

variable {fmt : Formats} {seqOf : StreamId → Option Nat} {identity : StreamIdentity} {s : Stream}

theorem fields_of_slots {specs : List RollupSpec} {entries : List (FieldName × Rollup)}
    (h : List.Forall₂ Slot specs entries) : entries.map Prod.fst = specs.map RollupSpec.field := by
  induction h with
  | nil => rfl
  | cons hslot _ ih => rw [List.map_cons, List.map_cons, hslot.1, ih]

/-- The fields of the `rollups` object are those of the slots. -/
theorem fields_rollupsJson (s : Stream) :
    (s.rollups.entries.map fun e => (e.1, rollupJson fmt s.firstSeen s.protocol e.1 e.2)).map Prod.fst =
      s.rollups.entries.map Prod.fst := by
  rw [List.map_map]
  rfl

/-- A record with an entry for each declaration has declarations of distinct fields. -/
theorem KeepsRollups.nodup (hslots : List.Forall₂ Slot identity.rollups s.rollups.entries)
    (h : KeepsRollups fmt seqOf identity s) : (identity.rollups.map RollupSpec.field).Nodup := by
  have hlen : (rollupsJson fmt s).length = s.rollups.entries.length :=
    h.entries.trans hslots.length_eq
  have hnodup := (SortedMap.length_ofList_eq_iff _).1
    (hlen.trans (List.length_map (f := fun e : FieldName × Rollup =>
      (e.1, rollupJson fmt s.firstSeen s.protocol e.1 e.2))).symm)
  rw [fields_rollupsJson, fields_of_slots hslots] at hnodup
  exact hnodup

/-- The entry of a field is its slot, if no other slot has the field. -/
theorem get_rollupsJson (hnodup : (s.rollups.entries.map Prod.fst).Nodup) {field : FieldName}
    {slot : Rollup} (he : (field, slot) ∈ s.rollups.entries) :
    (rollupsJson fmt s).get field = some (rollupJson fmt s.firstSeen s.protocol field slot) := by
  refine SortedMap.get_ofList (e := (field, rollupJson fmt s.firstSeen s.protocol field slot)) ?_ ?_
  · rw [fields_rollupsJson]
    exact hnodup
  · exact List.mem_map.2 ⟨(field, slot), he, rfl⟩

theorem get_first {k : String} {v : Json} {rest : List (String × Json)} (h : k ∉ rest.map Prod.fst) :
    SortedMap.get (SortedMap.ofList ((k, v) :: rest)) k = some v :=
  SortedMap.get_ofList_of_split (e := (k, v)) (List.nil_append _).symm h

/-- The object of a slot names the kind of the slot. -/
theorem kind_rollupJson (fmt : Formats) {kind : RollupKind} {slot : Rollup} (h : slot.isOf kind = true)
    (base : SystemTime) (protocol : ProtocolName) (field : FieldName) : ∃ members,
      rollupJson fmt base protocol field slot = .obj members ∧
        SortedMap.get members "kind" = some (.str (kindName kind)) := by
  cases kind <;> cases slot
  case accumulate.accumulate | sample.sample | series.series =>
    refine ⟨_, rfl, get_first ?_⟩
    simp
  all_goals cases h

theorem keepsRollups_of_nodup (hslots : List.Forall₂ Slot identity.rollups s.rollups.entries)
    (hnodup : (identity.rollups.map RollupSpec.field).Nodup) : KeepsRollups fmt seqOf identity s := by
  rw [← fields_of_slots hslots] at hnodup
  refine ⟨?_, ?_, ?_⟩
  · have hlen := (SortedMap.length_ofList_eq_iff
      (s.rollups.entries.map fun e => (e.1, rollupJson fmt s.firstSeen s.protocol e.1 e.2))).2
      (by rw [fields_rollupsJson]; exact hnodup)
    rw [List.length_map] at hlen
    exact hlen.trans hslots.length_eq.symm
  · intro i spec hi
    obtain ⟨hlt, rfl⟩ := List.getElem?_eq_some_iff.1 hi
    have hlt' : i < s.rollups.entries.length := hslots.length_eq ▸ hlt
    obtain ⟨hfield, hkind⟩ := List.Forall₂.get hslots hlt hlt'
    obtain ⟨members, hobject, hname⟩ := kind_rollupJson fmt hkind s.firstSeen s.protocol identity.rollups[i].field
    refine ⟨(s.rollups.entries.get ⟨i, hlt'⟩).2, members, ?_, hkind, hobject, hname, ?_⟩
    · rw [List.getElem?_eq_getElem hlt']
      exact congrArg some (Prod.ext hfield rfl)
    · rw [← hobject]
      apply get_rollupsJson hnodup
      have hmem := List.get_mem s.rollups.entries ⟨i, hlt'⟩
      have hpair : s.rollups.entries.get ⟨i, hlt'⟩ =
          (identity.rollups[i].field, (s.rollups.entries.get ⟨i, hlt'⟩).2) := Prod.ext hfield rfl
      rw [← hpair]
      exact hmem
  · intro field slot he
    exact .inr (get_rollupsJson hnodup he)

end Slots

/-- **Rollups in the JSON record.** For every stream ever stored in a run of any engine the builder
accepts, the record shows each rollup the stream's plugin declares, one entry a declaration, exactly if
the declarations name distinct fields. -/
theorem rollups_kept {env : Env} {ops : List Op} {a : Aggregator} (h : Reaches env ops a) {s : Stream}
    (hs : s ∈ a.everStreams) (fmt : Formats) (seqOf : StreamId → Option Nat) :
    ∃ plugin identity, Aggregator.identityOf env s.protocol = some (plugin, identity) ∧
      (KeepsRollups fmt seqOf identity s ↔ (identity.rollups.map RollupSpec.field).Nodup) := by
  obtain ⟨plugin, identity, hid, hslots⟩ := (Aggregator.slotsDeclared_rule env).reaches h s hs
  exact ⟨plugin, identity, hid, fun hkeeps => hkeeps.nodup hslots, keepsRollups_of_nodup hslots⟩

/-- A packet of a protocol over IPv4. -/
def transportPacket (protocol : ProtocolName) (more : List (FieldName × Value)) : Op :=
  let ip : LayerRecord := ⟨"ipv4", 0, 20,
    ⟨[("src_addr", .bytes [10, 0, 0, 1]), ("dst_addr", .bytes [10, 0, 0, 2])]⟩⟩
  let transport : LayerRecord := ⟨protocol, 20, 8, ⟨portFields 4321 53 ++ more⟩⟩
  .ingest ⟨⟨0, 60, 60, 101⟩, [ip, transport], .complete, 0, none⟩

/-- The record of a UDP stream has its one rollup. -/
theorem rollups_kept_udp :
    ∃ s ∈ (run transportEnv [transportPacket "udp" [("length", .u64 8)]]).everStreams,
      s.protocol = "udp" ∧ ∀ fmt seqOf, ∃ plugin identity,
        Aggregator.identityOf transportEnv s.protocol = some (plugin, identity) ∧
          (KeepsRollups fmt seqOf identity s ↔ (identity.rollups.map RollupSpec.field).Nodup) := by
  have hreach := reaches_run transportEnv [transportPacket "udp" [("length", .u64 8)]] (by decide)
  have hex : ∃ s ∈ (run transportEnv [transportPacket "udp" [("length", .u64 8)]]).everStreams,
      s.protocol = "udp" := by decide +kernel
  obtain ⟨s, hs, hprotocol⟩ := hex
  exact ⟨s, hs, hprotocol, fun fmt seqOf => rollups_kept hreach hs fmt seqOf⟩

/-- The record of a TCP stream has one entry for two rollups. -/
theorem rollups_lost_tcp :
    ∃ s ∈ (run transportEnv [transportPacket "tcp" [("flags", .u64 2)]]).everStreams,
      s.protocol = "tcp" ∧ Aggregator.identityOf transportEnv "tcp" = some (tcp, Plugins.tcpIdentity) ∧
        ∀ fmt seqOf, ¬KeepsRollups fmt seqOf Plugins.tcpIdentity s := by
  have hreach := reaches_run transportEnv [transportPacket "tcp" [("flags", .u64 2)]] (by decide)
  have hex : ∃ s ∈ (run transportEnv [transportPacket "tcp" [("flags", .u64 2)]]).everStreams,
      s.protocol = "tcp" := by decide +kernel
  have hid : Aggregator.identityOf transportEnv "tcp" = some (tcp, Plugins.tcpIdentity) := rfl
  obtain ⟨s, hs, hprotocol⟩ := hex
  refine ⟨s, hs, hprotocol, hid, fun fmt seqOf hkeeps => ?_⟩
  obtain ⟨plugin, identity, hid', hslots⟩ := (Aggregator.slotsDeclared_rule transportEnv).reaches hreach s hs
  rw [hprotocol, hid] at hid'
  obtain ⟨rfl, rfl⟩ := Prod.mk.inj (Option.some.inj hid')
  exact absurd (hkeeps.nodup hslots) (by decide)

end Pktflow.View
