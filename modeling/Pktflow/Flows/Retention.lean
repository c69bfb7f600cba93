import Pktflow.Core.Registry
import Pktflow.Flows.Rollup
import Mathlib.Data.List.Induction

/-!
# What a rollup retains

A slot sees the packets that carry its field. What it holds after a sequence of them is stated for each kind
of rollup over the whole sequence (`Meets`): the first distinct values, the first and last value, or the last
points. Each kind has one lemma about one more observation, and the folds are inductions from the right.
-/

set_option autoImplicit false

namespace Pktflow.Flows

open Pktflow.Core

/-- A packet as `RollupSet::apply` gets it. -/
structure Applied where
  fields : FieldMap
  ts : SystemTime
  dir : PacketDirection

/-- One observed value of a field. -/
structure Observation where
  ts : SystemTime
  dir : PacketDirection
  value : Value

/-- The observation of a field in a packet. -/
def Applied.observation (field : FieldName) (packet : Applied) : Option Observation :=
  (packet.fields.get field).map fun v => ⟨packet.ts, packet.dir, v⟩

/-- The observations of a field. -/
def observations (field : FieldName) (packets : List Applied) : List Observation :=
  packets.filterMap (Applied.observation field)

/-! ## The specification -/

/-- The cap of a series: the declared one, under the clamp. -/
def clampedCap (seriesMaxCap : Option Nat) (cap : Nat) : Nat :=
  match seriesMaxCap with
  | none => cap
  | some clamp => min cap (max clamp 1)

/-- A retained point of an observation: its time is that of the packet, or the nearest one that the offset
can hold. -/
structure Retains (base : SystemTime) (p : SeriesPoint) (o : Observation) : Prop where
  dir : p.dir = o.dir
  value : p.value = o.value
  near : -(2 ^ 63 - 1) ≤ o.ts - base → o.ts - base ≤ 2 ^ 63 - 1 → p.ts base = o.ts
  late : 2 ^ 63 - 1 < o.ts - base → p.ts base = base + (2 ^ 63 - 1)
  early : 2 ^ 63 - 1 < base - o.ts → p.ts base = base - 2 ^ 63

/-- What a slot of a kind holds after a sequence of observations. -/
def Meets (base : SystemTime) (seriesMaxCap : Option Nat) (os : List Observation) : RollupKind → Rollup → Prop
  | .accumulate, .accumulate values count overflow =>
      values = (os.map Observation.value).eraseDups.take 64 ∧ count = os.length ∧
        (overflow = true ↔ 64 < (os.map Observation.value).eraseDups.length)
  | .sample, .sample first last =>
      first = os.head?.map Observation.value ∧ last = os.getLast?.map Observation.value
  | .series declared, .series ring cap truncated =>
      cap = clampedCap seriesMaxCap declared ∧ ring.length = min os.length cap ∧
        List.Forall₂ (Retains base) ring (os.drop (os.length - cap)) ∧ (truncated = true ↔ cap < os.length)
  | _, _ => False

/-! ## One slot -/

section Slot

variable {base : SystemTime}

/-- The slot after observations. -/
def Rollup.observeAll (base : SystemTime) (os : List Observation) (r : Rollup) : Rollup :=
  os.foldl (fun r o => r.observe base o.ts o.dir o.value) r

theorem observeAll_snoc (os : List Observation) (o : Observation) (r : Rollup) :
    r.observeAll base (os ++ [o]) = (r.observeAll base os).observe base o.ts o.dir o.value := by
  rw [Rollup.observeAll, List.foldl_append]
  rfl

/-- The clamped offset of a time. -/
theorem clamped_offset (base ts : Int) :
    let offset := if base ≤ ts then (if ts - base ≤ i64Max then ts - base else i64Max)
      else if base - ts ≤ i64Max then -(base - ts) else i64Min
    (-(2 ^ 63 - 1) ≤ ts - base → ts - base ≤ 2 ^ 63 - 1 → base + offset = ts) ∧
      (2 ^ 63 - 1 < ts - base → base + offset = base + (2 ^ 63 - 1)) ∧
      (2 ^ 63 - 1 < base - ts → base + offset = base - 2 ^ 63) := by
  have hmax : i64Max = 2 ^ 63 - 1 := rfl
  have hmin : i64Min = -2 ^ 63 := rfl
  dsimp only
  by_cases hle : base ≤ ts
  · rw [if_pos hle]
    by_cases hfits : ts - base ≤ i64Max
    · rw [if_pos hfits]
      omega
    · rw [if_neg hfits]
      omega
  · rw [if_neg hle]
    by_cases hfits : base - ts ≤ i64Max
    · rw [if_pos hfits]
      omega
    · rw [if_neg hfits]
      omega

theorem retains_new (base : SystemTime) (o : Observation) :
    Retains base (SeriesPoint.new base o.ts o.dir o.value) o := by
  obtain ⟨hnear, hlate, hearly⟩ := clamped_offset base o.ts
  exact ⟨rfl, rfl, hnear, hlate, hearly⟩

/-- The distinct values, up to the cap. -/
theorem observeAll_accumulate (os : List Observation) :
    (Rollup.accumulate [] 0 false).observeAll base os =
      .accumulate ((os.map Observation.value).eraseDups.take 64) os.length
        (decide (64 < (os.map Observation.value).eraseDups.length)) := by
  induction os using List.reverseRecOn with
  | nil => simp [Rollup.observeAll]
  | append_singleton os o ih =>
      rw [observeAll_snoc, ih, List.map_append, List.map_singleton, eraseDups_snoc, List.length_append,
        List.length_singleton]
      generalize hds : (os.map Observation.value).eraseDups = ds
      have hcap : accumulateSetCap = 64 := rfl
      dsimp only [Rollup.observe]
      by_cases htake : o.value ∈ ds.take 64
      · -- a value that is held
        rw [if_pos htake, if_pos (List.mem_of_mem_take htake)]
      · rw [if_neg htake, List.length_take]
        by_cases hfull : ds.length < 64
        · have hall : ds.take 64 = ds := List.take_of_length_le (by omega)
          have hnew : o.value ∉ ds := fun h => htake (hall.symm ▸ h)
          have hlen : (ds ++ [o.value]).length = ds.length + 1 := by simp
          have hroom : min 64 ds.length < accumulateSetCap := by omega
          have hfalse : ¬64 < ds.length := by omega
          have hfalse' : ¬64 < ds.length + 1 := by omega
          rw [if_pos hroom, if_neg hnew, hall, List.take_of_length_le (by omega), hlen,
            decide_eq_false hfalse, decide_eq_false hfalse']
        · have hroom : ¬min 64 ds.length < accumulateSetCap := by omega
          rw [if_neg hroom]
          by_cases hseen : o.value ∈ ds
          · -- seen before, but not held
            have hmore : 64 < ds.length := by
              by_contra hle
              rw [List.take_of_length_le (by omega)] at htake
              exact htake hseen
            rw [if_pos hseen, decide_eq_true hmore]
          · have hlen : 64 < (ds ++ [o.value]).length := by simp; omega
            rw [if_neg hseen, List.take_append_of_le_length (by omega), decide_eq_true hlen]

theorem observeAll_sample (os : List Observation) :
    (Rollup.sample none none).observeAll base os =
      .sample (os.head?.map Observation.value) (os.getLast?.map Observation.value) := by
  induction os using List.reverseRecOn with
  | nil => rfl
  | append_singleton os o ih =>
      rw [observeAll_snoc, ih, List.getLast?_concat]
      cases os with
      | nil => rfl
      | cons o' os => rfl

/-- The last points, up to the cap. -/
theorem observeAll_series {cap : Nat} (hcap : 0 < cap) (os : List Observation) :
    (Rollup.series [] cap false).observeAll base os =
      .series ((os.drop (os.length - cap)).map fun o => SeriesPoint.new base o.ts o.dir o.value) cap
        (decide (cap < os.length)) := by
  induction os using List.reverseRecOn with
  | nil => simp [Rollup.observeAll]
  | append_singleton os o ih =>
      rw [observeAll_snoc, ih]
      unfold Rollup.observe
      dsimp only
      rw [List.length_map, List.length_drop, List.length_append, List.length_singleton]
      by_cases hfull : cap ≤ os.length
      · rw [if_pos (by omega), ← List.map_drop, List.drop_drop]
        have hstart : os.length - cap + 1 = os.length + 1 - cap := by omega
        rw [hstart, List.drop_append_of_le_length (by omega), List.map_append]
        congr 1
        simp
        omega
      · rw [if_neg (by omega), Nat.sub_eq_zero_of_le (by omega), Nat.sub_eq_zero_of_le (by omega), List.drop_zero,
          List.drop_zero, List.map_append]
        congr 1
        rw [decide_eq_decide]
        omega

theorem forall₂_retains (base : SystemTime) (os : List Observation) :
    List.Forall₂ (Retains base) (os.map fun o => SeriesPoint.new base o.ts o.dir o.value) os := by
  rw [List.forall₂_map_left_iff, List.forall₂_same]
  exact fun o _ => retains_new base o

/-- A slot of an admitted kind meets its specification. -/
theorem meets_observeAll (defaultCap : Nat) (clamp : Option Nat) {kind : RollupKind} (hkind : kind ≠ .series 0)
    (os : List Observation) :
    Meets base clamp os kind ((Rollup.ofKind defaultCap clamp kind).observeAll base os) := by
  cases kind with
  | accumulate =>
      rw [Rollup.ofKind, observeAll_accumulate]
      exact ⟨rfl, rfl, decide_eq_true_iff⟩
  | sample =>
      rw [Rollup.ofKind, observeAll_sample]
      exact ⟨rfl, rfl⟩
  | series cap =>
      have hpos : cap ≠ 0 := fun h => hkind (by rw [h])
      have hslot : Rollup.ofKind defaultCap clamp (.series cap) = .series [] (clampedCap clamp cap) false := by
        dsimp only [Rollup.ofKind]
        rw [if_neg hpos]
        rfl
      have hcap : 0 < clampedCap clamp cap := by
        unfold clampedCap
        split <;> omega
      rw [hslot, observeAll_series hcap]
      refine ⟨rfl, ?_, forall₂_retains base _, decide_eq_true_iff⟩
      rw [List.length_map, List.length_drop]
      omega

end Slot

/-! ## All slots -/

/-- `apply` on a slot is the observation of its field, if there is one. -/
theorem entries_applyAll (base : SystemTime) (packets : List Applied) (set : RollupSet) :
    (packets.foldl (fun set packet => set.apply packet.fields base packet.ts packet.dir) set).entries =
      set.entries.map fun e => (e.1, e.2.observeAll base (observations e.1 packets)) := by
  induction packets generalizing set with
  | nil => simp [observations, Rollup.observeAll]
  | cons packet packets ih =>
      rw [List.foldl_cons, ih, RollupSet.apply, List.map_map]
      apply List.map_congr_left
      intro e _
      simp only [Function.comp_apply]
      cases hget : packet.fields.get e.1 with
      | none =>
          have hnone : packet.observation e.1 = none := by rw [Applied.observation, hget]; rfl
          dsimp only
          rw [observations, observations, List.filterMap_cons_none hnone]
      | some v =>
          have hsome : packet.observation e.1 = some ⟨packet.ts, packet.dir, v⟩ := by
            rw [Applied.observation, hget]
            rfl
          dsimp only
          rw [observations, observations, List.filterMap_cons_some hsome]
          rfl

/-- **Rollup folds.** The slots of an identity that the builder accepts, after any sequence of packets. -/
theorem rollup_folds (e : Engine) {plugin : LayerPlugin} (hplugin : plugin ∈ e.registry.plugins)
    {identity : StreamIdentity} (hidentity : plugin.streamIdentity = some identity) (defaultCap : Nat)
    (clamp : Option Nat) (base : SystemTime) (packets : List Applied) :
    List.Forall₂ (fun spec slot => slot.1 = spec.field ∧
        Meets base clamp (observations spec.field packets) spec.kind slot.2) identity.rollups
      (packets.foldl (fun set packet => set.apply packet.fields base packet.ts packet.dir)
        (RollupSet.new identity.rollups defaultCap clamp)).entries := by
  have hvalid : IdentityValid identity := by
    obtain ⟨b, hb⟩ := e.built
    have hids := ((EngineBuilder.build_ok_iff b).1 ⟨_, hb⟩).identities
    obtain ⟨byName, claims, -, -, -, -, -, hr⟩ := EngineBuilder.build_eq_ok.1 hb
    rw [hr] at hplugin
    exact hids plugin hplugin identity hidentity
  rw [entries_applyAll, RollupSet.new, List.map_map, List.forall₂_map_right_iff, List.forall₂_same]
  intro spec hspec
  exact ⟨rfl, meets_observeAll defaultCap clamp (hvalid.rollups spec hspec).2 _⟩

/-- A plugin that declares all three kinds of rollup for one field. -/
def watcher : LayerPlugin where
  name := "watcher"
  parse := fun _ _ => .error (.malformed "declines")
  streamIdentity := some ⟨[], .endpointSort, none, [⟨"f", .accumulate⟩, ⟨"f", .sample⟩, ⟨"f", .series 2⟩]⟩

/-- The field of the watcher, seen at a time. -/
def watched (ts : SystemTime) (n : UInt64) : Applied := ⟨⟨[("f", .u64 n)]⟩, ts, .aToB⟩

/-- Three packets, one of them long before the stream was first seen. -/
theorem rollup_folds_watched :
    ∃ e : Engine, watcher ∈ e.registry.plugins ∧
      List.Forall₂ (fun (spec : RollupSpec) (slot : FieldName × Rollup) => slot.1 = spec.field ∧
          Meets 5 (some 0) (observations spec.field [watched 5 1, watched 6 1, watched (-2 ^ 64) 2]) spec.kind slot.2)
        [⟨"f", .accumulate⟩, ⟨"f", .sample⟩, ⟨"f", .series 2⟩]
        ([watched 5 1, watched 6 1, watched (-2 ^ 64) 2].foldl
          (fun set packet => set.apply packet.fields 5 packet.ts packet.dir)
          (RollupSet.new [⟨"f", .accumulate⟩, ⟨"f", .sample⟩, ⟨"f", .series 2⟩] 1024 (some 0))).entries := by
  refine ⟨⟨_, assemble [.plugin watcher], rfl⟩, List.mem_cons_self, ?_⟩
  exact rollup_folds ⟨_, assemble [.plugin watcher], rfl⟩ List.mem_cons_self rfl 1024 (some 0) 5 _

end Pktflow.Flows
