import Pktflow.Core.Stream
import Mathlib.Algebra.Ring.Int.Defs
import Mathlib.Algebra.Ring.Nat

/-!
# Metadata rollups

Model of `pktflow-flows/src/rollup.rs`: per-stream retention of plugin-nominated fields.
-/

set_option autoImplicit false

namespace Pktflow.Flows

open Pktflow.Core

/-- `ACCUMULATE_SET_CAP`. -/
def accumulateSetCap : Nat := 64

/-- `i64::MAX`. -/
def i64Max : Int := 2 ^ 63 - 1

/-- `i64::MIN`. -/
def i64Min : Int := -2 ^ 63

/-- `SeriesPoint`: one observation, its timestamp an offset from the stream's `first_seen`. -/
structure SeriesPoint where
  tsOffsetNanos : Int
  dir : PacketDirection
  value : Value
  deriving DecidableEq

/-- `SeriesPoint::new`: the offset is clamped to the `i64` range. -/
def SeriesPoint.new (base ts : SystemTime) (dir : PacketDirection) (value : Value) : SeriesPoint where
  tsOffsetNanos :=
    if base ≤ ts then (if ts - base ≤ i64Max then ts - base else i64Max)
    else (if base - ts ≤ i64Max then -(base - ts) else i64Min)
  dir := dir
  value := value

/-- `SeriesPoint::ts`. -/
def SeriesPoint.ts (p : SeriesPoint) (base : SystemTime) : SystemTime := base + p.tsOffsetNanos

/-- `Rollup`: retained state for one declared field. -/
inductive Rollup where
  | accumulate (values : List Value) (count : Nat) (overflow : Bool)
  | sample (first last : Option Value)
  | series (ring : List SeriesPoint) (cap : Nat) (truncated : Bool)
  deriving DecidableEq

/-- The empty slot for a declaration; a zero series cap takes the configured default, and a
configured clamp bounds every cap. -/
def Rollup.ofKind (seriesDefaultCap : Nat) (seriesMaxCap : Option Nat) : RollupKind → Rollup
  | .accumulate => .accumulate [] 0 false
  | .sample => .sample none none
  | .series cap =>
      let cap := if cap = 0 then seriesDefaultCap else cap
      .series [] (match seriesMaxCap with | none => cap | some clamp => min cap (max clamp 1)) false

/-- One observation of a present field. -/
def Rollup.observe (base ts : SystemTime) (dir : PacketDirection) (v : Value) : Rollup → Rollup
  | .accumulate values count overflow =>
      if v ∈ values then .accumulate values (count + 1) overflow
      else if values.length < accumulateSetCap then .accumulate (values ++ [v]) (count + 1) overflow
      else .accumulate values (count + 1) true
  | .sample first _ => .sample (if first.isNone then some v else first) (some v)
  | .series ring cap truncated =>
      if cap ≤ ring.length then .series (ring.drop 1 ++ [SeriesPoint.new base ts dir v]) cap true
      else .series (ring ++ [SeriesPoint.new base ts dir v]) cap truncated

/-- `RollupSet`: one slot per declared `RollupSpec`. -/
structure RollupSet where
  entries : List (FieldName × Rollup)
  deriving DecidableEq

/-- `RollupSet::new`. -/
def RollupSet.new (specs : List RollupSpec) (seriesDefaultCap : Nat) (seriesMaxCap : Option Nat) :
    RollupSet :=
  ⟨specs.map fun spec => (spec.field, Rollup.ofKind seriesDefaultCap seriesMaxCap spec.kind)⟩

/-- `RollupSet::apply`: an absent field leaves its slot unchanged. -/
def RollupSet.apply (set : RollupSet) (fields : FieldMap) (base ts : SystemTime)
    (dir : PacketDirection) : RollupSet :=
  ⟨set.entries.map fun e =>
    match fields.get e.1 with
    | none => e
    | some v => (e.1, e.2.observe base ts dir v)⟩

/-- `RollupSet::get`: the first slot of that field. -/
def RollupSet.get (set : RollupSet) (field : FieldName) : Option Rollup :=
  set.entries.findSome? fun e => if e.1 = field then some e.2 else none

/-- The distinct values of a list, with one more. -/
theorem eraseDups_snoc {β : Type} [DecidableEq β] (l : List β) (x : β) :
    (l ++ [x]).eraseDups = if x ∈ l.eraseDups then l.eraseDups else l.eraseDups ++ [x] := by
  rw [List.eraseDups_append]
  by_cases h : x ∈ l
  · simp [h, List.removeAll]
  · simp [h, List.removeAll, List.eraseDups_cons]

end Pktflow.Flows
