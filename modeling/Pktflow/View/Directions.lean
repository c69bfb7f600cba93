import Pktflow.View.Paging

/-!
# Sort directions

The orders of `SnapshotIndex::order` are sorted by one number for each key, the greatest first, and read
backwards for the other direction. For `FirstSeen` that number counts down from `u128::MAX`, so that the
earliest stream comes first in the order that the other keys call descending (`window_follows`).
-/

set_option autoImplicit false

namespace Pktflow.View

open Pktflow.Core Pktflow.Flows Pktflow.Lib

/-- What a key sorts by. A time before the epoch counts as the epoch, a negative duration as none. -/
def quantity (key : SortKey) (s : Stream) : Int :=
  match key with
  | .bytes => totalBytes s
  | .packets => totalPackets s
  | .firstSeen => max s.firstSeen 0
  | .duration => max (s.lastSeen - s.firstSeen) 0

/-- The rows have the greatest quantity first: in the descending direction, but in the other one by
`first_seen`. -/
def greatestFirst (key : SortKey) (descending : Bool) : Bool :=
  if key = .firstSeen then !descending else descending

/-- The second row may stand below the first: it is next in the quantity, or in a tie by its display id. -/
def Follows (key : SortKey) (descending : Bool) (s t : Stream) : Prop :=
  (if greatestFirst key descending then quantity key t < quantity key s else quantity key s < quantity key t) ∨
    quantity key s = quantity key t ∧
      if descending then s.createdSeq ≤ t.createdSeq else t.createdSeq ≤ s.createdSeq

/-- A time that `SystemTime` holds: seconds of 64 bits from the epoch, and nanoseconds. -/
def IsSystemTime (t : SystemTime) : Prop := -(2 ^ 63 * 10 ^ 9 : Int) ≤ t ∧ t < (2 ^ 63 * 10 ^ 9 : Int)

section Ranks

variable {key : SortKey} {s t : Stream}

theorem cast_sortValue (h : key ≠ .firstSeen) : (sortValue key s : Int) = quantity key s := by
  cases key with
  | bytes => rfl
  | packets => rfl
  | firstSeen => exact absurd rfl h
  | duration => exact Int.toNat_eq_max _

/-- The number for `first_seen` counts down. -/
theorem cast_sortValue_firstSeen (h : IsSystemTime s.firstSeen) :
    (sortValue .firstSeen s : Int) = u128Max - quantity .firstSeen s := by
  have hlt : s.firstSeen < 9223372036854775808000000000 := h.2
  have hzero : nanosSince s.firstSeen 0 = Int.toNat s.firstSeen := congrArg Int.toNat (Int.sub_zero s.firstSeen)
  have hnat : (Int.toNat s.firstSeen : Int) = max s.firstSeen 0 := Int.toNat_eq_max _
  have hle : Int.toNat s.firstSeen ≤ u128Max := by
    have hmax : Int.toNat s.firstSeen < 9223372036854775808000000000 :=
      (Int.toNat_lt' (by decide)).2 hlt
    exact hmax.le.trans (by decide)
  show ((u128Max - nanosSince s.firstSeen 0 : Nat) : Int) = u128Max - max s.firstSeen 0
  rw [hzero, Int.ofNat_sub hle, hnat]

/-- The order of the sort, in terms of the quantity. -/
theorem follows_of_rank (hs : IsSystemTime s.firstSeen) (ht : IsSystemTime t.firstSeen)
    (h : sortRank key s ≤ sortRank key t) : Follows key true s t ∧ Follows key false t s := by
  unfold sortRank at h
  rw [Prod.Lex.toLex_le_toLex] at h
  simp only [OrderDual.toDual_lt_toDual, OrderDual.toDual_inj] at h
  unfold Follows greatestFirst
  by_cases hkey : key = .firstSeen
  · subst hkey
    have hvs := cast_sortValue_firstSeen hs
    have hvt := cast_sortValue_firstSeen ht
    simp only [if_true, Bool.not_true, Bool.not_false, Bool.false_eq_true, if_false]
    omega
  · have hvs : (sortValue key s : Int) = quantity key s := cast_sortValue hkey
    have hvt : (sortValue key t : Int) = quantity key t := cast_sortValue hkey
    simp only [hkey, if_true, Bool.false_eq_true, if_false]
    omega

end Ranks

section Windows

variable {env : LensEnv} {snap : AggregatorSnapshot}

/-- The rows that a window takes from follow each other. -/
theorem arranged_follows (htimes : ∀ s ∈ snap.streams, IsSystemTime s.firstSeen) (key : SortKey)
    (descending : Bool) : (arranged snap.streams key descending).Pairwise (Follows key descending) := by
  have hranked : (ranked snap.streams key).Pairwise fun s t => Follows key true s t ∧ Follows key false t s := by
    refine (pairwise_keys (sortRank key) snap.streams).imp_of_mem fun hs ht hle => ?_
    exact follows_of_rank (htimes _ (mem_sortByKey.1 hs)) (htimes _ (mem_sortByKey.1 ht)) hle
  rw [arranged]
  cases descending with
  | true => exact hranked.imp And.left
  | false => exact List.pairwise_reverse.2 (hranked.imp And.right)

theorem rows_sublist (streams : List Stream) (spec : WindowSpec) (sets : Option QuerySets) :
    (answer streams spec sets).rows.Sublist (arranged streams spec.sort spec.descending) :=
  ((List.take_sublist _ _).trans (List.drop_sublist _ _)).trans List.filter_sublist

/-- The rows of every window follow each other in the direction asked for, which for `first_seen` has the
earliest first. -/
theorem window_follows (hlen : snap.streams.length < 2 ^ 32)
    (htimes : ∀ s ∈ snap.streams, IsSystemTime s.firstSeen) {index : SnapshotIndex}
    (hindex : IndexOf env snap index) (spec : WindowSpec) {r : WindowResult} {index' : SnapshotIndex}
    (hwindow : index.window env spec = .ok (r, index')) :
    r.rows.Pairwise (Follows spec.sort spec.descending) := by
  obtain ⟨herror, hok⟩ := (hindex.valid hlen).window_eq hlen spec
  cases hsets : setsOf env snap.streams spec.query with
  | error f =>
      rw [herror f hsets] at hwindow
      cases hwindow
  | ok sets =>
      obtain ⟨index'', heq, -⟩ := hok sets hsets
      rw [heq] at hwindow
      obtain ⟨rfl, -⟩ := Prod.mk.inj (Except.ok.inj hwindow)
      exact (arranged_follows htimes spec.sort spec.descending).sublist (rows_sublist snap.streams spec sets)

end Windows

/-- Two streams, one a nanosecond after the other. -/
def twoStreams : AggregatorSnapshot := ⟨[bareStream 0 none 0 5, bareStream 1 none 1 5], [⟨0, 0⟩, ⟨1, 0⟩]⟩

/-- The descending window of `twoStreams` by `first_seen`. -/
def twoRows : List Stream :=
  (SnapshotIndex.new twoStreams).rows sampleLens ⟨.flat, none, .firstSeen, true, 0, 10⟩

/-- The window answers, and lists the earlier stream first. -/
theorem window_follows_two :
    (∃ r index', (SnapshotIndex.new twoStreams).window sampleLens ⟨.flat, none, .firstSeen, true, 0, 10⟩ =
        .ok (r, index') ∧ r.rows.Pairwise (Follows .firstSeen true)) ∧
      twoRows.map Stream.createdSeq = [0, 1] := by
  have hlen : twoStreams.streams.length < 2 ^ 32 := by decide
  have htimes : ∀ s ∈ twoStreams.streams, IsSystemTime s.firstSeen := by
    intro s hs
    simp only [twoStreams, List.mem_cons, List.not_mem_nil, or_false] at hs
    rw [IsSystemTime]
    rcases hs with rfl | rfl <;> decide
  have hnew : IndexOf sampleLens twoStreams (SnapshotIndex.new twoStreams) := .new
  obtain ⟨index', heq, -⟩ := ((hnew.valid hlen).window_eq hlen ⟨.flat, none, .firstSeen, true, 0, 10⟩).2 none rfl
  exact ⟨⟨_, index', heq, window_follows hlen htimes hnew _ heq⟩, by decide +kernel⟩

/-- In the descending direction `first_seen` increases. -/
theorem firstSeen_increases : ¬twoRows.Pairwise fun s t => t.firstSeen ≤ s.firstSeen := by
  have htimes : twoRows.map Stream.firstSeen = [0, 1] := by decide +kernel
  intro h
  have hmap : (twoRows.map Stream.firstSeen).Pairwise fun x y => y ≤ x := List.pairwise_map.2 h
  rw [htimes] at hmap
  exact absurd ((List.pairwise_cons.1 hmap).1 1 (List.mem_singleton_self 1)) (by decide)

end Pktflow.View
