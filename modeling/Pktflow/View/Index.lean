import Pktflow.Flows.Snapshot
import Pktflow.View.Descent
import Pktflow.View.Record
import Pktflow.View.Visible

/-!
# The index of a snapshot

Model of `SnapshotIndex::{by_id, by_seq, id_map, order, query_sets, window}` (`pktflow-view/src/index.rs`).
The orders and the last query are memos, filled by the first call that needs them; what a memo holds is what
the call would compute (`SnapshotIndex.Valid`), so a window does not depend on the calls before it
(`window_eq`).
-/

set_option autoImplicit false

namespace Pktflow.View

open Pktflow.Core Pktflow.Flows Pktflow.Lib

/-- `SortKey`. -/
inductive SortKey where
  | bytes
  | packets
  | firstSeen
  | duration
  deriving DecidableEq, Repr

/-- `Scope`. -/
inductive Scope where
  | roots
  | childrenOf (seq : Nat)
  | flat
  deriving DecidableEq, Repr

/-- `WindowSpec`. -/
structure WindowSpec where
  scope : Scope
  query : Option Text
  sort : SortKey
  descending : Bool
  offset : Nat
  limit : Nat

/-- `WindowResult`. -/
structure WindowResult where
  total : Nat
  matchTotal : Option Nat
  rows : List Stream

/-- The streams that match a query, and these with their ancestors, by display id. -/
abbrev QuerySets := Finset Nat × Finset Nat

/-- `QueryCache`. -/
structure QueryCache where
  raw : Text
  sets : Option QuerySets

/-- `SnapshotIndex`. The maps of positions are kept as the functions that look them up. -/
structure SnapshotIndex where
  snap : AggregatorSnapshot
  orders : SortKey → Option (List Nat)
  query : Option QueryCache

/-- The functions from outside: those of the parser, and `StreamQuery::matches`. -/
structure LensEnv extends QueryEnv where
  isMatch : Expr → Stream → (StreamId → Option Stream) → Bool

/-! ## Matches -/

/-- `endpoints_str`. -/
def endpointsStr (s : Stream) : String :=
  let sides := endpointSides s
  let pair := if sides.a.isEmpty then "" else sides.a ++ " ↔ " ++ sides.b
  if sides.extras.isEmpty then pair
  else (if pair.isEmpty then "" else pair ++ " ") ++ " ".intercalate sides.extras

/-- `searchable_text`. -/
def searchableText (s : Stream) : String :=
  let text := s.protocol ++ " #" ++ toString s.createdSeq ++ " " ++ endpointsStr s
  match s.state with
  | none => text
  | some state => text ++ " " ++ state

/-- `str::contains`. -/
def containsText (t needle : Text) : Bool := (findText needle t).isSome

/-- The bare flags. -/
def Flag.holds (s : Stream) : Flag → Bool
  | .closed => s.closed.isSome
  | .live => s.closed.isNone
  | .root => s.parent.isNone
  | .leaf => s.children.isEmpty
  | .condensed => s.condensed.isSome

/-- `eval`, with regexes and comparisons as they are given. -/
def eval (toLowercase : Text → Text) (reMatch : Text → Text → Bool)
    (compare : Field → CmpOp → Literal → Stream → (StreamId → Option Stream) → Bool) :
    Expr → Stream → (StreamId → Option Stream) → Bool
  | .or l r, s, ids => eval toLowercase reMatch compare l s ids || eval toLowercase reMatch compare r s ids
  | .and l r, s, ids => eval toLowercase reMatch compare l s ids && eval toLowercase reMatch compare r s ids
  | .not inner, s, ids => !eval toLowercase reMatch compare inner s ids
  | .freeText needle, s, _ => containsText (toLowercase (searchableText s).toList) needle
  | .freeRegex pattern, s, _ => reMatch pattern (searchableText s).toList
  | .flag flag, s, _ => flag.holds s
  | .cmp field op value, s, ids => compare field op value s ids

/-- Free text and flags, on ASCII text. -/
def sampleLens : LensEnv where
  toLowercase := toAsciiLowercase
  regexError := fun _ => none
  isMatch := eval toAsciiLowercase (fun _ _ => false) fun _ _ _ _ _ => false

/-! ## Facets -/

/-- A position as `u32`. -/
def asU32 (i : Nat) : Nat := i % 2 ^ 32

/-- Nanoseconds of `t.duration_since(u)`, none of them if `u` is later. -/
def nanosSince (t u : SystemTime) : Nat := (t - u).toNat

/-- `u128::MAX`. -/
def u128Max : Nat := 2 ^ 128 - 1

/-- `str::trim` leaves nothing. -/
def isBlank (q : Text) : Bool := q.all isWhitespace

section Facets

variable (streams : List Stream)

/-- `positions_by_id`. -/
def positionsById (id : StreamId) : Option Nat :=
  collect (streams.zipIdx.map fun e => (e.1.id, asU32 e.2)) id

/-- `positions_by_seq`. -/
def positionsBySeq (seq : Nat) : Option Nat :=
  collect (streams.zipIdx.map fun e => (e.1.createdSeq, asU32 e.2)) seq

/-- `SnapshotIndex::by_id`, and the map of `SnapshotIndex::id_map`. -/
def byId (id : StreamId) : Option Stream := (positionsById streams id).bind fun pos => streams[pos]?

/-- `SnapshotIndex::by_seq`. -/
def bySeq (seq : Nat) : Option Stream := (positionsBySeq streams seq).bind fun pos => streams[pos]?

/-- The value that a key sorts by, the greatest first. -/
def sortValue (key : SortKey) (s : Stream) : Nat :=
  match key with
  | .bytes => totalBytes s
  | .packets => totalPackets s
  | .firstSeen => u128Max - nanosSince s.firstSeen 0
  | .duration => nanosSince s.lastSeen s.firstSeen

/-- The key of the sort: `(Reverse(value), created_seq)`. -/
def sortRank (key : SortKey) (s : Stream) : ℕᵒᵈ ×ₗ ℕ := toLex (OrderDual.toDual (sortValue key s), s.createdSeq)

/-- `SnapshotIndex::order`, computed: the positions, by the streams at them. -/
def computeOrder (key : SortKey) : List Nat :=
  (sortByKey (fun e : Stream × Nat => sortRank key e.1)
    (streams.zipIdx.take (asU32 streams.length))).map Prod.snd

end Facets

/-- What `query_sets` computes for an expression: nothing if it does not parse. -/
def evalQuery (env : LensEnv) (streams : List Stream) (raw : Text) : Except Failure (Option QuerySets) :=
  match parseQuery env.toQueryEnv raw with
  | .ok e =>
      let isMatch := fun s => env.isMatch e s (byId streams)
      .ok (some (((streams.filter isMatch).map Stream.createdSeq).toFinset,
        matchingWithAncestors streams (byId streams) isMatch))
  | .error (.query _) => .ok none
  | .error f => .error f

/-- The visible set of a query over a forest, in any order of its list: the display ids of the matches and of
all that is above them, nothing else. -/
theorem matchingWithAncestors_forest (env : LensEnv) (query : Expr) {streams : List Stream}
    {ids : StreamId → Option Stream} (h : IsForest streams ids) (q : Nat) :
    q ∈ matchingWithAncestors streams ids (fun s => env.isMatch query s ids) ↔
      ∃ s ∈ streams, env.isMatch query s ids = true ∧
        ∃ t, AncestorOrSelf ids s t ∧ t.createdSeq = q := by
  rw [mem_matchingWithAncestors h.lists]
  constructor
  · rintro ⟨t, ⟨s, hs, hmatch, habove⟩, hq⟩
    exact ⟨s, hs, hmatch, t, habove, hq⟩
  · rintro ⟨s, hs, hmatch, t, habove, hq⟩
    exact ⟨t, ⟨s, hs, hmatch, habove⟩, hq⟩

/-- A stream of this display id and parent, and these times. -/
def bareStream (seq : Nat) (parent : Option StreamId) (firstSeen lastSeen : SystemTime) : Stream where
  id := ⟨seq, 0⟩
  protocol := "ethernet"
  key := []
  keyFields := FieldMap.new
  parent := parent
  children := []
  initiator := .aToB
  firstSeen := firstSeen
  lastSeen := lastSeen
  stats := {}
  opaqueBytes := 0
  state := none
  rollups := ⟨[]⟩
  closed := none
  closeEligible := false
  closeEligibleSince := none
  createdSeq := seq
  condensed := none
  history := []

/-- A child listed before its parent. -/
def childFirst : List Stream := [bareStream 1 (some ⟨0, 0⟩) 0 0, bareStream 0 none 0 0]

/-- The streams of `childFirst`, by their ids. -/
def childFirstIds (id : StreamId) : Option Stream := childFirst.find? fun s => s.id = id

theorem childFirst_isForest : IsForest childFirst childFirstIds where
  find_iff := by
    intro i p
    rw [childFirstIds, childFirst]
    simp only [List.find?_cons, List.find?_nil, List.mem_cons, List.not_mem_nil, or_false]
    constructor
    · intro h
      split at h
      · rename_i hid
        obtain rfl := Option.some.inj h
        exact ⟨.inl rfl, by simpa using hid⟩
      · split at h
        · rename_i hid
          obtain rfl := Option.some.inj h
          exact ⟨.inr rfl, by simpa using hid⟩
        · cases h
    · rintro ⟨rfl | rfl, rfl⟩ <;> rfl
  seq_inj := by
    intro s hs t ht h
    simp only [childFirst, List.mem_cons, List.not_mem_nil, or_false] at hs ht
    rcases hs with rfl | rfl <;> rcases ht with rfl | rfl
    · rfl
    · exact absurd h (by decide)
    · exact absurd h (by decide)
    · rfl
  acyclic := by
    intro s hs hcycle
    -- a parent has a smaller display id
    have hlower : ∀ s p, ParentIn childFirstIds s p → s ∈ childFirst → p ∈ childFirst ∧ p.createdSeq < s.createdSeq := by
      intro s p hp hs
      simp only [childFirst, List.mem_cons, List.not_mem_nil, or_false] at hs
      rcases hs with rfl | rfl
      · obtain rfl : bareStream 0 none 0 0 = p := Option.some.inj hp
        exact ⟨by simp [childFirst], by decide⟩
      · cases hp
    have hall : ∀ p, Relation.TransGen (ParentIn childFirstIds) s p →
        p ∈ childFirst ∧ p.createdSeq < s.createdSeq := by
      intro p hp
      induction hp with
      | single hstep => exact hlower s _ hstep hs
      | tail _ hstep ih =>
          obtain ⟨hmem, hlt⟩ := hlower _ _ hstep ih.1
          exact ⟨hmem, hlt.trans ih.2⟩
    exact absurd (hall s hcycle).2 (Nat.lt_irrefl _)

/-- The streams without children: a child listed before its parent, which both are visible. -/
theorem matchingWithAncestors_forest_childFirst :
    (∀ q, q ∈ matchingWithAncestors childFirst childFirstIds
        (fun s => sampleLens.isMatch (.not (.flag .root)) s childFirstIds) ↔
      ∃ s ∈ childFirst, sampleLens.isMatch (.not (.flag .root)) s childFirstIds = true ∧
        ∃ t, AncestorOrSelf childFirstIds s t ∧ t.createdSeq = q) ∧
    matchingWithAncestors childFirst childFirstIds
      (fun s => sampleLens.isMatch (.not (.flag .root)) s childFirstIds) = {0, 1} :=
  ⟨matchingWithAncestors_forest sampleLens (.not (.flag .root)) childFirst_isForest, by decide⟩

namespace SnapshotIndex

/-- `SnapshotIndex::new`. -/
def new (snap : AggregatorSnapshot) : SnapshotIndex := ⟨snap, fun _ => none, none⟩

/-- `SnapshotIndex::order`. -/
def order (index : SnapshotIndex) (key : SortKey) : List Nat × SnapshotIndex :=
  match index.orders key with
  | some order => (order, index)
  | none =>
      let order := computeOrder index.snap.streams key
      (order, { index with orders := Function.update index.orders key (some order) })

/-- The memo of `query_sets` for an expression. -/
def cached (index : SnapshotIndex) (raw : Text) : Option (Option QuerySets) :=
  index.query.bind fun cache => if cache.raw = raw then some cache.sets else none

/-- `SnapshotIndex::query_sets`. -/
def querySets (env : LensEnv) (index : SnapshotIndex) (raw : Text) :
    Except Failure (Option QuerySets × SnapshotIndex) :=
  match index.cached raw with
  | some sets => .ok (sets, index)
  | none => do
      let sets ← evalQuery env index.snap.streams raw
      pure (sets, { index with query := some ⟨raw, sets⟩ })

/-- The sets of a window's query: none without a query that is not blank. -/
def windowSets (env : LensEnv) (index : SnapshotIndex) (query : Option Text) :
    Except Failure (Option QuerySets × SnapshotIndex) :=
  match query.filter fun q => !isBlank q with
  | none => .ok (none, index)
  | some q => index.querySets env q

end SnapshotIndex

/-- `keep`: the flat table shows matches only. -/
def keepOf (sets : Option QuerySets) (scope : Scope) : Option (Finset Nat) :=
  sets.map fun s => match scope with
    | .flat => s.1
    | _ => s.2

/-- `in_scope`. -/
def inScope (streams : List Stream) (scope : Scope) (s : Stream) : Bool :=
  match scope with
  | .roots => s.parent.isNone
  | .childrenOf seq =>
      let parentId := (bySeq streams seq).map Stream.id
      s.parent == parentId && parentId.isSome
  | .flat => true

/-- The stream is kept, if there is something to keep. -/
def keeps (keep : Option (Finset Nat)) (s : Stream) : Bool :=
  match keep with
  | none => true
  | some keep => decide (s.createdSeq ∈ keep)

/-- The local variables of the loop of `window`. -/
structure Page where
  total : Nat
  matched : Nat
  rows : List Stream

/-- One row of the loop of `window`. -/
def Page.step (scope keep : Stream → Bool) (offset limit : Nat) (page : Page) (s : Stream) : Page :=
  if !scope s then page
  else if !keep s then { page with total := page.total + 1 }
  else
    { total := page.total + 1
      matched := page.matched + 1
      rows := if offset < page.matched + 1 ∧ page.rows.length < limit then page.rows ++ [s] else page.rows }

/-- `SnapshotIndex::window`. -/
def SnapshotIndex.window (env : LensEnv) (index : SnapshotIndex) (spec : WindowSpec) :
    Except Failure (WindowResult × SnapshotIndex) := do
  let (sets, index) ← index.windowSets env spec.query
  let (order, index) := index.order spec.sort
  let streams := index.snap.streams
  let positions := if spec.descending then order else order.reverse
  let page := (positions.filterMap fun pos => streams[pos]?).foldl
    (Page.step (inScope streams spec.scope) (keeps (keepOf sets spec.scope)) spec.offset spec.limit) ⟨0, 0, []⟩
  pure (⟨page.total, if sets.isSome then some page.matched else none, page.rows⟩, index)

/-! ## Facets of well-formed snapshots -/

section Facets

variable {streams : List Stream}

theorem asU32_of_lt {i : Nat} (h : i < 2 ^ 32) : asU32 i = i := Nat.mod_eq_of_lt h

/-- A map of positions leads to the stream with the key. -/
theorem lookup_position {κ : Type} [DecidableEq κ] {key : Stream → κ} (hnodup : (streams.map key).Nodup)
    (hlen : streams.length < 2 ^ 32) {k : κ} {s : Stream} :
    ((collect (streams.zipIdx.map fun e => (key e.1, asU32 e.2)) k).bind fun pos => streams[pos]?) = some s ↔
      s ∈ streams ∧ key s = k := by
  have hkeys : (streams.zipIdx.map fun e => (key e.1, asU32 e.2)).map Prod.fst = streams.map key := by
    conv_rhs => rw [← List.zipIdx_map_fst 0 streams, List.map_map]
    rw [List.map_map]
    rfl
  rw [Option.bind_eq_some_iff]
  constructor
  · rintro ⟨pos, hpos, hget⟩
    rw [collect_eq_some (hkeys ▸ hnodup)] at hpos
    obtain ⟨⟨t, i⟩, hi, heq⟩ := List.mem_map.1 hpos
    obtain ⟨rfl, rfl⟩ := Prod.mk.inj heq
    have hti := List.mem_zipIdx_iff_getElem?.1 hi
    obtain ⟨hlt, -⟩ := List.getElem?_eq_some_iff.1 hti
    rw [asU32_of_lt (by omega)] at hget
    obtain rfl := Option.some.inj (hti.symm.trans hget)
    exact ⟨List.mem_of_getElem? hget, rfl⟩
  · rintro ⟨hs, rfl⟩
    obtain ⟨i, hlt, hi⟩ := List.getElem_of_mem hs
    have hget : streams[i]? = some s := List.getElem?_eq_some_iff.2 ⟨hlt, hi⟩
    refine ⟨asU32 i, ?_, ?_⟩
    · rw [collect_eq_some (hkeys ▸ hnodup)]
      exact List.mem_map.2 ⟨(s, i), List.mem_zipIdx_iff_getElem?.2 hget, rfl⟩
    · rw [asU32_of_lt (by omega)]
      exact hget

theorem computeOrder_eq (hlen : streams.length < 2 ^ 32) (key : SortKey) :
    computeOrder streams key =
      (sortByKey (fun e : Stream × Nat => sortRank key e.1) streams.zipIdx).map Prod.snd := by
  rw [computeOrder]
  rw [asU32_of_lt hlen, List.take_of_length_le (by simp)]

/-- The order is a permutation of the positions. -/
theorem computeOrder_perm (hlen : streams.length < 2 ^ 32) (key : SortKey) :
    (computeOrder streams key).Perm (List.range streams.length) := by
  rw [computeOrder_eq hlen]
  have hperm := (perm_sortByKey (fun e : Stream × Nat => sortRank key e.1) streams.zipIdx).map Prod.snd
  rw [List.zipIdx_map_snd, ← List.range_eq_range'] at hperm
  exact hperm

/-- The streams in the order of a key. -/
def ranked (streams : List Stream) (key : SortKey) : List Stream := sortByKey (sortRank key) streams

theorem filterMap_computeOrder (hlen : streams.length < 2 ^ 32) (key : SortKey) :
    (computeOrder streams key).filterMap (fun pos => streams[pos]?) = ranked streams key := by
  rw [computeOrder_eq hlen, List.filterMap_map]
  have hsome : ∀ e ∈ sortByKey (fun e : Stream × Nat => sortRank key e.1) streams.zipIdx,
      ((fun pos => streams[pos]?) ∘ Prod.snd) e = some e.1 := fun e he =>
    List.mem_zipIdx_iff_getElem?.1 (mem_sortByKey.1 he)
  rw [List.filterMap_congr hsome, ranked]
  have hmap := map_sortByKey (sortRank key) Prod.fst streams.zipIdx
  rw [List.zipIdx_map_fst] at hmap
  rw [← hmap, ← List.filterMap_eq_map]
  rfl

end Facets

/-! ## The loop of a window -/

section Loop

variable {scope keep : Stream → Bool} {offset limit : Nat}

/-- The page after the rows so far. -/
def pageOf (scope keep : Stream → Bool) (offset limit : Nat) (l : List Stream) : Page where
  total := (l.filter scope).length
  matched := (l.filter fun s => scope s && keep s).length
  rows := ((l.filter fun s => scope s && keep s).drop offset).take limit

/-- A row more is in the window exactly if it is not before it and the window is not full. -/
theorem slice_snoc (l : List Stream) (s : Stream) :
    (if offset < l.length + 1 ∧ ((l.drop offset).take limit).length < limit then
      (l.drop offset).take limit ++ [s] else (l.drop offset).take limit) =
      ((l ++ [s]).drop offset).take limit := by
  rw [List.length_take, List.length_drop]
  by_cases hbefore : l.length < offset
  · rw [if_neg (by omega), List.drop_of_length_le (by omega), List.drop_of_length_le (by simp; omega)]
  · rw [List.drop_append_of_le_length (by omega), List.take_append, List.length_drop]
    by_cases hfull : l.length - offset < limit
    · rw [if_pos (by omega), List.take_of_length_le (l := [s]) (by rw [List.length_singleton]; omega)]
    · rw [if_neg (by omega), Nat.sub_eq_zero_of_le (by omega)]
      simp

theorem step_pageOf (l : List Stream) (s : Stream) :
    (pageOf scope keep offset limit l).step scope keep offset limit s =
      pageOf scope keep offset limit (l ++ [s]) := by
  unfold Page.step pageOf
  cases hscope : scope s with
  | false => simp [List.filter_append, hscope]
  | true =>
      cases hkeep : keep s with
      | false => simp [List.filter_append, hscope, hkeep]
      | true =>
          rw [List.filter_append, List.filter_append]
          simp only [List.filter_cons, List.filter_nil, hscope, hkeep, Bool.and_self, if_true,
            List.length_append, List.length_singleton, ← slice_snoc]
          rfl

/-- The loop of `window` is one filter and one slice. -/
theorem foldl_page (l : List Stream) :
    l.foldl (Page.step scope keep offset limit) ⟨0, 0, []⟩ = pageOf scope keep offset limit l := by
  induction l using List.reverseRecOn with
  | nil => simp [pageOf]
  | append_singleton l s ih =>
      rw [List.foldl_append, ih]
      exact step_pageOf l s

end Loop

/-! ## Memos -/

/-- The memos hold what the calls compute. -/
structure SnapshotIndex.Valid (env : LensEnv) (snap : AggregatorSnapshot) (index : SnapshotIndex) : Prop where
  snap_eq : index.snap = snap
  orders : ∀ key order, index.orders key = some order → order = computeOrder snap.streams key
  query : ∀ cache, index.query = some cache → evalQuery env snap.streams cache.raw = .ok cache.sets

/-- The sets a query leads to. -/
def setsOf (env : LensEnv) (streams : List Stream) (query : Option Text) : Except Failure (Option QuerySets) :=
  match query.filter fun q => !isBlank q with
  | none => .ok none
  | some q => evalQuery env streams q

/-- The streams a window lists from, in its direction. -/
def arranged (streams : List Stream) (key : SortKey) (descending : Bool) : List Stream :=
  if descending then ranked streams key else (ranked streams key).reverse

/-- What a window returns, given its sets. -/
def answer (streams : List Stream) (spec : WindowSpec) (sets : Option QuerySets) : WindowResult :=
  let page := pageOf (inScope streams spec.scope) (keeps (keepOf sets spec.scope)) spec.offset spec.limit
    (arranged streams spec.sort spec.descending)
  ⟨page.total, if sets.isSome then some page.matched else none, page.rows⟩

namespace SnapshotIndex.Valid

variable {env : LensEnv} {snap : AggregatorSnapshot} {index : SnapshotIndex}

theorem new (env : LensEnv) (snap : AggregatorSnapshot) : Valid env snap (SnapshotIndex.new snap) :=
  ⟨rfl, fun _ _ h => (by cases h), fun _ h => (by cases h)⟩

theorem order_eq (h : Valid env snap index) (key : SortKey) :
    (index.order key).1 = computeOrder snap.streams key ∧ Valid env snap (index.order key).2 := by
  rw [SnapshotIndex.order]
  cases horder : index.orders key with
  | some order => exact ⟨h.orders key order horder, h⟩
  | none =>
      refine ⟨by rw [h.snap_eq], h.snap_eq, fun key' order horder' => ?_, h.query⟩
      by_cases hkey : key' = key
      · subst hkey
        dsimp only at horder'
        rw [Function.update_self] at horder'
        obtain rfl := Option.some.inj horder'
        rw [h.snap_eq]
      · dsimp only at horder'
        rw [Function.update_of_ne hkey] at horder'
        exact h.orders key' order horder'

/-- `query_sets` returns what it would compute, and stores only that. -/
theorem querySets_eq (h : Valid env snap index) (raw : Text) :
    (∀ f, evalQuery env snap.streams raw = .error f → index.querySets env raw = .error f) ∧
      ∀ sets, evalQuery env snap.streams raw = .ok sets →
        ∃ index', index.querySets env raw = .ok (sets, index') ∧ Valid env snap index' := by
  rw [SnapshotIndex.querySets, SnapshotIndex.cached]
  have hmiss : (∀ f, evalQuery env snap.streams raw = .error f →
      (evalQuery env index.snap.streams raw >>= fun sets =>
        pure (sets, { index with query := some ⟨raw, sets⟩ })) = .error f) ∧
      ∀ sets, evalQuery env snap.streams raw = .ok sets →
        ∃ index', (evalQuery env index.snap.streams raw >>= fun sets =>
          pure (sets, { index with query := some ⟨raw, sets⟩ })) = .ok (sets, index') ∧ Valid env snap index' := by
    have hstreams : index.snap.streams = snap.streams := by rw [h.snap_eq]
    rw [hstreams]
    refine ⟨fun f hf => by rw [hf]; rfl, fun sets hsets => ?_⟩
    refine ⟨{ index with query := some ⟨raw, sets⟩ }, by rw [hsets]; rfl, h.snap_eq, h.orders, ?_⟩
    rintro cache hcache
    obtain rfl := Option.some.inj hcache
    exact hsets
  cases hquery : index.query with
  | none => exact hmiss
  | some cache =>
      by_cases hraw : cache.raw = raw
      · have hsets := h.query cache hquery
        rw [hraw] at hsets
        simp only [Option.bind_some, hraw, if_true]
        refine ⟨fun f hf => ?_, fun sets hsets' => ?_⟩
        · rw [hsets] at hf
          cases hf
        · rw [hsets] at hsets'
          obtain rfl := Except.ok.inj hsets'
          exact ⟨index, rfl, h⟩
      · simp only [Option.bind_some, hraw, if_false]
        exact hmiss

theorem windowSets_eq (h : Valid env snap index) (query : Option Text) :
    (∀ f, setsOf env snap.streams query = .error f → index.windowSets env query = .error f) ∧
      ∀ sets, setsOf env snap.streams query = .ok sets →
        ∃ index', index.windowSets env query = .ok (sets, index') ∧ Valid env snap index' := by
  rw [setsOf, SnapshotIndex.windowSets]
  cases query.filter fun q => !isBlank q with
  | none =>
      refine ⟨fun f hf => (by cases hf), fun sets hsets => ?_⟩
      obtain rfl := Except.ok.inj hsets
      exact ⟨index, rfl, h⟩
  | some q => exact h.querySets_eq q

/-- A window does not depend on the memos. -/
theorem window_eq (h : Valid env snap index) (hlen : snap.streams.length < 2 ^ 32) (spec : WindowSpec) :
    (∀ f, setsOf env snap.streams spec.query = .error f → index.window env spec = .error f) ∧
      ∀ sets, setsOf env snap.streams spec.query = .ok sets →
        ∃ index', index.window env spec = .ok (answer snap.streams spec sets, index') ∧ Valid env snap index' := by
  obtain ⟨herror, hok⟩ := h.windowSets_eq spec.query
  rw [SnapshotIndex.window]
  refine ⟨fun f hf => ?_, fun sets hsets => ?_⟩
  · rw [herror f hf]
    rfl
  · obtain ⟨index', heq, hvalid⟩ := hok sets hsets
    obtain ⟨horder, hvalid'⟩ := hvalid.order_eq spec.sort
    refine ⟨(index'.order spec.sort).2, ?_, hvalid'⟩
    have hrows : (if spec.descending then computeOrder snap.streams spec.sort
        else (computeOrder snap.streams spec.sort).reverse).filterMap (fun pos => snap.streams[pos]?) =
        arranged snap.streams spec.sort spec.descending := by
      rw [arranged]
      split
      · exact filterMap_computeOrder hlen spec.sort
      · rw [List.filterMap_reverse, filterMap_computeOrder hlen spec.sort]
    rw [heq]
    dsimp only [bind, Except.bind]
    rw [hvalid'.snap_eq, horder, hrows, foldl_page]
    rfl

end SnapshotIndex.Valid

/-- The states of an index of a snapshot, by calls of its methods in any order. -/
inductive IndexOf (env : LensEnv) (snap : AggregatorSnapshot) : SnapshotIndex → Prop where
  | new : IndexOf env snap (SnapshotIndex.new snap)
  | order {index : SnapshotIndex} (key : SortKey) : IndexOf env snap index → IndexOf env snap (index.order key).2
  | querySets {index index' : SnapshotIndex} {raw : Text} {sets : Option QuerySets} :
      IndexOf env snap index → index.querySets env raw = .ok (sets, index') → IndexOf env snap index'
  | window {index index' : SnapshotIndex} {spec : WindowSpec} {r : WindowResult} :
      IndexOf env snap index → index.window env spec = .ok (r, index') → IndexOf env snap index'

theorem IndexOf.valid {env : LensEnv} {snap : AggregatorSnapshot} {index : SnapshotIndex}
    (hlen : snap.streams.length < 2 ^ 32) (h : IndexOf env snap index) : index.Valid env snap := by
  induction h with
  | new => exact .new env snap
  | order key _ ih => exact (ih.order_eq key).2
  | @querySets index index' raw sets _ hcall ih =>
      obtain ⟨herror, hok⟩ := ih.querySets_eq raw
      cases heval : evalQuery env snap.streams raw with
      | error f =>
          rw [herror f heval] at hcall
          cases hcall
      | ok sets' =>
          obtain ⟨index'', heq, hvalid⟩ := hok sets' heval
          rw [heq] at hcall
          obtain ⟨-, rfl⟩ := Prod.mk.inj (Except.ok.inj hcall)
          exact hvalid
  | @window index index' spec r _ hcall ih =>
      obtain ⟨herror, hok⟩ := ih.window_eq hlen spec
      cases hsets : setsOf env snap.streams spec.query with
      | error f =>
          rw [herror f hsets] at hcall
          cases hcall
      | ok sets =>
          obtain ⟨index'', heq, hvalid⟩ := hok sets hsets
          rw [heq] at hcall
          obtain ⟨-, rfl⟩ := Prod.mk.inj (Except.ok.inj hcall)
          exact hvalid

end Pktflow.View
