import Pktflow.View.Index

/-!
# Paging

A window is a slice of one list: the streams in scope that pass the query, in the cached order or its
reverse. So pages of one size put together give the list, and the windows of the roots and of all children
list every visible stream once. The one thing that keeps a window from its answer is a query on which the
lexer panics (`paging_iff`).
-/

set_option autoImplicit false

namespace Pktflow.View

open Pktflow.Core Pktflow.Flows Pktflow.Lib

/-! ## What a window is about -/

/-- The streams of a scope. -/
def InScope (streams : List Stream) (scope : Scope) (s : Stream) : Prop :=
  match scope with
  | .roots => s.parent = none
  | .childrenOf seq => ∃ t ∈ streams, t.createdSeq = seq ∧ s.parent = some t.id
  | .flat => True

/-- The query is neither absent nor blank nor broken. -/
def Parses (env : LensEnv) (query : Option Text) (e : Expr) : Prop :=
  ∃ q, query = some q ∧ isBlank q = false ∧ parseQuery env.toQueryEnv q = .ok e

/-- The streams that an expression shows in a scope: matches in the flat table, and their ancestors
elsewhere. -/
def Shows (env : LensEnv) (streams : List Stream) (e : Expr) (scope : Scope) (s : Stream) : Prop :=
  match scope with
  | .flat => env.isMatch e s (byId streams) = true
  | _ => Visible streams (byId streams) (fun t => env.isMatch e t (byId streams)) s

/-- The streams that pass a query. -/
def Passes (env : LensEnv) (streams : List Stream) (query : Option Text) (scope : Scope) (s : Stream) : Prop :=
  ∀ e, Parses env query e → Shows env streams e scope s

/-- The streams in the cached order or its reverse. -/
def SnapshotIndex.inOrder (index : SnapshotIndex) (key : SortKey) (descending : Bool) : List Stream :=
  (if descending then (index.order key).1 else (index.order key).1.reverse).filterMap fun pos =>
    index.snap.streams[pos]?

/-- The part of a list that is in scope and passes the query. -/
def Listing (env : LensEnv) (streams : List Stream) (scope : Scope) (query : Option Text)
    (order l : List Stream) : Prop :=
  ∃ p : Stream → Bool,
    (∀ s ∈ streams, p s = true ↔ InScope streams scope s ∧ Passes env streams query scope s) ∧
      l = order.filter p

/-- The rows of a window. -/
def SnapshotIndex.rows (env : LensEnv) (index : SnapshotIndex) (spec : WindowSpec) : List Stream :=
  match index.window env spec with
  | .ok r => r.1.rows
  | .error _ => []

/-- The windows of a snapshot under a query, whatever calls its index has answered before. -/
structure Paged (env : LensEnv) (snap : AggregatorSnapshot) (query : Option Text) : Prop where
  order : ∀ index, IndexOf env snap index → ∀ key, (index.order key).1.Perm (List.range snap.streams.length)
  /-- Every window of a scope, key and direction is a slice of one list. -/
  slices : ∀ scope sort descending, ∃ l inAll,
    (∀ index, IndexOf env snap index →
      Listing env snap.streams scope query (index.inOrder sort descending) l ∧
      Listing env snap.streams scope none (index.inOrder sort descending) inAll) ∧
    (∀ index, IndexOf env snap index → ∀ offset limit, ∃ r index',
      index.window env ⟨scope, query, sort, descending, offset, limit⟩ = .ok (r, index') ∧
      r.rows = (l.drop offset).take limit ∧ r.total = inAll.length ∧
      ((∃ e, Parses env query e) → r.matchTotal = some l.length) ∧
      (¬(∃ e, Parses env query e) → r.matchTotal = none)) ∧
    ∀ size n, 0 < size → l.length ≤ n * size → ∀ index : Nat → SnapshotIndex,
      (∀ i, IndexOf env snap (index i)) →
      (List.range n).flatMap (fun i =>
        (index i).rows env ⟨scope, query, sort, descending, i * size, size⟩) = l
  /-- The windows of the roots and of the children of all streams, each asked of an index of its own. -/
  once : ∀ sort descending (index : Option Stream → SnapshotIndex), (∀ i, IndexOf env snap (index i)) →
    let rows := fun i scope =>
      (index i).rows env ⟨scope, query, sort, descending, 0, snap.streams.length⟩
    let all := rows none .roots ++ snap.streams.flatMap fun t => rows (some t) (.childrenOf t.createdSeq)
    all.Nodup ∧ ∀ s, s ∈ all ↔ s ∈ snap.streams ∧ Passes env snap.streams query .roots s

/-! ## Pages -/

/-- Slices of one size, one after the other. -/
theorem flatMap_slices {α : Type} (l : List α) (size n : Nat) :
    (List.range n).flatMap (fun i => (l.drop (i * size)).take size) = l.take (n * size) := by
  induction n with
  | zero => simp
  | succ n ih =>
      rw [List.range_succ, List.flatMap_append, ih, List.flatMap_singleton, Nat.succ_mul, List.take_add]

/-! ## Well-formed snapshots -/

section WellFormed

variable {env : LensEnv} {snap : AggregatorSnapshot} {query : Option Text} {s t : Stream}

theorem seqs_nodup (h : snap.WellFormed) : (snap.streams.map Stream.createdSeq).Nodup := by
  rw [List.Nodup, List.pairwise_map]
  exact h.ordered.imp fun hlt => Nat.ne_of_lt hlt

theorem streams_nodup (h : snap.WellFormed) : snap.streams.Nodup := h.ids_nodup.of_map _

theorem byId_eq_some (h : snap.WellFormed) {i : StreamId} :
    byId snap.streams i = some s ↔ s ∈ snap.streams ∧ s.id = i :=
  lookup_position h.ids_nodup h.length_lt

theorem bySeq_eq_some (h : snap.WellFormed) {q : Nat} :
    bySeq snap.streams q = some s ↔ s ∈ snap.streams ∧ s.createdSeq = q :=
  lookup_position (seqs_nodup h) h.length_lt

theorem seq_inj (h : snap.WellFormed) (hs : s ∈ snap.streams) (ht : t ∈ snap.streams)
    (heq : s.createdSeq = t.createdSeq) : s = t :=
  List.inj_on_of_nodup_map (seqs_nodup h) hs ht heq

theorem id_inj (h : snap.WellFormed) (hs : s ∈ snap.streams) (ht : t ∈ snap.streams) (heq : s.id = t.id) :
    s = t :=
  List.inj_on_of_nodup_map h.ids_nodup hs ht heq

theorem parentIn_iff (h : snap.WellFormed) :
    ParentIn (byId snap.streams) s t ↔ t ∈ snap.streams ∧ s.parent = some t.id := by
  rw [ParentIn]
  rw [Option.bind_eq_some_iff]
  constructor
  · rintro ⟨i, hi, hget⟩
    obtain ⟨ht, rfl⟩ := (byId_eq_some h).1 hget
    exact ⟨ht, hi⟩
  · rintro ⟨ht, hi⟩
    exact ⟨t.id, hi, (byId_eq_some h).2 ⟨ht, rfl⟩⟩

/-- The map of a well-formed snapshot lists its streams, parents first. -/
theorem lists_byId (h : snap.WellFormed) : Lists snap.streams (byId snap.streams) Stream.createdSeq where
  known := fun hget => ((byId_eq_some h).1 hget).1
  seq_inj := fun s hs t ht heq => seq_inj h hs ht heq
  lower := by
    intro s p hs hp
    obtain ⟨hmem, hparent⟩ := (parentIn_iff h).1 hp
    obtain ⟨t, ht, hid, hlt, -⟩ := h.parent s hs p.id hparent
    rw [← id_inj h ht hmem hid]
    exact hlt

theorem inScope_iff (h : snap.WellFormed) {scope : Scope} :
    inScope snap.streams scope s = true ↔ InScope snap.streams scope s := by
  cases scope with
  | roots => simp [inScope, InScope]
  | flat => simp [inScope, InScope]
  | childrenOf seq =>
      simp only [inScope, InScope, Bool.and_eq_true, beq_iff_eq]
      constructor
      · rintro ⟨hparent, hsome⟩
        obtain ⟨p, hp⟩ := Option.isSome_iff_exists.1 hsome
        obtain ⟨t, ht, rfl⟩ := Option.map_eq_some_iff.1 hp
        obtain ⟨hmem, hseq⟩ := (bySeq_eq_some h).1 ht
        exact ⟨t, hmem, hseq, hparent.trans hp⟩
      · rintro ⟨t, hmem, hseq, hparent⟩
        have ht : bySeq snap.streams seq = some t := (bySeq_eq_some h).2 ⟨hmem, hseq⟩
        rw [ht, hparent]
        exact ⟨rfl, rfl⟩

theorem mem_visible (h : snap.WellFormed) (hs : s ∈ snap.streams) {isMatch : Stream → Bool} :
    s.createdSeq ∈ matchingWithAncestors snap.streams (byId snap.streams) isMatch ↔
      Visible snap.streams (byId snap.streams) isMatch s := by
  rw [mem_matchingWithAncestors (lists_byId h)]
  constructor
  · rintro ⟨t, ht, heq⟩
    have hmem : t ∈ snap.streams := by
      obtain ⟨u, hu, -, hpath⟩ := ht
      exact (lists_byId h).ancestor_mem hu hpath
    rw [← seq_inj h hmem hs heq]
    exact ht
  · intro hv
    exact ⟨s, hv, rfl⟩

theorem mem_matches (h : snap.WellFormed) (hs : s ∈ snap.streams) {isMatch : Stream → Bool} :
    s.createdSeq ∈ ((snap.streams.filter isMatch).map Stream.createdSeq).toFinset ↔ isMatch s = true := by
  rw [List.mem_toFinset, List.mem_map]
  constructor
  · rintro ⟨t, ht, heq⟩
    obtain ⟨hmem, hmatch⟩ := List.mem_filter.1 ht
    rw [← seq_inj h hmem hs heq]
    exact hmatch
  · intro hmatch
    exact ⟨s, List.mem_filter.2 ⟨hs, hmatch⟩, rfl⟩

end WellFormed

/-! ## Queries -/

/-- No bare word of the query, if it is not blank, is cut inside a character. -/
def Answerable (query : Option Text) : Prop := ∀ q, query = some q → isBlank q = true ∨ Clean .between q

section Query

variable {env : LensEnv} {snap : AggregatorSnapshot} {query : Option Text} {sets : Option QuerySets}

/-- The sets of an expression. -/
def setsFor (env : LensEnv) (streams : List Stream) (e : Expr) : QuerySets :=
  (((streams.filter fun s => env.isMatch e s (byId streams)).map Stream.createdSeq).toFinset,
    matchingWithAncestors streams (byId streams) fun s => env.isMatch e s (byId streams))

theorem setsOf_error {streams : List Stream} (h : ¬Answerable query) :
    setsOf env streams query = .error .panic := by
  rw [Answerable] at h
  push Not at h
  obtain ⟨q, rfl, hblank, hdirty⟩ := h
  have hfilter : (some q).filter (fun q => !isBlank q) = some q := by simp [hblank]
  unfold setsOf evalQuery
  rw [hfilter]
  dsimp only
  rw [parseQuery_panics env.toQueryEnv hdirty]

/-- The sets of an answerable query: those of its expression, or none. -/
theorem setsOf_ok {streams : List Stream} (h : Answerable query) :
    (setsOf env streams query = .ok none ∧ ∀ e, ¬Parses env query e) ∨
      ∃ e, setsOf env streams query = .ok (some (setsFor env streams e)) ∧ Parses env query e := by
  rw [setsOf]
  cases hfilter : query.filter fun q => !isBlank q with
  | none =>
      refine .inl ⟨rfl, ?_⟩
      rintro e ⟨q, rfl, hblank, -⟩
      simp [hblank] at hfilter
  | some q =>
      obtain ⟨hquery, hblank⟩ := Option.filter_eq_some_iff.1 hfilter
      have hblank' : isBlank q = false := by simpa using hblank
      have hclean : Clean .between q := by
        rcases h q hquery with hb | hc
        · rw [hblank'] at hb
          cases hb
        · exact hc
      have hanswers := parseQuery_answers env.toQueryEnv hclean
      unfold evalQuery
      dsimp only
      cases hparse : parseQuery env.toQueryEnv q with
      | ok e => exact .inr ⟨e, rfl, q, hquery, hblank', hparse⟩
      | error f =>
          rw [hparse] at hanswers
          cases f with
          | query e =>
              refine .inl ⟨rfl, ?_⟩
              rintro e' ⟨q', hq', -, hok⟩
              obtain rfl := Option.some.inj (hquery.symm.trans hq')
              rw [hparse] at hok
              cases hok
          | panic => exact absurd hanswers id
          | fuel => exact absurd hanswers id

theorem Parses.unique {e e' : Expr} (h : Parses env query e) (h' : Parses env query e') : e = e' := by
  obtain ⟨q, hq, -, hparse⟩ := h
  obtain ⟨q', hq', -, hparse'⟩ := h'
  obtain rfl := Option.some.inj (hq.symm.trans hq')
  exact Except.ok.inj (hparse.symm.trans hparse')

/-- The sets of a window keep what passes its query. -/
theorem keeps_iff (h : snap.WellFormed) (hquery : Answerable query) (hsets : setsOf env snap.streams query = .ok sets)
    (scope : Scope) {s : Stream} (hs : s ∈ snap.streams) :
    keeps (keepOf sets scope) s = true ↔ Passes env snap.streams query scope s := by
  rcases setsOf_ok hquery with ⟨hnone, hparse⟩ | ⟨e, hsome, hparse⟩
  · obtain rfl := Except.ok.inj (hsets.symm.trans hnone)
    exact ⟨fun _ e he => absurd he (hparse e), fun _ => rfl⟩
  · obtain rfl := Except.ok.inj (hsets.symm.trans hsome)
    have hpasses : Passes env snap.streams query scope s ↔ Shows env snap.streams e scope s := by
      constructor
      · exact fun hp => hp e hparse
      · intro hp e' he'
        rw [he'.unique hparse]
        exact hp
    rw [hpasses]
    unfold keeps keepOf
    simp only [Option.map_some, decide_eq_true_eq]
    cases scope with
    | flat => exact mem_matches h hs
    | roots => exact mem_visible h hs
    | childrenOf seq => exact mem_visible h hs

theorem isSome_sets (hquery : Answerable query) (hsets : setsOf env snap.streams query = .ok sets) :
    sets.isSome = true ↔ ∃ e, Parses env query e := by
  rcases setsOf_ok hquery with ⟨hnone, hparse⟩ | ⟨e, hsome, hparse⟩
  · obtain rfl := Except.ok.inj (hsets.symm.trans hnone)
    exact ⟨fun h => (by cases h), fun ⟨e, he⟩ => absurd he (hparse e)⟩
  · obtain rfl := Except.ok.inj (hsets.symm.trans hsome)
    exact ⟨fun _ => ⟨e, hparse⟩, fun _ => rfl⟩

end Query

/-! ## Windows -/

section Windows

variable {env : LensEnv} {snap : AggregatorSnapshot} {query : Option Text} {sets : Option QuerySets}
  {index : SnapshotIndex}

theorem inOrder_eq (h : index.Valid env snap) (hlen : snap.streams.length < 2 ^ 32) (key : SortKey)
    (descending : Bool) : index.inOrder key descending = arranged snap.streams key descending := by
  rw [SnapshotIndex.inOrder, arranged]
  rw [(h.order_eq key).1, h.snap_eq]
  split
  · exact filterMap_computeOrder hlen key
  · rw [List.filterMap_reverse, filterMap_computeOrder hlen key]

theorem perm_arranged (streams : List Stream) (key : SortKey) (descending : Bool) :
    (arranged streams key descending).Perm streams := by
  rw [arranged, ranked]
  split
  · exact perm_sortByKey _ _
  · exact (List.reverse_perm _).trans (perm_sortByKey _ _)

/-- The list that windows are slices of. -/
def listed (streams : List Stream) (scope : Scope) (sets : Option QuerySets) (key : SortKey)
    (descending : Bool) : List Stream :=
  (arranged streams key descending).filter fun s => inScope streams scope s && keeps (keepOf sets scope) s

theorem mem_listed (h : snap.WellFormed) (hquery : Answerable query)
    (hsets : setsOf env snap.streams query = .ok sets) {scope : Scope} {key : SortKey} {descending : Bool}
    {s : Stream} : s ∈ listed snap.streams scope sets key descending ↔
      s ∈ snap.streams ∧ InScope snap.streams scope s ∧ Passes env snap.streams query scope s := by
  rw [listed, List.mem_filter, (perm_arranged snap.streams key descending).mem_iff]
  apply and_congr_right
  intro hs
  rw [Bool.and_eq_true, inScope_iff h, keeps_iff h hquery hsets scope hs]

theorem nodup_listed (h : snap.WellFormed) (scope : Scope) (sets : Option QuerySets) (key : SortKey)
    (descending : Bool) : (listed snap.streams scope sets key descending).Nodup :=
  ((perm_arranged snap.streams key descending).nodup_iff.2 (streams_nodup h)).filter _

theorem listing_listed (h : snap.WellFormed) (hquery : Answerable query)
    (hsets : setsOf env snap.streams query = .ok sets) (scope : Scope) (key : SortKey) (descending : Bool) :
    Listing env snap.streams scope query (arranged snap.streams key descending)
      (listed snap.streams scope sets key descending) := by
  refine ⟨_, fun s hs => ?_, rfl⟩
  rw [Bool.and_eq_true, inScope_iff h, keeps_iff h hquery hsets scope hs]

/-- The answer to a window, as a slice. -/
theorem window_listed (h : snap.WellFormed) (hindex : IndexOf env snap index)
    (hsets : setsOf env snap.streams query = .ok sets) (scope : Scope) (key : SortKey) (descending : Bool)
    (offset limit : Nat) :
    ∃ index', index.window env ⟨scope, query, key, descending, offset, limit⟩ =
      .ok (⟨(listed snap.streams scope none key descending).length,
        if sets.isSome then some (listed snap.streams scope sets key descending).length else none,
        ((listed snap.streams scope sets key descending).drop offset).take limit⟩, index') := by
  obtain ⟨index', heq, -⟩ := ((hindex.valid h.length_lt).window_eq h.length_lt
    ⟨scope, query, key, descending, offset, limit⟩).2 sets hsets
  have htotal : listed snap.streams scope none key descending =
      (arranged snap.streams key descending).filter (inScope snap.streams scope) := by
    unfold listed keepOf keeps
    simp
  refine ⟨index', ?_⟩
  rw [heq, htotal]
  rfl

theorem rows_listed (h : snap.WellFormed) (hindex : IndexOf env snap index)
    (hsets : setsOf env snap.streams query = .ok sets) (scope : Scope) (key : SortKey) (descending : Bool)
    (offset limit : Nat) :
    index.rows env ⟨scope, query, key, descending, offset, limit⟩ =
      ((listed snap.streams scope sets key descending).drop offset).take limit := by
  obtain ⟨index', heq⟩ := window_listed h hindex hsets scope key descending offset limit
  rw [SnapshotIndex.rows]
  rw [heq]

/-- A window as large as the snapshot holds the whole list. -/
theorem rows_all (h : snap.WellFormed) (hindex : IndexOf env snap index)
    (hsets : setsOf env snap.streams query = .ok sets) (scope : Scope) (key : SortKey) (descending : Bool) :
    index.rows env ⟨scope, query, key, descending, 0, snap.streams.length⟩ =
      listed snap.streams scope sets key descending := by
  rw [rows_listed h hindex hsets, List.drop_zero, List.take_of_length_le]
  have hlen := List.length_filter_le (fun s => inScope snap.streams scope s && keeps (keepOf sets scope) s)
    (arranged snap.streams key descending)
  rw [(perm_arranged snap.streams key descending).length_eq] at hlen
  exact hlen

/-- The roots and the children of all streams, each once. -/
theorem once_listed (h : snap.WellFormed) (hquery : Answerable query)
    (hsets : setsOf env snap.streams query = .ok sets) (key : SortKey) (descending : Bool) :
    (listed snap.streams .roots sets key descending ++ snap.streams.flatMap fun t =>
      listed snap.streams (.childrenOf t.createdSeq) sets key descending).Nodup ∧
    ∀ s, s ∈ (listed snap.streams .roots sets key descending ++ snap.streams.flatMap fun t =>
      listed snap.streams (.childrenOf t.createdSeq) sets key descending) ↔
        s ∈ snap.streams ∧ Passes env snap.streams query .roots s := by
  have hroot : ∀ {s : Stream}, s ∈ listed snap.streams .roots sets key descending ↔
      s ∈ snap.streams ∧ s.parent = none ∧ Passes env snap.streams query .roots s := mem_listed h hquery hsets
  have hchild : ∀ {s t : Stream}, t ∈ snap.streams →
      (s ∈ listed snap.streams (.childrenOf t.createdSeq) sets key descending ↔
        s ∈ snap.streams ∧ s.parent = some t.id ∧ Passes env snap.streams query .roots s) := by
    intro s t ht
    rw [mem_listed h hquery hsets]
    apply and_congr_right
    intro hs
    -- trees show the same streams at every level
    apply and_congr_left
    intro _
    constructor
    · rintro ⟨u, hu, hseq, hparent⟩
      rw [← seq_inj h hu ht hseq]
      exact hparent
    · exact fun hparent => ⟨t, ht, rfl, hparent⟩
  constructor
  · rw [List.nodup_append]
    refine ⟨nodup_listed h .roots sets key descending, ?_, ?_⟩
    · refine List.nodup_flatMap.2 ⟨fun t _ => nodup_listed h _ sets key descending, ?_⟩
      apply (streams_nodup h).imp_of_mem
      intro t u ht hu hne s hs hs'
      have hparent := ((hchild ht).1 hs).2.1.symm.trans ((hchild hu).1 hs').2.1
      exact hne (id_inj h ht hu (Option.some.inj hparent))
    · intro s hs t ht heq
      obtain ⟨u, hu, ht'⟩ := List.mem_flatMap.1 ht
      have hnone := (hroot.1 hs).2.1
      rw [heq, ((hchild hu).1 ht').2.1] at hnone
      cases hnone
  · intro s
    rw [List.mem_append, List.mem_flatMap, hroot]
    constructor
    · rintro (⟨hs, -, hpass⟩ | ⟨t, ht, hs⟩)
      · exact ⟨hs, hpass⟩
      · obtain ⟨hmem, -, hpass⟩ := (hchild ht).1 hs
        exact ⟨hmem, hpass⟩
    · rintro ⟨hs, hpass⟩
      cases hparent : s.parent with
      | none => exact .inl ⟨hs, rfl, hpass⟩
      | some p =>
          obtain ⟨t, ht, rfl, -⟩ := h.parent s hs p hparent
          exact .inr ⟨t, ht, (hchild ht).2 ⟨hs, hparent, hpass⟩⟩

/-- Windows page an answerable query. -/
theorem paged_of_answerable (h : snap.WellFormed) (hquery : Answerable query) : Paged env snap query := by
  obtain ⟨sets, hsets⟩ : ∃ sets, setsOf env snap.streams query = .ok sets := by
    rcases setsOf_ok hquery with ⟨hnone, -⟩ | ⟨e, hsome, -⟩
    · exact ⟨_, hnone⟩
    · exact ⟨_, hsome⟩
  constructor
  case order =>
    intro index hindex key
    rw [((hindex.valid h.length_lt).order_eq key).1]
    exact computeOrder_perm h.length_lt key
  case slices =>
    intro scope key descending
    refine ⟨listed snap.streams scope sets key descending, listed snap.streams scope none key descending,
      fun index hindex => ?_, fun index hindex offset limit => ?_, fun size n _ hn index hindex => ?_⟩
    · rw [inOrder_eq (hindex.valid h.length_lt) h.length_lt]
      have hall : Answerable none := by
        intro q hq
        cases hq
      have hempty : setsOf env snap.streams none = .ok none := rfl
      exact ⟨listing_listed h hquery hsets scope key descending,
        listing_listed h hall hempty scope key descending⟩
    · obtain ⟨index', heq⟩ := window_listed h hindex hsets scope key descending offset limit
      refine ⟨_, index', heq, rfl, rfl, fun hparse => ?_, fun hparse => ?_⟩
      · exact if_pos ((isSome_sets hquery hsets).2 hparse)
      · exact if_neg fun hsome => hparse ((isSome_sets hquery hsets).1 hsome)
    · have hrows : ∀ i, (index i).rows env ⟨scope, query, key, descending, i * size, size⟩ =
          ((listed snap.streams scope sets key descending).drop (i * size)).take size := fun i =>
        rows_listed h (hindex i) hsets scope key descending (i * size) size
      simp only [hrows]
      rw [flatMap_slices, List.take_of_length_le hn]
  case once =>
    intro key descending index hindex
    have hrows : ∀ i scope, (index i).rows env ⟨scope, query, key, descending, 0, snap.streams.length⟩ =
        listed snap.streams scope sets key descending := fun i scope =>
      rows_all h (hindex i) hsets scope key descending
    simp only [hrows]
    exact once_listed h hquery hsets key descending

end Windows

/-- **Paging.** The windows of a snapshot are slices of one list, pages put together give it, and trees list
every visible stream once, exactly if the lexer does not panic on the query. -/
theorem paging_iff (env : LensEnv) {fenv : Env} {ops : List Op} {a : Aggregator} (h : Reaches fenv ops a)
    (query : Option Text) : Paged env a.snapshot query ↔ Answerable query := by
  constructor
  · intro hpaged
    by_contra hnot
    obtain ⟨l, inAll, -, hwindow, -⟩ := hpaged.slices .flat .bytes true
    obtain ⟨r, index', heq, -⟩ := hwindow _ .new 0 0
    have hvalid := SnapshotIndex.Valid.new env a.snapshot
    have herror := (hvalid.window_eq (Aggregator.snapshot_wellFormed h).length_lt
      ⟨.flat, query, .bytes, true, 0, 0⟩).1 .panic (setsOf_error hnot)
    rw [herror] at heq
    cases heq
  · exact paged_of_answerable (Aggregator.snapshot_wellFormed h)

/-- The sample capture under the query `udp`. -/
theorem paging_iff_sample :
    Paged sampleLens (run (sampleEnv (.live 50 10 4) 2) sampleOps).snapshot (some "udp".toList) := by
  apply (paging_iff sampleLens (reaches_run _ sampleOps (by decide)) _).2
  intro q hq
  obtain rfl := Option.some.inj hq
  exact .inr (by decide)

/-- The query `à`: the window panics. -/
theorem paging_panics :
    ¬Paged sampleLens (run (sampleEnv (.live 50 10 4) 2) sampleOps).snapshot (some [Char.ofNat 0xE0]) := by
  intro hpaged
  have hwf := Aggregator.snapshot_wellFormed
    (reaches_run (sampleEnv (.live 50 10 4) 2) sampleOps (by decide))
  have hnot : ¬Answerable (some [Char.ofNat 0xE0]) := by
    intro h
    rcases h _ rfl with hblank | hclean
    · revert hblank
      decide
    · revert hclean
      decide
  obtain ⟨l, inAll, -, hwindow, -⟩ := hpaged.slices .flat .bytes true
  obtain ⟨r, index', heq, -⟩ := hwindow _ .new 0 0
  have herror := ((SnapshotIndex.Valid.new sampleLens _).window_eq hwf.length_lt
    ⟨.flat, _, .bytes, true, 0, 0⟩).1 .panic (setsOf_error hnot)
  rw [herror] at heq
  cases heq

end Pktflow.View
