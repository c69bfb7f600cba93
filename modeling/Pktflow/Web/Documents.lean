import Mathlib.Data.Finset.Sort
import Pktflow.View.Matching

/-!
# The documents of the web server

Model of `snapshot_json`, `streams_json`, `search_json` and `stream_json` (`pktflow-web/src/api.rs`), as far as they
tell of streams. The records refer to each other by display id. In every snapshot of a store they form a forest on their
own (`forest_records`), and the documents of one snapshot agree: whatever was asked before, a record is the same in each
of them, and a search lists display ids of records, with those above them (`documents_agree`).
-/

set_option autoImplicit false

namespace Pktflow.Web

open Pktflow.Core Pktflow.Flows Pktflow.Lib Pktflow.View

/-- `FULL_SNAPSHOT_MAX_STREAMS`. -/
def fullSnapshotMaxStreams : Nat := 20000

/-- `WINDOW_LIMIT_MAX`. -/
def windowLimitMax : Nat := 500

/-- `seq_of`. -/
def seqOf (index : SnapshotIndex) (id : StreamId) : Option Nat := (byId index.snap.streams id).map Stream.createdSeq

/-- What `snapshot_json` tells of the streams. -/
structure SnapshotDoc where
  windowed : Bool
  streams : Option (List StreamRecord)
  roots : Option (List Nat)

/-- `snapshot_json`. -/
def snapshotJson (fmt : Formats) (index : SnapshotIndex) : SnapshotDoc :=
  if fullSnapshotMaxStreams < index.snap.streams.length then ⟨true, none, none⟩
  else
    ⟨false, some (index.snap.streams.map fun s => streamRecord fmt s (seqOf index)),
      some (index.snap.roots.filterMap (seqOf index))⟩

/-- `stream_json`. -/
def streamJson (fmt : Formats) (index : SnapshotIndex) (seq : Nat) : Option StreamRecord :=
  (bySeq index.snap.streams seq).map fun s => streamRecord fmt s (seqOf index)

/-- `str::parse` to a 64-bit number. -/
def parseU64 (t : Text) : Option Nat :=
  let digits := if t.head? = some '+' then t.tail else t
  let n := digits.foldl (fun n c => 10 * n + (c.toNat - '0'.toNat)) 0
  if digits ≠ [] ∧ digits.all Char.isDigit = true ∧ n < 2 ^ 64 then some n else none

/-- `SortKey::parse`. -/
def sortKeyOf (t : Text) : Option SortKey :=
  if isOneOf t ["bytes"] then some .bytes
  else if isOneOf t ["packets"] then some .packets
  else if isOneOf t ["first", "first-seen", "first_seen"] then some .firstSeen
  else if isOneOf t ["duration"] then some .duration
  else none

/-- What `streams_json` answers. -/
inductive StreamsDoc where
  | error (message : String)
  | window (total : Nat) (matchTotal : Option Nat) (rows : List StreamRecord)

/-- The scope that `scope` and `of` ask for. -/
def scopeOf (scope streamOf : Option Text) : Except String Scope :=
  let name := scope.getD "roots".toList
  if isOneOf name ["flat"] then .ok .flat
  else if isOneOf name ["children"] then
    match streamOf with
    | some t =>
        match parseU64 t with
        | some seq => .ok (.childrenOf seq)
        | none => .error "children scope needs a numeric ?of="
    | none => .error "children scope needs ?of=SEQ"
  else .ok .roots

/-- The window that the parameters ask for. -/
def windowOf (get : String → Option Text) (scope : Scope) : WindowSpec where
  scope := scope
  query := get "q"
  sort := ((get "sort").bind sortKeyOf).getD .bytes
  descending := get "order" != some "asc".toList
  offset := ((get "offset").bind parseU64).getD 0
  limit := min (((get "limit").bind parseU64).getD 200) windowLimitMax

/-- `streams_json`. -/
def streamsJson (env : LensEnv) (fmt : Formats) (index : SnapshotIndex) (get : String → Option Text) :
    Except Failure StreamsDoc :=
  match scopeOf (get "scope") (get "of") with
  | .error message => .ok (.error message)
  | .ok scope => do
      let (window, index) ← index.window env (windowOf get scope)
      return .window window.total window.matchTotal (window.rows.map fun s => streamRecord fmt s (seqOf index))

/-- What `search_json` answers. -/
structure SearchDoc where
  found : Option (List Nat) := none
  visible : Option (List Nat) := none
  matchTotal : Option Nat := none
  error : Option String := none

/-- `search_json`. -/
def searchJson (env : LensEnv) (index : SnapshotIndex) (q : Text) : Except Failure SearchDoc :=
  if isBlank q then .ok {}
  else do
    let (sets, index) ← index.querySets env q
    match sets with
    | none =>
        match parseQuery env.toQueryEnv q with
        | .error (.query e) => return { error := some (queryErrorText e) }
        | .error f => .error f
        | .ok _ => return { error := some "query error" }
    | some sets =>
        -- above the gate only the number of matches is told
        if fullSnapshotMaxStreams < index.snap.streams.length then return { matchTotal := some sets.1.card }
        else
          return {
            found := some (sets.1.sort (· ≤ ·))
            visible := some (sets.2.sort (· ≤ ·))
            matchTotal := some sets.1.card }

/-! ## The records of a snapshot -/

/-- The record of a stream in its snapshot. -/
def recordIn (fmt : Formats) (snap : AggregatorSnapshot) (s : Stream) : StreamRecord :=
  streamRecord fmt s fun id => (byId snap.streams id).map Stream.createdSeq

/-- The records of a snapshot. -/
def recordsOf (fmt : Formats) (snap : AggregatorSnapshot) : List StreamRecord := snap.streams.map (recordIn fmt snap)

/-- The display ids of the roots of a snapshot. -/
def rootsIn (snap : AggregatorSnapshot) : List Nat :=
  snap.roots.filterMap fun id => (byId snap.streams id).map Stream.createdSeq

/-- Records that form a forest by their display ids, each after its parent. -/
structure ForestDoc (records : List StreamRecord) (roots : List Nat) : Prop where
  ordered : records.Pairwise fun r r' => r.id < r'.id
  parent : ∀ r ∈ records, ∀ q, r.parent = some q → ∃ p ∈ records, p.id = q ∧ q < r.id ∧ r.id ∈ p.children
  child : ∀ r ∈ records, ∀ q ∈ r.children, ∃ c ∈ records, c.id = q ∧ c.parent = some r.id
  children_ordered : ∀ r ∈ records, r.children.Pairwise (· < ·)
  root : ∀ q, q ∈ roots ↔ ∃ r ∈ records, r.id = q ∧ r.parent = none
  roots_ordered : roots.Pairwise (· < ·)

section Records

variable {fmt : Formats} {snap : AggregatorSnapshot} {s t : Stream} {q : Nat} {l : List StreamId}

/-- The display id of a stream that is there. -/
theorem seq_eq_some (h : snap.WellFormed) {id : StreamId} :
    (byId snap.streams id).map Stream.createdSeq = some q ↔ ∃ s ∈ snap.streams, s.id = id ∧ s.createdSeq = q := by
  rw [Option.map_eq_some_iff]
  constructor
  · rintro ⟨s, hs, hq⟩
    obtain ⟨hmem, hid⟩ := (byId_eq_some h).1 hs
    exact ⟨s, hmem, hid, hq⟩
  · rintro ⟨s, hmem, hid, hq⟩
    exact ⟨s, (byId_eq_some h).2 ⟨hmem, hid⟩, hq⟩

/-- Ids of streams in creation order have their display ids in order. -/
theorem seqs_ordered (h : snap.WellFormed) (hl : l.Pairwise snap.CreatedBefore) :
    (l.filterMap fun id => (byId snap.streams id).map Stream.createdSeq).Pairwise (· < ·) := by
  rw [List.pairwise_filterMap]
  apply hl.imp
  intro i j hij q hq q' hq'
  obtain ⟨s, hs, hsi, rfl⟩ := (seq_eq_some h).1 hq
  obtain ⟨t, ht, htj, rfl⟩ := (seq_eq_some h).1 hq'
  exact hij s hs t ht hsi htj

theorem parent_recordIn (h : snap.WellFormed) :
    (recordIn fmt snap s).parent = some q ↔ ∃ p ∈ snap.streams, s.parent = some p.id ∧ p.createdSeq = q := by
  change (s.parent.bind fun id => (byId snap.streams id).map Stream.createdSeq) = some q ↔ _
  rw [Option.bind_eq_some_iff]
  constructor
  · rintro ⟨i, hi, hq⟩
    obtain ⟨p, hp, rfl, hpq⟩ := (seq_eq_some h).1 hq
    exact ⟨p, hp, hi, hpq⟩
  · rintro ⟨p, hp, hi, hpq⟩
    exact ⟨p.id, hi, (seq_eq_some h).2 ⟨p, hp, rfl, hpq⟩⟩

/-- A record without a parent is that of a root: no parent is missing. -/
theorem parent_recordIn_none (h : snap.WellFormed) (hs : s ∈ snap.streams) :
    (recordIn fmt snap s).parent = none ↔ s.parent = none := by
  constructor
  · intro hnone
    by_contra hsome
    obtain ⟨i, hi⟩ := Option.ne_none_iff_exists'.1 hsome
    obtain ⟨p, hp, rfl, -⟩ := h.parent s hs i hi
    rw [(parent_recordIn h).2 ⟨p, hp, hi, rfl⟩] at hnone
    cases hnone
  · intro hnone
    change (s.parent.bind fun id => (byId snap.streams id).map Stream.createdSeq) = none
    rw [hnone]
    rfl

theorem mem_children (h : snap.WellFormed) (hs : s ∈ snap.streams) :
    q ∈ (recordIn fmt snap s).children ↔ ∃ t ∈ snap.streams, t.parent = some s.id ∧ t.createdSeq = q := by
  change (q ∈ s.children.filterMap fun id => (byId snap.streams id).map Stream.createdSeq) ↔ _
  rw [List.mem_filterMap]
  constructor
  · rintro ⟨i, hi, hq⟩
    obtain ⟨t, ht, rfl⟩ := List.mem_map.1 ((perm_children h hs).mem_iff.1 hi)
    obtain ⟨hmem, hparent⟩ := List.mem_filter.1 ht
    obtain ⟨u, hu, hid, hseq⟩ := (seq_eq_some h).1 hq
    obtain rfl := id_inj h hu hmem hid
    exact ⟨u, hu, of_decide_eq_true hparent, hseq⟩
  · rintro ⟨t, ht, hparent, hseq⟩
    refine ⟨t.id, (perm_children h hs).mem_iff.2 (List.mem_map_of_mem ?_), (seq_eq_some h).2 ⟨t, ht, rfl, hseq⟩⟩
    exact List.mem_filter.2 ⟨ht, decide_eq_true hparent⟩

/-- The records of a snapshot form a forest. -/
theorem forest_records (h : snap.WellFormed) (fmt : Formats) : ForestDoc (recordsOf fmt snap) (rootsIn snap) where
  ordered := List.pairwise_map.2 h.ordered
  parent := by
    intro r hr q hq
    obtain ⟨s, hs, rfl⟩ := List.mem_map.1 hr
    obtain ⟨p, hp, hparent, rfl⟩ := (parent_recordIn h).1 hq
    obtain ⟨u, hu, hid, hlt, -⟩ := h.parent s hs p.id hparent
    obtain rfl := id_inj h hu hp hid
    exact ⟨_, List.mem_map_of_mem hp, rfl, hlt, (mem_children h hp).2 ⟨s, hs, hparent, rfl⟩⟩
  child := by
    intro r hr q hq
    obtain ⟨s, hs, rfl⟩ := List.mem_map.1 hr
    obtain ⟨t, ht, hparent, rfl⟩ := (mem_children h hs).1 hq
    exact ⟨_, List.mem_map_of_mem ht, rfl, (parent_recordIn h).2 ⟨s, hs, hparent, rfl⟩⟩
  children_ordered := by
    intro r hr
    obtain ⟨s, hs, rfl⟩ := List.mem_map.1 hr
    exact seqs_ordered h (h.children_ordered s hs)
  root := by
    intro q
    rw [rootsIn, List.mem_filterMap]
    constructor
    · rintro ⟨i, hi, hq⟩
      obtain ⟨s, hs, rfl, hsq⟩ := (seq_eq_some h).1 hq
      obtain ⟨t, ht, hid, hnone⟩ := (h.roots s.id).1 hi
      rw [id_inj h ht hs hid] at hnone
      exact ⟨_, List.mem_map_of_mem hs, hsq, (parent_recordIn_none h hs).2 hnone⟩
    · rintro ⟨r, hr, hq, hnone⟩
      obtain ⟨s, hs, rfl⟩ := List.mem_map.1 hr
      have hroot := (h.roots s.id).2 ⟨s, hs, rfl, (parent_recordIn_none h hs).1 hnone⟩
      exact ⟨s.id, hroot, (seq_eq_some h).2 ⟨s, hs, rfl, hq⟩⟩
  roots_ordered := seqs_ordered h h.roots_ordered

end Records

/-! ## Documents that agree -/

/-- What the documents of a snapshot tell: its records and nothing else, each everywhere the same. -/
structure Documents (env : LensEnv) (fmt : Formats) (snap : AggregatorSnapshot) (index : SnapshotIndex) : Prop where
  forest : ForestDoc (recordsOf fmt snap) (rootsIn snap)
  /-- The snapshot has all of them, or none above the gate. -/
  snapshot : snapshotJson fmt index =
    if fullSnapshotMaxStreams < snap.streams.length then ⟨true, none, none⟩
    else ⟨false, some (recordsOf fmt snap), some (rootsIn snap)⟩
  /-- A stream is found by its display id. -/
  stream : ∀ q, streamJson fmt index q = (recordsOf fmt snap).find? fun r => r.id == q
  /-- A window is bounded, and its rows are such records, each at most once. -/
  window : ∀ get total matchTotal rows, streamsJson env fmt index get = .ok (.window total matchTotal rows) →
    rows.length ≤ windowLimitMax ∧ (rows.map StreamRecord.id).Nodup ∧ ∀ r ∈ rows, streamJson fmt index r.id = some r
  /-- A search lists display ids of records in order: the matches, and with them those above. -/
  search : ∀ q doc, searchJson env index q = .ok doc → ∀ found visible, doc.found = some found →
    doc.visible = some visible → found.Pairwise (· < ·) ∧ visible.Pairwise (· < ·) ∧ found ⊆ visible ∧
      (∀ i ∈ visible, ∃ r, streamJson fmt index i = some r) ∧
      ∀ r ∈ recordsOf fmt snap, r.id ∈ visible → ∀ p, r.parent = some p → p ∈ visible
  /-- The flat table tells as many matches as the search does, also above the gate. -/
  total : ∀ q get doc total matchTotal rows, isBlank q = false → searchJson env index q = .ok doc →
    get "q" = some q → scopeOf (get "scope") (get "of") = .ok .flat →
    streamsJson env fmt index get = .ok (.window total matchTotal rows) → matchTotal = doc.matchTotal

section Documents

variable {env : LensEnv} {fmt : Formats} {snap : AggregatorSnapshot} {index : SnapshotIndex} {s : Stream}
  {query : Option Text} {sets : QuerySets}

theorem streamJson_eq_some (h : snap.WellFormed) (hindex : index.snap = snap) {q : Nat} {r : StreamRecord} :
    streamJson fmt index q = some r ↔ ∃ s ∈ snap.streams, s.createdSeq = q ∧ recordIn fmt snap s = r := by
  subst hindex
  rw [streamJson, Option.map_eq_some_iff]
  constructor
  · rintro ⟨s, hs, hr⟩
    obtain ⟨hmem, hq⟩ := (bySeq_eq_some h).1 hs
    exact ⟨s, hmem, hq, hr⟩
  · rintro ⟨s, hmem, hq, hr⟩
    exact ⟨s, (bySeq_eq_some h).2 ⟨hmem, hq⟩, hr⟩

theorem streamJson_eq_find (h : snap.WellFormed) (hindex : index.snap = snap) (q : Nat) :
    streamJson fmt index q = (recordsOf fmt snap).find? fun r => r.id == q := by
  apply Option.ext
  intro r
  rw [streamJson_eq_some h hindex]
  constructor
  · rintro ⟨s, hs, rfl, rfl⟩
    cases hfind : (recordsOf fmt snap).find? fun r => r.id == s.createdSeq with
    | none =>
        have hno := List.find?_eq_none.1 hfind _ (List.mem_map_of_mem hs)
        exact absurd (beq_self_eq_true s.createdSeq) hno
    | some r =>
        obtain ⟨t, ht, rfl⟩ := List.mem_map.1 (List.mem_of_find?_eq_some hfind)
        have hid : ((recordIn fmt snap t).id == s.createdSeq) = true := by simpa using List.find?_some hfind
        rw [seq_inj h ht hs (beq_iff_eq.1 hid)]
  · intro hfind
    obtain ⟨s, hs, rfl⟩ := List.mem_map.1 (List.mem_of_find?_eq_some hfind)
    have hid : ((recordIn fmt snap s).id == q) = true := by simpa using List.find?_some hfind
    exact ⟨s, hs, beq_iff_eq.1 hid, rfl⟩

/-- The sets of a query hold display ids, the matches among the visible ones, and what is visible has its parents. -/
theorem sets_spec (h : snap.WellFormed) {q : Text} (hsets : evalQuery env snap.streams q = .ok (some sets)) :
    sets.1 ⊆ sets.2 ∧ (∀ i ∈ sets.2, ∃ s ∈ snap.streams, s.createdSeq = i) ∧
      ∀ s ∈ snap.streams, s.createdSeq ∈ sets.2 → ∀ p, ParentIn (byId snap.streams) s p → p.createdSeq ∈ sets.2 := by
  rw [evalQuery] at hsets
  split at hsets
  case h_2 => cases hsets
  case h_3 => cases hsets
  rename_i e he
  obtain rfl := Option.some.inj (Except.ok.inj hsets)
  have hlists := lists_byId h
  refine ⟨fun i hi => ?_, fun i hi => ?_, fun s hs hi p hp => ?_⟩
  · obtain ⟨s, hs, rfl⟩ := List.mem_map.1 (List.mem_toFinset.1 hi)
    obtain ⟨hmem, hmatch⟩ := List.mem_filter.1 hs
    exact (mem_visible h hmem).2 ⟨s, hmem, hmatch, .refl⟩
  · obtain ⟨t, ⟨u, hu, -, hpath⟩, rfl⟩ := (mem_matchingWithAncestors hlists i).1 hi
    exact ⟨t, hlists.ancestor_mem hu hpath, rfl⟩
  · obtain ⟨u, hu, hmatch, hpath⟩ := (mem_visible h hs).1 hi
    exact (mem_visible h (hlists.parent_mem hp)).2 ⟨u, hu, hmatch, hpath.tail hp⟩

/-- A window answers with a stretch of the listing. -/
theorem streamsJson_window (h : snap.WellFormed) (hindex : IndexOf env snap index) {get : String → Option Text}
    {total : Nat} {matchTotal : Option Nat} {rows : List StreamRecord}
    (hdoc : streamsJson env fmt index get = .ok (.window total matchTotal rows)) :
    ∃ scope sets, scopeOf (get "scope") (get "of") = .ok scope ∧ setsOf env snap.streams (get "q") = .ok sets ∧
      (matchTotal = if sets.isSome then some (listed snap.streams scope sets (windowOf get scope).sort
        (windowOf get scope).descending).length else none) ∧
      rows = (((listed snap.streams scope sets (windowOf get scope).sort (windowOf get scope).descending).drop
        (windowOf get scope).offset).take (windowOf get scope).limit).map (recordIn fmt snap) := by
  have hvalid := hindex.valid h.length_lt
  rw [streamsJson] at hdoc
  split at hdoc
  · cases hdoc
  rename_i scope hscope
  cases hsets : setsOf env snap.streams (get "q") with
  | error f =>
      rw [(hvalid.window_eq h.length_lt (windowOf get scope)).1 f hsets] at hdoc
      cases hdoc
  | ok sets =>
      obtain ⟨index', heq, hvalid'⟩ := (hvalid.window_eq h.length_lt (windowOf get scope)).2 sets hsets
      obtain ⟨index'', hlisted⟩ := window_listed h hindex hsets scope (windowOf get scope).sort
        (windowOf get scope).descending (windowOf get scope).offset (windowOf get scope).limit
      have hanswer := Except.ok.inj (heq.symm.trans hlisted)
      rw [heq] at hdoc
      dsimp only [bind, Except.bind] at hdoc
      obtain ⟨-, hmatch, hrows⟩ := StreamsDoc.window.inj (Except.ok.inj hdoc)
      have hrecord : (fun s => streamRecord fmt s (seqOf index')) = recordIn fmt snap := by
        funext s
        rw [recordIn, ← hvalid'.snap_eq]
        rfl
      refine ⟨scope, sets, hscope, rfl, ?_, ?_⟩
      · exact hmatch.symm.trans (congrArg (fun r => r.1.matchTotal) hanswer)
      · rw [← hrows, hrecord]
        exact congrArg (fun r => r.1.rows.map (recordIn fmt snap)) hanswer

/-- A search that succeeds tells the sets of the query, as far as the gate lets it. -/
theorem searchJson_sets (hvalid : index.Valid env snap) {q : Text} {doc : SearchDoc} (hq : isBlank q = false)
    (hdoc : searchJson env index q = .ok doc) :
    ∃ sets, evalQuery env snap.streams q = .ok sets ∧ doc.matchTotal = sets.map (fun sets => sets.1.card) ∧
      ∀ found visible, doc.found = some found → doc.visible = some visible →
        ∃ sets', sets = some sets' ∧ found = sets'.1.sort (· ≤ ·) ∧ visible = sets'.2.sort (· ≤ ·) := by
  rw [searchJson, if_neg (by simp [hq])] at hdoc
  cases hsets : evalQuery env snap.streams q with
  | error f =>
      rw [(hvalid.querySets_eq q).1 f hsets] at hdoc
      cases hdoc
  | ok sets =>
      obtain ⟨index', heq, -⟩ := (hvalid.querySets_eq q).2 sets hsets
      rw [heq] at hdoc
      dsimp only [bind, Except.bind] at hdoc
      refine ⟨sets, rfl, ?_⟩
      cases sets with
      | none =>
          dsimp only at hdoc
          split at hdoc
          · obtain rfl := Except.ok.inj hdoc
            exact ⟨rfl, fun _ _ hfound => by cases hfound⟩
          · cases hdoc
          · obtain rfl := Except.ok.inj hdoc
            exact ⟨rfl, fun _ _ hfound => by cases hfound⟩
      | some sets =>
          dsimp only at hdoc
          split at hdoc
          · obtain rfl := Except.ok.inj hdoc
            exact ⟨rfl, fun _ _ hfound => by cases hfound⟩
          · obtain rfl := Except.ok.inj hdoc
            refine ⟨rfl, fun found visible hfound hvisible => ⟨sets, rfl, ?_, ?_⟩⟩
            · exact (Option.some.inj hfound).symm
            · exact (Option.some.inj hvisible).symm

/-- The flat table lists one stream for each match. -/
theorem length_flat (h : snap.WellFormed) {q : Text} (hsets : evalQuery env snap.streams q = .ok (some sets))
    (key : SortKey) (descending : Bool) :
    (listed snap.streams .flat (some sets) key descending).length = sets.1.card := by
  have hperm := perm_arranged snap.streams key descending
  have hnodup : ((listed snap.streams .flat (some sets) key descending).map Stream.createdSeq).Nodup :=
    ((hperm.map _).nodup_iff.2 (seqs_nodup h)).sublist (List.filter_sublist.map _)
  have hset : ((listed snap.streams .flat (some sets) key descending).map Stream.createdSeq).toFinset = sets.1 := by
    ext i
    rw [List.mem_toFinset, List.mem_map]
    constructor
    · rintro ⟨s, hs, rfl⟩
      have hkept := (Bool.and_eq_true_iff.1 (List.mem_filter.1 hs).2).2
      exact of_decide_eq_true hkept
    · intro hi
      obtain ⟨hsub, hknown, -⟩ := sets_spec h hsets
      obtain ⟨s, hs, rfl⟩ := hknown i (hsub hi)
      refine ⟨s, List.mem_filter.2 ⟨hperm.mem_iff.2 hs, ?_⟩, rfl⟩
      exact Bool.and_eq_true_iff.2 ⟨rfl, decide_eq_true hi⟩
  rw [← hset, List.toFinset_card_of_nodup hnodup, List.length_map]

theorem documents_of_wellFormed (h : snap.WellFormed) (hindex : IndexOf env snap index) (fmt : Formats) :
    Documents env fmt snap index := by
  have hvalid := hindex.valid h.length_lt
  have hsnap := hvalid.snap_eq
  refine ⟨forest_records h fmt, ?snapshot, streamJson_eq_find h hsnap, ?window, ?search, ?total⟩
  case snapshot =>
    subst hsnap
    rfl
  case window =>
    intro get total matchTotal rows hdoc
    obtain ⟨scope, sets, -, -, -, rfl⟩ := streamsJson_window h hindex hdoc
    -- the rows are a stretch of the listing, which has no stream twice
    have hsub := (List.take_sublist (windowOf get scope).limit _).trans
      ((List.drop_sublist (windowOf get scope).offset (listed snap.streams scope sets (windowOf get scope).sort
        (windowOf get scope).descending)).trans List.filter_sublist)
    have hperm := perm_arranged snap.streams (windowOf get scope).sort (windowOf get scope).descending
    refine ⟨?_, ?_, ?_⟩
    · rw [List.length_map]
      exact (List.length_take_le _ _).trans (Nat.min_le_right _ _)
    · rw [List.map_map]
      exact ((hperm.map _).nodup_iff.2 (seqs_nodup h)).sublist (hsub.map _)
    · intro r hr
      obtain ⟨s, hs, rfl⟩ := List.mem_map.1 hr
      exact (streamJson_eq_some h hsnap).2 ⟨s, hperm.mem_iff.1 (hsub.subset hs), rfl, rfl⟩
  case search =>
    intro q doc hdoc found visible hfound hvisible
    cases hq : isBlank q with
    | true =>
        rw [searchJson, if_pos hq] at hdoc
        obtain rfl := Except.ok.inj hdoc
        cases hfound
    | false =>
        obtain ⟨sets, hsets, -, hlists⟩ := searchJson_sets hvalid hq hdoc
        obtain ⟨sets, rfl, rfl, rfl⟩ := hlists found visible hfound hvisible
        obtain ⟨hsub, hknown, hclosed⟩ := sets_spec h hsets
        refine ⟨(Finset.sortedLT_sort _).pairwise, (Finset.sortedLT_sort _).pairwise, ?_, ?_, ?_⟩
        · intro i hi
          exact (Finset.mem_sort _).2 (hsub ((Finset.mem_sort _).1 hi))
        · intro i hi
          obtain ⟨s, hs, hseq⟩ := hknown i ((Finset.mem_sort _).1 hi)
          exact ⟨_, (streamJson_eq_some h hsnap).2 ⟨s, hs, hseq, rfl⟩⟩
        · intro r hr hi p hp
          obtain ⟨s, hs, rfl⟩ := List.mem_map.1 hr
          obtain ⟨u, hu, hparent, rfl⟩ := (parent_recordIn h).1 hp
          exact (Finset.mem_sort _).2 (hclosed s hs ((Finset.mem_sort _).1 hi) u
            ((parentIn_iff h).2 ⟨hu, hparent⟩))
  case total =>
    intro q get doc total matchTotal rows hq hdoc hget hflat hwindow
    obtain ⟨sets, hsets, htotal, -⟩ := searchJson_sets hvalid hq hdoc
    obtain ⟨scope, sets', hscope, hsets', hmatch, -⟩ := streamsJson_window h hindex hwindow
    obtain rfl := Except.ok.inj (hflat.symm.trans hscope)
    -- both evaluate the query on the same streams
    rw [hget, setsOf, Option.filter_some_pos (by simp [hq])] at hsets'
    obtain rfl := Except.ok.inj (hsets.symm.trans hsets')
    rw [hmatch, htotal]
    cases sets with
    | none => rfl
    | some sets =>
        rw [length_flat h hsets]
        rfl

end Documents

/-- The documents of every snapshot of a store agree, whatever its index was asked before. -/
theorem documents_agree (env : LensEnv) (fmt : Formats) {fenv : Env} {ops : List Op} {a : Aggregator}
    (h : Reaches fenv ops a) {index : SnapshotIndex} (hindex : IndexOf env a.snapshot index) :
    Documents env fmt a.snapshot index :=
  documents_of_wellFormed (Aggregator.snapshot_wellFormed h) hindex fmt

/-- The documents of the sample capture: a root with what is below it, and one with a child. -/
theorem documents_agree_sample :
    Documents sampleMatchEnv.lens sampleMatchEnv.fmt (run (sampleEnv .none 2) sampleOps).snapshot
        (SnapshotIndex.new (run (sampleEnv .none 2) sampleOps).snapshot) ∧
      ((recordsOf sampleMatchEnv.fmt (run (sampleEnv .none 2) sampleOps).snapshot).map fun r => (r.id, r.parent)) =
        [(0, none), (1, some 0), (2, some 1), (3, some 1), (4, some 1), (5, none), (6, some 5)] ∧
      rootsIn (run (sampleEnv .none 2) sampleOps).snapshot = [0, 5] := by
  refine ⟨documents_agree sampleMatchEnv.lens sampleMatchEnv.fmt (reaches_run _ sampleOps (by decide)) .new, ?_, ?_⟩
  · decide +kernel
  · decide +kernel

end Pktflow.Web
