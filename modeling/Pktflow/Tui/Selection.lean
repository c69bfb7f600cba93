import Pktflow.Tui.Modes

/-!
# The selection of the terminal UI

The selection is kept by display id. The rows of a snapshot are of different streams (`rows_seqs`), so that on them the
selection moves like a cursor over their indices (`navigate_cursor`). It stays at its stream over any snapshots, while
the stream is shown and no key selects another (`selection_stays`).
-/

set_option autoImplicit false

namespace Pktflow.Tui

open Pktflow.Core Pktflow.Flows Pktflow.Lib Pktflow.View

variable {F : Type}

/-! ## The rows of a snapshot -/

section Rows

variable {env : LensEnv} {snap : AggregatorSnapshot} {sort : SortKey} {collapsed : Finset Nat}
  {keep : Option (Finset Nat)} {query : Option Text} {app : App F} {screen : Screen} {rows : List TreeRow} {i : Nat}

theorem nodup_siblings (h : snap.WellFormed) {l : List StreamId} (hl : l.Pairwise snap.CreatedBefore) :
    (siblings (byId snap.streams) keep sort l).Nodup := by
  -- the ids are those of different streams, as these were created one after the other
  have hordered : (l.filterMap (byId snap.streams)).Pairwise fun s t => s.createdSeq < t.createdSeq := by
    apply List.Pairwise.filterMap _ _ hl
    intro x y hxy s hs t ht
    obtain ⟨hs, hsx⟩ := (byId_eq_some h).1 hs
    obtain ⟨ht, hty⟩ := (byId_eq_some h).1 ht
    exact hxy s hs t ht hsx hty
  have hnodup : (l.filterMap (byId snap.streams)).Nodup := by
    apply hordered.imp
    rintro s t hlt rfl
    exact Nat.lt_irrefl _ hlt
  rw [siblings]
  cases sort <;> exact (perm_sortByKey _ _).nodup_iff.2 (hnodup.filter _)

theorem mem_shown (h : snap.WellFormed) {p c : Stream} (hc : c ∈ shown snap.streams sort collapsed keep p) :
    c ∈ snap.streams ∧ c.id ∈ p.children := by
  rw [shown] at hc
  split at hc
  · obtain ⟨hmem, hid, -⟩ := (mem_siblings h).1 hc
    exact ⟨hmem, hid⟩
  · cases hc

/-- What is shown is walked over a forest. -/
theorem forest_shown (h : snap.WellFormed) : Preorder.Forest (· ∈ snap.streams)
    (shown snap.streams sort collapsed keep) (after snap.streams) := by
  have hparent : ∀ {p c : Stream}, p ∈ snap.streams → c ∈ shown snap.streams sort collapsed keep p →
      c ∈ snap.streams ∧ c.parent = some p.id := by
    intro p c hp hc
    obtain ⟨hmem, hid⟩ := mem_shown h hc
    obtain ⟨t, ht, htid, htparent⟩ := h.child p hp c.id hid
    rw [← id_inj h ht hmem htid]
    exact ⟨ht, htparent⟩
  refine ⟨fun _ hc => (mem_shown h hc).1, ?lower, ?nodup, ?unique⟩
  case lower =>
    intro p c hp hc
    obtain ⟨hmem, hcp⟩ := hparent hp hc
    obtain ⟨t, ht, hid, hlt, -⟩ := h.parent c hmem p.id hcp
    rw [id_inj h ht hp hid] at hlt
    exact after_lt hmem hlt
  case nodup =>
    intro p hp
    rw [shown]
    split
    · exact nodup_siblings h (h.children_ordered p hp)
    · exact List.nodup_nil
  case unique =>
    intro p q c hp hq hcp hcq
    have hid := (hparent hp hcp).2.symm.trans (hparent hq hcq).2
    exact id_inj h hp hq (Option.some.inj hid)

/-- No stream has two rows, and each row is of a stream of the snapshot. -/
theorem rows_walk (h : snap.WellFormed) (hvalid : screen.index.Valid env snap)
    (hrows : app.rows env screen = .ok rows) :
    (rows.map TreeRow.stream).Nodup ∧ ∀ s ∈ rows.map TreeRow.stream, s ∈ snap.streams := by
  -- rows are only there if the query could be evaluated
  have hsets : ∃ sets, setsOf env snap.streams app.activeQuery = .ok sets := by
    cases hsets : setsOf env snap.streams app.activeQuery with
    | ok sets => exact ⟨sets, rfl⟩
    | error f =>
        rw [App.rows, flatten, (hvalid.windowSets_eq _).1 f hsets] at hrows
        cases hrows
  obtain ⟨sets, hsets⟩ := hsets
  obtain ⟨rows', index', hflat, hwalk⟩ := flatten_eq hvalid hsets app.sort app.collapsed
  rw [App.rows, hflat] at hrows
  obtain rfl := Except.ok.inj hrows
  rw [hwalk]
  have hforest := @forest_shown snap app.sort app.collapsed (sets.map Prod.snd) h
  have hroots : ∀ r ∈ siblings (byId snap.streams) (sets.map Prod.snd) app.sort snap.roots,
      r ∈ snap.streams ∧ after snap.streams r < snap.streams.length := by
    intro r hr
    have hmem := ((mem_siblings h).1 hr).1
    exact ⟨hmem, after_lt_length hmem⟩
  constructor
  · apply (List.take_sublist _ _).nodup
    apply hforest.nodup_walks hroots (nodup_siblings h h.roots_ordered)
    intro r hr p hp hrp
    -- a root has no parent
    obtain ⟨hmem, hid, -⟩ := (mem_siblings h).1 hr
    obtain ⟨t, ht, htid, hnone⟩ := (h.roots r.id).1 hid
    obtain ⟨u, hu, huid, hsome⟩ := h.child p hp r.id (mem_shown h hrp).2
    rw [id_inj h ht hu (htid.trans huid.symm), hsome] at hnone
    cases hnone
  · intro s hs
    obtain ⟨r, hr, hbelow⟩ := (hforest.mem_walks hroots).1 (List.mem_of_mem_take hs)
    rcases Relation.ReflTransGen.cases_tail hbelow with rfl | ⟨p, -, hp, hsp⟩
    · exact (hroots s hr).1
    · exact hforest.closed hp hsp

/-- The display ids of the rows are different. -/
theorem rows_seqs (h : snap.WellFormed) (hvalid : screen.index.Valid env snap)
    (hrows : app.rows env screen = .ok rows) : (rows.map fun r => r.stream.createdSeq).Nodup := by
  obtain ⟨hnodup, hmem⟩ := rows_walk h hvalid hrows
  have hseqs := hnodup.map_on fun s hs t ht heq => seq_inj h (hmem s hs) (hmem t ht) heq
  rwa [List.map_map] at hseqs

/-- A row is found under its display id. -/
theorem findIdx_seq (hnodup : (rows.map fun r => r.stream.createdSeq).Nodup) {row : TreeRow}
    (hrow : rows[i]? = some row) :
    rows.findIdx? (fun r => r.stream.createdSeq == row.stream.createdSeq) = some i := by
  obtain ⟨hi, hget⟩ := List.getElem?_eq_some_iff.1 hrow
  rw [List.findIdx?_eq_some_iff_getElem]
  refine ⟨hi, by simp [hget], fun j hj hseq => ?_⟩
  have hj' : j < rows.length := hj.trans hi
  have heq : rows[j].stream.createdSeq = rows[i].stream.createdSeq := by simpa [hget] using hseq
  have hinj : (⟨j, by simpa using hj'⟩ : Fin (rows.map fun r => r.stream.createdSeq).length) =
      ⟨i, by simpa using hi⟩ := List.nodup_iff_injective_getElem.1 hnodup (by simpa using heq)
  exact hj.ne (Fin.mk.inj hinj)

end Rows

/-! ## A cursor -/

/-- Only the selection and the scroll position of its details are others. -/
def Moved (app app' : App F) : Prop :=
  ∃ selected detailScroll, app' = { app with selected := selected, detailScroll := detailScroll }

/-- The tree is on screen and no mode is on. -/
structure Browsing (app : App F) : Prop where
  tab : app.tab = .streams
  filterEditing : app.filterEditing = false
  help : app.help = false
  unknownOpen : app.unknownOpen = false
  quit : app.quit = false

/-- The keys that go to a row. -/
def navigates (code : KeyCode) : Bool := (rowFor 0 0 code).isSome

/-- Where such a key takes a cursor on so many rows. -/
def cursorAt (len index : Nat) (code : KeyCode) : Nat := min ((rowFor index len code).getD index) (len - 1)

section Moves

variable {env : LensEnv} {app app' app'' : App F} {screen : Screen} {rows : List TreeRow} {code : KeyCode}

theorem Moved.trans (h : Moved app app') (h' : Moved app' app'') : Moved app app'' := by
  obtain ⟨_, _, rfl⟩ := h
  obtain ⟨selected, detailScroll, rfl⟩ := h'
  exact ⟨selected, detailScroll, rfl⟩

theorem Moved.rows_eq (h : Moved app app') : app'.rows env screen = app.rows env screen := by
  obtain ⟨_, _, rfl⟩ := h
  rfl

theorem Moved.browsing (h : Moved app app') (hbrowsing : Browsing app) : Browsing app' := by
  obtain ⟨_, _, rfl⟩ := h
  exact ⟨hbrowsing.tab, hbrowsing.filterEditing, hbrowsing.help, hbrowsing.unknownOpen, hbrowsing.quit⟩

theorem Moved.paused_eq (h : Moved app app') : app'.paused = app.paused := by
  obtain ⟨_, _, rfl⟩ := h
  rfl

theorem moved_selectRow (app : App F) (rows : List TreeRow) (index : Nat) : Moved app (app.selectRow rows index) := by
  rw [App.selectRow]
  split
  · exact ⟨_, _, rfl⟩
  · split
    · exact ⟨_, _, rfl⟩
    · exact ⟨_, _, rfl⟩

theorem moved_anchored (app : App F) (rows : List TreeRow) : Moved app (app.anchored rows) := by
  rw [App.anchored]
  split
  · exact ⟨_, _, rfl⟩
  · exact ⟨_, _, rfl⟩

theorem selectedIndex_nil (app : App F) : app.selectedIndex [] = 0 := by
  rw [App.selectedIndex]
  cases app.selected <;> rfl

/-- The row at an index is selected at that index. -/
theorem selectedIndex_of_row (hnodup : (rows.map fun r => r.stream.createdSeq).Nodup) {i : Nat} {row : TreeRow}
    (hrow : rows[i]? = some row) (hselected : app.selected = some row.stream.createdSeq) :
    app.selectedIndex rows = i := by
  rw [App.selectedIndex, hselected, Option.bind_some, findIdx_seq hnodup hrow, Option.getD_some]

theorem selectedIndex_selectRow (hnodup : (rows.map fun r => r.stream.createdSeq).Nodup) (index : Nat) :
    (app.selectRow rows index).selectedIndex rows = min index (rows.length - 1) := by
  rw [App.selectRow]
  cases rows with
  | nil => simp [selectedIndex_nil]
  | cons first rest =>
      have hlt : min index ((first :: rest).length - 1) < (first :: rest).length := by
        rw [List.length_cons]
        omega
      have hrow := List.getElem?_eq_getElem hlt
      rw [if_neg (by simp)]
      split
      · rename_i hnone
        rw [hrow] at hnone
        cases hnone
      · rename_i row hsome
        exact selectedIndex_of_row hnodup hsome rfl

/-- Anchoring keeps the row. -/
theorem selectedIndex_anchored (hnodup : (rows.map fun r => r.stream.createdSeq).Nodup) :
    (app.anchored rows).selectedIndex rows = app.selectedIndex rows := by
  rw [App.anchored]
  split
  · rfl
  · rename_i row hrow
    exact selectedIndex_of_row hnodup hrow rfl

/-- Whether a key goes to a row depends on the key alone. -/
theorem isSome_rowFor (index len : Nat) (code : KeyCode) : (rowFor index len code).isSome = navigates code := by
  unfold navigates rowFor
  split <;> rfl

/-- A key that goes to a row, where no mode takes it. -/
theorem onKey_navigates [LinearOrder F] (fr : Fractions F) (hbrowsing : Browsing app) (hcode : navigates code = true)
    (hrows : app.rows env screen = .ok rows) : ∃ index, rowFor (app.selectedIndex rows) rows.length code = some index ∧
      app.onKey env fr ⟨code, false⟩ screen = .ok (app.selectRow rows index) := by
  obtain ⟨index, hindex⟩ := Option.isSome_iff_exists.1
    ((isSome_rowFor (app.selectedIndex rows) rows.length code).trans hcode)
  refine ⟨index, hindex, ?_⟩
  -- none of these keys is one of the global ones
  have htab : app.onBrowseKey env fr code screen = app.onTabKey env fr code screen := by
    rw [App.onBrowseKey.eq_def]
    split <;> first
      | rfl
      | exact absurd hcode (by decide)
  rw [App.onKey, if_neg (by simp), if_neg (by simp [hbrowsing.filterEditing]), if_neg (by simp [hbrowsing.help]),
    if_neg (by simp [hbrowsing.unknownOpen]), htab, App.onTabKey, hbrowsing.tab]
  dsimp only
  rw [App.onStreamsKey, hrows]
  dsimp only [bind, Except.bind]
  rw [hindex]
  rfl

end Moves

section Cursor

variable [LinearOrder F] {env : LensEnv} {s : Loop F} {t : Turn} {rows : List TreeRow}

/-- An iteration without a new snapshot: the selection moves like a cursor, if a key was read. -/
theorem turn_navigates (fr : Fractions F) (hnodup : (rows.map fun r => r.stream.createdSeq).Nodup)
    (hbrowsing : Browsing s.app) (hrows : s.app.rows env s.view = .ok rows)
    (hheld : s.app.paused = true ∨ t.generation = s.seenGeneration)
    (hkey : ∀ key ∈ t.key, key.control = false ∧ navigates key.code = true) :
    ∃ app, s.turn env fr t.generation t.latest t.key = .ok ⟨app, s.view, s.seenGeneration⟩ ∧ Moved s.app app ∧
      app.selectedIndex rows = t.key.toList.foldl (fun i key => cursorAt rows.length i key.code)
        (s.app.selectedIndex rows) := by
  -- the view stays, whatever the hub has
  have hfresh : (!s.app.paused && t.generation != s.seenGeneration) = false := by
    rcases hheld with h | h <;> simp [h]
  have hanchored := moved_anchored s.app rows
  have hdraw : s.app.draw env s.view = .ok (s.app.anchored rows) := by
    rw [App.draw, hbrowsing.tab]
    dsimp only
    rw [hrows]
    rfl
  -- the tick is for the timeline
  have htick : (s.app.anchored rows).tick fr = s.app.anchored rows := by
    rw [App.tick, if_neg]
    rw [(hanchored.browsing hbrowsing).tab]
    exact fun h => by cases h.1
  have hturn : s.turn env fr t.generation t.latest t.key =
      (do return ⟨← (s.app.anchored rows).onRead env fr t.key s.view, s.view, s.seenGeneration⟩) := by
    rw [Loop.turn, if_neg (by simp [hbrowsing.quit])]
    simp only [hfresh, Bool.false_eq_true, if_false]
    rw [hdraw]
    dsimp only [bind, Except.bind]
    rw [htick]
  rw [hturn]
  have hindex := @selectedIndex_anchored F s.app rows hnodup
  cases hread : t.key with
  | none => exact ⟨_, rfl, hanchored, hindex⟩
  | some key =>
      obtain ⟨hcontrol, hcode⟩ := hkey key hread
      obtain ⟨code, control⟩ := key
      obtain rfl : control = false := hcontrol
      obtain ⟨index, hrow, honKey⟩ := onKey_navigates fr (hanchored.browsing hbrowsing) hcode
        (hanchored.rows_eq.trans hrows)
      have hmoved := hanchored.trans (moved_selectRow (s.app.anchored rows) rows index)
      refine ⟨(s.app.anchored rows).selectRow rows index, ?_, hmoved, ?_⟩
      · rw [App.onRead]
        rw [honKey]
        rfl
      · rw [selectedIndex_selectRow hnodup]
        rw [hindex] at hrow
        change _ = cursorAt rows.length (s.app.selectedIndex rows) code
        rw [cursorAt, hrow, Option.getD_some]

theorem run_navigates (fr : Fractions F) (hnodup : (rows.map fun r => r.stream.createdSeq).Nodup) {turns : List Turn}
    (hbrowsing : Browsing s.app) (hrows : s.app.rows env s.view = .ok rows)
    (hheld : s.app.paused = true ∨ ∀ t ∈ turns, t.generation = s.seenGeneration)
    (hkeys : ∀ t ∈ turns, ∀ key ∈ t.key, key.control = false ∧ navigates key.code = true) :
    ∃ app, s.run env fr turns = .ok ⟨app, s.view, s.seenGeneration⟩ ∧ Moved s.app app ∧
      app.selectedIndex rows = (turns.filterMap Turn.key).foldl (fun i key => cursorAt rows.length i key.code)
        (s.app.selectedIndex rows) := by
  induction turns generalizing s with
  | nil => exact ⟨s.app, rfl, ⟨_, _, rfl⟩, rfl⟩
  | cons t turns ih =>
      obtain ⟨app, hturn, hmoved, hindex⟩ := turn_navigates fr hnodup hbrowsing hrows
        (hheld.imp_right fun h => h t List.mem_cons_self) (hkeys t List.mem_cons_self)
      obtain ⟨app', hrun, hmoved', hindex'⟩ := @ih ⟨app, s.view, s.seenGeneration⟩ (hmoved.browsing hbrowsing)
        (hmoved.rows_eq.trans hrows)
        (hheld.imp hmoved.paused_eq.trans fun h t ht => h t (List.mem_cons_of_mem _ ht))
        fun t ht => hkeys t (List.mem_cons_of_mem _ ht)
      refine ⟨app', ?_, hmoved.trans hmoved', ?_⟩
      · rw [Loop.run, List.foldlM_cons, hturn]
        exact hrun
      · rw [hindex', hindex]
        cases hread : t.key with
        | none => rw [List.filterMap_cons_none hread]; rfl
        | some key => rw [List.filterMap_cons_some hread]; rfl

end Cursor

/-- Over any iterations without a new snapshot (paused, or with nothing published), in which at most keys that go to a
row are read: the rows stay, and the selection is where these keys take a cursor on them. -/
theorem navigate_cursor [LinearOrder F] {env : LensEnv} (fr : Fractions F) {fenv : Env} {ops : List Op}
    {a : Aggregator} (h : Reaches fenv ops a) {s : Loop F} (hindex : IndexOf env a.snapshot s.view.index)
    (hbrowsing : Browsing s.app) {rows : List TreeRow} (hrows : s.app.rows env s.view = .ok rows) (turns : List Turn)
    (hheld : s.app.paused = true ∨ ∀ t ∈ turns, t.generation = s.seenGeneration)
    (hkeys : ∀ t ∈ turns, ∀ key ∈ t.key, key.control = false ∧ navigates key.code = true) :
    ∃ app, s.run env fr turns = .ok ⟨app, s.view, s.seenGeneration⟩ ∧ app.rows env s.view = .ok rows ∧
      app.selectedIndex rows = (turns.filterMap Turn.key).foldl (fun i key => cursorAt rows.length i key.code)
        (s.app.selectedIndex rows) := by
  have hwf := Aggregator.snapshot_wellFormed h
  obtain ⟨app, hrun, hmoved, hcursor⟩ :=
    run_navigates fr (rows_seqs hwf (hindex.valid hwf.length_lt) hrows) hbrowsing hrows hheld hkeys
  exact ⟨app, hrun, hmoved.rows_eq.trans hrows, hcursor⟩

/-- The start, paused on the sample capture. -/
def pausedSample : Loop Int := ⟨{ App.default hundredths with paused := true }, sampleScreen 6, 0⟩

/-- Down, down, to the end and up again. -/
theorem navigate_cursor_sample :
    ∃ app rows, pausedSample.run sampleLens hundredths (sampleTurns [.down, .char 'j', .char 'G', .up]) =
        .ok ⟨app, sampleScreen 6, 0⟩ ∧
      app.rows sampleLens (sampleScreen 6) = .ok rows ∧ rows.length = 7 ∧ app.selectedIndex rows = 5 := by
  have hlength : (pausedSample.app.rows sampleLens pausedSample.view).toOption.map List.length = some 7 := by
    decide +kernel
  cases hrows : pausedSample.app.rows sampleLens pausedSample.view with
  | error f =>
      rw [hrows] at hlength
      cases hlength
  | ok rows =>
      rw [hrows] at hlength
      have hlength : rows.length = 7 := Option.some.inj hlength
      obtain ⟨app, hrun, happ, hindex⟩ := navigate_cursor hundredths
        (reaches_run (sampleEnv .none 2) sampleOps (by decide)) (s := pausedSample) .new ⟨rfl, rfl, rfl, rfl, rfl⟩ hrows
        (sampleTurns [.down, .char 'j', .char 'G', .up]) (.inl rfl) (by decide)
      refine ⟨app, rows, hrun, happ, hlength, hindex.trans ?_⟩
      rw [hlength]
      rfl

/-! ## A selection that stays -/

/-- The keys of the tree and of the timeline that may select another stream. -/
def mayMove (app : App F) (key : KeyEvent) : Bool :=
  !app.filterEditing && (navigates key.code || key.code == .left || key.code == .char 'h')

/-- The stream with the display id has a row. -/
def App.shows (env : LensEnv) (app : App F) (screen : Screen) (q : Nat) : Bool :=
  match app.rows env screen with
  | .ok rows => rows.any fun r => r.stream.createdSeq == q
  | .error _ => false

/-- Over the iterations the stream is shown wherever the tree is drawn, and no key is read that may select another. -/
def keepsShown [LinearOrder F] (env : LensEnv) (fr : Fractions F) (q : Nat) (s : Loop F) : List Turn → Bool
  | [] => true
  | t :: turns =>
      (!(s.app.tab == .streams || s.app.tab == .timeline) || s.app.shows env (s.viewFor t) q) &&
        t.key.all (fun key => !mayMove s.app key) &&
        match s.turn env fr t.generation t.latest t.key with
        | .ok s' => keepsShown env fr q s' turns
        | .error _ => false

section Stays

variable {env : LensEnv} {app app' : App F} {screen : Screen} {rows : List TreeRow} {code : KeyCode} {q : Nat}

theorem selected_onFoldKey (streams : List Stream) (hleft : code ≠ .left) (hchar : code ≠ .char 'h') :
    (app.onFoldKey rows streams code).selected = app.selected := by
  have hrow : ∀ {f : TreeRow → App F}, (∀ row, (f row).selected = app.selected) →
      ∀ row : Option TreeRow, ((row.map f).getD app).selected = app.selected := by
    intro f hf row
    cases row with
    | none => rfl
    | some row => exact hf row
  have htoggle : ∀ row, (app.toggle row).selected = app.selected := by
    intro row
    rw [App.toggle]
    split
    · split <;> rfl
    · rfl
  unfold App.onFoldKey
  dsimp only
  split
  case h_1 | h_2 => exact hrow htoggle _
  case h_3 | h_4 =>
    apply hrow
    exact fun _ => rfl
  case h_5 => exact absurd rfl hleft
  case h_6 => exact absurd rfl hchar
  all_goals rfl

theorem selected_onTimelineKey [LinearOrder F] {fr : Fractions F} (hcode : navigates code = false)
    (hkey : app.onTimelineKey env fr code screen = .ok app') : app'.selected = app.selected := by
  rw [App.onTimelineKey] at hkey
  obtain ⟨rows, -, hkey⟩ := except_bind_ok hkey
  obtain rfl := Except.ok.inj hkey
  split
  -- up and down go to a row here too
  case h_14 | h_15 | h_16 | h_17 => cases hcode
  all_goals rfl

theorem selected_onTabKey [LinearOrder F] {fr : Fractions F} (hcode : navigates code = false) (hleft : code ≠ .left)
    (hchar : code ≠ .char 'h') (hkey : app.onTabKey env fr code screen = .ok app') :
    app'.selected = app.selected := by
  rw [App.onTabKey] at hkey
  split at hkey
  · rw [App.onStreamsKey] at hkey
    obtain ⟨rows, -, hkey⟩ := except_bind_ok hkey
    obtain rfl := Except.ok.inj hkey
    have hrow := (isSome_rowFor (app.selectedIndex rows) rows.length code).trans hcode
    rw [Option.isSome_eq_false_iff, Option.isNone_iff_eq_none] at hrow
    rw [hrow]
    exact selected_onFoldKey _ hleft hchar
  · exact selected_onTimelineKey hcode hkey
  · obtain rfl := Except.ok.inj hkey
    unfold App.onUnknownKey
    split
    case h_9 => split <;> rfl
    all_goals rfl
  · obtain rfl := Except.ok.inj hkey
    rfl

/-- Other keys leave the selection, in every mode. -/
theorem selected_onKey [LinearOrder F] {fr : Fractions F} {key : KeyEvent} (hstay : mayMove app key = false)
    (hkey : app.onKey env fr key screen = .ok app') : app'.selected = app.selected := by
  rw [App.onKey] at hkey
  split at hkey
  · obtain rfl := Except.ok.inj hkey
    rfl
  split at hkey
  · rw [App.refreshQuery] at hkey
    obtain ⟨⟨query, queryError⟩, -, hkey⟩ := except_bind_ok hkey
    obtain rfl := Except.ok.inj hkey
    unfold App.editFilter
    split <;> rfl
  rename_i hediting
  split at hkey
  · obtain rfl := Except.ok.inj hkey
    rfl
  split at hkey
  · obtain rfl := Except.ok.inj hkey
    unfold App.onPopupKey
    split <;> rfl
  obtain ⟨⟨hcode, hleft⟩, hchar⟩ : (navigates key.code = false ∧ key.code ≠ .left) ∧ key.code ≠ .char 'h' := by
    simpa [mayMove, hediting] using hstay
  have htab : app.onTabKey env fr key.code screen = .ok app' → app'.selected = app.selected :=
    selected_onTabKey hcode hleft hchar
  rw [App.onBrowseKey.eq_def] at hkey
  split at hkey
  case h_9 hslash =>
    split at hkey
    · obtain rfl := Except.ok.inj hkey
      rfl
    · exact htab (hslash ▸ hkey)
  case h_10 => exact htab hkey
  all_goals exact Except.ok.inj hkey ▸ rfl

/-- Drawing the tree selects the stream again, if it has a row. -/
theorem selected_anchored (hselected : app.selected = some q) (hshown : ∃ r ∈ rows, r.stream.createdSeq = q) :
    (app.anchored rows).selected = some q := by
  obtain ⟨r, hr, hseq⟩ := hshown
  rw [App.anchored]
  split
  · exact hselected
  · rename_i row hrow
    rw [App.selectedIndex, hselected, Option.bind_some] at hrow
    -- the row that is found may be another than `r`, but has the same display id
    cases hfind : rows.findIdx? fun r => r.stream.createdSeq == q with
    | none =>
        have hno := List.findIdx?_eq_none_iff.1 hfind r hr
        simp [hseq] at hno
    | some i =>
        obtain ⟨hi, hp, -⟩ := List.findIdx?_eq_some_iff_getElem.1 hfind
        rw [hfind, Option.getD_some, List.getElem?_eq_getElem hi] at hrow
        obtain rfl := Option.some.inj hrow
        exact congrArg some (beq_iff_eq.1 hp)

theorem shows_eq_true (h : app.shows env screen q = true) :
    ∃ rows, app.rows env screen = .ok rows ∧ ∃ r ∈ rows, r.stream.createdSeq = q := by
  rw [App.shows] at h
  split at h
  · rename_i rows hrows
    obtain ⟨r, hr, hseq⟩ := List.any_eq_true.1 h
    exact ⟨rows, hrows, r, hr, beq_iff_eq.1 hseq⟩
  · cases h

theorem selected_draw (hselected : app.selected = some q)
    (hshown : app.tab = .streams ∨ app.tab = .timeline → app.shows env screen q = true)
    (hdraw : app.draw env screen = .ok app') : app'.selected = some q := by
  rw [App.draw] at hdraw
  split at hdraw
  · rename_i htab
    obtain ⟨rows, hrows, hrow⟩ := shows_eq_true (hshown (.inl htab))
    rw [hrows] at hdraw
    obtain rfl := Except.ok.inj hdraw
    exact selected_anchored hselected hrow
  · rename_i htab
    obtain ⟨rows, hrows, hrow⟩ := shows_eq_true (hshown (.inr htab))
    rw [hrows] at hdraw
    obtain rfl := Except.ok.inj hdraw
    split
    · exact selected_anchored hselected hrow
    · exact hselected
  · obtain rfl := Except.ok.inj hdraw
    split <;> exact hselected
  · obtain rfl := Except.ok.inj hdraw
    exact hselected

end Stays

section StaysRuns

variable [LinearOrder F] {env : LensEnv} {fr : Fractions F} {s s' : Loop F} {t : Turn} {q : Nat}

theorem selected_tick (app : App F) : (app.tick fr).selected = app.selected := by
  rw [App.tick]
  split
  · split <;> rfl
  · rfl

theorem filterEditing_tick (app : App F) : (app.tick fr).filterEditing = app.filterEditing := by
  rw [App.tick]
  split
  · split <;> rfl
  · rfl

theorem selected_turn (hselected : s.app.selected = some q)
    (hshown : s.app.tab = .streams ∨ s.app.tab = .timeline → s.app.shows env (s.viewFor t) q = true)
    (hkey : ∀ key ∈ t.key, mayMove s.app key = false)
    (hturn : s.turn env fr t.generation t.latest t.key = .ok s') : s'.app.selected = some q := by
  obtain ⟨-, rfl⟩ | ⟨-, -, drawn, hdrawn, hread⟩ := Loop.turn_cases hturn
  · exact hselected
  · have hticked : (drawn.tick fr).selected = some q :=
      (selected_tick drawn).trans (selected_draw hselected hshown hdrawn)
    have hediting : (drawn.tick fr).filterEditing = s.app.filterEditing :=
      (filterEditing_tick drawn).trans (sameFrame_draw hdrawn).filterEditing
    cases hk : t.key with
    | none =>
        rw [hk] at hread
        exact Except.ok.inj hread ▸ hticked
    | some key =>
        rw [hk] at hread
        have hstay := hkey key hk
        rw [mayMove, ← hediting] at hstay
        exact (selected_onKey hstay hread).trans hticked

end StaysRuns

/-- The selected stream stays selected over any snapshots and any other keys, as long as it is shown. -/
theorem selection_stays [LinearOrder F] {env : LensEnv} {fr : Fractions F} {s : Loop F} {turns : List Turn} {q : Nat}
    (hkept : keepsShown env fr q s turns = true) (hselected : s.app.selected = some q) :
    ∃ s', s.run env fr turns = .ok s' ∧ s'.app.selected = some q := by
  induction turns generalizing s with
  | nil => exact ⟨s, rfl, hselected⟩
  | cons t turns ih =>
      rw [keepsShown, Bool.and_eq_true, Bool.and_eq_true] at hkept
      obtain ⟨⟨hshown, hkey⟩, hkept⟩ := hkept
      cases hturn : s.turn env fr t.generation t.latest t.key with
      | error f =>
          rw [hturn] at hkept
          cases hkept
      | ok s₁ =>
          rw [hturn] at hkept
          have htree : s.app.tab = .streams ∨ s.app.tab = .timeline → s.app.shows env (s.viewFor t) q = true := by
            rintro (htab | htab)
            all_goals simpa [htab] using hshown
          have hother : ∀ key ∈ t.key, mayMove s.app key = false := by
            intro key hmem
            simpa [Option.mem_def.1 hmem] using hkey
          obtain ⟨s', hrun, hlast⟩ := ih hkept (selected_turn hselected htree hother hturn)
          refine ⟨s', ?_, hlast⟩
          rw [Loop.run, List.foldlM_cons, hturn]
          exact hrun

/-- The stream of the first UDP packet, while the others come and the order changes. -/
theorem selection_stays_sample :
    ∃ s', (⟨{ App.default hundredths with selected := some 2 }, sampleScreen 2, 0⟩ : Loop Int).run sampleLens hundredths
        ([⟨1, sampleScreen 4, none⟩, ⟨2, sampleScreen 5, some ⟨.char 's', false⟩⟩, ⟨3, sampleScreen 6, none⟩]) =
          .ok s' ∧
      s'.app.selected = some 2 := by
  apply selection_stays
  · decide +kernel
  · rfl

end Pktflow.Tui
