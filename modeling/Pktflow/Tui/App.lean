import Mathlib.Data.List.DropRight
import Pktflow.Tui.Tree
import Pktflow.View.Matching
import Pktflow.View.Timeline

/-!
# The terminal UI

Model of `App` (`pktflow-tui/src/app.rs`), of what a frame changes of it (`pktflow-tui/src/ui.rs`), and of the event
loop (`pktflow-tui/src/lib.rs`): the tabs and modes, the filter, the selection and the timeline, under any keys and any
snapshots published in between.
-/

set_option autoImplicit false

namespace Pktflow.Tui

open Pktflow.Core Pktflow.Flows Pktflow.Lib Pktflow.View

/-- `Tab`. -/
inductive Tab where
  | streams
  | timeline
  | unknown
  | summary
  deriving DecidableEq, Repr

/-- `Tab::next`. -/
def Tab.next : Tab → Tab
  | .streams => .timeline
  | .timeline => .unknown
  | .unknown => .summary
  | .summary => .streams

/-- `Sort::next`. -/
def nextSort : SortKey → SortKey
  | .bytes => .packets
  | .packets => .firstSeen
  | .firstSeen => .duration
  | .duration => .bytes

/-- `KeyCode`, as far as it is looked at. -/
inductive KeyCode where
  | esc
  | enter
  | backspace
  | tab
  | up
  | down
  | left
  | right
  | pageUp
  | pageDown
  | home
  | endKey
  | char (c : Char)
  | other
  deriving DecidableEq, Repr

/-- `KeyEvent`: the key, and whether it was pressed with Control. -/
structure KeyEvent where
  code : KeyCode
  control : Bool := false
  deriving DecidableEq, Repr

/-- What the timeline uses of `f64`: the literals by their hundredths, the infinities, and sums. No sum that it makes is
NaN, so that the values are in order. -/
structure Fractions (F : Type) [LinearOrder F] where
  lit : Int → F
  negInfinity : F
  infinity : F
  plus : F → F → F
  zero_lt_one : lit 0 < lit 100
  le_plus : ∀ t, t ≤ plus t (lit 1)

/-- `u16::MAX`. -/
def u16Max : Nat := 65535

/-- `u16::saturating_add`. -/
def saturatingAdd (x n : Nat) : Nat := min (x + n) u16Max

/-- `str::trim`. -/
def trimText (t : Text) : Text := (t.dropWhile isWhitespace).rdropWhile isWhitespace

/-- What is on screen: the index of a snapshot, and how many unknown groups the snapshot has. -/
structure Screen where
  index : SnapshotIndex
  unknowns : Nat

/-- `App`. -/
structure App (F : Type) where
  tab : Tab := .streams
  sort : SortKey := .bytes
  collapsed : Finset Nat := ∅
  selected : Option Nat := none
  filter : Text := []
  filterEditing : Bool := false
  query : Option Expr := none
  queryError : Option String := none
  detailScroll : Nat := 0
  unknownIndex : Nat := 0
  unknownOpen : Bool := false
  popupScroll : Nat := 0
  help : Bool := false
  paused : Bool := false
  timelineT : F
  timelinePlaying : Bool := false
  quit : Bool := false

variable {F : Type}

/-- `App::default`. -/
def App.default [LinearOrder F] (fr : Fractions F) : App F := { timelineT := fr.lit 100 }

/-- What `refresh_query` makes of a filter. -/
def refreshed (env : LensEnv) (filter : Text) : Except Failure (Option Expr × Option String) :=
  let trimmed := trimText filter
  if trimmed.isEmpty then .ok (none, none)
  else
    match parseQuery env.toQueryEnv trimmed with
    | .ok query => .ok (some query, none)
    | .error (.query e) => .ok (none, some (queryErrorText e))
    | .error f => .error f

/-- The row that a key of the tree goes to, from a row of so many. -/
def rowFor (index len : Nat) : KeyCode → Option Nat
  | .up | .char 'k' => some (index - 1)
  | .down | .char 'j' => some (index + 1)
  | .pageUp => some (index - 10)
  | .pageDown => some (index + 10)
  | .home | .char 'g' => some 0
  | .endKey | .char 'G' => some len
  | _ => none

namespace App

/-- `active_query`. -/
def activeQuery (app : App F) : Option Text := if app.query.isSome then some app.filter else none

/-- `refresh_query`. -/
def refreshQuery (env : LensEnv) (app : App F) : Except Failure (App F) := do
  let (query, queryError) ← refreshed env app.filter
  return { app with query := query, queryError := queryError }

/-- The rows on screen. -/
def rows (env : LensEnv) (app : App F) (screen : Screen) : Except Failure (List TreeRow) :=
  (flatten env screen.index app.sort app.collapsed app.activeQuery).map Prod.fst

/-- `selected_index`. -/
def selectedIndex (app : App F) (rows : List TreeRow) : Nat :=
  (app.selected.bind fun seq => rows.findIdx? fun r => r.stream.createdSeq == seq).getD 0

/-- `select_row`. -/
def selectRow (app : App F) (rows : List TreeRow) (index : Nat) : App F :=
  if rows.isEmpty then { app with selected := none }
  else
    match rows[min index (rows.length - 1)]? with
    | none => app
    | some row =>
        -- the details of another stream are shown from the top
        { app with
          detailScroll := if app.selected = some row.stream.createdSeq then app.detailScroll else 0
          selected := some row.stream.createdSeq }

/-- The fold that Enter changes. -/
def toggle (app : App F) (row : TreeRow) : App F :=
  if row.hasChildren then
    if row.stream.createdSeq ∈ app.collapsed then
      { app with collapsed := app.collapsed.erase row.stream.createdSeq }
    else { app with collapsed := insert row.stream.createdSeq app.collapsed }
  else app

/-- What Left does on a row: it folds it, or goes to the row of its parent. -/
def foldOrParent (app : App F) (rows : List TreeRow) (row : TreeRow) : App F :=
  if row.hasChildren && row.expanded && (trimText app.filter).isEmpty then
    { app with collapsed := insert row.stream.createdSeq app.collapsed }
  else
    -- a root has no row to go to
    match row.stream.parent.bind fun parent => rows.findIdx? fun r => r.stream.id == parent with
    | none => app
    | some pi => app.selectRow rows pi

/-- The keys of the tree that do not go to a row. -/
def onFoldKey (app : App F) (rows : List TreeRow) (streams : List Stream) (code : KeyCode) : App F :=
  let row := rows[app.selectedIndex rows]?
  match code with
  | .enter | .char ' ' => (row.map app.toggle).getD app
  | .right | .char 'l' =>
      (row.map fun row => { app with collapsed := app.collapsed.erase row.stream.createdSeq }).getD app
  | .left | .char 'h' => (row.map (app.foldOrParent rows)).getD app
  | .char 'e' => { app with collapsed := ∅ }
  | .char 'c' =>
      { app with collapsed := ((streams.filter fun s => !s.children.isEmpty).map Stream.createdSeq).toFinset }
  | .char 's' => { app with sort := nextSort app.sort }
  | .char 'J' => { app with detailScroll := saturatingAdd app.detailScroll 1 }
  | .char 'K' => { app with detailScroll := app.detailScroll - 1 }
  | _ => app

/-- `on_streams_key`. -/
def onStreamsKey (env : LensEnv) (app : App F) (code : KeyCode) (screen : Screen) : Except Failure (App F) := do
  let rows ← app.rows env screen
  return match rowFor (app.selectedIndex rows) rows.length code with
    | some index => app.selectRow rows index
    | none => app.onFoldKey rows screen.index.snap.streams code

/-- `scrub`. -/
def scrub [LinearOrder F] (fr : Fractions F) (app : App F) (delta : F) : App F :=
  { app with
    timelinePlaying := false
    timelineT := max (fr.lit 0) (min (fr.lit 100) (fr.plus app.timelineT delta)) }

/-- What Space does on the timeline: from the end it plays from the start. -/
def playOrStop [LinearOrder F] (fr : Fractions F) (app : App F) : App F :=
  { app with
    timelineT := if app.timelinePlaying = false ∧ fr.lit 100 ≤ app.timelineT then fr.lit 0 else app.timelineT
    timelinePlaying := !app.timelinePlaying }

/-- `on_timeline_key`. -/
def onTimelineKey [LinearOrder F] (env : LensEnv) (fr : Fractions F) (app : App F) (code : KeyCode) (screen : Screen) :
    Except Failure (App F) := do
  let rows ← app.rows env screen
  let index := app.selectedIndex rows
  return match code with
    | .left | .char 'h' => app.scrub fr (fr.lit (-2))
    | .right | .char 'l' => app.scrub fr (fr.lit 2)
    | .char '[' | .pageUp => app.scrub fr (fr.lit (-10))
    | .char ']' | .pageDown => app.scrub fr (fr.lit 10)
    | .home | .char 'g' => app.scrub fr fr.negInfinity
    | .endKey | .char 'G' => app.scrub fr fr.infinity
    | .char ' ' => app.playOrStop fr
    | .up | .char 'k' => app.selectRow rows (index - 1)
    | .down | .char 'j' => app.selectRow rows (index + 1)
    | .enter => { app with tab := .streams }
    | _ => app

/-- `tick`. -/
def tick [LinearOrder F] (fr : Fractions F) (app : App F) : App F :=
  if app.tab = .timeline ∧ app.timelinePlaying = true then
    -- the playback stops at the end
    if fr.lit 100 ≤ fr.plus app.timelineT (fr.lit 1) then
      { app with timelineT := fr.lit 100, timelinePlaying := false }
    else { app with timelineT := fr.plus app.timelineT (fr.lit 1) }
  else app

/-- `on_unknown_key`, with `count` unknown groups. -/
def onUnknownKey (app : App F) (code : KeyCode) (count : Nat) : App F :=
  match code with
  | .up | .char 'k' => { app with unknownIndex := app.unknownIndex - 1 }
  | .down | .char 'j' => { app with unknownIndex := min (app.unknownIndex + 1) (count - 1) }
  | .home | .char 'g' => { app with unknownIndex := 0 }
  | .endKey | .char 'G' => { app with unknownIndex := count - 1 }
  | .enter => if 0 < count then { app with unknownOpen := true, popupScroll := 0 } else app
  | _ => app

/-- A key in the filter box. -/
def editFilter (app : App F) : KeyCode → App F
  | .esc => { app with filter := [], filterEditing := false }
  | .enter => { app with filterEditing := false }
  | .backspace => { app with filter := app.filter.dropLast }
  | .char c => { app with filter := app.filter ++ [c] }
  | _ => app

/-- A key in the popup of an unknown group. -/
def onPopupKey (app : App F) : KeyCode → App F
  | .esc | .enter | .char 'q' => { app with unknownOpen := false, popupScroll := 0 }
  | .up | .char 'k' => { app with popupScroll := app.popupScroll - 1 }
  | .down | .char 'j' => { app with popupScroll := saturatingAdd app.popupScroll 1 }
  | .pageUp => { app with popupScroll := app.popupScroll - 16 }
  | .pageDown => { app with popupScroll := saturatingAdd app.popupScroll 16 }
  | _ => app

/-- A key that no mode and no global arm takes. -/
def onTabKey [LinearOrder F] (env : LensEnv) (fr : Fractions F) (app : App F) (code : KeyCode) (screen : Screen) :
    Except Failure (App F) :=
  match app.tab with
  | .streams => app.onStreamsKey env code screen
  | .timeline => app.onTimelineKey env fr code screen
  | .unknown => return app.onUnknownKey code screen.unknowns
  | .summary => return app

/-- A key outside the modes. -/
def onBrowseKey [LinearOrder F] (env : LensEnv) (fr : Fractions F) (app : App F) (code : KeyCode) (screen : Screen) :
    Except Failure (App F) :=
  match code with
  | .char 'q' => return { app with quit := true }
  | .char '?' => return { app with help := true }
  | .char '1' => return { app with tab := .streams }
  | .char '2' => return { app with tab := .timeline }
  | .char '3' => return { app with tab := .unknown }
  | .char '4' => return { app with tab := .summary }
  | .tab => return { app with tab := app.tab.next }
  | .char 'p' => return { app with paused := !app.paused }
  | .char '/' =>
      -- the filter is of the tree; elsewhere the slash is a key like any other
      if app.tab = .streams ∨ app.tab = .timeline then return { app with filterEditing := true }
      else app.onTabKey env fr (.char '/') screen
  | code => app.onTabKey env fr code screen

/-- `on_key`. -/
def onKey [LinearOrder F] (env : LensEnv) (fr : Fractions F) (app : App F) (key : KeyEvent) (screen : Screen) :
    Except Failure (App F) :=
  -- quits in every mode
  if key.control = true ∧ key.code = .char 'c' then return { app with quit := true }
  else if app.filterEditing then (app.editFilter key.code).refreshQuery env
  else if app.help then return { app with help := false }
  else if app.unknownOpen then return app.onPopupKey key.code
  else app.onBrowseKey env fr key.code screen

/-- The selection goes to a row again, as far as there are rows. -/
def anchored (app : App F) (rows : List TreeRow) : App F :=
  match rows[app.selectedIndex rows]? with
  | none => app
  | some row => { app with selected := some row.stream.createdSeq }

/-- What `draw` changes. -/
def draw (env : LensEnv) (app : App F) (screen : Screen) : Except Failure (App F) :=
  match app.tab with
  | .streams => do return app.anchored (← app.rows env screen)
  | .timeline => do
      let rows ← app.rows env screen
      return if (captureSpan screen.index.snap).isSome then app.anchored rows else app
  | .unknown =>
      return if screen.unknowns = 0 then app
        else { app with unknownIndex := min app.unknownIndex (screen.unknowns - 1) }
  | .summary => return app

end App

/-- The state of `event_loop`: the view is what was on screen last. -/
structure Loop (F : Type) where
  app : App F
  view : Screen
  seenGeneration : Nat

/-- The key that was read, if any. -/
def App.onRead [LinearOrder F] (env : LensEnv) (fr : Fractions F) (app : App F) (key : Option KeyEvent)
    (screen : Screen) : Except Failure (App F) :=
  match key with
  | none => return app
  | some key => app.onKey env fr key screen

/-- One iteration of `event_loop`: what the hub has then, and the key that was read, if any. -/
def Loop.turn [LinearOrder F] (env : LensEnv) (fr : Fractions F) (s : Loop F) (generation : Nat) (latest : Screen)
    (key : Option KeyEvent) : Except Failure (Loop F) :=
  if s.app.quit then return s
  else do
    -- while it is paused, the loop does not look at the generation
    let fresh := !s.app.paused && generation != s.seenGeneration
    let view := if fresh then latest else s.view
    let drawn ← s.app.draw env view
    let app ← (drawn.tick fr).onRead env fr key view
    return ⟨app, view, if fresh then generation else s.seenGeneration⟩

/-- What one iteration of the loop finds: the hub's generation and snapshot, and the key that was read, if any. -/
structure Turn where
  generation : Nat
  latest : Screen
  key : Option KeyEvent

/-- The iterations of `event_loop`. -/
def Loop.run [LinearOrder F] (env : LensEnv) (fr : Fractions F) (s : Loop F) (turns : List Turn) :
    Except Failure (Loop F) :=
  turns.foldlM (fun s t => s.turn env fr t.generation t.latest t.key) s

/-- What `event_loop` starts from: no generation has been seen. -/
def Loop.start [LinearOrder F] (fr : Fractions F) (latest : Screen) : Loop F :=
  ⟨App.default fr, latest, 2 ^ 64 - 1⟩

/-- What is on screen in an iteration. -/
def Loop.viewFor (s : Loop F) (t : Turn) : Screen :=
  if !s.app.paused && t.generation != s.seenGeneration then t.latest else s.view

theorem except_bind_ok {α β : Type} {x : Except Failure α} {f : α → Except Failure β} {b : β}
    (h : (x >>= f) = .ok b) : ∃ a, x = .ok a ∧ f a = .ok b := by
  cases x with
  | error e => cases h
  | ok a => exact ⟨a, rfl, h⟩

/-- What an iteration does. -/
theorem Loop.turn_cases [LinearOrder F] {env : LensEnv} {fr : Fractions F} {s s' : Loop F} {t : Turn}
    (h : s.turn env fr t.generation t.latest t.key = .ok s') :
    s.app.quit = true ∧ s' = s ∨
    s.app.quit = false ∧ s'.view = s.viewFor t ∧ ∃ drawn, s.app.draw env (s.viewFor t) = .ok drawn ∧
      (drawn.tick fr).onRead env fr t.key (s.viewFor t) = .ok s'.app := by
  rw [Loop.turn] at h
  split at h
  · rename_i hquit
    exact .inl ⟨hquit, (Except.ok.inj h).symm⟩
  · rename_i hquit
    obtain ⟨drawn, hdrawn, h⟩ := except_bind_ok h
    obtain ⟨app, happ, h⟩ := except_bind_ok h
    obtain rfl := Except.ok.inj h
    exact .inr ⟨Bool.eq_false_iff.2 hquit, rfl, drawn, hdrawn, happ⟩

/-! ## A sample -/

/-- Fractions in hundredths, of which the timeline has a hundred. -/
def hundredths : Fractions Int where
  lit := id
  negInfinity := -1000
  infinity := 1000
  plus := (· + ·)
  zero_lt_one := by decide
  le_plus := fun t => Int.le_add_of_nonneg_right (by decide)

/-- The streams of the sample capture after so many packets. -/
def sampleScreen (n : Nat) : Screen :=
  ⟨SnapshotIndex.new (run (sampleEnv .none 2) (sampleOps.take n)).snapshot, 0⟩

/-- Keys that are read while the hub has the sample capture, one in an iteration. -/
def sampleTurns (codes : List KeyCode) : List Turn := codes.map fun code => ⟨0, sampleScreen 6, some ⟨code, false⟩⟩

end Pktflow.Tui
