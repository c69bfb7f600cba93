import Pktflow.Tui.App

/-!
# The modes of the terminal UI

What holds in every state of the event loop, whatever keys are read and whatever the hub publishes (`loop_coherent`):
the modes exclude each other and belong to tabs, the query is that of the filter, and the timeline is in its bounds. The
keys of the tree and drawing change nothing of this (`SameFrame`).
-/

set_option autoImplicit false

namespace Pktflow.Tui

open Pktflow.Core Pktflow.Flows Pktflow.Lib Pktflow.View

variable {F : Type}

/-- The modes exclude each other and belong to tabs, the query is that of the filter, and the timeline is in its
bounds. -/
structure Coherent [LinearOrder F] (env : LensEnv) (fr : Fractions F) (app : App F) : Prop where
  query : refreshed env app.filter = .ok (app.query, app.queryError)
  editing : app.filterEditing = true →
    (app.tab = .streams ∨ app.tab = .timeline) ∧ app.help = false ∧ app.unknownOpen = false
  opened : app.unknownOpen = true → app.tab = .unknown ∧ app.help = false
  closed : app.unknownOpen = false → app.popupScroll = 0
  popup : app.popupScroll ≤ u16Max
  detail : app.detailScroll ≤ u16Max
  within : fr.lit 0 ≤ app.timelineT ∧ app.timelineT ≤ fr.lit 100
  playing : app.timelinePlaying = true → app.timelineT < fr.lit 100

/-- What is outside the tree: neither the tab and the modes nor the filter and the timeline change. -/
structure SameFrame (app app' : App F) : Prop where
  tab : app'.tab = app.tab
  filter : app'.filter = app.filter
  filterEditing : app'.filterEditing = app.filterEditing
  query : app'.query = app.query
  queryError : app'.queryError = app.queryError
  unknownOpen : app'.unknownOpen = app.unknownOpen
  popupScroll : app'.popupScroll = app.popupScroll
  help : app'.help = app.help
  timelineT : app'.timelineT = app.timelineT
  timelinePlaying : app'.timelinePlaying = app.timelinePlaying
  detailScroll : app.detailScroll ≤ u16Max → app'.detailScroll ≤ u16Max

section Frames

variable {env : LensEnv} {app app' : App F}

theorem SameFrame.refl (app : App F) : SameFrame app app := ⟨rfl, rfl, rfl, rfl, rfl, rfl, rfl, rfl, rfl, rfl, id⟩

theorem sameFrame_selectRow (app : App F) (rows : List TreeRow) (index : Nat) :
    SameFrame app (app.selectRow rows index) := by
  rw [App.selectRow]
  split
  · exact ⟨rfl, rfl, rfl, rfl, rfl, rfl, rfl, rfl, rfl, rfl, id⟩
  · split
    · exact .refl app
    · refine ⟨rfl, rfl, rfl, rfl, rfl, rfl, rfl, rfl, rfl, rfl, fun h => ?_⟩
      dsimp only
      split
      · exact h
      · exact Nat.zero_le _

theorem sameFrame_toggle (app : App F) (row : TreeRow) : SameFrame app (app.toggle row) := by
  rw [App.toggle]
  split
  · split <;> exact ⟨rfl, rfl, rfl, rfl, rfl, rfl, rfl, rfl, rfl, rfl, id⟩
  · exact .refl app

theorem sameFrame_foldOrParent (app : App F) (rows : List TreeRow) (row : TreeRow) :
    SameFrame app (app.foldOrParent rows row) := by
  rw [App.foldOrParent]
  split
  · exact ⟨rfl, rfl, rfl, rfl, rfl, rfl, rfl, rfl, rfl, rfl, id⟩
  · split
    · exact .refl app
    · exact sameFrame_selectRow app rows _

theorem sameFrame_anchored (app : App F) (rows : List TreeRow) : SameFrame app (app.anchored rows) := by
  rw [App.anchored]
  split
  · exact .refl app
  · exact ⟨rfl, rfl, rfl, rfl, rfl, rfl, rfl, rfl, rfl, rfl, id⟩

/-- A change of the row under the selection, if there is one. -/
theorem sameFrame_onRow {f : TreeRow → App F} (hf : ∀ row, SameFrame app (f row)) (row : Option TreeRow) :
    SameFrame app ((row.map f).getD app) := by
  cases row with
  | none => exact .refl app
  | some row => exact hf row

theorem sameFrame_onFoldKey (app : App F) (rows : List TreeRow) (streams : List Stream) (code : KeyCode) :
    SameFrame app (app.onFoldKey rows streams code) := by
  have hrow : ∀ collapsed sort, SameFrame app { app with collapsed := collapsed, sort := sort } :=
    fun _ _ => ⟨rfl, rfl, rfl, rfl, rfl, rfl, rfl, rfl, rfl, rfl, id⟩
  have hscroll : ∀ n, (app.detailScroll ≤ u16Max → n ≤ u16Max) → SameFrame app { app with detailScroll := n } :=
    fun _ h => ⟨rfl, rfl, rfl, rfl, rfl, rfl, rfl, rfl, rfl, rfl, h⟩
  unfold App.onFoldKey
  dsimp only
  split
  · exact sameFrame_onRow (sameFrame_toggle app) _
  · exact sameFrame_onRow (sameFrame_toggle app) _
  · exact sameFrame_onRow (fun _ => hrow _ _) _
  · exact sameFrame_onRow (fun _ => hrow _ _) _
  · exact sameFrame_onRow (sameFrame_foldOrParent app rows) _
  · exact sameFrame_onRow (sameFrame_foldOrParent app rows) _
  · exact hrow _ _
  · exact hrow _ _
  · exact hrow _ _
  · exact hscroll _ fun _ => Nat.min_le_right _ _
  · exact hscroll _ (Nat.sub_le _ _).trans
  · exact .refl app

/-- The keys of the tree change the tree alone. -/
theorem sameFrame_onStreamsKey {code : KeyCode} {screen : Screen}
    (h : app.onStreamsKey env code screen = .ok app') : SameFrame app app' := by
  rw [App.onStreamsKey] at h
  obtain ⟨rows, -, h⟩ := except_bind_ok h
  obtain rfl := Except.ok.inj h
  split
  · exact sameFrame_selectRow app rows _
  · exact sameFrame_onFoldKey app rows _ _

theorem sameFrame_draw {screen : Screen} (h : app.draw env screen = .ok app') : SameFrame app app' := by
  rw [App.draw] at h
  split at h
  · obtain ⟨rows, -, h⟩ := except_bind_ok h
    obtain rfl := Except.ok.inj h
    exact sameFrame_anchored app rows
  · obtain ⟨rows, -, h⟩ := except_bind_ok h
    obtain rfl := Except.ok.inj h
    split
    · exact sameFrame_anchored app rows
    · exact .refl app
  · obtain rfl := Except.ok.inj h
    split
    · exact .refl app
    · exact ⟨rfl, rfl, rfl, rfl, rfl, rfl, rfl, rfl, rfl, rfl, id⟩
  · obtain rfl := Except.ok.inj h
    exact .refl app

end Frames

section Invariant

variable [LinearOrder F] {env : LensEnv} {fr : Fractions F} {app app' : App F}

theorem Coherent.of_sameFrame (h : Coherent env fr app) (hsame : SameFrame app app') : Coherent env fr app' where
  query := by rw [hsame.filter, hsame.query, hsame.queryError, h.query]
  editing := by
    rw [hsame.filterEditing, hsame.tab, hsame.help, hsame.unknownOpen]
    exact h.editing
  opened := by
    rw [hsame.unknownOpen, hsame.tab, hsame.help]
    exact h.opened
  closed := by
    rw [hsame.unknownOpen, hsame.popupScroll]
    exact h.closed
  popup := hsame.popupScroll ▸ h.popup
  detail := hsame.detailScroll h.detail
  within := hsame.timelineT ▸ h.within
  playing := by
    rw [hsame.timelinePlaying, hsame.timelineT]
    exact h.playing

theorem coherent_default (env : LensEnv) (fr : Fractions F) : Coherent env fr (App.default fr) where
  query := rfl
  editing := (absurd · Bool.false_ne_true)
  opened := (absurd · Bool.false_ne_true)
  closed := fun _ => rfl
  popup := Nat.zero_le _
  detail := Nat.zero_le _
  within := ⟨fr.zero_lt_one.le, le_rfl⟩
  playing := (absurd · Bool.false_ne_true)

/-- The playhead may go anywhere in its bounds, and plays only before the end. -/
theorem Coherent.playhead (h : Coherent env fr app) {t : F} {playing : Bool}
    (hwithin : fr.lit 0 ≤ t ∧ t ≤ fr.lit 100) (hplaying : playing = true → t < fr.lit 100) :
    Coherent env fr { app with timelineT := t, timelinePlaying := playing } :=
  ⟨h.query, h.editing, h.opened, h.closed, h.popup, h.detail, hwithin, hplaying⟩

theorem coherent_scrub (h : Coherent env fr app) (delta : F) : Coherent env fr (app.scrub fr delta) := by
  apply h.playhead
  · exact ⟨le_max_left _ _, max_le fr.zero_lt_one.le (min_le_left _ _)⟩
  · intro hplaying
    cases hplaying

theorem coherent_playOrStop (h : Coherent env fr app) : Coherent env fr (app.playOrStop fr) := by
  apply h.playhead
  · split
    · exact ⟨le_rfl, fr.zero_lt_one.le⟩
    · exact h.within
  · intro hplays
    -- it plays from where it stood, unless that was the end
    have hstopped : app.timelinePlaying = false := by simpa using hplays
    split
    · exact fr.zero_lt_one
    · rename_i hend
      exact not_le.1 fun hle => hend ⟨hstopped, hle⟩

theorem coherent_tick (h : Coherent env fr app) : Coherent env fr (app.tick fr) := by
  rw [App.tick]
  split
  · split
    · apply h.playhead ⟨fr.zero_lt_one.le, le_rfl⟩
      intro hplaying
      cases hplaying
    · rename_i hbefore
      -- a tick never goes back
      have hlt := not_le.1 hbefore
      exact h.playhead ⟨h.within.1.trans (fr.le_plus _), hlt.le⟩ fun _ => hlt
  · exact h

/-- Going to another tab is possible where no mode is on. -/
theorem Coherent.goTo (h : Coherent env fr app) (hediting : app.filterEditing = false)
    (hopen : app.unknownOpen = false) (tab : Tab) : Coherent env fr { app with tab := tab } := by
  refine ⟨h.query, fun h' => ?_, fun h' => ?_, h.closed, h.popup, h.detail, h.within, h.playing⟩
  · rw [hediting] at h'
    cases h'
  · rw [hopen] at h'
    cases h'

theorem coherent_onTimelineKey (h : Coherent env fr app) (hediting : app.filterEditing = false)
    (hopen : app.unknownOpen = false) {code : KeyCode} {screen : Screen}
    (hkey : app.onTimelineKey env fr code screen = .ok app') : Coherent env fr app' := by
  rw [App.onTimelineKey] at hkey
  obtain ⟨rows, -, hkey⟩ := except_bind_ok hkey
  obtain rfl := Except.ok.inj hkey
  split
  case h_13 => exact coherent_playOrStop h
  case h_18 => exact h.goTo hediting hopen _
  case h_19 => exact h
  case h_14 | h_15 | h_16 | h_17 => exact h.of_sameFrame (sameFrame_selectRow app rows _)
  all_goals exact coherent_scrub h _

theorem coherent_onUnknownKey (h : Coherent env fr app) (htab : app.tab = .unknown)
    (hediting : app.filterEditing = false) (hhelp : app.help = false) (code : KeyCode) (count : Nat) :
    Coherent env fr (app.onUnknownKey code count) := by
  have hindex : ∀ n, Coherent env fr { app with unknownIndex := n } := fun _ =>
    ⟨h.query, h.editing, h.opened, h.closed, h.popup, h.detail, h.within, h.playing⟩
  unfold App.onUnknownKey
  split
  case h_9 =>
    -- the popup opens on a group, from the top
    split
    · refine ⟨h.query, fun hedits => ?_, fun _ => ⟨htab, hhelp⟩, fun _ => rfl, Nat.zero_le _, h.detail, h.within,
        h.playing⟩
      rw [hediting] at hedits
      cases hedits
    · exact h
  case h_10 => exact h
  all_goals exact hindex _

/-- The query follows the filter at every key of the box. -/
theorem coherent_editFilter (h : Coherent env fr app) (hediting : app.filterEditing = true) {code : KeyCode}
    (hkey : (app.editFilter code).refreshQuery env = .ok app') : Coherent env fr app' := by
  obtain ⟨htab, hhelp, hopen⟩ := h.editing hediting
  rw [App.refreshQuery] at hkey
  obtain ⟨⟨query, queryError⟩, hquery, hkey⟩ := except_bind_ok hkey
  obtain rfl := Except.ok.inj hkey
  -- of the app only the text and the mode are edited
  have hbox : ∃ filter filterEditing,
      app.editFilter code = { app with filter := filter, filterEditing := filterEditing } := by
    unfold App.editFilter
    split <;> exact ⟨_, _, rfl⟩
  obtain ⟨filter, filterEditing, hbox⟩ := hbox
  rw [hbox] at hquery ⊢
  exact ⟨hquery, fun _ => ⟨htab, hhelp, hopen⟩, h.opened, h.closed, h.popup, h.detail, h.within, h.playing⟩

theorem coherent_onPopupKey (h : Coherent env fr app) (hopen : app.unknownOpen = true) (code : KeyCode) :
    Coherent env fr (app.onPopupKey code) := by
  have hscroll : ∀ n, n ≤ u16Max → Coherent env fr { app with popupScroll := n } := by
    intro n hn
    refine ⟨h.query, h.editing, h.opened, fun hclosed => ?_, hn, h.detail, h.within, h.playing⟩
    rw [hopen] at hclosed
    cases hclosed
  have hclose : Coherent env fr { app with unknownOpen := false, popupScroll := 0 } := by
    refine ⟨h.query, fun hedits => ?_, fun hopens => ?_, fun _ => rfl, Nat.zero_le _, h.detail, h.within, h.playing⟩
    · exact ⟨(h.editing hedits).1, (h.editing hedits).2.1, rfl⟩
    · cases hopens
  unfold App.onPopupKey
  split
  case h_1 | h_2 | h_3 => exact hclose
  case h_4 | h_5 | h_8 => exact hscroll _ ((Nat.sub_le _ _).trans h.popup)
  case h_6 | h_7 | h_9 => exact hscroll _ (Nat.min_le_right _ _)
  case h_10 => exact h

theorem coherent_onTabKey (h : Coherent env fr app) (hediting : app.filterEditing = false)
    (hhelp : app.help = false) (hopen : app.unknownOpen = false) {code : KeyCode} {screen : Screen}
    (hkey : app.onTabKey env fr code screen = .ok app') : Coherent env fr app' := by
  rw [App.onTabKey] at hkey
  split at hkey
  · exact h.of_sameFrame (sameFrame_onStreamsKey hkey)
  · exact coherent_onTimelineKey h hediting hopen hkey
  · rename_i htab
    obtain rfl := Except.ok.inj hkey
    exact coherent_onUnknownKey h htab hediting hhelp _ _
  · obtain rfl := Except.ok.inj hkey
    exact h

theorem coherent_onBrowseKey (h : Coherent env fr app) (hediting : app.filterEditing = false)
    (hhelp : app.help = false) (hopen : app.unknownOpen = false) {code : KeyCode} {screen : Screen}
    (hkey : app.onBrowseKey env fr code screen = .ok app') : Coherent env fr app' := by
  have hquit : ∀ quit paused, Coherent env fr { app with quit := quit, paused := paused } := fun _ _ =>
    ⟨h.query, h.editing, h.opened, h.closed, h.popup, h.detail, h.within, h.playing⟩
  rw [App.onBrowseKey.eq_def] at hkey
  split at hkey
  case h_1 => exact Except.ok.inj hkey ▸ hquit _ _
  case h_2 =>
    obtain rfl := Except.ok.inj hkey
    refine ⟨h.query, fun hedits => ?_, fun hopens => ?_, h.closed, h.popup, h.detail, h.within, h.playing⟩
    · rw [hediting] at hedits
      cases hedits
    · rw [hopen] at hopens
      cases hopens
  -- the keys of the tabs, and the next tab
  case h_3 | h_4 | h_5 | h_6 | h_7 => exact Except.ok.inj hkey ▸ h.goTo hediting hopen _
  case h_8 => exact Except.ok.inj hkey ▸ hquit _ _
  case h_9 =>
    split at hkey
    · rename_i htab
      obtain rfl := Except.ok.inj hkey
      refine ⟨h.query, fun _ => ⟨htab, hhelp, hopen⟩, h.opened, h.closed, h.popup, h.detail, h.within, h.playing⟩
    · exact coherent_onTabKey h hediting hhelp hopen hkey
  case h_10 => exact coherent_onTabKey h hediting hhelp hopen hkey

/-- Any key in any mode. -/
theorem coherent_onKey (h : Coherent env fr app) {key : KeyEvent} {screen : Screen}
    (hkey : app.onKey env fr key screen = .ok app') : Coherent env fr app' := by
  rw [App.onKey] at hkey
  split at hkey
  · obtain rfl := Except.ok.inj hkey
    exact ⟨h.query, h.editing, h.opened, h.closed, h.popup, h.detail, h.within, h.playing⟩
  split at hkey
  · rename_i hediting
    exact coherent_editFilter h hediting hkey
  rename_i hediting
  have hediting := Bool.eq_false_iff.2 hediting
  split at hkey
  · -- the overlay goes away, and no other mode was on
    obtain rfl := Except.ok.inj hkey
    refine ⟨h.query, fun hedits => ?_, fun hopens => ⟨(h.opened hopens).1, rfl⟩, h.closed, h.popup, h.detail, h.within,
      h.playing⟩
    rw [hediting] at hedits
    cases hedits
  rename_i hhelp
  split at hkey
  · rename_i hopen
    obtain rfl := Except.ok.inj hkey
    exact coherent_onPopupKey h hopen _
  · rename_i hopen
    exact coherent_onBrowseKey h hediting (Bool.eq_false_iff.2 hhelp) (Bool.eq_false_iff.2 hopen) hkey

end Invariant

section Loops

variable [LinearOrder F] {env : LensEnv} {fr : Fractions F} {app app' : App F} {s s' : Loop F} {t : Turn}

theorem coherent_onRead (h : Coherent env fr app) {key : Option KeyEvent} {screen : Screen}
    (hkey : app.onRead env fr key screen = .ok app') : Coherent env fr app' := by
  cases key with
  | none => exact Except.ok.inj hkey ▸ h
  | some key => exact coherent_onKey h hkey

theorem coherent_turn (h : Coherent env fr s.app) (hturn : s.turn env fr t.generation t.latest t.key = .ok s') :
    Coherent env fr s'.app := by
  obtain ⟨-, rfl⟩ | ⟨-, -, drawn, hdrawn, hkey⟩ := Loop.turn_cases hturn
  · exact h
  · exact coherent_onRead (coherent_tick (h.of_sameFrame (sameFrame_draw hdrawn))) hkey

theorem coherent_run {turns : List Turn} (h : Coherent env fr s.app) (hrun : s.run env fr turns = .ok s') :
    Coherent env fr s'.app := by
  induction turns generalizing s with
  | nil =>
      obtain rfl := Except.ok.inj hrun
      exact h
  | cons t turns ih =>
      rw [Loop.run, List.foldlM_cons] at hrun
      obtain ⟨s₁, hturn, hrun⟩ := except_bind_ok hrun
      exact ih (coherent_turn h hturn) hrun

end Loops

/-- Whatever keys are read and whatever the hub publishes: in every state of the loop the modes exclude each other, the
query is that of the filter, and the playhead is in its bounds. -/
theorem loop_coherent [LinearOrder F] {env : LensEnv} {fr : Fractions F} {first : Screen} {turns : List Turn}
    {s : Loop F} (h : (Loop.start fr first).run env fr turns = .ok s) : Coherent env fr s.app :=
  coherent_run (coherent_default env fr) h

/-- The filter is typed, the last row selected, and the timeline played from the start. -/
def sampleCodes : List KeyCode :=
  [.char '/', .char 'u', .char 'd', .char 'p', .enter, .char 'G', .char '2', .char ' ', .other]

theorem loop_coherent_sample :
    ∃ s, (Loop.start hundredths (sampleScreen 6)).run sampleLens hundredths (sampleTurns sampleCodes) = .ok s ∧
      Coherent sampleLens hundredths s.app ∧
      (s.app.tab, s.app.filter, s.app.selected, s.app.timelineT) = (.timeline, "udp".toList, some 3, 1) := by
  have hend : ((Loop.start hundredths (sampleScreen 6)).run sampleLens hundredths
      (sampleTurns sampleCodes)).toOption.map (fun s => (s.app.tab, s.app.filter, s.app.selected, s.app.timelineT)) =
        some (.timeline, "udp".toList, some 3, 1) := by decide +kernel
  cases hrun : (Loop.start hundredths (sampleScreen 6)).run sampleLens hundredths (sampleTurns sampleCodes) with
  | error f =>
      rw [hrun] at hend
      cases hend
  | ok s =>
      rw [hrun] at hend
      exact ⟨s, rfl, loop_coherent hrun, Option.some.inj hend⟩

end Pktflow.Tui
