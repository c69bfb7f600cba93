import Pktflow.Flows.Lifecycle
import Pktflow.Plugins.Transport

/-!
# TCP teardown

The lifecycle of `tcp.rs`, driven by any segments in either direction. The state `closing` does not record
whose FIN led to it, so a second FIN closes the session whichever side sent it. The session is torn down as
meant exactly if the FIN that completes it answers one of the other side (`tearsDown_iff`). A reset comes from
an RST, and a session that is over stays so, whatever the segments are.
-/

set_option autoImplicit false

namespace Pktflow.Plugins

open Pktflow.Core Pktflow.Flows

/-- The segment has a flag set. -/
def carries (flag : UInt64) (f : Fold) : Bool :=
  match f.layer.fields.get "flags" with
  | some (.u64 flags) => flags &&& flag ≠ 0
  | _ => false

/-- The state that segments of one stream lead to. -/
def sessionState (segments : List Fold) : StateName := stateAfter tcpLifecycle segments

/-- The session is over. -/
def IsOver (segments : List Fold) : Prop := sessionState segments = "closed" ∨ sessionState segments = "reset"

/-- A FIN came from this side. -/
def SentFin (dir : PacketDirection) (segments : List Fold) : Prop :=
  ∃ f ∈ segments, carries finFlag f = true ∧ f.dir = dir

/-- At every point of a session: it is closed only after a FIN of both sides, reset only after an RST, and once
one of these it stays so. -/
structure TearsDown (segments : List Fold) : Prop where
  closed : ∀ seen, seen <+: segments → sessionState seen = "closed" → ∀ dir, SentFin dir seen
  reset : ∀ seen, seen <+: segments → sessionState seen = "reset" → ∃ f ∈ seen, carries rstFlag f = true
  stays : ∀ seen later, seen <+: later → later <+: segments → IsOver seen → IsOver later

/-- The segment completes the teardown of a session that is closing. -/
def Completes (seen : List Fold) (f : Fold) : Prop :=
  sessionState seen = "closing" ∧ carries finFlag f = true ∧ carries ackFlag f = true ∧ carries rstFlag f = false

/-- A FIN that completes the teardown answers one of the other side. -/
def AnswersFin (segments : List Fold) : Prop :=
  ∀ seen f, seen ++ [f] <+: segments → Completes seen f → ∃ g ∈ seen, carries finFlag g = true ∧ g.dir ≠ f.dir

section Steps

variable {seen : List Fold} {f : Fold}

theorem sessionState_snoc :
    sessionState (seen ++ [f]) = advance f.layer.fields (sessionState seen) f.dir :=
  stateAfter_snoc tcpLifecycle seen f

/-- The flags of a segment that has them. -/
theorem carries_of_get {flags flag : UInt64} (h : f.layer.fields.get "flags" = some (.u64 flags)) :
    carries flag f = decide (flags &&& flag ≠ 0) := by
  rw [carries, h]

/-- What one segment does: an RST resets, nothing else but a completed teardown closes, and a session that is
over is left by neither. -/
theorem advance_cases (fields : FieldMap) (state : StateName) (dir : PacketDirection) :
    advance fields state dir = state ∨
      ∃ flags, fields.get "flags" = some (.u64 flags) ∧
        (flags &&& rstFlag ≠ 0 ∧ advance fields state dir = "reset" ∨
          flags &&& rstFlag = 0 ∧ state ≠ "closed" ∧ state ≠ "reset" ∧
            (advance fields state dir ≠ "closed" ∧ advance fields state dir ≠ "reset" ∨
              state = "closing" ∧ flags &&& finFlag ≠ 0 ∧ flags &&& ackFlag ≠ 0 ∧
                advance fields state dir = "closed")) := by
  rw [advance]
  split
  case h_2 => exact .inl rfl
  case h_1 flags hflags =>
    by_cases hrst : flags &&& rstFlag = 0
    · by_cases hsame : state = "closed" ∨ state = "reset"
      · left
        rcases hsame with rfl | rfl <;> simp [hrst]
      · rw [not_or] at hsame
        right
        refine ⟨flags, hflags, .inr ⟨hrst, hsame.1, hsame.2, ?_⟩⟩
        simp only [hrst, ne_eq, not_true_eq_false, if_false]
        repeat' split
        all_goals first
          | exact .inl ⟨by decide, by decide⟩
          | exact .inl hsame
          | skip
        rename_i hcompletes
        exact .inr ⟨hcompletes.1, hcompletes.2.1, hcompletes.2.2, rfl⟩
    · right
      refine ⟨flags, hflags, .inl ⟨hrst, ?_⟩⟩
      simp [hrst]

theorem SentFin.mono {dir : PacketDirection} {later : List Fold} (h : SentFin dir seen) (hlater : seen <+: later) :
    SentFin dir later := by
  obtain ⟨f, hf, hfin⟩ := h
  exact ⟨f, hlater.subset hf, hfin⟩

/-- Nothing but a completed teardown leads to `closed`. -/
theorem closed_snoc (h : sessionState (seen ++ [f]) = "closed") :
    sessionState seen = "closed" ∨ Completes seen f := by
  rw [sessionState_snoc] at h
  rcases advance_cases f.layer.fields (sessionState seen) f.dir with hsame | ⟨flags, hflags, hcase⟩
  · exact .inl (hsame.symm.trans h)
  · rcases hcase with ⟨-, hreset⟩ | ⟨hrst, -, -, hstep⟩
    · rw [hreset] at h
      exact absurd h (by decide)
    · rcases hstep with ⟨hne, -⟩ | ⟨hclosing, hfin, hack, -⟩
      · exact absurd h hne
      · right
        refine ⟨hclosing, ?_, ?_, ?_⟩
        · rw [carries_of_get hflags]
          exact decide_eq_true hfin
        · rw [carries_of_get hflags]
          exact decide_eq_true hack
        · rw [carries_of_get hflags]
          exact decide_eq_false (not_not_intro hrst)

/-- A completed teardown leads to `closed`. -/
theorem Completes.closed (h : Completes seen f) : sessionState (seen ++ [f]) = "closed" := by
  obtain ⟨hclosing, hfin, hack, hrst⟩ := h
  rw [sessionState_snoc, hclosing]
  rw [advance]
  rw [carries] at hfin hack hrst
  split at hfin
  · rename_i flags hflags
    simp only [hflags, decide_eq_true_eq, decide_eq_false_iff_not, ne_eq, not_not] at hfin hack hrst ⊢
    simp [hfin, hack, hrst]
  · cases hfin

/-- Nothing but an RST leads to `reset`. -/
theorem reset_snoc (h : sessionState (seen ++ [f]) = "reset") :
    sessionState seen = "reset" ∨ carries rstFlag f = true := by
  rw [sessionState_snoc] at h
  rcases advance_cases f.layer.fields (sessionState seen) f.dir with hsame | ⟨flags, hflags, hcase⟩
  · exact .inl (hsame.symm.trans h)
  · rcases hcase with ⟨hrst, -⟩ | ⟨-, -, -, hstep⟩
    · right
      rw [carries_of_get hflags]
      exact decide_eq_true hrst
    · rcases hstep with ⟨-, hne⟩ | ⟨-, -, -, hclosed⟩
      · exact absurd h hne
      · rw [hclosed] at h
        exact absurd h (by decide)

/-- A segment leaves a session over. -/
theorem IsOver.snoc (h : IsOver seen) : IsOver (seen ++ [f]) := by
  rw [IsOver]
  rw [sessionState_snoc]
  rcases advance_cases f.layer.fields (sessionState seen) f.dir with hsame | ⟨flags, hflags, hcase⟩
  · rw [hsame]
    exact h
  · rcases hcase with ⟨-, hreset⟩ | ⟨-, hclosed, hreset, -⟩
    · exact .inr hreset
    · exact absurd h (not_or.2 ⟨hclosed, hreset⟩)

end Steps

/-! ## Runs -/

section Runs

variable {segments seen : List Fold}

theorem reset_of_rst (h : sessionState seen = "reset") : ∃ f ∈ seen, carries rstFlag f = true := by
  induction seen using List.reverseRecOn with
  | nil => exact absurd h (by decide)
  | append_singleton seen f ih =>
      rcases reset_snoc h with h | hrst
      · obtain ⟨g, hg, hrst⟩ := ih h
        exact ⟨g, List.mem_append_left _ hg, hrst⟩
      · exact ⟨f, List.mem_append_right _ (List.mem_singleton_self f), hrst⟩

theorem IsOver.append (h : IsOver seen) (more : List Fold) : IsOver (seen ++ more) := by
  induction more using List.reverseRecOn with
  | nil =>
      rw [List.append_nil]
      exact h
  | append_singleton more f ih =>
      rw [← List.append_assoc]
      exact ih.snoc

/-- If completing FINs answer the other side, a closed session has seen a FIN of both. -/
theorem closed_of_answersFin (hanswers : AnswersFin segments) (hseen : seen <+: segments)
    (h : sessionState seen = "closed") (dir : PacketDirection) : SentFin dir seen := by
  induction seen using List.reverseRecOn with
  | nil => exact absurd h (by decide)
  | append_singleton seen f ih =>
      have hbefore : seen <+: seen ++ [f] := List.prefix_append seen [f]
      rcases closed_snoc h with h | hcompletes
      · exact (ih (hbefore.trans hseen) h).mono hbefore
      · obtain ⟨g, hg, hfin, hother⟩ := hanswers seen f hseen hcompletes
        -- one side is that of the segment, the other that of the FIN it answers
        by_cases hdir : f.dir = dir
        · exact ⟨f, List.mem_append_right _ (List.mem_singleton_self f), hcompletes.2.1, hdir⟩
        · refine ⟨g, List.mem_append_left _ hg, hfin, ?_⟩
          revert hother hdir
          cases g.dir <;> cases f.dir <;> cases dir <;> simp

/-- A session is torn down as meant exactly if every FIN that completes its teardown answers one of the other
side. -/
theorem tearsDown_iff (segments : List Fold) : TearsDown segments ↔ AnswersFin segments := by
  constructor
  · intro h seen f hpre hcompletes
    have hother : ∃ dir, dir ≠ f.dir := by
      cases f.dir
      · exact ⟨.bToA, by decide⟩
      · exact ⟨.aToB, by decide⟩
    obtain ⟨dir, hdir⟩ := hother
    obtain ⟨g, hg, hfin, rfl⟩ := h.closed _ hpre hcompletes.closed dir
    rcases List.mem_append.1 hg with hg | hg
    · exact ⟨g, hg, hfin, hdir⟩
    · exact absurd (congrArg Fold.dir (List.mem_singleton.1 hg)) hdir
  · intro h
    refine ⟨fun seen hseen hclosed dir => closed_of_answersFin h hseen hclosed dir,
      fun seen _ hreset => reset_of_rst hreset, ?_⟩
    rintro seen _ ⟨more, rfl⟩ - hover
    exact hover.append more

/-- A segment with these flags. -/
def segment (dir : PacketDirection) (flags : UInt64) : Fold where
  ts := 0
  origlen := 60
  dir := dir
  layer := ⟨"tcp", 34, 20, ⟨[("flags", .u64 flags)]⟩⟩
  key := []
  state := none

/-- A session whose one side sends its FIN twice is closed, though the other has sent none. -/
theorem tearsDown_fails : ¬TearsDown [segment .aToB 0x02, segment .bToA 0x12, segment .aToB 0x10,
    segment .aToB 0x11, segment .aToB 0x11] := by
  intro h
  obtain ⟨f, hf, hfin, hdir⟩ := h.closed _ List.prefix_rfl (by decide +kernel) .bToA
  simp only [List.mem_cons, List.not_mem_nil, or_false] at hf
  rcases hf with rfl | rfl | rfl | rfl | rfl <;> revert hfin hdir <;> decide

end Runs

/-! ## Streams -/

/-- Every TCP stream of a run, live or removed, is in the state its segments lead to; if it is closed and its
completing FINs answer the other side, both sides have sent a FIN. -/
theorem tcp_stream_closed {env : Env} {ops : List Op} {a : Aggregator} (h : Reaches env ops a)
    {s : Stream} (hs : s ∈ a.everStreams) (hlife : HasLifecycle env s tcpLifecycle) :
    s.state = some (sessionState s.history) ∧
      (AnswersFin s.history → s.state = some "closed" → ∀ dir, SentFin dir s.history) := by
  have htracks := ((Aggregator.lifecycle_rule env).reaches h s hs).tracks tcpLifecycle hlife
    (Aggregator.history_ne_nil h s hs)
  refine ⟨htracks.state, fun hanswers hclosed dir => ?_⟩
  rw [htracks.state] at hclosed
  exact closed_of_answersFin hanswers List.prefix_rfl (Option.some.inj hclosed) dir

end Pktflow.Plugins
