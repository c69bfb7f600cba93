import Mathlib.Logic.Function.Basic
import Mathlib.Data.List.Basic
import Mathlib.Data.Nat.Basic

/-!
# The memoized view index of the web server

Model of `SnapshotHub::{publish, latest, generation}` (`pktflow-view/src/hub.rs`) and of
`WebState::{index, swap_hub}` (`pktflow-web/src/lib.rs`) as atomic steps that interleave freely: every
lock section and every atomic access is one step. Publishers of a hub may overlap, and so may calls of
`index`.

The memo holds an index under the publish counter alone. `index_fresh` proves every call fresh in every
run in which a memo hit names an index of the hub the call reads; `index_foreign` is a run in which a hit
does not.
-/

set_option autoImplicit false

namespace Pktflow.Web

variable {H S : Type}

/-- `SnapshotHub`: the slot and the publish counter. -/
structure SnapshotHub (S : Type) where
  snapshot : S
  generation : Nat
  /-- Ghost: the snapshots the slot has held, in order. -/
  written : List S
  /-- Ghost: the publishes whose counter step is done, in that order, each as a position of `written`. -/
  completed : List Nat

/-- `SnapshotHub::new`. -/
def SnapshotHub.new (empty : S) : SnapshotHub S := ⟨empty, 0, [empty], []⟩

/-- First step of `publish`: the slot is replaced. -/
def SnapshotHub.write (hub : SnapshotHub S) (snap : S) : SnapshotHub S :=
  { hub with snapshot := snap, written := hub.written ++ [snap] }

/-- Second step of `publish`: `generation.fetch_add(1)`. -/
def SnapshotHub.bump (hub : SnapshotHub S) (version : Nat) : SnapshotHub S :=
  { hub with generation := hub.generation + 1, completed := hub.completed ++ [version] }

/-- `SnapshotIndex`, with the hub and the slot version it was built from as ghosts. -/
structure SnapshotIndex (H S : Type) where
  snapshot : S
  hub : H
  version : Nat

/-- How far a call of `index` is, with its local variables. -/
inductive Phase (H S : Type) where
  | started
  | gotHub (hub : H)
  | gotGeneration (hub : H) (generation : Nat)
  | missed (hub : H) (generation : Nat)
  | built (hub : H) (generation : Nat) (index : SnapshotIndex H S)

/-- A call of `index` under way. The ghosts are the number of publishes each hub had completed when the
call began, and the hubs served since then. -/
structure Call (H S : Type) where
  phase : Phase H S
  since : H → Nat
  served : List H

/-- A call of `index` that returned. -/
structure Returned (H S : Type) where
  index : SnapshotIndex H S
  since : H → Nat
  served : List H

/-- `WebState`, the hubs, and the threads under way. -/
structure WebState (H S : Type) where
  hubs : H → SnapshotHub S
  hub : H
  indexMemo : Option (Nat × SnapshotIndex H S)
  calls : Nat → Option (Call H S)
  /-- The publishes between their two steps, as hub and version. -/
  publishing : List (H × Nat)
  returned : List (Returned H S)

/-- An atomic step of some thread. -/
inductive Action (H S : Type) where
  | write (hub : H) (snap : S)
  | bump (hub : H) (version : Nat)
  | swapHub (hub : H)
  | begin (call : Nat)
  | readHub (call : Nat)
  | readGeneration (call : Nat)
  | lookup (call : Nat)
  | latest (call : Nat)
  | store (call : Nat)

namespace WebState

/-- `WebState::new` over hubs that have published nothing. -/
def new (empty : S) (hub : H) : WebState H S where
  hubs := fun _ => SnapshotHub.new empty
  hub := hub
  indexMemo := none
  calls := fun _ => none
  publishing := []
  returned := []

/-- The call moves on to its next phase. -/
def advance (s : WebState H S) (c : Nat) (call : Call H S) (phase : Phase H S) : WebState H S :=
  { s with calls := Function.update s.calls c (some { call with phase := phase }) }

/-- The call returns the index. -/
def giveBack (s : WebState H S) (c : Nat) (call : Call H S) (index : SnapshotIndex H S) : WebState H S :=
  { s with
    calls := Function.update s.calls c none
    returned := s.returned ++ [⟨index, call.since, call.served⟩] }

/-- One step of a call of `index`. -/
def stepCall (s : WebState H S) (c : Nat) (call : Call H S) : Action H S → Option (WebState H S)
  | .readHub _ =>
      match call.phase with
      | .started => some (s.advance c call (.gotHub s.hub))
      | _ => none
  | .readGeneration _ =>
      match call.phase with
      | .gotHub h => some (s.advance c call (.gotGeneration h (s.hubs h).generation))
      | _ => none
  | .lookup _ =>
      match call.phase with
      | .gotGeneration h g =>
          match s.indexMemo with
          | some (cached, index) =>
              if cached = g then some (s.giveBack c call index)
              else some (s.advance c call (.missed h g))
          | none => some (s.advance c call (.missed h g))
      | _ => none
  | .latest _ =>
      match call.phase with
      | .missed h g =>
          let index : SnapshotIndex H S := ⟨(s.hubs h).snapshot, h, (s.hubs h).written.length - 1⟩
          some (s.advance c call (.built h g index))
      | _ => none
  | .store _ =>
      match call.phase with
      | .built _ g index =>
          some ({ s with indexMemo := some (g, index) }.giveBack c call index)
      | _ => none
  | _ => none

/-- The call a step belongs to, if it is a step of `index` after its beginning. -/
def callOf : Action H S → Option Nat
  | .readHub c | .readGeneration c | .lookup c | .latest c | .store c => some c
  | _ => none

/-- One atomic step; `none` if the step cannot be taken. -/
def step [DecidableEq H] (s : WebState H S) (action : Action H S) : Option (WebState H S) :=
  match action with
  | .write h snap =>
      some { s with
        hubs := Function.update s.hubs h ((s.hubs h).write snap)
        publishing := s.publishing ++ [(h, (s.hubs h).written.length)] }
  | .bump h version =>
      if (h, version) ∈ s.publishing then
        some { s with
          hubs := Function.update s.hubs h ((s.hubs h).bump version)
          publishing := s.publishing.erase (h, version) }
      else none
  | .swapHub h =>
      some { s with
        hub := h
        calls := fun c => (s.calls c).map fun call => { call with served := call.served ++ [h] } }
  | .begin c =>
      match s.calls c with
      | some _ => none
      | none =>
          let call : Call H S := ⟨.started, fun h => (s.hubs h).completed.length, [s.hub]⟩
          some { s with calls := Function.update s.calls c (some call) }
  | action =>
      match callOf action with
      | none => none
      | some c => (s.calls c).bind fun call => s.stepCall c call action

/-! ## What holds of hubs, indexes and calls -/

/-- A hub: the slot holds the last snapshot written, and the counter counts the completed publishes. -/
structure HubInv (hub : SnapshotHub S) : Prop where
  last : hub.written[hub.written.length - 1]? = some hub.snapshot
  counted : hub.generation = hub.completed.length
  completed : ∀ w ∈ hub.completed, w < hub.written.length

/-- The index was built from a snapshot of its hub that is no older than any publish among the first
`g` completed ones. -/
structure Covers (hubs : H → SnapshotHub S) (g : Nat) (index : SnapshotIndex H S) : Prop where
  built : (hubs index.hub).written[index.version]? = some index.snapshot
  reached : g ≤ (hubs index.hub).generation
  newer : ∀ w ∈ (hubs index.hub).completed.take g, w ≤ index.version

/-- A call under way: its variables were read since it began. -/
structure CallInv (s : WebState H S) (call : Call H S) : Prop where
  serving : s.hub ∈ call.served
  since : ∀ h, call.since h ≤ (s.hubs h).completed.length
  phase : match call.phase with
    | .started => True
    | .gotHub h => h ∈ call.served
    | .gotGeneration h g | .missed h g =>
        h ∈ call.served ∧ call.since h ≤ g ∧ g ≤ (s.hubs h).generation
    | .built h g index =>
        h ∈ call.served ∧ call.since h ≤ g ∧ index.hub = h ∧ Covers s.hubs g index

/-- The returned index was built from a snapshot of a hub served during the call, and no publish of that
hub completed before the call is newer. -/
def Fresh (hubs : H → SnapshotHub S) (r : Returned H S) : Prop :=
  ∃ h ∈ r.served, ∃ version, (hubs h).written[version]? = some r.index.snapshot ∧
    ∀ w ∈ (hubs h).completed.take (r.since h), w ≤ version

/-- The invariant of the runs in which memo hits are of the right hub. -/
structure Inv (s : WebState H S) : Prop where
  hubs : ∀ h, HubInv (s.hubs h)
  publishing : ∀ p ∈ s.publishing, p.2 < (s.hubs p.1).written.length
  memo : ∀ g index, s.indexMemo = some (g, index) → Covers s.hubs g index
  calls : ∀ c call, s.calls c = some call → CallInv s call
  returned : ∀ r ∈ s.returned, Fresh s.hubs r ∧ ∀ h, r.since h ≤ (s.hubs h).completed.length

/-! ## Hubs only grow -/

/-- Later hubs: snapshots written and publishes completed stay. -/
structure Grown (hubs hubs' : H → SnapshotHub S) : Prop where
  written : ∀ h, (hubs h).written <+: (hubs' h).written
  completed : ∀ h, (hubs h).completed <+: (hubs' h).completed
  generation : ∀ h, (hubs h).generation ≤ (hubs' h).generation

theorem take_of_initial {l l' : List Nat} (h : l <+: l') {n : Nat} (hn : n ≤ l.length) :
    l'.take n = l.take n := by
  obtain ⟨t, rfl⟩ := h
  exact List.take_append_of_le_length hn

theorem getElem?_of_initial {l l' : List S} (h : l <+: l') {i : Nat} {x : S} (hi : l[i]? = some x) :
    l'[i]? = some x := by
  obtain ⟨t, rfl⟩ := h
  obtain ⟨hlt, -⟩ := List.getElem?_eq_some_iff.1 hi
  rw [List.getElem?_append_left hlt]
  exact hi

variable {hubs hubs' : H → SnapshotHub S}

theorem Covers.grown {g : Nat} {index : SnapshotIndex H S} (h : Covers hubs g index)
    (hub : ∀ h, HubInv (hubs h)) (hg : Grown hubs hubs') : Covers hubs' g index where
  built := getElem?_of_initial (hg.written _) h.built
  reached := le_trans h.reached (hg.generation _)
  newer := by
    intro w hw
    have hle : g ≤ (hubs index.hub).completed.length := (hub index.hub).counted ▸ h.reached
    rw [take_of_initial (hg.completed _) hle] at hw
    exact h.newer w hw

theorem Fresh.grown {r : Returned H S} (h : Fresh hubs r)
    (hr : ∀ h, r.since h ≤ (hubs h).completed.length) (hg : Grown hubs hubs') : Fresh hubs' r := by
  obtain ⟨h₀, hmem, version, hbuilt, hnewer⟩ := h
  refine ⟨h₀, hmem, version, getElem?_of_initial (hg.written _) hbuilt, ?_⟩
  rw [take_of_initial (hg.completed _) (hr h₀)]
  exact hnewer

variable {s s' : WebState H S}

theorem CallInv.grown {call : Call H S} (h : CallInv s call) (hub : ∀ h, HubInv (s.hubs h))
    (hg : Grown s.hubs s'.hubs) (hserved : s'.hub = s.hub) : CallInv s' call where
  serving := hserved ▸ h.serving
  since := fun h₀ => le_trans (h.since h₀) (hg.completed h₀).length_le
  phase := by
    have hphase := h.phase
    cases hp : call.phase with
    | started => trivial
    | gotHub h₀ =>
        rw [hp] at hphase
        exact hphase
    | gotGeneration h₀ g =>
        rw [hp] at hphase
        exact ⟨hphase.1, hphase.2.1, le_trans hphase.2.2 (hg.generation h₀)⟩
    | missed h₀ g =>
        rw [hp] at hphase
        exact ⟨hphase.1, hphase.2.1, le_trans hphase.2.2 (hg.generation h₀)⟩
    | built h₀ g index =>
        rw [hp] at hphase
        exact ⟨hphase.1, hphase.2.1, hphase.2.2.1, hphase.2.2.2.grown hub hg⟩

/-- A step of a publisher. -/
theorem Inv.grow (h : Inv s) {hubs' : H → SnapshotHub S} {publishing' : List (H × Nat)}
    (hg : Grown s.hubs hubs') (hhub : ∀ h, HubInv (hubs' h))
    (hpub : ∀ p ∈ publishing', p.2 < (hubs' p.1).written.length) :
    Inv { s with hubs := hubs', publishing := publishing' } where
  hubs := hhub
  publishing := hpub
  memo := fun g index hm => (h.memo g index hm).grown h.hubs hg
  calls := fun c call hc => (h.calls c call hc).grown h.hubs hg rfl
  returned := fun r hr => ⟨(h.returned r hr).1.grown (h.returned r hr).2 hg,
    fun h₀ => le_trans ((h.returned r hr).2 h₀) (hg.completed h₀).length_le⟩

/-- One hub changes. -/
theorem update_rel [DecidableEq H] {R : SnapshotHub S → SnapshotHub S → Prop} (hrefl : ∀ hub, R hub hub) {h : H}
    {hub : SnapshotHub S} (hhub : R (hubs h) hub) (h' : H) :
    R (hubs h') (Function.update hubs h hub h') := by
  by_cases heq : h' = h
  · subst heq
    rw [Function.update_self]
    exact hhub
  · rw [Function.update_of_ne heq]
    exact hrefl _

theorem grown_update [DecidableEq H] {h : H} {hub : SnapshotHub S} (hw : (hubs h).written <+: hub.written)
    (hc : (hubs h).completed <+: hub.completed) (hgen : (hubs h).generation ≤ hub.generation) :
    Grown hubs (Function.update hubs h hub) where
  written := update_rel (R := fun x y => x.written <+: y.written) (fun _ => List.prefix_refl _) hw
  completed := update_rel (R := fun x y => x.completed <+: y.completed) (fun _ => List.prefix_refl _) hc
  generation := update_rel (R := fun x y => x.generation ≤ y.generation) (fun _ => le_refl _) hgen

theorem HubInv.write {hub : SnapshotHub S} (h : HubInv hub) (snap : S) : HubInv (hub.write snap) where
  last := by simp [SnapshotHub.write]
  counted := h.counted
  completed := by
    intro w hw
    have hlt := h.completed w hw
    simp only [SnapshotHub.write, List.length_append, List.length_singleton]
    omega

theorem HubInv.bump {hub : SnapshotHub S} (h : HubInv hub) {version : Nat}
    (hv : version < hub.written.length) : HubInv (hub.bump version) where
  last := h.last
  counted := by simp [SnapshotHub.bump, h.counted]
  completed := by
    intro w hw
    rcases List.mem_append.1 hw with hw | hw
    · exact h.completed w hw
    · rw [List.mem_singleton.1 hw]
      exact hv

theorem hubInv_update [DecidableEq H] {h : H} {hub : SnapshotHub S} (hhubs : ∀ h, HubInv (hubs h)) (hhub : HubInv hub)
    (h' : H) : HubInv (Function.update hubs h hub h') :=
  update_rel (R := fun x y => HubInv x → HubInv y) (fun _ => id) (fun _ => hhub) h' (hhubs h')

/-- The two steps of a publish. -/
theorem Inv.write [DecidableEq H] (h : Inv s) (h₀ : H) (snap : S) :
    Inv { s with
      hubs := Function.update s.hubs h₀ ((s.hubs h₀).write snap)
      publishing := s.publishing ++ [(h₀, (s.hubs h₀).written.length)] } := by
  have hg : Grown s.hubs (Function.update s.hubs h₀ ((s.hubs h₀).write snap)) :=
    grown_update (List.prefix_append _ _) (List.prefix_refl _) (le_refl _)
  apply h.grow hg (hubInv_update h.hubs ((h.hubs h₀).write snap))
  intro p hp
  rcases List.mem_append.1 hp with hp | hp
  · exact lt_of_lt_of_le (h.publishing p hp) (hg.written p.1).length_le
  · rw [List.mem_singleton.1 hp, Function.update_self]
    simp [SnapshotHub.write]

theorem Inv.bump [DecidableEq H] (h : Inv s) {h₀ : H} {version : Nat} (hmem : (h₀, version) ∈ s.publishing) :
    Inv { s with
      hubs := Function.update s.hubs h₀ ((s.hubs h₀).bump version)
      publishing := s.publishing.erase (h₀, version) } := by
  have hg : Grown s.hubs (Function.update s.hubs h₀ ((s.hubs h₀).bump version)) :=
    grown_update (List.prefix_refl _) (List.prefix_append _ _) (Nat.le_succ _)
  apply h.grow hg (hubInv_update h.hubs ((h.hubs h₀).bump (h.publishing _ hmem)))
  intro p hp
  exact lt_of_lt_of_le (h.publishing p (List.mem_of_mem_erase hp)) (hg.written p.1).length_le

/-! ## Steps of a call -/

/-- The call moves on with variables that were read since it began. -/
theorem Inv.advance (h : Inv s) (c : Nat) {call : Call H S} {phase : Phase H S}
    (hcall : CallInv s { call with phase := phase }) : Inv (s.advance c call phase) where
  hubs := h.hubs
  publishing := h.publishing
  memo := h.memo
  calls := by
    intro c' call' hc'
    have hc'' : Function.update s.calls c (some { call with phase := phase }) c' = some call' := hc'
    by_cases heq : c' = c
    · subst heq
      rw [Function.update_self] at hc''
      obtain rfl := Option.some.inj hc''
      exact ⟨hcall.serving, hcall.since, hcall.phase⟩
    · rw [Function.update_of_ne heq] at hc''
      have hold := h.calls c' call' hc''
      exact ⟨hold.serving, hold.since, hold.phase⟩
  returned := h.returned

/-- The call returns an index of a hub it saw served. -/
theorem Inv.giveBack (h : Inv s) (c : Nat) {call : Call H S} (hcall : CallInv s call)
    {g : Nat} {index : SnapshotIndex H S} (hserved : index.hub ∈ call.served)
    (hsince : call.since index.hub ≤ g) (hcov : Covers s.hubs g index) :
    Inv (s.giveBack c call index) where
  hubs := h.hubs
  publishing := h.publishing
  memo := h.memo
  calls := by
    intro c' call' hc'
    have hc'' : Function.update s.calls c none c' = some call' := hc'
    by_cases heq : c' = c
    · subst heq
      rw [Function.update_self] at hc''
      cases hc''
    · rw [Function.update_of_ne heq] at hc''
      have hold := h.calls c' call' hc''
      exact ⟨hold.serving, hold.since, hold.phase⟩
  returned := by
    intro r hr
    rcases List.mem_append.1 hr with hr | hr
    · exact h.returned r hr
    · rw [List.mem_singleton.1 hr]
      refine ⟨⟨index.hub, hserved, index.version, hcov.built, ?_⟩, hcall.since⟩
      intro w hw
      exact hcov.newer w (List.take_subset_take_left _ hsince hw)

/-- The condition under which the memo is right: at a memo hit, the index was built from the hub the
call reads. -/
def OwnHit (s : WebState H S) : Action H S → Prop
  | .lookup c => ∀ call h g index, s.calls c = some call → call.phase = .gotGeneration h g →
      s.indexMemo = some (g, index) → index.hub = h
  | _ => True

/-- The condition, as a test. -/
def hitsOwn [DecidableEq H] (s : WebState H S) : Action H S → Bool
  | .lookup c =>
      (s.calls c).all fun call =>
        match call.phase with
        | .gotGeneration h g => s.indexMemo.all fun entry => entry.1 ≠ g || entry.2.hub = h
        | _ => true
  | _ => true

theorem hitsOwn_iff [DecidableEq H] (s : WebState H S) (action : Action H S) :
    hitsOwn s action = true ↔ OwnHit s action := by
  cases action with
  | lookup c =>
      rw [hitsOwn, OwnHit, Option.all_eq_true]
      constructor
      · intro h call h₀ g index hc hp hm
        have hentry := h call hc
        rw [hp] at hentry
        dsimp only at hentry
        rw [hm] at hentry
        simpa using hentry
      · intro h call hc
        cases hp : call.phase with
        | gotGeneration h₀ g =>
            dsimp only
            rw [Option.all_eq_true]
            rintro ⟨cached, index⟩ hm
            by_cases heq : cached = g
            · subst heq
              simpa using h call h₀ cached index hc hp hm
            · simp [heq]
        | _ => rfl
  | _ => exact iff_of_true rfl trivial

instance [DecidableEq H] (s : WebState H S) (action : Action H S) : Decidable (OwnHit s action) :=
  decidable_of_iff _ (hitsOwn_iff s action)

/-- A step of a call. -/
theorem Inv.stepCall (h : Inv s) {c : Nat} {call : Call H S} (hc : s.calls c = some call)
    {action : Action H S} (hof : callOf action = some c) (hown : OwnHit s action)
    (hstep : s.stepCall c call action = some s') : Inv s' := by
  have hcall := h.calls c call hc
  have hphase := hcall.phase
  cases action with
  | readHub c' =>
      simp only [WebState.stepCall] at hstep
      cases hp : call.phase with
      | started =>
          rw [hp] at hstep
          obtain rfl := Option.some.inj hstep
          exact h.advance c ⟨hcall.serving, hcall.since, hcall.serving⟩
      | _ => rw [hp] at hstep; cases hstep
  | readGeneration c' =>
      simp only [WebState.stepCall] at hstep
      cases hp : call.phase with
      | gotHub h₀ =>
          rw [hp] at hstep hphase
          obtain rfl := Option.some.inj hstep
          -- the counter is read after the call began
          have hle : call.since h₀ ≤ (s.hubs h₀).generation := (h.hubs h₀).counted ▸ hcall.since h₀
          exact h.advance c ⟨hcall.serving, hcall.since, hphase, hle, le_refl _⟩
      | _ => rw [hp] at hstep; cases hstep
  | lookup c' =>
      obtain rfl : c' = c := Option.some.inj hof
      simp only [WebState.stepCall] at hstep
      cases hp : call.phase with
      | gotGeneration h₀ g =>
          rw [hp] at hstep hphase
          cases hm : s.indexMemo with
          | none =>
              rw [hm] at hstep
              obtain rfl := Option.some.inj hstep
              exact h.advance c' ⟨hcall.serving, hcall.since, hphase⟩
          | some entry =>
              obtain ⟨cached, index⟩ := entry
              rw [hm] at hstep
              simp only at hstep
              split at hstep
              · -- a hit
                rename_i heq
                subst heq
                obtain rfl := Option.some.inj hstep
                have hhub := hown call h₀ cached index hc hp hm
                subst hhub
                exact h.giveBack c' hcall hphase.1 hphase.2.1 (h.memo cached index hm)
              · obtain rfl := Option.some.inj hstep
                exact h.advance c' ⟨hcall.serving, hcall.since, hphase⟩
      | _ => rw [hp] at hstep; cases hstep
  | latest c' =>
      simp only [WebState.stepCall] at hstep
      cases hp : call.phase with
      | missed h₀ g =>
          rw [hp] at hstep hphase
          obtain rfl := Option.some.inj hstep
          refine h.advance c ⟨hcall.serving, hcall.since, hphase.1, hphase.2.1, rfl, ?_⟩
          -- the slot is read after the counter, and holds the last snapshot written
          refine ⟨(h.hubs h₀).last, hphase.2.2, fun w hw => ?_⟩
          exact Nat.le_sub_one_of_lt ((h.hubs h₀).completed w (List.mem_of_mem_take hw))
      | _ => rw [hp] at hstep; cases hstep
  | store c' =>
      simp only [WebState.stepCall] at hstep
      cases hp : call.phase with
      | built h₀ g index =>
          rw [hp] at hstep hphase
          obtain rfl := Option.some.inj hstep
          obtain ⟨hserved, hsince, rfl, hcov⟩ := hphase
          have hstored : Inv { s with indexMemo := some (g, index) } :=
            ⟨h.hubs, h.publishing, fun g' index' hm => by cases hm; exact hcov,
              fun c' call' hc' => ⟨(h.calls c' call' hc').serving, (h.calls c' call' hc').since,
                (h.calls c' call' hc').phase⟩, h.returned⟩
          exact hstored.giveBack c ⟨hcall.serving, hcall.since, hcall.phase⟩ hserved hsince hcov
      | _ => rw [hp] at hstep; cases hstep
  | _ => cases hof

/-- One step that meets the condition. -/
theorem Inv.step [DecidableEq H] (h : Inv s) {action : Action H S} (hown : OwnHit s action)
    (hstep : s.step action = some s') : Inv s' := by
  -- steps of a call after its beginning
  have hrest : ∀ {c : Nat}, callOf action = some c →
      ((s.calls c).bind fun call => s.stepCall c call action) = some s' → Inv s' := by
    intro c hof hbind
    obtain ⟨call, hc, hcall⟩ := Option.bind_eq_some_iff.1 hbind
    exact h.stepCall hc hof hown hcall
  cases action with
  | write h₀ snap =>
      obtain rfl := Option.some.inj hstep
      exact h.write h₀ snap
  | bump h₀ version =>
      simp only [WebState.step] at hstep
      split at hstep
      · rename_i hmem
        obtain rfl := Option.some.inj hstep
        exact h.bump hmem
      · cases hstep
  | swapHub h₀ =>
      obtain rfl := Option.some.inj hstep
      refine ⟨h.hubs, h.publishing, h.memo, ?_, h.returned⟩
      intro c call hc
      obtain ⟨old, hold, rfl⟩ := Option.map_eq_some_iff.1 hc
      have hinv := h.calls c old hold
      refine ⟨List.mem_append_right _ (List.mem_singleton.2 rfl), hinv.since, ?_⟩
      -- the hubs seen so far stay in the list
      have hphase := hinv.phase
      simp only
      cases hp : old.phase with
      | started => trivial
      | gotHub h₁ =>
          rw [hp] at hphase
          exact List.mem_append_left _ hphase
      | gotGeneration h₁ g =>
          rw [hp] at hphase
          exact ⟨List.mem_append_left _ hphase.1, hphase.2⟩
      | missed h₁ g =>
          rw [hp] at hphase
          exact ⟨List.mem_append_left _ hphase.1, hphase.2⟩
      | built h₁ g index =>
          rw [hp] at hphase
          exact ⟨List.mem_append_left _ hphase.1, hphase.2⟩
  | begin c =>
      simp only [WebState.step] at hstep
      cases hc : s.calls c with
      | some _ => rw [hc] at hstep; cases hstep
      | none =>
          rw [hc] at hstep
          obtain rfl := Option.some.inj hstep
          refine ⟨h.hubs, h.publishing, h.memo, ?_, h.returned⟩
          intro c' call' hc'
          simp only at hc'
          by_cases heq : c' = c
          · subst heq
            rw [Function.update_self] at hc'
            obtain rfl := Option.some.inj hc'
            exact ⟨List.mem_singleton.2 rfl, fun _ => le_refl _, trivial⟩
          · rw [Function.update_of_ne heq] at hc'
            have hold := h.calls c' call' hc'
            exact ⟨hold.serving, hold.since, hold.phase⟩
  | readHub c => exact hrest rfl hstep
  | readGeneration c => exact hrest rfl hstep
  | lookup c => exact hrest rfl hstep
  | latest c => exact hrest rfl hstep
  | store c => exact hrest rfl hstep

/-! ## Runs -/

/-- The states of the runs from `start` in which every step meets the condition `P`. -/
inductive Runs [DecidableEq H] (P : WebState H S → Action H S → Prop) (start : WebState H S) :
    List (Action H S) → WebState H S → Prop
  | nil : Runs P start [] start
  | step {actions : List (Action H S)} {s s' : WebState H S} (action : Action H S) :
      Runs P start actions s → P s action → s.step action = some s' →
      Runs P start (actions ++ [action]) s'

theorem inv_new (empty : S) (hub : H) : Inv (WebState.new empty hub) where
  hubs := fun _ => ⟨rfl, rfl, fun w hw => by cases hw⟩
  publishing := fun p hp => by cases hp
  memo := fun g index hm => by cases hm
  calls := fun c call hc => by cases hc
  returned := fun r hr => by cases hr

/-- **Every call of `index` is fresh** in the runs whose memo hits are of the hub the call reads. -/
theorem index_fresh [DecidableEq H] (empty : S) (hub : H) (actions : List (Action H S))
    (s : WebState H S) (h : Runs OwnHit (WebState.new empty hub) actions s) :
    ∀ r ∈ s.returned, Fresh s.hubs r := by
  have hinv : Inv s := by
    induction h with
    | nil => exact inv_new empty hub
    | step action _ hown hstep ih => exact ih.step hown hstep
  exact fun r hr => (hinv.returned r hr).1

/-- The steps of a call that misses the memo. -/
def missSteps (H S : Type) (c : Nat) : List (Action H S) :=
  [.begin c, .readHub c, .readGeneration c, .lookup c, .latest c, .store c]

/-- The steps of a call that finds its generation in the memo. -/
def hitSteps (H S : Type) (c : Nat) : List (Action H S) :=
  [.begin c, .readHub c, .readGeneration c, .lookup c]

/-- A run goes on as long as the steps can be taken and meet the condition. -/
theorem runs_append [DecidableEq H] {P : WebState H S → Action H S → Prop} [∀ s action, Decidable (P s action)]
    {start : WebState H S} {actions : List (Action H S)} (h : Runs P start actions s) :
    ∀ (more : List (Action H S)) (s' : WebState H S),
      more.foldlM (fun s action => if P s action then step s action else none) s = some s' →
      Runs P start (actions ++ more) s' := by
  intro more
  induction more generalizing actions s with
  | nil =>
      intro s' hs'
      rw [List.foldlM_nil] at hs'
      obtain rfl := Option.some.inj hs'
      rw [List.append_nil]
      exact h
  | cons action more ih =>
      intro s' hs'
      rw [List.foldlM_cons] at hs'
      obtain ⟨t, ht, hrest⟩ := Option.bind_eq_some_iff.1 hs'
      split at ht
      · rename_i hmeets
        have hnext := ih (.step action h hmeets ht) s' hrest
        rw [List.append_assoc] at hnext
        exact hnext
      · cases ht

/-- Two calls at a time over the first hub, of which the second finds the memo of the first; then the second hub is
served, and a call that began before is overtaken by its first publish. -/
def freshSteps : List (Action Bool Nat) :=
  [.write true 7, .bump true 1, .begin 0, .begin 1, .readHub 0, .readHub 1, .readGeneration 0, .readGeneration 1,
    .lookup 0, .latest 0, .store 0, .lookup 1, .begin 2, .swapHub false, .readHub 2, .write false 9,
    .readGeneration 2, .bump false 1, .lookup 2, .latest 2, .store 2]

/-- The three calls return the snapshots of the hubs that they read. -/
theorem index_fresh_sample : ∃ s : WebState Bool Nat, Runs OwnHit (WebState.new 0 true) freshSteps s ∧
    s.returned.map (fun r => (r.index.snapshot, r.served)) = [(7, [true]), (7, [true]), (9, [true, false])] ∧
    ∀ r ∈ s.returned, Fresh s.hubs r := by
  have hruns : ∃ s : WebState Bool Nat, Runs OwnHit (WebState.new 0 true) freshSteps s ∧
      s.returned.map (fun r => (r.index.snapshot, r.served)) = [(7, [true]), (7, [true]), (9, [true, false])] :=
    ⟨_, runs_append (.nil : Runs OwnHit (WebState.new (0 : Nat) true) [] _) freshSteps _ rfl, rfl⟩
  obtain ⟨s, hruns, hserved⟩ := hruns
  exact ⟨s, hruns, hserved, index_fresh 0 true _ s hruns⟩

/-- Two hubs with one publish each: after the swap the second call finds the index of the first hub. -/
theorem index_foreign : ¬∀ (actions : List (Action Bool Nat)) (s : WebState Bool Nat),
    Runs (fun _ _ => True) (WebState.new 0 true) actions s → ∀ r ∈ s.returned, Fresh s.hubs r := by
  intro h
  have hstart : Runs (fun _ _ => True) (WebState.new (0 : Nat) true) [] _ := .nil
  have hruns := runs_append hstart
    ([.write true 7, .bump true 1, .write false 9, .bump false 1] ++ missSteps Bool Nat 0 ++
      [.swapHub false] ++ hitSteps Bool Nat 1) _ rfl
  obtain ⟨h₀, hserved, version, hbuilt, -⟩ := h _ _ hruns _ (List.mem_cons_of_mem _ List.mem_cons_self)
  -- the second hub alone was served during the call, and it never held that snapshot
  obtain rfl : h₀ = false := List.mem_singleton.1 hserved
  have hmem : (7 : Nat) ∈ [0, 9] := List.mem_of_getElem? hbuilt
  exact absurd hmem (by decide)

end WebState

end Pktflow.Web
