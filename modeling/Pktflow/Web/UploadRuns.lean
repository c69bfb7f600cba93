import Mathlib.Data.List.Induction
import Pktflow.Web.Upload

/-!
# Runs of uploads

The invariant of the server over every run of uploads. No file is shared, and none is left over but by a removal
that fails or a handler that is dropped (`uploads_no_leak`). What the spawner is given is the body that was sent
(`spawned_whole`), and the answer depends on the bytes received, not on the chunks they came in (`upload_answers`).
Every upload comes to an answer (`upload_ends`).
-/

set_option autoImplicit false

namespace Pktflow.Web.Upload

variable {H : Type}

/-! ## The invariant -/

section Invariant

variable {cfg : Config} {actions : List (Action H)} {s s' : Server H} {id : Nat} {h h' : Handler H}
  {disk : UploadPath → Option (List UInt8)}

theorem Answers.mono {name : String} {sent : Body} {response : Response}
    (ha : Answers cfg actions id name sent response) {actions' : List (Action H)} (hsub : actions ⊆ actions') :
    Answers cfg actions' id name sent response := by
  cases ha with
  | disabled huploads => exact .disabled huploads
  | refused huploads hrefused => exact .refused huploads hrefused
  | failed huploads hfails => exact .failed huploads (hsub hfails)
  | notSpawned huploads hwhole hrefuses => exact .notSpawned huploads hwhole (hsub hrefuses)
  | accepted huploads hwhole hspawns => exact .accepted huploads hwhole (hsub hspawns)

theorem PhaseOk.mono (hok : PhaseOk cfg actions disk id h) {actions' : List (Action H)} (hsub : actions ⊆ actions') :
    PhaseOk cfg actions' disk id h := by
  rw [PhaseOk] at hok ⊢
  cases hphase : h.phase with
  | discarding path response =>
      rw [hphase] at hok
      exact Answers.mono hok hsub
  | swapping path hub =>
      rw [hphase] at hok
      obtain ⟨hwhole, hub', hmem⟩ := hok
      exact ⟨hwhole, hub', hsub hmem⟩
  | replacing path =>
      rw [hphase] at hok
      obtain ⟨hwhole, hub', hmem⟩ := hok
      exact ⟨hwhole, hub', hsub hmem⟩
  | _ =>
      rw [hphase] at hok
      exact hok

/-- Only the file of the upload matters to it. -/
theorem PhaseOk.congr (hok : PhaseOk cfg actions disk id h) {disk' : UploadPath → Option (List UInt8)}
    (hdisk : ∀ p, h.phase.path = some p → disk' p = disk p) : PhaseOk cfg actions disk' id h := by
  rw [PhaseOk] at hok ⊢
  cases hphase : h.phase with
  | reading head =>
      rw [hphase] at hok
      exact hok
  | creating path head =>
      rw [hphase] at hok
      exact hok
  | writingHead path head =>
      rw [hphase] at hok
      exact hok
  | discarding path response =>
      rw [hphase] at hok
      exact hok
  | _ =>
      rw [hphase] at hok hdisk
      dsimp only at hok ⊢
      rw [hdisk _ rfl]
      exact hok

theorem Inv.mono (hi : Inv cfg actions s) {actions' : List (Action H)} (hsub : actions ⊆ actions') :
    Inv cfg actions' s where
  owned := hi.owned
  handlers := fun id h hh => ⟨(hi.handlers id h hh).1, (hi.handlers id h hh).2.mono hsub⟩
  answered := fun a ha => (hi.answered a ha).mono hsub
  spawned := hi.spawned
  last := hi.last

/-- What one handler does to its file leaves the others what they are. -/
theorem Inv.others (hi : Inv cfg actions s) (hh : s.handlers id = some h)
    (hdisk : ∀ p, h.phase.path ≠ some p → disk p = s.disk p) :
    (∀ id' h', id' ≠ id → s.handlers id' = some h' → cfg.uploads = true ∧ PhaseOk cfg actions disk id' h') ∧
      ∀ p, s.lastUpload = some p → ∃ sent bytes, disk p = some bytes ∧ Whole cfg sent p bytes := by
  constructor
  · intro id' h' hne hh'
    obtain ⟨huploads, hok⟩ := hi.handlers id' h' hh'
    refine ⟨huploads, hok.congr fun p hp => hdisk p fun hown => ?_⟩
    cases hi.owned.handler_eq hh hown (show Holds s p (.handler id') from ⟨h', hh', hp⟩)
    exact hne rfl
  · intro p hp
    obtain ⟨sent, bytes, hbytes, hwhole⟩ := hi.last p hp
    refine ⟨sent, bytes, ?_, hwhole⟩
    rwa [hdisk p]
    intro hown
    cases hi.owned.handler_eq hh hown (show Holds s p .last from hp)

theorem Inv.others_same (hi : Inv cfg actions s) (hh : s.handlers id = some h) :
    (∀ id' h', id' ≠ id → s.handlers id' = some h' → cfg.uploads = true ∧ PhaseOk cfg actions s.disk id' h') ∧
      ∀ p, s.lastUpload = some p → ∃ sent bytes, s.disk p = some bytes ∧ Whole cfg sent p bytes :=
  hi.others hh fun _ _ => rfl

/-- The handlers after one of them goes on. -/
theorem handlers_goOn {phase : Phase H} (hothers : ∀ id' h', id' ≠ id → s.handlers id' = some h' →
      cfg.uploads = true ∧ PhaseOk cfg actions disk id' h') (huploads : cfg.uploads = true)
    (hok : PhaseOk cfg actions disk id { h' with phase := phase }) (id' : Nat) (h'' : Handler H)
    (hnext : Function.update s.handlers id (some { h' with phase := phase }) id' = some h'') :
    cfg.uploads = true ∧ PhaseOk cfg actions disk id' h'' := by
  by_cases heq : id' = id
  · subst heq
    rw [Function.update_self] at hnext
    obtain rfl := Option.some.inj hnext
    exact ⟨huploads, hok⟩
  · rw [Function.update_of_ne heq] at hnext
    exact hothers id' h'' heq hnext

/-- The handlers after one of them answers. -/
theorem handlers_answer (hothers : ∀ id' h', id' ≠ id → s.handlers id' = some h' →
      cfg.uploads = true ∧ PhaseOk cfg actions disk id' h') (id' : Nat) (h'' : Handler H)
    (hnext : Function.update s.handlers id none id' = some h'') :
    cfg.uploads = true ∧ PhaseOk cfg actions disk id' h'' := by
  by_cases heq : id' = id
  · subst heq
    rw [Function.update_self] at hnext
    cases hnext
  · rw [Function.update_of_ne heq] at hnext
    exact hothers id' h'' heq hnext

theorem answered_append (hi : Inv cfg actions s) {name : String} {sent : Body} {response : Response}
    (hans : Answers cfg actions id name sent response) :
    ∀ a ∈ s.answered ++ [⟨id, name, sent, response⟩], Answers cfg actions a.id a.name a.sent a.response := by
  intro a ha
  rcases List.mem_append.1 ha with ha | ha
  · exact hi.answered a ha
  · obtain rfl := List.mem_singleton.1 ha
    exact hans

/-- A handler goes on with its file. -/
theorem Inv.goOn (hi : Inv cfg actions s) (hh : s.handlers id = some h) {phase : Phase H}
    (hpath : phase.path = h.phase.path) (hdisk : ∀ p, h.phase.path ≠ some p → disk p = s.disk p)
    (hok : PhaseOk cfg actions disk id { h' with phase := phase }) :
    Inv cfg actions ({ s with disk := disk }.goOn id h' phase) := by
  obtain ⟨hothers, hlast⟩ := hi.others hh hdisk
  constructor
  case owned => exact hi.owned.goOn hh hpath hdisk
  case handlers => exact handlers_goOn hothers (hi.handlers id h hh).1 hok
  case answered => exact hi.answered
  case spawned => exact hi.spawned
  case last => exact hlast

/-- A handler goes on and the disk stays. -/
theorem Inv.goOn_disk (hi : Inv cfg actions s) (hh : s.handlers id = some h) {phase : Phase H}
    (hpath : phase.path = h.phase.path) (hok : PhaseOk cfg actions s.disk id { h' with phase := phase }) :
    Inv cfg actions (s.goOn id h' phase) :=
  hi.goOn hh hpath (fun _ _ => rfl) hok

/-- A handler writes to its file and goes on. -/
theorem Inv.write_goOn (hi : Inv cfg actions s) (hh : s.handlers id = some h) {path : UploadPath}
    (hfile : h.phase.path = some path) {bytes : List UInt8} {phase : Phase H} (hpath : phase.path = some path)
    (hok : ∀ disk', disk' path = some bytes → PhaseOk cfg actions disk' id { h' with phase := phase }) :
    Inv cfg actions ((s.write path bytes).goOn id h' phase) := by
  apply hi.goOn hh (hpath.trans hfile.symm)
  · intro p hp
    apply Function.update_of_ne
    rintro rfl
    exact hp hfile
  · exact hok _ (Function.update_self _ _ _)

/-- A handler without a file answers. -/
theorem Inv.answer (hi : Inv cfg actions s) (hh : s.handlers id = some h) (hpath : h.phase.path = none)
    {response : Response} (hans : Answers cfg actions id h'.name h'.sent response) :
    Inv cfg actions (s.answer id h' response) := by
  obtain ⟨hothers, hlast⟩ := hi.others_same hh
  constructor
  case owned =>
      apply hi.owned.answer hh
      · intro p hp
        rw [hpath] at hp
        cases hp
      · exact fun _ _ => rfl
  case handlers => exact handlers_answer hothers
  case answered => exact answered_append hi hans
  case spawned => exact hi.spawned
  case last => exact hlast

/-- A handler removes its file and answers. -/
theorem Inv.remove_answer (hi : Inv cfg actions s) (hh : s.handlers id = some h) {path : UploadPath}
    (hpath : h.phase.path = some path) {response : Response} (hans : Answers cfg actions id h'.name h'.sent response) :
    Inv cfg actions ((s.remove path).answer id h' response) := by
  have hdisk : ∀ p, h.phase.path ≠ some p → Function.update s.disk path none p = s.disk p := by
    intro p hp
    apply Function.update_of_ne
    rintro rfl
    exact hp hpath
  obtain ⟨hothers, hlast⟩ := hi.others hh hdisk
  constructor
  case owned =>
      apply hi.owned.answer hh _ hdisk
      intro p hp
      obtain rfl := Option.some.inj (hpath.symm.trans hp)
      exact Function.update_self _ _ _
  case handlers => exact handlers_answer hothers
  case answered => exact answered_append hi hans
  case spawned => exact hi.spawned
  case last => exact hlast

/-- A handler is given the next number. -/
theorem Inv.allocate (hi : Inv cfg actions s) (hh : s.handlers id = some h) (hpath : h.phase.path = none)
    {phase : Phase H} {ext : CaptureExt} (hphase : phase.path = some ⟨s.uploadSeq, ext⟩)
    (hok : PhaseOk cfg actions s.disk id { h' with phase := phase }) :
    Inv cfg actions ({ s with uploadSeq := s.uploadSeq + 1 }.goOn id h' phase) := by
  obtain ⟨hothers, hlast⟩ := hi.others_same hh
  constructor
  case owned => exact hi.owned.allocate hh hpath hphase
  case handlers => exact handlers_goOn hothers (hi.handlers id h hh).1 hok
  case answered => exact hi.answered
  case spawned => exact hi.spawned
  case last => exact hlast

/-- A handler leaves its file for removal and answers. -/
theorem Inv.leave (hi : Inv cfg actions s) (hh : s.handlers id = some h) {path : UploadPath}
    (hpath : h.phase.path = some path) {response : Response} (hans : Answers cfg actions id h'.name h'.sent response) :
    Inv cfg actions ({ s with removals := s.removals ++ [path] }.answer id h' response) := by
  obtain ⟨hothers, hlast⟩ := hi.others_same hh
  constructor
  case owned => exact hi.owned.leave hh hpath
  case handlers => exact handlers_answer hothers
  case answered => exact answered_append hi hans
  case spawned => exact hi.spawned
  case last => exact hlast

/-- A handler leaves its file over and answers. -/
theorem Inv.lose_answer (hi : Inv cfg actions s) (hh : s.handlers id = some h) {path : UploadPath}
    (hpath : h.phase.path = some path) {response : Response} (hans : Answers cfg actions id h'.name h'.sent response) :
    Inv cfg actions ((s.lose path).answer id h' response) := by
  obtain ⟨hothers, hlast⟩ := hi.others_same hh
  constructor
  case owned => exact hi.owned.lose hh hpath
  case handlers => exact handlers_answer hothers
  case answered => exact answered_append hi hans
  case spawned => exact hi.spawned
  case last => exact hlast

/-- A handler is dropped, with a file or without one. -/
theorem Inv.gone (hi : Inv cfg actions s) (hh : s.handlers id = some h)
    (hdisk : ∀ p, h.phase.path ≠ some p → s'.disk p = s.disk p) (howned : Owned (s'.gone id))
    (hhandlers : s'.handlers = s.handlers) (hanswered : s'.answered = s.answered) (hspawned : s'.spawned = s.spawned)
    (hslot : s'.lastUpload = s.lastUpload) : Inv cfg actions (s'.gone id) := by
  obtain ⟨hothers, hlast⟩ := hi.others hh hdisk
  constructor
  case owned => exact howned
  case handlers =>
      rw [Server.gone, hhandlers]
      exact handlers_answer hothers
  case answered =>
      rw [Server.gone, hanswered]
      exact hi.answered
  case spawned =>
      rw [Server.gone, hspawned]
      exact hi.spawned
  case last =>
      rw [Server.gone, hslot]
      exact hlast

/-- A handler puts its file into the slot and answers. -/
theorem Inv.replace (hi : Inv cfg actions s) (hh : s.handlers id = some h) {path : UploadPath}
    (hpath : h.phase.path = some path) {sent : Body} {bytes : List UInt8} (hbytes : s.disk path = some bytes)
    (hwhole : Whole cfg sent path bytes) {response : Response}
    (hans : Answers cfg actions id h'.name h'.sent response) :
    Inv cfg actions ({ s with lastUpload := some path, removals := s.removals ++ s.lastUpload.toList }.answer id h'
      response) := by
  obtain ⟨hothers, -⟩ := hi.others_same hh
  constructor
  case owned => exact hi.owned.replace hh hpath
  case handlers => exact handlers_answer hothers
  case answered => exact answered_append hi hans
  case spawned => exact hi.spawned
  case last =>
      intro p hp
      obtain rfl := Option.some.inj hp
      exact ⟨sent, bytes, hbytes, hwhole⟩

/-- A removal is done. -/
theorem Inv.removed (hi : Inv cfg actions s) {path : UploadPath} (hmem : path ∈ s.removals) :
    Inv cfg actions { s.remove path with removals := s.removals.erase path } := by
  have hdisk : ∀ {p : UploadPath} {o : Owner}, o ≠ .removal → Holds s p o →
      Function.update s.disk path none p = s.disk p := by
    intro p o hne hold
    apply Function.update_of_ne
    rintro rfl
    exact hne (hi.owned.unique p o .removal hold hmem)
  constructor
  case owned => exact hi.owned.remove hmem
  case handlers =>
      intro id h hh
      obtain ⟨huploads, hok⟩ := hi.handlers id h hh
      refine ⟨huploads, hok.congr fun p hp => ?_⟩
      exact hdisk (o := .handler id) (by simp) ⟨h, hh, hp⟩
  case answered => exact hi.answered
  case spawned => exact hi.spawned
  case last =>
      intro p hp
      obtain ⟨sent, bytes, hbytes, hwhole⟩ := hi.last p hp
      refine ⟨sent, bytes, ?_, hwhole⟩
      exact (hdisk (o := .last) (by simp) hp).trans hbytes

/-- A removal fails. -/
theorem Inv.removalFailed (hi : Inv cfg actions s) {path : UploadPath} (hmem : path ∈ s.removals) :
    Inv cfg actions { s.lose path with removals := s.removals.erase path } where
  owned := hi.owned.removalFail hmem
  handlers := hi.handlers
  answered := hi.answered
  spawned := hi.spawned
  last := hi.last

/-! ## The steps -/

theorem Handler.Received.eq {bytes : List UInt8} (hr : h.Received bytes) :
    received h.sent = (bytes ++ (received h.body).1, (received h.body).2) := by
  obtain ⟨chunks, hsent, rfl⟩ := hr
  rw [hsent, received_ok]

/-- One more chunk is read. -/
theorem Handler.Received.next {bytes chunk : List UInt8} {rest : Body} (hr : h.Received bytes)
    (hbody : h.body = .ok chunk :: rest) : ({ h with body := rest } : Handler H).Received (bytes ++ chunk) := by
  obtain ⟨chunks, hsent, rfl⟩ := hr
  refine ⟨chunks ++ [chunk], ?_, by rw [List.flatten_append, List.flatten_singleton]⟩
  show h.sent = Body.ofChunks (chunks ++ [chunk]) ++ rest
  rw [hsent, hbody, Body.ofChunks, Body.ofChunks, List.map_append, List.append_assoc]
  rfl

theorem Inv.readMagic (hi : Inv cfg actions s) (hh : s.handlers id = some h) {head : List UInt8}
    (hphase : h.phase = .reading head) : Inv cfg actions (s.readMagic id h head) := by
  obtain ⟨huploads, hok⟩ := hi.handlers id h hh
  rw [PhaseOk, hphase] at hok
  obtain ⟨hreceived, hshort⟩ := hok
  have hnopath : h.phase.path = none := by rw [hphase]; rfl
  have heq := hreceived.eq
  rw [Server.readMagic]
  cases hbody : h.body with
  | nil =>
      rw [hbody, received, List.append_nil] at heq
      have hrefusal : refusal cfg h.sent = some (if head.isEmpty then emptyUpload else notCapture) := by
        rw [refusal_of_short (by rw [heq]; exact hshort), heq]
        rfl
      dsimp only
      split
      · rename_i hempty
        rw [if_pos hempty] at hrefusal
        exact hi.answer hh hnopath (.refused huploads hrefusal)
      · rename_i hempty
        rw [if_neg hempty] at hrefusal
        exact hi.answer hh hnopath (.refused huploads hrefusal)
  | cons chunk rest =>
      cases chunk with
      | error e =>
          rw [hbody, received, List.append_nil] at heq
          have hrefusal : refusal cfg h.sent = some interrupted := by
            rw [refusal_of_short (by rw [heq]; exact hshort), heq]
            rfl
          exact hi.answer hh hnopath (.refused huploads hrefusal)
      | ok chunk =>
          have hnext := hreceived.next hbody
          dsimp only
          split
          · -- enough to look at the magic
            rename_i hlong
            cases hcapture : captureExtension (head ++ chunk) with
            | some ext => exact hi.allocate hh hnopath rfl ⟨hnext, hcapture⟩
            | none =>
                have heq' := hnext.eq
                dsimp only at heq'
                have hrefusal : refusal cfg h.sent = some notCapture := by
                  apply refusal_of_foreign
                  · rw [heq', List.length_append]
                    exact Nat.le_trans hlong (Nat.le_add_right _ _)
                  · rw [heq', captureExtension_append hlong]
                    exact hcapture
                exact hi.answer hh hnopath (.refused huploads hrefusal)
          · rename_i hfew
            exact hi.goOn_disk hh hnopath.symm ⟨hnext, Nat.lt_of_not_le hfew⟩

theorem Inv.spillNext (hi : Inv cfg actions s) (hh : s.handlers id = some h) {path : UploadPath} {written : Nat}
    (hphase : h.phase = .spilling path written) : Inv cfg actions (s.spillNext cfg id h path written) := by
  obtain ⟨huploads, hok⟩ := hi.handlers id h hh
  rw [PhaseOk, hphase] at hok
  obtain ⟨bytes, hreceived, hcapture, hbytes, rfl, hwithin⟩ := hok
  have hpath : h.phase.path = some path := by rw [hphase]; rfl
  have hlong := length_of_capture hcapture
  have heq := hreceived.eq
  rw [Server.spillNext]
  cases hbody : h.body with
  | nil =>
      refine hi.goOn_disk hh hpath.symm ?_
      obtain ⟨chunks, hsent, hflat⟩ := hreceived
      rw [hbody, List.append_nil] at hsent
      exact ⟨bytes, ⟨⟨chunks, hsent, hflat⟩, hcapture, hwithin⟩, hbytes⟩
  | cons chunk rest =>
      cases chunk with
      | error e =>
          rw [hbody, received, List.append_nil] at heq
          refine hi.goOn_disk hh hpath.symm ?_
          apply Answers.refused huploads
          show refusal cfg h.sent = some interrupted
          rw [refusal_of_within (by rw [heq]; exact hcapture) (by rw [heq]; exact hwithin), heq]
          rfl
      | ok chunk =>
          have hnext := hreceived.next hbody
          have heq' := hnext.eq
          dsimp only at heq' ⊢
          split
          · rename_i hover
            refine hi.goOn_disk hh hpath.symm ?_
            apply Answers.refused huploads
            apply refusal_of_over
            · show captureExtension (received h.sent).1 = some path.ext
              rw [heq', List.append_assoc, captureExtension_append hlong]
              exact hcapture
            · apply over_of_le hover
              show _ ≤ (received h.sent).1.length
              rw [heq', List.length_append, List.length_append]
              exact Nat.le_add_right _ _
          · rename_i hover
            refine hi.goOn_disk hh hpath.symm ?_
            exact ⟨bytes, hnext, hcapture, hbytes, rfl, Bool.eq_false_iff.2 hover⟩

theorem Inv.serve (hi : Inv cfg actions s) (hub : H) : Inv cfg actions { s with hub := hub } where
  owned := ⟨hi.owned.unique, hi.owned.covered, hi.owned.numbered, hi.owned.removals, hi.owned.begun⟩
  handlers := hi.handlers
  answered := hi.answered
  spawned := hi.spawned
  last := hi.last

theorem Inv.spawn (hi : Inv cfg actions s) {x : Spawned} {bytes : List UInt8} (hfile : x.file = some bytes)
    (hwhole : Whole cfg x.sent x.path bytes) : Inv cfg actions { s with spawned := s.spawned ++ [x] } where
  owned := ⟨hi.owned.unique, hi.owned.covered, hi.owned.numbered, hi.owned.removals, hi.owned.begun⟩
  handlers := hi.handlers
  answered := hi.answered
  spawned := by
    intro y hy
    rcases List.mem_append.1 hy with hy | hy
    · exact hi.spawned y hy
    · obtain rfl := List.mem_singleton.1 hy
      exact ⟨bytes, hfile, hwhole⟩
  last := hi.last

/-- What a handler awaited is there. -/
theorem Inv.poll (hi : Inv cfg actions s) (hh : s.handlers id = some h) (hstep : s.poll cfg id h = some s') :
    Inv cfg actions s' := by
  obtain ⟨huploads, hok⟩ := hi.handlers id h hh
  rw [PhaseOk] at hok
  rw [Server.poll] at hstep
  cases hphase : h.phase with
  | reading head =>
      rw [hphase] at hstep
      obtain rfl := Option.some.inj hstep
      exact hi.readMagic hh hphase
  | creating path head =>
      rw [hphase] at hstep hok
      obtain rfl := Option.some.inj hstep
      exact hi.write_goOn hh (by rw [hphase]; rfl) rfl fun _ _ => hok
  | writingHead path head =>
      rw [hphase] at hstep hok
      obtain rfl := Option.some.inj hstep
      obtain ⟨hreceived, hcapture⟩ := hok
      split
      · rename_i hover
        apply hi.write_goOn hh (by rw [hphase]; rfl) rfl
        intro disk' _
        apply Answers.refused huploads
        have heq := hreceived.eq
        apply refusal_of_over
        · show captureExtension (received h.sent).1 = some path.ext
          rw [heq, captureExtension_append (length_of_capture hcapture)]
          exact hcapture
        · apply over_of_le hover
          show _ ≤ (received h.sent).1.length
          rw [heq, List.length_append]
          exact Nat.le_add_right _ _
      · rename_i hover
        apply hi.write_goOn hh (by rw [hphase]; rfl) rfl
        exact fun disk' hdisk => ⟨head, hreceived, hcapture, hdisk, rfl, Bool.eq_false_iff.2 hover⟩
  | spilling path written =>
      rw [hphase] at hstep
      obtain rfl := Option.some.inj hstep
      exact hi.spillNext hh hphase
  | writing path written chunk =>
      rw [hphase] at hstep hok
      obtain rfl := Option.some.inj hstep
      obtain ⟨bytes, hreceived, hcapture, hbytes, rfl, hwithin⟩ := hok
      apply hi.write_goOn hh (by rw [hphase]; rfl) rfl
      intro disk' hdisk
      rw [hbytes, Option.getD_some] at hdisk
      refine ⟨bytes ++ chunk, hreceived, ?_, hdisk, (List.length_append).symm, hwithin⟩
      rwa [captureExtension_append (length_of_capture hcapture)]
  | flushing path =>
      rw [hphase] at hstep hok
      obtain rfl := Option.some.inj hstep
      exact hi.goOn_disk hh (by rw [hphase]; rfl) hok
  | discarding path response =>
      rw [hphase] at hstep hok
      obtain rfl := Option.some.inj hstep
      exact hi.remove_answer hh (by rw [hphase]; rfl) hok
  | spilled path =>
      rw [hphase] at hstep
      cases hstep
  | swapping path hub =>
      rw [hphase] at hstep hok
      obtain rfl := Option.some.inj hstep
      exact (hi.serve hub).goOn_disk hh (by rw [hphase]; rfl) hok
  | replacing path =>
      rw [hphase] at hstep hok
      obtain rfl := Option.some.inj hstep
      obtain ⟨⟨bytes, hwhole, hbytes⟩, hub, hspawns⟩ := hok
      exact hi.replace hh (by rw [hphase]; rfl) hbytes hwhole (.accepted huploads hwhole.refusal_eq hspawns)

/-- The operation on the file fails. -/
theorem Inv.fail (hi : Inv cfg actions s) (hh : s.handlers id = some h) {written : Nat}
    (hmem : Action.fails id written ∈ actions) (hstep : s.fail id h written = some s') : Inv cfg actions s' := by
  obtain ⟨huploads, -⟩ := hi.handlers id h hh
  have hans : Answers cfg actions id h.name h.sent storeFailed := .failed huploads hmem
  rw [Server.fail] at hstep
  cases hphase : h.phase with
  | creating path head =>
      rw [hphase] at hstep
      obtain rfl := Option.some.inj hstep
      exact hi.goOn_disk hh (by rw [hphase]; rfl) hans
  | writingHead path head =>
      rw [hphase] at hstep
      obtain rfl := Option.some.inj hstep
      exact hi.write_goOn hh (by rw [hphase]; rfl) rfl fun _ _ => hans
  | writing path n chunk =>
      rw [hphase] at hstep
      obtain rfl := Option.some.inj hstep
      exact hi.write_goOn hh (by rw [hphase]; rfl) rfl fun _ _ => hans
  | flushing path =>
      rw [hphase] at hstep
      obtain rfl := Option.some.inj hstep
      exact hi.goOn_disk hh (by rw [hphase]; rfl) hans
  | _ =>
      rw [hphase] at hstep
      cases hstep

/-- The removal of the partial file fails. -/
theorem Inv.discardFail (hi : Inv cfg actions s) (hh : s.handlers id = some h)
    (hstep : s.discardFail id h = some s') : Inv cfg actions s' := by
  obtain ⟨-, hok⟩ := hi.handlers id h hh
  rw [PhaseOk] at hok
  rw [Server.discardFail] at hstep
  cases hphase : h.phase with
  | discarding path response =>
      rw [hphase] at hstep hok
      obtain rfl := Option.some.inj hstep
      exact hi.lose_answer hh (by rw [hphase]; rfl) hok
  | _ =>
      rw [hphase] at hstep
      cases hstep

/-- A handler with a file is dropped: the file may be created behind it. -/
theorem Inv.drop_file (hi : Inv cfg actions s) (hh : s.handlers id = some h) {path : UploadPath}
    (hpath : h.phase.path = some path) (hdisk : ∀ p, p ≠ path → disk p = s.disk p) :
    Inv cfg actions (({ s with disk := disk }.lose path).gone id) := by
  apply hi.gone hh
  · intro p hp
    apply hdisk
    rintro rfl
    exact hp hpath
  · exact hi.owned.drop hh hpath hdisk
  · rfl
  · rfl
  · rfl
  · rfl

/-- The handler is dropped where it awaits. -/
theorem Inv.drop (hi : Inv cfg actions s) (hh : s.handlers id = some h) (hstep : s.drop id h = some s') :
    Inv cfg actions s' := by
  rw [Server.drop] at hstep
  cases hphase : h.phase with
  | reading head =>
      rw [hphase] at hstep
      obtain rfl := Option.some.inj hstep
      exact hi.gone hh (fun _ _ => rfl) (hi.owned.dropEmpty hh (by rw [hphase]; rfl)) rfl rfl rfl rfl
  | creating path head =>
      rw [hphase] at hstep
      obtain rfl := Option.some.inj hstep
      exact hi.drop_file hh (by rw [hphase]; rfl) fun p hp => Function.update_of_ne hp _ _
  | writingHead path head | spilling path written | writing path written chunk | flushing path =>
      rw [hphase] at hstep
      obtain rfl := Option.some.inj hstep
      exact hi.drop_file hh (by rw [hphase]; rfl) fun _ _ => rfl
  | discarding path response =>
      rw [hphase] at hstep
      obtain rfl := Option.some.inj hstep
      apply hi.gone hh
      · exact fun _ _ => rfl
      · exact hi.owned.dropRemoval hh (by rw [hphase]; rfl)
      · rfl
      · rfl
      · rfl
      · rfl
  | spilled path | swapping path hub | replacing path =>
      rw [hphase] at hstep
      cases hstep

theorem Inv.begin (hi : Inv cfg actions s) {name : String} {body : Body}
    (hstep : s.step cfg (.begin name body) = some s') : Inv cfg actions s' := by
  -- the number of the new upload has no handler yet
  have hnone : s.handlers s.begun = none := by
    cases hh : s.handlers s.begun with
    | none => rfl
    | some h => exact absurd (hi.owned.begun _ h hh) (Nat.lt_irrefl _)
  have hholds : ∀ next : Option (Handler H), (∀ h, next = some h → h.phase.path = none) → ∀ p o,
      Holds { s with begun := s.begun + 1, handlers := Function.update s.handlers s.begun next } p o ↔
        Holds s p o := by
    intro next hnext p o
    cases o with
    | handler id =>
        by_cases heq : id = s.begun
        · subst heq
          simp only [Holds, Function.update_self, hnone, reduceCtorEq, false_and, exists_false, iff_false]
          rintro ⟨h, hh, hp⟩
          rw [hnext h hh] at hp
          cases hp
        · simp [Holds, heq]
    | removal => exact Iff.rfl
    | last => exact Iff.rfl
    | lost => exact Iff.rfl
  have howned : ∀ next : Option (Handler H), (∀ h, next = some h → h.phase.path = none) →
      Owned { s with begun := s.begun + 1, handlers := Function.update s.handlers s.begun next } := by
    intro next hnext
    apply hi.owned.handed fun _ o => o
    · exact fun p o hold => ⟨o, (hholds next hnext p o).1 hold, rfl⟩
    · intro p hp
      obtain ⟨o, hold⟩ := hi.owned.covered p hp
      exact ⟨o, (hholds next hnext p o).2 hold⟩
    · rfl
    · exact hi.owned.removals
    · intro id h hh
      by_cases heq : id = s.begun
      · exact Nat.lt_succ_of_le (Nat.le_of_eq heq)
      · have hold : s.handlers id = some h := (Function.update_of_ne heq next s.handlers).symm.trans hh
        exact Nat.lt_succ_of_lt (hi.owned.begun id h hold)
  rw [Server.step] at hstep
  dsimp only at hstep
  rw [Nat.add_sub_cancel] at hstep
  split at hstep
  · rename_i huploads
    obtain rfl := Option.some.inj hstep
    constructor
    case owned =>
        apply howned
        rintro h hh
        obtain rfl := Option.some.inj hh
        rfl
    case handlers =>
        intro id h hh
        by_cases heq : id = s.begun
        · subst heq
          rw [show ({ s with begun := s.begun + 1, handlers := Function.update s.handlers s.begun _ } :
            Server H).handlers s.begun = _ from Function.update_self _ _ _] at hh
          obtain rfl := Option.some.inj hh
          exact ⟨huploads, ⟨[], rfl, rfl⟩, Nat.zero_lt_succ _⟩
        · exact hi.handlers id h ((Function.update_of_ne heq _ s.handlers).symm.trans hh)
    case answered => exact hi.answered
    case spawned => exact hi.spawned
    case last => exact hi.last
  · rename_i huploads
    obtain rfl := Option.some.inj hstep
    constructor
    case owned =>
        have ho := howned none (by simp)
        exact ⟨ho.unique, ho.covered, ho.numbered, ho.removals, ho.begun⟩
    case handlers =>
        intro id h hh
        by_cases heq : id = s.begun
        · subst heq
          cases (Function.update_self _ _ _).symm.trans hh
        · exact hi.handlers id h ((Function.update_of_ne heq _ s.handlers).symm.trans hh)
    case answered => exact answered_append hi (.disabled (Bool.eq_false_iff.2 huploads))
    case spawned => exact hi.spawned
    case last => exact hi.last

/-- One step of a run. -/
theorem Inv.step (hi : Inv cfg actions s) {action : Action H} (hmem : action ∈ actions)
    (hstep : s.step cfg action = some s') : Inv cfg actions s' := by
  cases action with
  | begin name body => exact hi.begin hstep
  | poll id =>
      obtain ⟨h, hh, hpoll⟩ := Option.bind_eq_some_iff.1 hstep
      exact hi.poll hh hpoll
  | fails id written =>
      obtain ⟨h, hh, hfail⟩ := Option.bind_eq_some_iff.1 hstep
      exact hi.fail hh hmem hfail
  | spawns id hub =>
      obtain ⟨h, hh, hspawn⟩ := Option.bind_eq_some_iff.1 hstep
      cases hphase : h.phase with
      | spilled path =>
          rw [hphase] at hspawn
          obtain rfl := Option.some.inj hspawn
          have hok := (hi.handlers id h hh).2
          rw [PhaseOk, hphase] at hok
          obtain ⟨bytes, hwhole, hbytes⟩ := hok
          apply (hi.spawn (x := ⟨id, h.name, path, s.disk path, h.sent⟩) hbytes hwhole).goOn_disk hh
          · rw [hphase]
            rfl
          · exact ⟨⟨bytes, hwhole, hbytes⟩, hub, hmem⟩
      | _ =>
          rw [hphase] at hspawn
          cases hspawn
  | refuses id msg =>
      obtain ⟨h, hh, hspawn⟩ := Option.bind_eq_some_iff.1 hstep
      cases hphase : h.phase with
      | spilled path =>
          rw [hphase] at hspawn
          obtain rfl := Option.some.inj hspawn
          obtain ⟨huploads, hok⟩ := hi.handlers id h hh
          rw [PhaseOk, hphase] at hok
          obtain ⟨bytes, hwhole, hbytes⟩ := hok
          exact (hi.spawn (x := ⟨id, h.name, path, s.disk path, h.sent⟩) hbytes hwhole).leave hh
            (by rw [hphase]; rfl) (.notSpawned huploads hwhole.refusal_eq hmem)
      | _ =>
          rw [hphase] at hspawn
          cases hspawn
  | removes path =>
      rw [Server.step] at hstep
      split at hstep
      · rename_i hremoval
        obtain rfl := Option.some.inj hstep
        exact hi.removed hremoval
      · cases hstep
  | discardFails id =>
      obtain ⟨h, hh, hfail⟩ := Option.bind_eq_some_iff.1 hstep
      exact hi.discardFail hh hfail
  | removalFails path =>
      rw [Server.step] at hstep
      split at hstep
      · rename_i hremoval
        obtain rfl := Option.some.inj hstep
        exact hi.removalFailed hremoval
      · cases hstep
  | drops id =>
      obtain ⟨h, hh, hdrop⟩ := Option.bind_eq_some_iff.1 hstep
      exact hi.drop hh hdrop

theorem inv_start (cfg : Config) (hub : H) : Inv cfg [] ({ hub := hub } : Server H) where
  owned :=
    { unique := by
        rintro p (id | - | - | -) o' hold hold'
        · obtain ⟨h, hh, -⟩ := hold
          cases hh
        · cases hold
        · cases hold
        · cases hold
      covered := fun p hp => absurd rfl hp
      numbered := by
        rintro p (id | - | - | -) hold
        · obtain ⟨h, hh, -⟩ := hold
          cases hh
        · cases hold
        · cases hold
        · cases hold
      removals := List.nodup_nil
      begun := fun id h hh => by cases hh }
  handlers := fun id h hh => by cases hh
  answered := fun a ha => by cases ha
  spawned := fun x hx => by cases hx
  last := fun p hp => by cases hp

/-- The invariant holds along every run. -/
theorem inv_run (cfg : Config) (hub : H) (actions : List (Action H)) :
    Inv cfg actions (run cfg { hub := hub } actions) := by
  induction actions using List.reverseRecOn with
  | nil => exact inv_start cfg hub
  | append_singleton actions action ih =>
      have hmono := ih.mono (List.subset_append_left actions [action])
      rw [run, List.foldl_append, List.foldl_cons, List.foldl_nil, ← run]
      cases hstep : (run cfg { hub := hub } actions).step cfg action with
      | none => exact hmono
      | some s' => exact hmono.step (List.mem_append_right _ (List.mem_singleton_self _)) hstep

end Invariant

/-! ## Every run -/

section Lost

variable {cfg : Config} {s s' : Server H} {id : Nat} {h : Handler H}

theorem lost_readMagic (head : List UInt8) : (s.readMagic id h head).lost = s.lost := by
  rw [Server.readMagic]
  cases h.body with
  | nil =>
      dsimp only
      split <;> rfl
  | cons chunk rest =>
      cases chunk with
      | error e => rfl
      | ok chunk =>
          dsimp only
          split
          · cases captureExtension (head ++ chunk) <;> rfl
          · rfl

theorem lost_spillNext (path : UploadPath) (written : Nat) : (s.spillNext cfg id h path written).lost = s.lost := by
  rw [Server.spillNext]
  cases h.body with
  | nil => rfl
  | cons chunk rest =>
      cases chunk with
      | error e => rfl
      | ok chunk =>
          dsimp only
          split <;> rfl

/-- What a handler goes on with leaves no file over. -/
theorem lost_poll (hstep : s.poll cfg id h = some s') : s'.lost = s.lost := by
  rw [Server.poll] at hstep
  cases hphase : h.phase with
  | reading head =>
      rw [hphase] at hstep
      obtain rfl := Option.some.inj hstep
      exact lost_readMagic head
  | spilling path written =>
      rw [hphase] at hstep
      obtain rfl := Option.some.inj hstep
      exact lost_spillNext path written
  | writingHead path head =>
      rw [hphase] at hstep
      obtain rfl := Option.some.inj hstep
      split <;> rfl
  | spilled path =>
      rw [hphase] at hstep
      cases hstep
  | _ =>
      rw [hphase] at hstep
      obtain rfl := Option.some.inj hstep
      rfl

theorem lost_fail {written : Nat} (hstep : s.fail id h written = some s') : s'.lost = s.lost := by
  rw [Server.fail] at hstep
  cases hphase : h.phase with
  | creating path head | writingHead path head | writing path n chunk | flushing path =>
      rw [hphase] at hstep
      obtain rfl := Option.some.inj hstep
      rfl
  | _ =>
      rw [hphase] at hstep
      cases hstep

/-- A handler that is dropped leaves at most its file over. -/
theorem lost_drop (hstep : s.drop id h = some s') : s'.lost.length ≤ s.lost.length + 1 := by
  rw [Server.drop] at hstep
  cases hphase : h.phase with
  | reading head | discarding path response =>
      rw [hphase] at hstep
      obtain rfl := Option.some.inj hstep
      exact Nat.le_succ _
  | creating path head | writingHead path head | spilling path n | writing path n chunk | flushing path =>
      rw [hphase] at hstep
      obtain rfl := Option.some.inj hstep
      exact Nat.le_of_eq List.length_append
  | _ =>
      rw [hphase] at hstep
      cases hstep

/-- A step leaves at most one file over, and none but by a removal that fails or a handler that is dropped. -/
theorem lost_step {action : Action H} (hstep : s.step cfg action = some s') :
    s'.lost.length ≤ s.lost.length + if action.loses then 1 else 0 := by
  have hsame : s'.lost = s.lost → s'.lost.length ≤ s.lost.length + if action.loses then 1 else 0 :=
    fun heq => heq ▸ Nat.le_add_right _ _
  cases action with
  | begin name body =>
      apply hsame
      rw [Server.step] at hstep
      dsimp only at hstep
      split at hstep
      all_goals
        obtain rfl := Option.some.inj hstep
        rfl
  | poll id =>
      obtain ⟨h, -, hpoll⟩ := Option.bind_eq_some_iff.1 hstep
      exact hsame (lost_poll hpoll)
  | fails id written =>
      obtain ⟨h, -, hfail⟩ := Option.bind_eq_some_iff.1 hstep
      exact hsame (lost_fail hfail)
  | spawns id answer | refuses id answer =>
      -- what the spawner answers leaves the file with its hub, or to a removal
      obtain ⟨h, -, hspawn⟩ := Option.bind_eq_some_iff.1 hstep
      apply hsame
      cases hphase : h.phase with
      | spilled path =>
          rw [hphase] at hspawn
          obtain rfl := Option.some.inj hspawn
          rfl
      | _ =>
          rw [hphase] at hspawn
          cases hspawn
  | removes path =>
      apply hsame
      rw [Server.step] at hstep
      split at hstep
      · obtain rfl := Option.some.inj hstep
        rfl
      · cases hstep
  | discardFails id =>
      obtain ⟨h, -, hfail⟩ := Option.bind_eq_some_iff.1 hstep
      rw [Server.discardFail] at hfail
      cases hphase : h.phase with
      | discarding path response =>
          rw [hphase] at hfail
          obtain rfl := Option.some.inj hfail
          exact Nat.le_of_eq List.length_append
      | _ =>
          rw [hphase] at hfail
          cases hfail
  | removalFails path =>
      rw [Server.step] at hstep
      split at hstep
      · obtain rfl := Option.some.inj hstep
        exact Nat.le_of_eq List.length_append
      · cases hstep
  | drops id =>
      obtain ⟨h, -, hdrop⟩ := Option.bind_eq_some_iff.1 hstep
      exact lost_drop hdrop

end Lost

/-- There are no more files left over than steps that lose one. -/
theorem lost_run (cfg : Config) (hub : H) (actions : List (Action H)) :
    (run cfg { hub := hub } actions).lost.length ≤ actions.countP Action.loses := by
  induction actions using List.reverseRecOn with
  | nil => exact Nat.le_refl _
  | append_singleton actions action ih =>
      rw [run, List.foldl_append, List.foldl_cons, List.foldl_nil, ← run, List.countP_append, List.countP_singleton]
      cases hstep : (run cfg { hub := hub } actions).step cfg action with
      | none => exact Nat.le_trans ih (Nat.le_add_right _ _)
      | some s' => exact Nat.le_trans (lost_step hstep) (Nat.add_le_add_right ih _)

/-- **No temporary file is shared, and none is left over** but by a removal that fails or a handler that is dropped. In
every run of any number of uploads, in any order of their steps, with any failures: every file is that of one upload
under way, of one removal under way, the one in the slot, or one that is left over, and there are no more of these than
removals that failed and handlers that were dropped; the one in the slot is a whole capture; and when nothing is under
way, it is the only file that is not left over. -/
theorem uploads_no_leak (cfg : Config) (hub : H) (actions : List (Action H)) :
    (∀ p o o', Holds (run cfg { hub := hub } actions) p o → Holds (run cfg { hub := hub } actions) p o' → o = o') ∧
      (∀ p, (run cfg { hub := hub } actions).disk p ≠ none → ∃ o, Holds (run cfg { hub := hub } actions) p o) ∧
      (run cfg { hub := hub } actions).lost.length ≤ actions.countP Action.loses ∧
      (∀ p, (run cfg { hub := hub } actions).lastUpload = some p →
        ∃ sent bytes, (run cfg { hub := hub } actions).disk p = some bytes ∧ Whole cfg sent p bytes) ∧
      ((∀ id, (run cfg { hub := hub } actions).handlers id = none) → (run cfg { hub := hub } actions).removals = [] →
        ∀ p, p ∉ (run cfg { hub := hub } actions).lost →
          ((run cfg { hub := hub } actions).disk p ≠ none ↔ (run cfg { hub := hub } actions).lastUpload = some p)) := by
  have hi := inv_run cfg hub actions
  refine ⟨hi.owned.unique, hi.owned.covered, lost_run cfg hub actions, hi.last, ?_⟩
  intro hidle hremovals p hkept
  constructor
  · intro hp
    obtain ⟨o, hold⟩ := hi.owned.covered p hp
    cases o with
    | handler id =>
        obtain ⟨h, hh, -⟩ := hold
        rw [hidle] at hh
        cases hh
    | removal =>
        rw [Holds, hremovals] at hold
        cases hold
    | last => exact hold
    | lost => exact absurd hold hkept
  · intro hp
    obtain ⟨sent, bytes, hbytes, -⟩ := hi.last p hp
    rw [hbytes]
    exact Option.some_ne_none _

/-- **The spawner gets the body.** In every run, whatever the other uploads do, the file that the spawner is given holds
the bytes of all chunks of its own body, in their order; they begin like a capture, and are within the cap. -/
theorem spawned_whole (cfg : Config) (hub : H) (actions : List (Action H)) :
    ∀ x ∈ (run cfg { hub := hub } actions).spawned, ∃ chunks, x.sent = .ofChunks chunks ∧
      x.file = some chunks.flatten ∧ captureExtension chunks.flatten = some x.path.ext ∧
      (cfg.maxUploadBytes = 0 ∨ chunks.flatten.length ≤ cfg.maxUploadBytes) := by
  intro x hx
  obtain ⟨bytes, hfile, hwhole⟩ := (inv_run cfg hub actions).spawned x hx
  obtain ⟨chunks, hsent, rfl⟩ := hwhole.chunks
  refine ⟨chunks, hsent, hfile, hwhole.capture, ?_⟩
  have hwithin := hwhole.within
  rw [Config.over, decide_eq_false_iff_not] at hwithin
  omega

/-- An upload of a capture in one chunk, from its request to its answer. -/
def oneUpload : List (Action Bool) :=
  [.begin "a.pcap" [.ok [0xd4, 0xc3, 0xb2, 0xa1, 2, 0, 4, 0]], .poll 0, .poll 0, .poll 0, .poll 0, .poll 0,
    .spawns 0 true, .poll 0, .poll 0]

/-- The spawner is given the eight bytes. -/
theorem spawned_whole_oneUpload :
    ∃ x ∈ (run ⟨true, 16⟩ { hub := false } oneUpload).spawned, ∃ chunks, x.sent = .ofChunks chunks ∧
      x.file = some chunks.flatten ∧ captureExtension chunks.flatten = some x.path.ext ∧
      (16 = 0 ∨ chunks.flatten.length ≤ 16) := by
  obtain ⟨x, rest, hspawned⟩ : ∃ x rest, (run ⟨true, 16⟩ { hub := false } oneUpload).spawned = x :: rest :=
    ⟨_, _, rfl⟩
  have hx : x ∈ (run ⟨true, 16⟩ { hub := false } oneUpload).spawned := hspawned ▸ List.mem_cons_self
  exact ⟨x, hx, spawned_whole ⟨true, 16⟩ false oneUpload x hx⟩

/-- **The answer is that of the bytes.** In every run, each upload is refused for the bytes of its body and its end, not
for the chunks they came in or for another upload, or because an operation on its file or its spawner failed; otherwise
it is accepted. -/
theorem upload_answers (cfg : Config) (hub : H) (actions : List (Action H)) :
    ∀ a ∈ (run cfg { hub := hub } actions).answered, Answers cfg actions a.id a.name a.sent a.response :=
  (inv_run cfg hub actions).answered

/-- The upload of one chunk is answered. -/
theorem upload_answers_oneUpload :
    ∃ a ∈ (run ⟨true, 16⟩ { hub := false } oneUpload).answered,
      Answers ⟨true, 16⟩ oneUpload a.id a.name a.sent a.response := by
  obtain ⟨a, rest, hanswered⟩ : ∃ a rest, (run ⟨true, 16⟩ { hub := false } oneUpload).answered = a :: rest :=
    ⟨_, _, rfl⟩
  have ha : a ∈ (run ⟨true, 16⟩ { hub := false } oneUpload).answered := hanswered ▸ List.mem_cons_self
  exact ⟨a, ha, upload_answers ⟨true, 16⟩ false oneUpload a ha⟩

/-! ## Every upload ends -/

/-- How many steps an upload has left at most, by where it awaits. -/
def Phase.rank : Phase H → Nat
  | .reading _ => 9
  | .creating _ _ => 8
  | .writingHead _ _ => 7
  | .writing _ _ _ => 6
  | .spilling _ _ => 5
  | .flushing _ => 4
  | .spilled _ => 3
  | .swapping _ _ => 2
  | .discarding _ _ | .replacing _ => 1

/-- A chunk takes two steps. -/
def Handler.weight (h : Handler H) : Nat := 2 * h.body.length + h.phase.rank

/-- The upload that takes the step. -/
def Action.own : Action H → Option Nat
  | .poll id | .fails id _ | .spawns id _ | .refuses id _ | .discardFails id => some id
  | .begin _ _ | .removes _ | .removalFails _ | .drops _ => none

/-- How many steps of an upload are taken. -/
def stepsOf (cfg : Config) (id : Nat) : Server H → List (Action H) → Nat
  | _, [] => 0
  | s, action :: actions =>
      (if action.own = some id ∧ (s.step cfg action).isSome then 1 else 0) +
        stepsOf cfg id ((s.step cfg action).getD s) actions

section Ends

variable {cfg : Config} {s s' : Server H} {id : Nat} {h : Handler H}

/-- A step of an upload brings it nearer to its end, and the others stay where they are. -/
structure Lowers (s s' : Server H) (id : Nat) (h : Handler H) : Prop where
  begun : s'.begun = s.begun
  others : ∀ id', id' ≠ id → s'.handlers id' = s.handlers id'
  own : ∀ h', s'.handlers id = some h' → h'.weight < h.weight

theorem lowers_goOn {h' : Handler H} {phase : Phase H} (hlt : 2 * h'.body.length + phase.rank < h.weight) :
    Lowers s (s.goOn id h' phase) id h where
  begun := rfl
  others := fun id' hne => Function.update_of_ne hne _ _
  own := by
    intro h'' hnext
    have hself : (s.goOn id h' phase).handlers id = some { h' with phase := phase } := Function.update_self _ _ _
    obtain rfl := Option.some.inj (hself.symm.trans hnext)
    exact hlt

theorem lowers_answer {h' : Handler H} {response : Response} : Lowers s (s.answer id h' response) id h where
  begun := rfl
  others := fun id' hne => Function.update_of_ne hne _ _
  own := fun h'' hnext => by cases (Function.update_self _ _ _).symm.trans hnext

/-- What else a step changes does not matter. -/
theorem Lowers.of_eq {t : Server H} (hl : Lowers t s' id h) (hhandlers : t.handlers = s.handlers)
    (hbegun : t.begun = s.begun) : Lowers s s' id h where
  begun := hl.begun.trans hbegun
  others := fun id' hne => (hl.others id' hne).trans (congrFun hhandlers id')
  own := hl.own

theorem lowers_readMagic {head : List UInt8} (hphase : h.phase = .reading head) :
    Lowers s (s.readMagic id h head) id h := by
  have hweight : h.weight = 2 * h.body.length + 9 := by rw [Handler.weight, hphase]; rfl
  rw [Server.readMagic]
  cases hbody : h.body with
  | nil =>
      dsimp only
      split <;> exact lowers_answer
  | cons chunk rest =>
      rw [hbody, List.length_cons] at hweight
      cases chunk with
      | error e => exact lowers_answer
      | ok chunk =>
          dsimp only
          split
          · cases captureExtension (head ++ chunk) with
            | some ext =>
                refine Lowers.of_eq (lowers_goOn ?_) rfl rfl
                rw [hweight]
                simp only [Phase.rank]
                omega
            | none => exact lowers_answer
          · apply lowers_goOn
            rw [hweight]
            simp only [Phase.rank]
            omega

theorem lowers_spillNext {path : UploadPath} {written : Nat} (hphase : h.phase = .spilling path written) :
    Lowers s (s.spillNext cfg id h path written) id h := by
  have hweight : h.weight = 2 * h.body.length + 5 := by rw [Handler.weight, hphase]; rfl
  rw [Server.spillNext]
  cases hbody : h.body with
  | nil =>
      apply lowers_goOn
      rw [hweight]
      exact Nat.lt_succ_self _
  | cons chunk rest =>
      cases chunk with
      | error e =>
          apply lowers_goOn
          rw [hweight]
          exact Nat.add_lt_add_left (by decide : 1 < 5) _
      | ok chunk =>
          rw [hbody, List.length_cons] at hweight
          dsimp only
          split
          all_goals
            apply lowers_goOn
            rw [hweight]
            simp only [Phase.rank]
            omega

theorem lowers_poll (hstep : s.poll cfg id h = some s') : Lowers s s' id h := by
  have hweight : h.weight = 2 * h.body.length + h.phase.rank := rfl
  rw [Server.poll] at hstep
  cases hphase : h.phase with
  | reading head =>
      rw [hphase] at hstep
      obtain rfl := Option.some.inj hstep
      exact lowers_readMagic hphase
  | spilling path written =>
      rw [hphase] at hstep
      obtain rfl := Option.some.inj hstep
      exact lowers_spillNext hphase
  | writingHead path head =>
      rw [hphase] at hstep hweight
      obtain rfl := Option.some.inj hstep
      split
      all_goals
        refine Lowers.of_eq (lowers_goOn ?_) rfl rfl
        rw [hweight]
        exact Nat.add_lt_add_left (by simp [Phase.rank]) _
  | discarding path response =>
      rw [hphase] at hstep
      obtain rfl := Option.some.inj hstep
      exact lowers_answer.of_eq rfl rfl
  | replacing path =>
      rw [hphase] at hstep
      obtain rfl := Option.some.inj hstep
      exact lowers_answer.of_eq rfl rfl
  | spilled path =>
      rw [hphase] at hstep
      cases hstep
  | _ =>
      rw [hphase] at hstep hweight
      obtain rfl := Option.some.inj hstep
      refine Lowers.of_eq (lowers_goOn ?_) rfl rfl
      rw [hweight]
      exact Nat.add_lt_add_left (by simp [Phase.rank]) _

theorem lowers_fail {written : Nat} (hstep : s.fail id h written = some s') : Lowers s s' id h := by
  have hweight : h.weight = 2 * h.body.length + h.phase.rank := rfl
  rw [Server.fail] at hstep
  cases hphase : h.phase with
  | creating path head | writingHead path head | writing path n chunk | flushing path =>
      rw [hphase] at hstep hweight
      obtain rfl := Option.some.inj hstep
      refine Lowers.of_eq (lowers_goOn ?_) rfl rfl
      rw [hweight]
      exact Nat.add_lt_add_left (by simp [Phase.rank]) _
  | _ =>
      rw [hphase] at hstep
      cases hstep

/-- A step of an upload, whichever it is. -/
theorem lowers_step {action : Action H} (hown : action.own = some id) (hh : s.handlers id = some h)
    (hstep : s.step cfg action = some s') : Lowers s s' id h := by
  cases action with
  | begin name body => cases hown
  | removes path => cases hown
  | removalFails path => cases hown
  | drops id' => cases hown
  | discardFails id' =>
      obtain rfl := Option.some.inj hown
      rw [Server.step, hh, Option.bind_some, Server.discardFail] at hstep
      cases hphase : h.phase with
      | discarding path response =>
          rw [hphase] at hstep
          obtain rfl := Option.some.inj hstep
          exact lowers_answer.of_eq rfl rfl
      | _ =>
          rw [hphase] at hstep
          cases hstep
  | poll id' =>
      obtain rfl := Option.some.inj hown
      rw [Server.step, hh] at hstep
      exact lowers_poll hstep
  | fails id' written =>
      obtain rfl := Option.some.inj hown
      rw [Server.step, hh] at hstep
      exact lowers_fail hstep
  | spawns id' hub =>
      obtain rfl := Option.some.inj hown
      rw [Server.step, hh, Option.bind_some] at hstep
      have hweight : h.weight = 2 * h.body.length + h.phase.rank := rfl
      cases hphase : h.phase with
      | spilled path =>
          rw [hphase] at hstep hweight
          obtain rfl := Option.some.inj hstep
          refine Lowers.of_eq (lowers_goOn ?_) rfl rfl
          rw [hweight]
          exact Nat.add_lt_add_left (by simp [Phase.rank]) _
      | _ =>
          rw [hphase] at hstep
          cases hstep
  | refuses id' msg =>
      obtain rfl := Option.some.inj hown
      rw [Server.step, hh, Option.bind_some] at hstep
      cases hphase : h.phase with
      | spilled path =>
          rw [hphase] at hstep
          obtain rfl := Option.some.inj hstep
          exact lowers_answer.of_eq rfl rfl
      | _ =>
          rw [hphase] at hstep
          cases hstep

/-- A handler that is dropped is gone, and the others stay where they are. -/
theorem handlers_drop (hstep : s.drop id h = some s') (id' : Nat) :
    (s'.handlers id' = s.handlers id' ∨ s'.handlers id' = none) ∧ s'.begun = s.begun := by
  have hgone : s'.handlers = Function.update s.handlers id none ∧ s'.begun = s.begun := by
    rw [Server.drop] at hstep
    cases hphase : h.phase with
    | spilled path | swapping path hub | replacing path =>
        rw [hphase] at hstep
        cases hstep
    | _ =>
        rw [hphase] at hstep
        obtain rfl := Option.some.inj hstep
        exact ⟨rfl, rfl⟩
  refine ⟨?_, hgone.2⟩
  rw [hgone.1]
  by_cases heq : id' = id
  · exact .inr (heq ▸ Function.update_self _ _ _)
  · exact .inl (Function.update_of_ne heq _ _)

/-- A step that is not of an upload leaves it where it is, or drops it. -/
theorem handlers_step {action : Action H} (hown : action.own ≠ some id) (hid : id < s.begun)
    (hstep : s.step cfg action = some s') :
    (s'.handlers id = s.handlers id ∨ s'.handlers id = none) ∧ s.begun ≤ s'.begun := by
  cases hother : action.own with
  | some id' =>
      have hne : id ≠ id' := fun heq => hown (heq ▸ hother)
      cases hh : s.handlers id' with
      | some h' =>
          have hl := lowers_step hother hh hstep
          exact ⟨.inl (hl.others id hne), Nat.le_of_eq hl.begun.symm⟩
      | none =>
          cases action with
          | begin name body => cases hother
          | removes path => cases hother
          | removalFails path => cases hother
          | drops id₀ => cases hother
          | _ =>
              obtain rfl := Option.some.inj hother
              rw [Server.step, hh] at hstep
              cases hstep
  | none =>
      cases action with
      | begin name body =>
          rw [Server.step] at hstep
          dsimp only at hstep
          rw [Nat.add_sub_cancel] at hstep
          split at hstep
          all_goals
            obtain rfl := Option.some.inj hstep
            exact ⟨.inl (Function.update_of_ne (Nat.ne_of_lt hid) _ _), Nat.le_succ _⟩
      | removes path | removalFails path =>
          rw [Server.step] at hstep
          split at hstep
          · obtain rfl := Option.some.inj hstep
            exact ⟨.inl rfl, Nat.le_refl _⟩
          · cases hstep
      | drops id' =>
          obtain ⟨h', hh, hdrop⟩ := Option.bind_eq_some_iff.1 hstep
          obtain ⟨hsame, hbegun⟩ := handlers_drop hdrop id
          exact ⟨hsame, Nat.le_of_eq hbegun.symm⟩
      | _ => cases hother

/-- An upload that was answered or dropped takes no step. -/
theorem step_of_answered {action : Action H} (hown : action.own = some id) (hh : s.handlers id = none) :
    s.step cfg action = none := by
  cases action with
  | begin name body => cases hown
  | removes path => cases hown
  | removalFails path => cases hown
  | drops id' => cases hown
  | _ =>
      obtain rfl := Option.some.inj hown
      rw [Server.step, hh]
      rfl

/-- The steps of an upload are no more than its weight, whatever the others do. -/
theorem stepsOf_le (actions : List (Action H)) (hid : id < s.begun) :
    stepsOf cfg id s actions ≤ (s.handlers id).elim 0 Handler.weight := by
  induction actions generalizing s with
  | nil => exact Nat.zero_le _
  | cons action actions ih =>
      rw [stepsOf]
      cases hstep : s.step cfg action with
      | none =>
          simp only [Option.isSome_none, Bool.false_eq_true, and_false, if_false, Option.getD_none, Nat.zero_add]
          exact ih hid
      | some s' =>
          simp only [Option.isSome_some, and_true, Option.getD_some]
          by_cases hown : action.own = some id
          · rw [if_pos hown]
            cases hh : s.handlers id with
            | none =>
                rw [step_of_answered hown hh] at hstep
                cases hstep
            | some h =>
                have hl := lowers_step hown hh hstep
                have hrest := ih (s := s') (hl.begun ▸ hid)
                have hlt : (s'.handlers id).elim 0 Handler.weight < h.weight := by
                  cases hnext : s'.handlers id with
                  | some h' => exact hl.own h' hnext
                  | none =>
                      rw [Option.elim_none, Handler.weight]
                      cases h.phase <;> simp [Phase.rank]
                rw [Option.elim_some]
                omega
          · rw [if_neg hown, Nat.zero_add]
            obtain ⟨hsame, hbegun⟩ := handlers_step hown hid hstep
            have hrest := ih (s := s') (Nat.lt_of_lt_of_le hid hbegun)
            rcases hsame with hsame | hgone
            · rwa [hsame] at hrest
            · rw [hgone] at hrest
              exact Nat.le_trans hrest (Nat.zero_le _)

/-- An upload under way can always go on. -/
theorem canStep (hub : H) (hh : s.handlers id = some h) :
    ∃ action : Action H, action.own = some id ∧ (s.step cfg action).isSome := by
  cases hphase : h.phase with
  | spilled path =>
      refine ⟨.spawns id hub, rfl, ?_⟩
      rw [Server.step, hh, Option.bind_some, hphase]
      rfl
  | _ =>
      refine ⟨.poll id, rfl, ?_⟩
      rw [Server.step, hh, Option.bind_some, Server.poll, hphase]
      rfl

end Ends

/-- **Every upload is answered** unless it is dropped. From any state that a run reaches, an upload under way takes at
most two steps for each chunk that it has not read and nine more, whatever is done in between; and as long as it is
neither answered nor dropped, there is a step that it can take. -/
theorem upload_ends (cfg : Config) (hub : H) (actions more : List (Action H)) {id : Nat} {h : Handler H}
    (hh : (run cfg { hub := hub } actions).handlers id = some h) :
    stepsOf cfg id (run cfg { hub := hub } actions) more ≤ 2 * h.body.length + 9 ∧
      (((run cfg (run cfg { hub := hub } actions) more).handlers id).isSome →
        ∃ action : Action H, action.own = some id ∧
          ((run cfg (run cfg { hub := hub } actions) more).step cfg action).isSome) := by
  have hid := (inv_run cfg hub actions).owned.begun id h hh
  have hsteps : stepsOf cfg id (run cfg { hub := hub } actions) more ≤ _ := stepsOf_le more hid
  rw [hh, Option.elim_some, Handler.weight] at hsteps
  have hrank : h.phase.rank ≤ 9 := by cases h.phase <;> simp [Phase.rank]
  refine ⟨by omega, fun hsome => ?_⟩
  obtain ⟨h', hh'⟩ := Option.isSome_iff_exists.1 hsome
  exact canStep hub hh'

/-- Two uploads at a time: the first has eight bytes in two chunks, and the second breaks off. -/
def twoUploads : List (Action Bool) :=
  [.begin "a.pcap" [.ok [0xd4, 0xc3], .ok [0xb2, 0xa1, 2, 0], .ok [4, 0]], .poll 0,
    .begin "b.pcap" [.ok [0xd4, 0xc3, 0xb2, 0xa1], .error ()], .poll 1, .poll 0]

/-- The first of the two uploads is at its file. -/
theorem upload_ends_twoUploads :
    ∃ h : Handler Bool, (run ⟨true, 16⟩ { hub := false } twoUploads).handlers 0 = some h ∧
      stepsOf ⟨true, 16⟩ 0 (run ⟨true, 16⟩ { hub := false } twoUploads) (List.replicate 20 (.poll 0)) ≤
        2 * h.body.length + 9 := by
  have hh : ∃ h, (run ⟨true, 16⟩ { hub := false } twoUploads).handlers 0 = some h := ⟨_, rfl⟩
  obtain ⟨h, hh⟩ := hh
  exact ⟨h, hh, (upload_ends ⟨true, 16⟩ false twoUploads (List.replicate 20 (.poll 0)) hh).1⟩

end Pktflow.Web.Upload
