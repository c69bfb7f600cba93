import Mathlib.Logic.Function.Basic
import Mathlib.Data.List.Basic
import Mathlib.Data.List.Nodup

/-!
# Uploads

Model of `upload`, `spill_upload` and `capture_extension` (`pktflow-web/src/lib.rs`): any number of uploads under way,
each a handler that runs from one `await` to the next, over one directory of temporary files. Which steps fail,
removals included, which handlers are dropped with their connection, the answer of the spawner and the order of the
steps are left open.

`Holds` says who has a file: an upload under way, a removal under way, the slot of the last upload, or nobody any more,
because its removal failed or its handler was dropped. `PhaseOk` says what the local variables of an upload and its file
have to do with its body.
-/

set_option autoImplicit false

namespace Pktflow.Web.Upload

/-! ## The handler -/

/-- The extensions of `capture_extension`. -/
inductive CaptureExt where
  | pcap
  | pcapng
  deriving DecidableEq

/-- `capture_extension`. -/
def captureExtension (bytes : List UInt8) : Option CaptureExt :=
  match bytes.take 4 with
  | [0xa1, 0xb2, 0xc3, 0xd4] | [0xd4, 0xc3, 0xb2, 0xa1] => some .pcap
  | [0xa1, 0xb2, 0x3c, 0x4d] | [0x4d, 0x3c, 0xb2, 0xa1] => some .pcap
  | [0x0a, 0x0d, 0x0d, 0x0a] => some .pcapng
  | _ => none

/-- The chunks of a body, in their order; the stream ends with the list. -/
abbrev Body := List (Except Unit (List UInt8))

/-- A stream that brings these chunks. -/
def Body.ofChunks (chunks : List (List UInt8)) : Body := chunks.map Except.ok

/-- The name of a temporary file, but for what all files of the server share. -/
structure UploadPath where
  seq : Nat
  ext : CaptureExt
  deriving DecidableEq

/-- The answer to an upload. -/
inductive Response where
  | accepted (source : String)
  | error (status : Nat) (msg : String)
  deriving DecidableEq

def notEnabled : Response := .error 403 "uploads are not enabled"
def interrupted : Response := .error 400 "upload interrupted"
def emptyUpload : Response := .error 400 "empty upload"
def notCapture : Response := .error 400 "not a capture file — expected pcap or pcapng"
/-- `STORE_FAILED`. -/
def storeFailed : Response := .error 500 "could not store upload"
/-- `over_cap`. -/
def overCap : Response := .error 413 "upload exceeds the configured size cap"

/-- Where a handler awaits, with its local variables. -/
inductive Phase (H : Type) where
  | reading (head : List UInt8)
  | creating (path : UploadPath) (head : List UInt8)
  | writingHead (path : UploadPath) (head : List UInt8)
  | spilling (path : UploadPath) (written : Nat)
  | writing (path : UploadPath) (written : Nat) (chunk : List UInt8)
  | flushing (path : UploadPath)
  /-- `spill_upload` failed: the partial file goes before the answer. -/
  | discarding (path : UploadPath) (response : Response)
  | spilled (path : UploadPath)
  | swapping (path : UploadPath) (hub : H)
  | replacing (path : UploadPath)

/-- The file of a handler. -/
def Phase.path {H : Type} : Phase H → Option UploadPath
  | .reading _ => none
  | .creating p _ | .writingHead p _ | .spilling p _ | .writing p _ _ | .flushing p | .discarding p _ | .spilled p
  | .swapping p _ | .replacing p => some p

/-- An upload under way. -/
structure Handler (H : Type) where
  name : String
  /-- The chunks that are not read yet. -/
  body : Body
  phase : Phase H
  /-- Ghost: the body as it was sent. -/
  sent : Body

/-- What an upload was answered. -/
structure Answered where
  id : Nat
  name : String
  sent : Body
  response : Response

/-- What the spawner was given: the name, the path, and the file as it was then. -/
structure Spawned where
  id : Nat
  name : String
  path : UploadPath
  file : Option (List UInt8)
  sent : Body

/-- What is fixed when the server starts: the upload hook is there or not, and `max_upload_bytes`. -/
structure Config where
  uploads : Bool
  maxUploadBytes : Nat

/-- `WebState` and the uploads under way. -/
structure Server (H : Type) where
  hub : H
  lastUpload : Option UploadPath := none
  uploadSeq : Nat := 0
  disk : UploadPath → Option (List UInt8) := fun _ => none
  handlers : Nat → Option (Handler H) := fun _ => none
  begun : Nat := 0
  /-- The files given to `spawn_blocking` for removal. -/
  removals : List UploadPath := []
  /-- Ghost: the files that nobody removes any more. -/
  lost : List UploadPath := []
  answered : List Answered := []
  spawned : List Spawned := []

/-- A step of a handler or of a removal. -/
inductive Action (H : Type) where
  /-- A request with its name, sanitised, and its body. -/
  | begin (name : String) (body : Body)
  /-- What the handler awaits is there. -/
  | poll (id : Nat)
  /-- The operation on the file that the handler awaits fails, after some bytes. -/
  | fails (id : Nat) (written : Nat)
  /-- The spawner returns the hub of a pipeline. -/
  | spawns (id : Nat) (hub : H)
  /-- The spawner returns an error. -/
  | refuses (id : Nat) (msg : String)
  /-- A removal is done. -/
  | removes (path : UploadPath)
  /-- The removal that the handler awaits fails. -/
  | discardFails (id : Nat)
  /-- A removal fails. -/
  | removalFails (path : UploadPath)
  /-- The connection is gone, and the handler is dropped where it awaits. -/
  | drops (id : Nat)

variable {H : Type}

/-- The step may leave a file over. -/
def Action.loses : Action H → Bool
  | .discardFails _ | .removalFails _ | .drops _ => true
  | _ => false

/-- `cap > 0 && written > cap`. -/
def Config.over (cfg : Config) (written : Nat) : Bool := 0 < cfg.maxUploadBytes ∧ cfg.maxUploadBytes < written

namespace Server

/-- The handler goes on in another phase. -/
def goOn (s : Server H) (id : Nat) (h : Handler H) (phase : Phase H) : Server H :=
  { s with handlers := Function.update s.handlers id (some { h with phase := phase }) }

/-- The handler answers. -/
def answer (s : Server H) (id : Nat) (h : Handler H) (response : Response) : Server H :=
  { s with
    handlers := Function.update s.handlers id none
    answered := s.answered ++ [⟨id, h.name, h.sent, response⟩] }

/-- The handler is gone without an answer. -/
def gone (s : Server H) (id : Nat) : Server H := { s with handlers := Function.update s.handlers id none }

/-- The file is left over. -/
def lose (s : Server H) (path : UploadPath) : Server H := { s with lost := s.lost ++ [path] }

/-- The file holds these bytes. -/
def write (s : Server H) (path : UploadPath) (bytes : List UInt8) : Server H :=
  { s with disk := Function.update s.disk path (some bytes) }

/-- The file is gone. -/
def remove (s : Server H) (path : UploadPath) : Server H :=
  { s with disk := Function.update s.disk path none }

/-- The loop of `upload` over the first chunks. -/
def readMagic (s : Server H) (id : Nat) (h : Handler H) (head : List UInt8) : Server H :=
  match h.body with
  | .ok chunk :: rest =>
      let head := head ++ chunk
      let h := { h with body := rest }
      if 4 ≤ head.length then
        match captureExtension head with
        | some ext => { s with uploadSeq := s.uploadSeq + 1 }.goOn id h (.creating ⟨s.uploadSeq, ext⟩ head)
        | none => s.answer id h notCapture
      else s.goOn id h (.reading head)
  | .error _ :: _ => s.answer id h interrupted
  | [] => if head.isEmpty then s.answer id h emptyUpload else s.answer id h notCapture

/-- The loop of `spill_upload`. -/
def spillNext (cfg : Config) (s : Server H) (id : Nat) (h : Handler H) (path : UploadPath) (written : Nat) : Server H :=
  match h.body with
  | .ok chunk :: rest =>
      let written := written + chunk.length
      let h := { h with body := rest }
      if cfg.over written then s.goOn id h (.discarding path overCap) else s.goOn id h (.writing path written chunk)
  | .error _ :: _ => s.goOn id h (.discarding path interrupted)
  | [] => s.goOn id h (.flushing path)

/-- The handler goes on when what it awaits succeeds. -/
def poll (cfg : Config) (s : Server H) (id : Nat) (h : Handler H) : Option (Server H) :=
  match h.phase with
  | .reading head => some (s.readMagic id h head)
  | .creating path head => some ((s.write path []).goOn id h (.writingHead path head))
  | .writingHead path head =>
      let s := s.write path head
      some (if cfg.over head.length then s.goOn id h (.discarding path overCap)
        else s.goOn id h (.spilling path head.length))
  | .spilling path written => some (s.spillNext cfg id h path written)
  | .writing path written chunk =>
      some ((s.write path ((s.disk path).getD [] ++ chunk)).goOn id h (.spilling path written))
  | .flushing path => some (s.goOn id h (.spilled path))
  | .discarding path response => some ((s.remove path).answer id h response)
  | .spilled _ => none
  | .swapping path hub => some ({ s with hub := hub }.goOn id h (.replacing path))
  | .replacing path =>
      some ({ s with lastUpload := some path, removals := s.removals ++ s.lastUpload.toList }.answer id h
        (.accepted h.name))

/-- The handler goes on when the operation on its file fails: what was written until then may stay in the file. -/
def fail (s : Server H) (id : Nat) (h : Handler H) (written : Nat) : Option (Server H) :=
  match h.phase with
  | .creating path _ => some (s.goOn id h (.discarding path storeFailed))
  | .writingHead path head => some ((s.write path (head.take written)).goOn id h (.discarding path storeFailed))
  | .writing path _ chunk =>
      some ((s.write path ((s.disk path).getD [] ++ chunk.take written)).goOn id h (.discarding path storeFailed))
  | .flushing path => some (s.goOn id h (.discarding path storeFailed))
  | _ => none

/-- The removal of the partial file fails: its result is not looked at. -/
def discardFail (s : Server H) (id : Nat) (h : Handler H) : Option (Server H) :=
  match h.phase with
  | .discarding path response => some ((s.lose path).answer id h response)
  | _ => none

/-- The handler is dropped. What it awaits of the disk is done all the same: a file is created, a removal goes on. -/
def drop (s : Server H) (id : Nat) (h : Handler H) : Option (Server H) :=
  match h.phase with
  | .reading _ => some (s.gone id)
  | .creating path _ => some (((s.write path []).lose path).gone id)
  | .writingHead path _ | .spilling path _ | .writing path _ _ | .flushing path => some ((s.lose path).gone id)
  | .discarding path _ => some ({ s with removals := s.removals ++ [path] }.gone id)
  -- from here on nothing is awaited
  | .spilled _ | .swapping _ _ | .replacing _ => none

/-- One step; `none` if it cannot be taken. -/
def step (cfg : Config) (s : Server H) : Action H → Option (Server H)
  | .begin name body =>
      let h : Handler H := ⟨name, body, .reading [], body⟩
      let s := { s with begun := s.begun + 1 }
      if cfg.uploads then some { s with handlers := Function.update s.handlers (s.begun - 1) (some h) }
      else some (s.answer (s.begun - 1) h notEnabled)
  | .poll id => (s.handlers id).bind fun h => s.poll cfg id h
  | .fails id written => (s.handlers id).bind fun h => s.fail id h written
  | .spawns id hub => (s.handlers id).bind fun h =>
      match h.phase with
      | .spilled path =>
          some ({ s with spawned := s.spawned ++ [Spawned.mk id h.name path (s.disk path) h.sent] }.goOn id h
            (.swapping path hub))
      | _ => none
  | .refuses id msg => (s.handlers id).bind fun h =>
      match h.phase with
      | .spilled path =>
          some ({ s with
            removals := s.removals ++ [path]
            spawned := s.spawned ++ [Spawned.mk id h.name path (s.disk path) h.sent] }.answer id h (.error 500 msg))
      | _ => none
  | .removes path =>
      if path ∈ s.removals then some { s.remove path with removals := s.removals.erase path } else none
  | .discardFails id => (s.handlers id).bind fun h => s.discardFail id h
  | .removalFails path =>
      if path ∈ s.removals then some { s.lose path with removals := s.removals.erase path } else none
  | .drops id => (s.handlers id).bind fun h => s.drop id h

end Server

/-- A run from a server that serves some hub; a step that cannot be taken is not taken. -/
def run (cfg : Config) (s : Server H) (actions : List (Action H)) : Server H :=
  actions.foldl (fun s action => (s.step cfg action).getD s) s

/-! ## What a body comes to -/

/-- The bytes before the stream ends or breaks, and whether it breaks. -/
def received : Body → List UInt8 × Bool
  | [] => ([], false)
  | .error _ :: _ => ([], true)
  | .ok chunk :: rest => (chunk ++ (received rest).1, (received rest).2)

/-- Why a body is not taken, where the disk does not fail: by its bytes alone. -/
def refusal (cfg : Config) (body : Body) : Option Response :=
  let bytes := (received body).1
  let broken := (received body).2
  if bytes.length < 4 then
    some (if broken then interrupted else if bytes.isEmpty then emptyUpload else notCapture)
  else if captureExtension bytes = none then some notCapture
  else if cfg.over bytes.length then some overCap
  else if broken then some interrupted
  else none

/-- A body that arrived whole: its bytes are a capture and within the cap. -/
structure Whole (cfg : Config) (sent : Body) (path : UploadPath) (bytes : List UInt8) : Prop where
  chunks : ∃ chunks, sent = .ofChunks chunks ∧ chunks.flatten = bytes
  capture : captureExtension bytes = some path.ext
  within : cfg.over bytes.length = false

/-- What an upload of this name and body may be answered in a run of these steps. -/
inductive Answers (cfg : Config) (actions : List (Action H)) (id : Nat) (name : String) (sent : Body) : Response → Prop
  | disabled (uploads : cfg.uploads = false) : Answers cfg actions id name sent notEnabled
  | refused {response : Response} (uploads : cfg.uploads = true) (refused : refusal cfg sent = some response) :
      Answers cfg actions id name sent response
  | failed {written : Nat} (uploads : cfg.uploads = true) (fails : Action.fails id written ∈ actions) :
      Answers cfg actions id name sent storeFailed
  | notSpawned {msg : String} (uploads : cfg.uploads = true) (whole : refusal cfg sent = none)
      (refuses : Action.refuses id msg ∈ actions) : Answers cfg actions id name sent (.error 500 msg)
  | accepted {hub : H} (uploads : cfg.uploads = true) (whole : refusal cfg sent = none)
      (spawns : Action.spawns id hub ∈ actions) : Answers cfg actions id name sent (.accepted name)

section Bodies

variable {cfg : Config}

theorem received_ok (chunks : List (List UInt8)) (body : Body) :
    received (Body.ofChunks chunks ++ body) = (chunks.flatten ++ (received body).1, (received body).2) := by
  induction chunks with
  | nil => rfl
  | cons chunk chunks ih =>
      rw [Body.ofChunks] at ih ⊢
      rw [List.map_cons, List.cons_append, received, ih, List.flatten_cons, List.append_assoc]

theorem captureExtension_append {head : List UInt8} (h : 4 ≤ head.length) (more : List UInt8) :
    captureExtension (head ++ more) = captureExtension head := by
  rw [captureExtension, List.take_append_of_le_length h, captureExtension]

theorem length_of_capture {bytes : List UInt8} {ext : CaptureExt} (h : captureExtension bytes = some ext) :
    4 ≤ bytes.length := by
  rw [captureExtension] at h
  by_contra hshort
  have hlen : (bytes.take 4).length < 4 := Nat.lt_of_le_of_lt (List.length_take_le' 4 bytes) (by omega)
  split at h
  case h_6 => cases h
  all_goals
    rename_i htake
    rw [htake] at hlen
    exact Nat.lt_irrefl 4 hlen

theorem refusal_of_short {body : Body} (h : (received body).1.length < 4) :
    refusal cfg body = some (if (received body).2 then interrupted
      else if (received body).1.isEmpty then emptyUpload else notCapture) := by
  rw [refusal]
  simp only [if_pos h]

theorem refusal_of_foreign {body : Body} (hlong : 4 ≤ (received body).1.length)
    (h : captureExtension (received body).1 = none) : refusal cfg body = some notCapture := by
  rw [refusal]
  simp only [if_neg (Nat.not_lt.2 hlong), if_pos h]

theorem refusal_of_over {body : Body} {ext : CaptureExt} (h : captureExtension (received body).1 = some ext)
    (hover : cfg.over (received body).1.length = true) : refusal cfg body = some overCap := by
  have hlong := length_of_capture h
  rw [refusal]
  simp only [if_neg (Nat.not_lt.2 hlong), h, hover, if_true, reduceCtorEq, if_false]

theorem refusal_of_within {body : Body} {ext : CaptureExt} (h : captureExtension (received body).1 = some ext)
    (hover : cfg.over (received body).1.length = false) :
    refusal cfg body = if (received body).2 then some interrupted else none := by
  have hlong := length_of_capture h
  rw [refusal]
  simp only [if_neg (Nat.not_lt.2 hlong), h, hover, reduceCtorEq, if_false, Bool.false_eq_true]

/-- More bytes do not bring an upload back within the cap. -/
theorem over_of_le {n m : Nat} (h : cfg.over n = true) (hle : n ≤ m) : cfg.over m = true := by
  rw [Config.over, decide_eq_true_eq] at h ⊢
  exact ⟨h.1, Nat.lt_of_lt_of_le h.2 hle⟩

theorem Whole.refusal_eq {sent : Body} {path : UploadPath} {bytes : List UInt8} (h : Whole cfg sent path bytes) :
    refusal cfg sent = none := by
  obtain ⟨chunks, hsent, rfl⟩ := h.chunks
  have hreceived : received sent = (chunks.flatten, false) := by
    have happend := received_ok chunks []
    rwa [List.append_nil, ← hsent, received, List.append_nil] at happend
  have hcapture : captureExtension (received sent).1 = some path.ext := by
    rw [hreceived]
    exact h.capture
  rw [refusal_of_within hcapture (by rw [hreceived]; exact h.within), hreceived]
  rfl

end Bodies

/-! ## What holds of an upload under way -/

/-- The bytes of the chunks that were read. -/
def Handler.Received (h : Handler H) (bytes : List UInt8) : Prop :=
  ∃ chunks, h.sent = Body.ofChunks chunks ++ h.body ∧ chunks.flatten = bytes

/-- What the local variables of an upload, and its file, have to do with its body. -/
def PhaseOk (cfg : Config) (actions : List (Action H)) (disk : UploadPath → Option (List UInt8)) (id : Nat)
    (h : Handler H) : Prop :=
  match h.phase with
  | .reading head => h.Received head ∧ head.length < 4
  | .creating path head | .writingHead path head => h.Received head ∧ captureExtension head = some path.ext
  | .spilling path written => ∃ bytes, h.Received bytes ∧ captureExtension bytes = some path.ext ∧
      disk path = some bytes ∧ written = bytes.length ∧ cfg.over written = false
  | .writing path written chunk => ∃ bytes, h.Received (bytes ++ chunk) ∧ captureExtension bytes = some path.ext ∧
      disk path = some bytes ∧ written = bytes.length + chunk.length ∧ cfg.over written = false
  | .discarding _ response => Answers cfg actions id h.name h.sent response
  | .flushing path | .spilled path => ∃ bytes, Whole cfg h.sent path bytes ∧ disk path = some bytes
  | .swapping path _ | .replacing path => (∃ bytes, Whole cfg h.sent path bytes ∧ disk path = some bytes) ∧
      ∃ hub, Action.spawns id hub ∈ actions

/-- Who has a file. -/
inductive Owner where
  | handler (id : Nat)
  | removal
  | last
  | lost
  deriving DecidableEq

/-- The owner has the file. -/
def Holds (s : Server H) (p : UploadPath) : Owner → Prop
  | .handler id => ∃ h, s.handlers id = some h ∧ h.phase.path = some p
  | .removal => p ∈ s.removals
  | .last => s.lastUpload = some p
  | .lost => p ∈ s.lost

/-- Nobody shares a file, there is no other file, and the numbers of the files were given out. -/
structure Owned (s : Server H) : Prop where
  unique : ∀ p o o', Holds s p o → Holds s p o' → o = o'
  covered : ∀ p, s.disk p ≠ none → ∃ o, Holds s p o
  numbered : ∀ p o, Holds s p o → p.seq < s.uploadSeq
  removals : s.removals.Nodup
  begun : ∀ id h, s.handlers id = some h → id < s.begun

/-- The invariant of the server, in a run of these steps. -/
structure Inv (cfg : Config) (actions : List (Action H)) (s : Server H) : Prop where
  owned : Owned s
  handlers : ∀ id h, s.handlers id = some h → cfg.uploads = true ∧ PhaseOk cfg actions s.disk id h
  answered : ∀ a ∈ s.answered, Answers cfg actions a.id a.name a.sent a.response
  spawned : ∀ x ∈ s.spawned, ∃ bytes, x.file = some bytes ∧ Whole cfg x.sent x.path bytes
  last : ∀ p, s.lastUpload = some p → ∃ sent bytes, s.disk p = some bytes ∧ Whole cfg sent p bytes

/-! ## Files and their owners -/

section Owners

variable {s s' : Server H} {id : Nat} {h : Handler H}

/-- One handler goes on: who has what. -/
theorem holds_goOn (s : Server H) (id : Nat) (h : Handler H) (phase : Phase H) (p : UploadPath) (o : Owner) :
    Holds (s.goOn id h phase) p o ↔
      (o = .handler id ∧ phase.path = some p) ∨ (o ≠ .handler id ∧ Holds s p o) := by
  cases o with
  | handler id' =>
      by_cases heq : id' = id
      · subst heq
        simp [Holds, Server.goOn]
      · simp [Holds, Server.goOn, heq]
  | removal => simp [Holds, Server.goOn]
  | last => simp [Holds, Server.goOn]
  | lost => simp [Holds, Server.goOn]

/-- One handler answers: who has what. -/
theorem holds_answer (s : Server H) (id : Nat) (h : Handler H) (response : Response) (p : UploadPath) (o : Owner) :
    Holds (s.answer id h response) p o ↔ o ≠ .handler id ∧ Holds s p o := by
  cases o with
  | handler id' =>
      by_cases heq : id' = id
      · subst heq
        simp [Holds, Server.answer]
      · simp [Holds, Server.answer, heq]
  | removal => simp [Holds, Server.answer]
  | last => simp [Holds, Server.answer]
  | lost => simp [Holds, Server.answer]

/-- One handler is gone: who has what. -/
theorem holds_gone (s : Server H) (id : Nat) (p : UploadPath) (o : Owner) :
    Holds (s.gone id) p o ↔ o ≠ .handler id ∧ Holds s p o := by
  cases o with
  | handler id' =>
      by_cases heq : id' = id
      · subst heq
        simp [Holds, Server.gone]
      · simp [Holds, Server.gone, heq]
  | removal => simp [Holds, Server.gone]
  | last => simp [Holds, Server.gone]
  | lost => simp [Holds, Server.gone]

/-- A file is left over: who has what. -/
theorem holds_lose (s : Server H) (path p : UploadPath) (o : Owner) :
    Holds (s.lose path) p o ↔ (o = .lost ∧ p = path) ∨ Holds s p o := by
  cases o with
  | handler id => simp [Holds, Server.lose]
  | removal => simp [Holds, Server.lose]
  | last => simp [Holds, Server.lose]
  | lost => simp [Holds, Server.lose, or_comm]

/-- A file is given to removal: who has what. -/
theorem holds_removal (s : Server H) (path p : UploadPath) (o : Owner) :
    Holds { s with removals := s.removals ++ [path] } p o ↔ (o = .removal ∧ p = path) ∨ Holds s p o := by
  cases o with
  | handler id => simp [Holds]
  | removal => simp [Holds, or_comm]
  | last => simp [Holds]
  | lost => simp [Holds]

theorem Owned.handler_eq (ho : Owned s) (hh : s.handlers id = some h) {p : UploadPath} (hp : h.phase.path = some p)
    {o : Owner} (hold : Holds s p o) : o = .handler id :=
  ho.unique p o _ hold ⟨h, hh, hp⟩

/-- Everything that is held then was held before, by the owner that it is handed from. -/
theorem Owned.handed (ho : Owned s) (give : UploadPath → Owner → Owner)
    (hgive : ∀ p o, Holds s' p o → ∃ o₀, Holds s p o₀ ∧ give p o₀ = o)
    (hcovered : ∀ p, s'.disk p ≠ none → ∃ o, Holds s' p o) (hseq : s'.uploadSeq = s.uploadSeq)
    (hremovals : s'.removals.Nodup) (hbegun : ∀ id h, s'.handlers id = some h → id < s'.begun) : Owned s' where
  unique := by
    intro p o o' hold hold'
    obtain ⟨o₀, hold₀, rfl⟩ := hgive p o hold
    obtain ⟨o₁, hold₁, rfl⟩ := hgive p o' hold'
    rw [ho.unique p o₀ o₁ hold₀ hold₁]
  covered := hcovered
  numbered := by
    intro p o hold
    obtain ⟨o₀, hold₀, -⟩ := hgive p o hold
    rw [hseq]
    exact ho.numbered p o₀ hold₀
  removals := hremovals
  begun := hbegun

theorem begun_update (ho : Owned s) (hh : s.handlers id = some h) {next : Option (Handler H)} {id' : Nat}
    {h' : Handler H} (hnext : Function.update s.handlers id next id' = some h') : id' < s.begun := by
  by_cases heq : id' = id
  · exact heq ▸ ho.begun id h hh
  · rw [Function.update_of_ne heq] at hnext
    exact ho.begun id' h' hnext

/-- A handler that goes on with its file, and may have written to it. -/
theorem Owned.goOn (ho : Owned s) (hh : s.handlers id = some h) {h' : Handler H} {phase : Phase H}
    (hpath : phase.path = h.phase.path) {disk : UploadPath → Option (List UInt8)}
    (hdisk : ∀ p, h.phase.path ≠ some p → disk p = s.disk p) : Owned ({ s with disk := disk }.goOn id h' phase) := by
  have hholds : ∀ p o, Holds ({ s with disk := disk }.goOn id h' phase) p o ↔ Holds s p o := by
    intro p o
    rw [holds_goOn]
    by_cases heq : o = .handler id
    · subst heq
      simp [Holds, hh, hpath]
    · simp only [heq, false_and, ne_eq, not_false_eq_true, true_and, false_or]
      rfl
  apply ho.handed fun _ o => o
  · exact fun p o hold => ⟨o, (hholds p o).1 hold, rfl⟩
  · intro p hp
    by_cases hown : h.phase.path = some p
    · exact ⟨.handler id, (hholds p _).2 ⟨h, hh, hown⟩⟩
    · obtain ⟨o, hold⟩ := ho.covered p (by rwa [← hdisk p hown])
      exact ⟨o, (hholds p o).2 hold⟩
  · rfl
  · exact ho.removals
  · exact fun id' h'' hnext => begun_update ho hh hnext

/-- A handler that is given the next number. -/
theorem Owned.allocate (ho : Owned s) (hh : s.handlers id = some h) (hpath : h.phase.path = none) {h' : Handler H}
    {phase : Phase H} {ext : CaptureExt} (hphase : phase.path = some ⟨s.uploadSeq, ext⟩) :
    Owned ({ s with uploadSeq := s.uploadSeq + 1 }.goOn id h' phase) := by
  have hholds : ∀ p o, Holds ({ s with uploadSeq := s.uploadSeq + 1 }.goOn id h' phase) p o ↔
      (o = .handler id ∧ p = ⟨s.uploadSeq, ext⟩) ∨ Holds s p o := by
    intro p o
    rw [holds_goOn]
    by_cases heq : o = .handler id
    · subst heq
      simp [Holds, hh, hpath, hphase, eq_comm]
    · simp only [heq, false_and, ne_eq, not_false_eq_true, true_and, false_or]
      rfl
  -- nobody has a file with this number
  have hfresh : ∀ p o, Holds s p o → p ≠ ⟨s.uploadSeq, ext⟩ := by
    rintro p o hold rfl
    exact Nat.lt_irrefl _ (ho.numbered _ o hold)
  constructor
  case unique =>
      intro p o o' hold hold'
      rcases (hholds p o).1 hold with ⟨rfl, hp⟩ | hold
      · rcases (hholds p o').1 hold' with ⟨rfl, -⟩ | hold'
        · rfl
        · exact absurd hp (hfresh p o' hold')
      · rcases (hholds p o').1 hold' with ⟨rfl, hp⟩ | hold'
        · exact absurd hp (hfresh p o hold)
        · exact ho.unique p o o' hold hold'
  case covered =>
      intro p hp
      obtain ⟨o, hold⟩ := ho.covered p hp
      exact ⟨o, (hholds p o).2 (.inr hold)⟩
  case numbered =>
      intro p o hold
      rcases (hholds p o).1 hold with ⟨-, rfl⟩ | hold
      · exact Nat.lt_succ_self _
      · exact Nat.lt_succ_of_lt (ho.numbered p o hold)
  case removals => exact ho.removals
  case begun => exact fun id' h'' hnext => begun_update ho hh hnext

/-- A handler that answers and has no file on the disk any more. -/
theorem Owned.answer (ho : Owned s) (hh : s.handlers id = some h) {h' : Handler H} {response : Response}
    {disk : UploadPath → Option (List UInt8)} (hgone : ∀ p, h.phase.path = some p → disk p = none)
    (hdisk : ∀ p, h.phase.path ≠ some p → disk p = s.disk p) :
    Owned ({ s with disk := disk }.answer id h' response) := by
  have hholds : ∀ p o, Holds ({ s with disk := disk }.answer id h' response) p o ↔ o ≠ .handler id ∧ Holds s p o :=
    fun p o => holds_answer _ id h' response p o
  apply ho.handed fun _ o => o
  · exact fun p o hold => ⟨o, ((hholds p o).1 hold).2, rfl⟩
  · intro p hp
    have hown : h.phase.path ≠ some p := fun hown => hp (hgone p hown)
    obtain ⟨o, hold⟩ := ho.covered p (by rwa [← hdisk p hown])
    refine ⟨o, (hholds p o).2 ⟨?_, hold⟩⟩
    rintro rfl
    obtain ⟨h₀, hh₀, hp₀⟩ := hold
    obtain rfl := Option.some.inj (hh.symm.trans hh₀)
    exact hown hp₀
  · rfl
  · exact ho.removals
  · exact fun id' h'' hnext => begun_update ho hh hnext

/-- A handler that ends and gives its file to removal, or leaves it over. -/
theorem Owned.giveUp (ho : Owned s) (hh : s.handlers id = some h) {path : UploadPath}
    (hpath : h.phase.path = some path) (heir : Owner)
    (hholds : ∀ p o, Holds s' p o ↔ (o = heir ∧ p = path) ∨ (o ≠ .handler id ∧ Holds s p o))
    (hdisk : ∀ p, p ≠ path → s'.disk p = s.disk p) (hseq : s'.uploadSeq = s.uploadSeq)
    (hremovals : s'.removals.Nodup) (hbegun : ∀ id h, s'.handlers id = some h → id < s'.begun) : Owned s' := by
  apply ho.handed fun p o => if p = path then heir else o
  · intro p o hold
    rcases (hholds p o).1 hold with ⟨rfl, rfl⟩ | ⟨hne, hold₀⟩
    · exact ⟨.handler id, ⟨h, hh, hpath⟩, if_pos rfl⟩
    · refine ⟨o, hold₀, if_neg ?_⟩
      rintro rfl
      exact hne (ho.handler_eq hh hpath hold₀)
  · intro p hp
    by_cases heq : p = path
    · exact ⟨heir, (hholds p _).2 (.inl ⟨rfl, heq⟩)⟩
    · rw [hdisk p heq] at hp
      obtain ⟨o, hold⟩ := ho.covered p hp
      refine ⟨o, (hholds p o).2 (.inr ⟨?_, hold⟩)⟩
      rintro rfl
      obtain ⟨h₀, hh₀, hp₀⟩ := hold
      obtain rfl := Option.some.inj (hh.symm.trans hh₀)
      exact heq (Option.some.inj (hp₀.symm.trans hpath))
  · exact hseq
  · exact hremovals
  · exact hbegun

/-- The file of a handler is not among the removals. -/
theorem Owned.nodup_removals (ho : Owned s) (hh : s.handlers id = some h) {path : UploadPath}
    (hpath : h.phase.path = some path) : (s.removals ++ [path]).Nodup := by
  apply List.Nodup.append ho.removals (List.nodup_singleton _)
  rw [List.disjoint_singleton]
  intro hmem
  cases ho.handler_eq hh hpath (show Holds s path .removal from hmem)

/-- A handler that answers and leaves its file for removal. -/
theorem Owned.leave (ho : Owned s) (hh : s.handlers id = some h) {path : UploadPath} (hpath : h.phase.path = some path)
    {h' : Handler H} {response : Response} :
    Owned ({ s with removals := s.removals ++ [path] }.answer id h' response) := by
  apply ho.giveUp hh hpath .removal
  · intro p o
    rw [holds_answer, holds_removal]
    by_cases heq : o = .removal
    · simp [heq]
    · simp [heq]
  · exact fun _ _ => rfl
  · rfl
  · exact ho.nodup_removals hh hpath
  · exact fun id' h'' hnext => begun_update ho hh hnext

/-- A handler that answers and leaves its file over. -/
theorem Owned.lose (ho : Owned s) (hh : s.handlers id = some h) {path : UploadPath} (hpath : h.phase.path = some path)
    {h' : Handler H} {response : Response} : Owned ((s.lose path).answer id h' response) := by
  apply ho.giveUp hh hpath .lost
  · intro p o
    rw [holds_answer, holds_lose]
    by_cases heq : o = .lost
    · simp [heq]
    · simp [heq]
  · exact fun _ _ => rfl
  · rfl
  · exact ho.removals
  · exact fun id' h'' hnext => begun_update ho hh hnext

/-- A handler that is dropped and leaves its file over. -/
theorem Owned.drop (ho : Owned s) (hh : s.handlers id = some h) {path : UploadPath} (hpath : h.phase.path = some path)
    {disk : UploadPath → Option (List UInt8)} (hdisk : ∀ p, p ≠ path → disk p = s.disk p) :
    Owned (({ s with disk := disk }.lose path).gone id) := by
  apply ho.giveUp hh hpath .lost
  · intro p o
    rw [holds_gone, holds_lose]
    have hsame : Holds { s with disk := disk } p o ↔ Holds s p o := by cases o <;> exact Iff.rfl
    rw [hsame]
    by_cases heq : o = .lost
    · simp [heq]
    · simp [heq]
  · exact hdisk
  · rfl
  · exact ho.removals
  · exact fun id' h'' hnext => begun_update ho hh hnext

/-- A handler that is dropped while its file is removed. -/
theorem Owned.dropRemoval (ho : Owned s) (hh : s.handlers id = some h) {path : UploadPath}
    (hpath : h.phase.path = some path) : Owned ({ s with removals := s.removals ++ [path] }.gone id) := by
  apply ho.giveUp hh hpath .removal
  · intro p o
    rw [holds_gone, holds_removal]
    by_cases heq : o = .removal
    · simp [heq]
    · simp [heq]
  · exact fun _ _ => rfl
  · rfl
  · exact ho.nodup_removals hh hpath
  · exact fun id' h'' hnext => begun_update ho hh hnext

/-- A handler without a file that is dropped. -/
theorem Owned.dropEmpty (ho : Owned s) (hh : s.handlers id = some h) (hpath : h.phase.path = none) :
    Owned (s.gone id) := by
  apply ho.handed fun _ o => o
  · exact fun p o hold => ⟨o, ((holds_gone s id p o).1 hold).2, rfl⟩
  · intro p hp
    obtain ⟨o, hold⟩ := ho.covered p hp
    refine ⟨o, (holds_gone s id p o).2 ⟨?_, hold⟩⟩
    rintro rfl
    obtain ⟨h₀, hh₀, hp₀⟩ := hold
    obtain rfl := Option.some.inj (hh.symm.trans hh₀)
    rw [hpath] at hp₀
    cases hp₀
  · rfl
  · exact ho.removals
  · exact fun id' h'' hnext => begun_update ho hh hnext

/-- A handler that answers, with its file in the slot and the file that was there left for removal. -/
theorem Owned.replace (ho : Owned s) (hh : s.handlers id = some h) {path : UploadPath}
    (hpath : h.phase.path = some path) {h' : Handler H} {response : Response} :
    Owned ({ s with lastUpload := some path, removals := s.removals ++ s.lastUpload.toList }.answer id h'
      response) := by
  have hholds : ∀ p o, Holds ({ s with
      lastUpload := some path, removals := s.removals ++ s.lastUpload.toList }.answer id h' response) p o ↔
        (o = .last ∧ p = path) ∨ (o = .removal ∧ Holds s p .last) ∨ (o ≠ .handler id ∧ o ≠ .last ∧ Holds s p o) := by
    intro p o
    rw [holds_answer]
    cases o with
    | handler id' => simp [Holds]
    | removal => simp [Holds, or_comm]
    | last => simp [Holds, eq_comm]
    | lost => simp [Holds]
  apply ho.handed fun p o => if p = path then .last else if o = .last then .removal else o
  · intro p o hold
    rcases (hholds p o).1 hold with ⟨rfl, rfl⟩ | ⟨rfl, hold₀⟩ | ⟨hne, hnotlast, hold₀⟩
    · exact ⟨.handler id, ⟨h, hh, hpath⟩, if_pos rfl⟩
    · refine ⟨.last, hold₀, ?_⟩
      rw [if_neg, if_pos rfl]
      rintro rfl
      cases ho.handler_eq hh hpath hold₀
    · refine ⟨o, hold₀, ?_⟩
      rw [if_neg, if_neg hnotlast]
      rintro rfl
      exact hne (ho.handler_eq hh hpath hold₀)
  · intro p hp
    obtain ⟨o, hold⟩ := ho.covered p hp
    by_cases heq : p = path
    · exact ⟨.last, (hholds p _).2 (.inl ⟨rfl, heq⟩)⟩
    · by_cases hlast : o = .last
      · exact ⟨.removal, (hholds p _).2 (.inr (.inl ⟨rfl, hlast ▸ hold⟩))⟩
      · refine ⟨o, (hholds p o).2 (.inr (.inr ⟨?_, hlast, hold⟩))⟩
        rintro rfl
        obtain ⟨h₀, hh₀, hp₀⟩ := hold
        obtain rfl := Option.some.inj (hh.symm.trans hh₀)
        exact heq (Option.some.inj (hp₀.symm.trans hpath))
  · rfl
  · show (s.removals ++ s.lastUpload.toList).Nodup
    cases hlast : s.lastUpload with
    | none => simpa using ho.removals
    | some old =>
        apply List.Nodup.append ho.removals (List.nodup_singleton _)
        rw [List.disjoint_singleton]
        intro hmem
        cases ho.unique old .last .removal hlast hmem
  · exact fun id' h'' hnext => begun_update ho hh hnext

/-- A removal is done. -/
theorem Owned.remove (ho : Owned s) {path : UploadPath} (hmem : path ∈ s.removals) :
    Owned { s.remove path with removals := s.removals.erase path } := by
  have hholds : ∀ p o, Holds { s.remove path with removals := s.removals.erase path } p o ↔
      Holds s p o ∧ p ≠ path := by
    intro p o
    have hother : ∀ o, Holds s path o → o = .removal := fun o hold => ho.unique path o .removal hold hmem
    cases o with
    | handler id' =>
        show Holds s p (.handler id') ↔ _
        refine ⟨fun hold => ⟨hold, ?_⟩, fun hold => hold.1⟩
        rintro rfl
        cases hother _ hold
    | removal =>
        show p ∈ s.removals.erase path ↔ p ∈ s.removals ∧ p ≠ path
        rw [ho.removals.mem_erase_iff, and_comm]
    | last =>
        show Holds s p .last ↔ _
        refine ⟨fun hold => ⟨hold, ?_⟩, fun hold => hold.1⟩
        rintro rfl
        cases hother _ hold
    | lost =>
        show Holds s p .lost ↔ _
        refine ⟨fun hold => ⟨hold, ?_⟩, fun hold => hold.1⟩
        rintro rfl
        cases hother _ hold
  apply ho.handed fun _ o => o
  · exact fun p o hold => ⟨o, ((hholds p o).1 hold).1, rfl⟩
  · intro p hp
    have hne : p ≠ path := by
      rintro rfl
      exact hp (Function.update_self _ _ _)
    have hdisk : s.disk p ≠ none := by
      rwa [show ({ s.remove path with removals := s.removals.erase path } : Server H).disk p = s.disk p from
        Function.update_of_ne hne _ _] at hp
    obtain ⟨o, hold⟩ := ho.covered p hdisk
    exact ⟨o, (hholds p o).2 ⟨hold, hne⟩⟩
  · rfl
  · exact ho.removals.erase _
  · exact ho.begun

/-- A removal fails. -/
theorem Owned.removalFail (ho : Owned s) {path : UploadPath} (hmem : path ∈ s.removals) :
    Owned { s.lose path with removals := s.removals.erase path } := by
  have hother : ∀ o, Holds s path o → o = .removal := fun o hold => ho.unique path o .removal hold hmem
  have hholds : ∀ p o, Holds { s.lose path with removals := s.removals.erase path } p o ↔
      (o = .lost ∧ p = path) ∨ (Holds s p o ∧ p ≠ path) := by
    intro p o
    have hnot : ∀ o, o ≠ .removal → (Holds s p o ↔ Holds s p o ∧ p ≠ path) := by
      intro o hne
      refine ⟨fun hold => ⟨hold, ?_⟩, fun hold => hold.1⟩
      rintro rfl
      exact hne (hother o hold)
    cases o with
    | handler id => simpa [Holds, Server.lose] using hnot (.handler id) (by simp)
    | removal =>
        show p ∈ s.removals.erase path ↔ _
        rw [ho.removals.mem_erase_iff]
        simp [Holds, and_comm]
    | last => simpa [Holds, Server.lose] using hnot .last (by simp)
    | lost =>
        have hlost := hnot .lost (by simp)
        show p ∈ s.lost ++ [path] ↔ _
        rw [List.mem_append, List.mem_singleton, or_comm, ← hlost]
        simp [Holds]
  apply ho.handed fun p o => if p = path then .lost else o
  · intro p o hold
    rcases (hholds p o).1 hold with ⟨rfl, rfl⟩ | ⟨hold₀, hne⟩
    · exact ⟨.removal, hmem, if_pos rfl⟩
    · exact ⟨o, hold₀, if_neg hne⟩
  · intro p hp
    by_cases heq : p = path
    · exact ⟨.lost, (hholds p _).2 (.inl ⟨rfl, heq⟩)⟩
    · obtain ⟨o, hold⟩ := ho.covered p hp
      exact ⟨o, (hholds p o).2 (.inr ⟨hold, heq⟩)⟩
  · rfl
  · exact ho.removals.erase _
  · exact ho.begun

end Owners

end Pktflow.Web.Upload
