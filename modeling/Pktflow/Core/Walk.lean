import Pktflow.Core.Parser
import Mathlib.Data.List.Chain

/-!
# Walks

Properties of whole walks of `LayerIter`: the layers and the opaque rest partition the packet, every
layer is licensed, pulling lazily and dissecting eagerly agree, and diagnostics change nothing.

`Consistent` is the iterator's invariant. `next_eq` says what one call does in a state that meets it
and has neither stopped nor reached the cap: it settles `outcome`. An invariant of `next` holds at
every state a walk passes through (`pull_invariant`) and where it ends (`drain_invariant`).
-/

set_option autoImplicit false

namespace Pktflow.Core

/-! ## Layers that tile a range of bytes -/

/-- The layers cover the bytes from `start` to `stop`, each beginning where the one before it ends. -/
def Tiles : Nat → List LayerRecord → Nat → Prop
  | start, [], stop => start = stop
  | start, l :: ls, stop => l.offset = start ∧ Tiles (start + l.headerLen) ls stop

theorem Tiles.snoc {start stop : Nat} {ls : List LayerRecord} (h : Tiles start ls stop)
    {l : LayerRecord} (hl : l.offset = stop) : Tiles start (ls ++ [l]) (stop + l.headerLen) := by
  induction ls generalizing start with
  | nil =>
      obtain rfl : start = stop := h
      exact ⟨hl, rfl⟩
  | cons l' ls ih => exact ⟨h.1, ih h.2⟩

theorem Tiles.sum {start stop : Nat} {ls : List LayerRecord} (h : Tiles start ls stop) :
    start + (ls.map LayerRecord.headerLen).sum = stop := by
  induction ls generalizing start with
  | nil => exact h
  | cons l ls ih =>
      have htail := ih h.2
      rw [List.map_cons, List.sum_cons]
      omega

theorem Tiles.head {start stop : Nat} {ls : List LayerRecord} (h : Tiles start ls stop)
    {l : LayerRecord} (hl : ls.head? = some l) : l.offset = start := by
  cases ls with
  | nil => cases hl
  | cons l' ls =>
      obtain rfl : l' = l := by simpa using hl
      exact h.1

theorem Tiles.chain {start stop : Nat} {ls : List LayerRecord} (h : Tiles start ls stop) :
    ls.IsChain fun l l' => l'.offset = l.offset + l.headerLen := by
  induction ls generalizing start with
  | nil => exact List.IsChain.nil
  | cons l ls ih =>
      rw [List.isChain_cons]
      constructor
      · intro l' hl'
        rw [Tiles.head h.2 hl', h.1]
      · exact ih h.2

namespace LayerIter

/-! ## The invariant -/

/-- Why the walk may have stopped, told from where it stopped. -/
structure StoppedAt (it : LayerIter) (reason : StopReason) : Prop where
  complete : reason = .complete ↔ it.cursor = it.bytes.length
  depthCap : reason = .depthCap ↔
    it.records.length = it.opts.maxLayers ∧ it.cursor < it.bytes.length

/-- The iterator's invariant. -/
structure Consistent (it : LayerIter) : Prop where
  tiles : Tiles 0 it.records it.cursor
  cursor_le : it.cursor ≤ it.bytes.length
  capped : it.records.length ≤ it.opts.maxLayers
  fresh : it.started = false → it.records = [] ∧ it.pending = none
  ready : it.started = true → it.stop = none → it.pending.isSome ∧ it.records ≠ []
  stopped : ∀ reason, it.stop = some reason → it.StoppedAt reason

/-- What a call resolves to, before it is settled: the pending hint, or the entry. -/
def outcome (it : LayerIter) : StepOutcome :=
  match it.pending with
  | some hint => it.engine.resolveNext hint it.remaining it.ctx
  | none => it.engine.resolveEntry it.remaining it.ctx it.opts it.meta_.linkType

theorem remaining_eq {it : LayerIter} (h : it.Consistent) : it.remaining = it.bytes.drop it.cursor := by
  simp [remaining, sliceFrom, h.cursor_le]

theorem remaining_eq_nil_iff {it : LayerIter} (h : it.Consistent) :
    it.remaining = [] ↔ it.cursor = it.bytes.length := by
  have hle := h.cursor_le
  rw [remaining_eq h, List.drop_eq_nil_iff]
  omega

theorem outcome_sound (it : LayerIter) : it.outcome.Sound it.remaining := by
  rw [outcome]
  cases it.pending with
  | some hint => exact resolveNext_sound _ _ _ _
  | none => exact resolveEntry_sound _ _ _ _ _

theorem next_of_stop {it : LayerIter} {reason : StopReason} (h : it.stop = some reason) :
    it.next = (none, it) := by
  simp [next, h]

theorem next_of_cap {it : LayerIter} (hstop : it.stop = none)
    (hcap : it.opts.maxLayers ≤ it.records.length) :
    it.next =
      (none, { it with stop := some (if it.remaining.isEmpty then .complete else .depthCap) }) := by
  simp [next, hstop, hcap]

/-- One call below the cap settles the outcome. -/
theorem next_eq {it : LayerIter} (h : it.Consistent) (hstop : it.stop = none)
    (hcap : it.records.length < it.opts.maxLayers) :
    it.next = { it with started := true, pending := none }.settle it.started it.outcome := by
  have hcap' : ¬ it.opts.maxLayers ≤ it.records.length := by omega
  unfold next outcome
  cases hstarted : it.started with
  | false =>
      obtain ⟨-, hpending⟩ := h.fresh hstarted
      simp [hstop, hcap', hpending]
  | true =>
      obtain ⟨hint, hpending⟩ := Option.isSome_iff_exists.1 (h.ready hstarted hstop).1
      obtain ⟨engine, bytes, meta_, opts, records, cursor, pending, started, stop, unknown⟩ := it
      simp only at hstarted hpending hstop hcap'
      subst hstarted hpending hstop
      simp [hcap']

/-- The state after a layer. -/
def push (it : LayerIter) (protocol : ProtocolName) (parsed : ParsedLayer) : LayerIter :=
  { it with
    started := true
    cursor := it.cursor + parsed.headerLen
    pending := some parsed.hint
    records := it.records ++ [⟨protocol, it.cursor, parsed.headerLen, parsed.fields⟩] }

/-- The state after a stop of a resolver. -/
def halt (it : LayerIter) (reason : StopReason) : LayerIter :=
  { it with
    started := true
    pending := none
    stop := some reason
    unknown :=
      if it.started && it.opts.diagnoseUnknown then
        it.engine.diagnoseUnknown reason it.remaining it.ctx
      else it.unknown }

/-- Everything one call can do. -/
theorem next_cases {it : LayerIter} (h : it.Consistent) :
    (∃ reason, it.stop = some reason ∧ it.next = (none, it)) ∨
    (it.stop = none ∧ it.records.length = it.opts.maxLayers ∧ it.next =
      (none, { it with stop := some (if it.remaining.isEmpty then .complete else .depthCap) })) ∨
    (it.stop = none ∧ it.records.length < it.opts.maxLayers ∧
      ∃ protocol parsed heuristic, it.outcome = .layer protocol parsed heuristic ∧
        it.next = (some ⟨⟨protocol, it.cursor, parsed.headerLen, parsed.fields⟩,
          (it.push protocol parsed).remaining, heuristic⟩, it.push protocol parsed)) ∨
    (it.stop = none ∧ it.records.length < it.opts.maxLayers ∧
      ∃ reason, it.outcome = .stop reason ∧ it.next = (none, it.halt reason)) := by
  cases hstop : it.stop with
  | some reason => exact Or.inl ⟨reason, rfl, next_of_stop hstop⟩
  | none =>
      by_cases hcap : it.opts.maxLayers ≤ it.records.length
      · have hlen : it.records.length = it.opts.maxLayers := le_antisymm h.capped hcap
        exact Or.inr (Or.inl ⟨rfl, hlen, next_of_cap hstop hcap⟩)
      · have hlt : it.records.length < it.opts.maxLayers := by omega
        have hnext := next_eq h hstop hlt
        cases hout : it.outcome with
        | layer protocol parsed heuristic =>
            rw [hout] at hnext
            exact Or.inr (Or.inr (Or.inl ⟨rfl, hlt, protocol, parsed, heuristic, rfl, hnext⟩))
        | stop reason =>
            rw [hout] at hnext
            exact Or.inr (Or.inr (Or.inr ⟨rfl, hlt, reason, rfl, hnext⟩))

theorem Consistent.push {it : LayerIter} (h : it.Consistent) (hstop : it.stop = none)
    (hlt : it.records.length < it.opts.maxLayers) {protocol : ProtocolName} {parsed : ParsedLayer}
    {heuristic : Bool} (hout : it.outcome = .layer protocol parsed heuristic) :
    (it.push protocol parsed).Consistent := by
  have hfit : parsed.headerLen ≤ it.bytes.length - it.cursor := by
    have hsound := it.outcome_sound
    rw [hout] at hsound
    have hlen := hsound.2
    rwa [remaining_eq h, List.length_drop] at hlen
  have hle := h.cursor_le
  constructor
  case tiles => exact h.tiles.snoc rfl
  case cursor_le =>
      simp only [LayerIter.push]
      omega
  case capped =>
      simp only [LayerIter.push, List.length_append, List.length_singleton]
      omega
  case fresh => simp [LayerIter.push]
  case ready => simp [LayerIter.push]
  case stopped => simp [LayerIter.push, hstop]

theorem Consistent.halt {it : LayerIter} (h : it.Consistent)
    (hlt : it.records.length < it.opts.maxLayers) {reason : StopReason}
    (hout : it.outcome = .stop reason) : (it.halt reason).Consistent := by
  have hsound := it.outcome_sound
  rw [hout] at hsound
  obtain ⟨hcomplete, hcap⟩ := hsound
  rw [remaining_eq_nil_iff h] at hcomplete
  constructor
  case tiles => exact h.tiles
  case cursor_le => exact h.cursor_le
  case capped => exact h.capped
  case fresh => simp [LayerIter.halt]
  case ready => simp [LayerIter.halt]
  case stopped =>
      intro reason' hreason
      obtain rfl : reason = reason' := by simpa [LayerIter.halt] using hreason
      have hne : ¬ (it.records.length = it.opts.maxLayers ∧ it.cursor < it.bytes.length) := by omega
      exact ⟨hcomplete, iff_of_false hcap hne⟩

theorem Consistent.cap {it : LayerIter} (h : it.Consistent)
    (hlen : it.records.length = it.opts.maxLayers) :
    ({ it with stop := some (if it.remaining.isEmpty then .complete else .depthCap) } :
      LayerIter).Consistent := by
  have hle := h.cursor_le
  have hnil := remaining_eq_nil_iff h
  constructor
  case tiles => exact h.tiles
  case cursor_le => exact h.cursor_le
  case capped => exact h.capped
  case fresh => exact h.fresh
  case ready => simp
  case stopped =>
      intro reason hreason
      simp only [Option.some.injEq] at hreason
      subst hreason
      by_cases hrem : it.remaining = []
      · have hend := hnil.1 hrem
        constructor
        case complete => simp [hrem, hend]
        case depthCap => simp [hrem, hend]
      · have hend : it.cursor < it.bytes.length := by
          have hne := mt hnil.2 hrem
          omega
        constructor
        case complete => simp [hrem, hend.ne]
        case depthCap => simp [hrem, hend, hlen]

/-- One call keeps the invariant. -/
theorem Consistent.next {it : LayerIter} (h : it.Consistent) : it.next.2.Consistent := by
  rcases next_cases h with ⟨reason, -, hnext⟩ | ⟨-, hlen, hnext⟩ |
    ⟨hstop, hlt, protocol, parsed, heuristic, hout, hnext⟩ | ⟨-, hlt, reason, hout, hnext⟩
  · rw [hnext]
    exact h
  · rw [hnext]
    exact h.cap hlen
  · rw [hnext]
    exact h.push hstop hlt hout
  · rw [hnext]
    exact h.halt hlt hout

/-! ## Whole walks -/

theorem drain_of_some {it it' : LayerIter} {step : LayerStep} (h : it.next = (some step, it')) :
    it.drain = it'.drain := by
  rw [drain, h]

theorem drain_of_none {it it' : LayerIter} (h : it.next = (none, it')) : it.drain = it' := by
  rw [drain, h]

/-- An invariant of `next` holds where the walk ends. -/
theorem drain_invariant {I : LayerIter → Prop} (hstep : ∀ it, I it → I it.next.2) (it : LayerIter)
    (h : I it) : I it.drain := by
  induction it using drain.induct with
  | case1 it step it' hnext ih =>
      rw [drain_of_some hnext]
      apply ih
      have hI := hstep it h
      rwa [hnext] at hI
  | case2 it it' hnext =>
      rw [drain_of_none hnext]
      have hI := hstep it h
      rwa [hnext] at hI

/-- An invariant of `next` holds after any number of calls. -/
theorem pull_invariant {I : LayerIter → Prop} (hstep : ∀ it, I it → I it.next.2) (j : Nat)
    (it : LayerIter) (h : I it) : I (it.pull j).2 := by
  induction j generalizing it with
  | zero => exact h
  | succ j ih => exact ih it.next.2 (hstep it h)

/-- A call that yields nothing has latched a stop. -/
theorem stop_of_next_none {it : LayerIter} (h : it.Consistent) (hnone : it.next.1 = none) :
    it.next.2.stop.isSome := by
  rcases next_cases h with ⟨reason, hstop, hnext⟩ | ⟨-, -, hnext⟩ |
    ⟨-, -, protocol, parsed, heuristic, -, hnext⟩ | ⟨-, -, reason, -, hnext⟩
  · simp [hnext, hstop]
  · simp [hnext]
  · simp [hnext] at hnone
  · simp [hnext, halt]

/-- The walk ends in a stopped state. -/
theorem drain_stop {it : LayerIter} (h : it.Consistent) : it.drain.stop.isSome := by
  induction it using drain.induct with
  | case1 it step it' hnext ih =>
      rw [drain_of_some hnext]
      apply ih
      have hI := h.next
      rwa [hnext] at hI
  | case2 it it' hnext =>
      rw [drain_of_none hnext]
      have hsome := stop_of_next_none h (by rw [hnext])
      rwa [hnext] at hsome

/-- What no call changes. -/
theorem next_frame (it : LayerIter) :
    it.next.2.engine = it.engine ∧ it.next.2.bytes = it.bytes ∧ it.next.2.meta_ = it.meta_ ∧
      it.next.2.opts = it.opts := by
  have hsettle : ∀ (it : LayerIter) (via : Bool) (outcome : StepOutcome),
      (it.settle via outcome).2.engine = it.engine ∧ (it.settle via outcome).2.bytes = it.bytes ∧
        (it.settle via outcome).2.meta_ = it.meta_ ∧ (it.settle via outcome).2.opts = it.opts := by
    intro it via outcome
    cases outcome <;> exact ⟨rfl, rfl, rfl, rfl⟩
  rw [next]
  by_cases hstop : it.stop.isSome = true
  · simp [hstop]
  by_cases hcap : it.opts.maxLayers ≤ it.records.length
  · simp [hstop, hcap]
  by_cases hstarted : it.started = true
  · cases hpending : it.pending with
    | none => simp [hstop, hcap, hstarted]
    | some hint => simpa [hstop, hcap, hstarted] using hsettle _ _ _
  · simpa [hstop, hcap, hstarted] using hsettle _ _ _

/-- What the walk does not change. -/
theorem drain_frame (it : LayerIter) :
    it.drain.engine = it.engine ∧ it.drain.bytes = it.bytes ∧ it.drain.meta_ = it.meta_ ∧
      it.drain.opts = it.opts := by
  apply drain_invariant (I := fun it' => it'.engine = it.engine ∧ it'.bytes = it.bytes ∧
    it'.meta_ = it.meta_ ∧ it'.opts = it.opts)
  · rintro it' ⟨hengine, hbytes, hmeta, hopts⟩
    obtain ⟨hengine', hbytes', hmeta', hopts'⟩ := next_frame it'
    exact ⟨hengine'.trans hengine, hbytes'.trans hbytes, hmeta'.trans hmeta, hopts'.trans hopts⟩
  · exact ⟨rfl, rfl, rfl, rfl⟩

/-- The walk ends in a state that meets the invariant. -/
theorem drain_consistent {it : LayerIter} (h : it.Consistent) : it.drain.Consistent :=
  drain_invariant (fun _ => Consistent.next) it h

/-- A call appends what it yields. -/
theorem next_append {it : LayerIter} (h : it.Consistent) :
    it.next.2.records = it.records ++ it.next.1.toList.map LayerStep.record := by
  rcases next_cases h with ⟨reason, -, hnext⟩ | ⟨-, -, hnext⟩ |
    ⟨-, -, protocol, parsed, heuristic, -, hnext⟩ | ⟨-, -, reason, -, hnext⟩
  · simp [hnext]
  · simp [hnext]
  · simp [hnext, push]
  · simp [hnext, halt]

theorem drain_of_stop {it : LayerIter} (h : it.stop.isSome) : it.drain = it := by
  obtain ⟨reason, hreason⟩ := Option.isSome_iff_exists.1 h
  exact drain_of_none (next_of_stop hreason)

theorem pull_of_stop {it : LayerIter} (h : it.stop.isSome) (j : Nat) : it.pull j = ([], it) := by
  obtain ⟨reason, hreason⟩ := Option.isSome_iff_exists.1 h
  induction j with
  | zero => rfl
  | succ j ih =>
      simp only [pull, next_of_stop hreason, ih]
      rfl

theorem pull_add (i j : Nat) (it : LayerIter) :
    it.pull (i + j) = ((it.pull i).1 ++ ((it.pull i).2.pull j).1, ((it.pull i).2.pull j).2) := by
  induction i generalizing it with
  | zero => simp [pull]
  | succ i ih =>
      rw [Nat.succ_add]
      simp only [pull, ih it.next.2, List.append_assoc]

theorem pull_consistent {it : LayerIter} (h : it.Consistent) (j : Nat) : (it.pull j).2.Consistent :=
  pull_invariant (fun _ => Consistent.next) j it h

theorem pull_append {it : LayerIter} (h : it.Consistent) (j : Nat) :
    (it.pull j).2.records = it.records ++ (it.pull j).1.map LayerStep.record := by
  induction j generalizing it with
  | zero => simp [pull]
  | succ j ih =>
      simp only [pull]
      rw [ih h.next, next_append h, List.map_append, List.append_assoc]

/-- Draining after any number of calls ends where draining at once does. -/
theorem drain_pull {it : LayerIter} (h : it.Consistent) (j : Nat) : (it.pull j).2.drain = it.drain := by
  induction j generalizing it with
  | zero => rfl
  | succ j ih =>
      simp only [pull]
      rw [ih h.next]
      cases hnext : it.next with
      | mk yielded it' =>
          cases yielded with
          | some step => exact (drain_of_some hnext).symm
          | none =>
              have hstop := stop_of_next_none h (by rw [hnext])
              rw [hnext] at hstop
              rw [drain_of_none hnext]
              exact drain_of_stop hstop

/-- As long as the walk has not stopped, every call has yielded a layer. -/
theorem pull_length {it : LayerIter} (h : it.Consistent) (j : Nat) :
    (it.pull j).1.length ≤ j ∧ ((it.pull j).2.stop = none → (it.pull j).1.length = j) := by
  induction j generalizing it with
  | zero => simp [pull]
  | succ j ih =>
      obtain ⟨hle, heq⟩ := ih h.next
      simp only [pull, List.length_append]
      cases hnext : it.next.1 with
      | some step =>
          simp only [Option.toList_some, List.length_singleton]
          exact ⟨by omega, fun hstop => by rw [heq hstop]; omega⟩
      | none =>
          have hstop := stop_of_next_none h hnext
          rw [pull_of_stop hstop]
          simp only [Option.toList_none, List.length_nil]
          exact ⟨by omega, fun hnone => by simp [hnone] at hstop⟩

theorem pull_opts (it : LayerIter) (j : Nat) : (it.pull j).2.opts = it.opts :=
  pull_invariant (I := fun it' => it'.opts = it.opts)
    (fun it' hI => (next_frame it').2.2.2.trans hI) j it rfl

/-- The walk stops after at most one call more than the layers the cap leaves. -/
theorem pull_stop {it : LayerIter} (h : it.Consistent) {j : Nat}
    (hj : it.opts.maxLayers < it.records.length + j) : (it.pull j).2.stop.isSome := by
  cases hstop : (it.pull j).2.stop with
  | some reason => rfl
  | none =>
      have hlen := (pull_length h j).2 hstop
      have hcap := (pull_consistent h j).capped
      rw [pull_append h, pull_opts, List.length_append, List.length_map, hlen] at hcap
      omega

/-- Where the walk ends is where enough calls lead. -/
theorem drain_eq_pull {it : LayerIter} (h : it.Consistent) {j : Nat}
    (hj : it.opts.maxLayers < it.records.length + j) : it.drain = (it.pull j).2 := by
  rw [← drain_pull h j]
  exact drain_of_stop (pull_stop h hj)

/-- Fewer calls yield a prefix of what enough calls yield. -/
theorem pull_eq_take {it : LayerIter} (h : it.Consistent) {n : Nat}
    (hn : it.opts.maxLayers < it.records.length + n) (j : Nat) :
    (it.pull j).1 = (it.pull n).1.take j := by
  rcases Nat.le_total j n with hle | hle
  · obtain ⟨k, rfl⟩ := Nat.exists_eq_add_of_le hle
    rw [pull_add j k]
    cases hstop : (it.pull j).2.stop with
    | none => rw [List.take_left' ((pull_length h j).2 hstop)]
    | some reason =>
        rw [pull_of_stop (by simp [hstop]) k, List.append_nil]
        exact (List.take_of_length_le (pull_length h j).1).symm
  · obtain ⟨k, rfl⟩ := Nat.exists_eq_add_of_le hle
    rw [pull_add n k, pull_of_stop (pull_stop h hn) k, List.append_nil]
    exact (List.take_of_length_le (le_trans (pull_length h n).1 hle)).symm

/-- The payload of every step is what follows its header. -/
theorem pull_payload {it : LayerIter} (h : it.Consistent) (j : Nat) :
    ∀ step ∈ (it.pull j).1,
      step.payload = it.bytes.drop (step.record.offset + step.record.headerLen) := by
  induction j generalizing it with
  | zero => simp [pull]
  | succ j ih =>
      intro step hstep
      simp only [pull, List.mem_append] at hstep
      rcases hstep with hhead | htail
      · rcases next_cases h with ⟨reason, -, hnext⟩ | ⟨-, -, hnext⟩ |
          ⟨hstop, hlt, protocol, parsed, heuristic, hout, hnext⟩ | ⟨-, -, reason, -, hnext⟩
        · simp [hnext] at hhead
        · simp [hnext] at hhead
        · obtain rfl : step = _ := by simpa [hnext] using hhead
          exact remaining_eq (h.push hstop hlt hout)
        · simp [hnext] at hhead
      · have hpayload := ih h.next step htail
        rwa [(next_frame it).2.1] at hpayload

end LayerIter

/-! ## The partition of the packet -/

theorem layers_eq_some {e : Engine} {bytes : List UInt8} {meta_ : PacketMeta} {opts : ParseOpts}
    {it : LayerIter} (h : e.layers bytes meta_ opts = some it) :
    it = { engine := e, bytes := bytes, meta_ := meta_, opts := opts } := by
  rw [Engine.layers] at h
  split at h
  · cases h
  · exact (Option.some.inj h).symm

/-- A fresh iterator meets the invariant. -/
theorem consistent_of_layers {e : Engine} {bytes : List UInt8} {meta_ : PacketMeta} {opts : ParseOpts}
    {it : LayerIter} (h : e.layers bytes meta_ opts = some it) : it.Consistent := by
  rw [layers_eq_some h]
  constructor
  case tiles => rfl
  case cursor_le => exact Nat.zero_le _
  case capped => exact Nat.zero_le _
  case fresh => exact fun _ => ⟨rfl, rfl⟩
  case ready => simp
  case stopped => simp

/-- What a dissection guarantees about the bytes of the packet. -/
structure WalkPartition (bytes : List UInt8) (opts : ParseOpts) (packet : DissectedPacket) : Prop where
  first : ∀ l, packet.layers.head? = some l → l.offset = 0
  adjacent : packet.layers.IsChain fun l l' => l'.offset = l.offset + l.headerLen
  total : (packet.layers.map LayerRecord.headerLen).sum + packet.opaqueLen = bytes.length
  capped : packet.layers.length ≤ opts.maxLayers
  complete : packet.stop = .complete ↔ packet.opaqueLen = 0
  depthCap : packet.stop = .depthCap ↔
    packet.layers.length = opts.maxLayers ∧ 0 < packet.opaqueLen

/-- The state takes none of the iterator's defensive branches: a hint is pending whenever one is
needed, and the cursor is in range of both slices. -/
structure LayerIter.Defended (it : LayerIter) : Prop where
  pending : it.stop = none → it.started = true → it.pending.isSome
  slice : (sliceFrom it.bytes it.cursor).isSome

theorem LayerIter.Consistent.defended {it : LayerIter} (h : it.Consistent) : it.Defended := by
  constructor
  case pending => exact fun hstop hstarted => (h.ready hstarted hstop).1
  case slice => simp [sliceFrom, h.cursor_le]

theorem LayerIter.Consistent.partition {it : LayerIter} (h : it.Consistent) (meta_ : PacketMeta) :
    WalkPartition it.bytes it.opts (it.intoPacket meta_) := by
  have hdone := drain_consistent h
  obtain ⟨-, hbytes, -, hopts⟩ := drain_frame it
  obtain ⟨reason, hreason⟩ := Option.isSome_iff_exists.1 (drain_stop h)
  have hle := hdone.cursor_le
  have hstopped := hdone.stopped reason hreason
  rw [hbytes] at hle
  constructor
  case first => exact fun l hl => hdone.tiles.head hl
  case adjacent => exact hdone.tiles.chain
  case total =>
      have hsum := hdone.tiles.sum
      simp only [intoPacket, hbytes]
      omega
  case capped =>
      have hcap := hdone.capped
      rwa [hopts] at hcap
  case complete =>
      simp only [intoPacket, hreason, Option.getD_some, hbytes]
      rw [hstopped.complete, hbytes]
      omega
  case depthCap =>
      simp only [intoPacket, hreason, Option.getD_some, hbytes]
      rw [hstopped.depthCap, hbytes, hopts]
      omega

/-- A valid forced entry does not panic. -/
theorem layers_isSome {e : Engine} {opts : ParseOpts}
    (hentry : ∀ name, opts.entry = some name → (e.pluginByName name).isSome)
    (bytes : List UInt8) (meta_ : PacketMeta) : ∃ it, e.layers bytes meta_ opts = some it := by
  rw [Engine.layers]
  cases hname : opts.entry with
  | none => simp
  | some name =>
      have hsome := hentry name hname
      simp [Option.isSome_iff_ne_none.1 hsome]

/-- A toy link layer of two bytes, the second naming the route of the payload. -/
def framePlugin : LayerPlugin where
  name := "frame"
  parse := fun bytes _ =>
    match bytes with
    | _ :: kind :: _ => .ok ⟨2, FieldMap.new, .route (.etherType kind.toUInt16)⟩
    | _ => .error (.truncated 2 bytes.length)
  claims := [.linkType 1]

/-- A toy payload of one byte that does not say what follows it. -/
def notePlugin : LayerPlugin where
  name := "note"
  parse := fun bytes _ =>
    match bytes with
    | _ :: _ => .ok ⟨1, FieldMap.new, .unknown⟩
    | [] => .error (.truncated 1 0)
  claims := [.etherType 7]

/-- The registry of the toy protocols. -/
def toyBuilder : EngineBuilder where
  plugins := [framePlugin, notePlugin]

/-- The tables of `toyBuilder`. -/
def toyRegistry : Registry :=
  match toyBuilder.build with
  | .ok registry => registry
  | .error _ => ⟨[], ∅, ∅, []⟩

/-- The engine of `toyBuilder`. -/
def toyEngine : Engine := ⟨toyRegistry, toyBuilder, rfl⟩

/-- The capture facts of a toy packet. -/
def toyMeta : PacketMeta := ⟨0, 5, 5, 1⟩

/-- Forced to start at the frame, with diagnostics on. -/
def toyOpts : ParseOpts := { entry := some "frame", diagnoseUnknown := true }

/-- The iterator over a frame, a note and two bytes nobody announces. -/
def toyIter : LayerIter where
  engine := toyEngine
  bytes := [0, 7, 1, 2, 3]
  meta_ := toyMeta
  opts := toyOpts

/-- **Walk partition.** With a valid entry every dissection ends, within one call more than the cap
allows layers, and its layers and opaque rest partition the packet; no call on the way takes a
defensive branch. -/
theorem dissect_partition (e : Engine) (bytes : List UInt8) (meta_ : PacketMeta) (opts : ParseOpts)
    (hentry : ∀ name, opts.entry = some name → (e.pluginByName name).isSome) :
    ∃ it packet, e.layers bytes meta_ opts = some it ∧ e.dissect bytes meta_ opts = some packet ∧
      (it.pull (opts.maxLayers + 1)).2.stop.isSome ∧ WalkPartition bytes opts packet ∧
      ∀ j, (it.pull j).2.Defended := by
  obtain ⟨it, hit⟩ := layers_isSome hentry bytes meta_
  have hcons := consistent_of_layers hit
  have hfresh := layers_eq_some hit
  refine ⟨it, it.intoPacket meta_, hit, by simp [Engine.dissect, hit], ?_, ?_, ?_⟩
  · apply LayerIter.pull_stop hcons
    rw [hfresh]
    simp
  · have hpart := hcons.partition meta_
    rw [hfresh] at hpart ⊢
    exact hpart
  · exact fun j => (LayerIter.pull_consistent hcons j).defended

/-- The toy packet is partitioned: a frame of two bytes, a note of one and two opaque bytes. -/
theorem dissect_partition_toy :
    (∃ it packet, toyEngine.layers [0, 7, 1, 2, 3] toyMeta toyOpts = some it ∧
      toyEngine.dissect [0, 7, 1, 2, 3] toyMeta toyOpts = some packet ∧
      (it.pull (toyOpts.maxLayers + 1)).2.stop.isSome ∧
      WalkPartition [0, 7, 1, 2, 3] toyOpts packet ∧ ∀ j, (it.pull j).2.Defended) ∧
    (toyIter.pull 3).1.map (fun step => (step.record.offset, step.record.headerLen)) =
      [(0, 2), (2, 1)] ∧ (toyIter.pull 3).2.cursor = 3 := by
  refine ⟨dissect_partition toyEngine [0, 7, 1, 2, 3] toyMeta toyOpts ?_, by decide, by decide⟩
  intro name hname
  cases hname
  decide

/-! ## Laziness -/

namespace LayerIter

/-- The same state under another cap. -/
def withCap (it : LayerIter) (n : Nat) : LayerIter :=
  { it with opts := { it.opts with maxLayers := n } }

theorem Consistent.withCap {it : LayerIter} (h : it.Consistent) {n : Nat}
    (hle : it.opts.maxLayers ≤ n) (hstop : it.stop = none) : (it.withCap n).Consistent := by
  constructor
  case tiles => exact h.tiles
  case cursor_le => exact h.cursor_le
  case capped => exact le_trans h.capped hle
  case fresh => exact h.fresh
  case ready => exact h.ready
  case stopped => simp [LayerIter.withCap, hstop]

theorem outcome_withCap (it : LayerIter) (n : Nat) : (it.withCap n).outcome = it.outcome := rfl

/-- Below the smaller cap, a call does not see which of the two it runs under. -/
theorem next_withCap {it : LayerIter} (h : it.Consistent) {n : Nat} (hle : it.opts.maxLayers ≤ n)
    (hlt : it.records.length < it.opts.maxLayers) :
    (it.withCap n).next = (it.next.1, it.next.2.withCap n) := by
  cases hstop : it.stop with
  | some reason => rw [next_of_stop hstop, @next_of_stop (it.withCap n) reason hstop]
  | none =>
      rw [next_eq h hstop hlt, next_eq (h.withCap hle hstop) hstop (lt_of_lt_of_le hlt hle),
        outcome_withCap]
      cases it.outcome <;> rfl

/-- A walk under a larger cap makes the same calls up to the smaller one. -/
theorem pull_withCap {it : LayerIter} (h : it.Consistent) {n : Nat} (hle : it.opts.maxLayers ≤ n)
    {j : Nat} (hj : it.records.length + j ≤ it.opts.maxLayers) :
    (it.withCap n).pull j = ((it.pull j).1, (it.pull j).2.withCap n) := by
  induction j generalizing it with
  | zero => rfl
  | succ j ih =>
      have hopts : it.next.2.opts = it.opts := (next_frame it).2.2.2
      have hlen : it.next.2.records.length ≤ it.records.length + 1 := by
        rw [next_append h, List.length_append, List.length_map]
        cases it.next.1 <;> simp
      simp only [pull]
      rw [next_withCap h hle (by omega)]
      rw [ih h.next (by rw [hopts]; exact hle) (by rw [hopts]; omega)]

/-- The walk only ever adds layers. -/
theorem records_le_drain {it : LayerIter} (h : it.Consistent) : it.records <+: it.drain.records := by
  rw [drain_eq_pull h (j := it.opts.maxLayers + 1) (by omega), pull_append h]
  exact List.prefix_append _ _

/-- The layers under a smaller cap are the first ones under a larger one. -/
theorem drain_withCap {it : LayerIter} (h : it.Consistent) (hfresh : it.stop = none) {n : Nat}
    (hle : it.opts.maxLayers ≤ n) :
    it.drain.records = (it.withCap n).drain.records.take it.opts.maxLayers := by
  -- both walks are compared after the calls that lead to the smaller cap
  obtain ⟨k, hk⟩ := Nat.exists_eq_add_of_le h.capped
  have hwide := h.withCap hle hfresh
  have hcons := pull_consistent h k
  have hopts := pull_opts it k
  rw [← drain_pull h k, ← drain_pull hwide k, pull_withCap h hle (j := k) (by omega)]
  cases hstop : (it.pull k).2.stop with
  | some reason =>
      have hsome : (it.pull k).2.stop.isSome := by simp [hstop]
      rw [drain_of_stop hsome, @drain_of_stop ((it.pull k).2.withCap n) hsome]
      have hcap := hcons.capped
      rw [hopts] at hcap
      exact (List.take_of_length_le hcap).symm
  | none =>
      have hlen : (it.pull k).2.records.length = it.opts.maxLayers := by
        rw [pull_append h, List.length_append, List.length_map, (pull_length h k).2 hstop, hk]
      have hcapped := next_of_cap hstop (by rw [hopts, hlen])
      rw [drain_of_none hcapped]
      have hwider : (it.pull k).2.opts.maxLayers ≤ n := by rwa [hopts]
      rw [← hlen]
      exact List.prefix_iff_eq_take.1 (records_le_drain (hcons.withCap hwider hstop))

end LayerIter

/-- **Laziness does not change meaning.** A smaller cap yields the first layers of the walk under a
larger one; any number of calls yield the first layers of `dissect`, each with the bytes after its
header, and the packet made afterwards is the one `dissect` returns. -/
theorem dissect_lazy (e : Engine) (bytes : List UInt8) (meta_ : PacketMeta) (opts : ParseOpts) :
    (∀ m n, m ≤ n → ∀ short long,
      e.dissect bytes meta_ { opts with maxLayers := m } = some short →
      e.dissect bytes meta_ { opts with maxLayers := n } = some long →
      short.layers = long.layers.take (min m long.layers.length)) ∧
    (∀ it, e.layers bytes meta_ opts = some it → ∀ j, ∃ packet,
      e.dissect bytes meta_ opts = some packet ∧ (it.pull j).2.intoPacket meta_ = packet ∧
      (it.pull j).1.map LayerStep.record = packet.layers.take j ∧
      ∀ step ∈ (it.pull j).1,
        step.payload = bytes.drop (step.record.offset + step.record.headerLen)) := by
  constructor
  · intro m n hle short long hshort hlong
    obtain ⟨it, hit, rfl⟩ := Option.map_eq_some_iff.1 hshort
    obtain ⟨it', hit', rfl⟩ := Option.map_eq_some_iff.1 hlong
    have hcons := consistent_of_layers hit
    have hfresh := layers_eq_some hit
    have hwide : it' = it.withCap n := by
      rw [layers_eq_some hit', hfresh]
      rfl
    have hrecords := LayerIter.drain_withCap hcons (by rw [hfresh]) (n := n) (by rw [hfresh]; exact hle)
    rw [← List.take_eq_take_min, hwide]
    rw [hfresh] at hrecords ⊢
    exact hrecords
  · intro it hit j
    have hcons := consistent_of_layers hit
    have hfresh := layers_eq_some hit
    refine ⟨it.intoPacket meta_, by simp [Engine.dissect, hit], ?_, ?_, ?_⟩
    · simp only [LayerIter.intoPacket, LayerIter.drain_pull hcons j]
    · have henough : it.opts.maxLayers < it.records.length + (it.opts.maxLayers + 1) := by omega
      have hrecords : it.records = [] := by rw [hfresh]
      rw [LayerIter.pull_eq_take hcons henough j, List.map_take]
      simp only [LayerIter.intoPacket, LayerIter.drain_eq_pull hcons henough]
      rw [LayerIter.pull_append hcons, hrecords, List.nil_append]
    · have hpayload := LayerIter.pull_payload hcons j
      rw [hfresh] at hpayload ⊢
      exact hpayload

/-- The toy walk, cut after one layer and pulled once. -/
theorem dissect_lazy_toy :
    ((toyIter.withCap 1).intoPacket toyMeta).layers =
      ((toyIter.withCap 2).intoPacket toyMeta).layers.take
        (min 1 ((toyIter.withCap 2).intoPacket toyMeta).layers.length) ∧
    ∃ packet, toyEngine.dissect [0, 7, 1, 2, 3] toyMeta toyOpts = some packet ∧
      (toyIter.pull 1).2.intoPacket toyMeta = packet ∧
      (toyIter.pull 1).1.map LayerStep.record = packet.layers.take 1 ∧
      ∀ step ∈ (toyIter.pull 1).1,
        step.payload = List.drop (step.record.offset + step.record.headerLen) [0, 7, 1, 2, 3] := by
  obtain ⟨hcap, hpull⟩ := dissect_lazy toyEngine [0, 7, 1, 2, 3] toyMeta toyOpts
  exact ⟨hcap 1 2 (by decide) _ _ rfl rfl, hpull toyIter rfl 1⟩

end Pktflow.Core
