import Pktflow.Core.Walk

/-!
# No phantom layers

Where the layers of a walk come from. `Emitted` is a derivation of the layers of one packet, each with
the hint its plugin returned: the first layer is licensed by the entry rules, every other one by the
hint of the layer before it, and each is the parse of one registered plugin on the bytes from its
offset with the layers before it as context.

Every walk of the iterator is such a derivation (`traced_pull`). The gate is a property of the
derivation alone (`Emitted.gate`): no layer follows a hint that names only what is not registered.
-/

set_option autoImplicit false

namespace Pktflow.Core

/-- The step a plugin's parse at an offset gives. -/
def stepAt (bytes : List UInt8) (offset : Nat) (p : LayerPlugin) (parsed : ParsedLayer)
    (viaHeuristic : Bool) : LayerStep where
  record := ⟨p.name, offset, parsed.headerLen, parsed.fields⟩
  payload := bytes.drop (offset + parsed.headerLen)
  viaHeuristic := viaHeuristic

/-- Where the header of a step ends. -/
def LayerStep.stop (step : LayerStep) : Nat :=
  step.record.offset + step.record.headerLen

/-- The context in which the layer after a walk is parsed. -/
def walkCtx (meta_ : PacketMeta) (opts : ParseOpts) (walk : List (LayerStep × Hint)) : ParseCtx :=
  ⟨walk.map fun x => x.1.record, opts.effectiveDepth, meta_⟩

/-- The layers of a walk, outermost first, each with the hint its plugin returned. -/
inductive Emitted (e : Engine) (bytes : List UInt8) (meta_ : PacketMeta) (opts : ParseOpts) :
    List (LayerStep × Hint) → Prop where
  | start : Emitted e bytes meta_ opts []
  | entry {p : LayerPlugin} {parsed : ParsedLayer} {heuristic : Bool}
      (registered : p ∈ e.registry.plugins)
      (licence : EntryLicensed e bytes (walkCtx meta_ opts []) opts meta_.linkType p parsed heuristic) :
      Emitted e bytes meta_ opts [(stepAt bytes 0 p parsed heuristic, parsed.hint)]
  | next {walk : List (LayerStep × Hint)} {step : LayerStep} {hint : Hint} {p : LayerPlugin}
      {parsed : ParsedLayer} {heuristic : Bool}
      (before : Emitted e bytes meta_ opts (walk ++ [(step, hint)]))
      (registered : p ∈ e.registry.plugins)
      (licence : Licensed e (bytes.drop step.stop) (walkCtx meta_ opts (walk ++ [(step, hint)])) hint p
        parsed heuristic) :
      Emitted e bytes meta_ opts
        (walk ++ [(step, hint)] ++ [(stepAt bytes step.stop p parsed heuristic, parsed.hint)])

/-! ## Registered plugins -/

section Registered

variable {e : Engine} {bytes : List UInt8} {ctx : ParseCtx} {p : LayerPlugin} {parsed : ParsedLayer}
  {heuristic : Bool}

theorem registered_of_route {id : RouteId} (h : e.pluginForRoute id = some p) :
    p ∈ e.registry.plugins := by
  obtain ⟨idx, -, hidx⟩ := Option.bind_eq_some_iff.1 h
  exact List.mem_of_getElem? hidx

theorem registered_of_name {name : ProtocolName} (h : e.pluginByName name = some p) :
    p ∈ e.registry.plugins := by
  obtain ⟨idx, -, hidx⟩ := Option.bind_eq_some_iff.1 h
  exact List.mem_of_getElem? hidx

theorem registered_of_pool (h : p ∈ e.fallbackPool) : p ∈ e.registry.plugins := by
  obtain ⟨idx, -, hidx⟩ := List.mem_filterMap.1 h
  exact List.mem_of_getElem? hidx

theorem Licensed.registered {hint : Hint} (h : Licensed e bytes ctx hint p parsed heuristic) :
    p ∈ e.registry.plugins := by
  cases h with
  | route claimed _ => exact registered_of_route claimed
  | candidate claimed _ _ => exact registered_of_route claimed
  | byProtocol named _ => exact registered_of_name named
  | fallback guess => exact registered_of_pool guess.pool

theorem EntryLicensed.registered {opts : ParseOpts} {linkType : UInt16}
    (h : EntryLicensed e bytes ctx opts linkType p parsed heuristic) : p ∈ e.registry.plugins := by
  cases h with
  | forced _ named _ => exact registered_of_name named
  | linkType _ claimed _ => exact registered_of_route claimed
  | fallback _ _ _ guess => exact registered_of_pool guess.pool

/-- Nothing is licensed by a hint that names only what is not registered. -/
theorem Licensed.not_unclaimed {hint : Hint} (h : Licensed e bytes ctx hint p parsed heuristic) :
    ¬ NamesOnlyUnclaimed e hint := by
  intro hnone
  cases h with
  | route claimed _ => simp [NamesOnlyUnclaimed, claimed] at hnone
  | candidate claimed _ _ =>
      have hid := hnone _ (List.mem_append_right _ (List.mem_cons_self ..))
      rw [claimed] at hid
      cases hid
  | byProtocol named _ => simp [NamesOnlyUnclaimed, named] at hnone
  | fallback _ => exact hnone

end Registered

/-! ## The gate -/

section Gate

variable {e : Engine} {bytes : List UInt8} {meta_ : PacketMeta} {opts : ParseOpts}

/-- A hint that names only what is not registered ends the derivation. -/
theorem Emitted.gate {walk : List (LayerStep × Hint)} (h : Emitted e bytes meta_ opts walk) {i : Nat}
    {step : LayerStep} {hint : Hint} (hi : walk[i]? = some (step, hint))
    (hnone : NamesOnlyUnclaimed e hint) : i + 1 = walk.length := by
  induction h with
  | start => simp at hi
  | entry _ _ =>
      have hlt := (List.getElem?_eq_some_iff.1 hi).1
      simp only [List.length_singleton] at hlt ⊢
      omega
  | @next walk last hint' p parsed heuristic before _ licence ih =>
      have hlt := (List.getElem?_eq_some_iff.1 hi).1
      simp only [List.length_append, List.length_singleton] at hlt ⊢
      by_cases hlast : i < (walk ++ [(last, hint')]).length
      · -- inside the earlier derivation it could only be the last hint, which licensed a layer
        rw [List.getElem?_append_left hlast] at hi
        have hend := ih hi
        have hidx : i = walk.length := by
          simp only [List.length_append, List.length_singleton] at hend
          omega
        rw [hidx, List.getElem?_concat_length] at hi
        cases hi
        exact absurd hnone licence.not_unclaimed
      · simp only [List.length_append, List.length_singleton] at hlast
        omega

end Gate

/-! ## The iterator's walks are derivations -/

namespace LayerIter

/-- The iterator's state is the end of a derivation. -/
structure Traced (it : LayerIter) (walk : List (LayerStep × Hint)) : Prop where
  emitted : Emitted it.engine it.bytes it.meta_ it.opts walk
  records : it.records = walk.map fun x => x.1.record
  cursor : it.cursor = (walk.getLast?.map fun x => x.1.stop).getD 0
  pending : it.stop = none → it.pending = walk.getLast?.map Prod.snd

/-- A layer extends the derivation. -/
theorem Traced.push {it : LayerIter} {walk : List (LayerStep × Hint)} (h : it.Traced walk)
    (hc : it.Consistent) (hstop : it.stop = none) {protocol : ProtocolName} {parsed : ParsedLayer}
    {heuristic : Bool} (hout : it.outcome = .layer protocol parsed heuristic) :
    ∃ p, protocol = p.name ∧
      (it.push protocol parsed).Traced
        (walk ++ [(stepAt it.bytes it.cursor p parsed heuristic, parsed.hint)]) := by
  have hctx : it.ctx = walkCtx it.meta_ it.opts walk := by
    simp only [ctx, walkCtx, h.records]
  have hpending := h.pending hstop
  rw [outcome] at hout
  rw [remaining_eq hc, hctx] at hout
  -- the derivation is empty exactly when no hint is pending
  cases walk using List.reverseRecOn with
  | nil =>
      have hcursor : it.cursor = 0 := h.cursor
      simp only [List.getLast?_nil, Option.map_none] at hpending
      rw [hpending, hcursor, List.drop_zero] at hout
      obtain ⟨p, hname, hlic⟩ := resolveEntry_licensed hout
      refine ⟨p, hname, ?_⟩
      constructor
      case emitted =>
          rw [hcursor]
          exact Emitted.entry hlic.registered hlic
      case records => simp [LayerIter.push, h.records, hname, stepAt]
      case cursor => simp [LayerIter.push, stepAt, LayerStep.stop]
      case pending => simp [LayerIter.push]
  | append_singleton walk last =>
      obtain ⟨step, hint⟩ := last
      have hcursor : it.cursor = step.stop := by simpa using h.cursor
      simp only [List.getLast?_append, List.getLast?_singleton, Option.some_or, Option.map_some]
        at hpending
      rw [hpending, hcursor] at hout
      obtain ⟨p, hname, hlic⟩ := resolveNext_licensed hout
      refine ⟨p, hname, ?_⟩
      constructor
      case emitted =>
          rw [hcursor]
          exact Emitted.next h.emitted hlic.registered hlic
      case records => simp [LayerIter.push, h.records, hname, stepAt]
      case cursor => simp [LayerIter.push, stepAt, LayerStep.stop]
      case pending => simp [LayerIter.push]

/-- One call extends the derivation by what it yields. -/
theorem Traced.next {it : LayerIter} {walk : List (LayerStep × Hint)} (h : it.Traced walk)
    (hc : it.Consistent) :
    ∃ more, it.next.2.Traced (walk ++ more) ∧ more.map Prod.fst = it.next.1.toList := by
  rcases next_cases hc with ⟨reason, hstop, hnext⟩ | ⟨hstop, hlen, hnext⟩ |
    ⟨hstop, hlt, protocol, parsed, heuristic, hout, hnext⟩ | ⟨hstop, hlt, reason, hout, hnext⟩
  · refine ⟨[], ?_, by simp [hnext]⟩
    rw [hnext, List.append_nil]
    exact h
  · refine ⟨[], ?_, by simp [hnext]⟩
    rw [hnext, List.append_nil]
    exact ⟨h.emitted, h.records, h.cursor, by simp⟩
  · obtain ⟨p, hname, htraced⟩ := h.push hc hstop hout
    refine ⟨[(stepAt it.bytes it.cursor p parsed heuristic, parsed.hint)], ?_, ?_⟩
    · rw [hnext]
      exact htraced
    · rw [hnext, remaining_eq (hc.push hstop hlt hout), hname]
      rfl
  · refine ⟨[], ?_, by simp [hnext]⟩
    rw [hnext, List.append_nil]
    exact ⟨h.emitted, h.records, h.cursor, by simp [halt]⟩

/-- Any number of calls extend the derivation by what they yield. -/
theorem Traced.pull {it : LayerIter} {walk : List (LayerStep × Hint)} (h : it.Traced walk)
    (hc : it.Consistent) (j : Nat) :
    ∃ more, (it.pull j).2.Traced (walk ++ more) ∧ more.map Prod.fst = (it.pull j).1 := by
  induction j generalizing it walk with
  | zero => exact ⟨[], by rwa [List.append_nil], rfl⟩
  | succ j ih =>
      obtain ⟨one, hone, hfst⟩ := h.next hc
      obtain ⟨rest, hrest, hfsts⟩ := ih hone hc.next
      refine ⟨one ++ rest, ?_, ?_⟩
      · rw [← List.append_assoc]
        exact hrest
      · rw [List.map_append, hfst, hfsts]
        rfl

end LayerIter

theorem traced_of_layers {e : Engine} {bytes : List UInt8} {meta_ : PacketMeta} {opts : ParseOpts}
    {it : LayerIter} (h : e.layers bytes meta_ opts = some it) : it.Traced [] := by
  rw [layers_eq_some h]
  exact ⟨Emitted.start, rfl, rfl, fun _ => rfl⟩

/-- **No phantom layers.** The layers of a dissection, pulled one at a time or all at once, are a
derivation; and after a hint that names only what is not registered the walk ends, with all the bytes
after that header opaque. -/
theorem dissect_no_phantom (e : Engine) (bytes : List UInt8) (meta_ : PacketMeta) (opts : ParseOpts)
    (it : LayerIter) (hit : e.layers bytes meta_ opts = some it) :
    ∃ packet walk, e.dissect bytes meta_ opts = some packet ∧ Emitted e bytes meta_ opts walk ∧
      packet.layers = walk.map (fun x => x.1.record) ∧
      (∀ j, (it.pull j).1 = (walk.map Prod.fst).take j) ∧
      ∀ i step hint, walk[i]? = some (step, hint) → NamesOnlyUnclaimed e hint →
        i + 1 = walk.length ∧ packet.opaqueLen = step.payload.length := by
  have hcons := consistent_of_layers hit
  have hfresh := layers_eq_some hit
  have henough : it.opts.maxLayers < it.records.length + (it.opts.maxLayers + 1) := by omega
  obtain ⟨walk, htraced, hsteps⟩ := (traced_of_layers hit).pull hcons (it.opts.maxLayers + 1)
  rw [List.nil_append, ← LayerIter.drain_eq_pull hcons henough] at htraced
  have hframe := LayerIter.drain_frame it
  rw [hfresh] at hframe
  simp only [← hfresh] at hframe
  obtain ⟨hengine, hbytes, hmeta, hopts⟩ := hframe
  have hemitted : Emitted e bytes meta_ opts walk := by
    have hem := htraced.emitted
    rwa [hengine, hbytes, hmeta, hopts] at hem
  refine ⟨it.intoPacket meta_, walk, by simp [Engine.dissect, hit], hemitted, htraced.records, ?_, ?_⟩
  · intro j
    rw [hsteps]
    exact LayerIter.pull_eq_take hcons henough j
  · intro i step hint hi hnone
    have hend := hemitted.gate hi hnone
    refine ⟨hend, ?_⟩
    have hlast : walk.getLast? = some (step, hint) := by
      rw [List.getLast?_eq_getElem?, ← hend, Nat.add_sub_cancel]
      exact hi
    have hcursor : it.drain.cursor = step.stop := by
      rw [htraced.cursor, hlast]
      rfl
    have hpayload : step.payload = bytes.drop step.stop := by
      have hmem : step ∈ (it.pull (it.opts.maxLayers + 1)).1 := by
        rw [← hsteps]
        exact List.mem_map_of_mem (List.mem_of_getLast? hlast)
      have hdrop := LayerIter.pull_payload hcons _ step hmem
      rwa [hfresh] at hdrop
    simp only [LayerIter.intoPacket, hbytes, hcursor, hpayload, List.length_drop]

/-- In the toy walk the frame is licensed by the forced entry and the note by the frame's route. -/
theorem dissect_no_phantom_toy :
    ∃ packet walk, toyEngine.dissect [0, 7, 1, 2, 3] toyMeta toyOpts = some packet ∧
      Emitted toyEngine [0, 7, 1, 2, 3] toyMeta toyOpts walk ∧
      packet.layers = walk.map (fun x => x.1.record) ∧
      (∀ j, (toyIter.pull j).1 = (walk.map Prod.fst).take j) ∧
      ∀ i step hint, walk[i]? = some (step, hint) → NamesOnlyUnclaimed toyEngine hint →
        i + 1 = walk.length ∧ packet.opaqueLen = step.payload.length :=
  dissect_no_phantom toyEngine [0, 7, 1, 2, 3] toyMeta toyOpts toyIter rfl

end Pktflow.Core
