import Pktflow.Flows.Folds
import Pktflow.Flows.Turnover

/-!
# Runs without eviction

With the `None` policy a stream, once created, keeps its id and its frame to the end of the run. With
condensation off as well, a layer is folded into the one stream of its parent, protocol and key, in the
direction `flow_key` computes.
-/

set_option autoImplicit false

namespace Pktflow.Flows

open Pktflow.Core Pktflow.Lib

namespace Aggregator

/-- The live streams of `a` are live in `b`, their frames untouched. -/
def Keeps (a b : Aggregator) : Prop := ∀ h f, a.frames h = some f → b.frames h = some f

section Keeps

variable {env : Env} {a b c : Aggregator} {pkt : DissectedPacket}

theorem Keeps.trans (hab : Keeps a b) (hbc : Keeps b c) : Keeps a c := by
  intro h f hf
  exact hbc h f (hab h f hf)

theorem Keeps.of_eq (h : b.frames = a.frames) : Keeps a b := by
  intro i f hf
  rw [h]
  exact hf

/-- Streams only come in a layer of the walk. -/
theorem LayerStep.keeps {w w' : Walk} {layer : LayerRecord} (hw : WalkInv w)
    (hstep : LayerStep env pkt w layer w') (hfits : w'.agg.Fits) : Keeps w.agg w'.agg := by
  cases hstep with
  | skip _ => exact .of_eq rfl
  | keyError _ _ => exact .of_eq rfl
  | folded _ _ hr =>
      have hturn := (Turnover.refl w.agg).resolution hw.linked hr (fits_of_touch hfits)
      intro i f hf
      rw [frames_touch]
      rcases hturn.stays hf with ⟨hb, -⟩ | ⟨e, he, -⟩
      · exact hb
      · cases he

theorem keeps_walk (hf : ForestInv a) (layers rest : List LayerRecord)
    (hfits : (a.walkLayers env pkt (layers ++ rest)).agg.Fits) :
    Keeps (a.walkLayers env pkt layers).agg (a.walkLayers env pkt (layers ++ rest)).agg := by
  induction rest using List.reverseRecOn with
  | nil =>
      rw [List.append_nil]
      exact .of_eq rfl
  | append_singleton rest layer ih =>
      rw [← List.append_assoc, walkLayers_append] at hfits ⊢
      have hstep := ingestLayer_spec env pkt (a.walkLayers env pkt (layers ++ rest)) layer
      obtain ⟨hw, -⟩ := (runStable_true env).walk hf trivial (hstep.fits hfits)
      exact (ih (hstep.fits hfits)).trans (hstep.keeps hw hfits)

/-- From the place of a layer to the end of the ingest. -/
theorem keeps_ingest_of_walk (hev : env.config.eviction = .none) (hf : ForestInv a)
    (hfits : (a.ingest env pkt).Fits) {layers rest : List LayerRecord} (hlayers : pkt.layers = layers ++ rest) :
    Keeps (a.walkLayers env pkt layers).agg (a.ingest env pkt) := by
  have hwalk := fits_walk hfits
  obtain ⟨hw, -⟩ := (runStable_true env).walk hf trivial hwalk
  have hkeeps := keeps_walk hf layers rest (hlayers ▸ hwalk)
  rw [← hlayers] at hkeeps
  rw [ingest]
  rw [enforceMaxStreams_none hev]
  -- neither the opaque tail nor the registry of unknowns touches a frame
  refine (afterWalk_rule (I := Keeps (a.walkLayers env pkt layers).agg) ?_ ?_ hw hkeeps).2
  · intro c id n hc
    exact hc.trans (.of_eq (frames_modify c id fun _ => rfl))
  · intro c u hc
    exact hc

/-- From the start of an ingest to the place of a layer. -/
theorem keeps_to_walk (hev : env.config.eviction = .none) (hf : ForestInv a) {layers : List LayerRecord}
    (hfits : (a.walkLayers env pkt layers).agg.Fits) : Keeps a (a.walkLayers env pkt layers).agg := by
  have hstart : Keeps a (a.walkLayers env pkt []).agg := by
    obtain ⟨lru, heq⟩ := compactLru_eq (a.tick pkt)
    show Keeps a (a.beforeWalk env pkt)
    rw [beforeWalk]
    rw [sweep_none hev, heq]
    exact .of_eq rfl
  exact hstart.trans (keeps_walk hf [] layers hfits)

theorem keeps_ingest (hev : env.config.eviction = .none) (hf : ForestInv a)
    (hfits : (a.ingest env pkt).Fits) : Keeps a (a.ingest env pkt) :=
  (keeps_to_walk hev hf (fits_walk hfits)).trans
    (keeps_ingest_of_walk hev hf hfits (List.append_nil _).symm)

theorem keeps_finish (hev : env.config.eviction = .none) (a : Aggregator) : Keeps a (a.finish env) := by
  rw [finish]
  generalize a.finishOrder.map FinishEntry.id = todo
  induction todo generalizing a with
  | nil => exact .of_eq rfl
  | cons id todo ih =>
      rw [List.foldl_cons, finishOne_none hev]
      obtain ⟨calls, heq⟩ := closeStream_eq env a id
      refine Keeps.trans ?_ (ih _)
      rw [heq]
      exact .of_eq (frames_modify a id fun _ => rfl)

/-- The streams of a state are there in every later one. -/
theorem keeps_reaches (hev : env.config.eviction = .none) {ops rest : List Op} (ha : Reaches env ops a)
    (hb : Reaches env (ops ++ rest) b) : Keeps a b := by
  induction rest using List.reverseRecOn generalizing b with
  | nil =>
      rw [List.append_nil] at hb
      rw [hb.eq_run, ← ha.eq_run]
      exact .of_eq rfl
  | append_singleton rest op ih =>
      rw [← List.append_assoc] at hb
      obtain ⟨hprev, hfits⟩ := hb.of_append_singleton
      rw [hb.eq_run, run_append]
      apply (ih hprev).trans
      cases op with
      | ingest pkt => exact keeps_ingest hev (forestInv_of_reaches hprev) hfits
      | finish => exact keeps_finish hev _

end Keeps

/-! ## Where a layer is folded -/

/-- The stream and the direction slot into which `ingest` folds a layer. -/
def foldSlot (env : Env) (pkt : DissectedPacket) (w : Walk) (layer : LayerRecord) :
    Option (StreamId × PacketDirection) :=
  match identityOf env layer.protocol with
  | none => none
  | some (plugin, identity) =>
      match flowKey identity layer.fields with
      | .error _ => none
      | .ok (key, dir) =>
          some (w.agg.getOrInsert env w.parent key identity plugin.condense layer dir
            pkt.meta_.timestamp).2

/-- The layer is folded into the stream `id`, filed under the walk's parent and the layer's key. -/
structure Lands (env : Env) (pkt : DissectedPacket) (w : Walk) (layer : LayerRecord) (key : FlowKey)
    (dir : PacketDirection) (id : StreamId) : Prop where
  slot : foldSlot env pkt w layer = some (id, dir)
  parent : (ingestLayer env pkt w layer).parent = some id
  frame : ∃ f, (ingestLayer env pkt w layer).agg.frames id = some f ∧ f.parent = w.parent ∧
    f.protocol = layer.protocol ∧ f.key = key

theorem lands_of_off {env : Env} (hoff : env.config.condenseThreshold = 0) {pkt : DissectedPacket} {w : Walk}
    {layer : LayerRecord} {plugin : LayerPlugin} {identity : StreamIdentity} {key : FlowKey}
    {dir : PacketDirection} (hw : WalkInv w) (htab : TableInv env w.agg)
    (hid : identityOf env layer.protocol = some (plugin, identity))
    (hkey : flowKey identity layer.fields = .ok (key, dir))
    (hfits : (ingestLayer env pkt w layer).agg.Fits) :
    ∃ id, Lands env pkt w layer key dir id := by
  have hr := getOrInsert_spec env w.agg w.parent key identity plugin.condense layer dir pkt.meta_.timestamp
  have hslot : foldSlot env pkt w layer = some (w.agg.getOrInsert env w.parent key identity plugin.condense
      layer dir pkt.meta_.timestamp).2 := by simp only [foldSlot, hid, hkey]
  have hnext : ingestLayer env pkt w layer =
      let r := w.agg.getOrInsert env w.parent key identity plugin.condense layer dir pkt.meta_.timestamp
      ⟨r.1.touch env r.2.1 identity layer key r.2.2 pkt.meta_.timestamp pkt.meta_.origlen, some r.2.1,
        some ⟨layer.protocol, key⟩⟩ := by simp only [ingestLayer, hid, hkey]
  generalize w.agg.getOrInsert env w.parent key identity plugin.condense layer dir pkt.meta_.timestamp = r
    at hr hslot hnext
  obtain ⟨b, id, d⟩ := r
  rw [hnext] at hfits
  have hfits' : b.Fits := fits_of_touch hfits
  obtain ⟨-, f, hf, hparent, hprotocol⟩ := htab.resolution hw.linked hid hkey hr hfits'
  obtain ⟨s, hs, rfl⟩ := frames_eq_some.1 hf
  -- with condensation off only the stream of the key takes the layer
  cases htab.takes hw.linked hid hkey hr hfits' hs with
  | flow _ _ hk =>
      refine ⟨id, hslot, by rw [hnext], s.frame, ?_, hparent, hprotocol, hk⟩
      rw [hnext, frames_touch]
      exact hf
  | node _ _ hcs _ _ =>
      rw [candidates_off hoff] at hcs
      cases hcs

end Aggregator

end Pktflow.Flows
