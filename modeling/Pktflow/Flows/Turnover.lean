import Pktflow.Flows.Sink

/-!
# Turnover of streams

What a call does to the live streams as their ids tell it: a stream that was there before stays under its
id, or is among the streams removed by the call; and a stream that is there afterwards is one of before, or
was created by the call.
-/

set_option autoImplicit false

namespace Pktflow.Flows

open Pktflow.Core Pktflow.Lib

namespace Aggregator

/-- From `a` to `b` the streams `gone` were removed and only streams with new numbers added. -/
structure Turnover (a b : Aggregator) (gone : List EvictedStream) : Prop where
  removed : b.removed = a.removed ++ gone
  nextSeq : a.nextSeq ≤ b.nextSeq
  /-- A live stream that is older than `a` was live in `a`. -/
  older : ∀ {h f}, b.frames h = some f → f.createdSeq < a.nextSeq → a.frames h = some f
  /-- A stream live in `a` stays, its id untouched, or is gone. -/
  stays : ∀ {h f}, a.frames h = some f →
    b.frames h = some f ∧ (∀ e ∈ gone, e.stream.id ≠ h) ∨ ∃ e ∈ gone, e.stream.frame = f

namespace Turnover

variable {env : Env} {a b c : Aggregator} {gone : List EvictedStream}

theorem refl (a : Aggregator) : Turnover a a [] where
  removed := (List.append_nil _).symm
  nextSeq := Nat.le_refl _
  older := fun h _ => h
  stays := fun h => .inl ⟨h, fun e he => by cases he⟩

/-- Nothing but the frames, the removed streams and the creation order matters. -/
theorem congr (h : Turnover a b gone) (hframes : c.frames = b.frames) (hremoved : c.removed = b.removed)
    (hseq : c.nextSeq = b.nextSeq) : Turnover a c gone where
  removed := hremoved.trans h.removed
  nextSeq := hseq ▸ h.nextSeq
  older := by
    rw [hframes]
    exact h.older
  stays := by
    rw [hframes]
    exact h.stays

theorem create (h : Turnover a b gone) {n : NewStream} (hlim : b.Fits) (hp : b.Linked n.parent) :
    Turnover a (b.createStreamRaw env n).1 gone where
  removed := h.removed
  nextSeq := Nat.le_succ_of_le h.nextSeq
  older := by
    intro i f hf hlt
    rcases (frames_of_create env hlim hp).1 hf with ⟨-, rfl⟩ | hf
    · -- the new stream has the next number
      exact absurd hlt (Nat.not_lt.2 h.nextSeq)
    · exact h.older hf hlt
  stays := by
    intro i f hf
    rcases h.stays hf with ⟨hb, hgone⟩ | hgone
    · exact .inl ⟨(frames_of_create env hlim hp).2 (.inr hb), hgone⟩
    · exact .inr hgone

theorem evict (h : Turnover a b gone) {id : StreamId} {s : Stream} (reason : CloseReason)
    (hf : ForestInv b) (hs : b.get id = some s) :
    Turnover a (b.evict env id reason) (gone ++ [⟨s.markClosed reason, reason⟩]) where
  removed := by rw [removed_evict hs, h.removed, List.append_assoc]
  nextSeq := by
    have hseq : (b.evict env id reason).nextSeq = b.nextSeq := by
      rw [evict_eq hs, unlink_eq]
      rfl
    rw [hseq]
    exact h.nextSeq
  older := by
    intro i f hframe hlt
    exact h.older ((frames_of_evict env reason hs).1 hframe).2 hlt
  stays := by
    intro i f hframe
    rcases h.stays hframe with ⟨hb, hgone⟩ | ⟨e, he, heq⟩
    · by_cases hi : i = id
      · -- it is the evicted one
        subst hi
        refine .inr ⟨_, List.mem_append_right _ List.mem_cons_self, ?_⟩
        rw [frames_of_get hs] at hb
        exact Option.some.inj hb
      · refine .inl ⟨(frames_of_evict env reason hs).2 ⟨hi, hb⟩, ?_⟩
        intro e he
        rcases List.mem_append.1 he with he | he
        · exact hgone e he
        · obtain rfl := List.mem_singleton.1 he
          have hid : s.id = id := hf.id_eq hs
          exact fun heq => hi (heq.symm.trans hid)
    · exact .inr ⟨e, List.mem_append_left _ he, heq⟩

theorem modify (h : Turnover a b gone) (id : StreamId) {f : Stream → Stream}
    (hframe : ∀ s, (f s).frame = s.frame) : Turnover a (b.modify id f) gone :=
  h.congr (frames_modify b id hframe) rfl rfl

theorem resolution {parent : Option StreamId} {key : FlowKey} {identity : StreamIdentity}
    {condense : Option CondenseSpec} {layer : LayerRecord} {dir : PacketDirection} {ts : SystemTime}
    {r : Aggregator × StreamId × PacketDirection} (hp : b.Linked parent)
    (hr : Resolution env b parent key identity condense layer dir ts r) (hfits : r.1.Fits)
    (h : Turnover a b gone) : Turnover a r.1 gone := by
  have hlim : b.Fits := hr.fits hfits
  refine hr.rule (J := fun c => Turnover a c gone) h ?_ ?_ ?_ ?_
  · intro n hn _
    exact h.create hlim (hn ▸ hp)
  · intro c id hc
    exact hc.modify id Stream.countMember_frame
  · intro c id hc
    exact hc.modify id Stream.markOverflow_frame
  · intro c m t p _ hc
    exact hc.congr rfl rfl rfl

/-- A live stream whose id none of the gone has stays. -/
theorem keeps (h : Turnover a b gone) (hf : ForestInv a) {id : StreamId} {f : Frame} (hlive : a.frames id = some f)
    (hgone : ¬∃ e ∈ gone, e.stream.id = id) : b.frames id = some f := by
  rcases h.stays hlive with ⟨hsame, -⟩ | ⟨e, he, heq⟩
  · exact hsame
  · obtain ⟨s, hs, rfl⟩ := frames_eq_some.1 hlive
    exact absurd ⟨e, he, (congrArg Frame.id heq).trans (hf.id_eq hs)⟩ hgone

end Turnover

/-- Evictions and closes in place add to the streams that are gone, or change nothing. -/
theorem turnover_heapFree (env : Env) (a : Aggregator) :
    HeapFree env fun b => ∃ gone, Turnover a b gone where
  close := by
    rintro b id ⟨gone, h⟩
    obtain ⟨calls, heq⟩ := closeStream_eq env b id
    rw [heq]
    exact ⟨gone, (h.modify id (f := fun s => s.markClosed .captureEnd) fun _ => rfl).congr rfl rfl rfl⟩
  evict := by
    rintro b id s reason hf hs _ ⟨gone, h⟩
    exact ⟨_, h.evict reason hf hs⟩
  heaps := by
    rintro b expiry lru ⟨gone, h⟩
    exact ⟨gone, h.congr rfl rfl rfl⟩

/-- The turnover of one ingest, step by step. -/
theorem turnover_ingestStable (env : Env) (pkt : DissectedPacket) (a : Aggregator) :
    IngestStable env pkt (fun _ => True) fun b => ∃ gone, Turnover a b gone where
  toLoopStable := (turnover_heapFree env a).loopStable
  layer := by
    rintro w w' layer hw - hstep hfits ⟨gone, h⟩
    cases hstep with
    | skip _ => exact ⟨gone, h⟩
    | keyError _ _ => exact ⟨gone, h.congr rfl rfl rfl⟩
    | folded _ _ hr =>
        have hb := h.resolution hw.linked hr (fits_of_touch hfits)
        exact ⟨gone, hb.congr (frames_touch _ _ _ _ _ _ _ _ _) rfl rfl⟩
  tail := by
    rintro b id n ⟨gone, h⟩
    exact ⟨gone, h.modify id fun _ => rfl⟩
  unknown := by
    rintro b u ⟨gone, h⟩
    exact ⟨gone, h.congr rfl rfl rfl⟩

theorem turnover_ingest {env : Env} {a : Aggregator} {pkt : DissectedPacket} (hf : ForestInv a)
    (hfits : (a.ingest env pkt).Fits) : ∃ gone, Turnover a (a.ingest env pkt) gone :=
  ((turnover_ingestStable env pkt a).ingest hf ⟨[], (Turnover.refl a).congr rfl rfl rfl⟩ hfits).2

theorem turnover_finish (env : Env) {a : Aggregator} (hf : ForestInv a) :
    ∃ gone, Turnover a (a.finish env) gone :=
  ((turnover_heapFree env a).toEvictStable.finish hf ⟨[], Turnover.refl a⟩).2

end Aggregator

end Pktflow.Flows
