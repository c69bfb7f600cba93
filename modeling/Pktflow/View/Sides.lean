import Pktflow.Flows.Folds
import Pktflow.Plugins.Transport
import Pktflow.View.Endpoints

/-!
# Sides and counters

The A side that `endpoint_sides` and `endpoint_json` show of a stream keyed by `src_x`/`dst_x` pairs is
its canonically smaller endpoint, and the `a_to_b` counters are those of the packets that come from it;
of a condensed node it is the anchor. Endpoints are compared as `flow_key` compares them, by their
encodings, which for short values is the equality of the values.
-/

set_option autoImplicit false

namespace Pktflow.View

open Pktflow.Core Pktflow.Flows Pktflow.Flows.Aggregator Pktflow.Lib

/-! ## The order of the endpoints -/

section Order

variable {identity : StreamIdentity} {suffixes : List String} {fields : FieldMap}

theorem aValues_pairs (suffixes : List String) (fields : FieldMap) :
    aValues (suffixes.map srcDst) fields = suffixes.filterMap (srcOf fields) := by
  rw [aValues, List.filterMap_map]
  rfl

theorem bValues_pairs (suffixes : List String) (fields : FieldMap) :
    bValues (suffixes.map srcDst) fields = suffixes.filterMap (dstOf fields) := by
  rw [bValues, List.filterMap_map]
  rfl

theorem unpairedValues_pairs (suffixes : List String) (fields : FieldMap) :
    unpairedValues (suffixes.map srcDst) fields = [] := by
  simp [unpairedValues, srcDst, List.filterMap_map, Function.comp_def]

/-- What a built key says of the endpoints of a layer. -/
inductive Oriented (suffixes : List String) (fields : FieldMap) (key : FlowKey) : PacketDirection → Prop
  | forward : code suffixes (srcOf fields) ≤ code suffixes (dstOf fields) →
      key = code suffixes (srcOf fields) ++ code suffixes (dstOf fields) →
      Oriented suffixes fields key .aToB
  | backward : ¬code suffixes (srcOf fields) ≤ code suffixes (dstOf fields) →
      key = code suffixes (dstOf fields) ++ code suffixes (srcOf fields) →
      Oriented suffixes fields key .bToA

theorem oriented_of_flowKey (hsort : identity.canonicalize = .endpointSort)
    (hkey : identity.key = suffixes.map srcDst) {key : FlowKey} {dir : PacketDirection}
    (h : flowKey identity fields = .ok (key, dir)) :
    (∀ x ∈ suffixes, ∃ v w, Paired fields x v w) ∧ Oriented suffixes fields key dir := by
  have hholds : HoldsKey identity.key fields := by
    simp only [flowKey, hsort] at h
    cases hg : gatherSides fields identity.key {} with
    | error e => simp [hg] at h
    | ok r => exact holdsKey_of_gatherSides hg
  refine ⟨?_, ?_⟩
  · intro x hx
    obtain ⟨⟨v, hv⟩, hb⟩ := hholds (srcDst x) (hkey ▸ List.mem_map_of_mem hx)
    obtain ⟨w, hw⟩ := hb _ rfl
    exact ⟨v, w, hv, hw⟩
  · rw [flowKey_eq hsort hholds, hkey] at h
    obtain ⟨rfl, rfl⟩ := Prod.mk.inj (Except.ok.inj h)
    simp only [unpairedValues_pairs, sortedSides, sidesDirection, aValues_pairs, bValues_pairs]
    by_cases hle : encodeAll (suffixes.filterMap (srcOf fields)) ≤
        encodeAll (suffixes.filterMap (dstOf fields))
    · simp only [if_pos hle]
      exact .forward hle rfl
    · simp only [if_neg hle]
      exact .backward hle rfl

/-- Equally many words at the front of a stream are told from the rest. -/
theorem encodeAll_append_inj {vs ws : List Value} (hlen : vs.length = ws.length) {s t : List UInt8}
    (h : encodeAll vs ++ s = encodeAll ws ++ t) : encodeAll vs = encodeAll ws ∧ s = t := by
  have hwords : ∀ us : List Value, encodeAll us = (us.map encodeValue).flatMap id := by
    intro us
    rw [encodeAll, List.flatMap_map]
    rfl
  have hall : ∀ us : List Value, ∀ w ∈ us.map encodeValue, IsWord w := by
    intro us w hw
    obtain ⟨v, -, rfl⟩ := List.mem_map.1 hw
    exact ⟨v, rfl⟩
  rw [hwords vs, hwords ws] at h ⊢
  obtain ⟨heq, hst⟩ := flatMap_inj_of_delimits (vs.map encodeValue) (ws.map encodeValue)
    (fun w hw => word_selfDelimiting w (hall vs w hw)) (hall ws) (by simpa using hlen) s t h
  exact ⟨by rw [heq], hst⟩

theorem length_endpoint {e : Endpoint} (h : ∀ x ∈ suffixes, (e x).isSome = true) :
    (suffixes.filterMap e).length = suffixes.length := by
  induction suffixes with
  | nil => rfl
  | cons x suffixes ih =>
      obtain ⟨v, hv⟩ := Option.isSome_iff_exists.1 (h x List.mem_cons_self)
      rw [List.filterMap_cons, hv, List.length_cons, List.length_cons,
        ih fun y hy => h y (List.mem_cons_of_mem x hy)]

/-- Two endpoint pairs of one key have the same encodings. -/
theorem code_inj {a b a' b' : Endpoint} (ha : ∀ x ∈ suffixes, (a x).isSome = true)
    (ha' : ∀ x ∈ suffixes, (a' x).isSome = true)
    (h : code suffixes a ++ code suffixes b = code suffixes a' ++ code suffixes b') :
    code suffixes a = code suffixes a' ∧ code suffixes b = code suffixes b' :=
  encodeAll_append_inj (by rw [length_endpoint ha, length_endpoint ha']) h

/-- Present short values of one encoding are equal. -/
theorem endpoint_eq_of_code {a a' : Endpoint} (ha : ∀ x ∈ suffixes, ∃ v, a x = some v ∧ Short v)
    (ha' : ∀ x ∈ suffixes, ∃ v, a' x = some v ∧ Short v) (h : code suffixes a = code suffixes a') :
    ∀ x ∈ suffixes, a x = a' x := by
  induction suffixes with
  | nil => intro x hx; cases hx
  | cons y suffixes ih =>
      obtain ⟨v, hv, hs⟩ := ha y List.mem_cons_self
      obtain ⟨v', hv', hs'⟩ := ha' y List.mem_cons_self
      have h' : encodeValue v ++ code suffixes a = encodeValue v' ++ code suffixes a' := by
        simpa [code, encodeAll, hv, hv'] using h
      obtain ⟨rfl, hrest⟩ := encodeValue_selfDelimiting v hs v' hs' _ _ h'
      have ih := ih (fun x hx => ha x (List.mem_cons_of_mem y hx))
        (fun x hx => ha' x (List.mem_cons_of_mem y hx)) hrest
      intro x hx
      rcases List.mem_cons.1 hx with rfl | hx
      · rw [hv, hv']
      · exact ih x hx

end Order

/-! ## Streams keyed by pairs -/

/-- The record that a packet of a stream would have begun. -/
def createdBy (identity : StreamIdentity) (f : Fold) (s : Stream) : Stream :=
  { s with keyFields := keyFieldsOf identity f.layer.fields, initiator := f.dir }

/-- The sides that are shown agree with the counters. -/
structure SidesMatch (fmt : Formats) (identity : StreamIdentity) (suffixes : List String) (s : Stream) :
    Prop where
  /-- The A side is the smaller endpoint of the key. -/
  smaller : code suffixes (sideA s) ≤ code suffixes (sideB s)
  key : s.key = code suffixes (sideA s) ++ code suffixes (sideB s)
  /-- The texts are those of the two sides. -/
  sides : endpointSides s = ⟨sideText suffixes (sideA s), sideText suffixes (sideB s), []⟩
  /-- The objects are those of the two sides, under the names the creating packet gave them. -/
  json : endpointJson fmt s =
    ⟨SortedMap.ofList (sideMembers fmt s.protocol (spellings s).1 suffixes (sideA s)),
      SortedMap.ofList (sideMembers fmt s.protocol (spellings s).2 suffixes (sideB s)), []⟩
  /-- Every folded packet runs between the two sides. -/
  between : ∀ f ∈ s.history,
    code suffixes (srcOf f.layer.fields) = code suffixes (sideA s) ∧
        code suffixes (dstOf f.layer.fields) = code suffixes (sideB s) ∨
      code suffixes (srcOf f.layer.fields) = code suffixes (sideB s) ∧
        code suffixes (dstOf f.layer.fields) = code suffixes (sideA s)
  /-- The counters: packets from the A side, and the others. -/
  aToB : s.stats.aToB = folded (s.history.filter fun f =>
    code suffixes (srcOf f.layer.fields) = code suffixes (sideA s))
  bToA : s.stats.bToA = folded (s.history.filter fun f =>
    code suffixes (srcOf f.layer.fields) ≠ code suffixes (sideA s))
  /-- With equal sides all packets are counted from A. -/
  equal : code suffixes (sideA s) = code suffixes (sideB s) →
    s.stats.aToB = folded s.history ∧ s.stats.bToA = folded []
  /-- Whichever packet had created the stream, its sides are the same, and its source is the A side as
  a value; long values are compared by the encoding alone. -/
  values : ShortKey identity.key s.keyFields → ∀ f ∈ s.history, ShortKey identity.key f.layer.fields →
    (∀ x ∈ suffixes, sideA (createdBy identity f s) x = sideA s x ∧
      sideB (createdBy identity f s) x = sideB s x) ∧
    endpointSides (createdBy identity f s) = endpointSides s ∧
    (code suffixes (srcOf f.layer.fields) = code suffixes (sideA s) ↔
      ∀ x ∈ suffixes, srcOf f.layer.fields x = sideA s x)

section Match

variable {env : Env} {identity : StreamIdentity} {suffixes : List String} {s : Stream}

theorem code_congr {a b : Endpoint} (h : ∀ x ∈ suffixes, a x = b x) : code suffixes a = code suffixes b := by
  rw [code, code, List.filterMap_congr h]

theorem sideText_congr {a b : Endpoint} (h : ∀ x ∈ suffixes, a x = b x) :
    sideText suffixes a = sideText suffixes b := by
  rw [sideText, sideText, List.filterMap_congr fun x hx => by rw [h x (List.mem_eraseDups.1 hx)]]

/-- What is known of a field map that the two sides of a stream were read from. -/
structure Read (identity : StreamIdentity) (suffixes : List String) (fields : FieldMap)
    (dir : PacketDirection) (s : Stream) : Prop where
  keyFields : s.keyFields = keyFieldsOf identity fields
  initiator : s.initiator = dir
  paired : ∀ x ∈ suffixes, ∃ v w, Paired fields x v w
  oriented : Oriented suffixes fields s.key dir

namespace Read

variable {fields : FieldMap} {dir : PacketDirection}

theorem ends (hkey : identity.key = suffixes.map srcDst) (h : Read identity suffixes fields dir s)
    {x : String} (hx : x ∈ suffixes) :
    srcOf s.keyFields x = srcOf fields x ∧ dstOf s.keyFields x = dstOf fields x := by
  rw [h.keyFields]
  exact endpoints_keyFieldsOf hkey fields hx

theorem paired_keyFields (hkey : identity.key = suffixes.map srcDst)
    (h : Read identity suffixes fields dir s) : ∀ x ∈ suffixes, ∃ v w, Paired s.keyFields x v w := by
  intro x hx
  obtain ⟨v, w, hv, hw⟩ := h.paired x hx
  obtain ⟨hsrc, hdst⟩ := h.ends hkey hx
  exact ⟨v, w, hsrc.trans hv, hdst.trans hw⟩

theorem sides_some (hkey : identity.key = suffixes.map srcDst) (h : Read identity suffixes fields dir s) :
    (∀ x ∈ suffixes, (sideA s x).isSome = true) ∧ ∀ x ∈ suffixes, (sideB s x).isSome = true := by
  constructor
  all_goals
    intro x hx
    obtain ⟨v, w, hv, hw⟩ := h.paired_keyFields hkey x hx
    simp only [sideA, sideB]
    cases s.initiator <;> simp [hv, hw]

/-- The A side is the smaller endpoint. -/
theorem canonical (hkey : identity.key = suffixes.map srcDst) (h : Read identity suffixes fields dir s) :
    code suffixes (sideA s) ≤ code suffixes (sideB s) ∧
      s.key = code suffixes (sideA s) ++ code suffixes (sideB s) := by
  have hsrc : code suffixes (srcOf s.keyFields) = code suffixes (srcOf fields) :=
    code_congr fun x hx => (h.ends hkey hx).1
  have hdst : code suffixes (dstOf s.keyFields) = code suffixes (dstOf fields) :=
    code_congr fun x hx => (h.ends hkey hx).2
  have hinit := h.initiator
  have horiented := h.oriented
  cases horiented with
  | forward hle hk =>
      simp only [sideA, sideB, hinit, hsrc, hdst]
      exact ⟨hle, hk⟩
  | backward hle hk =>
      simp only [sideA, sideB, hinit, hsrc, hdst]
      exact ⟨Std.le_of_not_ge hle, hk⟩

end Read

/-- A folded packet comes from the A side exactly if it is counted there. -/
theorem dir_of_oriented {g : FieldMap} {d : PacketDirection}
    (hA : ∀ x ∈ suffixes, (sideA s x).isSome = true)
    (hkey : s.key = code suffixes (sideA s) ++ code suffixes (sideB s))
    (hpaired : ∀ x ∈ suffixes, ∃ v w, Paired g x v w) (h : Oriented suffixes g s.key d) :
    d = .aToB ∧ code suffixes (srcOf g) = code suffixes (sideA s) ∧
        code suffixes (dstOf g) = code suffixes (sideB s) ∨
      d = .bToA ∧ code suffixes (srcOf g) = code suffixes (sideB s) ∧
        code suffixes (dstOf g) = code suffixes (sideA s) ∧
        code suffixes (srcOf g) ≠ code suffixes (sideA s) := by
  have hsrc : ∀ x ∈ suffixes, (srcOf g x).isSome = true := by
    intro x hx
    obtain ⟨v, w, hv, -⟩ := hpaired x hx
    simp [hv]
  have hdst : ∀ x ∈ suffixes, (dstOf g x).isSome = true := by
    intro x hx
    obtain ⟨v, w, -, hw⟩ := hpaired x hx
    simp [hw]
  cases h with
  | forward _ hk =>
      obtain ⟨ha, hb⟩ := code_inj hsrc hA (hk.symm.trans hkey)
      exact .inl ⟨rfl, ha, hb⟩
  | backward hle hk =>
      obtain ⟨ha, hb⟩ := code_inj hdst hA (hk.symm.trans hkey)
      refine .inr ⟨rfl, hb, ha, ?_⟩
      intro heq
      exact hle (by rw [heq, ha]; exact List.le_refl _)

/-- The values of a short pair key. -/
theorem short_ends (hkey : identity.key = suffixes.map srcDst) {g : FieldMap}
    (hshort : ShortKey identity.key g) (hpaired : ∀ x ∈ suffixes, ∃ v w, Paired g x v w) :
    (∀ x ∈ suffixes, ∃ v, srcOf g x = some v ∧ Short v) ∧
      ∀ x ∈ suffixes, ∃ v, dstOf g x = some v ∧ Short v := by
  have hmem : ∀ x ∈ suffixes, srcDst x ∈ identity.key := fun x hx => hkey ▸ List.mem_map_of_mem hx
  constructor
  · intro x hx
    obtain ⟨v, w, hv, -⟩ := hpaired x hx
    exact ⟨v, hv, (hshort _ (hmem x hx)).1 v hv⟩
  · intro x hx
    obtain ⟨v, w, -, hw⟩ := hpaired x hx
    exact ⟨w, hw, (hshort _ (hmem x hx)).2 _ rfl w hw⟩

/-- The entries of key fields are read back from them. -/
theorem Read.entries {fields : FieldMap} {dir : PacketDirection}
    (hkey : identity.key = suffixes.map srcDst) (h : Read identity suffixes fields dir s) :
    s.keyFields.entries = suffixes.eraseDups.flatMap (pairEntries s.keyFields) := by
  have hpairs : ∀ x ∈ suffixes.eraseDups, pairEntries fields x = pairEntries s.keyFields x := by
    intro x hx
    obtain ⟨hsrc, hdst⟩ := h.ends hkey (List.mem_eraseDups.1 hx)
    rw [pairEntries, pairEntries, hsrc, hdst]
  rw [← List.flatMap_congr hpairs, ← entries_copyPairs, ← keyFieldsOf_eq hkey, h.keyFields]

/-- The sides of the record that a folded packet would have begun, and its source, are those of the
stream. -/
theorem values_of_oriented (hkey : identity.key = suffixes.map srcDst) {fields : FieldMap}
    {dir : PacketDirection} (h : Read identity suffixes fields dir s) (hcondensed : s.condensed = none)
    (hshort : ShortKey identity.key s.keyFields) {f : Fold} (hf : ShortKey identity.key f.layer.fields)
    (hpaired : ∀ x ∈ suffixes, ∃ v w, Paired f.layer.fields x v w)
    (horiented : Oriented suffixes f.layer.fields s.key f.dir) :
    (∀ x ∈ suffixes, sideA (createdBy identity f s) x = sideA s x ∧
      sideB (createdBy identity f s) x = sideB s x) ∧
    endpointSides (createdBy identity f s) = endpointSides s ∧
    (code suffixes (srcOf f.layer.fields) = code suffixes (sideA s) ↔
      ∀ x ∈ suffixes, srcOf f.layer.fields x = sideA s x) := by
  obtain ⟨-, hk⟩ := h.canonical hkey
  obtain ⟨hA, -⟩ := h.sides_some hkey
  obtain ⟨hsrc, hdst⟩ := short_ends hkey hf hpaired
  obtain ⟨hsrc', hdst'⟩ := short_ends hkey hshort (h.paired_keyFields hkey)
  have hsideA : ∀ x ∈ suffixes, ∃ v, sideA s x = some v ∧ Short v := by
    rw [sideA]
    cases s.initiator
    · exact hsrc'
    · exact hdst'
  have hsideB : ∀ x ∈ suffixes, ∃ v, sideB s x = some v ∧ Short v := by
    rw [sideB]
    cases s.initiator
    · exact hdst'
    · exact hsrc'
  -- the packet's own record is read from its layer
  have hread : Read identity suffixes f.layer.fields f.dir (createdBy identity f s) :=
    ⟨rfl, rfl, hpaired, horiented⟩
  have hends : ∀ x ∈ suffixes, sideA (createdBy identity f s) x = sideA s x ∧
      sideB (createdBy identity f s) x = sideB s x := by
    intro x hx
    obtain ⟨hsrcEnd, hdstEnd⟩ := hread.ends hkey hx
    rcases dir_of_oriented hA hk hpaired horiented with ⟨hd, ha, hb⟩ | ⟨hd, hb, ha, -⟩
    · have ha := endpoint_eq_of_code hsrc hsideA ha x hx
      have hb := endpoint_eq_of_code hdst hsideB hb x hx
      rw [← ha, ← hb, ← hsrcEnd, ← hdstEnd]
      simp only [sideA, sideB, createdBy, hd, and_self]
    · have ha := endpoint_eq_of_code hdst hsideA ha x hx
      have hb := endpoint_eq_of_code hsrc hsideB hb x hx
      rw [← ha, ← hb, ← hsrcEnd, ← hdstEnd]
      simp only [sideA, sideB, createdBy, hd, and_self]
  refine ⟨hends, ?_, fun hcode => endpoint_eq_of_code hsrc hsideA hcode, code_congr⟩
  rw [endpointSides_pairs (s := createdBy identity f s) hcondensed (hread.entries hkey)
      (hread.paired_keyFields hkey), endpointSides_pairs hcondensed (h.entries hkey) (h.paired_keyFields hkey),
    sideText_congr fun x hx => (hends x hx).1, sideText_congr fun x hx => (hends x hx).2]

theorem sidesMatch_of_recorded (fmt : Formats) {plugin : LayerPlugin}
    (hid : identityOf env s.protocol = some (plugin, identity))
    (hsort : identity.canonicalize = .endpointSort) (hkey : identity.key = suffixes.map srcDst)
    (hcondensed : s.condensed = none) (h : Recorded env s) : SidesMatch fmt identity suffixes s := by
  have hsame : ∀ {layer : LayerRecord} {identity' : StreamIdentity} {condense : Option CondenseSpec}
      {key : FlowKey} {dir : PacketDirection}, Keyed env layer identity' condense key dir →
      s.protocol = layer.protocol → identity' = identity := by
    intro layer identity' condense key dir hk hp
    obtain ⟨plugin', hid', -⟩ := hk.registered
    rw [← hp, hid] at hid'
    exact (Prod.mk.inj (Option.some.inj hid')).2.symm
  -- the creating packet
  have hread : ∃ fields dir, Read identity suffixes fields dir s := by
    cases h.born with
    | @flow layer identity' condense key dir hk hp _ hs hf hi =>
        obtain rfl := hsame hk hp
        obtain ⟨hpaired, horiented⟩ := oriented_of_flowKey hsort hkey hk.built
        exact ⟨layer.fields, dir, hf, hi, hpaired, hs ▸ horiented⟩
    | node _ _ _ _ hc _ _ => simp [hcondensed] at hc
  obtain ⟨fields, dir, hread⟩ := hread
  -- the folded packets
  have hfold : ∀ f ∈ s.history, (∀ x ∈ suffixes, ∃ v w, Paired f.layer.fields x v w) ∧
      Oriented suffixes f.layer.fields s.key f.dir := by
    intro f hf
    obtain ⟨identity', condense, key, dir, hk, htakes⟩ := h.taken f hf
    generalize hd : f.dir = d at htakes
    cases htakes with
    | flow hp _ hs =>
        obtain rfl := hsame hk hp
        obtain ⟨hpaired, horiented⟩ := oriented_of_flowKey hsort hkey hk.built
        exact ⟨hpaired, hs ▸ horiented⟩
    | node _ hc _ _ _ => simp [hcondensed] at hc
  obtain ⟨hle, hk⟩ := hread.canonical hkey
  obtain ⟨hA, -⟩ := hread.sides_some hkey
  have hdir : ∀ f ∈ s.history, _ := fun f hf =>
    dir_of_oriented hA hk (hfold f hf).1 (hfold f hf).2
  have hcounts : (s.history.filter fun f => f.dir = .aToB) = s.history.filter (fun f =>
        code suffixes (srcOf f.layer.fields) = code suffixes (sideA s)) ∧
      (s.history.filter fun f => f.dir = .bToA) = s.history.filter (fun f =>
        code suffixes (srcOf f.layer.fields) ≠ code suffixes (sideA s)) := by
    constructor
    · apply List.filter_congr
      intro f hf
      rcases hdir f hf with ⟨hd, ha, -⟩ | ⟨hd, -, -, hne⟩
      · simp [hd, ha]
      · simp [hd, hne]
    · apply List.filter_congr
      intro f hf
      rcases hdir f hf with ⟨hd, ha, -⟩ | ⟨hd, -, -, hne⟩
      · simp [hd, ha]
      · simp [hd, hne]
  have haToB := h.aToB
  have hbToA := h.bToA
  rw [hcounts.1] at haToB
  rw [hcounts.2] at hbToA
  refine ⟨hle, hk, endpointSides_pairs hcondensed (hread.entries hkey) (hread.paired_keyFields hkey),
    endpointJson_pairs hcondensed (hread.entries hkey) (hread.paired_keyFields hkey), ?_, haToB, hbToA,
    ?_, ?_⟩
  · intro f hf
    rcases hdir f hf with ⟨-, ha, hb⟩ | ⟨-, hb, ha, -⟩
    · exact .inl ⟨ha, hb⟩
    · exact .inr ⟨hb, ha⟩
  · intro heq
    have hall : ∀ f ∈ s.history, code suffixes (srcOf f.layer.fields) = code suffixes (sideA s) := by
      intro f hf
      rcases hdir f hf with ⟨-, ha, -⟩ | ⟨-, hb, -, -⟩
      · exact ha
      · exact hb.trans heq.symm
    rw [haToB, hbToA]
    constructor
    · rw [List.filter_eq_self.2 fun f hf => decide_eq_true (hall f hf)]
    · rw [List.filter_eq_nil_iff.2 fun f hf => by simp [hall f hf]]
  · intro hshort f hf hfshort
    exact values_of_oriented hkey hread hcondensed hshort hfshort (hfold f hf).1 (hfold f hf).2

end Match

/-! ## Condensed nodes -/

/-- Whether a packet's source in the ephemeral pair is the value `v`. -/
def sourcedAt (eph : KeyField) (v : Value) (f : Fold) : Bool :=
  (f.layer.fields.get eph.a).any fun va => encodeValue va = encodeValue v

/-- The anchor that is shown of a condensed node agrees with the counters. -/
structure AnchorMatch (fmt : Formats) (eph : KeyField) (info : CondensedInfo) (v : Value) (s : Stream) :
    Prop where
  /-- The anchor is a value of one field of the ephemeral pair. -/
  field : info.ephemeralField = eph.a ∨ eph.b = some info.ephemeralField
  anchor : s.keyFields.get info.ephemeralField = some v
  sides : endpointSides s = ⟨sideStr info.ephemeralField info.ephemeralField v,
    if endsWith info.ephemeralField "port" then ":*" else "*", []⟩
  json : endpointJson fmt s =
    ⟨SortedMap.insert [] info.ephemeralField (fieldValueJson fmt s.protocol info.ephemeralField v),
      SortedMap.insert [] info.ephemeralField (.str "*"), []⟩
  /-- The counters: packets sourced at the anchor, and the others. -/
  aToB : s.stats.aToB = folded (s.history.filter fun f => sourcedAt eph v f)
  bToA : s.stats.bToA = folded (s.history.filter fun f => !sourcedAt eph v f)
  /-- Short values of one encoding are equal. -/
  values : Short v → ∀ f ∈ s.history, (∀ va, f.layer.fields.get eph.a = some va → Short va) →
    (sourcedAt eph v f = true ↔ f.layer.fields.get eph.a = some v)

section Anchor

variable {env : Env} {identity : StreamIdentity} {spec : CondenseSpec}

/-- A candidate: the anchor on the source side, or on the destination side of different sides. -/
inductive Candidate (identity : StreamIdentity) (spec : CondenseSpec) (fields : FieldMap)
    (c : CondenseCandidate) : Prop
  | source {base : KeyBuf} : anchorBase spec.ephemeral fields identity.key = some base →
      fields.get spec.ephemeral.a = some c.anchorValue → c.anchorField = spec.ephemeral.a →
      c.anchor = base ++ encodeValue c.anchorValue → c.foldDir = .aToB →
      Candidate identity spec fields c
  | destination {base : KeyBuf} {va : Value} :
      anchorBase spec.ephemeral fields identity.key = some base →
      fields.get spec.ephemeral.a = some va → encodeValue va ≠ encodeValue c.anchorValue →
      spec.ephemeral.b = some c.anchorField → c.anchor = base ++ encodeValue c.anchorValue →
      c.foldDir = .bToA → Candidate identity spec fields c

theorem candidate_of_mem {fields : FieldMap} {cs : List CondenseCandidate} {c : CondenseCandidate}
    (h : condenseCandidates env identity spec fields = some cs) (hc : c ∈ cs) :
    Candidate identity spec fields c := by
  rw [condenseCandidates] at h
  simp only [Option.bind_eq_bind, Option.bind_eq_some_iff] at h
  obtain ⟨bName, hb, va, hva, vb, hvb, base, hbase, hcs⟩ := h
  obtain rfl := Option.some.inj hcs
  split at hc
  · obtain rfl := List.mem_singleton.1 hc
    exact .source hbase hva rfl rfl rfl
  · rename_i hne
    rcases List.mem_cons.1 hc with rfl | hc
    · exact .source hbase hva rfl rfl rfl
    · obtain rfl := List.mem_singleton.1 hc
      exact .destination hbase hva hne hb rfl rfl

/-- A sorted pair of words at the front of a stream is told from the rest. -/
theorem sortedPair_append_inj {v w v' w' : Value} {s t : List UInt8}
    (h : sortedPair (encodeValue v) (encodeValue w) ++ s =
      sortedPair (encodeValue v') (encodeValue w') ++ t) : s = t := by
  have hpair : ∀ a b : Value, ∃ c d : Value,
      sortedPair (encodeValue a) (encodeValue b) = encodeValue c ++ encodeValue d := by
    intro a b
    rw [sortedPair]
    split
    · exact ⟨a, b, rfl⟩
    · exact ⟨b, a, rfl⟩
  obtain ⟨c, d, hcd⟩ := hpair v w
  obtain ⟨c', d', hcd'⟩ := hpair v' w'
  rw [hcd, hcd', List.append_assoc, List.append_assoc] at h
  exact (encodeValue_append_inj (encodeValue_append_inj h).2).2

/-- What follows the base of an anchor is told from it. -/
theorem anchorBase_append_inj {eph : KeyField} {f g : FieldMap} {key : List KeyField}
    {base base' s t : KeyBuf} (hf : anchorBase eph f key = some base)
    (hg : anchorBase eph g key = some base') (h : base ++ s = base' ++ t) : s = t := by
  induction key generalizing base base' with
  | nil =>
      obtain rfl := Option.some.inj hf
      obtain rfl := Option.some.inj hg
      exact h
  | cons kf key ih =>
      rw [anchorBase] at hf hg
      split at hf
      · rename_i heph
        rw [if_pos heph] at hg
        exact ih hf hg h
      · rename_i heph
        rw [if_neg heph] at hg
        cases hb : kf.b with
        | none =>
            simp only [hb, Option.bind_eq_bind, Option.bind_eq_some_iff] at hf hg
            obtain ⟨va, -, tail, htail, hbase⟩ := hf
            obtain ⟨va', -, tail', htail', hbase'⟩ := hg
            obtain rfl := Option.some.inj hbase
            obtain rfl := Option.some.inj hbase'
            rw [List.append_assoc, List.append_assoc] at h
            exact ih htail htail' (encodeValue_append_inj h).2
        | some b =>
            simp only [hb, Option.bind_eq_bind, Option.bind_eq_some_iff] at hf hg
            obtain ⟨va, -, vb, -, tail, htail, hbase⟩ := hf
            obtain ⟨va', -, vb', -, tail', htail', hbase'⟩ := hg
            obtain rfl := Option.some.inj hbase
            obtain rfl := Option.some.inj hbase'
            rw [List.append_assoc, List.append_assoc] at h
            exact ih htail htail' (sortedPair_append_inj h)

/-- A packet that goes to the node of an anchor is sourced there exactly if it is counted in `AtoB`. -/
theorem Candidate.sourced {c c' : CondenseCandidate} {fields : FieldMap} {f : Fold}
    (hc : Candidate identity spec fields c) (hc' : Candidate identity spec f.layer.fields c')
    (hanchor : c.anchor = c'.anchor) (hdir : f.dir = c'.foldDir) :
    f.dir = .aToB ∧ sourcedAt spec.ephemeral c.anchorValue f = true ∨
      f.dir = .bToA ∧ sourcedAt spec.ephemeral c.anchorValue f = false := by
  -- the anchors agree, so their values do
  have hbase : ∃ base, anchorBase spec.ephemeral fields identity.key = some base ∧
      c.anchor = base ++ encodeValue c.anchorValue := by
    cases hc with
    | source hbase _ _ ha _ => exact ⟨_, hbase, ha⟩
    | destination hbase _ _ _ ha _ => exact ⟨_, hbase, ha⟩
  obtain ⟨base, hbase, ha⟩ := hbase
  rw [ha] at hanchor
  rw [sourcedAt]
  cases hc' with
  | source hbase' hva _ ha' hd =>
      rw [ha'] at hanchor
      have hword := anchorBase_append_inj hbase hbase' hanchor
      exact .inl ⟨hdir.trans hd, by simp [hva, hword]⟩
  | destination hbase' hva hne _ ha' hd =>
      rw [ha'] at hanchor
      have hword := anchorBase_append_inj hbase hbase' hanchor
      exact .inr ⟨hdir.trans hd, by simp [hva, hword, hne]⟩

theorem anchorMatch_of_recorded (fmt : Formats) {s : Stream} {info : CondensedInfo}
    (hcondensed : s.condensed = some info) (h : Recorded env s) :
    ∃ plugin identity spec v, identityOf env s.protocol = some (plugin, identity) ∧
      plugin.condense = some spec ∧ AnchorMatch fmt spec.ephemeral info v s := by
  cases h.born with
  | flow _ _ hc _ _ _ =>
      rw [hcondensed] at hc
      cases hc
  | @node layer identity condense key dir cs c hk hp hcs hmem hfield hkey hfields =>
      obtain ⟨plugin, hid, hcondense⟩ := hk.registered
      obtain ⟨spec, hspec, hcand⟩ := candidatesOf_some hcs
      have hc := candidate_of_mem hcand hmem
      rw [← hp] at hid
      refine ⟨plugin, identity, spec, c.anchorValue, hid, hcondense.trans hspec, ?_⟩
      have hname : info.ephemeralField = c.anchorField := by simpa [hcondensed] using hfield
      have hget : s.keyFields.get info.ephemeralField = some c.anchorValue := by
        rw [hfields, hname, FieldMap.get_insert, if_pos rfl]
      -- every folded packet has the node's anchor
      have hfold : ∀ f ∈ s.history, f.dir = .aToB ∧ sourcedAt spec.ephemeral c.anchorValue f = true ∨
          f.dir = .bToA ∧ sourcedAt spec.ephemeral c.anchorValue f = false := by
        intro f hf
        obtain ⟨identity', condense', key', dir', hk', htakes⟩ := h.taken f hf
        generalize hd : f.dir = d at htakes
        cases htakes with
        | flow _ hcond _ =>
            rw [hcondensed] at hcond
            cases hcond
        | @node cs' c' hp' _ hcs' hmem' hkey' =>
            obtain ⟨plugin', hid', hcondense'⟩ := hk'.registered
            rw [← hp', hid] at hid'
            obtain ⟨rfl, rfl⟩ := Prod.mk.inj (Option.some.inj hid')
            obtain ⟨spec', hspec', hcand'⟩ := candidatesOf_some hcs'
            obtain rfl : spec = spec' :=
              Option.some.inj (hspec.symm.trans (hcondense.symm.trans (hcondense'.trans hspec')))
            have hanchor := (List.cons.inj (hkey.symm.trans hkey')).2
            rw [← hd]
            exact hc.sourced (candidate_of_mem hcand' hmem') hanchor hd
      refine ⟨?_, hget, ?_, ?_, ?_, ?_, ?_⟩
      · rw [hname]
        cases hc with
        | source _ _ hfield _ _ => exact .inl hfield
        | destination _ _ _ hfield _ _ => exact .inr hfield
      · rw [endpointSides]
        rw [hcondensed]
        simp only [hget]
      · rw [endpointJson]
        rw [hcondensed]
        simp only [hget]
      · rw [h.aToB]
        refine congrArg folded (List.filter_congr fun f hf => ?_)
        rcases hfold f hf with ⟨hd, hs⟩ | ⟨hd, hs⟩ <;> simp [hd, hs]
      · rw [h.bToA]
        refine congrArg folded (List.filter_congr fun f hf => ?_)
        rcases hfold f hf with ⟨hd, hs⟩ | ⟨hd, hs⟩ <;> simp [hd, hs]
      · intro hshort f _ hsrc
        rw [sourcedAt]
        cases hva : f.layer.fields.get spec.ephemeral.a with
        | none => simp
        | some va =>
            rw [Option.any_some, decide_eq_true_iff, Option.some.injEq]
            constructor
            · intro heq
              exact (encodeValue_selfDelimiting va (hsrc va hva) c.anchorValue hshort [] [] (by rw [heq])).1
            · intro heq
              rw [heq]

end Anchor

/-- **A/B rendering matches the statistics**, for every stream ever stored in a run: an expanded stream
of an `EndpointSort` identity with only `src_x`/`dst_x` pairs shows its canonically smaller endpoint as A
and counts the packets from it in `a_to_b`; a condensed node shows its anchor and counts the packets
sourced there. -/
theorem sides_match_stats {env : Env} {ops : List Op} {a : Aggregator} (h : Reaches env ops a)
    {s : Stream} (hs : s ∈ a.everStreams) (fmt : Formats) :
    (s.condensed = none → ∀ plugin identity suffixes,
      identityOf env s.protocol = some (plugin, identity) → identity.canonicalize = .endpointSort →
      identity.key = suffixes.map srcDst → SidesMatch fmt identity suffixes s) ∧
    ∀ info, s.condensed = some info → ∃ plugin identity spec v,
      identityOf env s.protocol = some (plugin, identity) ∧ plugin.condense = some spec ∧
        AnchorMatch fmt spec.ephemeral info v s := by
  have hrecorded := (recorded_rule env).reaches h s hs
  exact ⟨fun hcondensed plugin identity suffixes hid hsort hkey =>
      sidesMatch_of_recorded fmt hid hsort hkey hcondensed hrecorded,
    fun info hcondensed => anchorMatch_of_recorded fmt hcondensed hrecorded⟩

/-- An environment that condenses from the second flow of an anchor on. -/
def condensingEnv : Env := { Plugins.transportEnv with config := { condenseThreshold := 1 } }

/-- A UDP packet between two ports. -/
def portsPacket (srcPort dstPort : UInt16) : Op :=
  .ingest ⟨⟨0, 60, 60, 101⟩, [⟨"udp", 0, 8, ⟨Plugins.portFields srcPort dstPort⟩⟩], .complete, 0, none⟩

/-- A flow, its answer, and two more flows of its anchor. -/
def portsOps : List Op :=
  [portsPacket 4321 53, portsPacket 53 4321, portsPacket 4322 53, portsPacket 53 4323]

/-- In that run there are an expanded stream and a condensed node. -/
theorem sides_match_stats_sample :
    (∃ s ∈ (run condensingEnv portsOps).everStreams, s.condensed = none ∧ s.stats.packets = 2 ∧
      ∀ fmt, SidesMatch fmt Plugins.udpIdentity ["port"] s) ∧
    ∃ s ∈ (run condensingEnv portsOps).everStreams, ∃ info, s.condensed = some info ∧
      s.stats = ⟨⟨1, 60⟩, ⟨1, 60⟩⟩ ∧ ∀ fmt, ∃ (spec : CondenseSpec) (v : Value),
        AnchorMatch fmt spec.ephemeral info v s := by
  have hreach := reaches_run condensingEnv portsOps (by decide)
  have hflow : ∃ s ∈ (run condensingEnv portsOps).everStreams, s.condensed = none ∧
      s.protocol = "udp" ∧ s.stats.packets = 2 := by decide +kernel
  have hnode : ∃ s ∈ (run condensingEnv portsOps).everStreams, s.condensed.isSome = true ∧
      s.stats = ⟨⟨1, 60⟩, ⟨1, 60⟩⟩ := by decide +kernel
  obtain ⟨s, hs, hcondensed, hprotocol, hpackets⟩ := hflow
  obtain ⟨t, ht, hsome, hstats⟩ := hnode
  obtain ⟨info, hinfo⟩ := Option.isSome_iff_exists.1 hsome
  refine ⟨⟨s, hs, hcondensed, hpackets, fun fmt => ?_⟩, t, ht, info, hinfo, hstats, fun fmt => ?_⟩
  · refine (sides_match_stats hreach hs fmt).1 hcondensed Plugins.udp Plugins.udpIdentity ["port"] ?_ rfl rfl
    rw [hprotocol]
    rfl
  · obtain ⟨plugin, identity, spec, v, -, -, hmatch⟩ := (sides_match_stats hreach ht fmt).2 info hinfo
    exact ⟨spec, v, hmatch⟩

end Pktflow.View
