import Pktflow.Flows.Anchors
import Pktflow.View.Record

/-!
# Endpoints of pair keys

The key fields of an identity that consists of `src_x`/`dst_x` pairs, and what `endpoint_sides` and
`endpoint_json` make of them: one part for each pair, whichever of the two spellings its value was found
under.
-/

set_option autoImplicit false

namespace Pktflow.View

open Pktflow.Core Pktflow.Flows Pktflow.Flows.Aggregator Pktflow.Lib

/-- A `src_x`/`dst_x` pair. -/
def srcDst (suffix : String) : KeyField := ⟨"src_" ++ suffix, some ("dst_" ++ suffix)⟩

/-- An endpoint: its value for each suffix. -/
abbrev Endpoint := String → Option Value

/-- The source endpoint of a field map. -/
def srcOf (fields : FieldMap) : Endpoint := fun suffix => fields.get ("src_" ++ suffix)

/-- The destination endpoint of a field map. -/
def dstOf (fields : FieldMap) : Endpoint := fun suffix => fields.get ("dst_" ++ suffix)

/-- The encoding of an endpoint, by which `flow_key` orders the two. -/
def code (suffixes : List String) (e : Endpoint) : KeyBuf := encodeAll (suffixes.filterMap e)

/-- The endpoint in the A slot of a stream. -/
def sideA (s : Stream) : Endpoint :=
  match s.initiator with
  | .aToB => srcOf s.keyFields
  | .bToA => dstOf s.keyFields

/-- The endpoint in the B slot of a stream. -/
def sideB (s : Stream) : Endpoint :=
  match s.initiator with
  | .aToB => dstOf s.keyFields
  | .bToA => srcOf s.keyFields

/-! ## Names -/

section Names

variable {x y : String}

theorem stripPrefix_append (pre rest : String) : stripPrefix pre (pre ++ rest) = some rest := by
  rw [stripPrefix]
  rw [String.toList_append, if_pos (List.prefix_append _ _), List.drop_left, String.ofList_toList]

theorem stripPrefix_src_dst (x : String) : stripPrefix "src_" ("dst_" ++ x) = none := by
  rw [stripPrefix]
  rw [String.toList_append, if_neg]
  simp

theorem src_ne_dst : "src_" ++ x ≠ "dst_" ++ y := by
  intro h
  have hstrip := stripPrefix_append "src_" x
  rw [h, stripPrefix_src_dst] at hstrip
  cases hstrip

theorem src_inj (h : "src_" ++ x = "src_" ++ y) : x = y := by
  have hstrip := stripPrefix_append "src_" x
  rw [h, stripPrefix_append] at hstrip
  exact (Option.some.inj hstrip).symm

theorem dst_inj (h : "dst_" ++ x = "dst_" ++ y) : x = y := by
  have hstrip := stripPrefix_append "dst_" x
  rw [h, stripPrefix_append] at hstrip
  exact (Option.some.inj hstrip).symm

/-- A suffix that starts with the underscore is shared by both spellings. -/
theorem endsWith_src_dst (x suffix : String) {rest : List Char}
    (h : suffix.toList = '_' :: rest) : endsWith ("src_" ++ x) suffix = endsWith ("dst_" ++ x) suffix := by
  unfold endsWith
  rw [String.toList_append, String.toList_append, h]
  simp [List.suffix_cons_iff]

theorem bytesStr_src_dst (x : String) (b : List UInt8) :
    bytesStr ("src_" ++ x) b = bytesStr ("dst_" ++ x) b := by
  unfold bytesStr
  rw [endsWith_src_dst x "_mac" rfl, endsWith_src_dst x "_addr" rfl,
    endsWith_src_dst x "_ip" rfl]

/-- Both spellings of a field are rendered alike. -/
theorem valueStr_src_dst (x : String) (v : Value) :
    valueStr ("src_" ++ x) v = valueStr ("dst_" ++ x) v := by
  induction v using Value.rec' with
  | hbytes b => simp only [valueStr, bytesStr_src_dst]
  | hu64 n => rfl
  | hi64 n => rfl
  | hbool b => rfl
  | hstr s => rfl
  | hlist vs ih =>
      have hall : valueStrs ("src_" ++ x) vs = valueStrs ("dst_" ++ x) vs := by
        induction vs with
        | nil => rfl
        | cons v vs ihvs =>
            simp only [valueStrs]
            rw [ih v List.mem_cons_self, ihvs fun w hw => ih w (List.mem_cons_of_mem v hw)]
      simp only [valueStr, hall]

theorem sideStr_src_dst (x : String) (v : Value) :
    sideStr ("src_" ++ x) x v = sideStr ("dst_" ++ x) x v := by
  unfold sideStr
  rw [valueStr_src_dst]

/-- Both spellings of a field have the same JSON value. -/
theorem fieldValueJson_src_dst (fmt : Formats) (protocol : ProtocolName) (x : String) (v : Value) :
    fieldValueJson fmt protocol ("src_" ++ x) v = fieldValueJson fmt protocol ("dst_" ++ x) v := by
  induction v using Value.rec' with
  | hbytes b => simp [fieldValueJson, fieldValueStr, getU64, valueStr_src_dst]
  | hu64 n => rfl
  | hi64 n => rfl
  | hbool b => rfl
  | hstr s => rfl
  | hlist vs ih =>
      have hall : fieldValueJsons fmt protocol ("src_" ++ x) vs =
          fieldValueJsons fmt protocol ("dst_" ++ x) vs := by
        induction vs with
        | nil => rfl
        | cons v vs ihvs =>
            simp only [fieldValueJsons]
            rw [ih v List.mem_cons_self, ihvs fun w hw => ih w (List.mem_cons_of_mem v hw)]
      simp only [fieldValueJson, hall]

end Names

/-! ## Key fields -/

/-- The key fields of one pair. -/
def pairEntries (fields : FieldMap) (suffix : String) : List (FieldName × Value) :=
  (srcOf fields suffix).toList.map (Prod.mk ("src_" ++ suffix)) ++
    (dstOf fields suffix).toList.map (Prod.mk ("dst_" ++ suffix))

/-- One field copied into the key fields. -/
def copyField (fields m : FieldMap) (name : FieldName) : FieldMap :=
  match fields.get name with
  | none => m
  | some v => m.insert name v

section KeyFields

variable {identity : StreamIdentity} {suffixes : List String} {fields : FieldMap}

theorem get_copyField (fields m : FieldMap) (name k : FieldName) :
    (copyField fields m name).get k = if k = name then (fields.get k).or (m.get k) else m.get k := by
  rw [copyField]
  by_cases hk : k = name
  · subst hk
    cases hv : fields.get k with
    | none => simp
    | some v => simp [FieldMap.get_insert]
  · cases hv : fields.get name with
    | none => simp [hk]
    | some v => simp [FieldMap.get_insert, hk]

/-- Copying a field that is there already. -/
theorem copyField_of_get {m : FieldMap} {name : FieldName} (h : m.get name = fields.get name) :
    copyField fields m name = m := by
  rw [copyField]
  cases hv : fields.get name with
  | none => rfl
  | some v => exact FieldMap.insert_of_get (h.trans hv)

/-- Copying a field that is not there. -/
theorem entries_copyField {m : FieldMap} {name : FieldName} (h : m.get name = none) :
    (copyField fields m name).entries = m.entries ++ (fields.get name).toList.map (Prod.mk name) := by
  rw [copyField]
  cases hv : fields.get name with
  | none => simp
  | some v => simpa using FieldMap.entries_insert_of_get_none h v

/-- The fields of each pair copied in turn. -/
def copyPairs (fields : FieldMap) (suffixes : List String) : FieldMap :=
  suffixes.foldl (fun m x => copyField fields (copyField fields m ("src_" ++ x)) ("dst_" ++ x))
    FieldMap.new

theorem copyPairs_append (fields : FieldMap) (suffixes : List String) (x : String) :
    copyPairs fields (suffixes ++ [x]) =
      copyField fields (copyField fields (copyPairs fields suffixes) ("src_" ++ x)) ("dst_" ++ x) := by
  simp only [copyPairs, List.foldl_append, List.foldl_cons, List.foldl_nil]

theorem keyFieldsOf_eq (hkey : identity.key = suffixes.map srcDst) (fields : FieldMap) :
    keyFieldsOf identity fields = copyPairs fields suffixes := by
  rw [keyFieldsOf, copyPairs]
  rw [hkey]
  clear hkey
  generalize FieldMap.new = m
  induction suffixes generalizing m with
  | nil => rfl
  | cons x suffixes ih => exact ih _

/-- What the map of the copied pairs holds. -/
theorem get_copyPairs (fields : FieldMap) (suffixes : List String) (k : FieldName) :
    (copyPairs fields suffixes).get k =
      if ∃ x ∈ suffixes, k = "src_" ++ x ∨ k = "dst_" ++ x then fields.get k else none := by
  induction suffixes using List.reverseRecOn with
  | nil => rfl
  | append_singleton suffixes x ih =>
      rw [copyPairs_append, get_copyField, get_copyField, ih]
      by_cases hk : k = "src_" ++ x ∨ k = "dst_" ++ x
      · rcases hk with hk | hk <;> cases fields.get k <;> simp [hk]
      · obtain ⟨hsrc, hdst⟩ := not_or.1 hk
        simp [hsrc, hdst]

/-- The key fields of an identity of pairs: those of each pair, once, in key order. -/
theorem entries_copyPairs (fields : FieldMap) (suffixes : List String) :
    (copyPairs fields suffixes).entries = suffixes.eraseDups.flatMap (pairEntries fields) := by
  induction suffixes using List.reverseRecOn with
  | nil => rfl
  | append_singleton suffixes x ih =>
      rw [copyPairs_append, List.eraseDups_append, List.flatMap_append, ← ih]
      by_cases hx : x ∈ suffixes
      · -- a repeated pair is copied over itself
        have hsrc : (copyPairs fields suffixes).get ("src_" ++ x) = fields.get ("src_" ++ x) := by
          rw [get_copyPairs, if_pos ⟨x, hx, .inl rfl⟩]
        have hdst : (copyPairs fields suffixes).get ("dst_" ++ x) = fields.get ("dst_" ++ x) := by
          rw [get_copyPairs, if_pos ⟨x, hx, .inr rfl⟩]
        rw [copyField_of_get hsrc, copyField_of_get hdst]
        simp [List.removeAll, hx]
      · have hsrc : (copyPairs fields suffixes).get ("src_" ++ x) = none := by
          rw [get_copyPairs, if_neg]
          rintro ⟨y, hy, h | h⟩
          · exact hx (src_inj h ▸ hy)
          · exact src_ne_dst h
        have hdst : (copyField fields (copyPairs fields suffixes) ("src_" ++ x)).get ("dst_" ++ x) =
            none := by
          rw [get_copyField, if_neg src_ne_dst.symm, get_copyPairs, if_neg]
          rintro ⟨y, hy, h | h⟩
          · exact src_ne_dst h.symm
          · exact hx (dst_inj h ▸ hy)
        rw [entries_copyField hdst, entries_copyField hsrc]
        simp [List.removeAll, hx, List.eraseDups_cons, pairEntries, srcOf, dstOf]

/-- The endpoints of the key fields are those of the layer. -/
theorem endpoints_keyFieldsOf (hkey : identity.key = suffixes.map srcDst) (fields : FieldMap) {x : String}
    (hx : x ∈ suffixes) : srcOf (keyFieldsOf identity fields) x = srcOf fields x ∧
      dstOf (keyFieldsOf identity fields) x = dstOf fields x := by
  have hmem : srcDst x ∈ identity.key := by
    rw [hkey]
    exact List.mem_map_of_mem hx
  exact ⟨get_keyFieldsOf fields hmem (.inl rfl), get_keyFieldsOf fields hmem (.inr rfl)⟩

end KeyFields

/-! ## What the sides show -/

/-- The text of an endpoint, one part a pair. -/
def sideText (suffixes : List String) (e : Endpoint) : String :=
  join "," (suffixes.eraseDups.filterMap fun x => (e x).map (sideStr ("src_" ++ x) x))

/-- The members of an endpoint's object; `spelling` is the prefix that the creating packet gave it. -/
def sideMembers (fmt : Formats) (protocol : ProtocolName) (spelling : String) (suffixes : List String)
    (e : Endpoint) : List (String × Json) :=
  suffixes.eraseDups.filterMap fun x =>
    (e x).map fun v => (spelling ++ x, fieldValueJson fmt protocol ("src_" ++ x) v)

/-- The spellings of the A and B endpoints of a stream. -/
def spellings (s : Stream) : String × String :=
  match s.initiator with
  | .aToB => ("src_", "dst_")
  | .bToA => ("dst_", "src_")

section Shown

variable {fmt : Formats} {s : Stream} {suffixes : List String}

/-- The pairs whose two fields are among the key fields. -/
def Paired (keyFields : FieldMap) (x : String) (v w : Value) : Prop :=
  srcOf keyFields x = some v ∧ dstOf keyFields x = some w

theorem sidePart_src {x : String} {v w : Value} (h : Paired s.keyFields x v w) :
    sidePart s.keyFields s.initiator ("src_" ++ x) v =
      match s.initiator with
      | .aToB => .pair (sideStr ("src_" ++ x) x v) (sideStr ("src_" ++ x) x w)
      | .bToA => .pair (sideStr ("src_" ++ x) x w) (sideStr ("src_" ++ x) x v) := by
  have hdst : s.keyFields.get ("dst_" ++ x) = some w := h.2
  rw [sidePart]
  simp only [stripPrefix_append, hdst]
  cases s.initiator <;> rw [sideStr_src_dst x w]

theorem sidePart_dst {x : String} {v w : Value} (h : Paired s.keyFields x v w) :
    sidePart s.keyFields s.initiator ("dst_" ++ x) w = .skip := by
  have hsrc : s.keyFields.get ("src_" ++ x) = some v := h.1
  rw [sidePart]
  simp only [stripPrefix_append, stripPrefix_src_dst, Option.any_some, hsrc, Option.isSome_some, if_true]

/-- The parts that one pair contributes to the sides. -/
theorem sideParts_pair {x : String} {v w : Value} (h : Paired s.keyFields x v w) :
    (pairEntries s.keyFields x).map (fun e => sidePart s.keyFields s.initiator e.1 e.2) =
      [match s.initiator with
        | .aToB => .pair (sideStr ("src_" ++ x) x v) (sideStr ("src_" ++ x) x w)
        | .bToA => .pair (sideStr ("src_" ++ x) x w) (sideStr ("src_" ++ x) x v), .skip] := by
  simp only [pairEntries, h.1, h.2, Option.toList_some, List.map_cons, List.map_nil, List.cons_append,
    List.nil_append, sidePart_src h, sidePart_dst h]

/-- The sides of a stream keyed by pairs are its two endpoints. -/
theorem endpointSides_pairs (hcondensed : s.condensed = none)
    (hentries : s.keyFields.entries = suffixes.eraseDups.flatMap (pairEntries s.keyFields))
    (hpaired : ∀ x ∈ suffixes, ∃ v w, Paired s.keyFields x v w) :
    endpointSides s = ⟨sideText suffixes (sideA s), sideText suffixes (sideB s), []⟩ := by
  have hpaired' : ∀ x ∈ suffixes.eraseDups, ∃ v w, Paired s.keyFields x v w :=
    fun x hx => hpaired x (List.mem_eraseDups.1 hx)
  rw [endpointSides]
  rw [hcondensed, hentries]
  simp only [sideText, sideA, sideB, collectSides, EndpointSides.mk.injEq]
  generalize suffixes.eraseDups = l at hpaired'
  have hparts : ∀ (g : SidePart → Option String) (part : String → Option String),
      (∀ x ∈ l, ((pairEntries s.keyFields x).map fun e =>
        sidePart s.keyFields s.initiator e.1 e.2).filterMap g = (part x).toList) →
      ((l.flatMap (pairEntries s.keyFields)).map fun e =>
        sidePart s.keyFields s.initiator e.1 e.2).filterMap g = l.filterMap part := by
    intro g part hx
    clear hpaired'
    induction l with
    | nil => rfl
    | cons x l ih =>
        rw [List.flatMap_cons, List.map_append, List.filterMap_append, hx x List.mem_cons_self,
          ih fun y hy => hx y (List.mem_cons_of_mem x hy)]
        cases hpart : part x <;> simp [hpart]
  refine ⟨?_, ?_, ?_⟩
  · rw [hparts _ _ ?_]
    intro x hx
    obtain ⟨v, w, h⟩ := hpaired' x hx
    rw [sideParts_pair h]
    cases s.initiator <;> simp [h.1, h.2]
  · rw [hparts _ _ ?_]
    intro x hx
    obtain ⟨v, w, h⟩ := hpaired' x hx
    rw [sideParts_pair h]
    cases s.initiator <;> simp [h.1, h.2]
  · rw [hparts _ (fun _ => none) ?_]
    · simp
    · intro x hx
      obtain ⟨v, w, h⟩ := hpaired' x hx
      rw [sideParts_pair h]
      cases s.initiator <;> simp

/-- What the loop of `endpoint_json` does with the two fields of a pair. -/
theorem endpointJsonStep_pair {x : String} {v w : Value} (h : Paired s.keyFields x v w)
    (acc : EndpointJson) :
    (pairEntries s.keyFields x).foldl (endpointJsonStep fmt s) acc =
      { acc with
        a := ((sideA s x).toList.foldl (fun m v => m.insert ((spellings s).1 ++ x)
          (fieldValueJson fmt s.protocol ("src_" ++ x) v)) acc.a)
        b := ((sideB s x).toList.foldl (fun m v => m.insert ((spellings s).2 ++ x)
          (fieldValueJson fmt s.protocol ("src_" ++ x) v)) acc.b) } := by
  have hsrc : s.keyFields.get ("src_" ++ x) = some v := h.1
  have hdst : s.keyFields.get ("dst_" ++ x) = some w := h.2
  simp only [pairEntries, h.1, h.2, Option.toList_some, List.map_cons, List.map_nil, List.cons_append,
    List.nil_append, List.foldl_cons, List.foldl_nil, endpointJsonStep, stripPrefix_append,
    stripPrefix_src_dst, hsrc, hdst, Option.any_some, Option.isSome_some, if_true, sideA, sideB, spellings]
  cases s.initiator <;> simp [h.1, h.2, fieldValueJson_src_dst]

/-- The objects of a stream keyed by pairs are its two endpoints. -/
theorem endpointJson_pairs (hcondensed : s.condensed = none)
    (hentries : s.keyFields.entries = suffixes.eraseDups.flatMap (pairEntries s.keyFields))
    (hpaired : ∀ x ∈ suffixes, ∃ v w, Paired s.keyFields x v w) :
    endpointJson fmt s =
      ⟨SortedMap.ofList (sideMembers fmt s.protocol (spellings s).1 suffixes (sideA s)),
        SortedMap.ofList (sideMembers fmt s.protocol (spellings s).2 suffixes (sideB s)), []⟩ := by
  have hpaired' : ∀ x ∈ suffixes.eraseDups, ∃ v w, Paired s.keyFields x v w :=
    fun x hx => hpaired x (List.mem_eraseDups.1 hx)
  rw [endpointJson]
  rw [hcondensed, hentries]
  simp only [sideMembers, SortedMap.ofList]
  generalize suffixes.eraseDups = l at hpaired'
  -- the accumulators of the two objects grow pair by pair
  have hloop : ∀ a b : JsonMap, (l.flatMap (pairEntries s.keyFields)).foldl (endpointJsonStep fmt s)
      ⟨a, b, []⟩ =
      ⟨(l.filterMap fun x => (sideA s x).map fun v => ((spellings s).1 ++ x,
          fieldValueJson fmt s.protocol ("src_" ++ x) v)).foldl (fun m e => m.insert e.1 e.2) a,
        (l.filterMap fun x => (sideB s x).map fun v => ((spellings s).2 ++ x,
          fieldValueJson fmt s.protocol ("src_" ++ x) v)).foldl (fun m e => m.insert e.1 e.2) b, []⟩ := by
    induction l with
    | nil => intro a b; rfl
    | cons x l ih =>
        intro a b
        obtain ⟨v, w, h⟩ := hpaired' x List.mem_cons_self
        rw [List.flatMap_cons, List.foldl_append, endpointJsonStep_pair h,
          ih fun y hy => hpaired' y (List.mem_cons_of_mem x hy)]
        cases hA : sideA s x <;> cases hB : sideB s x <;> simp [hA, hB]
  exact hloop [] []

end Shown

end Pktflow.View
