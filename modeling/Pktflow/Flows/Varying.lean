import Pktflow.Flows.Mirror

/-!
# Anchors, varying values and flow keys

A flow under a condense declaration has a key, and for each side of its ephemeral pair an anchor and the value
on the other side, which varies. Keys and anchors are sequences of words, so that they can be read back. In one
group the key determines the varying value (`SideOf.varying_of_key`). If the ephemeral pair is the only pair of
the key, the varying value determines the key too (`SideOf.key_of_varying`).
-/

set_option autoImplicit false

namespace Pktflow.Flows

open Pktflow.Core Pktflow.Lib

/-! ## Words -/

theorem isWord_encodeValue (v : Value) : IsWord (encodeValue v) := ⟨v, rfl⟩

/-- Concatenations of equally many words agree only if the words do. -/
theorem words_inj {xs ys : List KeyBuf} (hxs : ∀ x ∈ xs, IsWord x) (hys : ∀ y ∈ ys, IsWord y)
    (hlen : xs.length = ys.length) {s t : KeyBuf} (h : xs.flatten ++ s = ys.flatten ++ t) : xs = ys ∧ s = t := by
  have hflat : ∀ zs : List KeyBuf, zs.flatten = zs.flatMap id := fun zs => List.flatMap_id.symm
  rw [hflat, hflat] at h
  exact flatMap_inj_of_delimits xs ys (fun x hx => word_selfDelimiting x (hxs x hx)) hys hlen s t h

theorem encodeAll_eq_flatten (vs : List Value) : encodeAll vs = (vs.map encodeValue).flatten := by
  rw [encodeAll, List.flatMap_def]

theorem encodeAll_words {vs ws : List Value} (hlen : vs.length = ws.length) {s t : KeyBuf}
    (h : encodeAll vs ++ s = encodeAll ws ++ t) : vs.map encodeValue = ws.map encodeValue ∧ s = t := by
  rw [encodeAll_eq_flatten, encodeAll_eq_flatten] at h
  refine words_inj ?_ ?_ (by simpa using hlen) h
  · intro x hx
    obtain ⟨v, -, rfl⟩ := List.mem_map.1 hx
    exact isWord_encodeValue v
  · intro x hx
    obtain ⟨v, -, rfl⟩ := List.mem_map.1 hx
    exact isWord_encodeValue v

/-! ## Anchors and keys of one flow -/

/-- The number of words before the anchor's own. -/
def baseLength (eph : KeyField) : List KeyField → Nat
  | [] => 0
  | kf :: rest =>
      if kf.a = eph.a ∧ kf.b = eph.b then baseLength eph rest
      else (if kf.b.isSome then 2 else 1) + baseLength eph rest

/-- The encoding before the anchor is a sequence of words, as long for every flow. -/
theorem anchorBase_words {eph : KeyField} {f : FieldMap} {key : List KeyField} {base : KeyBuf}
    (h : anchorBase eph f key = some base) :
    ∃ ws : List KeyBuf, (∀ w ∈ ws, IsWord w) ∧ ws.length = baseLength eph key ∧ base = ws.flatten := by
  induction key generalizing base with
  | nil =>
      obtain rfl := Option.some.inj h
      exact ⟨[], (fun _ hw => by cases hw), rfl, rfl⟩
  | cons kf rest ih =>
      rw [anchorBase] at h
      rw [baseLength]
      by_cases hskip : kf.a = eph.a ∧ kf.b = eph.b
      · rw [if_pos hskip] at h ⊢
        exact ih h
      · rw [if_neg hskip] at h ⊢
        cases hb : kf.b with
        | none =>
            simp only [hb, Option.bind_eq_bind, Option.bind_eq_some_iff] at h
            obtain ⟨va, -, tail, htail, hbase⟩ := h
            obtain rfl := Option.some.inj hbase
            obtain ⟨ws, hws, hlen, rfl⟩ := ih htail
            refine ⟨encodeValue va :: ws, ?_, ?_, rfl⟩
            · exact List.forall_mem_cons.2 ⟨isWord_encodeValue va, hws⟩
            · simp [hlen, Nat.add_comm]
        | some b =>
            simp only [hb, Option.bind_eq_bind, Option.bind_eq_some_iff] at h
            obtain ⟨va, -, vb, -, tail, htail, hbase⟩ := h
            obtain rfl := Option.some.inj hbase
            obtain ⟨ws, hws, hlen, rfl⟩ := ih htail
            have hlength : ws.length + 1 + 1 = 2 + baseLength eph rest := by rw [hlen]; omega
            -- a pair gives two words, the smaller one first
            rw [sortedPair]
            by_cases hle : encodeValue va ≤ encodeValue vb
            · refine ⟨encodeValue va :: encodeValue vb :: ws, ?_, hlength, ?_⟩
              · exact List.forall_mem_cons.2 ⟨isWord_encodeValue va,
                  List.forall_mem_cons.2 ⟨isWord_encodeValue vb, hws⟩⟩
              · rw [if_pos hle, List.append_assoc]
                rfl
            · refine ⟨encodeValue vb :: encodeValue va :: ws, ?_, hlength, ?_⟩
              · exact List.forall_mem_cons.2 ⟨isWord_encodeValue vb,
                  List.forall_mem_cons.2 ⟨isWord_encodeValue va, hws⟩⟩
              · rw [if_neg hle, List.append_assoc]
                rfl

/-- A candidate of a flow: the base, and the two sides of its ephemeral pair. -/
structure SideOf (env : Env) (identity : StreamIdentity) (spec : CondenseSpec) (f : FieldMap)
    (c : CondenseCandidate) (base : KeyBuf) (own other : Value) : Prop where
  base_eq : anchorBase spec.ephemeral f identity.key = some base
  anchor : c.anchor = base ++ encodeValue own
  varying : c.varyingDigest = env.digest (encodeValue other)
  values : ∃ b, spec.ephemeral.b = some b ∧
    (f.get spec.ephemeral.a = some own ∧ f.get b = some other ∨
      f.get spec.ephemeral.a = some other ∧ f.get b = some own)

theorem sideOf_candidate {env : Env} {identity : StreamIdentity} {spec : CondenseSpec} {f : FieldMap}
    {cs : List CondenseCandidate} {c : CondenseCandidate}
    (h : condenseCandidates env identity spec f = some cs) (hc : c ∈ cs) :
    ∃ base own other, SideOf env identity spec f c base own other := by
  rw [condenseCandidates] at h
  simp only [Option.bind_eq_bind, Option.bind_eq_some_iff] at h
  obtain ⟨b, hb, va, hva, vb, hvb, base, hbase, hcs⟩ := h
  obtain rfl := Option.some.inj hcs
  have hfirst : SideOf env identity spec f
      ⟨base ++ encodeValue va, spec.ephemeral.a, va, env.digest (encodeValue vb), .aToB⟩ base va vb :=
    ⟨hbase, rfl, rfl, b, hb, .inl ⟨hva, hvb⟩⟩
  split at hc
  · obtain rfl := List.mem_singleton.1 hc
    exact ⟨base, va, vb, hfirst⟩
  · rcases List.mem_cons.1 hc with rfl | hc
    · exact ⟨base, va, vb, hfirst⟩
    · obtain rfl := List.mem_singleton.1 hc
      exact ⟨base, vb, va, ⟨hbase, rfl, rfl, b, hb, .inr ⟨hva, hvb⟩⟩⟩

section Flows

variable {env : Env} {identity : StreamIdentity} {spec : CondenseSpec} {f g : FieldMap}
  {c d : CondenseCandidate} {base base' : KeyBuf} {own own' other other' : Value}

/-- One anchor is one base and one value. -/
theorem SideOf.anchor_inj (hc : SideOf env identity spec f c base own other)
    (hd : SideOf env identity spec g d base' own' other') (h : c.anchor = d.anchor) :
    base = base' ∧ encodeValue own = encodeValue own' := by
  obtain ⟨ws, hws, hlen, rfl⟩ := anchorBase_words hc.base_eq
  obtain ⟨ws', hws', hlen', rfl⟩ := anchorBase_words hd.base_eq
  rw [hc.anchor, hd.anchor] at h
  obtain ⟨rfl, hown⟩ := words_inj hws hws' (hlen.trans hlen'.symm) h
  exact ⟨rfl, hown⟩

theorem mem_of_get {m : FieldMap} {name : FieldName} {v : Value} (h : m.get name = some v) :
    ∃ e ∈ m.entries, e.2 = v := by
  obtain ⟨e, he, rfl⟩ := Option.map_eq_some_iff.1 h
  exact ⟨e, List.mem_of_find?_eq_some he, rfl⟩

theorem SideOf.other_mem (hc : SideOf env identity spec f c base own other) : ∃ e ∈ f.entries, e.2 = other := by
  obtain ⟨b, -, ⟨-, hget⟩ | ⟨hget, -⟩⟩ := hc.values
  · exact mem_of_get hget
  · exact mem_of_get hget

/-- Equal tuples of words, component by component. -/
theorem words_filterMap {γ : Type} {p q : γ → Option Value} {l : List γ}
    (hsome : ∀ x ∈ l, (p x).isSome = (q x).isSome)
    (h : (l.filterMap p).map encodeValue = (l.filterMap q).map encodeValue) :
    ∀ x ∈ l, (p x).map encodeValue = (q x).map encodeValue := by
  induction l with
  | nil =>
      intro x hx
      cases hx
  | cons y l ih =>
      have hy := hsome y List.mem_cons_self
      have hrest := ih fun x hx => hsome x (List.mem_cons_of_mem y hx)
      refine List.forall_mem_cons.2 ?_
      cases hp : p y with
      | none =>
          rw [hp] at hy
          have hq : q y = none := by simpa using hy.symm
          rw [List.filterMap_cons_none hp, List.filterMap_cons_none hq] at h
          exact ⟨by rw [hq], hrest h⟩
      | some v =>
          rw [hp] at hy
          obtain ⟨w, hq⟩ := Option.isSome_iff_exists.1 hy.symm
          rw [List.filterMap_cons_some hp, List.filterMap_cons_some hq, List.map_cons, List.map_cons] at h
          obtain ⟨hword, htail⟩ := List.cons.inj h
          exact ⟨by rw [hq, Option.map_some, Option.map_some, hword], hrest htail⟩

/-- The sides of two flows with one key have the same words, or the words of the other side. -/
theorem sides_of_key_eq {key : List KeyField} (hf : HoldsKey key f) (hg : HoldsKey key g)
    (h : encodeAll (unpairedValues key f) ++ (encodeAll (sortedSides key f).1 ++ encodeAll (sortedSides key f).2) =
      encodeAll (unpairedValues key g) ++ (encodeAll (sortedSides key g).1 ++ encodeAll (sortedSides key g).2)) :
    ((aValues key f).map encodeValue = (aValues key g).map encodeValue ∧
        (bValues key f).map encodeValue = (bValues key g).map encodeValue) ∨
      ((aValues key f).map encodeValue = (bValues key g).map encodeValue ∧
        (bValues key f).map encodeValue = (aValues key g).map encodeValue) := by
  have hlen : ∀ {m : FieldMap}, HoldsKey key m →
      (aValues key m).length = (key.filter fun kf => kf.b.isSome).length ∧
        (bValues key m).length = (key.filter fun kf => kf.b.isSome).length :=
    fun hm => ⟨length_aValues hm, length_bValues hm⟩
  obtain ⟨hfa, hfb⟩ := hlen hf
  obtain ⟨hga, hgb⟩ := hlen hg
  obtain ⟨-, hsides⟩ := encodeAll_words (by rw [length_unpairedValues hf, length_unpairedValues hg]) h
  have hboth : ∀ {xs ys xs' ys' : List Value}, xs.length = xs'.length → ys.length = ys'.length →
      encodeAll xs ++ encodeAll ys = encodeAll xs' ++ encodeAll ys' →
      xs.map encodeValue = xs'.map encodeValue ∧ ys.map encodeValue = ys'.map encodeValue := by
    intro xs ys xs' ys' hx hy heq
    obtain ⟨hfirst, hsecond⟩ := encodeAll_words hx heq
    rw [← List.append_nil (encodeAll ys), ← List.append_nil (encodeAll ys')] at hsecond
    exact ⟨hfirst, (encodeAll_words hy hsecond).1⟩
  rcases sortedSides_cases key f with ⟨hf1, -⟩ | ⟨hf1, -⟩ <;>
    rcases sortedSides_cases key g with ⟨hg1, -⟩ | ⟨hg1, -⟩
  · rw [hf1, hg1] at hsides
    exact .inl (hboth (hfa.trans hga.symm) (hfb.trans hgb.symm) hsides)
  · rw [hf1, hg1] at hsides
    exact .inr (hboth (hfa.trans hgb.symm) (hfb.trans hga.symm) hsides)
  · rw [hf1, hg1] at hsides
    exact .inr (hboth (hfb.trans hga.symm) (hfa.trans hgb.symm) hsides).symm
  · rw [hf1, hg1] at hsides
    exact .inl (hboth (hfb.trans hgb.symm) (hfa.trans hga.symm) hsides).symm

theorem holdsKey_of_flowKey {key : FlowKey} {dir : PacketDirection}
    (hsort : identity.canonicalize = .endpointSort) (h : flowKey identity f = .ok (key, dir)) :
    HoldsKey identity.key f ∧ key = encodeAll (unpairedValues identity.key f) ++
      (encodeAll (sortedSides identity.key f).1 ++ encodeAll (sortedSides identity.key f).2) := by
  have hholds : HoldsKey identity.key f := by
    simp only [flowKey, hsort] at h
    cases hg : gatherSides f identity.key {} with
    | error e =>
        rw [hg] at h
        cases h
    | ok r => exact holdsKey_of_gatherSides hg
  rw [flowKey_eq hsort hholds] at h
  exact ⟨hholds, (Prod.mk.inj (Except.ok.inj h)).1.symm⟩

/-- One field of every pair. -/
def pairValues (pick : KeyField → FieldName → FieldName) (key : List KeyField) (f : FieldMap) : List Value :=
  key.filterMap fun kf => kf.b.bind fun b => f.get (pick kf b)

theorem aValues_eq (key : List KeyField) (f : FieldMap) : aValues key f = pairValues (fun kf _ => kf.a) key f := by
  refine congrArg (List.filterMap · key) (funext fun kf => ?_)
  cases kf.b <;> rfl

theorem bValues_eq (key : List KeyField) (f : FieldMap) : bValues key f = pairValues (fun _ b => b) key f := by
  refine congrArg (List.filterMap · key) (funext fun kf => ?_)
  cases kf.b <;> rfl

/-- A tuple of paired values, read component by component. -/
theorem pairValues_words {key : List KeyField} {pick pick' : KeyField → FieldName → FieldName}
    (hf : ∀ kf ∈ key, ∀ b, kf.b = some b → (f.get (pick kf b)).isSome = true)
    (hg : ∀ kf ∈ key, ∀ b, kf.b = some b → (g.get (pick' kf b)).isSome = true)
    (h : (pairValues pick key f).map encodeValue = (pairValues pick' key g).map encodeValue) {kf : KeyField}
    (hkf : kf ∈ key) {b : FieldName} (hb : kf.b = some b) :
    (f.get (pick kf b)).map encodeValue = (g.get (pick' kf b)).map encodeValue := by
  have hwords := words_filterMap ?_ h kf hkf
  · simpa only [hb, Option.bind_some] using hwords
  · intro x hx
    cases hxb : x.b with
    | none => rfl
    | some y => rw [Option.bind_some, Option.bind_some, hf x hx y hxb, hg x hx y hxb]

/-- In a group the flow key determines the varying value. -/
theorem SideOf.varying_of_key (hc : SideOf env identity spec f c base own other)
    (hd : SideOf env identity spec g d base' own' other') (hsort : identity.canonicalize = .endpointSort)
    (heph : spec.ephemeral ∈ identity.key) (hanchor : c.anchor = d.anchor) {key : FlowKey}
    {dir dir' : PacketDirection} (hkf : flowKey identity f = .ok (key, dir))
    (hkg : flowKey identity g = .ok (key, dir')) : encodeValue other = encodeValue other' := by
  obtain ⟨-, hown⟩ := hc.anchor_inj hd hanchor
  obtain ⟨hf, hkeyf⟩ := holdsKey_of_flowKey hsort hkf
  obtain ⟨hg, hkeyg⟩ := holdsKey_of_flowKey hsort hkg
  obtain ⟨b, hb, hvf⟩ := hc.values
  obtain ⟨b', hb', hvg⟩ := hd.values
  rw [hb] at hb'
  obtain rfl := Option.some.inj hb'
  have ha : ∀ {m : FieldMap}, HoldsKey identity.key m → ∀ x ∈ identity.key, ∀ y, x.b = some y →
      (m.get x.a).isSome = true := by
    intro m hm x hx y _
    obtain ⟨⟨v, hv⟩, -⟩ := hm x hx
    rw [hv]
    rfl
  have hbs : ∀ {m : FieldMap}, HoldsKey identity.key m → ∀ x ∈ identity.key, ∀ y, x.b = some y →
      (m.get y).isSome = true := by
    intro m hm x hx y hy
    obtain ⟨w, hw⟩ := (hm x hx).2 y hy
    rw [hw]
    rfl
  -- the two values of the pair are those of the other flow, in this order or the other
  have hsides := sides_of_key_eq hf hg (hkeyf.symm.trans hkeyg)
  simp only [aValues_eq, bValues_eq] at hsides
  rcases hsides with ⟨haa, hbb⟩ | ⟨hab, hba⟩
  · have h1 := pairValues_words (ha hf) (ha hg) haa heph hb
    have h2 := pairValues_words (hbs hf) (hbs hg) hbb heph hb
    rcases hvf with ⟨h3, h4⟩ | ⟨h3, h4⟩ <;> rcases hvg with ⟨h5, h6⟩ | ⟨h5, h6⟩ <;>
      simp only [h3, h4, h5, h6, Option.map_some, Option.some.injEq] at h1 h2 <;> grind
  · have h1 := pairValues_words (ha hf) (hbs hg) hab heph hb
    have h2 := pairValues_words (hbs hf) (ha hg) hba heph hb
    rcases hvf with ⟨h3, h4⟩ | ⟨h3, h4⟩ <;> rcases hvg with ⟨h5, h6⟩ | ⟨h5, h6⟩ <;>
      simp only [h3, h4, h5, h6, Option.map_some, Option.some.injEq] at h1 h2 <;> grind

/-! ### One pair -/

/-- The ephemeral pair is the only pair of the key. -/
def SolePair (identity : StreamIdentity) (spec : CondenseSpec) : Prop :=
  ∀ kf ∈ identity.key, kf.b.isSome = true → kf = spec.ephemeral

/-- The base is then the unpaired part of the key. -/
theorem anchorBase_sole {eph : KeyField} {b : FieldName} (hb : eph.b = some b) {key : List KeyField}
    (hsole : ∀ kf ∈ key, kf.b.isSome = true → kf = eph) (hf : HoldsKey key f) :
    anchorBase eph f key = some (encodeAll (unpairedValues key f)) := by
  induction key with
  | nil => rfl
  | cons kf rest ih =>
      have htail := ih (fun x hx => hsole x (List.mem_cons_of_mem kf hx)) hf.tail
      obtain ⟨⟨v, hv⟩, -⟩ := hf kf List.mem_cons_self
      rw [anchorBase]
      cases hkb : kf.b with
      | none =>
          have hskip : ¬(kf.a = eph.a ∧ none = eph.b) := by
            rintro ⟨-, hnone⟩
            rw [hb] at hnone
            cases hnone
          rw [if_neg hskip, htail]
          simp [unpairedValues, encodeAll, hkb, hv]
      | some b' =>
          have heq := hsole kf List.mem_cons_self (by rw [hkb]; rfl)
          rw [if_pos ⟨by rw [heq], by rw [← hkb, heq]⟩, htail]
          simp [unpairedValues, hkb]

/-- A tuple of one value over and over. -/
theorem encodeAll_sole {eph : KeyField} {key : List KeyField} {p : KeyField → Option Value} {v : Value}
    (hsole : ∀ kf ∈ key, kf.b.isSome = true → kf = eph) (hp : ∀ kf ∈ key, (p kf).isSome = kf.b.isSome)
    (hv : p eph = some v) :
    encodeAll (key.filterMap p) =
      (List.replicate (key.filter fun kf => kf.b.isSome).length (encodeValue v)).flatten := by
  have hall : key.filterMap p = List.replicate (key.filter fun kf => kf.b.isSome).length v := by
    rw [List.eq_replicate_iff]
    refine ⟨length_filterMap_of_isSome hp, ?_⟩
    intro w hw
    obtain ⟨kf, hkf, hpw⟩ := List.mem_filterMap.1 hw
    have heq := hsole kf hkf (by rw [← hp kf hkf, hpw]; rfl)
    rw [heq, hv] at hpw
    exact (Option.some.inj hpw).symm
  rw [hall, encodeAll_eq_flatten, List.map_replicate]

/-- The key of a flow with one pair, by the base and the two sides. -/
theorem SideOf.key_sole (hc : SideOf env identity spec f c base own other) (hsole : SolePair identity spec)
    (hsort : identity.canonicalize = .endpointSort) {key : FlowKey} {dir : PacketDirection}
    (hkey : flowKey identity f = .ok (key, dir)) :
    key = base ++ sortedPair
      (List.replicate (identity.key.filter fun kf => kf.b.isSome).length (encodeValue own)).flatten
      (List.replicate (identity.key.filter fun kf => kf.b.isSome).length (encodeValue other)).flatten := by
  obtain ⟨hf, rfl⟩ := holdsKey_of_flowKey hsort hkey
  obtain ⟨b, hb, hvalues⟩ := hc.values
  have hbase := Option.some.inj ((anchorBase_sole hb hsole hf).symm.trans hc.base_eq)
  have hA : ∀ v, f.get spec.ephemeral.a = some v → encodeAll (aValues identity.key f) =
      (List.replicate (identity.key.filter fun kf => kf.b.isSome).length (encodeValue v)).flatten := by
    intro v hv
    refine encodeAll_sole hsole ?_ ?_
    · intro kf hkf
      obtain ⟨⟨w, hw⟩, -⟩ := hf kf hkf
      cases hkb : kf.b <;> simp [hw]
    · rw [hb]
      exact hv
  have hB : ∀ v, f.get b = some v → encodeAll (bValues identity.key f) =
      (List.replicate (identity.key.filter fun kf => kf.b.isSome).length (encodeValue v)).flatten := by
    intro v hv
    refine encodeAll_sole hsole ?_ ?_
    · intro kf hkf
      cases hkb : kf.b with
      | none => rfl
      | some b' =>
          obtain ⟨w, hw⟩ := (hf kf hkf).2 b' hkb
          simp [hw]
    · rw [hb]
      exact hv
  rw [encode_sortedSides, hbase]
  rcases hvalues with ⟨ha, hb'⟩ | ⟨ha, hb'⟩
  · rw [hA own ha, hB other hb']
  · rw [hA other ha, hB own hb', sortedPair_comm]

/-- With one pair the varying value determines the flow key in a group. -/
theorem SideOf.key_of_varying (hc : SideOf env identity spec f c base own other)
    (hd : SideOf env identity spec g d base' own' other') (hsole : SolePair identity spec)
    (hsort : identity.canonicalize = .endpointSort) (hanchor : c.anchor = d.anchor) (hother : encodeValue other = encodeValue other') {key key' : FlowKey}
    {dir dir' : PacketDirection} (hkf : flowKey identity f = .ok (key, dir))
    (hkg : flowKey identity g = .ok (key', dir')) : key = key' := by
  obtain ⟨hbase, hown⟩ := hc.anchor_inj hd hanchor
  rw [hc.key_sole hsole hsort hkf, hd.key_sole hsole hsort hkg, hbase, hown, hother]

end Flows

end Pktflow.Flows
