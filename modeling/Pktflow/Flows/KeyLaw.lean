import Pktflow.Flows.Key
import Mathlib.Data.Sym.Sym2

/-!
# The canonical key law

For an `EndpointSort` identity the key of a field map is a faithful name of its unpaired values and of
the unordered pair of its endpoints, and within one key the direction tells the two orders apart.
-/

set_option autoImplicit false

namespace Pktflow.Flows

open Pktflow.Core Pktflow.Lib

/-- The values of the unpaired components, in key order. -/
def unpairedValues (key : List KeyField) (f : FieldMap) : List Value :=
  key.filterMap fun kf => match kf.b with | none => f.get kf.a | some _ => none

/-- The tuple of `a` values of the paired components. -/
def aValues (key : List KeyField) (f : FieldMap) : List Value :=
  key.filterMap fun kf => match kf.b with | none => none | some _ => f.get kf.a

/-- The tuple of `b` values of the paired components. -/
def bValues (key : List KeyField) (f : FieldMap) : List Value :=
  key.filterMap fun kf => match kf.b with | none => none | some b => f.get b

/-- The map holds every key field. -/
def HoldsKey (key : List KeyField) (f : FieldMap) : Prop :=
  ∀ kf ∈ key, (∃ v, f.get kf.a = some v) ∧ ∀ b, kf.b = some b → ∃ v, f.get b = some v

/-- Every value the map has for a key field is short at every nesting level. -/
def ShortKey (key : List KeyField) (f : FieldMap) : Prop :=
  ∀ kf ∈ key, (∀ v, f.get kf.a = some v → Short v) ∧
    ∀ b, kf.b = some b → ∀ v, f.get b = some v → Short v

/-- `g` is `f` with the `a` and `b` value of every paired component swapped. -/
def SwappedKey (key : List KeyField) (f g : FieldMap) : Prop :=
  ∀ kf ∈ key, match kf.b with
    | none => g.get kf.a = f.get kf.a
    | some b => g.get kf.a = f.get b ∧ g.get b = f.get kf.a

/-- The other direction. -/
def flipDirection : PacketDirection → PacketDirection
  | .aToB => .bToA
  | .bToA => .aToB

/-- Concatenated encodings of a tuple of values. -/
def encodeAll (vs : List Value) : KeyBuf := vs.flatMap encodeValue

theorem HoldsKey.tail {kf : KeyField} {key : List KeyField} {f : FieldMap}
    (h : HoldsKey (kf :: key) f) : HoldsKey key f :=
  fun x hx => h x (List.mem_cons_of_mem kf hx)

/-- Where every key field is present, the loop of `flow_key` encodes the three tuples. -/
theorem gatherSides_ok {f : FieldMap} :
    ∀ {key : List KeyField} (acc : Sides), HoldsKey key f →
      gatherSides f key acc = .ok
        { shared := acc.shared ++ encodeAll (unpairedValues key f)
          sideA := acc.sideA ++ encodeAll (aValues key f)
          sideB := acc.sideB ++ encodeAll (bValues key f) } := by
  intro key
  induction key with
  | nil =>
      intro acc _
      simp [gatherSides, unpairedValues, aValues, bValues, encodeAll]
  | cons kf key ih =>
      intro acc h
      obtain ⟨⟨va, hva⟩, hb⟩ := h kf List.mem_cons_self
      cases hkb : kf.b with
      | none =>
          simp only [gatherSides, hva, hkb]
          rw [ih _ h.tail]
          simp [unpairedValues, aValues, bValues, encodeAll, hkb, hva]
      | some b =>
          obtain ⟨vb, hvb⟩ := hb b hkb
          simp only [gatherSides, hva, hkb, hvb]
          rw [ih _ h.tail]
          simp [unpairedValues, aValues, bValues, encodeAll, hkb, hva, hvb]

/-- A tuple read off the key has as many entries as the key has such components. -/
theorem length_filterMap_of_isSome {α β : Type} {p : α → Bool} {g : α → Option β} {l : List α}
    (h : ∀ x ∈ l, (g x).isSome = p x) : (l.filterMap g).length = (l.filter p).length := by
  induction l with
  | nil => rfl
  | cons x l ih =>
      have hx := h x List.mem_cons_self
      have ih := ih fun y hy => h y (List.mem_cons_of_mem x hy)
      cases hg : g x with
      | none => rw [hg] at hx; simp [hg, ← hx, ih]
      | some b => rw [hg] at hx; simp [hg, ← hx, ih]

theorem length_unpairedValues {key : List KeyField} {f : FieldMap} (h : HoldsKey key f) :
    (unpairedValues key f).length = (key.filter fun kf => kf.b.isNone).length := by
  apply length_filterMap_of_isSome
  intro kf hkf
  obtain ⟨⟨v, hv⟩, -⟩ := h kf hkf
  cases hb : kf.b <;> simp [hv]

theorem length_aValues {key : List KeyField} {f : FieldMap} (h : HoldsKey key f) :
    (aValues key f).length = (key.filter fun kf => kf.b.isSome).length := by
  apply length_filterMap_of_isSome
  intro kf hkf
  obtain ⟨⟨v, hv⟩, -⟩ := h kf hkf
  cases hb : kf.b <;> simp [hv]

theorem length_bValues {key : List KeyField} {f : FieldMap} (h : HoldsKey key f) :
    (bValues key f).length = (key.filter fun kf => kf.b.isSome).length := by
  apply length_filterMap_of_isSome
  intro kf hkf
  cases hb : kf.b with
  | none => rfl
  | some b =>
      obtain ⟨v, hv⟩ := (h kf hkf).2 b hb
      simp [hv]

theorem short_of_mem_unpairedValues {key : List KeyField} {f : FieldMap} (h : ShortKey key f) :
    ∀ v ∈ unpairedValues key f, Short v := by
  intro v hv
  obtain ⟨kf, hkf, hv⟩ := List.mem_filterMap.1 hv
  cases hb : kf.b with
  | none => exact (h kf hkf).1 v (by simpa [hb] using hv)
  | some b => simp [hb] at hv

theorem short_of_mem_aValues {key : List KeyField} {f : FieldMap} (h : ShortKey key f) :
    ∀ v ∈ aValues key f, Short v := by
  intro v hv
  obtain ⟨kf, hkf, hv⟩ := List.mem_filterMap.1 hv
  cases hb : kf.b with
  | none => simp [hb] at hv
  | some b => exact (h kf hkf).1 v (by simpa [hb] using hv)

theorem short_of_mem_bValues {key : List KeyField} {f : FieldMap} (h : ShortKey key f) :
    ∀ v ∈ bValues key f, Short v := by
  intro v hv
  obtain ⟨kf, hkf, hv⟩ := List.mem_filterMap.1 hv
  cases hb : kf.b with
  | none => simp [hb] at hv
  | some b => exact (h kf hkf).2 b hb v (by simpa [hb] using hv)

/-- The endpoints in canonical order: the one with the smaller encoding first. -/
def sortedSides (key : List KeyField) (f : FieldMap) : List Value × List Value :=
  if encodeAll (aValues key f) ≤ encodeAll (bValues key f) then (aValues key f, bValues key f)
  else (bValues key f, aValues key f)

/-- The direction as `flow_key` computes it from the encoded endpoints. -/
def sidesDirection (key : List KeyField) (f : FieldMap) : PacketDirection :=
  if encodeAll (aValues key f) ≤ encodeAll (bValues key f) then .aToB else .bToA

/-- The key of a map that holds every key field: unpaired values, smaller and larger endpoint. -/
theorem flowKey_eq {identity : StreamIdentity} {f : FieldMap}
    (hc : identity.canonicalize = .endpointSort) (h : HoldsKey identity.key f) :
    flowKey identity f = .ok
      (encodeAll (unpairedValues identity.key f) ++ (encodeAll (sortedSides identity.key f).1 ++
        encodeAll (sortedSides identity.key f).2), sidesDirection identity.key f) := by
  simp only [flowKey, hc, gatherSides_ok {} h, List.nil_append, Sides.key, Sides.direction,
    sortedSides, sidesDirection]
  by_cases hle : encodeAll (aValues identity.key f) ≤ encodeAll (bValues identity.key f)
  · simp only [if_pos hle, List.append_assoc]
  · simp only [if_neg hle, List.append_assoc]

section Pair

variable {key : List KeyField} {f g : FieldMap}

/-- Equal encodings of tuples of short values of one length come from equal tuples. -/
theorem encodeAll_inj {vs ws : List Value} (hv : ∀ v ∈ vs, Short v) (hw : ∀ w ∈ ws, Short w)
    (hlen : vs.length = ws.length) {s t : List UInt8}
    (h : encodeAll vs ++ s = encodeAll ws ++ t) : vs = ws ∧ s = t :=
  flatMap_inj_of_delimits vs ws (fun x hx => encodeValue_selfDelimiting x (hv x hx)) hw hlen s t h

theorem sides_eq_of_encode_eq (h : HoldsKey key f) (hs : ShortKey key f)
    (he : encodeAll (aValues key f) = encodeAll (bValues key f)) : aValues key f = bValues key f := by
  have hlen : (aValues key f).length = (bValues key f).length := by
    rw [length_aValues h, length_bValues h]
  exact (encodeAll_inj (s := []) (t := []) (short_of_mem_aValues hs) (short_of_mem_bValues hs) hlen
    (by simpa using he)).1

/-- The sorted endpoints are the two endpoints, in one of the two orders. -/
theorem sortedSides_cases (key : List KeyField) (f : FieldMap) :
    sortedSides key f = (aValues key f, bValues key f) ∧ sidesDirection key f = .aToB ∨
      sortedSides key f = (bValues key f, aValues key f) ∧ sidesDirection key f = .bToA ∧
        aValues key f ≠ bValues key f := by
  unfold sortedSides sidesDirection
  by_cases h : encodeAll (aValues key f) ≤ encodeAll (bValues key f)
  · exact Or.inl ⟨by rw [if_pos h], by rw [if_pos h]⟩
  · refine Or.inr ⟨by rw [if_neg h], by rw [if_neg h], fun he => h ?_⟩
    rw [he]
    exact List.le_refl _

/-- Sorting forgets the order of the endpoints and nothing else. -/
theorem sortedSides_eq_iff (hf : HoldsKey key f) (hsf : ShortKey key f) :
    sortedSides key f = sortedSides key g ↔
      s(aValues key f, bValues key f) = s(aValues key g, bValues key g) := by
  rw [Sym2.eq_iff]
  constructor
  · intro h
    rcases sortedSides_cases key f with ⟨h1, -⟩ | ⟨h1, -⟩ <;>
      rcases sortedSides_cases key g with ⟨h2, -⟩ | ⟨h2, -⟩ <;>
      rw [h1, h2, Prod.mk.injEq] at h
    · exact Or.inl h
    · exact Or.inr h
    · exact Or.inr ⟨h.2, h.1⟩
    · exact Or.inl ⟨h.2, h.1⟩
  · rintro (⟨ha, hb⟩ | ⟨ha, hb⟩)
    · simp only [sortedSides, ha, hb]
    · -- the endpoints are exchanged: both comparisons hold only if the encodings are equal
      unfold sortedSides
      rw [← ha, ← hb]
      by_cases h1 : encodeAll (aValues key f) ≤ encodeAll (bValues key f)
      · by_cases h2 : encodeAll (bValues key f) ≤ encodeAll (aValues key f)
        · rw [if_pos h1, if_pos h2, sides_eq_of_encode_eq hf hsf (List.le_antisymm h1 h2)]
        · rw [if_pos h1, if_neg h2]
      · have h2 : encodeAll (bValues key f) ≤ encodeAll (aValues key f) := Std.le_of_not_ge h1
        rw [if_neg h1, if_pos h2]

/-- Two maps have one key exactly if their unpaired values and their sorted endpoints agree. -/
theorem keyBytes_eq_iff (hf : HoldsKey key f) (hg : HoldsKey key g) (hsf : ShortKey key f)
    (hsg : ShortKey key g) :
    encodeAll (unpairedValues key f) ++ (encodeAll (sortedSides key f).1 ++
        encodeAll (sortedSides key f).2) =
      encodeAll (unpairedValues key g) ++ (encodeAll (sortedSides key g).1 ++
        encodeAll (sortedSides key g).2) ↔
      unpairedValues key f = unpairedValues key g ∧ sortedSides key f = sortedSides key g := by
  have hshort : ∀ {x : FieldMap}, ShortKey key x → (∀ v ∈ (sortedSides key x).1, Short v) ∧
      ∀ v ∈ (sortedSides key x).2, Short v := by
    intro x hx
    rcases sortedSides_cases key x with ⟨h, -⟩ | ⟨h, -⟩ <;> rw [h]
    · exact ⟨short_of_mem_aValues hx, short_of_mem_bValues hx⟩
    · exact ⟨short_of_mem_bValues hx, short_of_mem_aValues hx⟩
  have hlen : ∀ {x : FieldMap}, HoldsKey key x →
      (sortedSides key x).1.length = (key.filter fun kf => kf.b.isSome).length ∧
      (sortedSides key x).2.length = (key.filter fun kf => kf.b.isSome).length := by
    intro x hx
    rcases sortedSides_cases key x with ⟨h, -⟩ | ⟨h, -⟩ <;> rw [h]
    · exact ⟨length_aValues hx, length_bValues hx⟩
    · exact ⟨length_bValues hx, length_aValues hx⟩
  constructor
  · intro h
    obtain ⟨hu, hrest⟩ := encodeAll_inj (short_of_mem_unpairedValues hsf)
      (short_of_mem_unpairedValues hsg)
      (by rw [length_unpairedValues hf, length_unpairedValues hg]) h
    obtain ⟨hlo, hhi⟩ := encodeAll_inj (hshort hsf).1 (hshort hsg).1
      (by rw [(hlen hf).1, (hlen hg).1]) hrest
    obtain ⟨hhi', -⟩ := encodeAll_inj (s := []) (t := []) (hshort hsf).2 (hshort hsg).2
      (by rw [(hlen hf).2, (hlen hg).2]) (by simpa using hhi)
    exact ⟨hu, Prod.ext hlo hhi'⟩
  · rintro ⟨hu, hs⟩
    rw [hu, hs]

/-- Swapping exchanges the endpoint tuples and keeps the unpaired values. -/
theorem swappedKey_values (h : SwappedKey key f g) :
    unpairedValues key g = unpairedValues key f ∧ aValues key g = bValues key f ∧
      bValues key g = aValues key f := by
  refine ⟨?_, ?_, ?_⟩
  · apply List.filterMap_congr
    intro kf hkf
    have hkf' := h kf hkf
    cases hb : kf.b with
    | none => simpa [hb] using hkf'
    | some b => rfl
  · apply List.filterMap_congr
    intro kf hkf
    have hkf' := h kf hkf
    cases hb : kf.b with
    | none => rfl
    | some b => rw [hb] at hkf'; exact hkf'.1
  · apply List.filterMap_congr
    intro kf hkf
    have hkf' := h kf hkf
    cases hb : kf.b with
    | none => rfl
    | some b => rw [hb] at hkf'; exact hkf'.2

end Pair

/-- Exchanged sides that differ have the other direction. -/
theorem sidesDirection_swapped {key : List KeyField} {f g : FieldMap} (ha : aValues key g = bValues key f)
    (hb : bValues key g = aValues key f) (hne : encodeAll (aValues key f) ≠ encodeAll (bValues key f)) :
    sidesDirection key g = flipDirection (sidesDirection key f) := by
  unfold sidesDirection
  rw [ha, hb]
  by_cases h1 : encodeAll (aValues key f) ≤ encodeAll (bValues key f)
  · by_cases h2 : encodeAll (bValues key f) ≤ encodeAll (aValues key f)
    · exact absurd (List.le_antisymm h1 h2) hne
    · rw [if_pos h1, if_neg h2]
      rfl
  · have h2 : encodeAll (bValues key f) ≤ encodeAll (aValues key f) := Std.le_of_not_ge h1
    rw [if_neg h1, if_pos h2]
    rfl

/-- **The canonical key law.** For an `EndpointSort` identity and two maps that hold every key field
with short values: exchanging the endpoints keeps the key and flips the direction, except that equal
endpoints are `AtoB` both times; the keys are equal exactly if the unpaired values and the unordered
pairs of endpoints are; and within one key the directions are equal exactly if the ordered pairs of
endpoints are. -/
theorem flowKey_canonical (identity : StreamIdentity)
    (hc : identity.canonicalize = .endpointSort) (f g : FieldMap)
    (hf : HoldsKey identity.key f) (hg : HoldsKey identity.key g)
    (hsf : ShortKey identity.key f) (hsg : ShortKey identity.key g) :
    ∃ kf df kg dg, flowKey identity f = .ok (kf, df) ∧ flowKey identity g = .ok (kg, dg) ∧
      (SwappedKey identity.key f g → kg = kf ∧
        if aValues identity.key f = bValues identity.key f then df = .aToB ∧ dg = .aToB
        else dg = flipDirection df) ∧
      (kf = kg ↔ unpairedValues identity.key f = unpairedValues identity.key g ∧
        s(aValues identity.key f, bValues identity.key f) =
          s(aValues identity.key g, bValues identity.key g)) ∧
      (kf = kg → (df = dg ↔ (aValues identity.key f, bValues identity.key f) =
        (aValues identity.key g, bValues identity.key g))) := by
  refine ⟨_, _, _, _, flowKey_eq hc hf, flowKey_eq hc hg, ?_, ?_, ?_⟩
  · intro hsw
    obtain ⟨hu, ha, hb⟩ := swappedKey_values hsw
    refine ⟨?_, ?_⟩
    · rw [keyBytes_eq_iff hg hf hsg hsf, sortedSides_eq_iff hg hsg, ha, hb]
      exact ⟨hu, Sym2.eq_swap⟩
    · split
      · rename_i heq
        rcases sortedSides_cases identity.key f with ⟨-, hd⟩ | ⟨-, -, hne⟩
        · rcases sortedSides_cases identity.key g with ⟨-, hd'⟩ | ⟨-, -, hne'⟩
          · exact ⟨hd, hd'⟩
          · exact absurd (by rw [ha, hb, heq]) hne'
        · exact absurd heq hne
      · rename_i hne
        exact sidesDirection_swapped ha hb fun heq => hne (sides_eq_of_encode_eq hf hsf heq)
  · rw [keyBytes_eq_iff hf hg hsf hsg, sortedSides_eq_iff hf hsf]
  -- one key has the same two sides in order, so the directions tell which way round they were
  · intro hk
    obtain ⟨-, hsides⟩ := (keyBytes_eq_iff hf hg hsf hsg).1 hk
    rcases sortedSides_cases identity.key f with ⟨h1, hd1⟩ | ⟨h1, hd1, hne1⟩ <;>
      rcases sortedSides_cases identity.key g with ⟨h2, hd2⟩ | ⟨h2, hd2, hne2⟩ <;>
      rw [h1, h2, Prod.mk.injEq] at hsides <;>
      rw [hd1, hd2, Prod.mk.injEq]
    · exact ⟨fun _ => hsides, fun _ => rfl⟩
    · -- the tuples of `f` are those of `g` exchanged, and the endpoints of `g` differ
      refine ⟨fun h => (by cases h), fun h => absurd ?_ hne2⟩
      exact h.1.symm.trans hsides.1
    · refine ⟨fun h => (by cases h), fun h => absurd ?_ hne1⟩
      exact h.1.trans hsides.1.symm
    · exact ⟨fun _ => ⟨hsides.2, hsides.1⟩, fun _ => rfl⟩

/-- One paired component, as in the transport protocols. -/
def pairIdentity : StreamIdentity where
  key := [⟨"src", some "dst"⟩]
  canonicalize := .endpointSort
  lifecycle := none
  rollups := []

/-- The field map of a layer from `src` to `dst`. -/
def pairFields (src dst : UInt64) : FieldMap := ⟨[("src", .u64 src), ("dst", .u64 dst)]⟩

theorem pairFields_holdsKey (src dst : UInt64) : HoldsKey pairIdentity.key (pairFields src dst) := by
  intro kf hkf
  obtain rfl := List.mem_singleton.1 hkf
  exact ⟨⟨.u64 src, rfl⟩, fun b hb => by obtain rfl := Option.some.inj hb; exact ⟨.u64 dst, rfl⟩⟩

theorem pairFields_shortKey (src dst : UInt64) : ShortKey pairIdentity.key (pairFields src dst) := by
  intro kf hkf
  obtain rfl := List.mem_singleton.1 hkf
  refine ⟨fun v hv => ?_, fun b hb v hv => ?_⟩
  · obtain rfl : Value.u64 src = v := Option.some.inj hv
    exact .u64 src
  · obtain rfl := Option.some.inj hb
    obtain rfl : Value.u64 dst = v := Option.some.inj hv
    exact .u64 dst

/-- The two directions of one conversation between distinct endpoints. -/
theorem flowKey_canonical_pair :
    ∃ k, flowKey pairIdentity (pairFields 1 2) = .ok (k, .aToB) ∧
      flowKey pairIdentity (pairFields 2 1) = .ok (k, .bToA) := by
  obtain ⟨kf, df, kg, dg, h1, h2, hswap, -, -⟩ := flowKey_canonical pairIdentity rfl
    (pairFields 1 2) (pairFields 2 1) (pairFields_holdsKey 1 2) (pairFields_holdsKey 2 1)
    (pairFields_shortKey 1 2) (pairFields_shortKey 2 1)
  have hswapped : SwappedKey pairIdentity.key (pairFields 1 2) (pairFields 2 1) := by
    intro kf hkf
    obtain rfl := List.mem_singleton.1 hkf
    exact ⟨rfl, rfl⟩
  obtain ⟨rfl, hdir⟩ := hswap hswapped
  have hd : sidesDirection pairIdentity.key (pairFields 1 2) = .aToB := by decide
  have hdf : df = .aToB := by
    rw [flowKey_eq rfl (pairFields_holdsKey 1 2), hd] at h1
    exact (Prod.mk.inj (Except.ok.inj h1)).2.symm
  subst hdf
  rw [if_neg (by decide)] at hdir
  exact ⟨kg, h1, by rw [h2, hdir]; rfl⟩

end Pktflow.Flows
