import Pktflow.Flows.Store
import Mathlib.Logic.Relation

/-!
# Matches and their ancestors

Model of `matching_with_ancestors` (`pktflow-view/src/query.rs`). From each match it walks up the parents
and stops at the first one already kept. What is kept before that is closed under parents but for the place
where the walk stands (`ClosedBut`), so the early stop loses nothing: the result is the matches and all
their ancestors (`mem_matchingWithAncestors`).
-/

set_option autoImplicit false

namespace Pktflow.View

open Pktflow.Flows

/-- The parents a map of streams leads to. -/
def ParentIn (ids : StreamId → Option Stream) (s p : Stream) : Prop := s.parent.bind ids = some p

/-- `p` is `s` or an ancestor of it. -/
def AncestorOrSelf (ids : StreamId → Option Stream) (s p : Stream) : Prop :=
  Relation.ReflTransGen (ParentIn ids) s p

/-- The walk up from a parent, with fuel for the streams above. -/
def keepAncestors (ids : StreamId → Option Stream) : Nat → Option StreamId → Finset Nat → Finset Nat
  | 0, _, keep => keep
  | n + 1, cursor, keep =>
      match cursor.bind ids with
      | none => keep
      | some parent =>
          if parent.createdSeq ∈ keep then keep
          else keepAncestors ids n parent.parent (insert parent.createdSeq keep)

/-- One stream of the loop over all. -/
def keepMatch (ids : StreamId → Option Stream) (isMatch : Stream → Bool) (fuel : Nat) (keep : Finset Nat)
    (s : Stream) : Finset Nat :=
  if isMatch s then keepAncestors ids fuel s.parent (insert s.createdSeq keep) else keep

/-- `matching_with_ancestors`. -/
def matchingWithAncestors (streams : List Stream) (ids : StreamId → Option Stream) (isMatch : Stream → Bool) :
    Finset Nat :=
  streams.foldl (keepMatch ids isMatch streams.length) ∅

/-- The map knows exactly the streams of the list, which have numbers of their own and parents of lower
rank. -/
structure Lists (streams : List Stream) (ids : StreamId → Option Stream) (rank : Stream → Nat) : Prop where
  known : ∀ {i : StreamId} {p : Stream}, ids i = some p → p ∈ streams
  seq_inj : ∀ s ∈ streams, ∀ t ∈ streams, s.createdSeq = t.createdSeq → s = t
  lower : ∀ {s p : Stream}, s ∈ streams → ParentIn ids s p → rank p < rank s

section Walk

variable {streams : List Stream} {ids : StreamId → Option Stream} {rank : Stream → Nat}
  {keep : Finset Nat} {cursor : Option StreamId} {s p : Stream}

theorem Lists.parent_mem (h : Lists streams ids rank) (hp : ParentIn ids s p) : p ∈ streams := by
  obtain ⟨i, -, hi⟩ := Option.bind_eq_some_iff.1 hp
  exact h.known hi

theorem Lists.ancestor_mem (h : Lists streams ids rank) (hs : s ∈ streams) (hp : AncestorOrSelf ids s p) :
    p ∈ streams := by
  induction hp with
  | refl => exact hs
  | tail _ hq _ => exact h.parent_mem hq

/-- The streams below a rank. -/
def below (streams : List Stream) (rank : Stream → Nat) (n : Nat) : Nat :=
  (streams.filter fun s => rank s < n).length

theorem below_lt {n : Nat} (hs : s ∈ streams) (hn : rank s < n) : below streams rank (rank s) < below streams rank n := by
  rw [below]
  have hsub : (streams.filter fun t => decide (rank t < rank s)) =
      (streams.filter fun t => decide (rank t < n)).filter fun t => decide (rank t < rank s) := by
    rw [List.filter_filter]
    apply List.filter_congr
    intro t _
    rw [Bool.eq_iff_iff]
    simp only [Bool.and_eq_true, decide_eq_true_eq]
    omega
  rw [hsub]
  apply List.length_filter_lt_length_iff_exists.2
  exact ⟨s, List.mem_filter.2 ⟨hs, by simpa using hn⟩, by simp⟩

/-- What is kept is closed under parents, but for streams whose parent the walk stands at. -/
def ClosedBut (streams : List Stream) (ids : StreamId → Option Stream) (cursor : Option StreamId)
    (keep : Finset Nat) : Prop :=
  ∀ s ∈ streams, s.createdSeq ∈ keep → ∀ p, ParentIn ids s p → p.createdSeq ∈ keep ∨ s.parent = cursor

/-- The walk closes what is kept, with ancestors of where it stands. -/
theorem keepAncestors_spec (h : Lists streams ids rank) (n : Nat)
    (hn : ∀ p, cursor.bind ids = some p → below streams rank (rank p) < n)
    (hclosed : ClosedBut streams ids cursor keep) :
    ClosedBut streams ids none (keepAncestors ids n cursor keep) ∧ keep ⊆ keepAncestors ids n cursor keep ∧
      ∀ q ∈ keepAncestors ids n cursor keep, q ∈ keep ∨
        ∃ p t, cursor.bind ids = some p ∧ AncestorOrSelf ids p t ∧ t.createdSeq = q := by
  -- where the walk ends, nothing is left to be closed
  have hend : ∀ {cursor : Option StreamId} {keep : Finset Nat}, ClosedBut streams ids cursor keep →
      (∀ p, cursor.bind ids = some p → p.createdSeq ∈ keep) → ClosedBut streams ids none keep := by
    intro cursor keep hclosed hparent s hs hkept p hp
    rcases hclosed s hs hkept p hp with hin | hat
    · exact .inl hin
    · exact .inl (hparent p (hat ▸ hp))
  induction n generalizing cursor keep with
  | zero =>
      refine ⟨hend hclosed fun p hp => absurd (hn p hp) (Nat.not_lt_zero _), subset_rfl, fun q hq => .inl hq⟩
  | succ n ih =>
      rw [keepAncestors]
      cases hparent : cursor.bind ids with
      | none =>
          refine ⟨hend hclosed fun p hp => ?_, subset_rfl, fun q hq => .inl hq⟩
          rw [hparent] at hp
          cases hp
      | some parent =>
          dsimp only
          by_cases hin : parent.createdSeq ∈ keep
          · rw [if_pos hin]
            refine ⟨hend hclosed fun p hp => ?_, subset_rfl, fun q hq => .inl hq⟩
            rw [hparent] at hp
            obtain rfl := Option.some.inj hp
            exact hin
          · rw [if_neg hin]
            have hmem : parent ∈ streams := by
              obtain ⟨i, -, hi⟩ := Option.bind_eq_some_iff.1 hparent
              exact h.known hi
            have hfuel : ∀ p, parent.parent.bind ids = some p → below streams rank (rank p) < n := by
              intro p hp
              have hlt := below_lt (h.parent_mem hp) (h.lower hmem hp)
              have hle := hn parent hparent
              omega
            have hnext : ClosedBut streams ids parent.parent (insert parent.createdSeq keep) := by
              intro s hs hkept p hp
              rcases Finset.mem_insert.1 hkept with heq | hkept
              · exact .inr (by rw [h.seq_inj s hs parent hmem heq])
              · rcases hclosed s hs hkept p hp with hp' | hat
                · exact .inl (Finset.mem_insert_of_mem hp')
                · rw [ParentIn] at hp
                  rw [hat, hparent] at hp
                  obtain rfl := Option.some.inj hp
                  exact .inl (Finset.mem_insert_self _ _)
            obtain ⟨hclosed', hsub, hfrom⟩ := ih hfuel hnext
            refine ⟨hclosed', fun q hq => hsub (Finset.mem_insert_of_mem hq), fun q hq => ?_⟩
            rcases hfrom q hq with hq | ⟨p, t, hp, ht, rfl⟩
            · rcases Finset.mem_insert.1 hq with rfl | hq
              · exact .inr ⟨parent, parent, rfl, .refl, rfl⟩
              · exact .inl hq
            · exact .inr ⟨parent, t, rfl, .head hp ht, rfl⟩

end Walk

/-! ## All matches -/

/-- A stream that matches, or is an ancestor of one that does. -/
def Visible (streams : List Stream) (ids : StreamId → Option Stream) (isMatch : Stream → Bool) (t : Stream) :
    Prop :=
  ∃ s ∈ streams, isMatch s = true ∧ AncestorOrSelf ids s t

section Matching

variable {streams : List Stream} {ids : StreamId → Option Stream} {rank : Stream → Nat}
  {isMatch : Stream → Bool}

theorem below_lt_length {s : Stream} (hs : s ∈ streams) : below streams rank (rank s) < streams.length := by
  apply List.length_filter_lt_length_iff_exists.2
  exact ⟨s, hs, by simp⟩

/-- A closed set keeps the ancestors of what it keeps. -/
theorem ClosedBut.ancestors (h : Lists streams ids rank) {keep : Finset Nat}
    (hclosed : ClosedBut streams ids none keep) {s t : Stream} (hs : s ∈ streams) (hkept : s.createdSeq ∈ keep)
    (ht : AncestorOrSelf ids s t) : t.createdSeq ∈ keep := by
  induction ht with
  | refl => exact hkept
  | @tail p q hpath hq ih =>
      rcases hclosed p (h.ancestor_mem hs hpath) ih q hq with hin | hnone
      · exact hin
      · rw [ParentIn] at hq
        rw [hnone] at hq
        cases hq

/-- What is kept after the streams looked at so far. -/
structure KeptFrom (streams : List Stream) (ids : StreamId → Option Stream) (isMatch : Stream → Bool)
    (pre : List Stream) (keep : Finset Nat) : Prop where
  closed : ClosedBut streams ids none keep
  mem : ∀ q, q ∈ keep ↔ ∃ t, Visible pre ids isMatch t ∧ t.createdSeq = q

theorem visible_snoc {pre : List Stream} {s t : Stream} :
    Visible (pre ++ [s]) ids isMatch t ↔
      Visible pre ids isMatch t ∨ isMatch s = true ∧ AncestorOrSelf ids s t := by
  rw [Visible]
  simp only [List.mem_append, List.mem_singleton]
  constructor
  · rintro ⟨u, hu | rfl, hmatch, ht⟩
    · exact .inl ⟨u, hu, hmatch, ht⟩
    · exact .inr ⟨hmatch, ht⟩
  · rintro (⟨u, hu, hmatch, ht⟩ | ⟨hmatch, ht⟩)
    · exact ⟨u, .inl hu, hmatch, ht⟩
    · exact ⟨s, .inr rfl, hmatch, ht⟩

/-- A match is kept, and what is open above it is closed by the walk. -/
theorem KeptFrom.of_match {pre : List Stream} {keep : Finset Nat} {s : Stream} (h : Lists streams ids rank)
    (hkept : KeptFrom streams ids isMatch pre keep) (hs : s ∈ streams) (hmatch : isMatch s = true) :
    KeptFrom streams ids isMatch (pre ++ [s])
      (keepAncestors ids streams.length s.parent (insert s.createdSeq keep)) := by
  have hstart : ClosedBut streams ids s.parent (insert s.createdSeq keep) := by
    intro t ht hin p hp
    rcases Finset.mem_insert.1 hin with heq | hin
    · exact .inr (by rw [h.seq_inj t ht s hs heq])
    · rcases hkept.closed t ht hin p hp with hp' | hnone
      · exact .inl (Finset.mem_insert_of_mem hp')
      · rw [ParentIn] at hp
        rw [hnone] at hp
        cases hp
  obtain ⟨hclosed, hsub, hfrom⟩ := keepAncestors_spec h streams.length
    (fun p hp => below_lt_length (h.parent_mem hp)) hstart
  refine ⟨hclosed, fun q => ⟨fun hq => ?_, ?_⟩⟩
  · rcases hfrom q hq with hq | ⟨p, t, hp, ht, hq⟩
    · rcases Finset.mem_insert.1 hq with rfl | hq
      · exact ⟨s, visible_snoc.2 (.inr ⟨hmatch, .refl⟩), rfl⟩
      · obtain ⟨t, ht, hq⟩ := (hkept.mem q).1 hq
        exact ⟨t, visible_snoc.2 (.inl ht), hq⟩
    · exact ⟨t, visible_snoc.2 (.inr ⟨hmatch, .head hp ht⟩), hq⟩
  · rintro ⟨t, ht, rfl⟩
    rcases visible_snoc.1 ht with ht | ⟨-, ht⟩
    · exact hsub (Finset.mem_insert_of_mem ((hkept.mem _).2 ⟨t, ht, rfl⟩))
    · exact hclosed.ancestors h hs (hsub (Finset.mem_insert_self _ _)) ht

theorem KeptFrom.step {pre : List Stream} {keep : Finset Nat} {s : Stream} (h : Lists streams ids rank)
    (hkept : KeptFrom streams ids isMatch pre keep) (hs : s ∈ streams) :
    KeptFrom streams ids isMatch (pre ++ [s]) (keepMatch ids isMatch streams.length keep s) := by
  rw [keepMatch]
  cases hmatch : isMatch s with
  | true =>
      rw [if_pos rfl]
      exact hkept.of_match h hs hmatch
  | false =>
      rw [if_neg Bool.false_ne_true]
      refine ⟨hkept.closed, fun q => ?_⟩
      rw [hkept.mem]
      apply exists_congr
      intro t
      rw [visible_snoc, hmatch]
      simp

theorem keptFrom_foldl (h : Lists streams ids rank) (pre : List Stream) (hpre : ∀ s ∈ pre, s ∈ streams) :
    KeptFrom streams ids isMatch pre (pre.foldl (keepMatch ids isMatch streams.length) ∅) := by
  induction pre using List.reverseRecOn with
  | nil => exact ⟨fun s _ hkept => absurd hkept (Finset.notMem_empty _), fun q => by simp [Visible]⟩
  | append_singleton pre s ih =>
      have hkept := ih fun t ht => hpre t (List.mem_append_left _ ht)
      rw [List.foldl_append]
      exact hkept.step h (hpre s (List.mem_append_right _ (List.mem_singleton_self _)))

/-- The display ids of the matches and of all their ancestors, in whatever order the streams are listed. -/
theorem mem_matchingWithAncestors (h : Lists streams ids rank) (q : Nat) :
    q ∈ matchingWithAncestors streams ids isMatch ↔
      ∃ t, Visible streams ids isMatch t ∧ t.createdSeq = q :=
  (keptFrom_foldl h streams fun _ hs => hs).mem q

end Matching

/-! ## Forests -/

/-- The streams of a list form a forest, in whatever order they are listed: the map finds exactly them by
their ids, they have display ids of their own, and none is above itself. -/
structure IsForest (streams : List Stream) (ids : StreamId → Option Stream) : Prop where
  find_iff : ∀ {i : StreamId} {p : Stream}, ids i = some p ↔ p ∈ streams ∧ p.id = i
  seq_inj : ∀ s ∈ streams, ∀ t ∈ streams, s.createdSeq = t.createdSeq → s = t
  acyclic : ∀ s ∈ streams, ¬Relation.TransGen (ParentIn ids) s s

section Forests

variable {streams : List Stream} {ids : StreamId → Option Stream} {s p : Stream}

open Classical in
/-- The number of streams above one. -/
noncomputable def heightOf (streams : List Stream) (ids : StreamId → Option Stream) (s : Stream) : Nat :=
  (streams.toFinset.filter fun t => Relation.TransGen (ParentIn ids) s t).card

open Classical in
/-- A parent has fewer streams above it than its child: all of those, but not itself. -/
theorem IsForest.heightOf_lt (h : IsForest streams ids) (hp : ParentIn ids s p) :
    heightOf streams ids p < heightOf streams ids s := by
  have hmem : p ∈ streams := by
    obtain ⟨i, -, hi⟩ := Option.bind_eq_some_iff.1 hp
    exact (h.find_iff.1 hi).1
  apply Finset.card_lt_card
  apply (Finset.ssubset_iff_of_subset ?_).2
  · refine ⟨p, Finset.mem_filter.2 ⟨List.mem_toFinset.2 hmem, .single hp⟩, fun hin => ?_⟩
    exact h.acyclic p hmem (Finset.mem_filter.1 hin).2
  · intro t ht
    obtain ⟨htmem, habove⟩ := Finset.mem_filter.1 ht
    exact Finset.mem_filter.2 ⟨htmem, .head hp habove⟩

/-- A forest lists its streams, each below its parent. -/
theorem IsForest.lists (h : IsForest streams ids) : Lists streams ids (heightOf streams ids) where
  known := fun hi => (h.find_iff.1 hi).1
  seq_inj := h.seq_inj
  lower := fun _ hp => h.heightOf_lt hp

end Forests

end Pktflow.View
