import Pktflow.View.Paging
import Pktflow.Lib.Preorder

/-!
# Siblings and trees

The terminal lenses look up the children a stream lists, filter them and sort them by one key, stably; the
web lens filters an order of all streams by key and creation. In a well-formed snapshot children are listed
in creation order, so both give the same siblings (`siblings_children`, `siblings_roots`), and the lenses
walk the same tree, which lists every stream that is kept once (`mem_tree`, `nodup_tree`).
-/

set_option autoImplicit false

namespace Pktflow.View

open Pktflow.Core Pktflow.Flows Pktflow.Lib

/-- `sort_siblings`, of the terminal UI and of the command line. -/
def sortSiblings (order : SortKey) (streams : List Stream) : List Stream :=
  match order with
  | .bytes => sortByKey (fun s => OrderDual.toDual (totalBytes s)) streams
  | .packets => sortByKey (fun s => OrderDual.toDual (totalPackets s)) streams
  | .firstSeen => sortByKey Stream.createdSeq streams
  | .duration => sortByKey (fun s => OrderDual.toDual (nanosSince s.lastSeen s.firstSeen)) streams

/-- The siblings with these ids that are kept, sorted. -/
def siblings (ids : StreamId → Option Stream) (keep : Option (Finset Nat)) (order : SortKey)
    (l : List StreamId) : List Stream :=
  sortSiblings order ((l.filterMap ids).filter (keeps keep))

/-- The glyphs before a child's own branch: the branches above continue as lines or blanks. -/
def bareOf (glyphs : String) : String := (glyphs.replace "├─ " "│  ").replace "└─ " "   "

/-- The glyph of a branch. -/
def branchOf (last : Bool) : String := if last then "└─ " else "├─ "

/-- `by_id` of `stream_view.rs`. -/
def streamsById (streams : List Stream) (id : StreamId) : Option Stream :=
  collect (streams.map fun s => (s.id, s)) id

/-! ## The tree of a snapshot -/

/-- The children of a stream that are kept, in the order of the index. -/
def kidsOf (streams : List Stream) (keep : Option (Finset Nat)) (order : SortKey) (s : Stream) : List Stream :=
  (ranked streams order).filter fun t => inScope streams (.childrenOf s.createdSeq) t && keeps keep t

/-- The roots that are kept, in the order of the index. -/
def rootsOf (streams : List Stream) (keep : Option (Finset Nat)) (order : SortKey) : List Stream :=
  (ranked streams order).filter fun t => inScope streams .roots t && keeps keep t

/-- The tree of the streams that are kept, roots down. -/
def tree (streams : List Stream) (keep : Option (Finset Nat)) (order : SortKey) : List Stream :=
  Preorder.walks (kidsOf streams keep order) streams.length (rootsOf streams keep order)

/-- Streams created later were first seen no earlier. -/
def BornInOrder (snap : AggregatorSnapshot) : Prop :=
  ∀ s ∈ snap.streams, ∀ t ∈ snap.streams, s.createdSeq < t.createdSeq → s.firstSeen ≤ t.firstSeen

/-- The order of the index: by value, the greatest first, then by creation. -/
def Precedes (order : SortKey) : Stream → Stream → Prop :=
  Ordered (fun s => OrderDual.toDual (sortValue order s)) Stream.createdSeq

section Order

variable {snap : AggregatorSnapshot} {order : SortKey} {keep : Option (Finset Nat)} {s t : Stream}

theorem streamsById_eq (h : snap.WellFormed) : streamsById snap.streams = byId snap.streams := by
  funext i
  apply Option.ext
  intro s
  rw [byId_eq_some h]
  have hkeys : ((snap.streams.map fun s => (s.id, s)).map Prod.fst).Nodup := by
    rw [List.map_map]
    exact h.ids_nodup
  rw [streamsById, collect_eq_some hkeys, List.mem_map]
  constructor
  · rintro ⟨t, ht, heq⟩
    obtain ⟨rfl, rfl⟩ := Prod.mk.inj heq
    exact ⟨ht, rfl⟩
  · rintro ⟨hs, rfl⟩
    exact ⟨s, hs, rfl⟩

theorem ordered_ranked (h : snap.WellFormed) (order : SortKey) :
    (ranked snap.streams order).Pairwise (Precedes order) := by
  have hperm := perm_sortByKey (sortRank order) snap.streams
  have hle := pairwise_keys (sortRank order) snap.streams
  have hne := List.pairwise_map.1 ((hperm.map Stream.createdSeq).nodup_iff.2 (seqs_nodup h))
  apply (hle.and hne).imp
  rintro s t ⟨hst, hseq⟩
  rcases Prod.Lex.toLex_le_toLex.1 hst with hlt | ⟨heq, hle⟩
  · exact .inl hlt
  · exact .inr ⟨heq, lt_of_le_of_ne hle hseq⟩

/-- A stable sort of streams in creation order gives the order of the index. -/
theorem ordered_sortSiblings (hborn : BornInOrder snap) {l : List Stream}
    (hl : l.Pairwise fun s t => s.createdSeq < t.createdSeq) (hmem : ∀ s ∈ l, s ∈ snap.streams) :
    (sortSiblings order l).Pairwise (Precedes order) := by
  cases order with
  | bytes => exact pairwise_sortByKey hl
  | packets => exact pairwise_sortByKey hl
  | duration => exact pairwise_sortByKey hl
  | firstSeen =>
      have hsorted : sortByKey Stream.createdSeq l = l := (hl.imp fun h => le_of_lt h).insertionSort_eq
      show (sortByKey Stream.createdSeq l).Pairwise _
      rw [hsorted]
      apply hl.imp_of_mem
      intro s t hs ht hlt
      have hseen : nanosSince s.firstSeen 0 ≤ nanosSince t.firstSeen 0 :=
        Int.toNat_le_toNat (Int.sub_le_sub_right (hborn s (hmem s hs) t (hmem t ht) hlt) 0)
      have hvalue : sortValue .firstSeen t ≤ sortValue .firstSeen s := by
        simp only [sortValue]
        omega
      rcases lt_or_eq_of_le hvalue with hless | heq
      · exact .inl hless
      · exact .inr ⟨congrArg OrderDual.toDual heq.symm, hlt⟩

theorem mem_sortSiblings {l : List Stream} : s ∈ sortSiblings order l ↔ s ∈ l := by
  cases order <;> exact mem_sortByKey

theorem mem_siblings (h : snap.WellFormed) {l : List StreamId} :
    t ∈ siblings (byId snap.streams) keep order l ↔ t ∈ snap.streams ∧ t.id ∈ l ∧ keeps keep t = true := by
  rw [siblings, mem_sortSiblings, List.mem_filter, List.mem_filterMap]
  constructor
  · rintro ⟨⟨i, hi, hget⟩, hkeep⟩
    obtain ⟨ht, rfl⟩ := (byId_eq_some h).1 hget
    exact ⟨ht, hi, hkeep⟩
  · rintro ⟨ht, hi, hkeep⟩
    exact ⟨⟨t.id, hi, (byId_eq_some h).2 ⟨ht, rfl⟩⟩, hkeep⟩

/-- Siblings that are listed in creation order come in the order of the index. -/
theorem siblings_eq (h : snap.WellFormed) (hborn : BornInOrder snap) {l : List StreamId}
    (hl : l.Pairwise snap.CreatedBefore) {p : Stream → Bool}
    (hp : ∀ t ∈ snap.streams, p t = true ↔ t.id ∈ l ∧ keeps keep t = true) :
    siblings (byId snap.streams) keep order l = (ranked snap.streams order).filter p := by
  have hlookup : (l.filterMap (byId snap.streams)).Pairwise fun s t => s.createdSeq < t.createdSeq := by
    rw [List.pairwise_filterMap]
    apply hl.imp
    intro i j hij s hs t ht
    obtain ⟨hs, hi⟩ := (byId_eq_some h).1 hs
    obtain ⟨ht, hj⟩ := (byId_eq_some h).1 ht
    exact hij s hs t ht hi hj
  have hleft : (siblings (byId snap.streams) keep order l).Pairwise (Precedes order) := by
    apply ordered_sortSiblings hborn (hlookup.filter _)
    intro s hs
    obtain ⟨i, -, hget⟩ := List.mem_filterMap.1 (List.mem_filter.1 hs).1
    exact ((byId_eq_some h).1 hget).1
  apply eq_of_ordered hleft ((ordered_ranked h order).filter _)
  intro t
  rw [mem_siblings h, List.mem_filter, ranked, mem_sortByKey]
  apply and_congr_right
  intro ht
  exact (hp t ht).symm

theorem siblings_children (h : snap.WellFormed) (hborn : BornInOrder snap) (hs : s ∈ snap.streams) :
    siblings (byId snap.streams) keep order s.children = kidsOf snap.streams keep order s := by
  apply siblings_eq h hborn (h.children_ordered s hs)
  intro t ht
  rw [Bool.and_eq_true, inScope_iff h]
  apply and_congr_left
  intro _
  constructor
  · rintro ⟨u, hu, hseq, hparent⟩
    obtain rfl := seq_inj h hu hs hseq
    obtain ⟨v, hv, hid, -, hchild⟩ := h.parent t ht u.id hparent
    rw [← id_inj h hv hu hid]
    exact hchild
  · intro hchild
    obtain ⟨u, hu, hid, hparent⟩ := h.child s hs t.id hchild
    obtain rfl := id_inj h hu ht hid
    exact ⟨s, hs, rfl, hparent⟩

theorem siblings_roots (h : snap.WellFormed) (hborn : BornInOrder snap) :
    siblings (byId snap.streams) keep order snap.roots = rootsOf snap.streams keep order := by
  apply siblings_eq h hborn h.roots_ordered
  intro t ht
  rw [Bool.and_eq_true, inScope_iff h]
  apply and_congr_left
  intro _
  rw [h.roots]
  constructor
  · intro hparent
    exact ⟨t, ht, rfl, hparent⟩
  · rintro ⟨u, hu, hid, hparent⟩
    rw [← id_inj h hu ht hid]
    exact hparent

end Order

/-! ## What a tree lists -/

section Tree

variable {snap : AggregatorSnapshot} {order : SortKey} {keep : Option (Finset Nat)} {s t : Stream}

theorem mem_kidsOf (h : snap.WellFormed) (hs : s ∈ snap.streams) :
    t ∈ kidsOf snap.streams keep order s ↔
      t ∈ snap.streams ∧ t.parent = some s.id ∧ keeps keep t = true := by
  rw [kidsOf, List.mem_filter, ranked, mem_sortByKey, Bool.and_eq_true, inScope_iff h]
  apply and_congr_right
  intro _
  apply and_congr_left
  intro _
  constructor
  · rintro ⟨u, hu, hseq, hparent⟩
    rw [← seq_inj h hu hs hseq]
    exact hparent
  · exact fun hparent => ⟨s, hs, rfl, hparent⟩

theorem mem_rootsOf (h : snap.WellFormed) :
    t ∈ rootsOf snap.streams keep order ↔ t ∈ snap.streams ∧ t.parent = none ∧ keeps keep t = true := by
  rw [rootsOf, List.mem_filter, ranked, mem_sortByKey, Bool.and_eq_true, inScope_iff h]
  rfl

/-- The streams created after a stream. -/
def after (streams : List Stream) (s : Stream) : Nat :=
  (streams.filter fun t => s.createdSeq < t.createdSeq).length

theorem after_lt_length {streams : List Stream} (hs : s ∈ streams) : after streams s < streams.length := by
  apply List.length_filter_lt_length_iff_exists.2
  exact ⟨s, hs, by simp⟩

theorem after_lt {streams : List Stream} (ht : t ∈ streams) (hlt : s.createdSeq < t.createdSeq) :
    after streams t < after streams s := by
  rw [after]
  have hsub : (streams.filter fun u => decide (t.createdSeq < u.createdSeq)) =
      (streams.filter fun u => decide (s.createdSeq < u.createdSeq)).filter
        fun u => decide (t.createdSeq < u.createdSeq) := by
    rw [List.filter_filter]
    apply List.filter_congr
    intro u _
    rw [Bool.eq_iff_iff]
    simp only [Bool.and_eq_true, decide_eq_true_eq]
    omega
  rw [hsub]
  apply List.length_filter_lt_length_iff_exists.2
  exact ⟨t, List.mem_filter.2 ⟨ht, by simpa using hlt⟩, by simp⟩

/-- The tree is walked over a forest. -/
theorem forest_kidsOf (h : snap.WellFormed) (keep : Option (Finset Nat)) (order : SortKey) :
    Preorder.Forest (· ∈ snap.streams) (kidsOf snap.streams keep order) (after snap.streams) where
  closed := fun hp hc => ((mem_kidsOf h hp).1 hc).1
  lower := by
    intro p c hp hc
    obtain ⟨hmem, hparent, -⟩ := (mem_kidsOf h hp).1 hc
    obtain ⟨t, ht, hid, hlt, -⟩ := h.parent c hmem p.id hparent
    rw [id_inj h ht hp hid] at hlt
    exact after_lt hmem hlt
  nodup := fun _ => ((perm_sortByKey _ _).nodup_iff.2 (streams_nodup h)).filter _
  unique := by
    intro p q c hp hq hcp hcq
    have hparent := ((mem_kidsOf h hp).1 hcp).2.1.symm.trans ((mem_kidsOf h hq).1 hcq).2.1
    exact id_inj h hp hq (Option.some.inj hparent)

theorem rootsOf_nodes (h : snap.WellFormed) :
    ∀ r ∈ rootsOf snap.streams keep order, r ∈ snap.streams ∧ after snap.streams r < snap.streams.length := by
  intro r hr
  have hmem := ((mem_rootsOf h).1 hr).1
  exact ⟨hmem, after_lt_length hmem⟩

theorem nodup_tree (h : snap.WellFormed) : (tree snap.streams keep order).Nodup := by
  apply (forest_kidsOf h keep order).nodup_walks (rootsOf_nodes h)
  · exact ((perm_sortByKey _ _).nodup_iff.2 (streams_nodup h)).filter _
  · intro r hr p hp hrp
    have hnone := ((mem_rootsOf h).1 hr).2.1
    rw [((mem_kidsOf h hp).1 hrp).2.1] at hnone
    cases hnone

/-- With a stream its parent is kept. -/
def KeepsParents (snap : AggregatorSnapshot) (keep : Option (Finset Nat)) : Prop :=
  ∀ s ∈ snap.streams, keeps keep s = true → ∀ p ∈ snap.streams, s.parent = some p.id → keeps keep p = true

/-- The tree lists exactly the streams that are kept. -/
theorem mem_tree (h : snap.WellFormed) (hkeep : KeepsParents snap keep) :
    s ∈ tree snap.streams keep order ↔ s ∈ snap.streams ∧ keeps keep s = true := by
  have hforest := forest_kidsOf h keep order
  rw [tree, hforest.mem_walks (rootsOf_nodes h)]
  constructor
  · rintro ⟨r, hr, hbelow⟩
    obtain ⟨hmem, -, hkept⟩ := (mem_rootsOf h).1 hr
    rcases Relation.ReflTransGen.cases_tail hbelow with rfl | ⟨p, -, hp, hs⟩
    · exact ⟨hmem, hkept⟩
    · obtain ⟨hmem', -, hkept'⟩ := (mem_kidsOf h hp).1 hs
      exact ⟨hmem', hkept'⟩
  · -- a parent is older, and is listed before
    induction hseq : s.createdSeq using Nat.strong_induction_on generalizing s with
    | _ q ih =>
        rintro ⟨hs, hkept⟩
        cases hparent : s.parent with
        | none => exact ⟨s, (mem_rootsOf h).2 ⟨hs, hparent, hkept⟩, .refl⟩
        | some i =>
            obtain ⟨p, hp, rfl, hlt, -⟩ := h.parent s hs i hparent
            obtain ⟨r, hr, hbelow⟩ := ih p.createdSeq (hseq ▸ hlt) rfl ⟨hp, hkeep s hs hkept p hp hparent⟩
            exact ⟨r, hr, hbelow.tail ⟨hp, (mem_kidsOf h hp).2 ⟨hs, hparent, hkept⟩⟩⟩

theorem keepsParents_none : KeepsParents snap none := fun _ _ _ _ _ _ => rfl

theorem keepsParents_visible (h : snap.WellFormed) (isMatch : Stream → Bool) :
    KeepsParents snap (some (matchingWithAncestors snap.streams (byId snap.streams) isMatch)) := by
  intro s hs hkept p hp hparent
  unfold keeps at hkept ⊢
  rw [decide_eq_true_eq, mem_visible h hs] at hkept
  rw [decide_eq_true_eq, mem_visible h hp]
  obtain ⟨u, hu, hmatch, hpath⟩ := hkept
  exact ⟨u, hu, hmatch, hpath.tail ((parentIn_iff h).2 ⟨hp, hparent⟩)⟩

/-- The walk over siblings lists the tree. -/
theorem walks_siblings (h : snap.WellFormed) (hborn : BornInOrder snap) (keep : Option (Finset Nat))
    (order : SortKey) :
    Preorder.walks (fun s => siblings (byId snap.streams) keep order s.children) snap.streams.length
      (siblings (byId snap.streams) keep order snap.roots) = tree snap.streams keep order := by
  have hnodes : ∀ {l : List StreamId} {t : Stream}, t ∈ siblings (byId snap.streams) keep order l →
      t ∈ snap.streams := fun ht => ((mem_siblings h).1 ht).1
  rw [Preorder.walks_congr (P := (· ∈ snap.streams)) (fun _ hc => hnodes hc)
    (fun p hp => siblings_children h hborn hp) _ (fun r hr => hnodes hr), siblings_roots h hborn]
  rfl

/-- Trees of sets that keep the same streams. -/
theorem tree_congr {streams : List Stream} {keep keep' : Option (Finset Nat)}
    (hkeep : ∀ s ∈ streams, keeps keep s = keeps keep' s) : tree streams keep order = tree streams keep' order := by
  have hfilter : ∀ scope : Stream → Bool, (ranked streams order).filter (fun t => scope t && keeps keep t) =
      (ranked streams order).filter fun t => scope t && keeps keep' t := by
    intro scope
    apply List.filter_congr
    intro t ht
    rw [hkeep t (mem_sortByKey.1 ht)]
  have hkids : kidsOf streams keep order = kidsOf streams keep' order := funext fun _ => hfilter _
  rw [tree, tree, hkids, rootsOf, hfilter]
  rfl

end Tree

end Pktflow.View
