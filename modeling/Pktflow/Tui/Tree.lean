import Pktflow.View.Siblings

/-!
# The tree of the terminal UI

Model of `flatten` and `push_subtree` (`pktflow-tui/src/tree.rs`). The cap on the rows is looked at before
every subtree, at every depth; the rows are the first ones of the walk without it (`flatten_eq`).
-/

set_option autoImplicit false

namespace Pktflow.Tui

open Pktflow.Core Pktflow.Flows Pktflow.Lib Pktflow.View

/-- `TreeRow`. -/
structure TreeRow where
  stream : Stream
  glyphs : String
  hasChildren : Bool
  expanded : Bool

/-- `MAX_ROWS`. -/
def maxRows : Nat := 10000

/-- A query expands everything, otherwise streams that are not collapsed are expanded. -/
def isExpanded (collapsed : Finset Nat) (visible : Option (Finset Nat)) (s : Stream) : Bool :=
  visible.isSome || decide (s.createdSeq ∉ collapsed)

/-- `push_subtree`, with fuel for the depth. -/
def pushSubtree (streams : List Stream) (sort : SortKey) (collapsed : Finset Nat)
    (visible : Option (Finset Nat)) : Nat → String → List TreeRow → Stream → List TreeRow
  | 0, _, rows, _ => rows
  | n + 1, glyphs, rows, s =>
      if maxRows ≤ rows.length then rows
      else
        let children := siblings (byId streams) visible sort s.children
        let expanded := isExpanded collapsed visible s
        let rows := rows ++ [⟨s, glyphs, !children.isEmpty, expanded⟩]
        if expanded then
          children.zipIdx.foldl (fun rows e =>
            if maxRows ≤ rows.length then rows
            else pushSubtree streams sort collapsed visible n
              (bareOf glyphs ++ branchOf (e.2 + 1 == children.length)) rows e.1) rows
        else rows

/-- `flatten`. -/
def flatten (env : LensEnv) (index : SnapshotIndex) (sort : SortKey) (collapsed : Finset Nat)
    (query : Option Text) : Except Failure (List TreeRow × SnapshotIndex) := do
  let (sets, index) ← index.windowSets env query
  let visible := sets.map Prod.snd
  let streams := index.snap.streams
  let roots := siblings (byId streams) visible sort index.snap.roots
  pure (roots.foldl (fun rows root =>
    if maxRows ≤ rows.length then rows
    else pushSubtree streams sort collapsed visible streams.length "" rows root) [], index)

/-! ## The rows -/

section Rows

variable {streams : List Stream} {sort : SortKey} {collapsed : Finset Nat} {visible : Option (Finset Nat)}

/-- The children that are shown. -/
def shown (streams : List Stream) (sort : SortKey) (collapsed : Finset Nat) (visible : Option (Finset Nat))
    (s : Stream) : List Stream :=
  if isExpanded collapsed visible s then siblings (byId streams) visible sort s.children else []

/-- With nothing collapsed all children are shown. -/
theorem shown_empty : shown streams sort ∅ visible = fun s => siblings (byId streams) visible sort s.children := by
  funext s
  simp [shown, isExpanded]

/-- Without a query, collapsed streams show no children. -/
theorem shown_none : shown streams sort collapsed none = fun s =>
    if decide (s.createdSeq ∈ collapsed) then [] else siblings (byId streams) none sort s.children := by
  funext s
  by_cases hs : s.createdSeq ∈ collapsed <;> simp [shown, isExpanded, hs]

/-- A subtree adds the rows of its walk, as many as there is room for. -/
theorem caps_pushSubtree (n : Nat) (glyphs : String) (rows : List TreeRow) (s : Stream)
    (h : rows.length ≤ maxRows) :
    Preorder.Caps maxRows TreeRow.stream rows (pushSubtree streams sort collapsed visible n glyphs rows s)
      (Preorder.walk (shown streams sort collapsed visible) n s) := by
  induction n generalizing glyphs rows s with
  | zero =>
      refine ⟨h, ?_⟩
      rw [Preorder.walk, List.append_nil, List.take_of_length_le (by simpa using h)]
      rfl
  | succ n ih =>
      rw [pushSubtree]
      by_cases hfull : maxRows ≤ rows.length
      · rw [if_pos hfull]
        exact Preorder.Caps.full h hfull _
      · rw [if_neg hfull]
        dsimp only
        -- below the cap there is room for the row of the stream itself
        have hroom : ∀ row : TreeRow, (rows ++ [row]).length ≤ maxRows := by
          intro row
          rw [List.length_append, List.length_singleton]
          omega
        rw [Preorder.walk]
        cases hexpanded : isExpanded collapsed visible s with
        | false =>
            have hshown : shown streams sort collapsed visible s = [] := by
              rw [shown]
              rw [hexpanded]
              rfl
            rw [if_neg Bool.false_ne_true, hshown]
            refine ⟨hroom _, ?_⟩
            rw [List.flatMap_nil, List.take_of_length_le (by simpa using hroom ⟨s, glyphs, false, false⟩)]
            simp
        | true =>
            have hshown : shown streams sort collapsed visible s =
                siblings (byId streams) visible sort s.children := by
              rw [shown]
              rw [hexpanded]
              rfl
            rw [if_pos rfl, hshown]
            -- the children are pushed in turn, each with its own subtree
            obtain ⟨hlen, hmap⟩ := Preorder.capped_foldl
              (fun e : Stream × Nat => Preorder.walk (shown streams sort collapsed visible) n e.1)
              (fun rows e hrows => ih (bareOf glyphs ++
                branchOf (e.2 + 1 == (siblings (byId streams) visible sort s.children).length)) rows e.1 hrows)
              (siblings (byId streams) visible sort s.children).zipIdx _ (hroom ⟨s, glyphs, _, true⟩)
            refine ⟨hlen, ?_⟩
            rw [hmap, Preorder.flatMap_zipIdx]
            simp

/-- The rows are the first ones of the walk from the roots. -/
theorem caps_roots (n : Nat) (roots : List Stream) :
    (roots.foldl (fun rows root => if maxRows ≤ rows.length then rows
      else pushSubtree streams sort collapsed visible n "" rows root) []).map TreeRow.stream =
      (Preorder.walks (shown streams sort collapsed visible) n roots).take maxRows :=
  (Preorder.capped_foldl _ (fun rows root hrows => caps_pushSubtree n "" rows root hrows) roots []
    (Nat.zero_le _)).2

end Rows

/-- The streams of the rows, by what the query keeps. -/
theorem flatten_eq {env : LensEnv} {snap : AggregatorSnapshot} {index : SnapshotIndex}
    {query : Option Text} {sets : Option QuerySets} (h : index.Valid env snap)
    (hsets : setsOf env snap.streams query = .ok sets) (sort : SortKey) (collapsed : Finset Nat) :
    ∃ rows index', flatten env index sort collapsed query = .ok (rows, index') ∧
      rows.map TreeRow.stream = (Preorder.walks (shown snap.streams sort collapsed (sets.map Prod.snd))
        snap.streams.length (siblings (byId snap.streams) (sets.map Prod.snd) sort snap.roots)).take maxRows := by
  obtain ⟨index', heq, hvalid⟩ := (h.windowSets_eq query).2 sets hsets
  refine ⟨_, index', ?_, caps_roots _ _⟩
  rw [flatten]
  rw [heq]
  dsimp only [bind, Except.bind]
  rw [hvalid.snap_eq]
  rfl

end Pktflow.Tui
