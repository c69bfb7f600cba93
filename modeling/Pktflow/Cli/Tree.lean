import Pktflow.View.Siblings

/-!
# The tree of the command line

Model of `streams_tree` and `collect_subtree` (`pktflow-cli/src/views.rs`). The rows are those of one walk
over the siblings (`streamsTree_eq`); what they print of a stream is left out.
-/

set_option autoImplicit false

namespace Pktflow.Cli

open Pktflow.Core Pktflow.Flows Pktflow.Lib Pktflow.View

/-- The `--where` query, parsed before any capture opens. -/
def whereQuery (env : LensEnv) (query : Option Text) : Except Failure (Option Expr) :=
  match query with
  | none => .ok none
  | some q => (parseQuery env.toQueryEnv q).map some

theorem whereQuery_some {env : LensEnv} {q : Text} {expr : Option Expr}
    (h : whereQuery env (some q) = .ok expr) : ∃ e, parseQuery env.toQueryEnv q = .ok e ∧ expr = some e := by
  dsimp only [whereQuery] at h
  cases hq : parseQuery env.toQueryEnv q with
  | error f =>
      rw [hq] at h
      cases h
  | ok e =>
      rw [hq] at h
      exact ⟨e, rfl, (Except.ok.inj h).symm⟩

/-- What `stream_row` prints a row of the tree from. -/
structure Row where
  glyphs : String
  stream : Stream

/-- `collect_subtree`, with fuel for the depth. -/
def collectSubtree (ids : StreamId → Option Stream) (sort : SortKey) (keep : Option (Finset Nat)) :
    Nat → String → List Row → Stream → List Row
  | 0, _, rows, _ => rows
  | n + 1, glyphs, rows, s =>
      let rows := rows ++ [⟨glyphs, s⟩]
      let children := siblings ids keep sort s.children
      children.zipIdx.foldl (fun rows e =>
        collectSubtree ids sort keep n (bareOf glyphs ++ branchOf (e.2 + 1 == children.length)) rows e.1) rows

/-- `streams_tree`, up to the rows it renders. -/
def streamsTree (env : LensEnv) (snap : AggregatorSnapshot) (sort : SortKey) (query : Option Expr) : List Row :=
  let ids := streamsById snap.streams
  let keep := query.map fun q => matchingWithAncestors snap.streams ids fun s => env.isMatch q s ids
  let roots := siblings ids keep sort snap.roots
  roots.foldl (fun rows root => collectSubtree ids sort keep snap.streams.length "" rows root) []

section Rows

variable {ids : StreamId → Option Stream} {sort : SortKey} {keep : Option (Finset Nat)}

/-- A subtree adds the rows of its walk. -/
theorem map_collectSubtree (n : Nat) (glyphs : String) (rows : List Row) (s : Stream) :
    (collectSubtree ids sort keep n glyphs rows s).map Row.stream =
      rows.map Row.stream ++ Preorder.walk (fun t => siblings ids keep sort t.children) n s := by
  induction n generalizing glyphs rows s with
  | zero => rw [collectSubtree, Preorder.walk, List.append_nil]
  | succ n ih =>
      rw [collectSubtree, Preorder.walk, Preorder.foldl_rows
        (fun e : Stream × Nat => Preorder.walk (fun t => siblings ids keep sort t.children) n e.1)
        (fun rows e => ih _ rows e.1), Preorder.flatMap_zipIdx]
      simp

end Rows

/-- The streams of the rows, in a well-formed snapshot. -/
theorem streamsTree_eq (env : LensEnv) {snap : AggregatorSnapshot} (h : snap.WellFormed) (sort : SortKey)
    (query : Option Expr) :
    (streamsTree env snap sort query).map Row.stream =
      Preorder.walks (fun s => siblings (byId snap.streams)
          (query.map fun q => (setsFor env snap.streams q).2) sort s.children)
        snap.streams.length
        (siblings (byId snap.streams) (query.map fun q => (setsFor env snap.streams q).2) sort snap.roots) := by
  unfold streamsTree
  rw [streamsById_eq h]
  dsimp only
  rw [Preorder.foldl_rows _ (fun rows root => map_collectSubtree snap.streams.length "" rows root)]
  rfl

end Pktflow.Cli
