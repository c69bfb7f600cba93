import Pktflow.Tui.Tree
import Pktflow.Cli.Tree

/-!
# The three trees

The command line, the terminal UI and the expansion of the web windows list one tree. They differ on what a
blank query is: the index and the terminal UI drop a query that Unicode trims to nothing, while the lexer,
which reads bytes, takes such characters for a word, so that the command line filters by it. The trees agree
exactly if that makes no difference (`lenses_agree_iff`).
-/

set_option autoImplicit false

namespace Pktflow

open Pktflow.Core Pktflow.Flows Pktflow.Lib Pktflow.View

/-- The tree of the web lens: the window of the roots, and under each row the window of its children, each
asked of an index of its own. -/
def webTree (env : LensEnv) (snap : AggregatorSnapshot) (index : Option Stream → SnapshotIndex)
    (sort : SortKey) (query : Option Text) : List Stream :=
  Preorder.walks (fun s => (index (some s)).rows env
      ⟨.childrenOf s.createdSeq, query, sort, true, 0, snap.streams.length⟩)
    snap.streams.length
    ((index none).rows env ⟨.roots, query, sort, true, 0, snap.streams.length⟩)

/-- The stream is visible under the query, if there is one. -/
def VisibleUnder (env : LensEnv) (snap : AggregatorSnapshot) (expr : Option Expr) (s : Stream) : Prop :=
  ∀ e, expr = some e →
    Visible snap.streams (byId snap.streams) (fun t => env.isMatch e t (byId snap.streams)) s

/-- No strict ancestor of the stream is collapsed. -/
def Uncovered (snap : AggregatorSnapshot) (collapsed : Finset Nat) (s : Stream) : Prop :=
  ∀ t, Relation.TransGen (ParentIn (byId snap.streams)) s t → t.createdSeq ∉ collapsed

/-- The lenses list one tree of a snapshot, in the terminal UI cut to its rows, whatever calls the indexes
have answered before. `expr` is what the command line parsed of the query. -/
structure LensesAgree (env : LensEnv) (snap : AggregatorSnapshot) (sort : SortKey) (query : Option Text)
    (expr : Option Expr) : Prop where
  same : ∃ l : List Stream,
    (Cli.streamsTree env snap sort expr).map Cli.Row.stream = l ∧
    (∀ index, IndexOf env snap index → ∃ rows index',
      Tui.flatten env index sort ∅ query = .ok (rows, index') ∧
      rows.map Tui.TreeRow.stream = l.take Tui.maxRows) ∧
    (∀ index : Option Stream → SnapshotIndex, (∀ i, IndexOf env snap (index i)) →
      webTree env snap index sort query = l) ∧
    l.Nodup ∧ ∀ s, s ∈ l ↔ s ∈ snap.streams ∧ VisibleUnder env snap expr s
  /-- Without a query the terminal UI lists the streams that no collapsed stream covers. -/
  collapsed : ∀ (collapsed : Finset Nat) (index : SnapshotIndex), IndexOf env snap index →
    ∃ rows index' p, Tui.flatten env index sort collapsed none = .ok (rows, index') ∧
      (∀ s, p s = true ↔ Uncovered snap collapsed s) ∧
      rows.map Tui.TreeRow.stream =
        (((Cli.streamsTree env snap sort none).map Cli.Row.stream).filter p).take Tui.maxRows

section Trees

variable {env : LensEnv} {snap : AggregatorSnapshot} {sort : SortKey} {query : Option Text}
  {sets : Option QuerySets} {expr : Option Expr} {index : SnapshotIndex}

/-- What the command line keeps. -/
def keptBy (env : LensEnv) (snap : AggregatorSnapshot) (expr : Option Expr) : Option (Finset Nat) :=
  expr.map fun e => (setsFor env snap.streams e).2

theorem keeps_keptBy (h : snap.WellFormed) {s : Stream} (hs : s ∈ snap.streams) :
    keeps (keptBy env snap expr) s = true ↔ VisibleUnder env snap expr s := by
  rw [VisibleUnder]
  cases expr with
  | none => exact ⟨fun _ e he => (by cases he), fun _ => rfl⟩
  | some e =>
      have hvisible : s.createdSeq ∈ (setsFor env snap.streams e).2 ↔
          Visible snap.streams (byId snap.streams) (fun t => env.isMatch e t (byId snap.streams)) s :=
        mem_visible h hs
      refine ⟨fun hkept e' he' => ?_, fun hv => decide_eq_true (hvisible.2 (hv e rfl))⟩
      obtain rfl := Option.some.inj he'
      exact hvisible.1 (of_decide_eq_true hkept)

theorem keepsParents_keptBy (h : snap.WellFormed) : KeepsParents snap (keptBy env snap expr) := by
  cases expr with
  | none => exact keepsParents_none
  | some e => exact keepsParents_visible h _

theorem cli_tree (h : snap.WellFormed) (hborn : BornInOrder snap) (sort : SortKey) (expr : Option Expr) :
    (Cli.streamsTree env snap sort expr).map Cli.Row.stream = tree snap.streams (keptBy env snap expr) sort := by
  rw [Cli.streamsTree_eq env h, ← walks_siblings h hborn]
  rfl

theorem tui_tree (h : snap.WellFormed) (hborn : BornInOrder snap) (hindex : IndexOf env snap index)
    (hsets : setsOf env snap.streams query = .ok sets) (sort : SortKey) :
    ∃ rows index', Tui.flatten env index sort ∅ query = .ok (rows, index') ∧
      rows.map Tui.TreeRow.stream = (tree snap.streams (sets.map Prod.snd) sort).take Tui.maxRows := by
  obtain ⟨rows, index', heq, hrows⟩ := Tui.flatten_eq (hindex.valid h.length_lt) hsets sort ∅
  refine ⟨rows, index', heq, ?_⟩
  rw [hrows, Tui.shown_empty, walks_siblings h hborn]

theorem web_tree (h : snap.WellFormed) {index : Option Stream → SnapshotIndex}
    (hindex : ∀ i, IndexOf env snap (index i)) (hsets : setsOf env snap.streams query = .ok sets)
    (sort : SortKey) : webTree env snap index sort query = tree snap.streams (sets.map Prod.snd) sort := by
  rw [webTree]
  have hrows : ∀ i scope, (index i).rows env ⟨scope, query, sort, true, 0, snap.streams.length⟩ =
      listed snap.streams scope sets sort true := fun i scope => rows_all h (hindex i) hsets scope sort true
  simp only [hrows]
  rfl

/-- A stream is uncovered if its parent is and is not collapsed. -/
theorem uncovered_child (h : snap.WellFormed) {collapsed : Finset Nat} {p c : Stream} (hp : p ∈ snap.streams)
    (hparent : c.parent = some p.id) :
    Uncovered snap collapsed c ↔ Uncovered snap collapsed p ∧ p.createdSeq ∉ collapsed := by
  have hup : ParentIn (byId snap.streams) c p := (parentIn_iff h).2 ⟨hp, hparent⟩
  constructor
  · intro hc
    exact ⟨fun t ht => hc t (.head hup ht), hc p (.single hup)⟩
  · rintro ⟨habove, hopen⟩ t ht
    obtain ⟨q, hq, hqt⟩ := Relation.TransGen.head'_iff.1 ht
    -- the parent is the only one
    obtain rfl := Option.some.inj (hup.symm.trans hq)
    rcases Relation.reflTransGen_iff_eq_or_transGen.1 hqt with rfl | hqt
    · exact hopen
    · exact habove t hqt

theorem uncovered_root {collapsed : Finset Nat} {r : Stream} (hparent : r.parent = none) :
    Uncovered snap collapsed r := by
  intro t ht
  obtain ⟨q, hq, -⟩ := Relation.TransGen.head'_iff.1 ht
  rw [ParentIn] at hq
  rw [hparent] at hq
  cases hq

theorem tui_collapsed (h : snap.WellFormed) (hborn : BornInOrder snap) (hindex : IndexOf env snap index)
    (sort : SortKey) (collapsed : Finset Nat) {p : Stream → Bool}
    (hp : ∀ s, p s = true ↔ Uncovered snap collapsed s) :
    ∃ rows index', Tui.flatten env index sort collapsed none = .ok (rows, index') ∧
      rows.map Tui.TreeRow.stream = ((tree snap.streams none sort).filter p).take Tui.maxRows := by
  obtain ⟨rows, index', heq, hrows⟩ := Tui.flatten_eq (hindex.valid h.length_lt)
    (show setsOf env snap.streams none = .ok none from rfl) sort collapsed
  refine ⟨rows, index', heq, ?_⟩
  rw [hrows, Option.map_none, Tui.shown_none, ← walks_siblings h hborn]
  congr 1
  apply Preorder.walks_pruned (P := (· ∈ snap.streams))
  · intro s c _ hc
    exact ((mem_siblings h).1 hc).1
  · intro s c hs hc
    rw [siblings_children h hborn hs] at hc
    rw [hp, hp, uncovered_child h hs ((mem_kidsOf h hs).1 hc).2.1, decide_eq_false_iff_not]
  · intro r hr
    rw [siblings_roots h hborn] at hr
    obtain ⟨hmem, hparent, -⟩ := (mem_rootsOf h).1 hr
    exact ⟨hmem, (hp r).2 (uncovered_root hparent)⟩

/-- The sets of a query that parses: none if it is blank. -/
theorem setsOf_where (snap : AggregatorSnapshot) (hparse : Cli.whereQuery env query = .ok expr) :
    ∃ sets, setsOf env snap.streams query = .ok sets ∧
      ((∀ q, query = some q → isBlank q = false) → sets.map Prod.snd = keptBy env snap expr) ∧
      ((∃ q, query = some q ∧ isBlank q = true) → sets = none) := by
  cases query with
  | none =>
      obtain rfl := Except.ok.inj hparse
      exact ⟨none, rfl, fun _ => rfl, fun _ => rfl⟩
  | some q =>
      obtain ⟨e, hq, rfl⟩ := Cli.whereQuery_some hparse
      rw [setsOf]
      cases hblank : isBlank q with
      | true =>
          rw [Option.filter_some_neg (by simp [hblank])]
          refine ⟨none, rfl, fun h => ?_, fun _ => rfl⟩
          rw [h q rfl] at hblank
          cases hblank
      | false =>
          rw [Option.filter_some_pos (by simp [hblank])]
          refine ⟨some (setsFor env snap.streams e), ?_, fun _ => rfl, ?_⟩
          · dsimp only [evalQuery]
            rw [hq]
            rfl
          · rintro ⟨q', hq', hblank'⟩
            obtain rfl := Option.some.inj hq'
            rw [hblank] at hblank'
            cases hblank'

end Trees

/-- **Lenses.** For a query that parses, in a capture in time order, the three trees are one exactly if the
query is not blank or hides nothing. -/
theorem lenses_agree_iff (env : LensEnv) {fenv : Env} {ops : List Op} {a : Aggregator} (h : Reaches fenv ops a)
    (hsorted : (timestamps ops).Pairwise (· ≤ ·)) (sort : SortKey) {query : Option Text} {expr : Option Expr}
    (hparse : Cli.whereQuery env query = .ok expr) :
    LensesAgree env a.snapshot sort query expr ↔
      (∃ q, query = some q ∧ isBlank q = true) → ∀ s ∈ a.snapshot.streams, VisibleUnder env a.snapshot expr s := by
  have hwf := Aggregator.snapshot_wellFormed h
  have hborn : BornInOrder a.snapshot := fun s hs t ht hlt => Aggregator.snapshot_born h hsorted hs ht hlt
  obtain ⟨sets, hsets, hkept, hblank⟩ := setsOf_where a.snapshot hparse
  constructor
  · -- the web lists all streams under a blank query
    rintro ⟨⟨l, -, -, hweb, -, hmem⟩, -⟩ hquery s hs
    -- under a blank query the web lists every stream of the snapshot
    have hall := hweb (fun _ => SnapshotIndex.new a.snapshot) fun _ => .new
    rw [web_tree hwf (fun _ => .new) hsets, hblank hquery] at hall
    refine ((hmem s).1 ?_).2
    rw [← hall]
    exact (mem_tree hwf keepsParents_none).2 ⟨hs, rfl⟩
  · intro hcond
    -- the two filters keep the same streams, one of them all that there are
    have htree : tree a.snapshot.streams (sets.map Prod.snd) sort =
        tree a.snapshot.streams (keptBy env a.snapshot expr) sort := by
      by_cases hquery : ∃ q, query = some q ∧ isBlank q = true
      · rw [hblank hquery]
        apply tree_congr
        intro s hs
        exact ((keeps_keptBy hwf hs).2 (hcond hquery s hs)).symm
      · rw [hkept]
        intro q hq
        rw [Bool.eq_false_iff]
        exact fun hb => hquery ⟨q, hq, hb⟩
    constructor
    case same =>
      refine ⟨tree a.snapshot.streams (keptBy env a.snapshot expr) sort, cli_tree hwf hborn sort expr, ?_, ?_,
        nodup_tree hwf, fun s => ?_⟩
      · intro index hindex
        rw [← htree]
        exact tui_tree hwf hborn hindex hsets sort
      · intro index hindex
        rw [← htree]
        exact web_tree hwf hindex hsets sort
      · rw [mem_tree hwf (keepsParents_keptBy hwf)]
        apply and_congr_right
        exact fun hs => keeps_keptBy hwf hs
    case collapsed =>
      intro collapsed index hindex
      classical
      have hp : ∀ s, decide (Uncovered a.snapshot collapsed s) = true ↔ Uncovered a.snapshot collapsed s :=
        fun s => decide_eq_true_iff
      obtain ⟨rows, index', heq, hrows⟩ := tui_collapsed hwf hborn hindex sort collapsed hp
      refine ⟨rows, index', _, heq, hp, ?_⟩
      rw [hrows, cli_tree hwf hborn]
      rfl

/-- The sample capture under the query `udp`, and its tree. -/
theorem lenses_agree_sample :
    LensesAgree sampleLens (run (sampleEnv .none 2) sampleOps).snapshot .bytes (some "udp".toList)
      (some (.freeText "udp".toList)) ∧
    (Cli.streamsTree sampleLens (run (sampleEnv .none 2) sampleOps).snapshot .bytes
      (some (.freeText "udp".toList))).map (fun row => row.stream.createdSeq) = [0, 1, 4, 2, 3] := by
  refine ⟨(lenses_agree_iff sampleLens (reaches_run _ sampleOps (by decide)) (by decide) .bytes
    (by decide +kernel)).2 ?_, by decide +kernel⟩
  rintro ⟨q, hq, hblank⟩
  obtain rfl := Option.some.inj hq
  exact absurd hblank (by decide)

/-- The query of one ideographic space: the command line looks for streams with that character, of which
there are none, and the web lists all. -/
theorem lenses_differ_on_blank :
    Cli.whereQuery sampleLens (some [Char.ofNat 0x3000]) = .ok (some (.freeText [Char.ofNat 0x3000])) ∧
    (timestamps sampleOps).Pairwise (· ≤ ·) ∧
    ¬LensesAgree sampleLens (run (sampleEnv .none 2) sampleOps).snapshot .bytes (some [Char.ofNat 0x3000])
      (some (.freeText [Char.ofNat 0x3000])) := by
  have hparse : Cli.whereQuery sampleLens (some [Char.ofNat 0x3000]) =
      .ok (some (.freeText [Char.ofNat 0x3000])) := by decide +kernel
  refine ⟨hparse, by decide, ?_⟩
  rintro ⟨⟨l, hcli, -, hweb, -⟩, -⟩
  have hwf := Aggregator.snapshot_wellFormed (reaches_run (sampleEnv .none 2) sampleOps (by decide))
  obtain ⟨sets, hsets, -, hblank⟩ := setsOf_where (run (sampleEnv .none 2) sampleOps).snapshot hparse
  have hempty : Cli.streamsTree sampleLens (run (sampleEnv .none 2) sampleOps).snapshot .bytes
      (some (.freeText [Char.ofNat 0x3000])) = [] := List.isEmpty_iff.1 (by decide +kernel)
  have hall := hweb (fun _ => SnapshotIndex.new _) fun _ => .new
  rw [web_tree hwf (fun _ => .new) hsets, hblank ⟨_, rfl, by decide⟩, ← hcli, hempty] at hall
  have hsome : (run (sampleEnv .none 2) sampleOps).snapshot.streams ≠ [] := by
    rw [Ne, ← List.isEmpty_iff]
    decide +kernel
  obtain ⟨s, hs⟩ := List.exists_mem_of_ne_nil _ hsome
  have hlisted : s ∈ tree (run (sampleEnv .none 2) sampleOps).snapshot.streams none .bytes :=
    (mem_tree hwf keepsParents_none).2 ⟨hs, rfl⟩
  rw [Option.map_none, List.map_nil] at hall
  rw [hall] at hlisted
  cases hlisted

end Pktflow
