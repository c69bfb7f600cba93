import Pktflow.View.Paging
import Pktflow.View.Suffixes

/-!
# What a query asks of a stream

Model of `field_candidates` and what it calls (`pktflow-view/src/query.rs`). With these the evaluation of a query is the
one of the source. The fields of the lineage walk up the parents that the map knows. In a well-formed snapshot the walk
lists each strict ancestor once (`mem_lineage`, `nodup_lineage`), so these fields and the flags tell where the stream
stands in the forest (`lineage_of_wellFormed`).
-/

set_option autoImplicit false

namespace Pktflow.View

open Pktflow.Core Pktflow.Flows Pktflow.Lib

/-- The functions from outside: those of the parser, the compiled regexes, how `f64` rounds and prints a number, and the
formats of values. -/
structure MatchEnv extends QueryEnv where
  reMatch : Text → Text → Bool
  round : Rat → Rat
  numberText : Rat → String
  fmt : Formats

/-- `QueryError`'s text. -/
def queryErrorText (e : QueryError) : String := e.message ++ " (at column " ++ toString (e.position + 1) ++ ")"

/-- `close_reason_str`. -/
def closeReasonStr : CloseReason → String
  | .protocolClose => "protocol-close"
  | .idleTimeout => "idle-timeout"
  | .lruEvicted => "lru-evicted"
  | .captureEnd => "capture-end"

/-- `Candidate::text`. -/
def FieldCandidate.ofText (t : String) : FieldCandidate := ⟨t.toList, none⟩

/-- `Candidate::num`. -/
def FieldCandidate.ofNum (env : MatchEnv) (n : Rat) : FieldCandidate := ⟨(env.numberText n).toList, some n⟩

/-- `ancestors`, with fuel for the streams above. -/
def ancestors (ids : StreamId → Option Stream) : Nat → Stream → List Stream
  | 0, _ => []
  | n + 1, s =>
      match s.parent.bind ids with
      | none => []
      | some p => p :: ancestors ids n p

/-- The walk up from a stream: above it are streams created before. -/
def lineage (ids : StreamId → Option Stream) (s : Stream) : List Stream := ancestors ids s.createdSeq s

/-- `value_as_number`. -/
def valueAsNumber (env : MatchEnv) : Value → Option Rat
  | .u64 n => some (env.round n.toNat)
  | .i64 n => some (env.round n.toInt)
  | _ => none

/-- `candidate_of`. -/
def candidateOf (env : MatchEnv) (protocol : ProtocolName) (name : FieldName) (value : Value) : FieldCandidate :=
  ⟨(fieldValueStr env.fmt protocol name value).toList, valueAsNumber env value⟩

/-- `custom_candidates`. -/
def customCandidates (env : MatchEnv) (name : FieldName) (s : Stream) : List FieldCandidate :=
  let observed := match s.rollups.get name with
    | some (.accumulate values _ _) => values
    | some (.sample first last) => first.toList ++ last.toList
    | some (.series ring _ _) => ring.map SeriesPoint.value
    | none => []
  ((s.keyFields.get name).toList ++ observed).map (candidateOf env s.protocol name)

/-- `Duration::as_secs_f64`. -/
def asSecs (env : MatchEnv) (nanos : Nat) : Rat :=
  env.round (env.round (nanos / 10 ^ 9 : Nat) + env.round (env.round (nanos % 10 ^ 9 : Nat) / env.round (10 ^ 9)))

/-- The ports among the key fields of one stream. -/
def portNumbers (env : MatchEnv) (s : Stream) : List Rat :=
  s.keyFields.entries.filterMap fun e => if endsWith e.1 "port" then valueAsNumber env e.2 else none

/-- `field_candidates`. -/
def fieldCandidates (env : MatchEnv) (s : Stream) (ids : StreamId → Option Stream) : Field → List FieldCandidate
  | .proto => [.ofText s.protocol]
  | .id => [.ofNum env (env.round s.createdSeq)]
  | .packets => [.ofNum env (env.round (totalPackets s))]
  | .bytes => [.ofNum env (env.round (totalBytes s))]
  | .opaqueBytes => [.ofNum env (env.round s.opaqueBytes)]
  | .duration => [.ofNum env (asSecs env (nanosSince s.lastSeen s.firstSeen))]
  | .depth => [.ofNum env (env.round (lineage ids s).length)]
  | .children => [.ofNum env (env.round s.children.length)]
  | .state => [.ofText (s.state.getD "")]
  | .reason => [.ofText ((s.closed.map closeReasonStr).getD "")]
  | .endpoint =>
      let sides := endpointSides s
      .ofText sides.a :: .ofText sides.b :: sides.extras.map .ofText
  | .port => ((s :: lineage ids s).flatMap (portNumbers env)).map (.ofNum env)
  | .parent => [.ofText (((s.parent.bind ids).map Stream.protocol).getD "")]
  | .under => (lineage ids s).map fun t => .ofText t.protocol
  | .custom name => customCandidates env (String.ofList name) s

/-- A candidate against a literal. -/
def MatchEnv.holds (env : MatchEnv) (field : Field) (op : CmpOp) (value : Literal) (c : FieldCandidate) : Bool :=
  compare env.toQueryEnv env.reMatch env.round c op value field

/-- `StreamQuery::matches`. -/
def MatchEnv.matches (env : MatchEnv) : Expr → Stream → (StreamId → Option Stream) → Bool :=
  eval env.toLowercase env.reMatch fun field op value s ids =>
    (fieldCandidates env s ids field).any (env.holds field op value)

/-- The lenses with this evaluation. -/
def MatchEnv.lens (env : MatchEnv) : LensEnv := { env.toQueryEnv with isMatch := env.matches }

/-! ## The walk up -/

section Walk

variable {snap : AggregatorSnapshot} {s t p : Stream} {n : Nat}

/-- More fuel than there are streams above changes nothing. -/
theorem ancestors_eq (h : snap.WellFormed) (hs : s ∈ snap.streams) (hn : s.createdSeq ≤ n) :
    ancestors (byId snap.streams) n s = lineage (byId snap.streams) s := by
  have hlists := lists_byId h
  induction hseq : s.createdSeq using Nat.strong_induction_on generalizing s n with
  | _ q ih =>
      rw [lineage]
      cases hparent : s.parent.bind (byId snap.streams) with
      | none => cases n <;> cases hq : s.createdSeq <;> simp [ancestors, hparent]
      | some p =>
          have hlt : p.createdSeq < s.createdSeq := hlists.lower hs hparent
          have hp := hlists.parent_mem hparent
          -- a parent was created before, so that both amounts of fuel are positive
          obtain ⟨m, rfl⟩ : ∃ m, n = m + 1 := ⟨n - 1, by omega⟩
          obtain ⟨k, hk⟩ : ∃ k, s.createdSeq = k + 1 := ⟨s.createdSeq - 1, by omega⟩
          rw [hk, ancestors, ancestors, hparent]
          dsimp only
          rw [ih _ (hseq ▸ hlt) hp (n := m) (by omega) rfl, ih _ (hseq ▸ hlt) hp (n := k) (by omega) rfl]

theorem lineage_root (hparent : s.parent.bind (byId snap.streams) = none) : lineage (byId snap.streams) s = [] := by
  rw [lineage]
  cases s.createdSeq with
  | zero => rfl
  | succ n => rw [ancestors, hparent]

theorem lineage_child (h : snap.WellFormed) (hs : s ∈ snap.streams) (hp : ParentIn (byId snap.streams) s p) :
    lineage (byId snap.streams) s = p :: lineage (byId snap.streams) p := by
  have hlt : p.createdSeq < s.createdSeq := (lists_byId h).lower hs hp
  obtain ⟨k, hk⟩ : ∃ k, s.createdSeq = k + 1 := ⟨s.createdSeq - 1, by omega⟩
  rw [lineage, hk, ancestors, show s.parent.bind (byId snap.streams) = some p from hp]
  dsimp only
  rw [ancestors_eq h ((lists_byId h).parent_mem hp) (by omega)]

/-- The walk lists the strict ancestors. -/
theorem mem_lineage (h : snap.WellFormed) (hs : s ∈ snap.streams) :
    t ∈ lineage (byId snap.streams) s ↔ Relation.TransGen (ParentIn (byId snap.streams)) s t := by
  induction hseq : s.createdSeq using Nat.strong_induction_on generalizing s with
  | _ q ih =>
      rw [Relation.TransGen.head'_iff]
      cases hparent : s.parent.bind (byId snap.streams) with
      | none =>
          rw [lineage_root hparent]
          constructor
          · intro ht
            cases ht
          · rintro ⟨p, hp, -⟩
            rw [ParentIn, hparent] at hp
            cases hp
      | some p =>
          have hp : ParentIn (byId snap.streams) s p := hparent
          rw [lineage_child h hs hp, List.mem_cons,
            ih _ (hseq ▸ (lists_byId h).lower hs hp) ((lists_byId h).parent_mem hp) rfl]
          constructor
          · rintro (rfl | ht)
            · exact ⟨t, hp, .refl⟩
            · exact ⟨p, hp, ht.to_reflTransGen⟩
          -- the parent is the only one, and every path up begins with it
          · rintro ⟨q, hq, hqt⟩
            obtain rfl := Option.some.inj (hp.symm.trans hq)
            exact (Relation.reflTransGen_iff_eq_or_transGen.1 hqt)

/-- An ancestor was created before. -/
theorem created_before (h : snap.WellFormed) (hs : s ∈ snap.streams)
    (ht : Relation.TransGen (ParentIn (byId snap.streams)) s t) : t ∈ snap.streams ∧ t.createdSeq < s.createdSeq := by
  have hlists := lists_byId h
  induction ht with
  | single hp => exact ⟨hlists.parent_mem hp, hlists.lower hs hp⟩
  | tail _ hp ih => exact ⟨hlists.parent_mem hp, (hlists.lower ih.1 hp).trans ih.2⟩

theorem nodup_lineage (h : snap.WellFormed) (hs : s ∈ snap.streams) : (lineage (byId snap.streams) s).Nodup := by
  induction hseq : s.createdSeq using Nat.strong_induction_on generalizing s with
  | _ q ih =>
      cases hparent : s.parent.bind (byId snap.streams) with
      | none =>
          rw [lineage_root hparent]
          exact List.nodup_nil
      | some p =>
          have hp : ParentIn (byId snap.streams) s p := hparent
          have hmem := (lists_byId h).parent_mem hp
          rw [lineage_child h hs hp, List.nodup_cons]
          refine ⟨fun hself => ?_, ih _ (hseq ▸ (lists_byId h).lower hs hp) hmem rfl⟩
          exact Nat.lt_irrefl _ (created_before h hmem ((mem_lineage h hmem).1 hself)).2

end Walk

/-! ## Where a stream stands -/

section Lineage

variable {snap : AggregatorSnapshot} {s t p : Stream} {env : MatchEnv} {field : Field} {op : CmpOp} {value : Literal}

/-- What the fields of the lineage and the flags tell of a stream of a snapshot. -/
structure Lineage (env : MatchEnv) (snap : AggregatorSnapshot) (s : Stream) : Prop where
  /-- The depth is the number of strict ancestors. -/
  depth : ∃ above : List Stream, above.Nodup ∧
    (∀ t, t ∈ above ↔ Relation.TransGen (ParentIn (byId snap.streams)) s t) ∧
    ∀ op value, env.matches (.cmp .depth op value) s (byId snap.streams) =
      env.holds .depth op value (.ofNum env (env.round above.length))
  /-- The children are counted as the snapshot has them. -/
  children : ∃ below : List Stream, below.Nodup ∧
    (∀ t, t ∈ below ↔ t ∈ snap.streams ∧ t.parent = some s.id) ∧
    ∀ op value, env.matches (.cmp .children op value) s (byId snap.streams) =
      env.holds .children op value (.ofNum env (env.round below.length))
  under : ∀ op value, env.matches (.cmp .under op value) s (byId snap.streams) = true ↔
    ∃ t, Relation.TransGen (ParentIn (byId snap.streams)) s t ∧ env.holds .under op value (.ofText t.protocol) = true
  port : ∀ op value, env.matches (.cmp .port op value) s (byId snap.streams) = true ↔
    ∃ t, AncestorOrSelf (byId snap.streams) s t ∧
      ∃ n ∈ portNumbers env t, env.holds .port op value (.ofNum env n) = true
  /-- A root has the empty text for a parent. -/
  parent : ∀ op value, env.matches (.cmp .parent op value) s (byId snap.streams) = true ↔
    (∃ p, ParentIn (byId snap.streams) s p ∧ env.holds .parent op value (.ofText p.protocol) = true) ∨
      s.parent = none ∧ env.holds .parent op value (.ofText "") = true
  root : env.matches (.flag .root) s (byId snap.streams) = true ↔
    ∀ t, ¬Relation.TransGen (ParentIn (byId snap.streams)) s t
  leaf : env.matches (.flag .leaf) s (byId snap.streams) = true ↔ ∀ t ∈ snap.streams, t.parent ≠ some s.id

theorem matches_cmp (ids : StreamId → Option Stream) :
    env.matches (.cmp field op value) s ids = (fieldCandidates env s ids field).any (env.holds field op value) := rfl

/-- One candidate. -/
theorem matches_single {ids : StreamId → Option Stream} {c : FieldCandidate}
    (hc : fieldCandidates env s ids field = [c]) :
    env.matches (.cmp field op value) s ids = env.holds field op value c := by
  rw [matches_cmp, hc, List.any_cons, List.any_nil, Bool.or_false]

/-- A stream names a parent exactly if the map knows it. -/
theorem parent_known (h : snap.WellFormed) (hs : s ∈ snap.streams) :
    (∃ p, ParentIn (byId snap.streams) s p) ↔ s.parent ≠ none := by
  constructor
  · rintro ⟨p, hp⟩ hnone
    rw [ParentIn, hnone] at hp
    cases hp
  · intro hsome
    obtain ⟨i, hi⟩ := Option.ne_none_iff_exists'.1 hsome
    obtain ⟨p, hp, rfl, -⟩ := h.parent s hs i hi
    exact ⟨p, (parentIn_iff h).2 ⟨hp, hi⟩⟩

/-- The children that a stream lists are the streams that name it as their parent. -/
theorem perm_children (h : snap.WellFormed) (hs : s ∈ snap.streams) :
    s.children.Perm ((snap.streams.filter fun t => t.parent = some s.id).map Stream.id) := by
  have hbefore : s.children.Nodup := by
    apply (h.children_ordered s hs).imp_of_mem
    rintro i j hi - hij rfl
    obtain ⟨t, ht, hid, -⟩ := h.child s hs i hi
    exact Nat.lt_irrefl _ (hij t ht t ht hid hid)
  -- both lists have no id twice, so that having the same ids is enough
  have hids : ((snap.streams.filter fun t => t.parent = some s.id).map Stream.id).Nodup :=
    h.ids_nodup.sublist (List.filter_sublist.map _)
  rw [List.perm_ext_iff_of_nodup hbefore hids]
  intro i
  rw [List.mem_map]
  constructor
  · intro hi
    obtain ⟨t, ht, hid, hparent⟩ := h.child s hs i hi
    exact ⟨t, List.mem_filter.2 ⟨ht, decide_eq_true hparent⟩, hid⟩
  · rintro ⟨t, ht, rfl⟩
    obtain ⟨hmem, hparent⟩ := List.mem_filter.1 ht
    obtain ⟨u, hu, hid, -, hchild⟩ := h.parent t hmem s.id (of_decide_eq_true hparent)
    rwa [id_inj h hu hs hid] at hchild

theorem lineage_of_wellFormed (h : snap.WellFormed) (hs : s ∈ snap.streams) (env : MatchEnv) : Lineage env snap s where
  depth := ⟨_, nodup_lineage h hs, fun _ => mem_lineage h hs, fun _ _ => matches_single rfl⟩
  children := by
    refine ⟨snap.streams.filter fun t => t.parent = some s.id, (streams_nodup h).filter _, fun t => ?_, ?_⟩
    · rw [List.mem_filter, decide_eq_true_iff]
    · intro op value
      have hlen := (perm_children h hs).length_eq
      rw [List.length_map] at hlen
      rw [← hlen]
      exact matches_single rfl
  under := by
    intro op value
    rw [matches_cmp, fieldCandidates, List.any_map, List.any_eq_true]
    simp only [mem_lineage h hs, Function.comp_apply]
  port := by
    intro op value
    rw [matches_cmp, fieldCandidates, List.any_map, List.any_eq_true]
    simp only [List.mem_flatMap, List.mem_cons, mem_lineage h hs, Function.comp_apply]
    constructor
    · rintro ⟨n, ⟨t, ht, hn⟩, hholds⟩
      exact ⟨t, Relation.reflTransGen_iff_eq_or_transGen.2 ht, n, hn, hholds⟩
    · rintro ⟨t, ht, n, hn, hholds⟩
      exact ⟨n, ⟨t, Relation.reflTransGen_iff_eq_or_transGen.1 ht, hn⟩, hholds⟩
  parent := by
    intro op value
    rw [matches_single rfl]
    cases hparent : s.parent.bind (byId snap.streams) with
    | none =>
        have hnone : s.parent = none := by
          by_contra hsome
          obtain ⟨p, hp⟩ := (parent_known h hs).2 hsome
          rw [ParentIn, hparent] at hp
          cases hp
        simp [ParentIn, hnone]
    | some p =>
        have hsome := (parent_known h hs).1 ⟨p, hparent⟩
        simp [ParentIn, hparent, hsome]
  root := by
    have hflag : env.matches (.flag .root) s (byId snap.streams) = s.parent.isNone := rfl
    rw [hflag, Option.isNone_iff_eq_none]
    constructor
    · intro hnone t ht
      obtain ⟨p, hp, -⟩ := Relation.TransGen.head'_iff.1 ht
      exact (parent_known h hs).1 ⟨p, hp⟩ hnone
    · intro hno
      by_contra hsome
      obtain ⟨p, hp⟩ := (parent_known h hs).2 hsome
      exact hno p (.single hp)
  leaf := by
    have hflag : env.matches (.flag .leaf) s (byId snap.streams) = s.children.isEmpty := rfl
    have hmem : ∀ i, i ∈ s.children ↔ ∃ t, (t ∈ snap.streams ∧ t.parent = some s.id) ∧ t.id = i := by
      intro i
      rw [(perm_children h hs).mem_iff, List.mem_map]
      simp only [List.mem_filter, decide_eq_true_eq]
    rw [hflag, List.isEmpty_iff, List.eq_nil_iff_forall_not_mem]
    constructor
    · intro hnone t ht hparent
      exact hnone t.id ((hmem _).2 ⟨t, ⟨ht, hparent⟩, rfl⟩)
    · intro hno i hi
      obtain ⟨t, ⟨ht, hparent⟩, -⟩ := (hmem i).1 hi
      exact hno t ht hparent

end Lineage

/-! ## What is inherited -/

/-- The queries made of `under` and `port` by `and` and `or`. -/
def Expr.inherits : Expr → Bool
  | .or l r => l.inherits && r.inherits
  | .and l r => l.inherits && r.inherits
  | .cmp .under _ _ => true
  | .cmp .port _ _ => true
  | _ => false

section Inherits

variable {snap : AggregatorSnapshot} {s t : Stream} {env : MatchEnv} {e : Expr}

/-- With a stream such a query matches every stream below it. -/
theorem matches_below (h : snap.WellFormed) (he : e.inherits = true) (ht : t ∈ snap.streams)
    (hbelow : AncestorOrSelf (byId snap.streams) t s) (hmatch : env.matches e s (byId snap.streams) = true) :
    env.matches e t (byId snap.streams) = true := by
  have hs := (lists_byId h).ancestor_mem ht hbelow
  induction e with
  | or l r ihl ihr =>
      rw [Expr.inherits, Bool.and_eq_true] at he
      have hmatch : env.matches l s (byId snap.streams) = true ∨ env.matches r s (byId snap.streams) = true :=
        Bool.or_eq_true_iff.1 hmatch
      exact Bool.or_eq_true_iff.2 (hmatch.imp (ihl he.1) (ihr he.2))
  | and l r ihl ihr =>
      rw [Expr.inherits, Bool.and_eq_true] at he
      have hmatch : env.matches l s (byId snap.streams) = true ∧ env.matches r s (byId snap.streams) = true :=
        Bool.and_eq_true_iff.1 hmatch
      exact Bool.and_eq_true_iff.2 ⟨ihl he.1 hmatch.1, ihr he.2 hmatch.2⟩
  | cmp field op value =>
      cases field with
      -- what is above the match is above the streams below it too
      | under =>
          obtain ⟨u, hu, hholds⟩ := ((lineage_of_wellFormed h hs env).under op value).1 hmatch
          exact ((lineage_of_wellFormed h ht env).under op value).2 ⟨u, hu.trans_right hbelow, hholds⟩
      | port =>
          obtain ⟨u, hu, n, hn, hholds⟩ := ((lineage_of_wellFormed h hs env).port op value).1 hmatch
          exact ((lineage_of_wellFormed h ht env).port op value).2 ⟨u, hbelow.trans hu, n, hn, hholds⟩
      | _ => cases he
  | _ => cases he

end Inherits

/-! ## The snapshots of a store -/

/-- In every snapshot of a store the walk up ends, and the fields of the lineage tell where a stream stands. -/
theorem lineage_matches (env : MatchEnv) {fenv : Env} {ops : List Op} {a : Aggregator} (h : Reaches fenv ops a)
    {s : Stream} (hs : s ∈ a.snapshot.streams) : Lineage env a.snapshot s :=
  lineage_of_wellFormed (Aggregator.snapshot_wellFormed h) hs env

/-- Without rounding, and with no regex. -/
def sampleMatchEnv : MatchEnv where
  toLowercase := toAsciiLowercase
  regexError := fun _ => none
  reMatch := fun _ _ => false
  round := id
  numberText := fun n => toString n.num
  fmt := ⟨fun _ => "", fun _ => none, id⟩

/-- A UDP stream of the sample capture has two streams above it. -/
theorem lineage_matches_sample :
    ∃ s ∈ (run (sampleEnv .none 2) sampleOps).snapshot.streams,
      Lineage sampleMatchEnv (run (sampleEnv .none 2) sampleOps).snapshot s ∧ s.protocol = "udp" ∧
        sampleMatchEnv.matches (.cmp .depth .eq ⟨"2".toList, some (2, []), none⟩) s
          (byId (run (sampleEnv .none 2) sampleOps).snapshot.streams) = true := by
  have hany : ((run (sampleEnv .none 2) sampleOps).snapshot.streams.any fun s => s.protocol == "udp" &&
      sampleMatchEnv.matches (.cmp .depth .eq ⟨"2".toList, some (2, []), none⟩) s
        (byId (run (sampleEnv .none 2) sampleOps).snapshot.streams)) = true := by decide +kernel
  obtain ⟨s, hs, hp⟩ := List.any_eq_true.1 hany
  obtain ⟨hudp, hdepth⟩ := Bool.and_eq_true_iff.1 hp
  exact ⟨s, hs, lineage_matches sampleMatchEnv (reaches_run _ sampleOps (by decide)) hs, beq_iff_eq.1 hudp, hdepth⟩

/-- For a query made of `under` and `port` by `and` and `or`, the sets that the lenses filter by have with a match the
whole tree below it. -/
theorem subtree_matches (env : MatchEnv) {fenv : Env} {ops : List Op} {a : Aggregator} (h : Reaches fenv ops a)
    {e : Expr} (he : e.inherits = true) {s t : Stream} (hs : s ∈ a.snapshot.streams) (ht : t ∈ a.snapshot.streams)
    (hbelow : AncestorOrSelf (byId a.snapshot.streams) t s)
    (hmatch : s.createdSeq ∈ (setsFor env.lens a.snapshot.streams e).1) :
    t.createdSeq ∈ (setsFor env.lens a.snapshot.streams e).1 ∧
      t.createdSeq ∈ (setsFor env.lens a.snapshot.streams e).2 := by
  have hwf := Aggregator.snapshot_wellFormed h
  have hstream : env.matches e s (byId a.snapshot.streams) = true := (mem_matches hwf hs).1 hmatch
  have hchild := matches_below hwf he ht hbelow hstream
  exact ⟨(mem_matches hwf ht).2 hchild, (mem_visible hwf ht).2 ⟨t, ht, hchild, .refl⟩⟩

/-- Below the first IP stream, for streams under Ethernet or on port 53. -/
def underEth : Expr :=
  .or (.cmp .under .eq ⟨"ETH".toList, none, none⟩) (.cmp .port .eq ⟨"53".toList, some (53, []), none⟩)

theorem subtree_matches_sample :
    ∃ s ∈ (run (sampleEnv .none 2) sampleOps).snapshot.streams,
      ∃ t ∈ (run (sampleEnv .none 2) sampleOps).snapshot.streams, s.protocol = "ip" ∧ t.parent = some s.id ∧
        t.createdSeq ∈
          (setsFor sampleMatchEnv.lens (run (sampleEnv .none 2) sampleOps).snapshot.streams underEth).1 ∧
        t.createdSeq ∈
          (setsFor sampleMatchEnv.lens (run (sampleEnv .none 2) sampleOps).snapshot.streams underEth).2 := by
  have hany : ((run (sampleEnv .none 2) sampleOps).snapshot.streams.any fun s =>
      (run (sampleEnv .none 2) sampleOps).snapshot.streams.any fun t => s.protocol == "ip" && (t.parent == some s.id &&
        decide (s.createdSeq ∈ (setsFor sampleMatchEnv.lens (run (sampleEnv .none 2) sampleOps).snapshot.streams
          underEth).1))) = true := by decide +kernel
  obtain ⟨s, hs, hany⟩ := List.any_eq_true.1 hany
  obtain ⟨t, ht, hp⟩ := List.any_eq_true.1 hany
  simp only [Bool.and_eq_true, beq_iff_eq, decide_eq_true_eq] at hp
  obtain ⟨hip, hparent, hmatch⟩ := hp
  have hreaches := reaches_run (sampleEnv .none 2) sampleOps (by decide)
  have hbelow := (parentIn_iff (Aggregator.snapshot_wellFormed hreaches)).2 ⟨hs, hparent⟩
  exact ⟨s, hs, t, ht, hip, hparent, subtree_matches sampleMatchEnv hreaches rfl hs ht (.single hbelow) hmatch⟩

end Pktflow.View
