import Pktflow.Lib.Handoff

/-!
# A consumer that works on a shared object

Behind every receipt the consumer of a handoff carries out some operations on an object that others look at, and more
of them when both threads are done. Each operation is a step of its own: the producer goes on between two of them, and
who looks at the object there finds the work half done. The consumer receives nothing before its operations are
carried out.

`Shown.Inv` tells what the object is in every state: what it is behind the operations of the receipts, up to those of
the last one that are still to come.
-/

set_option autoImplicit false

namespace Pktflow.Lib

universe u

/-- The operations behind a receipt, given the consumer before it, those at the end, and what each does. -/
structure Work (D I R C O S : Type u) where
  behind : D → C → I → List O
  settling : C → R → List O
  apply : O → S → S

namespace Work

variable {E D P I R C O S : Type u}

/-- The object behind some operations. -/
def after (w : Work D I R C O S) (object : S) (ops : List O) : S :=
  ops.foldl (fun object op => w.apply op object) object

/-- The threads, the object, and the operations still to come; `joined` is the end of the producer once the consumer
has taken it. -/
structure Shown (D P I R C O S : Type u) where
  threads : Handoff.State D P I R C
  object : S
  pending : List O
  joined : Option R

/-- Before the first step. -/
def init (producer : P) (consumer : C) (object : S) : Shown D P I R C O S :=
  ⟨Handoff.init producer consumer, object, [], none⟩

/-- One atomic step. -/
inductive Step (h : Handoff E D P I R C) (w : Work D I R C O S) : Shown D P I R C O S → Shown D P I R C O S → Prop where
  /-- The receiving side is not given up over operations. -/
  | quiet {v : Shown D P I R C O S} {t : Handoff.State D P I R C} (step : h.Step v.threads t)
      (kept : t.received = v.threads.received) (own : t.receiving = v.threads.receiving ∨ v.pending = []) :
      Step h w v { v with threads := t }
  | receive {v : Shown D P I R C O S} {t : Handoff.State D P I R C} {d : D} {item : I} (step : h.Step v.threads t)
      (receives : t.received = v.threads.received ++ [(d, item)]) (idle : v.pending = []) :
      Step h w v { v with threads := t, pending := w.behind d v.threads.consumer item }
  | act {v : Shown D P I R C O S} {op : O} {rest : List O} (next : v.pending = op :: rest) :
      Step h w v { v with object := w.apply op v.object, pending := rest }
  | join {v : Shown D P I R C O S} {r : R} (done : v.threads.Done r) (idle : v.pending = []) (first : v.joined = none) :
      Step h w v { v with pending := w.settling v.threads.consumer r, joined := some r }

/-- The states that the interleavings reach. -/
def Reaches (h : Handoff E D P I R C) (w : Work D I R C O S) : Shown D P I R C O S → Shown D P I R C O S → Prop :=
  Relation.ReflTransGen (w.Step h)

/-- The object behind all the operations of some receipts. -/
def worked (h : Handoff E D P I R C) (w : Work D I R C O S) (c : C) (object : S) (received : List (D × I)) : S :=
  (received.foldl (fun (x : C × S) r => (h.consume r.1 x.1 r.2, w.after x.2 (w.behind r.1 x.1 r.2))) (c, object)).2

section Object

variable {h : Handoff E D P I R C} {w : Work D I R C O S} {c : C} {object : S}

theorem after_append (object : S) (ops more : List O) :
    w.after object (ops ++ more) = w.after (w.after object ops) more := by
  rw [after, List.foldl_append]
  rfl

theorem worked_snoc (received : List (D × I)) (x : D × I) :
    w.worked h c object (received ++ [x]) =
      w.after (w.worked h c object received) (w.behind x.1 (h.consumed c received) x.2) := by
  have hconsumer : ∀ (received : List (D × I)) (c : C) (object : S),
      (received.foldl (fun (x : C × S) r => (h.consume r.1 x.1 r.2, w.after x.2 (w.behind r.1 x.1 r.2)))
        (c, object)).1 = h.consumed c received := by
    intro received
    induction received with
    | nil => exact fun _ _ => rfl
    | cons y received ih => exact fun c object => ih _ _
  rw [worked, List.foldl_append, List.foldl_cons, List.foldl_nil, hconsumer]
  rfl

end Object

/-- What holds in every interleaving: the operations of the last receipt, or those of the end, are carried out as far
as they are not pending. -/
structure Inv (h : Handoff E D P I R C) (w : Work D I R C O S) (p : P) (c : C) (object : S)
    (v : Shown D P I R C O S) : Prop where
  reached : h.Reaches (Handoff.init p c) v.threads
  running : v.joined = none →
    v.pending = [] ∧ v.object = w.worked h c object v.threads.received ∨
    ∃ before x done, v.threads.received = before ++ [x] ∧
      done ++ v.pending = w.behind x.1 (h.consumed c before) x.2 ∧
      v.object = w.after (w.worked h c object before) done
  settling : ∀ r, v.joined = some r → v.threads.Done r ∧ ∃ done,
    done ++ v.pending = w.settling v.threads.consumer r ∧
    v.object = w.after (w.worked h c object v.threads.received) done

section Runs

variable {h : Handoff E D P I R C} {w : Work D I R C O S} {p : P} {c : C} {object : S} {v v' : Shown D P I R C O S}

/-- With nothing pending the object is that behind all receipts. -/
theorem Inv.object_of_idle (hinv : Inv h w p c object v) (hrunning : v.joined = none) (hidle : v.pending = []) :
    v.object = w.worked h c object v.threads.received := by
  obtain ⟨-, hobject⟩ | ⟨before, x, done, hreceived, hops, hobject⟩ := hinv.running hrunning
  · exact hobject
  · rw [hidle, List.append_nil] at hops
    rw [hreceived, worked_snoc, ← hops, hobject]

theorem not_step_of_done {s t : Handoff.State D P I R C} {r : R} (hdone : s.Done r) : ¬h.Step s t := by
  obtain ⟨hended, hgone⟩ := hdone
  intro hstep
  cases hstep with
  | yield e working turn =>
      rw [hended] at working
      cases working
  | finish e working turn =>
      rw [hended] at working
      cases working
  | send sending open_ room =>
      rw [hended] at sending
      cases sending
  | refuse sending closed =>
      rw [hended] at sending
      cases sending
  | receive d open_ front =>
      rw [hgone] at open_
      cases open_
  | hangUp open_ empty ended =>
      rw [hgone] at open_
      cases open_

theorem inv_init (h : Handoff E D P I R C) (w : Work D I R C O S) (p : P) (c : C) (object : S) :
    Inv h w p c object (init p c object) where
  reached := .refl
  running := fun _ => .inl ⟨rfl, rfl⟩
  settling := fun _ hjoined => by cases hjoined

/-- Every step keeps the invariant. -/
theorem Inv.step (hinv : Inv h w p c object v) (hstep : w.Step h v v') : Inv h w p c object v' := by
  -- nothing but operations is behind the join
  have hrunning : ∀ {t}, h.Step v.threads t → v.joined = none := by
    intro t ht
    cases hjoined : v.joined with
    | none => rfl
    | some r => exact absurd ht (not_step_of_done (hinv.settling r hjoined).1)
  cases hstep with
  | quiet step kept own =>
      refine ⟨hinv.reached.tail step, fun hjoined => ?_, fun r hjoined => ?_⟩
      · dsimp only
        rw [kept]
        exact hinv.running hjoined
      · rw [hrunning step] at hjoined
        cases hjoined
  | @receive t d item step receives idle =>
      refine ⟨hinv.reached.tail step, fun hjoined => .inr ⟨v.threads.received, (d, item), [], receives, ?_, ?_⟩,
        fun r hjoined => ?_⟩
      · rw [(Handoff.Inv.reaches hinv.reached).consumer]
        rfl
      · exact hinv.object_of_idle hjoined idle
      · rw [hrunning step] at hjoined
        cases hjoined
  | @act op rest next =>
      refine ⟨hinv.reached, fun hjoined => ?_, fun r hjoined => ?_⟩
      · obtain ⟨hidle, -⟩ | ⟨before, x, done, hreceived, hops, hobject⟩ := hinv.running hjoined
        · rw [hidle] at next
          cases next
        · refine .inr ⟨before, x, done ++ [op], hreceived, ?_, ?_⟩
          · rw [← hops, next, List.append_assoc]
            rfl
          · rw [after_append, ← hobject]
            rfl
      · obtain ⟨hdone, done, hops, hobject⟩ := hinv.settling r hjoined
        refine ⟨hdone, done ++ [op], ?_, ?_⟩
        · rw [← hops, next, List.append_assoc]
          rfl
        · rw [after_append, ← hobject]
          rfl
  | @join r done idle first =>
      refine ⟨hinv.reached, fun hjoined => (by cases hjoined), fun r' hjoined => ?_⟩
      obtain rfl := Option.some.inj hjoined
      exact ⟨done, [], rfl, hinv.object_of_idle first idle⟩

/-- The invariant holds in every state that an interleaving reaches. -/
theorem Inv.reaches (hreaches : w.Reaches h (init p c object) v) : Inv h w p c object v := by
  induction hreaches with
  | refl => exact inv_init h w p c object
  | tail _ hstep ih => exact ih.step hstep

/-- Nothing but the operations changes the object. -/
theorem exists_ops (hreaches : w.Reaches h (init p c object) v) : ∃ ops, v.object = w.after object ops := by
  induction hreaches with
  | refl => exact ⟨[], rfl⟩
  | tail _ hstep ih =>
      obtain ⟨ops, hops⟩ := ih
      cases hstep with
      | quiet step kept own => exact ⟨ops, hops⟩
      | receive step receives idle => exact ⟨ops, hops⟩
      | join done idle first => exact ⟨ops, hops⟩
      | @act op rest next =>
          refine ⟨ops ++ [op], ?_⟩
          rw [after_append, ← hops]
          rfl

/-- The pending operations can be carried out. -/
theorem reaches_idle (w : Work D I R C O S) (h : Handoff E D P I R C) (v : Shown D P I R C O S) :
    w.Reaches h v { v with object := w.after v.object v.pending, pending := [] } := by
  obtain ⟨threads, object, pending, joined⟩ := v
  induction pending generalizing object with
  | nil => exact .refl
  | cons op rest ih => exact .head (.act rfl) (ih _)

/-- Every interleaving of the threads is one of their interleavings with the work. -/
theorem reaches_threads {s : Handoff.State D P I R C} (hreaches : h.Reaches (Handoff.init p c) s) :
    ∃ o, w.Reaches h (init p c object) ⟨s, o, [], none⟩ := by
  induction hreaches with
  | refl => exact ⟨object, .refl⟩
  | @tail s t _ hstep ih =>
      obtain ⟨o, hv⟩ := ih
      have hquiet : t.received = s.received → ∃ o, w.Reaches h (init p c object) ⟨t, o, [], none⟩ :=
        fun hkept => ⟨o, hv.tail (.quiet hstep hkept (.inr rfl))⟩
      cases hstep with
      | yield e working turn => exact hquiet rfl
      | finish e working turn => exact hquiet rfl
      | send sending open_ room => exact hquiet rfl
      | refuse sending closed => exact hquiet rfl
      | hangUp open_ empty ended => exact hquiet rfl
      | receive d open_ front =>
          exact ⟨_, (hv.tail (.receive (.receive d open_ front) rfl rfl)).trans (reaches_idle w h _)⟩

end Runs

end Work

end Pktflow.Lib
