import Mathlib.Data.List.Basic
import Mathlib.Logic.Relation

/-!
# A producer and a consumer over a bounded channel

Two threads share a first-in first-out channel of bounded capacity. The producer takes turns: a turn yields one item,
which is then sent, or ends the producer, and with it the sending side of the channel. The consumer receives one item
at a time and ends when the channel is empty and its sending side is gone. Turns and receipts may depend on inputs
from outside, which are arbitrary.

`Inv` is the invariant of all interleavings: what was yielded is what was consumed, then the channel, then the item
being sent. From it: nothing is lost, duplicated or reordered (`consumed_of_done`), the channel keeps its bound, no
state but the final ones is stuck (`progress`), and a bounded producer bounds every run (`Run.length_le`).
-/

set_option autoImplicit false

namespace Pktflow.Lib

universe u

/-- What a turn of the producer comes to. -/
inductive Turn (P I R : Type u) where
  | yield (producer : P) (item : I)
  | finish (result : R)

/-- A producer, the channel's capacity, and a consumer. `refused` is what becomes of a producer whose item is not
taken because the receiving side is gone. -/
structure Handoff (E D P I R C : Type u) where
  capacity : Nat
  turn : E → P → Turn P I R
  refused : P → I → R
  consume : D → C → I → C

namespace Handoff

variable {E D P I R C : Type u}

/-- How far the producer is. -/
inductive Phase (P I R : Type u) where
  | working (producer : P)
  | sending (producer : P) (item : I)
  | ended (result : R)

/-- Both threads and the channel. The ghosts are the items yielded so far, and those received with the inputs of their
receipts. -/
structure State (D P I R C : Type u) where
  phase : Phase P I R
  channel : List I
  consumer : C
  receiving : Bool
  yielded : List I
  received : List (D × I)

/-- Before the first step. -/
def init (producer : P) (consumer : C) : State D P I R C := ⟨.working producer, [], consumer, true, [], []⟩

/-- One atomic step of one of the threads. -/
inductive Step (h : Handoff E D P I R C) : State D P I R C → State D P I R C → Prop where
  | yield {s : State D P I R C} {p p' : P} {item : I} (e : E) (working : s.phase = .working p)
      (turn : h.turn e p = .yield p' item) :
      Step h s { s with phase := .sending p' item, yielded := s.yielded ++ [item] }
  | finish {s : State D P I R C} {p : P} {r : R} (e : E) (working : s.phase = .working p)
      (turn : h.turn e p = .finish r) : Step h s { s with phase := .ended r }
  | send {s : State D P I R C} {p : P} {item : I} (sending : s.phase = .sending p item)
      (open_ : s.receiving = true) (room : s.channel.length < h.capacity) :
      Step h s { s with phase := .working p, channel := s.channel ++ [item] }
  | refuse {s : State D P I R C} {p : P} {item : I} (sending : s.phase = .sending p item)
      (closed : s.receiving = false) : Step h s { s with phase := .ended (h.refused p item) }
  | receive {s : State D P I R C} {item : I} {rest : List I} (d : D) (open_ : s.receiving = true)
      (front : s.channel = item :: rest) :
      Step h s { s with
        channel := rest
        consumer := h.consume d s.consumer item
        received := s.received ++ [(d, item)] }
  | hangUp {s : State D P I R C} {r : R} (open_ : s.receiving = true) (empty : s.channel = [])
      (ended : s.phase = .ended r) : Step h s { s with receiving := false }

/-- The states that the interleavings reach. -/
def Reaches (h : Handoff E D P I R C) : State D P I R C → State D P I R C → Prop := Relation.ReflTransGen h.Step

/-- Runs with their number of steps. -/
inductive Run (h : Handoff E D P I R C) : Nat → State D P I R C → State D P I R C → Prop where
  | nil (s : State D P I R C) : Run h 0 s s
  | snoc {n : Nat} {s t u : State D P I R C} (run : Run h n s t) (step : h.Step t u) : Run h (n + 1) s u

/-- The producer by itself: the items that its turns yield, and the producer behind them. -/
inductive Yields (h : Handoff E D P I R C) (p : P) : List I → P → Prop where
  | nil : Yields h p [] p
  | snoc {items : List I} {p₁ p₂ : P} {item : I} (e : E) (yields : Yields h p items p₁)
      (turn : h.turn e p₁ = .yield p₂ item) : Yields h p (items ++ [item]) p₂

/-- The producer by itself, to its end. -/
def Produces (h : Handoff E D P I R C) (p : P) (items : List I) (r : R) : Prop :=
  ∃ p' e, h.Yields p items p' ∧ h.turn e p' = .finish r

/-- The consumer by itself. -/
def consumed (h : Handoff E D P I R C) (c : C) (received : List (D × I)) : C :=
  received.foldl (fun c x => h.consume x.1 c x.2) c

/-- The item that is being sent. -/
def Phase.pending : Phase P I R → List I
  | .sending _ item => [item]
  | _ => []

/-- Both threads are done. -/
def State.Done (s : State D P I R C) (r : R) : Prop := s.phase = .ended r ∧ s.receiving = false

/-- What holds in every interleaving. -/
structure Inv (h : Handoff E D P I R C) (p : P) (c : C) (s : State D P I R C) : Prop where
  order : s.yielded = s.received.map Prod.snd ++ (s.channel ++ s.phase.pending)
  bounded : s.channel.length ≤ h.capacity
  consumer : s.consumer = h.consumed c s.received
  producer : match s.phase with
    | .working p' => h.Yields p s.yielded p'
    | .sending p' _ => h.Yields p s.yielded p'
    | .ended r => h.Produces p s.yielded r
  /-- The receiving side is gone only when all is done. -/
  closed : s.receiving = false → s.channel = [] ∧ ∃ r, s.phase = .ended r

section Runs

variable {h : Handoff E D P I R C} {p : P} {c : C} {s t : State D P I R C}

theorem consumed_snoc (received : List (D × I)) (x : D × I) :
    h.consumed c (received ++ [x]) = h.consume x.1 (h.consumed c received) x.2 := by
  rw [consumed, List.foldl_append]
  rfl

theorem inv_init (h : Handoff E D P I R C) (p : P) (c : C) : Inv h p c (init p c) where
  order := rfl
  bounded := Nat.zero_le _
  consumer := rfl
  producer := .nil
  closed := fun hclosed => by cases hclosed

/-- Every step keeps the invariant. -/
theorem Inv.step (hinv : Inv h p c s) (hstep : h.Step s t) : Inv h p c t := by
  obtain ⟨horder, hbounded, hconsumer, hproducer, hclosed⟩ := hinv
  cases hstep with
  | yield e working turn =>
      rw [working] at horder hproducer
      refine ⟨?_, hbounded, hconsumer, hproducer.snoc e turn, fun hgone => ?_⟩
      · simp only [Phase.pending, List.append_nil] at horder ⊢
        rw [horder, List.append_assoc]
      · obtain ⟨-, r, hr⟩ := hclosed hgone
        rw [working] at hr
        cases hr
  | @finish _ r e working turn =>
      rw [working] at horder hproducer
      refine ⟨horder, hbounded, hconsumer, ⟨_, e, hproducer, turn⟩, fun hgone => ?_⟩
      obtain ⟨-, r, hr⟩ := hclosed hgone
      rw [working] at hr
      cases hr
  | send sending open_ room =>
      rw [sending] at horder hproducer
      refine ⟨?_, ?_, hconsumer, hproducer, fun hgone => absurd (open_.symm.trans hgone) (by decide)⟩
      · simp only [Phase.pending, List.append_nil] at horder ⊢
        exact horder
      · rw [List.length_append]
        exact room
  | refuse sending closed =>
      -- an item is only refused behind the end of the producer, which has no item
      obtain ⟨-, r, hr⟩ := hclosed closed
      rw [sending] at hr
      cases hr
  | receive d open_ front =>
      rw [front] at horder hbounded
      refine ⟨?_, Nat.le_of_succ_le hbounded, ?_, hproducer,
        fun hgone => absurd (open_.symm.trans hgone) (by decide)⟩
      · rw [horder, List.map_append, List.append_assoc]
        rfl
      · rw [consumed_snoc, ← hconsumer]
  | @hangUp r open_ empty ended =>
      exact ⟨horder, hbounded, hconsumer, hproducer, fun _ => ⟨empty, r, ended⟩⟩

/-- The invariant holds in every state that an interleaving reaches. -/
theorem Inv.reaches (hreaches : h.Reaches (init p c) s) : Inv h p c s := by
  induction hreaches with
  | refl => exact inv_init h p c
  | tail _ hstep ih => exact ih.step hstep

/-- When both threads are done, all that the producer yields by itself was consumed, in its order. -/
theorem consumed_of_done (hreaches : h.Reaches (init p c) s) {r : R} (hdone : s.Done r) :
    h.Produces p (s.received.map Prod.snd) r ∧ s.consumer = h.consumed c s.received := by
  obtain ⟨hended, hgone⟩ := hdone
  obtain ⟨horder, -, hconsumer, hproducer, hclosed⟩ := Inv.reaches hreaches
  obtain ⟨hempty, -⟩ := hclosed hgone
  rw [hended] at horder hproducer
  simp only [hempty, Phase.pending, List.append_nil] at horder
  exact ⟨horder ▸ hproducer, hconsumer⟩

/-- No item is ever refused. -/
theorem receiving_of_sending (hreaches : h.Reaches (init p c) s) {p' : P} {item : I}
    (hsending : s.phase = .sending p' item) : s.receiving = true := by
  cases hreceiving : s.receiving with
  | true => rfl
  | false =>
      obtain ⟨-, r, hr⟩ := (Inv.reaches hreaches).closed hreceiving
      rw [hsending] at hr
      cases hr

/-- A state in which no step can be taken is one in which both threads are done. -/
theorem progress [Nonempty E] [Nonempty D] (hcapacity : 0 < h.capacity) (hreaches : h.Reaches (init p c) s) :
    (∃ r, s.Done r) ∨ ∃ t, h.Step s t := by
  obtain ⟨d⟩ := ‹Nonempty D›
  obtain ⟨e⟩ := ‹Nonempty E›
  cases hphase : s.phase with
  | working p' =>
      right
      cases hturn : h.turn e p' with
      | yield p'' item => exact ⟨_, .yield e hphase hturn⟩
      | finish r => exact ⟨_, .finish e hphase hturn⟩
  | sending p' item =>
      right
      have hopen := receiving_of_sending hreaches hphase
      cases hchannel : s.channel with
      | nil => exact ⟨_, .send hphase hopen (by rw [hchannel]; exact hcapacity)⟩
      -- the consumer makes room
      | cons front rest => exact ⟨_, .receive d hopen hchannel⟩
  | ended r =>
      cases hreceiving : s.receiving with
      | false => exact .inl ⟨r, hphase, hreceiving⟩
      | true =>
          right
          cases hchannel : s.channel with
          | nil => exact ⟨_, .hangUp hreceiving hchannel hphase⟩
          | cons front rest => exact ⟨_, .receive d hreceiving hchannel⟩

/-- The steps that are still to come, if the producer has at most `left` items left. -/
def measure (left : P → Nat) (s : State D P I R C) : Nat :=
  s.channel.length + (if s.receiving then 1 else 0) +
    match s.phase with
    | .working p => 3 * left p + 1
    | .sending p _ => 3 * left p + 3
    | .ended _ => 0

/-- Every step lowers the measure. -/
theorem measure_lt {left : P → Nat} (hleft : ∀ e q q' item, h.turn e q = .yield q' item → left q' < left q)
    (hstep : h.Step s t) : measure left t < measure left s := by
  cases hstep with
  | @yield p p' item e working turn =>
      have hlt := hleft e p p' item turn
      simp only [measure, working]
      omega
  | finish e working turn =>
      simp only [measure, working]
      omega
  | send sending open_ room =>
      simp only [measure, sending, List.length_append, List.length_singleton]
      omega
  | refuse sending closed =>
      simp only [measure, sending]
      omega
  | receive d open_ front =>
      simp only [measure, front, List.length_cons]
      omega
  | hangUp open_ empty ended =>
      simp only [measure, open_, empty, ended, List.length_nil, if_true, Bool.false_eq_true, if_false]
      omega

/-- A run takes no more steps than the measure of its first state. -/
theorem Run.length_le {left : P → Nat} (hleft : ∀ e q q' item, h.turn e q = .yield q' item → left q' < left q)
    {n : Nat} (hrun : h.Run n s t) : n + measure left t ≤ measure left s := by
  induction hrun with
  | nil s => exact Nat.le_of_eq (Nat.zero_add _)
  | snoc _ hstep ih =>
      have hlt := measure_lt hleft hstep
      omega

/-- From every reachable state of a bounded producer both threads can be brought to their end. -/
theorem exists_done [Nonempty E] [Nonempty D] {left : P → Nat}
    (hleft : ∀ e q q' item, h.turn e q = .yield q' item → left q' < left q) (hcapacity : 0 < h.capacity)
    (hreaches : h.Reaches (init p c) s) : ∃ t r, h.Reaches (init p c) t ∧ t.Done r := by
  obtain ⟨n, hn⟩ : ∃ n, measure left s = n := ⟨_, rfl⟩
  induction n using Nat.strongRecOn generalizing s with
  | ind n ih =>
      obtain ⟨r, hdone⟩ | ⟨t, hstep⟩ := progress hcapacity hreaches
      · exact ⟨s, r, hreaches, hdone⟩
      · exact ih _ (hn ▸ measure_lt hleft hstep) (hreaches.tail hstep) rfl

theorem Run.reaches {n : Nat} (hrun : h.Run n s t) : h.Reaches s t := by
  induction hrun with
  | nil s => exact .refl
  | snoc _ hstep ih => exact ih.tail hstep

end Runs

end Handoff

end Pktflow.Lib
