import Pktflow.Core.Parser

/-!
# Checked byte access

Model of `pktflow-core/src/bytes.rs`: plugins read headers through a cursor whose every read is checked
against the end of the input. The cursor is the unread rest of the input.
-/

set_option autoImplicit false

namespace Pktflow.Core

/-- `ByteReader`: a computation on the unread bytes that may run past their end. -/
abbrev ByteReader := StateT (List UInt8) (Except ParseError)

namespace ByteReader

/-- `ByteReader::take`. -/
def take (n : Nat) : ByteReader (List UInt8) := fun buf =>
  if n ≤ buf.length then .ok (buf.take n, buf.drop n) else .error (.truncated n buf.length)

/-- The number that big-endian bytes denote. -/
def fromBeBytes (bytes : List UInt8) : Nat := bytes.foldl (fun n b => 256 * n + b.toNat) 0

/-- `ByteReader::u8`. -/
def u8 : ByteReader UInt8 := return UInt8.ofNat (fromBeBytes (← take 1))

/-- `ByteReader::u16_be`. -/
def u16Be : ByteReader UInt16 := return UInt16.ofNat (fromBeBytes (← take 2))

/-- `ByteReader::u32_be`. -/
def u32Be : ByteReader UInt32 := return UInt32.ofNat (fromBeBytes (← take 4))

/-- Runs a parse on an input from offset 0. -/
def parse {α : Type} (r : ByteReader α) (bytes : List UInt8) : Except ParseError α := r.run' bytes

section Reads

variable {α β : Type}

/-- A parse in two parts succeeds if its parts do, one after the other. -/
theorem bind_eq_ok {x : ByteReader α} {f : α → ByteReader β} {buf rest : List UInt8} {b : β} :
    (x >>= f) buf = .ok (b, rest) ↔ ∃ a mid, x buf = .ok (a, mid) ∧ f a mid = .ok (b, rest) := by
  change Except.bind (x buf) (fun p => f p.1 p.2) = .ok (b, rest) ↔ _
  cases hx : x buf with
  | error e => simp [Except.bind]
  | ok p =>
      obtain ⟨a, mid⟩ := p
      simp [Except.bind, Prod.mk.injEq]

theorem bind_of_ok {x : ByteReader α} {f : α → ByteReader β} {buf mid : List UInt8} {a : α}
    (h : x buf = .ok (a, mid)) : (x >>= f) buf = f a mid := by
  change Except.bind (x buf) (fun p => f p.1 p.2) = _
  rw [h]
  rfl

theorem bind_of_error {x : ByteReader α} {f : α → ByteReader β} {buf : List UInt8} {err : ParseError}
    (h : x buf = .error err) : (x >>= f) buf = .error err := by
  change Except.bind (x buf) (fun p => f p.1 p.2) = _
  rw [h]
  rfl

theorem take_eq_ok {n : Nat} {buf rest taken : List UInt8} :
    take n buf = .ok (taken, rest) ↔ buf = taken ++ rest ∧ taken.length = n := by
  rw [take]
  split
  · rename_i hle
    simp only [Except.ok.injEq, Prod.mk.injEq]
    constructor
    · rintro ⟨rfl, rfl⟩
      exact ⟨(List.take_append_drop n buf).symm, List.length_take_of_le hle⟩
    · rintro ⟨rfl, rfl⟩
      simp
  · rename_i hlt
    simp only [reduceCtorEq, false_iff, not_and]
    rintro rfl hlen
    simp at hlt
    omega

theorem parse_eq_ok {r : ByteReader α} {bytes : List UInt8} {a : α} :
    r.parse bytes = .ok a ↔ ∃ rest, r bytes = .ok (a, rest) := by
  unfold parse StateT.run'
  change Except.map Prod.fst (r bytes) = .ok a ↔ _
  cases r bytes with
  | error e => simp [Except.map]
  | ok p =>
      obtain ⟨b, rest⟩ := p
      simp [Except.map]

/-! ## What a read ensures -/

/-- Whatever the input, a read that succeeds returns a value of this kind. -/
def Ensures (x : ByteReader α) (P : α → Prop) : Prop := ∀ buf rest a, x buf = .ok (a, rest) → P a

theorem Ensures.bind {x : ByteReader α} {f : α → ByteReader β} {Q : α → Prop} {P : β → Prop}
    (hx : Ensures x Q) (hf : ∀ a, Q a → Ensures (f a) P) : Ensures (x >>= f) P := by
  intro buf rest b h
  obtain ⟨a, mid, ha, hb⟩ := bind_eq_ok.1 h
  exact hf a (hx buf mid a ha) mid rest b hb

theorem ensures_true (x : ByteReader α) : Ensures x fun _ => True :=
  fun _ _ _ _ => trivial

theorem ensures_take (n : Nat) : Ensures (take n) fun taken => taken.length = n := by
  intro buf rest taken h
  exact (take_eq_ok.1 h).2

theorem ensures_pure {P : α → Prop} {a : α} (h : P a) : Ensures (pure a) P := by
  intro buf rest b hb
  obtain ⟨rfl, -⟩ := Prod.mk.inj (Except.ok.inj hb)
  exact h

theorem ensures_throw (P : α → Prop) (e : ParseError) : Ensures (throw e : ByteReader α) P := by
  intro buf rest b hb
  cases hb

/-- A check that may refuse the input. -/
theorem Ensures.guard {c : Prop} [Decidable c] {e : ParseError} {f : Unit → ByteReader α} {P : α → Prop}
    (hf : Ensures (f ()) P) : Ensures (if c then throw e >>= f else f ()) P := by
  split
  · exact (ensures_throw (fun _ => False) e).bind fun _ h => h.elim
  · exact hf

/-- The reads before the one that matters. -/
theorem Ensures.skip {x : ByteReader α} {f : α → ByteReader β} {P : β → Prop}
    (hf : ∀ a, Ensures (f a) P) : Ensures (x >>= f) P :=
  (ensures_true x).bind fun a _ => hf a

theorem Ensures.parse {x : ByteReader α} {P : α → Prop} (hx : Ensures x P) {bytes : List UInt8} {a : α}
    (h : x.parse bytes = .ok a) : P a := by
  obtain ⟨rest, hrest⟩ := parse_eq_ok.1 h
  exact hx bytes rest a hrest

theorem u8_cons (b : UInt8) (rest : List UInt8) : u8 (b :: rest) = .ok (b, rest) := by
  have hbyte : UInt8.ofNat (fromBeBytes [b]) = b := by simp [fromBeBytes]
  refine bind_eq_ok.2 ⟨[b], rest, take_eq_ok.2 ⟨rfl, rfl⟩, ?_⟩
  rw [hbyte]
  rfl

theorem u16Be_cons (b c : UInt8) (rest : List UInt8) :
    u16Be (b :: c :: rest) = .ok (UInt16.ofNat (fromBeBytes [b, c]), rest) :=
  bind_eq_ok.2 ⟨[b, c], rest, take_eq_ok.2 ⟨rfl, rfl⟩, rfl⟩

/-! ## Reads in front of more bytes -/

/-- Where `x` succeeds with a value of this kind, `y` reads the same value in front of any more bytes. -/
def Extends (P : α → Prop) (x y : ByteReader α) : Prop :=
  ∀ buf rest a more, x buf = .ok (a, rest) → P a → y (buf ++ more) = .ok (a, rest ++ more)

theorem Extends.bind {x : ByteReader α} {f g : α → ByteReader β} {P : β → Prop}
    (hx : Extends (fun _ => True) x x) (hf : ∀ a, Extends P (f a) (g a)) : Extends P (x >>= f) (x >>= g) := by
  intro buf rest b more h hP
  obtain ⟨a, mid, ha, hb⟩ := bind_eq_ok.1 h
  exact bind_eq_ok.2 ⟨a, mid ++ more, hx buf mid a more ha trivial, hf a mid rest b more hb hP⟩

/-- A check of what was read before. -/
theorem Extends.guard {c : Prop} [Decidable c] {e : ParseError} {f g : Unit → ByteReader α} {P : α → Prop}
    (hf : Extends P (f ()) (g ())) :
    Extends P (if c then throw e >>= f else f ()) (if c then throw e >>= g else g ()) := by
  split
  · intro buf rest a more h _
    cases h
  · exact hf

theorem Extends.parse {P : α → Prop} {x y : ByteReader α} (h : Extends P x y) {bytes : List UInt8} {a : α}
    (hx : x.parse bytes = .ok a) (hP : P a) (more : List UInt8) : y.parse (bytes ++ more) = .ok a := by
  obtain ⟨rest, hrest⟩ := parse_eq_ok.1 hx
  exact parse_eq_ok.2 ⟨rest ++ more, h bytes rest a more hrest hP⟩

end Reads

end ByteReader

end Pktflow.Core
