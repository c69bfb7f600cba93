import Pktflow.Core.Bytes
import Pktflow.Lib.PrefixCode
import Mathlib.Tactic.Positivity
import Mathlib.Tactic.Ring

/-!
# Reads that know their end

A read may stop at an end that the bytes themselves mark. `Reads` says that it reads these bytes, whatever
follows them; `Exact` that wherever it succeeds it has read such bytes, and would have refused each shorter part
of them. Both pass to reads made of reads. `HonestHeader` says of a plugin that its headers are read so.
-/

set_option autoImplicit false

namespace Pktflow.Core

namespace ByteReader

/-- `r` reads these bytes as `a`, whatever follows them. -/
def Reads {α : Type} (r : ByteReader α) (used : List UInt8) (a : α) : Prop :=
  ∀ more, r (used ++ more) = .ok (a, more)

/-- `r` refuses each strict prefix of these bytes. -/
def Needs {α : Type} (r : ByteReader α) (used : List UInt8) : Prop :=
  ∀ n, n < used.length → ∃ e, r (used.take n) = .error e

/-- What `r` reads it needs to the last byte, and it looks at no byte behind. -/
def Exact {α : Type} (r : ByteReader α) : Prop :=
  ∀ buf a rest, r buf = .ok (a, rest) → ∃ used, buf = used ++ rest ∧ Reads r used a ∧ Needs r used

section Exactness

variable {α β : Type}

/-! ## Reading back -/

theorem reads_pure (a : α) : Reads (pure a) [] a := fun _ => rfl

theorem reads_take (bytes : List UInt8) : Reads (take bytes.length) bytes bytes :=
  fun _ => take_eq_ok.2 ⟨rfl, rfl⟩

theorem reads_take_of_length {n : Nat} {bytes : List UInt8} (h : bytes.length = n) : Reads (take n) bytes bytes :=
  h ▸ reads_take bytes

theorem reads_u8 (b : UInt8) : Reads u8 [b] b := fun more => u8_cons b more

theorem toNat_low_bits (b : UInt8) : (b &&& 0x7F).toNat = b.toNat % 128 := by
  rw [UInt8.toNat_and]
  exact Nat.and_two_pow_sub_one_eq_mod b.toNat 7

/-- A run of bits that is left where it stands. -/
theorem and_run (n k j : Nat) : n &&& 2 ^ k * (2 ^ j - 1) = 2 ^ k * (n / 2 ^ k % 2 ^ j) := by
  have hdiv : (n &&& 2 ^ k * (2 ^ j - 1)) / 2 ^ k = n / 2 ^ k % 2 ^ j := by
    rw [Nat.and_div_two_pow, Nat.mul_div_cancel_left _ (by positivity), Nat.and_two_pow_sub_one_eq_mod]
  have hmod : (n &&& 2 ^ k * (2 ^ j - 1)) % 2 ^ k = 0 := by
    rw [Nat.and_mod_two_pow, Nat.mul_mod_right, Nat.and_zero]
  rw [← Nat.div_add_mod (n &&& _) (2 ^ k), hdiv, hmod, Nat.add_zero]

theorem high_bit_eq_zero {b : UInt8} : b &&& 0x80 = 0 ↔ b.toNat < 128 := by
  have hlt := b.toNat_lt
  have hbit : (b &&& 0x80).toNat = 2 ^ 7 * (b.toNat / 2 ^ 7 % 2 ^ 1) := (UInt8.toNat_and b 0x80).trans (and_run _ 7 1)
  rw [← UInt8.toNat_inj, hbit, show (0 : UInt8).toNat = 0 from rfl]
  omega

theorem toNat_byte {n : Nat} (h : n < 256) : (UInt8.ofNat n).toNat = n := UInt8.toNat_ofNat_of_lt' h

theorem foldl_beBytes (acc w n : Nat) :
    (Lib.beBytes w n).foldl (fun n b => 256 * n + b.toNat) acc = 256 ^ w * acc + n % 256 ^ w := by
  induction w generalizing acc with
  | zero => simp [Lib.beBytes, Nat.mod_one]
  | succ w ih =>
      -- the first byte is the digit above the `w` that follow
      have hdigit : (UInt8.ofNat (n / 256 ^ w)).toNat = n / 256 ^ w % 256 := by simp
      rw [Lib.beBytes, List.foldl_cons, ih, hdigit, pow_succ, Nat.mod_mul]
      ring

/-- A number is read back from its bytes. -/
theorem fromBeBytes_beBytes (w n : Nat) : fromBeBytes (Lib.beBytes w n) = n % 256 ^ w := by
  rw [fromBeBytes, foldl_beBytes, Nat.mul_zero, Nat.zero_add]

theorem fromBeBytes_cons (b : UInt8) (bs : List UInt8) :
    fromBeBytes (b :: bs) = 256 ^ bs.length * b.toNat + fromBeBytes bs := by
  have hacc : ∀ acc, bs.foldl (fun n b => 256 * n + b.toNat) acc = 256 ^ bs.length * acc + fromBeBytes bs := by
    intro acc
    rw [fromBeBytes]
    induction bs generalizing acc with
    | nil => simp
    | cons c bs ih =>
        rw [List.foldl_cons, List.foldl_cons, ih, ih (256 * 0 + c.toNat), List.length_cons, pow_succ]
        ring
  rw [fromBeBytes, List.foldl_cons, hacc, Nat.mul_zero, Nat.zero_add]

theorem fromBeBytes_lt (bs : List UInt8) : fromBeBytes bs < 256 ^ bs.length := by
  induction bs with
  | nil => decide
  | cons b bs ih =>
      have hb : b.toNat + 1 ≤ 256 := b.toNat_lt
      have hmul : 256 ^ bs.length * (b.toNat + 1) ≤ 256 ^ bs.length * 256 := Nat.mul_le_mul_left _ hb
      rw [fromBeBytes_cons, List.length_cons, pow_succ]
      rw [Nat.mul_add, Nat.mul_one] at hmul
      omega

theorem beBytes_mul_add (w k n : Nat) : Lib.beBytes w (256 ^ w * k + n) = Lib.beBytes w n := by
  induction w generalizing k with
  | zero => rfl
  | succ w ih =>
      have hsplit : 256 ^ (w + 1) * k + n = 256 ^ w * (256 * k) + n := by ring
      have hdigit : UInt8.ofNat ((256 ^ w * (256 * k) + n) / 256 ^ w) = UInt8.ofNat (n / 256 ^ w) := by
        apply UInt8.toNat_inj.1
        rw [Nat.mul_add_div (by positivity)]
        simp
      rw [Lib.beBytes, Lib.beBytes, hsplit, ih, hdigit]

/-- Bytes are the big-endian form of the number they denote. -/
theorem beBytes_fromBeBytes (bs : List UInt8) : Lib.beBytes bs.length (fromBeBytes bs) = bs := by
  induction bs with
  | nil => rfl
  | cons b bs ih =>
      have hlt := fromBeBytes_lt bs
      have hdigit : (256 ^ bs.length * b.toNat + fromBeBytes bs) / 256 ^ bs.length = b.toNat := by
        rw [Nat.mul_add_div (by positivity), Nat.div_eq_of_lt hlt, Nat.add_zero]
      rw [List.length_cons, Lib.beBytes, fromBeBytes_cons, hdigit, beBytes_mul_add, ih, UInt8.ofNat_toNat]

/-- A word is read back into the bytes it was read from. -/
theorem beBytes_word {bs : List UInt8} (h : bs.length = 2) :
    Lib.beBytes 2 (UInt16.ofNat (fromBeBytes bs)).toNat = bs := by
  have hlt : fromBeBytes bs < 256 ^ 2 := h ▸ fromBeBytes_lt bs
  rw [UInt16.toNat_ofNat_of_lt' (Nat.lt_of_lt_of_eq hlt (by decide)), ← h]
  exact beBytes_fromBeBytes bs

theorem beBytes_doubleWord {bs : List UInt8} (h : bs.length = 4) :
    Lib.beBytes 4 (UInt32.ofNat (fromBeBytes bs)).toNat = bs := by
  have hlt : fromBeBytes bs < 256 ^ 4 := h ▸ fromBeBytes_lt bs
  rw [UInt32.toNat_ofNat_of_lt' (Nat.lt_of_lt_of_eq hlt (by decide)), ← h]
  exact beBytes_fromBeBytes bs

theorem reads_map {x : ByteReader α} {used : List UInt8} {a : α} (hx : Reads x used a) (f : α → β) :
    Reads (x >>= fun a => pure (f a)) used (f a) := by
  intro more
  rw [bind_of_ok (hx more)]
  rfl

theorem reads_u16Be (n : Nat) : Reads u16Be (Lib.beBytes 2 n) (UInt16.ofNat n) := by
  have h := reads_map (reads_take_of_length (Lib.length_beBytes 2 n)) fun bs => UInt16.ofNat (fromBeBytes bs)
  rw [fromBeBytes_beBytes] at h
  have hmod : UInt16.ofNat (n % 256 ^ 2) = UInt16.ofNat n := by
    apply UInt16.toNat_inj.1
    simp
  rwa [hmod] at h

theorem reads_u32Be (n : Nat) : Reads u32Be (Lib.beBytes 4 n) (UInt32.ofNat n) := by
  have h := reads_map (reads_take_of_length (Lib.length_beBytes 4 n)) fun bs => UInt32.ofNat (fromBeBytes bs)
  rw [fromBeBytes_beBytes] at h
  have hmod : UInt32.ofNat (n % 256 ^ 4) = UInt32.ofNat n := by
    apply UInt32.toNat_inj.1
    simp
  rwa [hmod] at h

theorem reads_u16Be_toNat (w : UInt16) : Reads u16Be (Lib.beBytes 2 w.toNat) w := by
  have h := reads_u16Be w.toNat
  rwa [UInt16.ofNat_toNat] at h

theorem reads_u32Be_toNat (w : UInt32) : Reads u32Be (Lib.beBytes 4 w.toNat) w := by
  have h := reads_u32Be w.toNat
  rwa [UInt32.ofNat_toNat] at h

theorem Reads.bind {x : ByteReader α} {f : α → ByteReader β} {used used' : List UInt8} {a : α} {b : β}
    (hx : Reads x used a) (hf : Reads (f a) used' b) : Reads (x >>= f) (used ++ used') b := by
  intro more
  rw [List.append_assoc, bind_of_ok (hx _)]
  exact hf more

/-- A read of nothing in front. -/
theorem Reads.bind_nil {x : ByteReader α} {f : α → ByteReader β} {used : List UInt8} {a : α} {b : β}
    (hx : Reads x [] a) (hf : Reads (f a) used b) : Reads (x >>= f) used b :=
  hx.bind hf

/-- A check that is passed. -/
theorem Reads.guard {c : Prop} [Decidable c] {e : ParseError} {f : Unit → ByteReader α} {used : List UInt8} {a : α}
    (hc : ¬c) (hf : Reads (f ()) used a) : Reads (if c then throw e >>= f else f ()) used a := by
  rw [if_neg hc]
  exact hf

theorem Reads.ite_pos {c : Prop} [Decidable c] {x y : ByteReader α} {used : List UInt8} {a : α} (hc : c)
    (hx : Reads x used a) : Reads (if c then x else y) used a := by
  rw [if_pos hc]
  exact hx

theorem Reads.ite_neg {c : Prop} [Decidable c] {x y : ByteReader α} {used : List UInt8} {a : α} (hc : ¬c)
    (hy : Reads y used a) : Reads (if c then x else y) used a := by
  rw [if_neg hc]
  exact hy

theorem Reads.parse {r : ByteReader α} {used : List UInt8} {a : α} (h : Reads r used a) (more : List UInt8) :
    r.parse (used ++ more) = .ok a :=
  parse_eq_ok.2 ⟨more, h more⟩

/-! ## Exact reads -/

theorem exact_pure (a : α) : Exact (pure a : ByteReader α) := by
  intro buf b rest h
  obtain ⟨rfl, rfl⟩ := Prod.mk.inj (Except.ok.inj h)
  refine ⟨[], rfl, reads_pure a, ?_⟩
  intro n hn
  exact absurd hn (Nat.not_lt_zero n)

theorem exact_throw (e : ParseError) : Exact (throw e : ByteReader α) := by
  intro buf a rest h
  cases h

theorem exact_take (n : Nat) : Exact (take n) := by
  intro buf taken rest h
  obtain ⟨rfl, rfl⟩ := take_eq_ok.1 h
  refine ⟨taken, rfl, reads_take taken, ?_⟩
  intro k hk
  rw [take, if_neg (by rw [List.length_take]; omega)]
  exact ⟨_, rfl⟩

/-- A result that was had without reading. -/
theorem liftM_eq_ok {e : Except ParseError α} {buf rest : List UInt8} {a : α} :
    (liftM e : ByteReader α) buf = .ok (a, rest) ↔ e = .ok a ∧ rest = buf := by
  cases e with
  | error e =>
      constructor
      · intro h
        cases h
      · rintro ⟨h, -⟩
        cases h
  | ok b =>
      constructor
      · intro h
        obtain ⟨rfl, rfl⟩ := Prod.mk.inj (Except.ok.inj h)
        exact ⟨rfl, rfl⟩
      · rintro ⟨h, rfl⟩
        obtain rfl := Except.ok.inj h
        rfl

theorem reads_liftM {e : Except ParseError α} {a : α} (h : e = .ok a) : Reads (liftM e : ByteReader α) [] a :=
  fun _ => liftM_eq_ok.2 ⟨h, rfl⟩

theorem exact_liftM (e : Except ParseError α) : Exact (liftM e : ByteReader α) := by
  cases e with
  | error e => exact exact_throw e
  | ok a => exact exact_pure a

theorem Exact.bind {x : ByteReader α} {f : α → ByteReader β} (hx : Exact x) (hf : ∀ a, Exact (f a)) :
    Exact (x >>= f) := by
  intro buf b rest h
  obtain ⟨a, mid, ha, hb⟩ := bind_eq_ok.1 h
  obtain ⟨used, rfl, hreads, hneeds⟩ := hx buf a mid ha
  obtain ⟨used', rfl, hreads', hneeds'⟩ := hf a mid b rest hb
  refine ⟨used ++ used', (List.append_assoc ..).symm, hreads.bind hreads', ?_⟩
  intro n hn
  rw [List.take_append]
  by_cases hlt : n < used.length
  · -- the cut is in the bytes of the first read
    obtain ⟨e, he⟩ := hneeds n hlt
    refine ⟨e, ?_⟩
    rw [Nat.sub_eq_zero_of_le hlt.le, List.take_zero, List.append_nil]
    exact bind_of_error he
  · rw [List.length_append] at hn
    obtain ⟨e, he⟩ := hneeds' (n - used.length) (by omega)
    refine ⟨e, ?_⟩
    rw [List.take_of_length_le (by omega), bind_of_ok (hreads _)]
    exact he

/-- What is read exactly is needed. -/
theorem Exact.needs {r : ByteReader α} (hr : Exact r) {used : List UInt8} {a : α} (h : Reads r used a) :
    Needs r used := by
  obtain ⟨used', hsplit, -, hneeds⟩ := hr (used ++ []) a [] (h [])
  rw [List.append_nil, List.append_nil] at hsplit
  rwa [hsplit]

theorem Exact.ite {c : Prop} [Decidable c] {x y : ByteReader α} (hx : c → Exact x) (hy : ¬c → Exact y) :
    Exact (if c then x else y) := by
  split
  · exact hx ‹c›
  · exact hy ‹¬c›

/-- A check of what was read before. -/
theorem Exact.guard {c : Prop} [Decidable c] {e : ParseError} {f : Unit → ByteReader α} (hf : Exact (f ())) :
    Exact (if c then throw e >>= f else f ()) :=
  .ite (fun _ => (exact_throw e).bind fun _ => hf) fun _ => hf

/-- An exact read leaves no more bytes than there were. -/
theorem Exact.length_le {r : ByteReader α} (hr : Exact r) {buf rest : List UInt8} {a : α}
    (h : r buf = .ok (a, rest)) : rest.length ≤ buf.length := by
  obtain ⟨used, rfl, -⟩ := hr buf a rest h
  rw [List.length_append]
  exact Nat.le_add_left _ _

theorem exact_u8 : Exact u8 := (exact_take 1).bind fun _ => exact_pure _

theorem exact_u16Be : Exact u16Be := (exact_take 2).bind fun _ => exact_pure _

theorem exact_u32Be : Exact u32Be := (exact_take 4).bind fun _ => exact_pure _

/-- The bytes that an exact read has used, told by how many are left. -/
theorem Exact.take {r : ByteReader α} (hr : Exact r) {buf rest : List UInt8} {a : α} {n : Nat}
    (h : r buf = .ok (a, rest)) (hn : n + rest.length = buf.length) :
    Reads r (buf.take n) a ∧ Needs r (buf.take n) := by
  obtain ⟨used, rfl, hreads, hneeds⟩ := hr buf a rest h
  rw [List.length_append] at hn
  rw [List.take_append_of_le_length (by omega), List.take_of_length_le (by omega)]
  exact ⟨hreads, hneeds⟩

theorem parse_of_error {r : ByteReader α} {bytes : List UInt8} {e : ParseError} (h : r bytes = .error e) :
    r.parse bytes = .error e := by
  rw [parse, StateT.run']
  change Except.map Prod.fst (r bytes) = _
  rw [h]
  rfl

/-- A read of which only the success is asked. -/
theorem toOption_parse_eq_some {r : ByteReader α} {bytes : List UInt8} {a : α} :
    (r.parse bytes).toOption = some a ↔ ∃ rest, r bytes = .ok (a, rest) := by
  rw [← parse_eq_ok]
  cases r.parse bytes with
  | error e => exact ⟨nofun, nofun⟩
  | ok b => exact ⟨fun h => congrArg _ (Option.some.inj h), fun h => congrArg _ (Except.ok.inj h)⟩

end Exactness

/-! ## Reads of a fixed size -/

/-- `r` reads any `n` bytes. -/
def Fixed {α : Type} (n : Nat) (r : ByteReader α) : Prop := ∀ used : List UInt8, used.length = n → ∃ a, Reads r used a

section FixedReads

variable {α β : Type} {n m : Nat}

theorem fixed_take (n : Nat) : Fixed n (take n) := fun used h => ⟨used, reads_take_of_length h⟩

theorem fixed_pure (a : α) : Fixed 0 (pure a : ByteReader α) := by
  intro used h
  rw [List.eq_nil_of_length_eq_zero h]
  exact ⟨a, reads_pure a⟩

/-- What a read of fixed size has in front of it does not matter. -/
theorem Fixed.reads {x : ByteReader α} {f : α → ByteReader β} {used : List UInt8} {b : β} (hx : Fixed n x)
    (hlen : n ≤ used.length) (hf : ∀ a, Reads (f a) (used.drop n) b) : Reads (x >>= f) used b := by
  obtain ⟨a, ha⟩ := hx (used.take n) (List.length_take_of_le hlen)
  have hread := ha.bind (hf a)
  rwa [List.take_append_drop] at hread

theorem Fixed.bind {x : ByteReader α} {f : α → ByteReader β} (hx : Fixed n x) (hf : ∀ a, Fixed m (f a)) :
    Fixed (n + m) (x >>= f) := by
  intro used h
  obtain ⟨a, ha⟩ := hx (used.take n) (List.length_take_of_le (by omega))
  obtain ⟨b, hb⟩ := hf a (used.drop n) (by rw [List.length_drop]; omega)
  have hread := ha.bind hb
  rw [List.take_append_drop] at hread
  exact ⟨b, hread⟩

theorem Fixed.map {x : ByteReader α} (hx : Fixed n x) (f : α → β) : Fixed n (x >>= fun a => pure (f a)) :=
  hx.bind (m := 0) fun _ => fixed_pure _

theorem fixed_u8 : Fixed 1 u8 := (fixed_take 1).map _

theorem fixed_u16Be : Fixed 2 u16Be := (fixed_take 2).map _

theorem fixed_u32Be : Fixed 4 u32Be := (fixed_take 4).map _

end FixedReads

/-! ## How much is read -/

/-- What `r` returns counts the bytes that it has read, and `off` more in front of them. -/
def Counts {α : Type} (off : Nat) (size : α → Nat) (r : ByteReader α) : Prop :=
  ∀ buf a rest, r buf = .ok (a, rest) → size a + rest.length = off + buf.length

/-- `r` reads `n` bytes, whatever it returns. -/
def Takes {α : Type} (n : Nat) (r : ByteReader α) : Prop :=
  ∀ buf a rest, r buf = .ok (a, rest) → n + rest.length = buf.length

section Counting

variable {α β : Type} {off n : Nat} {size : β → Nat}

theorem takes_take (n : Nat) : Takes n (take n) := by
  intro buf taken rest h
  obtain ⟨rfl, rfl⟩ := take_eq_ok.1 h
  exact (List.length_append ..).symm

theorem Takes.map {x : ByteReader α} (hx : Takes n x) (f : α → β) : Takes n (x >>= fun a => pure (f a)) := by
  intro buf b rest h
  obtain ⟨a, mid, ha, hpure⟩ := bind_eq_ok.1 h
  obtain ⟨-, rfl⟩ := Prod.mk.inj (Except.ok.inj hpure)
  exact hx buf a _ ha

theorem takes_pure (a : α) : Takes 0 (pure a : ByteReader α) := by
  intro buf b rest h
  obtain ⟨-, rfl⟩ := Prod.mk.inj (Except.ok.inj h)
  exact Nat.zero_add _

theorem takes_liftM (e : Except ParseError α) : Takes 0 (liftM e : ByteReader α) := by
  intro buf a rest h
  obtain ⟨-, rfl⟩ := liftM_eq_ok.1 h
  exact Nat.zero_add _

theorem Takes.then {m : Nat} {x : ByteReader α} {f : α → ByteReader β} (hx : Takes n x) (hf : ∀ a, Takes m (f a)) :
    Takes (n + m) (x >>= f) := by
  intro buf b rest h
  obtain ⟨a, mid, ha, hb⟩ := bind_eq_ok.1 h
  rw [Nat.add_assoc, hf a mid b rest hb, hx buf a mid ha]

theorem takes_u8 : Takes 1 u8 := (takes_take 1).map _

theorem takes_u16Be : Takes 2 u16Be := (takes_take 2).map _

theorem takes_u32Be : Takes 4 u32Be := (takes_take 4).map _

theorem counts_pure {b : β} (h : size b = off) : Counts off size (pure b) := by
  intro buf c rest hc
  obtain ⟨rfl, rfl⟩ := Prod.mk.inj (Except.ok.inj hc)
  rw [h]

theorem Counts.bind {size' : α → Nat} {x : ByteReader α} {f : α → ByteReader β} (hx : Counts off size' x)
    (hf : ∀ a, Counts (size' a) size (f a)) : Counts off size (x >>= f) := by
  intro buf b rest h
  obtain ⟨a, mid, ha, hb⟩ := bind_eq_ok.1 h
  rw [hf a mid b rest hb, hx buf a mid ha]

/-- A read of `n` bytes in front. -/
theorem Takes.bind {x : ByteReader α} {f : α → ByteReader β} (hx : Takes n x)
    (hf : ∀ a, Counts (off + n) size (f a)) : Counts off size (x >>= f) := by
  intro buf b rest h
  obtain ⟨a, mid, ha, hb⟩ := bind_eq_ok.1 h
  rw [hf a mid b rest hb, Nat.add_assoc, hx buf a mid ha]

/-- Such a read in front leaves fewer bytes. -/
theorem Takes.bind_lt {γ : Type} {x : ByteReader α} {f : α → ByteReader γ} (hx : Takes n x) (hn : 0 < n)
    (hf : ∀ a, Exact (f a)) {buf rest : List UInt8} {c : γ} (h : (x >>= f) buf = .ok (c, rest)) :
    rest.length < buf.length := by
  obtain ⟨a, mid, ha, hc⟩ := bind_eq_ok.1 h
  have hx := hx buf a mid ha
  have hle := (hf a).length_le hc
  omega

theorem Counts.ite {c : Prop} [Decidable c] {x y : ByteReader β} (hx : c → Counts off size x)
    (hy : ¬c → Counts off size y) : Counts off size (if c then x else y) := by
  split
  · exact hx ‹c›
  · exact hy ‹¬c›

/-- A check of what was read before. -/
theorem Counts.guard {c : Prop} [Decidable c] {e : ParseError} {f : Unit → ByteReader β}
    (hf : ¬c → Counts off size (f ())) : Counts off size (if c then throw e >>= f else f ()) := by
  refine .ite (fun _ => ?_) hf
  intro buf b rest h
  cases h

/-- How many bytes a read has used, beside what it returns. -/
def measured {α : Type} (r : ByteReader α) : ByteReader (α × Nat) := fun buf =>
  match r buf with
  | .ok (a, rest) => .ok ((a, buf.length - rest.length), rest)
  | .error e => .error e

theorem measured_eq_ok {r : ByteReader α} {buf rest : List UInt8} {a : α} {k : Nat} :
    measured r buf = .ok ((a, k), rest) ↔ r buf = .ok (a, rest) ∧ k = buf.length - rest.length := by
  rw [measured]
  cases r buf with
  | error e => simp
  | ok p =>
      obtain ⟨b, mid⟩ := p
      simp only [Except.ok.injEq, Prod.mk.injEq]
      constructor
      · rintro ⟨⟨rfl, rfl⟩, rfl⟩
        exact ⟨⟨rfl, rfl⟩, rfl⟩
      · rintro ⟨⟨rfl, rfl⟩, rfl⟩
        exact ⟨⟨rfl, rfl⟩, rfl⟩

theorem Reads.measured {r : ByteReader α} {used : List UInt8} {a : α} (h : Reads r used a) :
    Reads (measured r) used (a, used.length) := by
  intro more
  refine measured_eq_ok.2 ⟨h more, ?_⟩
  rw [List.length_append]
  omega

theorem exact_measured {r : ByteReader α} (hr : Exact r) : Exact (measured r) := by
  rintro buf ⟨a, k⟩ rest h
  obtain ⟨ha, rfl⟩ := measured_eq_ok.1 h
  obtain ⟨used, rfl, hreads, hneeds⟩ := hr buf a rest ha
  have hlen : (used ++ rest).length - rest.length = used.length := by
    rw [List.length_append]
    omega
  rw [hlen]
  refine ⟨used, rfl, hreads.measured, ?_⟩
  intro n hn
  obtain ⟨e, he⟩ := hneeds n hn
  refine ⟨e, ?_⟩
  rw [measured, he]

theorem counts_measured {r : ByteReader α} (hr : Exact r) : Counts 0 Prod.snd (measured r) := by
  rintro buf ⟨a, k⟩ rest h
  obtain ⟨ha, rfl⟩ := measured_eq_ok.1 h
  have hle := hr.length_le ha
  omega

end Counting

end ByteReader

/-- The header that a plugin parses is as long as it says, determines the result, and is needed to its last
byte. -/
def HonestHeader (p : LayerPlugin) : Prop :=
  ∀ bytes ctx layer, p.parse bytes ctx = .ok layer →
    1 ≤ layer.headerLen ∧ layer.headerLen ≤ bytes.length ∧
      (∀ n, n < layer.headerLen → ∃ e, p.parse (bytes.take n) ctx = .error e) ∧
      ∀ more, p.parse (bytes.take layer.headerLen ++ more) ctx = .ok layer

namespace ByteReader

/-- A read over all the entries of a table. -/
theorem Exact.foldlM {σ ι : Type} {f : σ → ι → ByteReader σ} (hf : ∀ s x, Exact (f s x)) (xs : List ι) (s : σ) :
    Exact (xs.foldlM f s) := by
  induction xs generalizing s with
  | nil => exact exact_pure s
  | cons x xs ih =>
      rw [List.foldlM_cons]
      exact (hf s x).bind ih

/-- An exact read that counts its bytes parses headers that delimit themselves. -/
theorem Exact.delimits {r : ByteReader ParsedLayer} (hr : Exact r) (hcount : Counts 0 ParsedLayer.headerLen r)
    {bytes : List UInt8} {layer : ParsedLayer} (h : r.parse bytes = .ok layer) :
    layer.headerLen ≤ bytes.length ∧
      (∀ n, n < layer.headerLen → ∃ e, r.parse (bytes.take n) = .error e) ∧
      ∀ more, r.parse (bytes.take layer.headerLen ++ more) = .ok layer := by
  obtain ⟨rest, hrest⟩ := parse_eq_ok.1 h
  have hlen := hcount bytes layer rest hrest
  obtain ⟨hreads, hneeds⟩ := hr.take hrest (hlen.trans (Nat.zero_add _))
  have hle : layer.headerLen ≤ bytes.length := by omega
  refine ⟨hle, ?_, hreads.parse⟩
  intro n hn
  obtain ⟨e, he⟩ := hneeds n (by rw [List.length_take]; omega)
  rw [List.take_take, Nat.min_eq_left hn.le] at he
  exact ⟨e, parse_of_error he⟩

/-- A plugin whose parse is an exact read of at least one byte that counts its bytes. -/
theorem honestHeader_of_exact {p : LayerPlugin} {r : ParseCtx → ByteReader ParsedLayer}
    (hp : ∀ bytes ctx, p.parse bytes ctx = (r ctx).parse bytes) (hexact : ∀ ctx, Exact (r ctx))
    (hcount : ∀ ctx, Counts 0 ParsedLayer.headerLen (r ctx)) (hempty : ∀ ctx, ∃ e, r ctx [] = .error e) :
    HonestHeader p := by
  intro bytes ctx layer h
  rw [hp] at h
  obtain ⟨hle, hneeds, hreads⟩ := (hexact ctx).delimits (hcount ctx) h
  simp only [hp]
  refine ⟨?_, hle, hneeds, hreads⟩
  by_contra hzero
  -- a header of no bytes would be read from none
  obtain ⟨e, he⟩ := hempty ctx
  have hnone := hreads []
  rw [show layer.headerLen = 0 by omega, List.take_zero, List.append_nil, parse_of_error he] at hnone
  cases hnone

/-- A read that is told how many bytes there are, and asks only that they be as many as the header declares. -/
structure DeclaresLength (r : Nat → ByteReader ParsedLayer) : Prop where
  exact : ∀ len, Exact (r len)
  within : ∀ len, Ensures (r len) fun layer => layer.headerLen ≤ len
  mono : ∀ len len' buf layer rest, r len buf = .ok (layer, rest) → layer.headerLen ≤ len' →
    r len' buf = .ok (layer, rest)
  covers : ∀ len buf layer rest, r len buf = .ok (layer, rest) → buf.length ≤ rest.length + layer.headerLen
  some : ∀ len, ∃ e, r len [] = .error e

/-- Such a read parses headers that delimit themselves, with their padding. -/
theorem honestHeader_of_declares {p : LayerPlugin} {r : ParseCtx → Nat → ByteReader ParsedLayer}
    (hp : ∀ bytes ctx, p.parse bytes ctx = (r ctx bytes.length).parse bytes) (hr : ∀ ctx, DeclaresLength (r ctx)) :
    HonestHeader p := by
  intro bytes ctx layer h
  simp only [hp] at h ⊢
  obtain ⟨rest, hread⟩ := parse_eq_ok.1 h
  have hle := (hr ctx).within _ bytes rest layer hread
  obtain ⟨used, rfl, hreads, -⟩ := (hr ctx).exact _ bytes layer rest hread
  have hused : used.length ≤ layer.headerLen := by
    have hcovers := (hr ctx).covers _ _ layer rest hread
    rw [List.length_append] at hcovers
    omega
  refine ⟨?_, hle, ?_, ?_⟩
  · by_contra hzero
    obtain ⟨e, he⟩ := (hr ctx).some (used ++ rest).length
    have hnil : used = [] := List.eq_nil_of_length_eq_zero (by omega)
    subst hnil
    have hnone := hreads []
    rw [List.append_nil, he] at hnone
    cases hnone
  · intro n hn
    cases hcut : (r ctx ((used ++ rest).take n).length).parse ((used ++ rest).take n) with
    | error e => exact ⟨e, rfl⟩
    | ok layer' =>
        -- what is read of the cut is read of the whole, and so the same
        obtain ⟨rest', hread'⟩ := parse_eq_ok.1 hcut
        have hle' := (hr ctx).within _ _ rest' layer' hread'
        obtain ⟨used', hcut', hreads', -⟩ := (hr ctx).exact _ _ layer' rest' hread'
        have hwhole := hreads' (rest' ++ (used ++ rest).drop n)
        rw [← List.append_assoc, ← hcut', List.take_append_drop] at hwhole
        have hlen : ((used ++ rest).take n).length ≤ (used ++ rest).length := List.length_take_le' ..
        have hwhole := (hr ctx).mono _ (used ++ rest).length _ layer' _ hwhole (by omega)
        obtain ⟨hlayer, -⟩ := Prod.mk.inj (Except.ok.inj (hread.symm.trans hwhole))
        rw [← hlayer, List.length_take] at hle'
        omega
  · intro more
    have hsplit : (used ++ rest).take layer.headerLen ++ more =
        used ++ (rest.take (layer.headerLen - used.length) ++ more) := by
      rw [List.take_append, List.take_of_length_le hused, List.append_assoc]
    refine parse_eq_ok.2 ⟨rest.take (layer.headerLen - used.length) ++ more, ?_⟩
    rw [hsplit]
    apply (hr ctx).mono _ _ _ layer _ (hreads _)
    rw [← hsplit, List.length_append, List.length_take_of_le hle]
    exact Nat.le_add_right _ _

end ByteReader

end Pktflow.Core
