import Pktflow.Core.Framing

/-!
# Loops over a reader

`loop` repeats a body that reads some bytes and either goes on with a new state or leaves with a result. A body
that reads at least one byte whenever it goes on (`Progresses`) leaves before the bytes run out, so the bound on
the iterations is never met (`loopFuel_of_lt`): the loop ends of itself (`ends_loop`) and is its body followed by the
loop (`loop_eq`). The rules for the reads of a body pass to the loop.
-/

set_option autoImplicit false

namespace Pktflow.Core.ByteReader

section Loops

variable {σ β : Type}

/-- At most `n` iterations. What stands for running out of them is no outcome of the loop (`ends_loop`). -/
def loopFuel (body : σ → ByteReader (σ ⊕ β)) : Nat → σ → ByteReader β
  | 0, _ => throw (.truncated 1 0)
  | n + 1, s => do
      match ← body s with
      | .inl s' => loopFuel body n s'
      | .inr b => return b

/-- The loop, with one more iteration than there are bytes. -/
def loop (body : σ → ByteReader (σ ⊕ β)) (s : σ) : ByteReader β := fun buf => loopFuel body (buf.length + 1) s buf

/-- An iteration that goes on has read something. -/
def Progresses (body : σ → ByteReader (σ ⊕ β)) : Prop :=
  ∀ s buf s' rest, body s buf = .ok (.inl s', rest) → rest.length < buf.length

/-- How the loop ends, without a bound on its iterations: one that goes on for ever has no outcome. -/
inductive Ends (body : σ → ByteReader (σ ⊕ β)) : σ → List UInt8 → Except ParseError (β × List UInt8) → Prop where
  | more {s s' : σ} {buf rest : List UInt8} {res : Except ParseError (β × List UInt8)}
      (hstep : body s buf = .ok (.inl s', rest)) (hrest : Ends body s' rest res) : Ends body s buf res
  | done {s : σ} {b : β} {buf rest : List UInt8} (hstep : body s buf = .ok (.inr b, rest)) :
      Ends body s buf (.ok (b, rest))
  | error {s : σ} {buf : List UInt8} {e : ParseError} (hstep : body s buf = .error e) : Ends body s buf (.error e)

/-- The number of bytes left. -/
def remaining : ByteReader Nat := fun buf => .ok (buf.length, buf)

variable {body : σ → ByteReader (σ ⊕ β)} {s s' : σ} {b : β} {buf rest : List UInt8}

theorem loopFuel_succ_of_inl (h : body s buf = .ok (.inl s', rest)) (n : Nat) :
    loopFuel body (n + 1) s buf = loopFuel body n s' rest := by
  rw [loopFuel, bind_of_ok h]

theorem loopFuel_succ_of_inr (h : body s buf = .ok (.inr b, rest)) (n : Nat) :
    loopFuel body (n + 1) s buf = .ok (b, rest) := by
  rw [loopFuel, bind_of_ok h]
  rfl

theorem loopFuel_succ_of_error {e : ParseError} (h : body s buf = .error e) (n : Nat) :
    loopFuel body (n + 1) s buf = .error e := by
  rw [loopFuel, bind_of_error h]

/-- With more iterations than bytes the bound is never met. -/
theorem loopFuel_of_lt (hbody : Progresses body) {n : Nat} (hn : buf.length < n) :
    loopFuel body n s buf = loop body s buf := by
  rw [loop]
  -- the fuel left stays above the bytes left
  suffices h : ∀ n m s buf, buf.length < n → buf.length < m → loopFuel body n s buf = loopFuel body m s buf from
    h n (buf.length + 1) s buf hn (Nat.lt_succ_self _)
  intro n
  induction n with
  | zero => exact fun m s buf hn _ => absurd hn (Nat.not_lt_zero _)
  | succ n ih =>
      intro m s buf hn hm
      obtain ⟨m, rfl⟩ := Nat.exists_eq_succ_of_ne_zero (Nat.ne_zero_of_lt hm)
      cases h : body s buf with
      | error e => rw [loopFuel_succ_of_error h, loopFuel_succ_of_error h]
      | ok r =>
          obtain ⟨step, rest⟩ := r
          cases step with
          | inl s' =>
              have hlt := hbody s buf s' rest h
              rw [loopFuel_succ_of_inl h, loopFuel_succ_of_inl h]
              exact ih m s' rest (by omega) (by omega)
          | inr b => rw [loopFuel_succ_of_inr h, loopFuel_succ_of_inr h]

theorem loop_of_inl (hbody : Progresses body) (h : body s buf = .ok (.inl s', rest)) :
    loop body s buf = loop body s' rest := by
  rw [loop, loopFuel_succ_of_inl h, loopFuel_of_lt hbody (hbody s buf s' rest h)]

theorem loop_of_inr (h : body s buf = .ok (.inr b, rest)) : loop body s buf = .ok (b, rest) :=
  loopFuel_succ_of_inr h _

theorem loop_of_error {e : ParseError} (h : body s buf = .error e) : loop body s buf = .error e :=
  loopFuel_succ_of_error h _

/-- The loop is its body, followed by the loop or left. -/
theorem loop_eq (hbody : Progresses body) (s : σ) : loop body s = body s >>= Sum.elim (loop body) pure := by
  funext buf
  cases h : body s buf with
  | error e => rw [loop_of_error h, bind_of_error h]
  | ok r =>
      obtain ⟨step, rest⟩ := r
      rw [bind_of_ok h]
      cases step with
      | inl s' => exact loop_of_inl hbody h
      | inr b => exact loop_of_inr h

/-- What holds of the ways to leave, and passes back through an iteration, holds of the loop. -/
theorem loop_induction (hbody : Progresses body)
    {P : σ → List UInt8 → Except ParseError (β × List UInt8) → Prop}
    (hmore : ∀ s buf s' rest res, body s buf = .ok (.inl s', rest) → P s' rest res → P s buf res)
    (hdone : ∀ s buf b rest, body s buf = .ok (.inr b, rest) → P s buf (.ok (b, rest)))
    (herror : ∀ s buf e, body s buf = .error e → P s buf (.error e)) (s : σ) (buf : List UInt8) :
    P s buf (loop body s buf) := by
  -- Every turn that goes on leaves fewer bytes, so the number of bytes left carries the induction.
  induction hlen : buf.length using Nat.strong_induction_on generalizing s buf with
  | _ n ih =>
      cases h : body s buf with
      | error e =>
          rw [loop_of_error h]
          exact herror s buf e h
      | ok r =>
          obtain ⟨step, rest⟩ := r
          cases step with
          | inl s' =>
              have hlt := hbody s buf s' rest h
              rw [loop_of_inl hbody h]
              exact hmore s buf s' rest _ h (ih rest.length (by omega) s' rest rfl)
          | inr b =>
              rw [loop_of_inr h]
              exact hdone s buf b rest h

/-- A loop that progresses ends, whatever the bytes, and `loop` is what it ends with. -/
theorem ends_loop (hbody : Progresses body) (s : σ) (buf : List UInt8) : Ends body s buf (loop body s buf) := by
  apply loop_induction hbody (P := Ends body)
  · exact fun s buf s' rest res hstep ih => .more hstep ih
  · exact fun s buf b rest hstep => .done hstep
  · exact fun s buf e hstep => .error hstep

/-! ## The rules -/

theorem Reads.loop_more (hbody : Progresses body) {used used' : List UInt8} (h : Reads (body s) used (.inl s'))
    (hloop : Reads (loop body s') used' b) : Reads (loop body s) (used ++ used') b := by
  rw [loop_eq hbody]
  exact h.bind hloop

theorem Reads.loop_done {used : List UInt8} (h : Reads (body s) used (.inr b)) : Reads (loop body s) used b :=
  fun more => loop_of_inr (h more)

theorem Exact.loop (hbody : Progresses body) (hexact : ∀ s, Exact (body s)) (s : σ) : Exact (loop body s) := by
  intro buf
  induction hlen : buf.length using Nat.strong_induction_on generalizing s buf with
  | _ n ih =>
      intro b rest h
      cases hstep : body s buf with
      | error e =>
          rw [loop_of_error hstep] at h
          cases h
      | ok r =>
          obtain ⟨step, mid⟩ := r
          obtain ⟨used, rfl, hreads, hneeds⟩ := hexact s buf step mid hstep
          cases step with
          | inr b' =>
              rw [loop_of_inr hstep] at h
              obtain ⟨rfl, rfl⟩ := Prod.mk.inj (Except.ok.inj h)
              refine ⟨used, rfl, hreads.loop_done, ?_⟩
              intro k hk
              obtain ⟨e, he⟩ := hneeds k hk
              exact ⟨e, loop_of_error he⟩
          | inl s' =>
              have hlt := hbody s _ s' mid hstep
              rw [loop_of_inl hbody hstep] at h
              obtain ⟨used', rfl, hreads', hneeds'⟩ := ih mid.length (by omega) s' mid rfl b rest h
              refine ⟨used ++ used', (List.append_assoc ..).symm, hreads.loop_more hbody hreads', ?_⟩
              intro k hk
              rw [List.take_append]
              by_cases hk' : k < used.length
              · -- the cut is in the bytes of this iteration
                obtain ⟨e, he⟩ := hneeds k hk'
                refine ⟨e, ?_⟩
                rw [Nat.sub_eq_zero_of_le hk'.le, List.take_zero, List.append_nil]
                exact loop_of_error he
              · rw [List.length_append] at hk
                obtain ⟨e, he⟩ := hneeds' (k - used.length) (by omega)
                refine ⟨e, ?_⟩
                rw [List.take_of_length_le (by omega), loop_of_inl hbody (hreads _)]
                exact he

theorem Counts.loop (hbody : Progresses body) {m : σ → Nat} {size : β → Nat}
    (h : ∀ s, Counts (m s) (Sum.elim m size) (body s)) (s : σ) : Counts (m s) size (loop body s) := by
  intro buf b rest
  refine loop_induction hbody (P := fun s buf res => res = .ok (b, rest) → size b + rest.length = m s + buf.length)
    ?_ ?_ ?_ s buf
  · intro s buf s' mid res hstep ih hres
    rw [ih hres, ← h s buf _ mid hstep]
    rfl
  · intro s buf b' mid hstep hres
    obtain ⟨rfl, rfl⟩ := Prod.mk.inj (Except.ok.inj hres)
    exact h s buf _ mid hstep
  · intro s buf e _ hres
    cases hres

end Loops

/-! ## While bytes are left -/

section WhileLeft

variable {σ : Type}

/-- One turn: an item, if at least `k` bytes are left. -/
def turnWhile (k : Nat) (item : σ → ByteReader σ) (s : σ) : ByteReader (σ ⊕ σ) := do
  if (← remaining) < k then return .inr s
  return .inl (← item s)

/-- The loop that reads items as long as at least `k` bytes are left. -/
def whileLeft (k : Nat) (item : σ → ByteReader σ) (s : σ) : ByteReader σ := loop (turnWhile k item) s

/-- An item takes at least one byte. -/
def ItemProgresses (item : σ → ByteReader σ) : Prop :=
  ∀ s buf s' rest, item s buf = .ok (s', rest) → rest.length < buf.length

variable {k : Nat} {item : σ → ByteReader σ} {s s' : σ} {buf rest : List UInt8}

theorem turnWhile_of_lt (h : buf.length < k) : turnWhile k item s buf = .ok (.inr s, buf) := by
  rw [turnWhile, bind_of_ok (show remaining buf = .ok (buf.length, buf) from rfl), if_pos h]
  rfl

theorem turnWhile_of_ok (h : k ≤ buf.length) (hitem : item s buf = .ok (s', rest)) :
    turnWhile k item s buf = .ok (.inl s', rest) := by
  rw [turnWhile, bind_of_ok (show remaining buf = .ok (buf.length, buf) from rfl), if_neg (Nat.not_lt.2 h)]
  exact bind_of_ok hitem

theorem turnWhile_of_error {e : ParseError} (h : k ≤ buf.length) (hitem : item s buf = .error e) :
    turnWhile k item s buf = .error e := by
  rw [turnWhile, bind_of_ok (show remaining buf = .ok (buf.length, buf) from rfl), if_neg (Nat.not_lt.2 h)]
  exact bind_of_error hitem

theorem turnWhile_eq_inl : turnWhile k item s buf = .ok (.inl s', rest) ↔
    k ≤ buf.length ∧ item s buf = .ok (s', rest) := by
  constructor
  · intro h
    rcases Nat.lt_or_ge buf.length k with hlt | hge
    · rw [turnWhile_of_lt hlt] at h
      cases h
    · refine ⟨hge, ?_⟩
      cases hitem : item s buf with
      | error e =>
          rw [turnWhile_of_error hge hitem] at h
          cases h
      | ok r =>
          rw [turnWhile_of_ok hge hitem] at h
          obtain ⟨hs, hr⟩ := Prod.mk.inj (Except.ok.inj h)
          rw [← Sum.inl.inj hs, ← hr]
  · rintro ⟨hge, hitem⟩
    exact turnWhile_of_ok hge hitem

theorem turnWhile_eq_inr {s' : σ} : turnWhile k item s buf = .ok (.inr s', rest) ↔
    buf.length < k ∧ s' = s ∧ rest = buf := by
  constructor
  · intro h
    rcases Nat.lt_or_ge buf.length k with hlt | hge
    · rw [turnWhile_of_lt hlt] at h
      obtain ⟨hs, rfl⟩ := Prod.mk.inj (Except.ok.inj h)
      exact ⟨hlt, (Sum.inr.inj hs).symm, rfl⟩
    · cases hitem : item s buf with
      | error e =>
          rw [turnWhile_of_error hge hitem] at h
          cases h
      | ok r =>
          rw [turnWhile_of_ok hge hitem] at h
          cases h
  · rintro ⟨hlt, rfl, rfl⟩
    exact turnWhile_of_lt hlt

theorem progresses_turnWhile (h : ItemProgresses item) : Progresses (turnWhile k item) := by
  intro s buf s' rest hturn
  exact h s buf s' rest (turnWhile_eq_inl.1 hturn).2

theorem whileLeft_of_lt (h : buf.length < k) : whileLeft k item s buf = .ok (s, buf) :=
  loop_of_inr (turnWhile_of_lt h)

theorem whileLeft_of_ok (hprogress : ItemProgresses item) (h : k ≤ buf.length)
    (hitem : item s buf = .ok (s', rest)) : whileLeft k item s buf = whileLeft k item s' rest :=
  loop_of_inl (progresses_turnWhile hprogress) (turnWhile_of_ok h hitem)

/-- The loop reads what items are read back from, one after the other. -/
theorem whileLeft_flatMap {ι : Type} (hprogress : ItemProgresses item) (step : σ → ι → σ) {encode : ι → List UInt8}
    {xs : List ι} (hk : ∀ x ∈ xs, k ≤ (encode x).length)
    (hitem : ∀ x ∈ xs, ∀ s, Reads (item s) (encode x) (step s x)) (s : σ) {tail : List UInt8} (htail : tail.length < k) :
    whileLeft k item s (xs.flatMap encode ++ tail) = .ok (xs.foldl step s, tail) := by
  induction xs generalizing s with
  | nil => exact whileLeft_of_lt htail
  | cons x xs ih =>
      have hx := hk x List.mem_cons_self
      rw [List.flatMap_cons, List.append_assoc,
        whileLeft_of_ok hprogress (by rw [List.length_append]; omega) (hitem x List.mem_cons_self s _), List.foldl_cons]
      exact ih (fun y hy => hk y (List.mem_cons_of_mem x hy)) (fun y hy => hitem y (List.mem_cons_of_mem x hy)) _

theorem foldl_snoc {ι ο : Type} (f : ι → ο) (xs : List ι) (out : List ο) :
    xs.foldl (fun out x => out ++ [f x]) out = out ++ xs.map f := by
  induction xs generalizing out with
  | nil => simp
  | cons x xs ih => rw [List.foldl_cons, ih, List.map_cons, List.append_assoc, List.singleton_append]

/-- A loop that collects what items are read back as. -/
theorem whileLeft_collect {ι ο : Type} {item : List ο → ByteReader (List ο)} (hprogress : ItemProgresses item)
    {encode : ι → List UInt8} {value : ι → ο} {xs : List ι} (hk : ∀ x ∈ xs, k ≤ (encode x).length)
    (hitem : ∀ x ∈ xs, ∀ out, Reads (item out) (encode x) (out ++ [value x])) {tail : List UInt8}
    (htail : tail.length < k) : (whileLeft k item []).parse (xs.flatMap encode ++ tail) = .ok (xs.map value) := by
  have hwalk := whileLeft_flatMap hprogress (fun out x => out ++ [value x]) hk hitem [] htail
  rw [foldl_snoc, List.nil_append] at hwalk
  exact parse_eq_ok.2 ⟨tail, hwalk⟩

/-- What the loop has done is a run of items, each on what the one before has left. -/
theorem whileLeft_induction (hprogress : ItemProgresses item) {P : σ → List UInt8 → Prop}
    (hstep : ∀ s buf s' rest, k ≤ buf.length → item s buf = .ok (s', rest) → P s buf → P s' rest) {s' : σ}
    (h : whileLeft k item s buf = .ok (s', rest)) (hs : P s buf) : P s' rest ∧ rest.length < k := by
  refine loop_induction (progresses_turnWhile hprogress)
    (P := fun s buf res => res = .ok (s', rest) → P s buf → P s' rest ∧ rest.length < k) ?_ ?_ ?_ s buf h hs
  · intro s buf t mid res hturn ih hres hP
    obtain ⟨hk, hitem⟩ := turnWhile_eq_inl.1 hturn
    exact ih hres (hstep s buf t mid hk hitem hP)
  · intro s buf t mid hturn hres hP
    obtain ⟨hlt, rfl, rfl⟩ := turnWhile_eq_inr.1 hturn
    obtain ⟨rfl, rfl⟩ := Prod.mk.inj (Except.ok.inj hres)
    exact ⟨hP, hlt⟩
  · intro s buf e _ hres
    cases hres

end WhileLeft

/-! ## While entries are complete -/

section WhileGood

variable {σ ι : Type}

/-- A read whose failure is no failure: nothing is read then. -/
def attempt {α : Type} (r : ByteReader α) : ByteReader (Option α) := fun buf =>
  match r buf with
  | .ok (a, rest) => .ok (some a, rest)
  | .error _ => .ok (none, buf)

/-- One turn: an entry, if at least `k` bytes are left and it is complete. -/
def entryTurn (k : Nat) (entry : ByteReader ι) (step : σ → ι → σ) (s : σ) : ByteReader (σ ⊕ σ) := do
  if (← remaining) < k then return .inr s
  match ← attempt entry with
  | some x => return .inl (step s x)
  | none => return .inr s

/-- The loop that reads entries up to the first that is not complete. -/
def whileGood (k : Nat) (entry : ByteReader ι) (step : σ → ι → σ) (s : σ) : ByteReader σ :=
  loop (entryTurn k entry step) s

variable {k : Nat} {entry : ByteReader ι} {step : σ → ι → σ} {s : σ} {buf rest : List UInt8}

theorem entryTurn_of_ok {x : ι} (h : k ≤ buf.length) (hentry : entry buf = .ok (x, rest)) :
    entryTurn k entry step s buf = .ok (.inl (step s x), rest) := by
  have hattempt : attempt entry buf = .ok (some x, rest) := by rw [attempt, hentry]
  rw [entryTurn, bind_of_ok (show remaining buf = .ok (buf.length, buf) from rfl), if_neg (Nat.not_lt.2 h)]
  exact bind_of_ok hattempt

/-- Too few bytes are left, or they begin with no entry. -/
def NoEntry (k : Nat) (entry : ByteReader ι) (buf : List UInt8) : Prop :=
  buf.length < k ∨ ∃ e, entry buf = .error e

theorem entryTurn_of_noEntry (h : NoEntry k entry buf) : entryTurn k entry step s buf = .ok (.inr s, buf) := by
  rw [entryTurn, bind_of_ok (show remaining buf = .ok (buf.length, buf) from rfl)]
  by_cases hlt : buf.length < k
  · rw [if_pos hlt]
    rfl
  · obtain ⟨e, he⟩ := h.resolve_left hlt
    have hattempt : attempt entry buf = .ok (none, buf) := by rw [attempt, he]
    rw [if_neg hlt]
    exact bind_of_ok hattempt

/-- An entry takes at least one byte. -/
def EntryProgresses (entry : ByteReader ι) : Prop :=
  ∀ buf x rest, entry buf = .ok (x, rest) → rest.length < buf.length

theorem progresses_entryTurn (hprogress : EntryProgresses entry) : Progresses (entryTurn k entry step) := by
  intro s buf s' rest h
  by_cases hno : NoEntry k entry buf
  · rw [entryTurn_of_noEntry hno] at h
    cases h
  · rw [NoEntry, not_or, Nat.not_lt] at hno
    obtain ⟨hk, hok⟩ := hno
    cases hentry : entry buf with
    | error e => exact absurd ⟨e, hentry⟩ hok
    | ok r =>
        obtain ⟨x, mid⟩ := r
        rw [entryTurn_of_ok hk hentry] at h
        obtain ⟨-, rfl⟩ := Prod.mk.inj (Except.ok.inj h)
        exact hprogress buf x _ hentry

theorem whileGood_of_noEntry (h : NoEntry k entry buf) : whileGood k entry step s buf = .ok (s, buf) :=
  loop_of_inr (entryTurn_of_noEntry h)

theorem whileGood_of_ok (hprogress : EntryProgresses entry) {x : ι} (h : k ≤ buf.length)
    (hentry : entry buf = .ok (x, rest)) :
    whileGood k entry step s buf = whileGood k entry step (step s x) rest :=
  loop_of_inl (progresses_entryTurn hprogress) (entryTurn_of_ok h hentry)

/-- The loop takes all entries that stand in front of bytes that begin with none. -/
theorem whileGood_flatMap {ξ : Type} (hprogress : EntryProgresses entry) {encode : ξ → List UInt8} {value : ξ → ι}
    {xs : List ξ} (hk : ∀ x ∈ xs, k ≤ (encode x).length) (hentry : ∀ x ∈ xs, Reads entry (encode x) (value x)) (s : σ)
    {tail : List UInt8} (htail : NoEntry k entry tail) :
    whileGood k entry step s (xs.flatMap encode ++ tail) = .ok (xs.foldl (fun s x => step s (value x)) s, tail) := by
  induction xs generalizing s with
  | nil => exact whileGood_of_noEntry htail
  | cons x xs ih =>
      have hx := hk x List.mem_cons_self
      rw [List.flatMap_cons, List.append_assoc,
        whileGood_of_ok hprogress (by rw [List.length_append]; omega) (hentry x List.mem_cons_self _), List.foldl_cons]
      exact ih (fun y hy => hk y (List.mem_cons_of_mem x hy)) (fun y hy => hentry y (List.mem_cons_of_mem x hy)) _

/-- Any bytes are entries in front of bytes that begin with none. -/
theorem exists_entries (hprogress : EntryProgresses entry) {ξ : Type} {encode : ξ → List UInt8}
    (hread : ∀ buf x rest, entry buf = .ok (x, rest) → ∃ y, buf = encode y ++ rest) (buf : List UInt8) :
    ∃ (xs : List ξ) (tail : List UInt8), buf = xs.flatMap encode ++ tail ∧ NoEntry k entry tail := by
  induction hlen : buf.length using Nat.strong_induction_on generalizing buf with
  | _ n ih =>
      by_cases hno : NoEntry k entry buf
      · exact ⟨[], buf, rfl, hno⟩
      · rw [NoEntry, not_or] at hno
        cases hentry : entry buf with
        | error e => exact absurd ⟨e, hentry⟩ hno.2
        | ok r =>
            obtain ⟨x, rest⟩ := r
            have hlt := hprogress buf x rest hentry
            obtain ⟨y, rfl⟩ := hread buf x rest hentry
            obtain ⟨xs, tail, rfl, htail⟩ := ih rest.length (by omega) rest rfl
            exact ⟨y :: xs, tail, by rw [List.flatMap_cons, List.append_assoc], htail⟩

end WhileGood

/-! ## While entries are left, each one checked -/

section WhileChecked

variable {σ ι ξ : Type}

/-- An item: an entry, and what the state makes of it. -/
def checkedItem (entry : ByteReader ι) (step : σ → ι → Except ParseError σ) (s : σ) : ByteReader σ := do
  liftM (step s (← entry))

variable {entry : ByteReader ι} {step : σ → ι → Except ParseError σ} {s s' : σ} {buf rest : List UInt8}

theorem checkedItem_eq_ok : checkedItem entry step s buf = .ok (s', rest) ↔
    ∃ x, entry buf = .ok (x, rest) ∧ step s x = .ok s' := by
  rw [checkedItem, bind_eq_ok]
  constructor
  · rintro ⟨x, mid, hentry, hlift⟩
    obtain ⟨hstep, rfl⟩ := liftM_eq_ok.1 hlift
    exact ⟨x, hentry, hstep⟩
  · rintro ⟨x, hentry, hstep⟩
    exact ⟨x, rest, hentry, liftM_eq_ok.2 ⟨hstep, rfl⟩⟩

theorem progresses_checkedItem (hprogress : EntryProgresses entry) : ItemProgresses (checkedItem entry step) := by
  intro s buf s' rest h
  obtain ⟨x, hentry, -⟩ := checkedItem_eq_ok.1 h
  exact hprogress buf x rest hentry

variable {encode : ξ → List UInt8} {value : ξ → ι}

/-- The loop succeeds if the bytes are entries to the last one, and none of them is refused in its turn. -/
theorem whileLeft_checkedItem_eq_ok (hprogress : EntryProgresses entry)
    (hread : ∀ y, Reads entry (encode y) (value y))
    (hentry : ∀ buf x rest, entry buf = .ok (x, rest) → ∃ y, buf = encode y ++ rest ∧ value y = x) :
    whileLeft 1 (checkedItem entry step) s buf = .ok (s', rest) ↔
      rest = [] ∧ ∃ ys : List ξ, buf = ys.flatMap encode ∧ ys.foldlM (fun s y => step s (value y)) s = .ok s' := by
  constructor
  · intro h
    have hrun := whileLeft_induction (progresses_checkedItem hprogress)
      (P := fun t mid => ∃ ys : List ξ, buf = ys.flatMap encode ++ mid ∧
        ys.foldlM (fun s y => step s (value y)) s = .ok t) ?_ h ⟨[], rfl, rfl⟩
    · obtain ⟨⟨ys, hbuf, hfold⟩, hlt⟩ := hrun
      obtain rfl := List.eq_nil_of_length_eq_zero (Nat.lt_one_iff.1 hlt)
      exact ⟨rfl, ys, by rw [hbuf, List.append_nil], hfold⟩
    · rintro t mid t' mid' - hitem ⟨ys, hbuf, hfold⟩
      obtain ⟨x, hx, hstep⟩ := checkedItem_eq_ok.1 hitem
      obtain ⟨y, rfl, rfl⟩ := hentry mid x mid' hx
      refine ⟨ys ++ [y], by rw [hbuf]; simp, ?_⟩
      rw [List.foldlM_append, hfold]
      change [y].foldlM (fun s y => step s (value y)) t = .ok t'
      rw [List.foldlM_cons, hstep]
      rfl
  · rintro ⟨rfl, ys, rfl, hfold⟩
    induction ys generalizing s with
    | nil =>
        obtain rfl := Except.ok.inj hfold
        exact whileLeft_of_lt Nat.zero_lt_one
    | cons y ys ih =>
        rw [List.foldlM_cons] at hfold
        cases hstep : step s (value y) with
        | error e =>
            rw [hstep] at hfold
            cases hfold
        | ok t =>
            rw [hstep] at hfold
            have hpos : 1 ≤ (encode y ++ ys.flatMap encode).length :=
              Nat.lt_of_le_of_lt (Nat.zero_le _) (hprogress _ _ _ (hread y _))
            rw [List.flatMap_cons, whileLeft_of_ok (progresses_checkedItem hprogress) hpos
              (checkedItem_eq_ok.2 ⟨value y, hread y _, hstep⟩)]
            exact ih hfold

/-- Bytes are entries in one way only. -/
theorem flatMap_inj_of_reads (hprogress : EntryProgresses entry) (hread : ∀ y, Reads entry (encode y) (value y))
    (hvalue : Function.Injective value) {xs ys : List ξ} (h : xs.flatMap encode = ys.flatMap encode) : xs = ys := by
  have hne : ∀ y more, encode y ++ more ≠ [] := by
    intro y more hnil
    have hlt := hprogress _ _ _ (hread y more)
    rw [hnil] at hlt
    exact Nat.not_lt_zero _ hlt
  induction xs generalizing ys with
  | nil =>
      cases ys with
      | nil => rfl
      | cons y ys => exact absurd h.symm (hne y _)
  | cons x xs ih =>
      cases ys with
      | nil => exact absurd h (hne x _)
      | cons y ys =>
          rw [List.flatMap_cons, List.flatMap_cons] at h
          have hx := hread x (xs.flatMap encode)
          rw [h, hread y] at hx
          obtain ⟨hxy, hrest⟩ := Prod.mk.inj (Except.ok.inj hx)
          rw [hvalue hxy, ih hrest.symm]

end WhileChecked

end Pktflow.Core.ByteReader
