import Pktflow.Core.Bytes
import Pktflow.Lib.Loop
import Mathlib.Data.List.Infix

/-!
# Compressed names

Model of `decode_name` (`dns.rs`). A name is a sequence of labels that ends with a zero byte or goes on where a
pointer leads (`EncodedAt`). The loop is left on every message, and it returns exactly the names that are encoded
at its start with no more pointers and characters than it allows (`decodeName_eq_ok_iff`).
-/

set_option autoImplicit false

namespace Pktflow.Plugins

open Pktflow.Core Pktflow.Lib

/-- Why there is no result: the bytes are declined, a subtraction underflows, or the fuel of the model ran out. -/
inductive Abort where
  | declined (e : ParseError)
  | panic
  | fuel
  deriving DecidableEq

/-- `ParseError::Malformed`. -/
def malformed {α : Type} (reason : String) : Except Abort α := .error (.declined (.malformed reason))

/-- A difference in `usize`. -/
def checkedSub (a b : Nat) : Except Abort Nat := if b ≤ a then .ok (a - b) else .error .panic

/-- `MAX_POINTER_JUMPS`. -/
def maxPointerJumps : Nat := 64

/-- `MAX_NAME_LEN`. -/
def maxNameLen : Nat := 255

/-- `u8::is_ascii_graphic`. -/
def isAsciiGraphic (c : UInt8) : Bool := 0x21 ≤ c && c ≤ 0x7E

/-- `char::from`. -/
def charFrom (c : UInt8) : Char := Char.ofNat c.toNat

/-- The character that a byte of a label is shown as. -/
def labelChar (c : UInt8) : Char := if isAsciiGraphic c && c != 0x2E then charFrom c else '?'

/-- A label put behind a name. -/
def pushLabel (name : List Char) (label : List UInt8) : List Char :=
  (if name.isEmpty then name else name ++ ['.']) ++ label.map labelChar

/-- What the loop of `decode_name` changes. -/
structure NameCursor where
  pos : Nat
  consumed : Option Nat
  jumps : Nat
  name : List Char

/-- One turn of the loop: it goes on, or the function returns. -/
inductive NameTurn where
  | again (c : NameCursor)
  | done (r : Except Abort (List Char × Nat))

/-- The body of the loop of `decode_name`. -/
def nameTurn (msg : List UInt8) (start : Nat) (c : NameCursor) : NameTurn :=
  match msg[c.pos]? with
  | none => .done (malformed "name runs past message")
  | some l =>
      if l = 0 then
        .done ((c.consumed.elim (checkedSub (c.pos + 1) start) .ok).map fun consumed => (c.name, consumed))
      else if l &&& 0xC0 = 0xC0 then
        match msg[c.pos + 1]? with
        | none => .done (malformed "pointer runs past message")
        | some low =>
            -- the count is fixed at the first pointer
            match c.consumed.elim (checkedSub (c.pos + 2) start) .ok with
            | .error e => .done (.error e)
            | .ok consumed =>
                let target := (l &&& 0x3F).toNat <<< 8 ||| low.toNat
                if c.pos ≤ target then .done (malformed "forward compression pointer")
                else if maxPointerJumps < c.jumps + 1 then .done (malformed "compression pointer chain too long")
                else .again ⟨target, some consumed, c.jumps + 1, c.name⟩
      else if l &&& 0xC0 = 0 then
        if c.pos + 1 + l.toNat ≤ msg.length then
          let name := pushLabel c.name ((msg.drop (c.pos + 1)).take l.toNat)
          if maxNameLen < name.length then .done (malformed "name too long")
          else .again ⟨c.pos + 1 + l.toNat, c.consumed, c.jumps, name⟩
        else .done (malformed "label runs past message")
      else .done (malformed "reserved label type")

/-- The next state of the loop. -/
def nameBody (msg : List UInt8) (start : Nat) (c : NameCursor) : Option NameCursor :=
  match nameTurn msg start c with
  | .again c' => some c'
  | .done _ => none

/-- `decode_name`, with fuel for every stretch between two pointers. -/
def decodeName (msg : List UInt8) (start : Nat) : Except Abort (List Char × Nat) :=
  match nameTurn msg start (Loop.iterate (nameBody msg start) ((maxPointerJumps + 1) * (msg.length + 1))
      ⟨start, none, 0, []⟩) with
  | .done r => r
  | .again _ => .error .fuel

/-! ## Encoded names -/

/-- The two bytes of a pointer. -/
def pointerBytes (target : Nat) : List UInt8 := [UInt8.ofNat (192 + target / 256), UInt8.ofNat (target % 256)]

/-- At this offset are the labels of a name, through a number of pointers. The size is that up to and including
the zero byte or the first pointer. -/
inductive EncodedAt (msg : List UInt8) : Nat → List (List UInt8) → Nat → Nat → Prop where
  | root {pos : Nat} (hat : [0] <+: msg.drop pos) : EncodedAt msg pos [] 0 1
  | label {pos : Nat} {label : List UInt8} {labels : List (List UInt8)} {jumps size : Nat}
      (hpos : 1 ≤ label.length) (hle : label.length ≤ 63)
      (hat : UInt8.ofNat label.length :: label <+: msg.drop pos)
      (h : EncodedAt msg (pos + 1 + label.length) labels jumps size) :
      EncodedAt msg pos (label :: labels) jumps (1 + label.length + size)
  | pointer {pos target : Nat} {labels : List (List UInt8)} {jumps size : Nat} (hlt : target < pos)
      (hfits : target < 2 ^ 14) (hat : pointerBytes target <+: msg.drop pos)
      (h : EncodedAt msg target labels jumps size) : EncodedAt msg pos labels (jumps + 1) 2

/-- Labels written with dots between them. -/
def dotted (labels : List (List Char)) : List Char := List.intercalate ['.'] labels

/-- A name of this text and size is encoded at the offset, with no more pointers and characters than are allowed. -/
def NameAt (msg : List UInt8) (pos : Nat) (name : List Char) (size : Nat) : Prop :=
  ∃ labels jumps, EncodedAt msg pos labels jumps size ∧ jumps ≤ maxPointerJumps ∧
    name = dotted (labels.map (List.map labelChar)) ∧ name.length ≤ maxNameLen

section Labels

variable {msg msg' : List UInt8} {pos size jumps : Nat} {labels : List (List UInt8)}

theorem EncodedAt.labels_pos (h : EncodedAt msg pos labels jumps size) : ∀ label ∈ labels, 1 ≤ label.length := by
  induction h with
  | root _ => exact fun _ hmem => absurd hmem List.not_mem_nil
  | label hpos _ _ _ ih => exact List.forall_mem_cons.2 ⟨hpos, ih⟩
  | pointer _ _ _ _ ih => exact ih

/-- Bytes behind a message leave what is encoded in it. -/
theorem EncodedAt.mono (h : EncodedAt msg pos labels jumps size) (hpre : msg <+: msg') :
    EncodedAt msg' pos labels jumps size := by
  induction h with
  | root hat => exact .root (hat.trans (hpre.drop _))
  | label hpos hle hat _ ih => exact .label hpos hle (hat.trans (hpre.drop _)) ih
  | pointer hlt hfits hat _ ih => exact .pointer hlt hfits (hat.trans (hpre.drop _)) ih

theorem length_le_of_prefix_drop {bs : List UInt8} (hat : bs <+: msg.drop pos) (hpos : 0 < bs.length) :
    pos + bs.length ≤ msg.length := by
  have hlen := hat.length_le
  rw [List.length_drop] at hlen
  omega

theorem EncodedAt.size_bounds (h : EncodedAt msg pos labels jumps size) : 1 ≤ size ∧ pos + size ≤ msg.length := by
  induction h with
  | root hat => exact ⟨Nat.le_refl 1, length_le_of_prefix_drop hat (Nat.succ_pos 0)⟩
  | label _ _ _ _ ih => omega
  | pointer _ _ hat _ _ => exact ⟨Nat.le_succ 1, length_le_of_prefix_drop hat (Nat.succ_pos 1)⟩

/-- The text that the labels are pushed to. -/
theorem foldl_pushLabel {name : List Char} (hname : name ≠ []) (labels : List (List UInt8)) :
    labels.foldl pushLabel name = dotted (name :: labels.map (List.map labelChar)) := by
  induction labels generalizing name with
  | nil => simp [dotted]
  | cons label labels ih =>
      have hpush : pushLabel name label = name ++ ['.'] ++ label.map labelChar := by
        rw [pushLabel, if_neg (by simpa using hname)]
      have hne : pushLabel name label ≠ [] := by
        rw [hpush]
        simp
      rw [List.foldl_cons, ih hne, hpush, List.map_cons, dotted, dotted, List.intercalate_cons_cons]
      cases hrest : labels.map (List.map labelChar) with
      | nil => simp
      | cons _ _ => simp [List.intercalate_cons_cons]

/-- From nothing the text is that of the labels with dots between them. -/
theorem foldl_pushLabel_nil (hpos : ∀ label ∈ labels, 1 ≤ label.length) :
    labels.foldl pushLabel [] = dotted (labels.map (List.map labelChar)) := by
  cases labels with
  | nil => rfl
  | cons label labels =>
      have hlen : 1 ≤ label.length := hpos label List.mem_cons_self
      have hpush : pushLabel [] label = label.map labelChar := rfl
      have hne : label.map labelChar ≠ [] := by
        intro h
        rw [List.map_eq_nil_iff.1 h] at hlen
        exact absurd hlen (by decide)
      rw [List.foldl_cons, hpush, foldl_pushLabel hne, List.map_cons]

theorem length_pushLabel_le (name : List Char) (label : List UInt8) :
    name.length ≤ (pushLabel name label).length := by
  rw [pushLabel, List.length_append]
  split
  · omega
  · rw [List.length_append]
    omega

theorem length_foldl_pushLabel_le (name : List Char) (labels : List (List UInt8)) :
    name.length ≤ (labels.foldl pushLabel name).length := by
  induction labels generalizing name with
  | nil => exact Nat.le_refl _
  | cons label labels ih => exact (length_pushLabel_le name label).trans (ih _)

/-- Labels of graphic bytes without a dot are shown as they are. -/
theorem map_labelChar {label : List UInt8} (h : ∀ c ∈ label, isAsciiGraphic c = true ∧ c ≠ 0x2E) :
    label.map labelChar = label.map charFrom := by
  apply List.map_congr_left
  intro c hc
  obtain ⟨hgraphic, hdot⟩ := h c hc
  rw [labelChar, if_pos]
  simp [hgraphic, hdot]

end Labels

/-! ## One turn -/

section Bytes

variable {msg : List UInt8} {pos : Nat} {b : UInt8} {bs : List UInt8}

theorem cons_prefix_drop_iff : b :: bs <+: msg.drop pos ↔ msg[pos]? = some b ∧ bs <+: msg.drop (pos + 1) := by
  rw [← List.tail_drop, ← List.head?_drop]
  cases msg.drop pos with
  | nil => simp
  | cons c rest => simp [List.cons_prefix_cons, eq_comm]

/-- A byte of a label's length. -/
theorem labelByte_iff (l : UInt8) : l &&& 0xC0 = 0 ↔ l.toNat < 64 := by
  have hall : ∀ n < 256, (n &&& 192 = 0 ↔ n < 64) := by decide +kernel
  rw [← UInt8.toNat_inj, UInt8.toNat_and]
  exact hall l.toNat l.toNat_lt

/-- The first byte of a pointer. -/
theorem pointerByte_iff (l : UInt8) : l &&& 0xC0 = 0xC0 ↔ 192 ≤ l.toNat := by
  have hall : ∀ n < 256, (n &&& 192 = 192 ↔ 192 ≤ n) := by decide +kernel
  rw [← UInt8.toNat_inj, UInt8.toNat_and]
  exact hall l.toNat l.toNat_lt

theorem target_eq (l low : UInt8) : (l &&& 0x3F).toNat <<< 8 ||| low.toNat = l.toNat % 64 * 256 + low.toNat := by
  have hmod : (l &&& 0x3F).toNat = l.toNat % 64 := by
    rw [UInt8.toNat_and]
    exact Nat.and_two_pow_sub_one_eq_mod l.toNat 6
  rw [hmod, ← Nat.shiftLeft_add_eq_or_of_lt low.toNat_lt, Nat.shiftLeft_eq]

/-- The bytes of the pointer to the offset that two bytes denote. -/
theorem pointerBytes_of_bytes {l low : UInt8} (hl : 192 ≤ l.toNat) :
    pointerBytes (l.toNat % 64 * 256 + low.toNat) = [l, low] := by
  have hlt := l.toNat_lt
  have hlow := low.toNat_lt
  have hhigh : 192 + (l.toNat % 64 * 256 + low.toNat) / 256 = l.toNat := by omega
  have hrest : (l.toNat % 64 * 256 + low.toNat) % 256 = low.toNat := by omega
  rw [pointerBytes, hhigh, hrest, UInt8.ofNat_toNat, UInt8.ofNat_toNat]

end Bytes

section Turns

variable {msg : List UInt8} {start : Nat} {c c' : NameCursor}

/-- The count of the bytes of the name is fixed, or the cursor is not before the start. -/
def NameCursor.Counted (start : Nat) (c : NameCursor) : Prop := c.consumed = none → start ≤ c.pos

/-- A count that is fixed, or else ends at the offset. -/
theorem elim_checkedSub (hcounted : c.Counted start) (n : Nat) :
    c.consumed.elim (checkedSub (c.pos + n) start) .ok = .ok (c.consumed.getD (c.pos + n - start)) := by
  cases hconsumed : c.consumed with
  | none => exact if_pos (Nat.le_add_right_of_le (hcounted hconsumed))
  | some _ => rfl

theorem nameTurn_root (hcounted : c.Counted start) (hat : [0] <+: msg.drop c.pos) :
    nameTurn msg start c = .done (.ok (c.name, c.consumed.getD (c.pos + 1 - start))) := by
  rw [nameTurn, (cons_prefix_drop_iff.1 hat).1]
  simp only [if_true]
  rw [elim_checkedSub hcounted]
  rfl

theorem nameTurn_label {label : List UInt8} (hpos : 1 ≤ label.length) (hle : label.length ≤ 63)
    (hat : UInt8.ofNat label.length :: label <+: msg.drop c.pos)
    (hname : (pushLabel c.name label).length ≤ maxNameLen) :
    nameTurn msg start c =
      .again ⟨c.pos + 1 + label.length, c.consumed, c.jumps, pushLabel c.name label⟩ := by
  obtain ⟨hbyte, hlabel⟩ := cons_prefix_drop_iff.1 hat
  have hnat : (UInt8.ofNat label.length).toNat = label.length := by
    rw [UInt8.toNat_ofNat']
    omega
  have hfits := length_le_of_prefix_drop hlabel hpos
  rw [nameTurn, hbyte]
  simp only [hnat]
  -- the byte is not zero, begins no pointer, and is the length of the label
  rw [if_neg, if_neg, if_pos, if_pos hfits, ← List.prefix_iff_eq_take.1 hlabel, if_neg (by omega)]
  · rw [labelByte_iff, hnat]
    omega
  · rw [pointerByte_iff, hnat]
    omega
  · rw [← UInt8.toNat_inj, hnat, UInt8.toNat_zero]
    omega

theorem nameTurn_pointer {target : Nat} (hcounted : c.Counted start) (hlt : target < c.pos)
    (hfits : target < 2 ^ 14) (hat : pointerBytes target <+: msg.drop c.pos) (hjumps : c.jumps + 1 ≤ maxPointerJumps) :
    nameTurn msg start c =
      .again ⟨target, some (c.consumed.getD (c.pos + 2 - start)), c.jumps + 1, c.name⟩ := by
  obtain ⟨hbyte, hrest⟩ := cons_prefix_drop_iff.1 hat
  have hhigh : (UInt8.ofNat (192 + target / 256)).toNat = 192 + target / 256 := by
    rw [UInt8.toNat_ofNat']
    omega
  have hlow : (UInt8.ofNat (target % 256)).toNat = target % 256 := by
    rw [UInt8.toNat_ofNat']
    omega
  have htarget : (192 + target / 256) % 64 * 256 + target % 256 = target := by omega
  rw [nameTurn, hbyte]
  dsimp only
  -- the byte is not zero and begins a pointer
  rw [if_neg, if_pos, (cons_prefix_drop_iff.1 hrest).1]
  · dsimp only
    rw [elim_checkedSub hcounted]
    dsimp only
    rw [target_eq, hhigh, hlow, htarget, if_neg (by omega), if_neg (by omega)]
  · rw [pointerByte_iff, hhigh]
    omega
  · rw [← UInt8.toNat_inj, hhigh, UInt8.toNat_zero]
    omega

/-- What a turn reads at the first byte of a pointer: a pointer, or bytes that are declined. -/
theorem nameTurn_of_pointerByte (hcounted : c.Counted start) {l low : UInt8} (hl : msg[c.pos]? = some l)
    (hpointer : l &&& 0xC0 = 0xC0) (hlow : msg[c.pos + 1]? = some low) :
    (∃ reason, nameTurn msg start c = .done (malformed reason)) ∨
    ∃ target, target < c.pos ∧ target < 2 ^ 14 ∧ pointerBytes target <+: msg.drop c.pos ∧
      c.jumps + 1 ≤ maxPointerJumps ∧
      nameTurn msg start c = .again ⟨target, some (c.consumed.getD (c.pos + 2 - start)), c.jumps + 1, c.name⟩ := by
  have hlt := l.toNat_lt
  have hlowlt := low.toNat_lt
  have hhigh := (pointerByte_iff l).1 hpointer
  have hzero : l ≠ 0 := by
    rintro rfl
    exact absurd hhigh (by decide)
  have hbytes : pointerBytes (l.toNat % 64 * 256 + low.toNat) <+: msg.drop c.pos := by
    rw [pointerBytes_of_bytes hhigh]
    exact cons_prefix_drop_iff.2 ⟨hl, cons_prefix_drop_iff.2 ⟨hlow, List.nil_prefix⟩⟩
  by_cases hback : c.pos ≤ l.toNat % 64 * 256 + low.toNat
  · refine .inl ⟨"forward compression pointer", ?_⟩
    rw [nameTurn, hl]
    simp only [hzero, hpointer, hlow, if_true, if_false, elim_checkedSub hcounted, target_eq, if_pos hback]
  by_cases hjumps : maxPointerJumps < c.jumps + 1
  · refine .inl ⟨"compression pointer chain too long", ?_⟩
    rw [nameTurn, hl]
    simp only [hzero, hpointer, hlow, if_true, if_false, elim_checkedSub hcounted, target_eq, if_neg hback,
      if_pos hjumps]
  have hturn := nameTurn_pointer hcounted (Nat.lt_of_not_le hback) (by omega) hbytes (by omega)
  exact .inr ⟨_, by omega, by omega, hbytes, by omega, hturn⟩

/-- What a turn reads at the length of a label: a label, or bytes that are declined. -/
theorem nameTurn_of_labelByte (start : Nat) {l : UInt8} (hl : msg[c.pos]? = some l) (hzero : l ≠ 0)
    (hlabel : l &&& 0xC0 = 0) :
    (∃ reason, nameTurn msg start c = .done (malformed reason)) ∨
    ∃ label, 1 ≤ label.length ∧ label.length ≤ 63 ∧ UInt8.ofNat label.length :: label <+: msg.drop c.pos ∧
      (pushLabel c.name label).length ≤ maxNameLen ∧
      nameTurn msg start c = .again ⟨c.pos + 1 + label.length, c.consumed, c.jumps, pushLabel c.name label⟩ := by
  have hsmall := (labelByte_iff l).1 hlabel
  have hnot : l.toNat ≠ 0 := fun h0 => hzero (UInt8.toNat_inj.1 h0)
  have hpointer : ¬l &&& 0xC0 = 0xC0 := by
    rw [pointerByte_iff]
    omega
  by_cases hfits : c.pos + 1 + l.toNat ≤ msg.length
  · by_cases hname : maxNameLen < (pushLabel c.name ((msg.drop (c.pos + 1)).take l.toNat)).length
    · refine .inl ⟨"name too long", ?_⟩
      rw [nameTurn, hl]
      simp only [hzero, hpointer, if_false, if_pos hlabel, if_pos hfits, if_pos hname]
    · have hlen : ((msg.drop (c.pos + 1)).take l.toNat).length = l.toNat := by
        rw [List.length_take, List.length_drop]
        omega
      have hbytes : UInt8.ofNat ((msg.drop (c.pos + 1)).take l.toNat).length ::
          (msg.drop (c.pos + 1)).take l.toNat <+: msg.drop c.pos := by
        rw [hlen, UInt8.ofNat_toNat]
        exact cons_prefix_drop_iff.2 ⟨hl, List.take_prefix _ _⟩
      have hturn := @nameTurn_label msg start c _ (by omega) (by omega) hbytes (Nat.le_of_not_lt hname)
      exact .inr ⟨_, by omega, by omega, hbytes, by omega, hturn⟩
  · refine .inl ⟨"label runs past message", ?_⟩
    rw [nameTurn, hl]
    simp only [hzero, hpointer, if_false, if_pos hlabel, if_neg hfits]

/-- What a turn reads: the end of the name, bytes that are declined, a label or a pointer. -/
theorem nameTurn_cases (msg : List UInt8) (hcounted : c.Counted start) :
    ([0] <+: msg.drop c.pos ∧
      nameTurn msg start c = .done (.ok (c.name, c.consumed.getD (c.pos + 1 - start)))) ∨
    (∃ reason, nameTurn msg start c = .done (malformed reason)) ∨
    (∃ label, 1 ≤ label.length ∧ label.length ≤ 63 ∧ UInt8.ofNat label.length :: label <+: msg.drop c.pos ∧
      (pushLabel c.name label).length ≤ maxNameLen ∧
      nameTurn msg start c = .again ⟨c.pos + 1 + label.length, c.consumed, c.jumps, pushLabel c.name label⟩) ∨
    ∃ target, target < c.pos ∧ target < 2 ^ 14 ∧ pointerBytes target <+: msg.drop c.pos ∧
      c.jumps + 1 ≤ maxPointerJumps ∧
      nameTurn msg start c = .again ⟨target, some (c.consumed.getD (c.pos + 2 - start)), c.jumps + 1, c.name⟩ := by
  cases hl : msg[c.pos]? with
  | none => exact .inr (.inl ⟨_, by rw [nameTurn, hl]⟩)
  | some l =>
      by_cases hzero : l = 0
      · have hroot : [0] <+: msg.drop c.pos := cons_prefix_drop_iff.2 ⟨hzero ▸ hl, List.nil_prefix⟩
        exact .inl ⟨hroot, nameTurn_root hcounted hroot⟩
      by_cases hpointer : l &&& 0xC0 = 0xC0
      · cases hlow : msg[c.pos + 1]? with
        | none =>
            refine .inr (.inl ⟨"pointer runs past message", ?_⟩)
            rw [nameTurn, hl]
            simp only [hzero, hpointer, hlow, if_true, if_false]
        | some low =>
            rcases nameTurn_of_pointerByte hcounted hl hpointer hlow with h | h
            · exact .inr (.inl h)
            · exact .inr (.inr (.inr h))
      by_cases hlabel : l &&& 0xC0 = 0
      · rcases nameTurn_of_labelByte start hl hzero hlabel with h | h
        · exact .inr (.inl h)
        · exact .inr (.inr (.inl h))
      · refine .inr (.inl ⟨"reserved label type", ?_⟩)
        rw [nameTurn, hl]
        simp only [hzero, hpointer, if_false, if_neg hlabel]

end Turns

/-! ## The loop -/

section Decoding

variable {msg : List UInt8} {start pos jumps size : Nat} {labels : List (List UInt8)} {c c' : NameCursor}
  {name : List Char}

theorem nameBody_eq_some : nameBody msg start c = some c' ↔ nameTurn msg start c = .again c' := by
  rw [nameBody]
  split <;> simp_all

theorem nameBody_eq_none : nameBody msg start c = none ↔ ∃ r, nameTurn msg start c = .done r := by
  rw [nameBody]
  split <;> simp_all

/-- The pointers that are left, each with a stretch of labels behind it. -/
def nameMeasure (msg : List UInt8) (c : NameCursor) : Nat :=
  (maxPointerJumps - c.jumps) * (msg.length + 1) + (msg.length - c.pos)

theorem nameBody_step (hcounted : c.Counted start) (h : nameBody msg start c = some c') :
    c'.Counted start ∧ nameMeasure msg c' < nameMeasure msg c := by
  rw [nameBody_eq_some] at h
  rcases nameTurn_cases msg hcounted with
    ⟨-, hturn⟩ | ⟨reason, hturn⟩ | ⟨label, hpos, -, hat, -, hturn⟩ | ⟨target, hlt, -, hat, hjumps, hturn⟩
  · cases hturn.symm.trans h
  · cases hturn.symm.trans h
  · cases hturn.symm.trans h
    refine ⟨fun hnone => ?_, ?_⟩
    · have := hcounted hnone
      dsimp only
      omega
    · have hfits := length_le_of_prefix_drop hat (Nat.succ_pos _)
      rw [List.length_cons] at hfits
      unfold nameMeasure
      dsimp only
      omega
  · cases hturn.symm.trans h
    refine ⟨fun hnone => absurd hnone (by simp), ?_⟩
    -- one pointer fewer pays for the bytes in front of it
    have hfewer : maxPointerJumps - c.jumps = maxPointerJumps - (c.jumps + 1) + 1 := by omega
    unfold nameMeasure
    dsimp only
    rw [hfewer, Nat.add_mul]
    omega

theorem counted_start : NameCursor.Counted start ⟨start, none, 0, []⟩ := fun _ => Nat.le_refl start

/-- The loop is left with the fuel it has. -/
theorem decodeName_exit (msg : List UInt8) (start : Nat) :
    nameBody msg start (Loop.iterate (nameBody msg start) ((maxPointerJumps + 1) * (msg.length + 1))
      ⟨start, none, 0, []⟩) = none := by
  apply Loop.iterate_exit (nameMeasure msg) (fun _ _ hcounted h => (nameBody_step hcounted h).1)
    (fun _ _ hcounted h => (nameBody_step hcounted h).2) _ _ counted_start
  rw [nameMeasure]
  dsimp only
  rw [Nat.sub_zero, Nat.add_mul]
  omega

/-- What is returned is what the turn returns at which the loop is left. -/
theorem decodeName_of_passes {r : Except Abort (List Char × Nat)}
    (hpasses : Loop.Passes (nameBody msg start) ⟨start, none, 0, []⟩ c) (hturn : nameTurn msg start c = .done r) :
    decodeName msg start = r := by
  have hexit := hpasses.exit_unique (Loop.passes_iterate _ _ _) (nameBody_eq_none.2 ⟨r, hturn⟩)
    (decodeName_exit msg start)
  rw [decodeName, ← hexit, hturn]

theorem exists_passes (msg : List UInt8) (start : Nat) :
    ∃ c, Loop.Passes (nameBody msg start) ⟨start, none, 0, []⟩ c ∧ c.Counted start ∧
      nameTurn msg start c = .done (decodeName msg start) := by
  obtain ⟨r, hr⟩ := nameBody_eq_none.1 (decodeName_exit msg start)
  have hpasses := Loop.passes_iterate (nameBody msg start) ((maxPointerJumps + 1) * (msg.length + 1))
    ⟨start, none, 0, []⟩
  refine ⟨_, hpasses, hpasses.invariant (fun _ _ hcounted h => (nameBody_step hcounted h).1) counted_start, ?_⟩
  rw [hr, decodeName_of_passes hpasses hr]

/-- The loop reads an encoded name to its end. -/
theorem EncodedAt.passes {consumed : Option Nat} {taken : Nat} (h : EncodedAt msg pos labels jumps size)
    (hcounted : NameCursor.Counted start ⟨pos, consumed, taken, name⟩) (hjumps : taken + jumps ≤ maxPointerJumps)
    (hlen : (labels.foldl pushLabel name).length ≤ maxNameLen) :
    ∃ c, Loop.Passes (nameBody msg start) ⟨pos, consumed, taken, name⟩ c ∧
      nameTurn msg start c = .done (.ok (labels.foldl pushLabel name, consumed.getD (pos + size - start))) := by
  -- the count is the cursor's from the first pointer on, and ends at the zero byte without one
  induction h generalizing consumed taken name with
  | root hat => exact ⟨_, .refl, nameTurn_root hcounted hat⟩
  | @label pos label labels jumps size hpos hle hat _ ih =>
      have hturn := @nameTurn_label msg start ⟨pos, consumed, taken, name⟩ label hpos hle hat
        ((length_foldl_pushLabel_le _ labels).trans hlen)
      have hbody := nameBody_eq_some.2 hturn
      obtain ⟨c, hpasses, hdone⟩ := ih (nameBody_step hcounted hbody).1 hjumps hlen
      refine ⟨c, .head hbody hpasses, ?_⟩
      rw [hdone, ← Nat.add_assoc, ← Nat.add_assoc]
      rfl
  | @pointer pos target labels jumps size hlt hfits hat _ ih =>
      have htaken : taken + 1 ≤ maxPointerJumps := by omega
      have hturn := @nameTurn_pointer msg start ⟨pos, consumed, taken, name⟩ target hcounted hlt hfits hat htaken
      have hbody := nameBody_eq_some.2 hturn
      have htotal : taken + 1 + jumps ≤ maxPointerJumps := by omega
      obtain ⟨c, hpasses, hdone⟩ := ih (nameBody_step hcounted hbody).1 htotal hlen
      exact ⟨c, .head hbody hpasses, hdone⟩

/-- What the loop has read when it returns a name is an encoded name. -/
theorem encodedAt_of_passes {n : Nat} (hpasses : Loop.Passes (nameBody msg start) c c')
    (hdone : nameTurn msg start c' = .done (.ok (name, n))) (hcounted : c.Counted start)
    (htaken : c.jumps ≤ maxPointerJumps) (hlen : c.name.length ≤ maxNameLen) :
    ∃ labels jumps size, EncodedAt msg c.pos labels jumps size ∧ c.jumps + jumps ≤ maxPointerJumps ∧
      name = labels.foldl pushLabel c.name ∧ name.length ≤ maxNameLen ∧
      n = c.consumed.getD (c.pos + size - start) := by
  -- from the turn that returns back to the first one, each label or pointer read is put in front
  induction hpasses using Relation.ReflTransGen.head_induction_on with
  | refl =>
      rcases nameTurn_cases msg hcounted with
        ⟨hat, hturn⟩ | ⟨reason, hturn⟩ | ⟨_, _, _, _, _, hturn⟩ | ⟨_, _, _, _, _, hturn⟩
      · cases hturn.symm.trans hdone
        exact ⟨[], 0, 1, .root hat, htaken, rfl, hlen, rfl⟩
      · cases hturn.symm.trans hdone
      · cases hturn.symm.trans hdone
      · cases hturn.symm.trans hdone
  | @head c mid hbody _ ih =>
      have hnext := (nameBody_step hcounted hbody).1
      rw [nameBody_eq_some] at hbody
      rcases nameTurn_cases msg hcounted with
        ⟨-, hturn⟩ | ⟨reason, hturn⟩ | ⟨label, hpos, hle, hat, hname, hturn⟩ | ⟨target, hlt, hfits, hat, hjumps, hturn⟩
      · cases hturn.symm.trans hbody
      · cases hturn.symm.trans hbody
      · cases hturn.symm.trans hbody
        obtain ⟨labels, jumps, size, hencoded, htotal, heq, hshort, hn⟩ := ih hnext htaken hname
        refine ⟨label :: labels, jumps, _, .label hpos hle hat hencoded, htotal, heq, hshort, ?_⟩
        rw [hn, ← Nat.add_assoc, ← Nat.add_assoc]
      · cases hturn.symm.trans hbody
        obtain ⟨labels, jumps, size, hencoded, htotal, heq, hshort, hn⟩ := ih hnext hjumps hlen
        dsimp only at htotal
        exact ⟨labels, jumps + 1, 2, .pointer hlt hfits hat hencoded, by omega, heq, hshort, hn⟩

/-- The names that are returned are those encoded at the start. -/
theorem decodeName_eq_ok_iff : decodeName msg start = .ok (name, size) ↔ NameAt msg start name size := by
  constructor
  · intro h
    obtain ⟨c, hpasses, -, hdone⟩ := exists_passes msg start
    rw [h] at hdone
    obtain ⟨labels, jumps, n, hencoded, hjumps, heq, hlen, hsize⟩ :=
      encodedAt_of_passes hpasses hdone counted_start (Nat.zero_le _) (Nat.zero_le _)
    have hn : size = n := by
      rw [hsize, Option.getD_none, Nat.add_sub_cancel_left]
    rw [hn]
    refine ⟨labels, jumps, hencoded, by omega, ?_, hlen⟩
    rw [heq, foldl_pushLabel_nil hencoded.labels_pos]
  · rintro ⟨labels, jumps, hencoded, hjumps, heq, hlen⟩
    have hfold := foldl_pushLabel_nil hencoded.labels_pos
    rw [← heq] at hfold
    obtain ⟨c, hpasses, hdone⟩ := hencoded.passes counted_start (by omega) (by rw [hfold]; exact hlen)
    rw [decodeName_of_passes hpasses hdone, hfold, Option.getD_none, Nat.add_sub_cancel_left]

/-- Bytes that are no name are declined: no subtraction underflows, and the loop is left. -/
theorem decodeName_eq_error {a : Abort} (h : decodeName msg start = .error a) :
    ∃ reason, a = .declined (.malformed reason) := by
  obtain ⟨c, -, hcounted, hdone⟩ := exists_passes msg start
  rw [h] at hdone
  rcases nameTurn_cases msg hcounted with
    ⟨-, hturn⟩ | ⟨reason, hturn⟩ | ⟨_, _, _, _, _, hturn⟩ | ⟨_, _, _, _, _, hturn⟩
  · cases hturn.symm.trans hdone
  · cases hturn.symm.trans hdone
    exact ⟨reason, rfl⟩
  · cases hturn.symm.trans hdone
  · cases hturn.symm.trans hdone

/-- On every message and start the loop ends with a name within the bounds or declines, and it decodes what is
encoded there. -/
theorem decodeName_spec (msg : List UInt8) (start : Nat) :
    ((∃ reason, decodeName msg start = malformed reason) ∨
      ∃ name consumed, decodeName msg start = .ok (name, consumed) ∧ name.length ≤ 255 ∧ 1 ≤ consumed ∧
        consumed ≤ msg.length - start) ∧
    ∀ labels jumps size, EncodedAt msg start labels jumps size → jumps ≤ 64 →
      (∀ label ∈ labels, ∀ c ∈ label, isAsciiGraphic c = true ∧ c ≠ 0x2E) →
      (dotted (labels.map (List.map charFrom))).length ≤ 255 →
      decodeName msg start = .ok (dotted (labels.map (List.map charFrom)), size) := by
  constructor
  · cases h : decodeName msg start with
    | error a =>
        obtain ⟨reason, rfl⟩ := decodeName_eq_error h
        exact .inl ⟨reason, rfl⟩
    | ok r =>
        obtain ⟨labels, jumps, hencoded, -, -, hlen⟩ := decodeName_eq_ok_iff.1 h
        obtain ⟨hpos, hfits⟩ := hencoded.size_bounds
        exact .inr ⟨r.1, r.2, rfl, hlen, hpos, by omega⟩
  · intro labels jumps size hencoded hjumps hgraphic hlen
    have htexts : labels.map (List.map labelChar) = labels.map (List.map charFrom) :=
      List.map_congr_left fun label hlabel => map_labelChar (hgraphic label hlabel)
    rw [← htexts] at hlen ⊢
    exact decodeName_eq_ok_iff.2 ⟨labels, jumps, hencoded, hjumps, rfl, hlen⟩

end Decoding

/-- A label and a pointer to another behind which the name ends. -/
theorem decodeName_spec_pointer :
    decodeName [1, 97, 0, 3, 119, 119, 119, 0xC0, 0] 3 = .ok ("www.a".toList, 6) := by
  have hroot : EncodedAt [1, 97, 0, 3, 119, 119, 119, 0xC0, 0] 0 [[97]] 0 3 :=
    .label (by decide) (by decide) (by decide) (.root (by decide))
  have hname : EncodedAt [1, 97, 0, 3, 119, 119, 119, 0xC0, 0] 3 [[119, 119, 119], [97]] 1 6 :=
    .label (by decide) (by decide) (by decide) (.pointer (by decide) (by decide) (by decide) hroot)
  have hgraphic : ∀ label ∈ [[119, 119, 119], [97]], ∀ c ∈ label, isAsciiGraphic c = true ∧ c ≠ 0x2E := by
    intro label hlabel c hc
    rcases List.mem_cons.1 hlabel with rfl | hlabel
    · obtain rfl : c = 119 := by simpa using hc
      decide
    · obtain rfl := List.mem_singleton.1 hlabel
      obtain rfl := List.mem_singleton.1 hc
      decide
  exact (decodeName_spec _ 3).2 _ 1 6 hname (by decide) hgraphic (by decide)

end Pktflow.Plugins
