import Mathlib.Data.List.Infix
import Mathlib.Data.List.Forall2
import Pktflow.Lib.Lines
import Pktflow.Lib.Utf8

/-!
# The text forms of IPv6 addresses

`read` follows the grammar of the text forms: groups of up to four hexadecimal digits of either case, one `::` for
groups that are zero, and the last four bytes as a dotted quad if one likes. `Recommended` says which of its forms is
the recommended one: an address has one text of that form (`Recommended.unique`), and it is read as the address it is
of (`read_of_recommended`).
-/

set_option autoImplicit false

namespace Pktflow.Lib.Ipv6Text

/-! ## Reading -/

/-- The value of a hexadecimal digit. -/
def hexValue (c : Char) : Option Nat :=
  if '0' ≤ c ∧ c ≤ '9' then some (c.toNat - 48)
  else if 'a' ≤ c ∧ c ≤ 'f' then some (c.toNat - 87)
  else if 'A' ≤ c ∧ c ≤ 'F' then some (c.toNat - 55)
  else none

/-- The value of a decimal digit. -/
def decimalValue (c : Char) : Option Nat := if '0' ≤ c ∧ c ≤ '9' then some (c.toNat - 48) else none

/-- The number that digits in base `b` tell. -/
def digitsValue (value : Char → Option Nat) (b : Nat) (t : Text) : Option Nat :=
  t.foldlM (fun n c => (value c).map (b * n + ·)) 0

/-- A group: one to four hexadecimal digits. -/
def readGroup (t : Text) : Option Nat :=
  if 1 ≤ t.length ∧ t.length ≤ 4 then digitsValue hexValue 16 t else none

/-- A byte of a dotted quad: decimal digits without a zero in front. -/
def readOctet (t : Text) : Option Nat :=
  if t = [] ∨ (t.head? = some '0' ∧ t ≠ ['0']) then none else (digitsValue decimalValue 10 t).filter (· < 256)

/-- The two groups that a dotted quad tells. -/
def readQuad (t : Text) : Option (List Nat) :=
  match (t.splitOn '.').mapM readOctet with
  | some [a, b, c, d] => some [256 * a + b, 256 * c + d]
  | _ => none

/-- The parts between colons. -/
def colonParts (t : Text) : List Text := if t = [] then [] else t.splitOn ':'

/-- Groups to the end of a text, of which a dotted quad may be the last two. -/
def readTail : List Text → Option (List Nat)
  | [] => some []
  | [last] => if '.' ∈ last then readQuad last else (readGroup last).map ([·])
  | part :: parts => do
      let g ← readGroup part
      let gs ← readTail parts
      return g :: gs

/-- The eight groups of a text, the zeros that `::` stands for among them. -/
def readGroups (t : Text) : Option (List Nat) :=
  match position [':', ':'] t with
  | none => (readTail (colonParts t)).filter (·.length = 8)
  | some pos => do
      let front ← (colonParts (t.take pos)).mapM readGroup
      let back ← readTail (colonParts (t.drop (pos + 2)))
      if front.length + back.length < 8 then
        some (front ++ List.replicate (8 - (front.length + back.length)) 0 ++ back)
      else none

/-- The bytes of a group. -/
def groupBytes (g : Nat) : List UInt8 := [UInt8.ofNat (g / 256), UInt8.ofNat (g % 256)]

/-- The bytes of the address that a text is of. -/
def read (t : Text) : Option (List UInt8) := (readGroups t).map (·.flatMap groupBytes)

/-- The bytes of an address of either kind, IPv6 or a dotted quad alone. -/
def readEither (t : Text) : Option (List UInt8) :=
  (read t).or ((readQuad t).map (·.flatMap groupBytes))

/-! ## The recommended form -/

/-- The groups of an address. -/
def groupsOf : List UInt8 → List Nat
  | hi :: lo :: rest => (256 * hi.toNat + lo.toNat) :: groupsOf rest
  | _ => []

/-- An IPv4 address in IPv6. -/
def Mapped (b : List UInt8) : Prop := b.take 12 = List.replicate 10 0 ++ [0xFF, 0xFF]

/-- Groups that are zero. -/
def ZeroRun (groups : List Nat) (start len : Nat) : Prop := ∀ i, i < len → groups[start + i]? = some 0

/-- The run that is left out: at least two groups, no other longer, and of the longest the leftmost. -/
structure ChosenRun (groups : List Nat) (start len : Nat) : Prop where
  zero : ZeroRun groups start len
  two : 2 ≤ len
  longest : ∀ start' len', ZeroRun groups start' len' → len' ≤ len
  leftmost : ∀ start', ZeroRun groups start' len → start ≤ start'

/-- A group as it is recommended: lower case, without zeros in front. -/
structure GroupText (g : Nat) (t : Text) : Prop where
  lower : ∀ c ∈ t, c ∈ "0123456789abcdef".toList
  short : t.head? = some '0' → t = ['0']
  read : readGroup t = some g

/-- A byte of a dotted quad. -/
structure OctetText (n : UInt8) (t : Text) : Prop where
  decimal : ∀ c ∈ t, c ∈ "0123456789".toList
  read : readOctet t = some n.toNat

/-- The recommended text of an address: a dotted quad behind the prefix of mapped addresses, else groups, with `::` in
place of the run that is left out, if there is one. -/
inductive Recommended (b : List UInt8) : Text → Prop where
  | quad (hmapped : Mapped b) {octets : List Text} (htexts : List.Forall₂ OctetText (b.drop 12) octets) :
      Recommended b ("::ffff:".toList ++ ['.'].intercalate octets)
  | gap (hmapped : ¬Mapped b) {start len : Nat} (hrun : ChosenRun (groupsOf b) start len) {front back : List Text}
      (hfront : List.Forall₂ GroupText ((groupsOf b).take start) front)
      (hback : List.Forall₂ GroupText ((groupsOf b).drop (start + len)) back) :
      Recommended b ([':'].intercalate front ++ (':' :: ':' :: [':'].intercalate back))
  | full (hmapped : ¬Mapped b) (hno : ∀ start len, ZeroRun (groupsOf b) start len → len < 2) {texts : List Text}
      (htexts : List.Forall₂ GroupText (groupsOf b) texts) : Recommended b ([':'].intercalate texts)

/-! ## Digits -/

section Digits

variable {value : Char → Option Nat} {b : Nat}

theorem digitsValue_append (t : Text) (c : Char) :
    digitsValue value b (t ++ [c]) = (digitsValue value b t).bind fun n => (value c).map (b * n + ·) := by
  rw [digitsValue, List.foldlM_append, digitsValue]
  simp only [List.foldlM_cons, List.foldlM_nil, Option.bind_eq_bind, Option.pure_def, Option.bind_fun_some]

/-- The digits of a number tell it. -/
theorem digitsValue_toDigits (hb : 1 < b) (hvalue : ∀ d, d < b → value d.digitChar = some d) (n : Nat) :
    digitsValue value b (Nat.toDigits b n) = some n := by
  induction n using Nat.strongRecOn with
  | ind n ih =>
      by_cases hn : n < b
      · rw [Nat.toDigits_of_lt_base hn, ← List.nil_append [n.digitChar], digitsValue_append, hvalue n hn]
        simp [digitsValue]
      · have hn : b ≤ n := Nat.not_lt.1 hn
        rw [Nat.toDigits_of_base_le hb hn, digitsValue_append, ih _ (Nat.div_lt_self (by omega) hb),
          hvalue _ (Nat.mod_lt n (by omega)), Option.bind_some, Option.map_some, Nat.div_add_mod]

/-- No zero stands in front of a number, unless it is zero. -/
theorem head?_toDigits (hb : 1 < b) {n : Nat} (h : (Nat.toDigits b n).head? = some '0') : n = 0 := by
  induction n using Nat.strongRecOn with
  | ind n ih =>
      by_cases hn : n < b
      · rw [Nat.toDigits_of_lt_base hn] at h
        exact Nat.digitChar_eq_zero.1 (Option.some.inj h)
      · have hn : b ≤ n := Nat.not_lt.1 hn
        rw [Nat.toDigits_of_base_le hb hn, List.head?_append_of_ne_nil _ Nat.toDigits_ne_nil] at h
        have hzero := ih _ (Nat.div_lt_self (by omega) hb) h
        exact absurd (Nat.div_pos hn (by omega)) (by omega)

theorem mem_toDigits (hb : 1 < b) {n : Nat} {c : Char} (h : c ∈ Nat.toDigits b n) : ∃ d, d < b ∧ c = d.digitChar := by
  induction n using Nat.strongRecOn with
  | ind n ih =>
      by_cases hn : n < b
      · rw [Nat.toDigits_of_lt_base hn] at h
        exact ⟨n, hn, List.mem_singleton.1 h⟩
      · have hn : b ≤ n := Nat.not_lt.1 hn
        rw [Nat.toDigits_of_base_le hb hn, List.mem_append, List.mem_singleton] at h
        rcases h with h | h
        · exact ih _ (Nat.div_lt_self (by omega) hb) h
        · exact ⟨_, Nat.mod_lt n (by omega), h⟩

/-- The shortest hexadecimal digits of a group are its recommended text. -/
theorem groupText_toDigits {g : Nat} (hg : g < 65536) : GroupText g (Nat.toDigits 16 g) := by
  have hvalues : ∀ d, d < 16 → hexValue d.digitChar = some d := by decide
  have hlower : ∀ d, d < 16 → d.digitChar ∈ "0123456789abcdef".toList := by decide
  constructor
  · intro c hc
    obtain ⟨d, hd, rfl⟩ := mem_toDigits (by decide) hc
    exact hlower d hd
  · intro hzero
    rw [head?_toDigits (by decide) hzero]
    rfl
  · rw [readGroup, if_pos, digitsValue_toDigits (by decide) hvalues]
    exact ⟨Nat.length_toDigits_pos, (Nat.length_toDigits_le_iff (by decide) (by decide)).2 hg⟩

/-- The decimal digits of a byte are what it is in a dotted quad. -/
theorem octetText_toDigits (n : UInt8) : OctetText n (Nat.toDigits 10 n.toNat) := by
  have hvalues : ∀ d, d < 10 → decimalValue d.digitChar = some d := by decide
  have hdecimal : ∀ d, d < 10 → d.digitChar ∈ "0123456789".toList := by decide
  constructor
  · intro c hc
    obtain ⟨d, hd, rfl⟩ := mem_toDigits (by decide) hc
    exact hdecimal d hd
  · rw [readOctet, if_neg, digitsValue_toDigits (by decide) hvalues]
    · simp [n.toNat_lt]
    · rintro (hnil | ⟨hzero, hlong⟩)
      · exact Nat.toDigits_ne_nil hnil
      · rw [head?_toDigits (by decide) hzero] at hlong
        exact hlong rfl

theorem digitsValue_zeros (hzero : value '0' = some 0) (k : Nat) (t : Text) :
    digitsValue value b (List.replicate k '0' ++ t) = digitsValue value b t := by
  induction k with
  | zero => rfl
  | succ k ih =>
      rw [List.replicate_succ, List.cons_append, digitsValue, List.foldlM_cons, hzero, Option.map_some,
        Option.bind_eq_bind, Option.bind_some, Nat.mul_zero]
      exact ih

end Digits

/-! ## Parts -/

section Parts

variable {gs : List Nat} {ts : List Text}

theorem GroupText.plain {g : Nat} {t : Text} (h : GroupText g t) : t ≠ [] ∧ ':' ∉ t ∧ '.' ∉ t := by
  refine ⟨?_, ?_, ?_⟩
  · rintro rfl
    exact absurd h.read nofun
  · intro hc
    exact absurd (h.lower _ hc) (by decide)
  · intro hc
    exact absurd (h.lower _ hc) (by decide)

theorem OctetText.plain {n : UInt8} {t : Text} (h : OctetText n t) : '.' ∉ t ∧ ':' ∉ t := by
  constructor
  · intro hc
    exact absurd (h.decimal _ hc) (by decide)
  · intro hc
    exact absurd (h.decimal _ hc) (by decide)

theorem plain_of_forall₂ (h : List.Forall₂ GroupText gs ts) : ∀ t ∈ ts, t ≠ [] ∧ ':' ∉ t ∧ '.' ∉ t := by
  induction h with
  | nil => exact fun t ht => absurd ht List.not_mem_nil
  | cons hg _ ih => exact List.forall_mem_cons.2 ⟨hg.plain, ih⟩

theorem mapM_readGroup (h : List.Forall₂ GroupText gs ts) : ts.mapM readGroup = some gs := by
  induction h with
  | nil => rfl
  | cons hg _ ih => rw [List.mapM_cons, hg.read, ih]; rfl

theorem readTail_groups (h : List.Forall₂ GroupText gs ts) : readTail ts = some gs := by
  induction h with
  | nil => rfl
  | cons hg hrest ih =>
      cases hrest with
      | nil =>
          rw [readTail, if_neg hg.plain.2.2, hg.read]
          rfl
      | cons hnext hrest =>
          rw [readTail, hg.read, ih]
          · rfl
          · exact List.cons_ne_nil _ _

theorem intercalate_ne_nil {sep : Text} (hts : ts ≠ []) (h : ∀ t ∈ ts, t ≠ []) : sep.intercalate ts ≠ [] := by
  obtain ⟨t, ts, rfl⟩ := List.exists_cons_of_ne_nil hts
  have ht := h t List.mem_cons_self
  cases ts with
  | nil => rwa [List.intercalate_singleton]
  | cons u ts =>
      rw [List.intercalate_cons_cons]
      simp [ht]

/-- The parts are what stands between the colons. -/
theorem colonParts_intercalate (h : ∀ t ∈ ts, t ≠ [] ∧ ':' ∉ t) : colonParts ([':'].intercalate ts) = ts := by
  by_cases hts : ts = []
  · rw [hts]
    rfl
  · rw [colonParts, if_neg (intercalate_ne_nil hts fun t ht => (h t ht).1),
      List.splitOn_intercalate ':' (fun t ht => (h t ht).2) hts]

theorem infix_append_iff {t more : Text} (h : ':' ∉ t) : [':', ':'] <:+: t ++ more ↔ [':', ':'] <:+: more := by
  induction t with
  | nil => rfl
  | cons c t ih =>
      rw [List.mem_cons, not_or] at h
      rw [List.cons_append, List.infix_cons_iff, ih h.2]
      apply or_iff_right
      intro hprefix
      exact h.1 (List.cons_prefix_cons.1 hprefix).1

/-- No two colons meet in front of another part. -/
theorem not_infix_intercalate (h : ∀ t ∈ ts, t ≠ [] ∧ ':' ∉ t) : ¬[':', ':'] <:+: [':'].intercalate ts ++ [':'] := by
  have hcolon : ¬[':', ':'] <:+: [':'] := fun hmeet => absurd hmeet.length_le (by decide)
  induction ts with
  | nil => exact hcolon
  | cons t ts ih =>
      obtain ⟨ht, hts⟩ := List.forall_mem_cons.1 h
      cases ts with
      | nil => rwa [List.intercalate_singleton, infix_append_iff ht.2]
      | cons u ts =>
          obtain ⟨hu, -⟩ := List.forall_mem_cons.1 hts
          rw [List.intercalate_cons_cons, List.append_assoc, List.append_assoc, infix_append_iff ht.2,
            List.singleton_append, List.infix_cons_iff, not_or]
          refine ⟨?_, ih hts⟩
          intro hprefix
          -- the next part begins with something else
          obtain ⟨c, u, rfl⟩ := List.exists_cons_of_ne_nil hu.1
          have hhead := (List.cons_prefix_cons.1 hprefix).2
          cases ts with
          | nil =>
              rw [List.intercalate_singleton] at hhead
              exact hu.2 ((List.cons_prefix_cons.1 hhead).1 ▸ List.mem_cons_self)
          | cons v ts =>
              rw [List.intercalate_cons_cons] at hhead
              exact hu.2 ((List.cons_prefix_cons.1 hhead).1 ▸ List.mem_cons_self)

end Parts

/-! ## Forms -/

section Forms

variable {b : List UInt8}

theorem length_groupsOf (b : List UInt8) : (groupsOf b).length = b.length / 2 := by
  induction b using groupsOf.induct with
  | case1 hi lo rest ih =>
      rw [groupsOf, List.length_cons, ih, List.length_cons, List.length_cons]
      omega
  | case2 b hb =>
      cases b with
      | nil => rfl
      | cons hi b =>
          cases b with
          | nil => simp [groupsOf]
          | cons lo rest => exact absurd rfl (hb hi lo rest)

/-- The bytes of the groups are those of the address. -/
theorem flatMap_groupBytes {n : Nat} (h : b.length = 2 * n) : (groupsOf b).flatMap groupBytes = b := by
  induction n generalizing b with
  | zero => rw [List.eq_nil_of_length_eq_zero h]; rfl
  | succ n ih =>
      match b, h with
      | hi :: lo :: rest, h =>
          have hlo := lo.toNat_lt
          have hhi : (256 * hi.toNat + lo.toNat) / 256 = hi.toNat := by omega
          have hmod : (256 * hi.toNat + lo.toNat) % 256 = lo.toNat := by omega
          rw [List.length_cons, List.length_cons] at h
          rw [groupsOf, List.flatMap_cons, ih (by omega), groupBytes, hhi, hmod, UInt8.ofNat_toNat, UInt8.ofNat_toNat]
          rfl

/-- Groups that are zero can be left out and put in again. -/
theorem take_zeros_drop {groups : List Nat} {start len : Nat} (h : ZeroRun groups start len)
    (hlen : start + len ≤ groups.length) :
    groups.take start ++ List.replicate len 0 ++ groups.drop (start + len) = groups := by
  have hzeros : (groups.drop start).take len = List.replicate len 0 := by
    refine List.eq_replicate_iff.2 ⟨?_, ?_⟩
    · rw [List.length_take, List.length_drop]
      omega
    · intro g hg
      obtain ⟨i, hi, rfl⟩ := List.mem_iff_getElem.1 hg
      rw [List.length_take] at hi
      have hzero := h i (by omega)
      rw [List.getElem_take, List.getElem_drop]
      exact (List.getElem?_eq_some_iff.1 hzero).2
  rw [← hzeros, List.append_assoc, ← List.drop_drop, List.take_append_drop, List.take_append_drop]

/-- A run of zeros ends with the groups. -/
theorem ZeroRun.le_length {groups : List Nat} {start len : Nat} (h : ZeroRun groups start len) (hlen : 1 ≤ len) :
    start + len ≤ groups.length := by
  obtain ⟨hlast, -⟩ := List.getElem?_eq_some_iff.1 (h (len - 1) (by omega))
  omega

theorem readGroups_full {texts : List Text} (hlen : (groupsOf b).length = 8)
    (h : List.Forall₂ GroupText (groupsOf b) texts) :
    readGroups ([':'].intercalate texts) = some (groupsOf b) := by
  have hplain := plain_of_forall₂ h
  have hnone : position [':', ':'] ([':'].intercalate texts) = none := by
    rw [position_eq_none (List.cons_ne_nil _ _)]
    intro hmeet
    exact not_infix_intercalate (fun t ht => ⟨(hplain t ht).1, (hplain t ht).2.1⟩)
      (hmeet.trans (List.prefix_append _ _).isInfix)
  rw [readGroups, hnone]
  dsimp only
  rw [colonParts_intercalate fun t ht => ⟨(hplain t ht).1, (hplain t ht).2.1⟩, readTail_groups h,
    Option.filter_some, if_pos (decide_eq_true hlen)]

theorem readGroups_gap {start len : Nat} (hlen : (groupsOf b).length = 8) (hrun : ChosenRun (groupsOf b) start len)
    {front back : List Text} (hfront : List.Forall₂ GroupText ((groupsOf b).take start) front)
    (hback : List.Forall₂ GroupText ((groupsOf b).drop (start + len)) back) :
    readGroups ([':'].intercalate front ++ (':' :: ':' :: [':'].intercalate back)) = some (groupsOf b) := by
  have hplain := plain_of_forall₂ hfront
  have hplain' := plain_of_forall₂ hback
  have htwo := hrun.two
  have hend := hrun.zero.le_length (by omega)
  have hpos : position [':', ':'] ([':'].intercalate front ++ (':' :: ':' :: [':'].intercalate back)) =
      some ([':'].intercalate front).length := by
    apply position_append (List.cons_ne_nil ':' [':'])
    rw [List.dropLast_append_of_ne_nil (List.cons_ne_nil _ _)]
    exact not_infix_intercalate fun t ht => ⟨(hplain t ht).1, (hplain t ht).2.1⟩
  have hcount : ((groupsOf b).take start).length + ((groupsOf b).drop (start + len)).length = 8 - len := by
    rw [List.length_take, List.length_drop]
    omega
  have hgap : 8 - (8 - len) = len := by omega
  rw [readGroups, hpos]
  dsimp only
  rw [List.take_left, List.drop_append, List.drop_eq_nil_of_le (by omega), Nat.add_sub_cancel_left, List.nil_append,
    colonParts_intercalate fun t ht => ⟨(hplain t ht).1, (hplain t ht).2.1⟩, mapM_readGroup hfront,
    Option.bind_eq_bind, Option.bind_some]
  change (readTail (colonParts ([':'].intercalate back)) >>= _) = _
  rw [colonParts_intercalate fun t ht => ⟨(hplain' t ht).1, (hplain' t ht).2.1⟩, readTail_groups hback,
    Option.bind_eq_bind, Option.bind_some, hcount, if_pos (by omega), hgap, take_zeros_drop hrun.zero hend]

/-- The text of a dotted quad tells its bytes. -/
theorem readQuad_intercalate {w x y z : UInt8} {octets : List Text}
    (h : List.Forall₂ OctetText [w, x, y, z] octets) :
    readQuad (['.'].intercalate octets) = some [256 * w.toNat + x.toNat, 256 * y.toNat + z.toNat] ∧
      '.' ∈ ['.'].intercalate octets ∧ ':' ∉ ['.'].intercalate octets := by
  match octets, h with
  | [a, b, c, d], .cons ha (.cons hb (.cons hc (.cons hd .nil))) =>
      refine ⟨?_, ?_, ?_⟩
      · have hdots : ∀ t ∈ [a, b, c, d], '.' ∉ t := by
          simp only [List.forall_mem_cons]
          exact ⟨ha.plain.1, hb.plain.1, hc.plain.1, hd.plain.1, nofun⟩
        rw [readQuad, List.splitOn_intercalate '.' hdots (List.cons_ne_nil _ _)]
        simp only [List.mapM_cons, List.mapM_nil, ha.read, hb.read, hc.read, hd.read, Option.bind_eq_bind,
          Option.pure_def, Option.bind_some]
      · simp [List.intercalate_cons_cons]
      · simp [List.intercalate_cons_cons, ha.plain.2, hb.plain.2, hc.plain.2, hd.plain.2]

/-- The last four bytes of an address. -/
theorem exists_drop_twelve (hlen : b.length = 16) : ∃ w x y z, b.drop 12 = [w, x, y, z] := by
  have hfour : (b.drop 12).length = 4 := by rw [List.length_drop, hlen]
  match b.drop 12, hfour with
  | [w, x, y, z], _ => exact ⟨w, x, y, z, rfl⟩

theorem readGroups_quad (hlen : b.length = 16) (hmapped : Mapped b) {octets : List Text}
    (h : List.Forall₂ OctetText (b.drop 12) octets) :
    readGroups ("::ffff:".toList ++ ['.'].intercalate octets) = some (groupsOf b) := by
  obtain ⟨w, x, y, z, hdrop⟩ := exists_drop_twelve hlen
  have hb : b = List.replicate 10 0 ++ [0xFF, 0xFF] ++ [w, x, y, z] := by
    rw [← hdrop, ← hmapped, List.take_append_drop]
  rw [hdrop] at h
  obtain ⟨hquad, hdot, hcolon⟩ := readQuad_intercalate h
  have hjoin : "ffff:".toList ++ ['.'].intercalate octets =
      [':'].intercalate ["ffff".toList, ['.'].intercalate octets] := by
    rw [List.intercalate_cons_cons, List.intercalate_singleton]
    rfl
  have hplain : ∀ t ∈ ["ffff".toList, ['.'].intercalate octets], t ≠ [] ∧ ':' ∉ t := by
    simp only [List.forall_mem_cons]
    exact ⟨⟨by decide, by decide⟩, ⟨List.ne_nil_of_mem hdot, hcolon⟩, nofun⟩
  have hpos : position [':', ':'] ("::ffff:".toList ++ ['.'].intercalate octets) = some 0 :=
    if_pos ⟨"ffff:".toList ++ ['.'].intercalate octets, rfl⟩
  rw [readGroups, hpos]
  dsimp only
  change ((colonParts []).mapM readGroup >>= fun front =>
    readTail (colonParts ("ffff:".toList ++ ['.'].intercalate octets)) >>= _) = _
  rw [hjoin, colonParts_intercalate hplain, readTail, readTail, if_pos hdot, hquad, hb]
  · rfl
  · exact List.cons_ne_nil _ _

/-- A text of the recommended form is read as the address it is of. -/
theorem read_of_recommended (hlen : b.length = 16) {t : Text} (h : Recommended b t) : read t = some b := by
  have hgroups : (groupsOf b).length = 8 := by rw [length_groupsOf, hlen]
  have hread : readGroups t = some (groupsOf b) := by
    cases h with
    | quad hmapped htexts => exact readGroups_quad hlen hmapped htexts
    | gap _ hrun hfront hback => exact readGroups_gap hgroups hrun hfront hback
    | full _ _ htexts => exact readGroups_full hgroups htexts
  rw [read, hread, Option.map_some, flatMap_groupBytes (n := 8) hlen]

/-- A dotted quad alone is no text of eight groups. -/
theorem read_quad {t : Text} {g g' : Nat} (h : readQuad t = some [g, g']) (hdot : '.' ∈ t) (hcolon : ':' ∉ t) :
    read t = none := by
  have hne : t ≠ [] := List.ne_nil_of_mem hdot
  have hnone : position [':', ':'] t = none := by
    rw [position_eq_none (List.cons_ne_nil _ _)]
    exact fun hmeet => hcolon (hmeet.subset List.mem_cons_self)
  have hparts : colonParts t = [t] := by
    have hplain : ∀ u ∈ [t], u ≠ [] ∧ ':' ∉ u := List.forall_mem_singleton.2 ⟨hne, hcolon⟩
    have hjoin := colonParts_intercalate hplain
    rwa [List.intercalate_singleton] at hjoin
  rw [read, readGroups, hnone]
  dsimp only
  rw [hparts, readTail, if_pos hdot, h]
  rfl

/-- Only the texts of mapped addresses have a dotted quad. -/
theorem dot_mem_iff (hlen : b.length = 16) {t : Text} (h : Recommended b t) : '.' ∈ t ↔ Mapped b := by
  have hno : ∀ {gs : List Nat} {ts : List Text}, List.Forall₂ GroupText gs ts → '.' ∉ [':'].intercalate ts := by
    intro gs ts hts
    have hplain := plain_of_forall₂ hts
    clear hts
    induction ts with
    | nil => exact List.not_mem_nil
    | cons t ts ih =>
        obtain ⟨ht, hrest⟩ := List.forall_mem_cons.1 hplain
        cases ts with
        | nil => rw [List.intercalate_singleton]; exact ht.2.2
        | cons u ts => simp [List.intercalate_cons_cons, ht.2.2, ih hrest]
  cases h with
  | quad hmapped htexts =>
      refine iff_of_true ?_ hmapped
      obtain ⟨w, x, y, z, hdrop⟩ := exists_drop_twelve hlen
      rw [hdrop] at htexts
      exact List.mem_append_right _ (readQuad_intercalate htexts).2.1
  | gap hmapped hrun hfront hback =>
      refine iff_of_false ?_ hmapped
      simp [hno hfront, hno hback]
  | full hmapped hnone htexts => exact iff_of_false (hno htexts) hmapped

end Forms

/-! ## One text for an address -/

section Unique

variable {value : Char → Option Nat} {b : Nat}

/-- Digits without a zero in front are those of their number. -/
theorem eq_toDigits (hb : 1 < b) (hvalue : ∀ d, d < b → value d.digitChar = some d) {t : Text}
    (ht : ∀ c ∈ t, c ∈ (List.range b).map Nat.digitChar) (hne : t ≠ []) (hshort : t.head? = some '0' → t = ['0'])
    {n : Nat} (hn : digitsValue value b t = some n) : t = Nat.toDigits b n := by
  induction t using List.reverseRecOn generalizing n with
  | nil => exact absurd rfl hne
  | append_singleton u c ih =>
      obtain ⟨d, hd, rfl⟩ := List.mem_map.1 (ht c (List.mem_append_right _ List.mem_cons_self))
      have hd := List.mem_range.1 hd
      rw [digitsValue_append, Option.bind_eq_some_iff] at hn
      obtain ⟨m, hm, hsum⟩ := hn
      rw [hvalue d hd, Option.map_some] at hsum
      obtain rfl := Option.some.inj hsum
      by_cases hu : u = []
      · rw [hu] at hm ⊢
        obtain rfl := Option.some.inj (hm : some 0 = some m)
        rw [Nat.mul_zero, Nat.zero_add, Nat.toDigits_of_lt_base hd]
        rfl
      · have hfront : u.head? ≠ some '0' := by
          intro hzero
          have hall := hshort (by rw [List.head?_append_of_ne_nil _ hu, hzero])
          have hlen := congrArg List.length hall
          rw [List.length_append, List.length_singleton, List.length_singleton] at hlen
          exact hu (List.eq_nil_of_length_eq_zero (by omega))
        have hdigits := ih (fun c hc => ht c (List.mem_append_left _ hc)) hu (fun hzero => absurd hzero hfront) hm
        have hpos : 0 < m := by
          refine Nat.pos_of_ne_zero fun hzero => hfront ?_
          rw [hdigits, hzero, Nat.toDigits_zero]
          rfl
        rw [← Nat.toDigits_append_toDigits hb hpos hd, Nat.toDigits_of_lt_base hd, ← hdigits]

theorem GroupText.eq_toDigits {g : Nat} {t : Text} (h : GroupText g t) : t = Nat.toDigits 16 g := by
  have hvalues : ∀ d, d < 16 → hexValue d.digitChar = some d := by decide
  have hdigits : "0123456789abcdef".toList = (List.range 16).map Nat.digitChar := by decide
  have hread := h.read
  rw [readGroup] at hread
  split at hread
  · exact Ipv6Text.eq_toDigits (by decide) hvalues (hdigits ▸ h.lower) h.plain.1 h.short hread
  · cases hread

theorem OctetText.eq_toDigits {n : UInt8} {t : Text} (h : OctetText n t) : t = Nat.toDigits 10 n.toNat := by
  have hvalues : ∀ d, d < 10 → decimalValue d.digitChar = some d := by decide
  have hdigits : "0123456789".toList = (List.range 10).map Nat.digitChar := by decide
  have hread := h.read
  rw [readOctet] at hread
  split at hread
  · cases hread
  · rename_i hplain
    rw [not_or, not_and_not_right] at hplain
    obtain ⟨hvalue, -⟩ := Option.filter_eq_some_iff.1 hread
    exact Ipv6Text.eq_toDigits (by decide) hvalues (hdigits ▸ h.decimal) hplain.1 hplain.2 hvalue

theorem rightUnique_groupText : Relator.RightUnique GroupText :=
  fun _ _ _ h h' => h.eq_toDigits.trans h'.eq_toDigits.symm

theorem rightUnique_octetText : Relator.RightUnique OctetText :=
  fun _ _ _ h h' => h.eq_toDigits.trans h'.eq_toDigits.symm

theorem ChosenRun.unique {groups : List Nat} {start len start' len' : Nat} (h : ChosenRun groups start len)
    (h' : ChosenRun groups start' len') : start = start' ∧ len = len' := by
  have hlen : len = len' := Nat.le_antisymm (h'.longest _ _ h.zero) (h.longest _ _ h'.zero)
  subst hlen
  exact ⟨Nat.le_antisymm (h.leftmost _ h'.zero) (h'.leftmost _ h.zero), rfl⟩

/-- An address has one recommended text. -/
theorem Recommended.unique {b : List UInt8} {t t' : Text} (h : Recommended b t) (h' : Recommended b t') : t = t' := by
  cases h with
  | quad hmapped htexts =>
      cases h' with
      | quad _ htexts' => rw [rightUnique_octetText.forall₂ htexts htexts']
      | gap hno => exact absurd hmapped hno
      | full hno => exact absurd hmapped hno
  | gap hno hrun hfront hback =>
      cases h' with
      | quad hmapped => exact absurd hmapped hno
      | gap _ hrun' hfront' hback' =>
          obtain ⟨rfl, rfl⟩ := hrun.unique hrun'
          rw [rightUnique_groupText.forall₂ hfront hfront',
            rightUnique_groupText.forall₂ hback hback']
      | full _ hnone => exact absurd (hnone _ _ hrun.zero) (Nat.not_lt.2 hrun.two)
  | full hno hnone htexts =>
      cases h' with
      | quad hmapped => exact absurd hmapped hno
      | gap _ hrun => exact absurd (hnone _ _ hrun.zero) (Nat.not_lt.2 hrun.two)
      | full _ _ htexts' => rw [rightUnique_groupText.forall₂ htexts htexts']

end Unique

end Pktflow.Lib.Ipv6Text
