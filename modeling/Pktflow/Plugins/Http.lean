import Mathlib.Data.List.Infix
import Pktflow.Lib.Lines
import Pktflow.Lib.Utf8Decode
import Pktflow.Plugins.FiveTuple

/-!
# HTTP/1.x

Model of `http.rs`. A head is a start line and field lines up to a blank line, and the body behind it is not read.
The white space around a value is blanks and tabs, of which `trim_spaces` takes off the blanks: a head is read as it
is written if no tab stands around the values that are reported (`readsHttp_iff`).
-/

set_option autoImplicit false

namespace Pktflow.Plugins

open Pktflow.Core Pktflow.Flows Pktflow.Lib

/-! ## The plugin -/

/-- The octets of a literal. -/
def octets (s : String) : List UInt8 := Text.encode s.toList

/-- `H2C_PREFACE`. -/
def h2cPreface : List UInt8 := octets "PRI * HTTP/2.0\r\n\r\nSM\r\n\r\n"

/-- `METHODS`. -/
def methods : List Text :=
  ["GET".toList, "POST".toList, "PUT".toList, "DELETE".toList, "HEAD".toList, "OPTIONS".toList, "PATCH".toList,
    "CONNECT".toList, "TRACE".toList]

/-- `find_header_end`. -/
def findHeaderEnd (bytes : List UInt8) : Option Nat := position [13, 10, 13, 10] bytes

/-- `trim_spaces`. -/
def trimSpaces (bytes : List UInt8) : List UInt8 := trim 32 bytes

/-- An ASCII octet in lower case. -/
def toAsciiLower (b : UInt8) : UInt8 := if 65 ≤ b ∧ b ≤ 90 then b + 32 else b

/-- `eq_ignore_ascii_case`. -/
def eqIgnoreAsciiCase (a b : List UInt8) : Bool := a.map toAsciiLower = b.map toAsciiLower

/-- The value of a line of that name. -/
def lineValue (name line : List UInt8) : Option (List UInt8) := do
  let colon ← line.findIdx? (· = 58)
  if eqIgnoreAsciiCase (line.take colon) name then some (trimSpaces (line.drop (colon + 1))) else none

/-- `header_value`. -/
def headerValue (lines : List (List UInt8)) (name : String) : Option (List UInt8) :=
  (lines.drop 1).findSome? (lineValue (octets name))

/-- `to_str`. -/
def toStr (bytes : List UInt8) : Value := .str (String.ofList (Text.lossy bytes))

/-- `is_ascii_digit`. -/
def isAsciiDigit (b : UInt8) : Bool := 48 ≤ b ∧ b ≤ 57

/-- `acc.saturating_mul(10).saturating_add(u64::from(b - b'0'))`. -/
def saturatingDigit (acc : UInt64) (b : UInt8) : UInt64 :=
  UInt64.ofNat (min (min (acc.toNat * 10) (2 ^ 64 - 1) + (b - 48).toNat) (2 ^ 64 - 1))

/-- `parse_u64`. -/
def parseU64 (bytes : List UInt8) : Option UInt64 :=
  if bytes.isEmpty ∨ ¬bytes.all isAsciiDigit then none else some (bytes.foldl saturatingDigit 0)

/-- `is_http1_version`. -/
def isHttp1Version (tok : List UInt8) : Bool := tok = octets "HTTP/1.0" ∨ tok = octets "HTTP/1.1"

/-- `StartLine`. -/
structure StartLine where
  isRequest : Bool
  method : Option Text
  statusCode : Option UInt16
  version : Text

/-- `parse_start_line`. -/
def parseStartLine (line : List UInt8) : Except ParseError StartLine :=
  match splitn 32 3 line with
  | [] => throw (.malformed "empty start line")
  | first :: parts =>
      if octets "HTTP/" <+: first then
        if isHttp1Version first then
          match parts with
          | [] => throw (.malformed "status line missing status code")
          | code :: _ =>
              if code.length ≠ 3 ∨ ¬code.all isAsciiDigit then throw (.malformed "status code must be 3 digits")
              else
                return ⟨false, none, some (code.foldl (fun acc b => acc * 10 + (b - 48).toUInt16) 0), Text.lossy first⟩
        else throw (.malformed "unsupported HTTP version")
      else
        match methods.find? (fun m => Text.encode m = first) with
        | none => throw (.malformed "unrecognized request method")
        | some method =>
            match parts with
            | [] => throw (.malformed "request line missing request-target")
            | [_] => throw (.malformed "request line missing HTTP version")
            | _ :: version :: _ =>
                if isHttp1Version version then return ⟨true, some method, none, Text.lossy version⟩
                else throw (.malformed "unsupported HTTP version")

/-- The fields of a level for which there is a value. -/
def present (level : List (FieldName × Option Value)) : List (FieldName × Value) :=
  level.filterMap fun e => e.2.map fun v => (e.1, v)

/-- The structural fields. -/
def structuralLevel (start : StartLine) (lines : List (List UInt8)) : List (FieldName × Option Value) :=
  [("is_request", some (.bool start.isRequest)), ("version", some (.str (String.ofList start.version))),
    ("method", start.method.map fun m => .str (String.ofList m)),
    ("status_code", start.statusCode.map fun code => .u64 code.toUInt64),
    ("host", (headerValue lines "Host").map toStr)]

/-- The fields of full detail. -/
def fullLevel (start : StartLine) (lines : List (List UInt8)) : List (FieldName × Option Value) :=
  [("content_type", (headerValue lines "Content-Type").map toStr),
    ("content_length", ((headerValue lines "Content-Length").bind parseU64).map .u64),
    ("user_agent", if start.isRequest then (headerValue lines "User-Agent").map toStr else none),
    ("upgrade", (headerValue lines "Upgrade").map toStr)]

/-- The fields of a head. -/
def httpFields (ctx : ParseCtx) (start : StartLine) (lines : List (List UInt8)) : FieldMap :=
  insertAt ctx .full (present (fullLevel start lines))
    (insertAt ctx .structural (present (structuralLevel start lines))
      (insertAt ctx .keys [("app", .str "http")] FieldMap.new))

/-- `Http::parse`. -/
def parseHttp (bytes : List UInt8) (ctx : ParseCtx) : Except ParseError ParsedLayer :=
  if h2cPreface <+: bytes then
    return ⟨h2cPreface.length,
      insertAt ctx .structural [("is_request", .bool true), ("version", .str "HTTP/2.0")]
        (insertAt ctx .keys [("app", .str "http")] FieldMap.new),
      .byProtocol "http2"⟩
  else
    match findHeaderEnd bytes with
    | none => throw (.truncated (bytes.length + 1) bytes.length)
    | some blankPos => do
        let lines := splitLines 13 10 (bytes.take blankPos)
        match lines with
        | [] => throw (.malformed "empty header block")
        | first :: _ =>
            let start ← parseStartLine first
            return ⟨blankPos + 4, httpFields ctx start lines, .terminal⟩

/-- `Http`. -/
def http : LayerPlugin where
  name := "http"
  parse := parseHttp
  claims := [.tcpPort 80]
  streamIdentity := some
    { key := [⟨"app", none⟩], canonicalize := .endpointSort, lifecycle := none,
      rollups := [⟨"method", .accumulate⟩, ⟨"status_code", .accumulate⟩, ⟨"host", .sample⟩] }

/-! ## Heads -/

/-- A version that the plugin reads. -/
def IsVersion (version : List UInt8) : Prop := version = octets "HTTP/1.0" ∨ version = octets "HTTP/1.1"

/-- What may stand in a line. -/
def IsLine (l : List UInt8) : Prop := NoBreak 13 10 l

/-- White space around a value. -/
def IsBlank (b : UInt8) : Prop := b = 32 ∨ b = 9

instance (b : UInt8) : Decidable (IsBlank b) := inferInstanceAs (Decidable (b = 32 ∨ b = 9))

/-- The first line of a head: a request, or a status, whose reason may be missing. -/
inductive HeadStart where
  | request (method : Text) (target version : List UInt8) (known : method ∈ methods) (plain : 32 ∉ target)
      (line : IsLine target) (supported : IsVersion version)
  | status (version code : List UInt8) (reason : Option (List UInt8)) (supported : IsVersion version)
      (three : code.length = 3) (digits : ∀ b ∈ code, 48 ≤ b ∧ b ≤ 57) (line : ∀ l ∈ reason, IsLine l)

/-- The line as it is sent. -/
def HeadStart.bytes : HeadStart → List UInt8
  | request method target version _ _ _ _ => Text.encode method ++ 32 :: (target ++ 32 :: version)
  | status version code none _ _ _ _ => version ++ 32 :: code
  | status version code (some reason) _ _ _ _ => version ++ 32 :: (code ++ 32 :: reason)

def HeadStart.IsRequest : HeadStart → Prop
  | request .. => True
  | status .. => False

/-- A field: a name, and a value with white space before and after it. -/
structure HeadField where
  name : List UInt8
  before : List UInt8
  value : List UInt8
  after : List UInt8
  name_plain : 58 ∉ name
  name_line : IsLine name
  value_line : IsLine value
  before_blank : ∀ b ∈ before, IsBlank b
  after_blank : ∀ b ∈ after, IsBlank b
  value_head : ∀ b ∈ value.head?, ¬IsBlank b
  value_last : ∀ b ∈ value.getLast?, ¬IsBlank b

/-- The line as it is sent. -/
def HeadField.bytes (f : HeadField) : List UInt8 := f.name ++ 58 :: (f.before ++ (f.value ++ f.after))

/-- A head: its first line and its fields. -/
structure HttpHead where
  start : HeadStart
  fields : List HeadField

namespace HttpHead

/-- The lines of the head. -/
def lines (m : HttpHead) : List (List UInt8) := m.start.bytes :: m.fields.map HeadField.bytes

/-- The head as it is sent, with its blank line. -/
def bytes (m : HttpHead) : List UInt8 := m.lines.flatMap (· ++ [13, 10]) ++ [13, 10]

/-- The first field of a name. -/
def find? (m : HttpHead) (name : String) : Option HeadField :=
  m.fields.find? fun f => eqIgnoreAsciiCase f.name (octets name)

end HttpHead

/-- The number that digits tell. -/
def decimal (digits : List UInt8) : Nat := digits.foldl (fun n b => 10 * n + (b.toNat - 48)) 0

/-- A number is told by digits, at least one. -/
def IsDecimal (value : List UInt8) : Prop := value ≠ [] ∧ ∀ b ∈ value, 48 ≤ b ∧ b ≤ 57

/-- What is reported of a length: its number, or the greatest there is. -/
inductive TellsLength : Option HeadField → Option Value → Prop where
  | number {f : HeadField} (h : IsDecimal f.value) :
      TellsLength (some f) (some (.u64 (UInt64.ofNat (min (decimal f.value) (2 ^ 64 - 1)))))
  | malformed {f : HeadField} (h : ¬IsDecimal f.value) : TellsLength (some f) none
  | absent : TellsLength none none

/-- What is reported of a text: the value of the field, without the white space around it. -/
def tellsText (f : Option HeadField) : Option Value := f.map fun f => toStr f.value

/-- The fields of a layer report those of a head. -/
structure ReportsHead (m : HttpHead) (fields : FieldMap) : Prop where
  host : fields.get "host" = tellsText (m.find? "Host")
  content_type : fields.get "content_type" = tellsText (m.find? "Content-Type")
  content_length : TellsLength (m.find? "Content-Length") (fields.get "content_length")
  user_agent : m.start.IsRequest → fields.get "user_agent" = tellsText (m.find? "User-Agent")
  no_user_agent : ¬m.start.IsRequest → fields.get "user_agent" = none
  upgrade : fields.get "upgrade" = tellsText (m.find? "Upgrade")

/-- The plugin reads a head: to its blank line whatever the body is, no shorter, and at full detail with its fields. -/
structure ReadsHttp (m : HttpHead) : Prop where
  reads : ∀ ctx, ∃ layer, (∀ body, http.parse (m.bytes ++ body) ctx = .ok layer) ∧ layer.headerLen = m.bytes.length ∧
    (atDepth ctx .full = true → ReportsHead m layer.fields)
  needs : ∀ n, n < m.bytes.length → ∀ ctx, ∃ e, http.parse (m.bytes.take n) ctx = .error e

/-- No tab stands around the value. -/
def HeadField.Untabbed (f : HeadField) : Prop := 9 ∉ f.before ∧ 9 ∉ f.after

/-- No tab stands around a value that is reported: of a length, if it is a number, and of a user agent, if the head is
of a request. -/
structure HttpHead.Untabbed (m : HttpHead) : Prop where
  host : ∀ f ∈ m.find? "Host", f.Untabbed
  content_type : ∀ f ∈ m.find? "Content-Type", f.Untabbed
  content_length : ∀ f ∈ m.find? "Content-Length", IsDecimal f.value → f.Untabbed
  user_agent : m.start.IsRequest → ∀ f ∈ m.find? "User-Agent", f.Untabbed
  upgrade : ∀ f ∈ m.find? "Upgrade", f.Untabbed

section Heads

/-! ## White space -/

/-- The value that is read of a field. -/
def HeadField.trimmed (f : HeadField) : List UInt8 := trimSpaces (f.before ++ (f.value ++ f.after))

theorem HeadField.trimmed_of_untabbed {f : HeadField} (h : f.Untabbed) : f.trimmed = f.value := by
  have hspaces : ∀ l : List UInt8, (∀ b ∈ l, IsBlank b) → 9 ∉ l → ∀ b ∈ l, b = 32 := by
    intro l hblank htab b hb
    rcases hblank b hb with rfl | rfl
    · rfl
    · exact absurd hb htab
  exact trim_append (hspaces f.before f.before_blank h.1) (hspaces f.after f.after_blank h.2)
    (fun b hb heq => f.value_head b hb (.inl heq)) (fun b hb heq => f.value_last b hb (.inl heq))

theorem HeadField.count_trimmed (f : HeadField) :
    f.trimmed.count 9 = f.before.count 9 + (f.value.count 9 + f.after.count 9) := by
  rw [trimmed, trimSpaces, count_trim (by decide), List.count_append, List.count_append]

/-- The tabs around a value are read with it. -/
theorem HeadField.untabbed_of_count {f : HeadField} (h : f.trimmed.count 9 = f.value.count 9) : f.Untabbed := by
  rw [f.count_trimmed] at h
  exact ⟨List.count_eq_zero.1 (by omega), List.count_eq_zero.1 (by omega)⟩

theorem count_lossy_tab (bytes : List UInt8) : (Text.lossy bytes).count '\t' = bytes.count 9 :=
  Text.count_lossy (c := '\t') (by decide) bytes

theorem toStr_trimmed_iff (f : HeadField) : toStr f.trimmed = toStr f.value ↔ f.Untabbed := by
  constructor
  · intro h
    have htext : Text.lossy f.trimmed = Text.lossy f.value := String.ofList_injective (Value.str.inj h)
    apply HeadField.untabbed_of_count
    rw [← count_lossy_tab, htext, count_lossy_tab]
  · intro h
    rw [HeadField.trimmed_of_untabbed h]

/-- A text is reported as it is written if and only if no tab stands around it. -/
theorem map_trimmed_iff (o : Option HeadField) :
    (o.map HeadField.trimmed).map toStr = tellsText o ↔ ∀ f ∈ o, f.Untabbed := by
  cases o with
  | none => exact ⟨nofun, fun _ => rfl⟩
  | some f =>
      rw [tellsText, Option.map_some, Option.map_some, Option.map_some, Option.some_inj, toStr_trimmed_iff]
      exact ⟨fun h g hg => Option.some.inj hg ▸ h, fun h => h f rfl⟩

/-! ## Lengths -/

theorem not_or_iff_isDecimal {bytes : List UInt8} :
    ¬(bytes.isEmpty ∨ ¬bytes.all isAsciiDigit) ↔ IsDecimal bytes := by
  rw [not_or, not_not, List.all_eq_true, List.isEmpty_iff]
  exact and_congr Iff.rfl (forall₂_congr fun b _ => by rw [isAsciiDigit, decide_eq_true_eq])

/-- The saturated number is the least of the number and the bound, digit by digit. -/
theorem toNat_foldl_saturatingDigit {digits : List UInt8} (hdigits : ∀ b ∈ digits, 48 ≤ b ∧ b ≤ 57) (acc : UInt64)
    {n : Nat} (hacc : acc.toNat = min n (2 ^ 64 - 1)) : (digits.foldl saturatingDigit acc).toNat =
      min (digits.foldl (fun n b => 10 * n + (b.toNat - 48)) n) (2 ^ 64 - 1) := by
  induction digits generalizing acc n with
  | nil => exact hacc
  | cons b digits ih =>
      obtain ⟨hb, hdigits⟩ := List.forall_mem_cons.1 hdigits
      have hdigit : (b - 48).toNat = b.toNat - 48 := UInt8.toNat_sub_of_le b 48 hb.1
      have hfits : min (min (acc.toNat * 10) (2 ^ 64 - 1) + (b - 48).toNat) (2 ^ 64 - 1) < UInt64.size :=
        Nat.lt_of_le_of_lt (Nat.min_le_right _ _) (by decide)
      apply ih hdigits _
      rw [saturatingDigit, UInt64.toNat_ofNat_of_lt' hfits, hacc, hdigit]
      dsimp only
      omega

theorem parseU64_of_decimal {bytes : List UInt8} (h : IsDecimal bytes) :
    parseU64 bytes = some (UInt64.ofNat (min (decimal bytes) (2 ^ 64 - 1))) := by
  rw [parseU64, if_neg (not_or_iff_isDecimal.2 h), decimal, ← toNat_foldl_saturatingDigit h.2 0 rfl,
    UInt64.ofNat_toNat]

theorem parseU64_of_not {bytes : List UInt8} (h : ¬IsDecimal bytes) : parseU64 bytes = none := by
  rw [parseU64, if_pos (not_not.1 fun hno => h (not_or_iff_isDecimal.1 hno))]

theorem tellsLength_iff {o : Option HeadField} {v : Option Value} :
    TellsLength o v ↔ v = ((o.map HeadField.value).bind parseU64).map .u64 := by
  constructor
  · intro h
    cases h with
    | number h => rw [Option.map_some, Option.bind_some, parseU64_of_decimal h, Option.map_some]
    | malformed h => rw [Option.map_some, Option.bind_some, parseU64_of_not h, Option.map_none]
    | absent => rfl
  · rintro rfl
    cases o with
    | none => exact .absent
    | some f =>
        rw [Option.map_some, Option.bind_some]
        by_cases h : IsDecimal f.value
        · rw [parseU64_of_decimal h]
          exact .number h
        · rw [parseU64_of_not h]
          exact .malformed h

/-- No digit is a tab. -/
theorem IsDecimal.count_tab {bytes : List UInt8} (h : IsDecimal bytes) : bytes.count 9 = 0 := by
  rw [List.count_eq_zero]
  intro htab
  exact absurd (h.2 9 htab).1 (by decide)

theorem parseU64_trimmed_iff (f : HeadField) :
    parseU64 f.trimmed = parseU64 f.value ↔ (IsDecimal f.value → f.Untabbed) := by
  constructor
  · intro h hvalue
    have htrimmed : IsDecimal f.trimmed := by
      by_contra hno
      rw [parseU64_of_not hno, parseU64_of_decimal hvalue] at h
      cases h
    apply HeadField.untabbed_of_count
    rw [htrimmed.count_tab, hvalue.count_tab]
  · intro h
    by_cases hvalue : IsDecimal f.value
    · rw [HeadField.trimmed_of_untabbed (h hvalue)]
    · rw [parseU64_of_not hvalue]
      apply parseU64_of_not
      intro htrimmed
      -- a number without tabs has none around it either
      have hcount := f.count_trimmed
      rw [htrimmed.count_tab] at hcount
      have huntabbed : f.Untabbed := HeadField.untabbed_of_count (by rw [htrimmed.count_tab]; omega)
      rw [HeadField.trimmed_of_untabbed huntabbed] at htrimmed
      exact hvalue htrimmed

/-- A length is reported as it is written if and only if no tab stands around a number. -/
theorem tellsLength_trimmed_iff (o : Option HeadField) :
    TellsLength o (((o.map HeadField.trimmed).bind parseU64).map .u64) ↔
      ∀ f ∈ o, IsDecimal f.value → f.Untabbed := by
  rw [tellsLength_iff]
  cases o with
  | none => exact ⟨nofun, fun _ => rfl⟩
  | some f =>
      rw [Option.map_some, Option.map_some, Option.bind_some, Option.bind_some,
        (Option.map_injective fun _ _ => Value.u64.inj).eq_iff, parseU64_trimmed_iff]
      exact ⟨fun h g hg => Option.some.inj hg ▸ h, fun h => h f rfl⟩

/-! ## Lines -/

theorem IsVersion.line {version : List UInt8} (h : IsVersion version) : IsLine version := by
  rcases h with rfl | rfl <;> exact noBreak_of_notMem (by decide)

theorem IsVersion.no_blank {version : List UInt8} (h : IsVersion version) : 32 ∉ version := by
  rcases h with rfl | rfl <;> decide

theorem noBreak_methods : ∀ method ∈ methods, 13 ∉ Text.encode method := by decide

theorem digits_notMem {code : List UInt8} (h : ∀ b ∈ code, 48 ≤ b ∧ b ≤ 57) {b : UInt8} (hb : b < 48) : b ∉ code :=
  fun hmem => absurd (h b hmem).1 (UInt8.not_le.2 hb)

theorem HeadStart.line (s : HeadStart) : IsLine s.bytes := by
  cases s with
  | request method target version known plain line supported =>
      have hmethod : IsLine (Text.encode method) := noBreak_of_notMem (noBreak_methods method known)
      exact hmethod.append (by decide) (by decide) (NoBreak.append line (by decide) (by decide) supported.line)
  | status version code reason supported three digits line =>
      have hcode : IsLine code := noBreak_of_notMem (digits_notMem digits (by decide))
      cases reason with
      | none => exact NoBreak.append supported.line (by decide) (by decide) hcode
      | some reason =>
          exact NoBreak.append supported.line (by decide) (by decide)
            (NoBreak.append hcode (by decide) (by decide) (line reason rfl))

theorem IsBlank.ne {b : UInt8} (h : IsBlank b) : b ≠ 13 ∧ b ≠ 10 := by
  rcases h with rfl | rfl <;> decide

theorem HeadField.line (f : HeadField) : IsLine f.bytes :=
  NoBreak.append f.name_line (by decide) (by decide)
    (NoBreak.append_left (fun b hb => (f.before_blank b hb).ne.1)
      (NoBreak.append_right (fun b hb => (f.after_blank b hb).ne) f.value_line))

theorem HeadField.bytes_ne_nil (f : HeadField) : f.bytes ≠ [] :=
  List.append_ne_nil_of_right_ne_nil _ (List.cons_ne_nil _ _)

theorem lineValue_bytes (f : HeadField) (name : List UInt8) :
    lineValue name f.bytes = if eqIgnoreAsciiCase f.name name then some f.trimmed else none := by
  rw [lineValue, HeadField.bytes, findIdx?_append_sep f.name_plain, Option.bind_eq_bind, Option.bind_some,
    List.take_left, List.drop_append, List.drop_eq_nil_of_le (Nat.le_succ _), List.nil_append,
    Nat.add_sub_cancel_left]
  rfl

/-- The first line of the name is found. -/
theorem headerValue_lines (m : HttpHead) (name : String) :
    headerValue m.lines name = (m.find? name).map HeadField.trimmed := by
  rw [headerValue, HttpHead.lines, HttpHead.find?, List.drop_succ_cons, List.drop_zero]
  induction m.fields with
  | nil => rfl
  | cons f fields ih =>
      rw [List.map_cons, List.findSome?_cons, lineValue_bytes, List.find?_cons]
      by_cases h : eqIgnoreAsciiCase f.name (octets name) = true
      · rw [if_pos h, h]
        rfl
      · rw [if_neg h, Bool.eq_false_iff.2 h]
        exact ih

/-! ## The first line -/

theorem isHttp1Version_iff {tok : List UInt8} : isHttp1Version tok = true ↔ IsVersion tok := by
  rw [isHttp1Version, decide_eq_true_eq, IsVersion]

theorem methods_plain : ∀ method ∈ methods, 32 ∉ Text.encode method ∧ ¬octets "HTTP/" <+: Text.encode method := by
  decide

/-- A request is read up to its version. -/
theorem parseStartLine_request {method : Text} {target version : List UInt8} (known : method ∈ methods)
    (plain : 32 ∉ target) (supported : IsVersion version) : ∃ found,
      parseStartLine (Text.encode method ++ 32 :: (target ++ 32 :: version)) =
        .ok ⟨true, some found, none, Text.lossy version⟩ := by
  obtain ⟨hblank, hstatus⟩ := methods_plain method known
  have hparts : splitn 32 3 (Text.encode method ++ 32 :: (target ++ 32 :: version)) =
      [Text.encode method, target, version] := by
    rw [splitn_append hblank, splitn_append plain]
    rfl
  obtain ⟨found, hfound⟩ : ∃ found, methods.find? (fun m => Text.encode m = Text.encode method) = some found :=
    Option.isSome_iff_exists.1 (List.find?_isSome.2 ⟨method, known, decide_eq_true rfl⟩)
  refine ⟨found, ?_⟩
  rw [parseStartLine, hparts]
  dsimp only
  rw [if_neg hstatus, hfound]
  dsimp only
  rw [if_pos (isHttp1Version_iff.2 supported)]
  rfl

/-- A status is read up to its code. -/
theorem parseStartLine_status {version code line : List UInt8} {more : List (List UInt8)}
    (supported : IsVersion version) (three : code.length = 3) (digits : ∀ b ∈ code, 48 ≤ b ∧ b ≤ 57)
    (hparts : splitn 32 3 line = version :: code :: more) : ∃ value,
      parseStartLine line = .ok ⟨false, none, some value, Text.lossy version⟩ := by
  have hstatus : octets "HTTP/" <+: version := by
    rcases supported with rfl | rfl <;> decide
  have hcode : ¬(code.length ≠ 3 ∨ ¬code.all isAsciiDigit = true) := by
    rw [not_or, not_not, not_not, List.all_eq_true]
    exact ⟨three, fun b hb => decide_eq_true (digits b hb)⟩
  refine ⟨code.foldl (fun acc b => acc * 10 + (b - 48).toUInt16) 0, ?_⟩
  rw [parseStartLine, hparts]
  dsimp only
  rw [if_pos hstatus, if_pos (isHttp1Version_iff.2 supported)]
  rw [if_neg hcode]
  rfl

/-- The first line is read, and tells a request from a status. -/
theorem parseStartLine_bytes (s : HeadStart) :
    ∃ start, parseStartLine s.bytes = .ok start ∧ (start.isRequest = true ↔ s.IsRequest) := by
  cases s with
  | request method target version known plain line supported =>
      obtain ⟨found, hread⟩ := parseStartLine_request known plain supported
      exact ⟨_, hread, iff_of_true rfl trivial⟩
  | status version code reason supported three digits line =>
      have hblank : 32 ∉ code := digits_notMem digits (by decide)
      have hparts : ∃ more, splitn 32 3 (HeadStart.status version code reason supported three digits line).bytes =
          version :: code :: more := by
        cases reason with
        | none => exact ⟨[], by rw [HeadStart.bytes, splitn_append supported.no_blank, splitn_of_notMem hblank]⟩
        | some reason =>
            refine ⟨[reason], ?_⟩
            rw [HeadStart.bytes, splitn_append supported.no_blank, splitn_append hblank]
            rfl
      obtain ⟨more, hparts⟩ := hparts
      obtain ⟨value, hread⟩ := parseStartLine_status supported three digits hparts
      exact ⟨_, hread, iff_of_false Bool.false_ne_true id⟩

/-- No head begins like the preface of HTTP/2. -/
theorem HeadStart.not_preface (s : HeadStart) (more : List UInt8) : ¬h2cPreface <+: s.bytes ++ more := by
  have hmethods : ∀ method ∈ methods, 3 ≤ (Text.encode method).length ∧ ¬octets "PRI" <+: Text.encode method := by
    decide
  have hfront : ∃ front rest, s.bytes = front ++ rest ∧ 3 ≤ front.length ∧ ¬octets "PRI" <+: front := by
    cases s with
    | request method target version known plain line supported => exact ⟨_, _, rfl, hmethods method known⟩
    | status version code reason supported three digits line =>
        have hversion : 3 ≤ version.length ∧ ¬octets "PRI" <+: version := by
          rcases supported with rfl | rfl <;> decide
        cases reason with
        | none => exact ⟨_, _, rfl, hversion⟩
        | some reason => exact ⟨_, _, rfl, hversion⟩
  obtain ⟨front, rest, hbytes, hlen, hno⟩ := hfront
  intro hpreface
  have hpri : octets "PRI" <+: front ++ (rest ++ more) := by
    rw [← List.append_assoc, ← hbytes]
    exact List.IsPrefix.trans (by decide) hpreface
  exact hno (List.prefix_of_prefix_length_le hpri (List.prefix_append _ _) hlen)

/-! ## Fields -/

theorem not_mem_present {level : List (FieldName × Option Value)} {name : FieldName} (h : name ∉ level.map Prod.fst) :
    name ∉ (present level).map Prod.fst := by
  intro hmem
  obtain ⟨e, he, rfl⟩ := List.mem_map.1 hmem
  obtain ⟨d, hd, hfield⟩ := List.mem_filterMap.1 he
  obtain ⟨v, -, rfl⟩ := Option.map_eq_some_iff.1 hfield
  exact h (List.mem_map_of_mem hd)

/-- The fields of a level are there if and only if there is a value for them. -/
theorem get_present {ctx : ParseCtx} {depth : Depth} {level : List (FieldName × Option Value)} {fields : FieldMap}
    (hctx : atDepth ctx depth = true) (hnodup : (level.map Prod.fst).Nodup) {name : FieldName} {v : Option Value}
    (he : (name, v) ∈ level) (hfields : fields.get name = none) :
    (insertAt ctx depth (present level) fields).get name = v := by
  obtain ⟨front, back, rfl⟩ := List.append_of_mem he
  have hlevel : present (front ++ (name, v) :: back) =
      present front ++ v.toList.map (fun v => (name, v)) ++ present back := by
    rw [present, List.filterMap_append, List.filterMap_cons, List.append_assoc]
    cases v <;> rfl
  rw [List.map_append, List.map_cons, List.nodup_append, List.nodup_cons] at hnodup
  obtain ⟨-, ⟨hback, -⟩, hfront⟩ := hnodup
  rw [hlevel]
  exact get_insertAt_field hctx v
    (not_mem_present fun hmem => hfront _ hmem _ List.mem_cons_self rfl) (not_mem_present hback) hfields

variable {ctx : ParseCtx} {m : HttpHead} {start : StartLine} {lines : List (List UInt8)} {name : FieldName}
  {v : Option Value}

theorem get_httpApp (h : name ≠ "app") : (insertAt ctx .keys [("app", .str "http")] FieldMap.new).get name = none := by
  rw [get_insertAt (fun hmem => h (List.mem_singleton.1 hmem))]
  rfl

theorem get_structuralLevel (hctx : atDepth ctx .full = true) (h : (name, v) ∈ structuralLevel start lines) :
    (httpFields ctx start lines).get name = v := by
  have hnames : ∀ name ∈ ["is_request", "version", "method", "status_code", "host"],
      name ∉ ["content_type", "content_length", "user_agent", "upgrade"] ∧ name ≠ "app" := by decide
  have hnodup : ((structuralLevel start lines).map Prod.fst).Nodup :=
    show ["is_request", "version", "method", "status_code", "host"].Nodup by decide
  obtain ⟨hfull, happ⟩ := hnames name (List.mem_map_of_mem (f := Prod.fst) h)
  rw [httpFields, get_insertAt (not_mem_present hfull)]
  exact get_present (atDepth_of_full hctx _) hnodup h (get_httpApp happ)

theorem get_fullLevel (hctx : atDepth ctx .full = true) (h : (name, v) ∈ fullLevel start lines) :
    (httpFields ctx start lines).get name = v := by
  have hnames : ∀ name ∈ ["content_type", "content_length", "user_agent", "upgrade"],
      name ∉ ["is_request", "version", "method", "status_code", "host"] ∧ name ≠ "app" := by decide
  have hnodup : ((fullLevel start lines).map Prod.fst).Nodup :=
    show ["content_type", "content_length", "user_agent", "upgrade"].Nodup by decide
  obtain ⟨hstructural, happ⟩ := hnames name (List.mem_map_of_mem (f := Prod.fst) h)
  apply get_present hctx hnodup h
  rw [get_insertAt (not_mem_present hstructural), get_httpApp happ]

/-- The fields report a head if and only if no tab stands around their values. -/
theorem reportsHead_iff (hctx : atDepth ctx .full = true) (hstart : start.isRequest = true ↔ m.start.IsRequest) :
    ReportsHead m (httpFields ctx start m.lines) ↔ m.Untabbed := by
  have hhost : (httpFields ctx start m.lines).get "host" = (headerValue m.lines "Host").map toStr :=
    get_structuralLevel hctx (by simp only [structuralLevel, List.mem_cons, true_or, or_true])
  have htype : (httpFields ctx start m.lines).get "content_type" = (headerValue m.lines "Content-Type").map toStr :=
    get_fullLevel hctx (by simp only [fullLevel, List.mem_cons, true_or])
  have hlength : (httpFields ctx start m.lines).get "content_length" =
      ((headerValue m.lines "Content-Length").bind parseU64).map .u64 :=
    get_fullLevel hctx (by simp only [fullLevel, List.mem_cons, true_or, or_true])
  have hagent : (httpFields ctx start m.lines).get "user_agent" =
      if start.isRequest then (headerValue m.lines "User-Agent").map toStr else none :=
    get_fullLevel hctx (by simp only [fullLevel, List.mem_cons, true_or, or_true])
  have hupgrade : (httpFields ctx start m.lines).get "upgrade" = (headerValue m.lines "Upgrade").map toStr :=
    get_fullLevel hctx (by simp only [fullLevel, List.mem_cons, true_or, or_true])
  rw [headerValue_lines] at hhost htype hlength hagent hupgrade
  constructor
  · intro h
    refine ⟨?_, ?_, ?_, ?_, ?_⟩
    · exact (map_trimmed_iff _).1 (hhost.symm.trans h.host)
    · exact (map_trimmed_iff _).1 (htype.symm.trans h.content_type)
    · exact (tellsLength_trimmed_iff _).1 (hlength ▸ h.content_length)
    · intro hrequest
      rw [if_pos (hstart.2 hrequest)] at hagent
      exact (map_trimmed_iff _).1 (hagent.symm.trans (h.user_agent hrequest))
    · exact (map_trimmed_iff _).1 (hupgrade.symm.trans h.upgrade)
  · intro h
    refine ⟨?_, ?_, ?_, ?_, ?_, ?_⟩
    · exact hhost.trans ((map_trimmed_iff _).2 h.host)
    · exact htype.trans ((map_trimmed_iff _).2 h.content_type)
    · rw [hlength]
      exact (tellsLength_trimmed_iff _).2 h.content_length
    · intro hrequest
      rw [if_pos (hstart.2 hrequest)] at hagent
      exact hagent.trans ((map_trimmed_iff _).2 (h.user_agent hrequest))
    · intro hstatus
      rwa [if_neg (fun hrequest => hstatus (hstart.1 hrequest))] at hagent
    · exact hupgrade.trans ((map_trimmed_iff _).2 h.upgrade)

/-! ## Heads and bodies -/

theorem HttpHead.bytes_eq (m : HttpHead) : m.bytes = joinLines 13 10 m.lines ++ [13, 10, 13, 10] :=
  flatMap_append_break (List.cons_ne_nil _ _)

theorem HttpHead.line (m : HttpHead) : ∀ line ∈ m.lines, NoBreak 13 10 line := by
  intro line hline
  rcases List.mem_cons.1 hline with rfl | hline
  · exact m.start.line
  · obtain ⟨f, -, rfl⟩ := List.mem_map.1 hline
    exact f.line

theorem HttpHead.line_ne_nil (m : HttpHead) : ∀ line ∈ m.lines.tail, line ≠ [] := by
  intro line hline
  obtain ⟨f, -, rfl⟩ := List.mem_map.1 hline
  exact f.bytes_ne_nil

theorem HttpHead.not_preface (m : HttpHead) (body : List UInt8) : ¬h2cPreface <+: m.bytes ++ body := by
  rw [bytes, lines, List.flatMap_cons, List.append_assoc, List.append_assoc, List.append_assoc]
  exact m.start.not_preface _

/-- A head is read to its end, and the body is not. -/
theorem parse_head (m : HttpHead) {start : StartLine} (hstart : parseStartLine m.start.bytes = .ok start)
    (ctx : ParseCtx) (body : List UInt8) :
    http.parse (m.bytes ++ body) ctx = .ok ⟨m.bytes.length, httpFields ctx start m.lines, .terminal⟩ := by
  have hblank : findHeaderEnd (m.bytes ++ body) = some (joinLines 13 10 m.lines).length := by
    rw [findHeaderEnd, m.bytes_eq, List.append_assoc]
    exact position_block (by decide) (List.cons_ne_nil _ _) m.line m.line_ne_nil body
  have htake : (m.bytes ++ body).take (joinLines 13 10 m.lines).length = joinLines 13 10 m.lines := by
    rw [m.bytes_eq, List.append_assoc, List.take_left]
  have hlen : (joinLines 13 10 m.lines).length + 4 = m.bytes.length := by
    rw [m.bytes_eq, List.length_append]
    rfl
  have hlines : splitLines 13 10 (joinLines 13 10 m.lines) = m.lines :=
    splitLines_joinLines (by decide) (List.cons_ne_nil _ _) m.line
  change parseHttp (m.bytes ++ body) ctx = _
  rw [parseHttp, if_neg (m.not_preface body), hblank]
  dsimp only
  rw [htake, hlines, ← hlen]
  dsimp only [HttpHead.lines]
  rw [hstart]
  rfl

/-- No part of a head is read. -/
theorem parse_take (m : HttpHead) {n : Nat} (hn : n < m.bytes.length) (ctx : ParseCtx) :
    http.parse (m.bytes.take n) ctx =
      .error (.truncated ((m.bytes.take n).length + 1) (m.bytes.take n).length) := by
  have hpreface : ¬h2cPreface <+: m.bytes.take n := by
    intro h
    have hno := m.not_preface []
    rw [List.append_nil] at hno
    exact hno (h.trans (List.take_prefix n _))
  have hblank : findHeaderEnd (m.bytes.take n) = none := by
    rw [m.bytes_eq] at hn ⊢
    exact position_block_take (by decide) (List.cons_ne_nil _ _) m.line m.line_ne_nil hn
  change parseHttp (m.bytes.take n) ctx = _
  rw [parseHttp, if_neg hpreface, hblank]
  rfl

theorem ReadsHttp.untabbed {m : HttpHead} (h : ReadsHttp m) : m.Untabbed := by
  have hctx : atDepth ⟨[], .full, ⟨0, 0, 0, 0⟩⟩ .full = true := rfl
  obtain ⟨start, hstart, hrequest⟩ := parseStartLine_bytes m.start
  obtain ⟨layer, hlayer, -, hreports⟩ := h.reads ⟨[], .full, ⟨0, 0, 0, 0⟩⟩
  obtain rfl := Except.ok.inj ((hlayer []).symm.trans (parse_head m hstart _ []))
  exact (reportsHead_iff hctx hrequest).1 (hreports hctx)

theorem HttpHead.Untabbed.reads {m : HttpHead} (h : m.Untabbed) : ReadsHttp m := by
  obtain ⟨start, hstart, hrequest⟩ := parseStartLine_bytes m.start
  constructor
  · intro ctx
    exact ⟨_, parse_head m hstart ctx, rfl, fun hctx => (reportsHead_iff hctx hrequest).2 h⟩
  · intro n hn ctx
    exact ⟨_, parse_take m hn ctx⟩

/-- The plugin reads a head if and only if no tab stands around a value that is reported. -/
theorem readsHttp_iff (m : HttpHead) : ReadsHttp m ↔ m.Untabbed :=
  ⟨ReadsHttp.untabbed, HttpHead.Untabbed.reads⟩

end Heads

/-! ## A tab in front of a host -/

/-- The field `Host:`, and `example.com` behind a tab. -/
def tabbedHost : HeadField where
  name := octets "Host"
  before := [9]
  value := octets "example.com"
  after := []
  name_plain := by decide
  name_line := noBreak_of_notMem (by decide)
  value_line := noBreak_of_notMem (by decide)
  before_blank := List.forall_mem_singleton.2 (.inr rfl)
  after_blank := nofun
  value_head := by
    intro b hb
    rw [← (Option.some.inj hb : 101 = b)]
    decide
  value_last := by
    intro b hb
    rw [← (Option.some.inj hb : 109 = b)]
    decide

/-- `GET / HTTP/1.1` with this field. -/
def tabbedRequest : HttpHead where
  start := .request "GET".toList (octets "/") (octets "HTTP/1.1") (by decide) (by decide)
    (noBreak_of_notMem (by decide)) (.inr rfl)
  fields := [tabbedHost]

theorem not_readsHttp_tabbed : ¬ReadsHttp tabbedRequest := by
  intro h
  have htab : 9 ∈ tabbedHost.before := List.mem_singleton.2 rfl
  exact (h.untabbed.host tabbedHost rfl).1 htab

end Pktflow.Plugins
