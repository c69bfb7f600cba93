import Pktflow.Lib.Utf8
import Mathlib.Algebra.Ring.Nat

/-!
# The stream query language

Model of the lexer and the parser of `pktflow-view/src/query.rs`. The lexer walks over the bytes of the
input, reads each as a character, and slices the input at the offsets it finds; a slice that does not end
between characters panics. The parser is a recursive descent: each method is a definition that calls the
others through `self`, and `parseGoal` ties the knot.
-/

set_option autoImplicit false

namespace Pktflow.View

open Pktflow.Lib

/-- `char::is_whitespace`: the characters with the `White_Space` property. -/
def isWhitespace (c : Char) : Bool :=
  let n := c.toNat
  decide (9 ≤ n ∧ n ≤ 13) || n == 32 || n == 0x85 || n == 0xA0 || n == 0x1680 ||
    decide (0x2000 ≤ n ∧ n ≤ 0x200A) || n == 0x2028 || n == 0x2029 || n == 0x202F || n == 0x205F ||
    n == 0x3000

/-- `str::to_ascii_lowercase`. -/
def toAsciiLowercase (t : Text) : Text := t.map Char.toLower

/-- The functions from outside: `str::to_lowercase`, and the error of the regex compiler, if any. -/
structure QueryEnv where
  toLowercase : Text → Text
  regexError : Text → Option String

/-- `QueryError`. -/
structure QueryError where
  message : String
  position : Nat
  deriving DecidableEq, Repr

/-- Why there is no result: a slice panicked, the fuel of the model ran out, or an error is returned. -/
inductive Failure where
  | panic
  | fuel
  | query (e : QueryError)
  deriving DecidableEq, Repr

/-- `Flag`. -/
inductive Flag where
  | closed
  | live
  | root
  | leaf
  | condensed
  deriving DecidableEq, Repr

/-- `Field`. -/
inductive Field where
  | proto
  | id
  | packets
  | bytes
  | opaqueBytes
  | duration
  | depth
  | children
  | state
  | reason
  | endpoint
  | port
  | parent
  | under
  | custom (name : Text)
  deriving DecidableEq, Repr

/-- `CmpOp`. -/
inductive CmpOp where
  | eq
  | ne
  | re
  | notRe
  | gt
  | ge
  | lt
  | le
  | contains
  deriving DecidableEq, Repr

/-- `Literal`. A compiled regex is its pattern, and a magnitude the number it denotes before `f64` rounds
it. -/
structure Literal where
  raw : Text
  number : Option (Rat × Text)
  regex : Option Text
  deriving DecidableEq, Repr

/-- `Expr`. -/
inductive Expr where
  | or (l r : Expr)
  | and (l r : Expr)
  | not (inner : Expr)
  | freeText (needle : Text)
  | freeRegex (pattern : Text)
  | flag (flag : Flag)
  | cmp (field : Field) (op : CmpOp) (value : Literal)
  deriving DecidableEq, Repr

/-- `Tok`. -/
inductive Tok where
  | lparen
  | rparen
  | and
  | or
  | not
  | op (op : CmpOp)
  | word (w : Text)
  | str (s : Text)
  | regex (pattern : Text)
  deriving DecidableEq, Repr

/-- The text is one of these words. -/
def isOneOf (t : Text) (words : List String) : Bool := words.any fun w => w.toList == t

/-- The names of the fields. -/
def fieldNames : List (List String × Field) :=
  [(["proto", "protocol"], .proto), (["id"], .id), (["packets", "pkts"], .packets), (["bytes"], .bytes),
    (["opaque"], .opaqueBytes), (["duration", "dur"], .duration), (["depth"], .depth),
    (["children"], .children), (["state"], .state), (["reason", "close_reason"], .reason),
    (["endpoint", "ep", "host", "addr"], .endpoint), (["port"], .port), (["parent"], .parent),
    (["under", "ancestor", "in"], .under)]

/-- `Field::resolve`. -/
def Field.resolve (name : Text) : Field :=
  match fieldNames.find? fun e => isOneOf (toAsciiLowercase name) e.1 with
  | some e => e.2
  | none => .custom name

/-! ## Lexer -/

/-- The input at the offset is read as one character: `bytes[i] as char`. -/
def asChar (b : UInt8) : Char := Char.ofNat b.toNat

/-- The double quote. -/
def doubleQuote : Char := Char.ofNat 34

/-- The single quote. -/
def singleQuote : Char := Char.ofNat 39

/-- `&text[start..stop]`. -/
def sliceText (t : Text) (start stop : Nat) : Except Failure Text :=
  match Text.slice t start stop with
  | some u => .ok u
  | none => .error .panic

/-- `str::find`: the byte offset of the first occurrence. -/
def findText (sym : Text) : Text → Option Nat
  | [] => if sym.isPrefixOf [] then some 0 else none
  | c :: t => if sym.isPrefixOf (c :: t) then some 0 else (findText sym t).map (· + c.utf8Size)

/-- `WORD_OPS`. -/
def wordOps : List (String × CmpOp) :=
  [("==", .eq), ("!=", .ne), ("=~", .re), ("!~", .notRe), (">=", .ge), ("<=", .le), (">", .gt), ("<", .lt)]

/-- An operator found in a word: its offset, and the length of its symbol. -/
structure OpSplit where
  at_ : Nat
  op : CmpOp
  symLen : Nat

/-- One symbol of the loop over `WORD_OPS`: the earlier operator wins, at one place the longer. -/
def betterSplit (word : Text) (split : Option OpSplit) (e : String × CmpOp) : Option OpSplit :=
  match findText e.1.toList word with
  | none => split
  | some p =>
      let len := Text.size e.1.toList
      match split with
      | none => some ⟨p, e.2, len⟩
      | some s => if p < s.at_ ∨ p = s.at_ ∧ s.symLen < len then some ⟨p, e.2, len⟩ else split

/-- `push_word`. -/
def pushWord (toks : List (Tok × Nat)) (word : Text) (pos : Nat) : List (Tok × Nat) :=
  let lower := toAsciiLowercase word
  if isOneOf lower ["and", "&&"] then toks ++ [(.and, pos)]
  else if isOneOf lower ["or", "||"] then toks ++ [(.or, pos)]
  else if isOneOf lower ["not", "!"] then toks ++ [(.not, pos)]
  -- the keyword is optional
  else if isOneOf lower ["where"] then toks
  else if isOneOf lower ["=", "==", "is"] then toks ++ [(.op .eq, pos)]
  else if isOneOf lower ["contains", "has"] then toks ++ [(.op .contains, pos)]
  else toks ++ [(.word word, pos)]

/-- The part of a word before an operator. -/
def pushLeft (toks : List (Tok × Nat)) (word : Text) (start at_ : Nat) :
    Except Failure (List (Tok × Nat)) :=
  if 0 < at_ then (sliceText word 0 at_).map fun left => pushWord toks left start else .ok toks

/-- The tokens of a word: an operator in it is split off, and what follows it is a value. -/
def lexWord (toks : List (Tok × Nat)) (word : Text) (start : Nat) : Except Failure (List (Tok × Nat)) :=
  match wordOps.foldl (betterSplit word) none with
  | none => .ok (pushWord toks word start)
  | some s => do
      let toks ← pushLeft toks word start s.at_
      let toks := toks ++ [(.op s.op, start + s.at_)]
      let rest ← sliceText word (s.at_ + s.symLen) word.size
      if rest = [] then pure toks else pure (toks ++ [(.str rest, start + s.at_ + s.symLen)])

/-- The loop over a regex literal: its pattern, and its length without the closing slash. -/
def scanRegex : List UInt8 → Option (Text × Nat)
  | [] => none
  | [b] => if b = 47 then some ([], 0) else none
  | b :: c :: bytes =>
      -- an escaped slash
      if b = 92 ∧ c = 47 then (scanRegex bytes).map fun r => (asChar 47 :: r.1, r.2 + 2)
      else if b = 47 then some ([], 0)
      else (scanRegex (c :: bytes)).map fun r => (asChar b :: r.1, r.2 + 1)

/-- The characters that end a word. -/
def endsWord (c : Char) : Bool :=
  isWhitespace c || c == '(' || c == ')' || c == doubleQuote || c == singleQuote

/-- The number of bytes before one that ends a scan. -/
def scanTo (stop : UInt8 → Bool) (bytes : List UInt8) : Nat := (bytes.takeWhile fun b => !stop b).length

/-- The loop of `lex` from the offset `i` on. -/
def lexFrom (input : Text) (bytes : List UInt8) : Nat → Nat → List (Tok × Nat) →
    Except Failure (List (Tok × Nat))
  | 0, i, toks => if i < bytes.length then .error .fuel else .ok toks
  | fuel + 1, i, toks =>
      match bytes.drop i with
      | [] => .ok toks
      | b :: rest =>
          let c := asChar b
          if isWhitespace c then lexFrom input bytes fuel (i + 1) toks
          else if c = '(' then lexFrom input bytes fuel (i + 1) (toks ++ [(.lparen, i)])
          else if c = ')' then lexFrom input bytes fuel (i + 1) (toks ++ [(.rparen, i)])
          else if c = doubleQuote ∨ c = singleQuote then
            let j := i + 1 + scanTo (fun d => asChar d == c) rest
            if bytes.length ≤ j then
              .error (.query ⟨"unclosed " ++ String.singleton c ++ " quote", i⟩)
            else do
              let quoted ← sliceText input (i + 1) j
              lexFrom input bytes fuel (j + 1) (toks ++ [(.str quoted, i)])
          else if c = '/' then
            match scanRegex rest with
            | none => .error (.query ⟨"unclosed /regex/ literal", i⟩)
            | some (pattern, n) =>
                lexFrom input bytes fuel (i + 1 + n + 1) (toks ++ [(.regex pattern, i)])
          else do
            let j := i + scanTo (fun d => endsWord (asChar d)) (b :: rest)
            let word ← sliceText input i j
            let toks ← lexWord toks word i
            lexFrom input bytes fuel j toks

/-- `lex`. -/
def lex (input : Text) : Except Failure (List (Tok × Nat)) :=
  lexFrom input input.encode input.size 0 []

/-! ## Numbers -/

/-- The number of decimal digits. -/
def digitsVal (t : Text) : Nat := t.foldl (fun n c => 10 * n + (c.toNat - 48)) 0

/-- `str::parse::<f64>`, on text of digits, points and signs. -/
def parseF64 (t : Text) : Option Rat :=
  let (sign, body) : Int × Text := match t with
    | '-' :: rest => (-1, rest)
    | '+' :: rest => (1, rest)
    | rest => (1, rest)
  let whole := body.takeWhile Char.isDigit
  match body.dropWhile Char.isDigit with
  | [] => if whole = [] then none else some (mkRat (sign * digitsVal whole) 1)
  | '.' :: frac =>
      if frac.all Char.isDigit ∧ (whole ≠ [] ∨ frac ≠ []) then
        some (mkRat (sign * digitsVal (whole ++ frac)) (10 ^ frac.length))
      else none
  | _ => none

/-- The characters of a magnitude. -/
def isMagnitude (c : Char) : Bool := c.isDigit || c == '.' || c == '-' || c == '+'

/-- `parse_number`. -/
def parseNumber (raw : Text) : Except Failure (Option (Rat × Text)) := do
  let split := Text.size (raw.takeWhile isMagnitude)
  if split = 0 then return none
  let magText ← sliceText raw 0 split
  match parseF64 magText with
  | none => return none
  | some mag => do
      let suffix ← sliceText raw split raw.size
      if suffix.all Char.isAlpha then return some (mag, suffix) else return none

/-! ## Parser -/

/-- `Parser`: the tokens not yet taken, and the position of the last one taken. -/
structure Parser where
  last : Nat
  rest : List (Tok × Nat)
  inputLen : Nat

namespace Parser

/-- `Parser::peek`. -/
def peek (p : Parser) : Option Tok := p.rest.head?.map Prod.fst

/-- `Parser::peek2`. -/
def peek2 (p : Parser) : Option Tok := p.rest.tail.head?.map Prod.fst

/-- `Parser::pos`. -/
def pos (p : Parser) : Nat := (p.rest.head?.map Prod.snd).getD p.inputLen

/-- `Parser::bump`, the state after it. -/
def bump (p : Parser) : Parser :=
  match p.rest with
  | [] => p
  | t :: rest => { p with last := t.2, rest := rest }

/-- `Parser::err`. -/
def err (p : Parser) (message : String) : Failure := .query ⟨message, p.pos⟩

/-- `Parser::compile`. -/
def compile (env : QueryEnv) (p : Parser) (pattern : Text) : Except Failure Text :=
  match env.regexError pattern with
  | none => .ok pattern
  | some e => .error (.query ⟨"bad regex: " ++ e, p.last⟩)

end Parser

/-- The operators that compare numbers. -/
def CmpOp.isOrdering : CmpOp → Bool
  | .gt | .ge | .lt | .le => true
  | _ => false

/-- The operators that match a regex. -/
def CmpOp.isRegex : CmpOp → Bool
  | .re | .notRe => true
  | _ => false

/-- The operator that a regex literal on the right turns an operator into. -/
def CmpOp.withRegex : CmpOp → CmpOp
  | .ne | .notRe => .notRe
  | _ => .re

/-- The regex of an operand, if the operator matches one. -/
def operandRegex (env : QueryEnv) (op : CmpOp) (raw : Text) (p : Parser) : Except Failure (Option Text) :=
  if op.isRegex then (p.compile env raw).map some else .ok none

/-- The end of `parse_comparison`, with a word or a string on the right. -/
def parseOperand (env : QueryEnv) (field : Field) (op : CmpOp) (raw : Text) (valuePos : Nat) (p : Parser) :
    Except Failure (Expr × Parser) := do
  let number ← parseNumber raw
  if op.isOrdering ∧ number = none then
    .error (.query ⟨"'" ++ String.ofList raw ++ "' is not a number (>, >=, <, <= compare numbers)",
      valuePos⟩)
  else do
    let regex ← operandRegex env op raw p
    pure (.cmp field op ⟨raw, number, regex⟩, p)

/-- `Parser::parse_comparison`. -/
def parseComparison (env : QueryEnv) (p : Parser) : Except Failure (Expr × Parser) :=
  match p.peek with
  | some (.word name) =>
      match p.bump.peek with
      | some (.op op) =>
          let field := Field.resolve name
          let p := p.bump.bump
          let valuePos := p.pos
          match p.peek with
          | some (.word raw) => parseOperand env field op raw valuePos p.bump
          | some (.str raw) => parseOperand env field op raw valuePos p.bump
          | some (.regex pattern) => do
              -- the literal reads as intent to match it
              let re ← p.bump.compile env pattern
              pure (.cmp field op.withRegex ⟨pattern, none, some re⟩, p.bump)
          | _ => .error (.query ⟨"'" ++ String.ofList name ++ "' comparison is missing its value", valuePos⟩)
      | _ => .error (p.bump.bump.err "expected a comparison operator")
  | _ => .error (p.bump.err "expected a field name")

/-- What a word stands for that is not compared. -/
def wordExpr (env : QueryEnv) (w : Text) : Expr :=
  let lower := toAsciiLowercase w
  if isOneOf lower ["closed"] then .flag .closed
  else if isOneOf lower ["live", "open"] then .flag .live
  else if isOneOf lower ["root"] then .flag .root
  else if isOneOf lower ["leaf"] then .flag .leaf
  else if isOneOf lower ["condensed"] then .flag .condensed
  else .freeText (env.toLowercase w)

/-- The methods of the descent and their loops. -/
inductive Goal where
  | or
  | orTail (left : Expr)
  | and
  | andTail (left : Expr)
  | unary
  | primary

/-- The methods, for the calls among them. -/
abbrev Methods := Goal → Parser → Except Failure (Expr × Parser)

/-- `Parser::parse_or` up to its loop. -/
def parseOr (self : Methods) (p : Parser) : Except Failure (Expr × Parser) := do
  let (left, p) ← self .and p
  self (.orTail left) p

/-- The loop of `parse_or`. -/
def parseOrTail (self : Methods) (left : Expr) (p : Parser) : Except Failure (Expr × Parser) :=
  match p.peek with
  | some .or => do
      let (right, p) ← self .and p.bump
      self (.orTail (.or left right)) p
  | _ => .ok (left, p)

/-- `Parser::parse_and` up to its loop. -/
def parseAnd (self : Methods) (p : Parser) : Except Failure (Expr × Parser) := do
  let (left, p) ← self .unary p
  self (.andTail left) p

/-- The tokens at which a term begins without `AND`. -/
def startsTerm : Tok → Bool
  | .word _ | .str _ | .regex _ | .lparen | .not => true
  | _ => false

/-- The loop of `parse_and`. -/
def parseAndTail (self : Methods) (left : Expr) (p : Parser) : Except Failure (Expr × Parser) :=
  let next := fun p => do
    let (right, p) ← self .unary p
    self (.andTail (.and left right)) p
  match p.peek with
  | some .and => next p.bump
  | some t => if startsTerm t then next p else .ok (left, p)
  | none => .ok (left, p)

/-- `Parser::parse_unary`. -/
def parseUnary (self : Methods) (p : Parser) : Except Failure (Expr × Parser) :=
  match p.peek with
  | some .not => do
      let (inner, p) ← self .unary p.bump
      pure (.not inner, p)
  | _ => self .primary p

/-- `Parser::parse_primary`. -/
def parsePrimary (env : QueryEnv) (self : Methods) (p : Parser) : Except Failure (Expr × Parser) :=
  match p.peek with
  | some .lparen => do
      let (inner, p) ← self .or p.bump
      match p.peek with
      | some .rparen => pure (inner, p.bump)
      | _ => .error (p.bump.err "expected ')'")
  | some (.regex pattern) => do
      let re ← p.bump.compile env pattern
      pure (.freeRegex re, p.bump)
  | some (.str s) => .ok (.freeText (env.toLowercase s), p.bump)
  | some (.word w) =>
      match p.peek2 with
      | some (.op _) => parseComparison env p
      | _ => .ok (wordExpr env w, p.bump)
  | some (.op _) => .error (p.err "comparison operator needs a field on its left")
  | some .rparen => .error (p.err "unexpected ')'")
  | some .and => .error (p.err "AND/OR needs a term on both sides")
  | some .or => .error (p.err "AND/OR needs a term on both sides")
  | some .not => .error (p.err "internal: NOT handled in parse_unary")
  | none => .error (p.err "expected a search term")

/-- The methods, with fuel for the calls among them. -/
def parseGoal (env : QueryEnv) : Nat → Methods
  | 0 => fun _ _ => .error .fuel
  | n + 1 => fun goal p =>
      match goal with
      | .or => parseOr (parseGoal env n) p
      | .orTail left => parseOrTail (parseGoal env n) left p
      | .and => parseAnd (parseGoal env n) p
      | .andTail left => parseAndTail (parseGoal env n) left p
      | .unary => parseUnary (parseGoal env n) p
      | .primary => parsePrimary env (parseGoal env n) p

/-- `StreamQuery::parse` after the lexer. -/
def parseTokens (env : QueryEnv) (inputLen : Nat) (toks : List (Tok × Nat)) : Except Failure Expr :=
  if toks = [] then .error (.query ⟨"empty query", 0⟩)
  else do
    let (root, p) ← parseGoal env (4 * toks.length + 4) .or ⟨0, toks, inputLen⟩
    if p.rest = [] then pure root else .error (p.err "unexpected trailing input")

/-- `StreamQuery::parse`. -/
def parseQuery (env : QueryEnv) (input : Text) : Except Failure Expr := do
  let toks ← lex input
  parseTokens env input.size toks

end Pktflow.View
