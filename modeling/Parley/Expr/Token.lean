import Parley.Expr.Coercion
import Parley.Expr.Syntax

/-!
# Tokens of expressions

A variable path is one token, because no blank may stand inside it.  Between
tokens any number of blanks, tabs and line ends may stand.  At every place the
longest sign is taken, so `!==` is one sign and not three.
-/

set_option autoImplicit false

namespace Parley

/-- A token of an expression. -/
inductive Token where
  /-- A literal value. -/
  | lit (value : Json)
  /-- A variable path, with the text that it was written as. -/
  | path (source : String) (root : String) (segments : List Segment)
  /-- An operator between two operands; the minus sign also stands before one. -/
  | op (op : BinaryOp)
  /-- The sign of logical negation. -/
  | bang
  /-- The sign of conjunction. -/
  | both
  /-- The sign of disjunction. -/
  | either
  /-- The question mark of the conditional. -/
  | question
  /-- The colon of the conditional. -/
  | colon
  /-- An opening parenthesis. -/
  | opening
  /-- A closing parenthesis. -/
  | closing
  /-- The comma between arguments. -/
  | comma
  deriving Inhabited

namespace Token

/-- A character that may stand between tokens. -/
def isSpace (c : Char) : Bool :=
  c = ' ' || c = '\t' || c = '\r' || c = '\n'

/-- A character that may begin a name. -/
def isNameStart (c : Char) : Bool :=
  c.isAlpha || c = '_' || c = '$'

/-- A character that may continue a name. -/
def isNameChar (c : Char) : Bool :=
  c.isAlphanum || c = '_' || c = '$'

/-- The name at the head of a text, and the text after it. -/
def name? : List Char → Option (String × List Char)
  | [] => none
  | c :: text =>
    if isNameStart c then
      some (String.ofList (c :: text.takeWhile isNameChar), text.dropWhile isNameChar)
    else none

/-- The character that a backslash and `c` stand for in a string. -/
def unescape (c : Char) : Char :=
  if c = 'n' then '\n' else if c = 't' then '\t' else if c = 'r' then '\r' else c

/-- The characters of a string up to the closing quote, and the text after that quote. -/
def quotedBody? (quote : Char) : List Char → Option (List Char × List Char)
  | '\\' :: c :: text =>
    (quotedBody? quote text).map fun (body, rest) => (unescape c :: body, rest)
  | c :: text =>
    if c = quote then some ([], text)
    else if c = '\\' then none
    else (quotedBody? quote text).map fun (body, rest) => (c :: body, rest)
  | [] => none

/-- The string at the head of a text, in either kind of quotes, and the text after it. -/
def quoted? : List Char → Option (String × List Char)
  | c :: text =>
    if c = '"' || c = '\'' then
      (quotedBody? c text).map fun (body, rest) => (String.ofList body, rest)
    else none
  | [] => none

/-- One step of a path at the head of a text, and the text after it: a dot and a name, or a position
or a string in brackets. -/
def segment? : List Char → Option (Segment × List Char)
  | '.' :: text => (name? text).map fun (name, rest) => (.key name, rest)
  | '[' :: text =>
    match quoted? text with
    | some (name, ']' :: rest) => some (.key name, rest)
    | some _ => none
    | none =>
      let digits := text.takeWhile Char.isDigit
      match text.dropWhile Char.isDigit with
      | ']' :: rest =>
        if digits.isEmpty then none
        else some (.index (Decimal.valueOf digits), rest)
      | _ => none
  | _ => none

/-- The steps of a path at the head of a text, at most `n` of them, and the text after them.  A dot
or bracket that begins no step is an error. -/
def segments? : Nat → List Char → Option (List Segment × List Char)
  | 0, text => some ([], text)
  | n + 1, text =>
    match text with
    | '.' :: _ | '[' :: _ =>
      match segment? text with
      | none => none
      | some (segment, rest) =>
        (segments? n rest).map fun (segments, rest) => (segment :: segments, rest)
    | _ => some ([], text)

/-- The values of the reserved names. -/
def reserved? (name : String) : Option Json :=
  if name = "true" then some (.bool true)
  else if name = "false" then some (.bool false)
  else if name = "null" || name = "undefined" then some .null
  else none

/-- The reserved name or path at the head of a text, and the text after it. -/
def word? (text : List Char) : Option (Token × List Char) :=
  match name? text with
  | none => none
  | some (root, rest) =>
    match reserved? root with
    | some value => some (.lit value, rest)
    | none =>
      (segments? rest.length rest).map fun (segments, rest) =>
        (.path (String.ofList (text.take (text.length - rest.length))) root segments, rest)

/-- The number at the head of a text, which begins with a digit, and the text after it. -/
def number (text : List Char) : Token × List Char :=
  let whole := text.takeWhile Char.isDigit
  let rest := text.dropWhile Char.isDigit
  let (fraction, rest) := match rest with
    | '.' :: c :: _ => if c.isDigit then Decimal.fractionPart rest else ([], rest)
    | _ => ([], rest)
  (.lit (Json.ofFloat (Decimal.nearest (Decimal.valueOf (whole ++ fraction)) (-(fraction.length : Int)))),
    rest)

/-- The sign at the head of a text, and the text after it. -/
def sign? : List Char → Option (Token × List Char)
  | '=' :: '=' :: '=' :: rest => some (.op .strictEq, rest)
  | '!' :: '=' :: '=' :: rest => some (.op .strictNe, rest)
  | '=' :: '=' :: rest => some (.op .eq, rest)
  | '!' :: '=' :: rest => some (.op .ne, rest)
  | '<' :: '=' :: rest => some (.op .le, rest)
  | '>' :: '=' :: rest => some (.op .ge, rest)
  | '&' :: '&' :: rest => some (.both, rest)
  | '|' :: '|' :: rest => some (.either, rest)
  | '<' :: rest => some (.op .lt, rest)
  | '>' :: rest => some (.op .gt, rest)
  | '+' :: rest => some (.op .add, rest)
  | '-' :: rest => some (.op .sub, rest)
  | '*' :: rest => some (.op .mul, rest)
  | '/' :: rest => some (.op .div, rest)
  | '%' :: rest => some (.op .rem, rest)
  | '!' :: rest => some (.bang, rest)
  | '?' :: rest => some (.question, rest)
  | ':' :: rest => some (.colon, rest)
  | '(' :: rest => some (.opening, rest)
  | ')' :: rest => some (.closing, rest)
  | ',' :: rest => some (.comma, rest)
  | _ => none

/-- The token at the head of a text without leading blanks, and the text after it. -/
def next? : List Char → Option (Token × List Char)
  | [] => none
  | c :: text =>
    if c.isDigit then some (number (c :: text))
    else if c = '"' || c = '\'' then
      (quoted? (c :: text)).map fun (body, rest) => (.lit (.str body), rest)
    else if isNameStart c then word? (c :: text)
    else sign? (c :: text)

/-- The tokens of a text in at most `n` steps. -/
def scan? : Nat → List Char → Option (List Token)
  | 0, _ => none
  | n + 1, text =>
    match text.dropWhile isSpace with
    | [] => some []
    | c :: text =>
      match next? (c :: text) with
      | none => none
      | some (token, rest) => (scan? n rest).map (token :: ·)

/-- The tokens of a text, if it consists of tokens and blanks. -/
def ofText? (text : List Char) : Option (List Token) :=
  scan? (text.length + 1) text

end Token

end Parley
