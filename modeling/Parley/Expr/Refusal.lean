import Parley.Text.Basic

/-!
# What expressions must not touch

The names that no expression may read or call, and the screening of text that
is no expression: such text is passed on as plain text only if it does not look
like a program.
-/

set_option autoImplicit false

namespace Parley

/-- Why an expression is not evaluated. -/
inductive Refusal where
  /-- It reads a denied name. -/
  | access (name : String)
  /-- It calls something that is no allowed function. -/
  | call (name : String)
  /-- It is no expression, and holds a sign of programs. -/
  | sign (sign : String)
  /-- It is no expression, and holds an assignment. -/
  | assignment
  /-- It is no expression, and holds a keyword of programs. -/
  | keyword (word : String)
  /-- It is no expression, and mentions a denied name. -/
  | mention (word : String)
  /-- Placeholders stand too deep inside one another. -/
  | tooDeep
  /-- A placeholder inside it was refused; this is the text it was rendered as. -/
  | inside (text : String)
  deriving DecidableEq, Repr

namespace Refusal

/-- The text that stands for a placeholder inside too many others. -/
def tooDeepMarker : String :=
  "[blocked: template nesting too deep]"

/-- The text of the reason. -/
def reason : Refusal → String
  | access name => "access to '" ++ name ++ "' is not allowed"
  | call name => "call to '" ++ name ++ "' is not allowed"
  | sign s => "contains '" ++ s ++ "'"
  | assignment => "contains assignment"
  | keyword word => "contains keyword '" ++ word ++ "'"
  | mention word => "references '" ++ word ++ "'"
  | tooDeep => tooDeepMarker
  | inside text => text

end Refusal

namespace Denied

/-- Names that no path may start with. -/
def roots : List String :=
  ["process", "global", "globalThis", "window", "document", "eval", "Function", "require",
    "module", "exports", "setTimeout", "setInterval", "setImmediate", "fetch", "XMLHttpRequest",
    "localStorage", "sessionStorage", "indexedDB", "WebSocket", "import", "this", "constructor",
    "Reflect", "Proxy"]

/-- Names that no step of a path may have. -/
def properties : List String :=
  ["constructor", "prototype", "__proto__", "__defineGetter__", "__defineSetter__",
    "__lookupGetter__", "__lookupSetter__"]

/-- Words that begin statements of programs. -/
def keywords : List String :=
  ["new", "delete", "for", "while", "do", "function", "class", "import", "export", "return",
    "var", "let", "const", "async", "await", "yield", "with", "try", "catch", "throw"]

/-- Signs that occur in programs and in no expression. -/
def signs : List String :=
  ["=>", "++", "--", ";", "`", "\x7b", "\x7d"]

/-- No path may start with this name. -/
def isRoot (name : String) : Bool :=
  roots.contains name

/-- No step of a path may have this name. -/
def isProperty (name : String) : Bool :=
  properties.contains name

/-- Where the reading of a text stands with respect to quotes. -/
inductive Quoting where
  /-- Outside of quotes. -/
  | outside
  /-- Inside of quotes of this kind. -/
  | inside (quote : Char)
  /-- Inside of quotes of this kind, after a backslash. -/
  | escaped (quote : Char)
  deriving DecidableEq, Repr

/-- The text with everything inside quotes replaced by blanks.  A quote that is never closed blanks
the text up to its end. -/
def blankQuoted : Quoting → List Char → List Char
  | _, [] => []
  | .outside, c :: text =>
    c :: blankQuoted (if c = '"' || c = '\'' then .inside c else .outside) text
  | .escaped q, _ :: text => ' ' :: blankQuoted (.inside q) text
  | .inside q, c :: text =>
    if c = '\\' then ' ' :: blankQuoted (.escaped q) text
    else if c = q then c :: blankQuoted .outside text
    else ' ' :: blankQuoted (.inside q) text

/-- A single `=` occurs that is no part of a comparison or an arrow; `before` is the character in
front of the text. -/
def hasAssignment (before : Char) : List Char → Bool
  | [] => false
  | c :: text =>
    let next := text.headD ' '
    (c = '=' && !(before = '=' || before = '!' || before = '<' || before = '>')
      && !(next = '=' || next = '>')) || hasAssignment c text

/-- A character of a word. -/
def isWordChar (c : Char) : Bool :=
  Text.isAsciiAlphanumeric c || c = '_' || c = '$'

/-- The words of a text. -/
def wordsOf (text : List Char) : List String :=
  ((Text.splitOn (fun c => !isWordChar c) text).filter (fun w => !w.isEmpty)).map String.ofList

/-- Why a word is refused in text that is no expression. -/
def judgeWord? (word : String) : Option Refusal :=
  if keywords.contains word then some (.keyword word)
  else if isRoot word || isProperty word then some (.mention word)
  else none

/-- Why a text that is no expression is refused, if it is. -/
def screen? (text : List Char) : Option Refusal :=
  let code := blankQuoted .outside text
  match signs.find? (fun s => Text.contains s.toList code) with
  | some s => some (.sign s)
  | none =>
    if hasAssignment ' ' code then some .assignment
    else (wordsOf code).findSome? judgeWord?

end Denied

end Parley
