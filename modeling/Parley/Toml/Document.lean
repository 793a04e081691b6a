import Parley.Toml.Scalar

/-!
# TOML documents

A document is a sequence of entries and headers.  A header opens a table, or a
further element of a list of tables; the entries after it go there.  A table is
defined once: by its header, by dotted keys, or as a value in braces.
-/

set_option autoImplicit false

namespace Parley

namespace Toml

/-- What a document holds under a key while it is read. -/
inductive Node where
  /-- A finished value. -/
  | value (v : Toml)
  /-- A table; `implied` if no header defines it yet, `dotted` if dotted keys define it. -/
  | table (implied dotted : Bool) (entries : List (String × Node))
  /-- A list of tables. -/
  | tables (elements : List (List (String × Node)))
  deriving Inhabited

/-- A table while it is read. -/
structure Section where
  /-- No header defines the table yet. -/
  implied : Bool
  /-- Dotted keys define the table. -/
  dotted : Bool
  entries : List (String × Node)

namespace Section

/-- A table without entries. -/
def empty : Section :=
  ⟨false, false, []⟩

/-- The table as a node. -/
def toNode (s : Section) : Node :=
  .table s.implied s.dotted s.entries

/-- Sets the entries of the last element of a list of tables. -/
def setLast (entries : List (String × Node)) : List (List (String × Node)) →
    List (List (String × Node))
  | [] => []
  | [_] => [entries]
  | element :: elements => element :: setLast entries elements

/-- Changes the table at the end of a path by `change`, which also reads something off.  Tables on
the way are made if they are missing; of a list of tables the last element is meant.  A dotted path
does not lead into a table that a header defines. -/
def change? {α : Type} (dotted : Bool) (change : Section → Option (Section × α)) :
    List String → Section → Option (Section × α)
  | [], s => change s
  | key :: path, s =>
    match Table.get? key s.entries with
    | none =>
      (change? dotted change path ⟨true, dotted, []⟩).map fun (inner, a) =>
        ({ s with entries := Table.set key inner.toNode s.entries }, a)
    | some (.value _) => none
    | some (.table implied isDotted entries) =>
      if dotted && !implied then none
      else
        (change? dotted change path ⟨implied, isDotted, entries⟩).map fun (inner, a) =>
          ({ s with entries := Table.set key inner.toNode s.entries }, a)
    | some (.tables elements) =>
      match elements.getLast? with
      | none => none
      | some entries =>
        (change? dotted change path ⟨false, false, entries⟩).map fun (inner, a) =>
          ({ s with entries := Table.set key (.tables (setLast inner.entries elements)) s.entries }, a)

/-- The table with a new entry; `inner` tells that dotted keys led to the table. -/
def addValue? (inner : Bool) (key : String) (value : Toml) (s : Section) :
    Option (Section × Unit) :=
  if s.dotted ≠ inner || Table.has key s.entries then none
  else some ({ s with entries := s.entries ++ [(key, .value value)] }, ())

/-- The table with an entry under a path of keys. -/
def assign? (path : List String) (value : Toml) (s : Section) : Option Section :=
  match path.getLast? with
  | none => none
  | some key =>
    let parents := path.dropLast
    (change? true (addValue? (!parents.isEmpty) key value) parents s).map Prod.fst

end Section

mutual

/-- The value of a node. -/
def Node.toToml : Node → Toml
  | .value v => v
  | .table _ _ entries => .table (entriesToToml entries)
  | .tables elements => .arr (elementsToToml elements)

/-- The values of the entries of a table. -/
def entriesToToml : List (String × Node) → List (String × Toml)
  | [] => []
  | (key, node) :: entries => (key, node.toToml) :: entriesToToml entries

/-- The values of the elements of a list of tables. -/
def elementsToToml : List (List (String × Node)) → List Toml
  | [] => []
  | entries :: elements => .table (entriesToToml entries) :: elementsToToml elements

end

/-- A character of a key without quotes. -/
def isKeyChar (c : Char) : Bool :=
  c.isAlphanum || c = '_' || c = '-'

/-- The simple key at the head of a text, and the text after it. -/
def key? (text : List Char) : Option (String × List Char) :=
  match text with
  | '"' :: _ | '\'' :: _ => lineString? text
  | _ =>
    let word := text.takeWhile isKeyChar
    if word.isEmpty then none else some (String.ofList word, text.dropWhile isKeyChar)

/-- How deep lists and tables in braces may stand inside one another, and how many keys one path may
have. -/
def nestingLimit : Nat :=
  79

/-- The keys, joined by dots, at the head of a text, and the text after them and after blanks; at
most `n` keys. -/
def path? : Nat → List Char → Option (List String × List Char)
  | 0, _ => none
  | n + 1, text =>
    match key? (skipBlanks text) with
    | none => none
    | some (key, rest) =>
      match skipBlanks rest with
      | '.' :: rest => (path? n rest).map fun (keys, rest) => (key :: keys, rest)
      | rest => some ([key], rest)

/-- The text after blanks, line ends and comments; `inComment` tells that the text begins inside a
comment. -/
def skipGap? : Bool → List Char → Option (List Char)
  | _, [] => some []
  | _, '\n' :: rest => skipGap? false rest
  | _, '\r' :: '\n' :: rest => skipGap? false rest
  | true, c :: rest => if isPrintable c then skipGap? true rest else none
  | false, '#' :: rest => skipGap? true rest
  | false, c :: rest => if isBlank c then skipGap? false rest else some (c :: rest)

mutual

/-- The value at the head of a text, and the text after it.  The first argument bounds the number of
steps, the second one the nesting that is still allowed. -/
def readToml? : Nat → Nat → List Char → Option (Toml × List Char)
  | 0, _, _ => none
  | n + 1, depth, text =>
    match text with
    | '"' :: _ | '\'' :: _ => (string? text).map fun (s, rest) => (.str s, rest)
    | '[' :: rest =>
      match depth with
      | 0 => none
      | depth + 1 => (readList? n depth rest).map fun (items, rest) => (.arr items, rest)
    | '\x7b' :: rest =>
      match depth with
      | 0 => none
      | depth + 1 =>
        match skipBlanks rest with
        | '\x7d' :: rest => some (.table [], rest)
        | rest =>
          (readBraces? n depth .empty rest).map fun (s, rest) => (s.toNode.toToml, rest)
    | _ =>
      let (word, rest) := takeWord text
      (word? word).map fun value => (value, rest)

/-- The items of a list, and the text after its closing bracket. -/
def readList? : Nat → Nat → List Char → Option (List Toml × List Char)
  | 0, _, _ => none
  | n + 1, depth, text =>
    match skipGap? false text with
    | none => none
    | some (']' :: rest) => some ([], rest)
    | some text =>
      match readToml? n depth text with
      | none => none
      | some (item, rest) =>
        match skipGap? false rest with
        | some (',' :: rest) =>
          (readList? n depth rest).map fun (items, rest) => (item :: items, rest)
        | some (']' :: rest) => some ([item], rest)
        | _ => none

/-- The entries of a table in braces, added to `s`, and the text after the closing brace. -/
def readBraces? : Nat → Nat → Section → List Char → Option (Section × List Char)
  | 0, _, _, _ => none
  | n + 1, depth, s, text =>
    match path? nestingLimit text with
    | some (path, '=' :: rest) =>
      match readToml? n depth (skipBlanks rest) with
      | none => none
      | some (value, rest) =>
        match s.assign? path value with
        | none => none
        | some s =>
          match skipBlanks rest with
          | ',' :: rest => readBraces? n depth s rest
          | '\x7d' :: rest => some (s, rest)
          | _ => none
    | _ => none

end

/-- The text of the next line, after blanks and a comment. -/
def nextLine? (text : List Char) : Option (List Char) :=
  match skipBlanks text with
  | [] => some []
  | '#' :: rest =>
    let after := rest.dropWhile isPrintable
    if after.isEmpty then some [] else lineEnd? after
  | rest => lineEnd? rest

/-- A document while it is read: its root, and the table that entries go to now. -/
structure Document where
  root : Section
  /-- The path of the table that is open; none for the root itself. -/
  place : Option (List String)
  /-- The open table is an element of a list of tables. -/
  isElement : Bool
  /-- The open table. -/
  current : Section

namespace Document

/-- The document before its first line. -/
def start : Document :=
  ⟨.empty, none, false, .empty⟩

/-- Adds an element to a list of tables, or sets a table. -/
def place? (isElement : Bool) (key : String) (s parent : Section) : Option (Section × Unit) :=
  if isElement then
    match Table.get? key parent.entries with
    | some (.tables elements) =>
      some ({ parent with
        entries := Table.set key (.tables (elements ++ [s.entries])) parent.entries }, ())
    | _ => none
  else some ({ parent with entries := Table.set key s.toNode parent.entries }, ())

/-- The root once the open table has been put in its place. -/
def finish? (d : Document) : Option Section :=
  match d.place with
  | none => some d.current
  | some path =>
    match path.getLast? with
    | none => none
    | some key =>
      (Section.change? false (place? d.isElement key d.current) path.dropLast d.root).map Prod.fst

/-- Takes a table that a deeper header implied out of its parent, for its own header; a table that
is defined already is an error. -/
def takeImplied? (key : String) (parent : Section) : Option (Section × List (String × Node)) :=
  match Table.get? key parent.entries with
  | none => some (parent, [])
  | some (.table true false entries) =>
    some ({ parent with entries := parent.entries.filter (·.1 ≠ key) }, entries)
  | some _ => none

/-- Makes a list of tables in a parent, if there is none; any other entry of the name is an error. -/
def makeTables? (key : String) (parent : Section) : Option (Section × List (String × Node)) :=
  match Table.get? key parent.entries with
  | none => some ({ parent with entries := parent.entries ++ [(key, .tables [])] }, [])
  | some (.tables _) => some (parent, [])
  | some _ => none

/-- The document after a header. -/
def header? (isElement : Bool) (path : List String) (d : Document) : Option Document :=
  match d.finish?, path.getLast? with
  | some root, some key =>
    let opening := if isElement then makeTables? key else takeImplied? key
    (Section.change? false opening path.dropLast root).map fun (root, entries) =>
      ⟨root, some path, isElement, ⟨false, false, entries⟩⟩
  | _, _ => none

/-- The document after an entry. -/
def assign? (path : List String) (value : Toml) (d : Document) : Option Document :=
  (d.current.assign? path value).map fun current => { d with current := current }

end Document

/-- The document after the statement at the head of a text, and the text after it. -/
def statement? (d : Document) (text : List Char) : Option (Document × List Char) :=
  match text with
  | '[' :: '[' :: rest =>
    match path? nestingLimit rest with
    | some (path, ']' :: ']' :: rest) => (d.header? true path).map fun d => (d, rest)
    | _ => none
  | '[' :: rest =>
    match path? nestingLimit rest with
    | some (path, ']' :: rest) => (d.header? false path).map fun d => (d, rest)
    | _ => none
  | _ =>
    match path? nestingLimit text with
    | some (path, '=' :: rest) =>
      let rest := skipBlanks rest
      match readToml? (2 * rest.length + 2) nestingLimit rest with
      | some (value, rest) => (d.assign? path value).map fun d => (d, rest)
      | none => none
    | _ => none

/-- The document after all statements of a text, in at most `n` steps. -/
def statements? : Nat → Document → List Char → Option Document
  | 0, _, _ => none
  | n + 1, d, text =>
    match skipGap? false text with
    | none => none
    | some [] => some d
    | some text =>
      match statement? d text with
      | none => none
      | some (d, rest) => (nextLine? rest).bind (statements? n d)

/-- The text without a byte order mark at its head. -/
def dropMark : List Char → List Char
  | c :: text => if c.toNat = 0xFEFF then text else c :: text
  | [] => []

/-- The root table of the document that a string writes. -/
def ofText? (s : String) : Option (List (String × Toml)) :=
  let text := dropMark s.toList
  ((statements? (text.length + 1) .start text).bind Document.finish?).map fun root =>
    entriesToToml root.entries

end Toml

end Parley
