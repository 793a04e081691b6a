import Parley.Json.Basic

/-!
# Reading JSON text

The grammar is that of RFC 8259, with nothing added: one value, blanks around
tokens, no comma after a last item.  Lists and objects may stand inside one
another 127 deep.  Whole numbers that fit 64 bits are integers; every other
number is a float, and a number beyond the largest float is refused.
-/

set_option autoImplicit false

namespace Parley

namespace Json

/-- The blanks of JSON text. -/
def isSpace (c : Char) : Bool :=
  c = ' ' || c = '\n' || c = '\t' || c = '\r'

/-- The text without leading blanks. -/
def skipSpace (text : List Char) : List Char :=
  text.dropWhile isSpace

/-- The value of a hexadecimal digit. -/
def hexValue? (c : Char) : Option Nat :=
  if c.isDigit then some (c.toNat - '0'.toNat)
  else if 'a' ≤ c && c ≤ 'f' then some (c.toNat - 'a'.toNat + 10)
  else if 'A' ≤ c && c ≤ 'F' then some (c.toNat - 'A'.toNat + 10)
  else none

/-- The value of four hexadecimal digits. -/
def hexUnit? (a b c d : Char) : Option Nat := do
  let a ← hexValue? a
  let b ← hexValue? b
  let c ← hexValue? c
  let d ← hexValue? d
  some (((a * 16 + b) * 16 + c) * 16 + d)

/-- The character of a single 16-bit unit: a surrogate alone is none. -/
def unitChar? (unit : Nat) : Option Char :=
  if 0xD800 ≤ unit && unit ≤ 0xDFFF then none else some (Char.ofNat unit)

/-- The character of a high and a low surrogate. -/
def pairChar? (high low : Nat) : Option Char :=
  if 0xD800 ≤ high && high ≤ 0xDBFF && 0xDC00 ≤ low && low ≤ 0xDFFF then
    some (Char.ofNat (0x10000 + (high - 0xD800) * 0x400 + (low - 0xDC00)))
  else none

/-- The character that a backslash and one letter stand for. -/
def shortEscape? (c : Char) : Option Char :=
  if c = '"' then some '"'
  else if c = '\\' then some '\\'
  else if c = '/' then some '/'
  else if c = 'b' then some (Char.ofNat 8)
  else if c = 'f' then some (Char.ofNat 12)
  else if c = 'n' then some '\n'
  else if c = 'r' then some '\r'
  else if c = 't' then some '\t'
  else none

/-- The characters of a string up to its closing quote, and the text after that quote. -/
def stringBody? : List Char → Option (List Char × List Char)
  | '"' :: text => some ([], text)
  | '\\' :: 'u' :: a :: b :: c :: d :: '\\' :: 'u' :: e :: f :: g :: h :: text =>
    match hexUnit? a b c d with
    | none => none
    | some high =>
      match unitChar? high with
      | some char =>
        (stringBody? ('\\' :: 'u' :: e :: f :: g :: h :: text)).map fun (body, rest) =>
          (char :: body, rest)
      | none =>
        match (hexUnit? e f g h).bind (pairChar? high) with
        | none => none
        | some char => (stringBody? text).map fun (body, rest) => (char :: body, rest)
  | '\\' :: 'u' :: a :: b :: c :: d :: text =>
    match (hexUnit? a b c d).bind unitChar? with
    | none => none
    | some char => (stringBody? text).map fun (body, rest) => (char :: body, rest)
  | '\\' :: c :: text =>
    match shortEscape? c with
    | none => none
    | some char => (stringBody? text).map fun (body, rest) => (char :: body, rest)
  | c :: text =>
    if c.toNat < 32 || c = '\\' then none
    else (stringBody? text).map fun (body, rest) => (c :: body, rest)
  | [] => none

/-- The digits at the head of a text, and the text after them. -/
def takeDigits (text : List Char) : List Char × List Char :=
  (text.takeWhile Char.isDigit, text.dropWhile Char.isDigit)

/-- The exponent at the head of a text, if one is announced; none if no digit follows. -/
def exponent? : List Char → Option (Option Int × List Char)
  | c :: text =>
    if c = 'e' || c = 'E' then
      let (negative, rest) := match text with
        | '-' :: rest => (true, rest)
        | '+' :: rest => (false, rest)
        | rest => (false, rest)
      let (digits, rest) := takeDigits rest
      if digits.isEmpty then none
      else
        let magnitude : Int := Decimal.valueOf digits
        some (some (if negative then -magnitude else magnitude), rest)
    else some (none, c :: text)
  | [] => some (none, [])

/-- A number from its parts.  Without fraction and exponent it is an integer if it fits 64 bits,
with a sign 63 bits; zero below zero is a float. -/
def number? (negative : Bool) (whole : List Char) (fraction : Option (List Char))
    (exponent : Option Int) : Option Number :=
  let magnitude := Decimal.valueOf whole
  let asFloat : Option Number :=
    (Decimal.readScaled? whole (fraction.getD []) (exponent.getD 0)).map fun x =>
      .float (if negative then -x else x)
  if fraction.isSome || exponent.isSome then asFloat
  else if negative then
    if 0 < magnitude && magnitude ≤ Nat.pow 2 63 then some (.int (-(magnitude : Int))) else asFloat
  else if magnitude ≤ Decimal.wordLimit then some (.int magnitude)
  else asFloat

/-- The number at the head of a text, and the text after it. -/
def readNumber? (text : List Char) : Option (Number × List Char) :=
  let (negative, text) := match text with
    | '-' :: rest => (true, rest)
    | rest => (false, rest)
  let (whole, text) := takeDigits text
  match whole with
  | [] => none
  | first :: others =>
    if first = '0' && !others.isEmpty then none
    else
      let fraction? : Option (Option (List Char) × List Char) := match text with
        | '.' :: rest =>
          let (digits, rest) := takeDigits rest
          if digits.isEmpty then none else some (some digits, rest)
        | rest => some (none, rest)
      match fraction? with
      | none => none
      | some (fraction, text) =>
        match exponent? text with
        | none => none
        | some (exponent, text) =>
          (number? negative whole fraction exponent).map fun n => (n, text)

mutual

/-- The value at the head of a text, and the text after it.  The first argument bounds the number of
steps, the second one the nesting that is still allowed. -/
def readValue? : Nat → Nat → List Char → Option (Json × List Char)
  | 0, _, _ => none
  | steps + 1, depth, text =>
    match skipSpace text with
    | '"' :: rest => (stringBody? rest).map fun (body, rest) => (.str (String.ofList body), rest)
    | '[' :: rest =>
      match depth with
      | 0 => none
      | depth + 1 =>
        match skipSpace rest with
        | ']' :: rest => some (.arr [], rest)
        | rest => (readItems? steps depth rest).map fun (items, rest) => (.arr items, rest)
    | '\x7b' :: rest =>
      match depth with
      | 0 => none
      | depth + 1 =>
        match skipSpace rest with
        | '\x7d' :: rest => some (.obj [], rest)
        | rest => (readFields? steps depth rest).map fun (fields, rest) => (.obj fields, rest)
    | 'n' :: 'u' :: 'l' :: 'l' :: rest => some (.null, rest)
    | 't' :: 'r' :: 'u' :: 'e' :: rest => some (.bool true, rest)
    | 'f' :: 'a' :: 'l' :: 's' :: 'e' :: rest => some (.bool false, rest)
    | rest => (readNumber? rest).map fun (n, rest) => (.num n, rest)

/-- The items of a list from the first one on, and the text after the closing bracket. -/
def readItems? : Nat → Nat → List Char → Option (List Json × List Char)
  | 0, _, _ => none
  | steps + 1, depth, text =>
    match readValue? steps depth text with
    | none => none
    | some (item, rest) =>
      match skipSpace rest with
      | ',' :: rest => (readItems? steps depth rest).map fun (items, rest) => (item :: items, rest)
      | ']' :: rest => some ([item], rest)
      | _ => none

/-- The entries of an object from the first one on, and the text after the closing brace. -/
def readFields? : Nat → Nat → List Char → Option (List (String × Json) × List Char)
  | 0, _, _ => none
  | steps + 1, depth, text =>
    match skipSpace text with
    | '"' :: rest =>
      match stringBody? rest with
      | none => none
      | some (key, rest) =>
        match skipSpace rest with
        | ':' :: rest =>
          match readValue? steps depth rest with
          | none => none
          | some (value, rest) =>
            match skipSpace rest with
            | ',' :: rest =>
              (readFields? steps depth rest).map fun (fields, rest) =>
                ((String.ofList key, value) :: fields, rest)
            | '\x7d' :: rest => some ([(String.ofList key, value)], rest)
            | _ => none
        | _ => none
    | _ => none

end

/-- How deep lists and objects may stand inside one another. -/
def nestingLimit : Nat :=
  127

/-- The value that a text writes, with the entries of objects as they stand in the text. -/
def parseEntries? (text : List Char) : Option Json :=
  match readValue? (2 * text.length + 2) nestingLimit text with
  | some (value, rest) => if (skipSpace rest).isEmpty then some value else none
  | none => none

/-- The value that a text writes, with repeated keys merged. -/
def parse? (text : List Char) : Option Json :=
  (parseEntries? text).map merged

/-- The value that a string writes. -/
def ofText? (s : String) : Option Json :=
  parse? s.toList

end Json

end Parley
