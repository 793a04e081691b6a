import Parley.Text.Basic

/-!
# Moments in time

The written form of a moment: a date, a time of day and the offset of the clock
from universal time.  Stored sessions carry moments, which are checked and not
kept; where a moment has to be written, it is the start of the year 1970.
-/

set_option autoImplicit false

namespace Parley

namespace Moment

/-- The moment that is written. -/
def epoch : String :=
  "1970-01-01T00:00:00Z"

/-- The value of a decimal digit. -/
def digit? (c : Char) : Option Nat :=
  if c.isDigit then some (c.toNat - 48) else none

/-- The digits at the head of a text, at most `limit` of them, as a number after those read so far,
and the text after them. -/
def digitsUpTo : (limit : Nat) → (read : Nat) → List Char → Nat × List Char
  | 0, n, text => (n, text)
  | _, n, [] => (n, [])
  | limit + 1, n, c :: text =>
    match digit? c with
    | some d => digitsUpTo limit (10 * n + d) text
    | none => (n, c :: text)

/-- A number of at least one and at most `limit` digits after optional blanks. -/
def number? (limit : Nat) (text : List Char) : Option (Nat × List Char) :=
  match Text.trimStart text with
  | [] => none
  | c :: text => if c.isDigit then some (digitsUpTo limit 0 (c :: text)) else none

/-- A number without sign has at most four digits as a year, with a sign any number of them. -/
def year? (text : List Char) : Option (Int × List Char) :=
  match Text.trimStart text with
  | '-' :: text =>
    if (text.head?.any Char.isDigit) then
      let (n, rest) := digitsUpTo text.length 0 text
      some (-(n : Int), rest)
    else none
  | '+' :: text =>
    if (text.head?.any Char.isDigit) then
      let (n, rest) := digitsUpTo text.length 0 text
      some (n, rest)
    else none
  | text => (number? 4 text).map fun (n, rest) => (n, rest)

/-- What follows a mark after optional blanks. -/
def after? (mark : Char) (text : List Char) : Option (List Char) :=
  match Text.trimStart text with
  | c :: text => if c = mark then some text else none
  | [] => none

/-- A year has a day more in February. -/
def isLeap (year : Int) : Bool :=
  year % 4 = 0 && (year % 100 ≠ 0 || year % 400 = 0)

/-- The number of days of a month. -/
def daysOf (year : Int) (month : Nat) : Nat :=
  if month = 2 then (if isLeap year then 29 else 28)
  else if month = 4 || month = 6 || month = 9 || month = 11 then 30
  else 31

/-- The years for which there are dates. -/
def isYear (year : Int) : Bool :=
  -262143 ≤ year && year ≤ 262142

/-- The text after the date at its head. -/
def date? (text : List Char) : Option (List Char) := do
  let (year, text) ← year? text
  let text ← after? '-' text
  let (month, text) ← number? 2 text
  let text ← after? '-' text
  let (day, text) ← number? 2 text
  if isYear year && 1 ≤ month && month ≤ 12 && 1 ≤ day && day ≤ daysOf year month then some text
  else none

/-- The text after the fraction of a second at its head, if there is one. -/
def fraction? : List Char → Option (List Char)
  | '.' :: c :: text => if c.isDigit then some (text.dropWhile Char.isDigit) else none
  | ['.'] => none
  | text => some text

/-- The text after the time of day at its head; a minute may have a leap second. -/
def time? (text : List Char) : Option (List Char) := do
  let (hour, text) ← number? 2 text
  let text ← after? ':' text
  let (minute, text) ← number? 2 text
  let text ← after? ':' text
  let (second, text) ← number? 2 text
  let text ← fraction? text
  if hour ≤ 23 && minute ≤ 59 && second ≤ 60 then some text else none

/-- The text after the minutes of an offset. -/
def offsetMinutes? : List Char → Option (List Char)
  | c :: d :: text => if '0' ≤ c && c ≤ '5' && d.isDigit then some text else none
  | _ => none

/-- The hours of an offset are below a day. -/
def isOffsetHour (c d : Char) : Bool :=
  c.isDigit && d.isDigit && (c = '0' || c = '1' || (c = '2' && d ≤ '3'))

/-- The text after the signed offset at its head. -/
def signedOffset? : List Char → Option (List Char)
  | c :: d :: text =>
    if isOffsetHour c d then
      offsetMinutes? (text.dropWhile fun c => c = ':' || Text.isBlank c)
    else none
  | _ => none

/-- The text after the offset at its head: universal time under one of its names, or a sign with
hours and minutes. -/
def offset? (text : List Char) : Option (List Char) :=
  if Text.asciiLower (text.take 3) = "utc".toList then some (text.drop 3)
  else
    match text with
    | 'Z' :: text | 'z' :: text => some text
    | '+' :: text | '-' :: text | '−' :: text => signedOffset? text
    | _ => none

/-- The text is a moment. -/
def isMoment (s : String) : Bool :=
  let rest := do
    let text ← date? s.toList
    let text ← match text with
      | 'T' :: text | 't' :: text | ' ' :: text => some text
      | _ => none
    let text ← time? text
    offset? (Text.trimStart text)
  match rest with
  | some text => (Text.trimStart text).isEmpty
  | none => false

end Moment

end Parley
