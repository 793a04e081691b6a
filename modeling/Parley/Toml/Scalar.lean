import Parley.Json.Reader
import Parley.Toml.Basic

/-!
# Scalars of TOML

Strings in their four forms, numbers with underscores between digits, truth
values, dates and times.
-/

set_option autoImplicit false

namespace Parley

namespace Toml

/-- A blank within a line. -/
def isBlank (c : Char) : Bool :=
  c = ' ' || c = '\t'

/-- The text without leading blanks. -/
def skipBlanks (text : List Char) : List Char :=
  text.dropWhile isBlank

/-- A character that may stand unescaped in one line: no control character except the tab. -/
def isPrintable (c : Char) : Bool :=
  c = '\t' || (32 ≤ c.toNat && c.toNat ≠ 127)

/-- The character with this code point, unless it is a surrogate or too large. -/
def scalar? (code : Nat) : Option Char :=
  if (0xD800 ≤ code && code ≤ 0xDFFF) || 0x10FFFF < code then none else some (Char.ofNat code)

/-- The character of an escape sequence after its backslash, and the text after it. -/
def escape? : List Char → Option (Char × List Char)
  | 'b' :: text => some (Char.ofNat 8, text)
  | 't' :: text => some ('\t', text)
  | 'n' :: text => some ('\n', text)
  | 'f' :: text => some (Char.ofNat 12, text)
  | 'r' :: text => some ('\r', text)
  | '"' :: text => some ('"', text)
  | '\\' :: text => some ('\\', text)
  | 'u' :: a :: b :: c :: d :: text =>
    ((Json.hexUnit? a b c d).bind scalar?).map fun char => (char, text)
  | 'U' :: a :: b :: c :: d :: e :: f :: g :: h :: text => do
    let high ← Json.hexUnit? a b c d
    let low ← Json.hexUnit? e f g h
    let char ← scalar? (high * 0x10000 + low)
    some (char, text)
  | _ => none

/-- The characters of a string in double quotes, and the text after the closing quote; at most `n`
characters. -/
def basicBody? : Nat → List Char → Option (List Char × List Char)
  | 0, _ => none
  | n + 1, text =>
    match text with
    | [] => none
    | '"' :: rest => some ([], rest)
    | '\\' :: rest =>
      match escape? rest with
      | none => none
      | some (char, rest) => (basicBody? n rest).map fun (body, rest) => (char :: body, rest)
    | c :: rest =>
      if isPrintable c then (basicBody? n rest).map fun (body, rest) => (c :: body, rest) else none

/-- The characters of a string in single quotes, and the text after the closing quote. -/
def literalBody? : List Char → Option (List Char × List Char)
  | [] => none
  | '\'' :: rest => some ([], rest)
  | c :: rest =>
    if isPrintable c then (literalBody? rest).map fun (body, rest) => (c :: body, rest) else none

/-- The text after blanks and line ends. -/
def skipLines : List Char → List Char
  | ' ' :: rest => skipLines rest
  | '\t' :: rest => skipLines rest
  | '\n' :: rest => skipLines rest
  | '\r' :: '\n' :: rest => skipLines rest
  | text => text

/-- The text after a line end. -/
def lineEnd? : List Char → Option (List Char)
  | '\n' :: rest => some rest
  | '\r' :: '\n' :: rest => some rest
  | _ => none

/-- The text without a line end at its head. -/
def dropLineEnd (text : List Char) : List Char :=
  (lineEnd? text).getD text

/-- The characters of a string over several lines, closed by three quotes of the kind `quote`, and
the text after them.  Up to two more quotes may stand right before the closing ones.  With
`escapes`, escape sequences count, and a backslash at the end of a line removes the line end and the
blanks after it. -/
def linesBody? (quote : Char) (escapes : Bool) : Nat → List Char → Option (List Char × List Char)
  | 0, _ => none
  | n + 1, text =>
    match text with
    | [] => none
    | c :: rest =>
      if c = quote then
        let run := text.takeWhile (· = quote)
        if 3 ≤ run.length then
          let extra := min (run.length - 3) 2
          some (List.replicate extra quote, text.drop (extra + 3))
        else
          (linesBody? quote escapes n (text.drop run.length)).map fun (body, rest) =>
            (run ++ body, rest)
      else if escapes && c = '\\' then
        match lineEnd? (skipBlanks rest) with
        | some rest => linesBody? quote escapes n (skipLines rest)
        | none =>
          match escape? rest with
          | none => none
          | some (char, rest) =>
            (linesBody? quote escapes n rest).map fun (body, rest) => (char :: body, rest)
      else
        match lineEnd? text with
        | some rest => (linesBody? quote escapes n rest).map fun (body, rest) => ('\n' :: body, rest)
        | none =>
          if isPrintable c then
            (linesBody? quote escapes n rest).map fun (body, rest) => (c :: body, rest)
          else none

/-- The string in one line at the head of a text, and the text after it. -/
def lineString? : List Char → Option (String × List Char)
  | '"' :: rest =>
    (basicBody? (rest.length + 1) rest).map fun (body, rest) => (String.ofList body, rest)
  | '\'' :: rest => (literalBody? rest).map fun (body, rest) => (String.ofList body, rest)
  | _ => none

/-- The string in any form at the head of a text, and the text after it. -/
def string? : List Char → Option (String × List Char)
  | '"' :: '"' :: '"' :: rest =>
    (linesBody? '"' true (rest.length + 1) (dropLineEnd rest)).map fun (body, rest) =>
      (String.ofList body, rest)
  | '\'' :: '\'' :: '\'' :: rest =>
    (linesBody? '\'' false (rest.length + 1) (dropLineEnd rest)).map fun (body, rest) =>
      (String.ofList body, rest)
  | text => lineString? text

/-- A character of numbers, dates, times and truth values. -/
def isWordChar (c : Char) : Bool :=
  c.isAlphanum || c = '_' || c = '+' || c = '-' || c = '.' || c = ':'

/-- The digits without the underscores between them, if the text consists of digits of the given
kind in which every underscore stands between two digits. -/
def digits? (isDigit : Char → Bool) : List Char → Option (List Char)
  | [] => none
  | [c] => if isDigit c then some [c] else none
  | c :: '_' :: rest =>
    if isDigit c then (digits? isDigit rest).map (c :: ·) else none
  | c :: rest => if isDigit c then (digits? isDigit rest).map (c :: ·) else none

/-- A whole number, if it fits 64 bits. -/
def int? (n : Int) : Option Toml :=
  if -(Nat.pow 2 63 : Int) ≤ n && n < (Nat.pow 2 63 : Int) then some (.int n) else none

/-- A whole number in a base with a marked beginning. -/
def based? (base : Nat) (isDigit : Char → Bool) (text : List Char) : Option Toml :=
  match digits? isDigit text with
  | none => none
  | some digits =>
    int? (digits.foldl (fun n c => n * base + (Json.hexValue? c).getD 0) 0 : Nat)

/-- The digits of a whole part: no zero stands before another digit. -/
def whole? (text : List Char) : Option (List Char) :=
  match digits? Char.isDigit text with
  | some ('0' :: _ :: _) => none
  | other => other

/-- The sign at the head of a text, and the text after it. -/
def signed (text : List Char) : Bool × List Char :=
  match text with
  | '-' :: rest => (true, rest)
  | '+' :: rest => (false, rest)
  | rest => (false, rest)

/-- A float from its parts; one beyond the largest float is refused. -/
def float? (negative : Bool) (whole fraction : List Char) (exponent : Int) : Option Toml :=
  let x := Decimal.nearest (Decimal.valueOf (whole ++ fraction)) (exponent - fraction.length)
  if negative then some (.float (-x))
  else if FloatValue.isFinite x then some (.float x)
  else none

/-- The exponent of a float after its mark. -/
def power? (text : List Char) : Option Int :=
  let (negative, digits) := signed text
  (digits? Char.isDigit digits).map fun digits =>
    let magnitude : Int := Decimal.valueOf digits
    if negative then -magnitude else magnitude

/-- A character that marks an exponent. -/
def isPowerMark (c : Char) : Bool :=
  c = 'e' || c = 'E'

/-- A number in base ten. -/
def decimal? (text : List Char) : Option Toml :=
  let (negative, unsigned) := signed text
  if unsigned = ['i', 'n', 'f'] then
    some (.float (if negative then -(1.0 / 0.0) else 1.0 / 0.0))
  else if unsigned = ['n', 'a', 'n'] then some (.float (0.0 / 0.0))
  else
    let whole := unsigned.takeWhile fun c => c != '.' && !isPowerMark c
    match unsigned.dropWhile fun c => c != '.' && !isPowerMark c with
    | [] =>
      (whole? whole).bind fun digits =>
        let magnitude : Int := Decimal.valueOf digits
        int? (if negative then -magnitude else magnitude)
    | '.' :: rest =>
      let fraction := rest.takeWhile fun c => !isPowerMark c
      match whole? whole, digits? Char.isDigit fraction with
      | some whole, some fraction =>
        match rest.dropWhile fun c => !isPowerMark c with
        | [] => float? negative whole fraction 0
        | _ :: power => (power? power).bind fun power => float? negative whole fraction power
      | _, _ => none
    | _ :: power =>
      match whole? whole, power? power with
      | some whole, some power => float? negative whole [] power
      | _, _ => none

/-- The number of the days of a month. -/
def daysOf (year month : Nat) : Nat :=
  if month = 2 then
    if (year % 4 = 0 && year % 100 ≠ 0) || year % 400 = 0 then 29 else 28
  else if month = 4 || month = 6 || month = 9 || month = 11 then 30
  else 31

/-- The number that two digits write. -/
def twoDigits? (a b : Char) : Option Nat :=
  if a.isDigit && b.isDigit then some (Decimal.valueOf [a, b]) else none

/-- A date at the head of a text in its written form, and the text after it. -/
def date? : List Char → Option (List Char × List Char)
  | a :: b :: c :: d :: '-' :: e :: f :: '-' :: g :: h :: rest => do
    let century ← twoDigits? a b
    let year ← twoDigits? c d
    let month ← twoDigits? e f
    let day ← twoDigits? g h
    if 1 ≤ month && month ≤ 12 && 1 ≤ day && day ≤ daysOf (100 * century + year) month then
      some ([a, b, c, d, '-', e, f, '-', g, h], rest)
    else none
  | _ => none

/-- The fraction of a second in its written form: at most nine digits, none of them a last zero. -/
def fractionText (digits : List Char) : List Char :=
  match ((digits.take 9).reverse.dropWhile (· = '0')).reverse with
  | [] => []
  | kept => '.' :: kept

/-- A time at the head of a text in its written form, and the text after it. -/
def time? : List Char → Option (List Char × List Char)
  | a :: b :: ':' :: c :: d :: ':' :: e :: f :: rest => do
    let hour ← twoDigits? a b
    let minute ← twoDigits? c d
    let second ← twoDigits? e f
    if 23 < hour || 59 < minute || 60 < second then none
    else
      match rest with
      | '.' :: rest =>
        let (digits, rest) := Json.takeDigits rest
        if digits.isEmpty then none
        else some ([a, b, ':', c, d, ':', e, f] ++ fractionText digits, rest)
      | rest => some ([a, b, ':', c, d, ':', e, f], rest)
  | _ => none

/-- A distance from universal time, in its written form: nothing at all is one as well, and no
distance has a plus sign. -/
def offset? : List Char → Option (List Char)
  | [] => some []
  | ['Z'] => some ['Z']
  | ['z'] => some ['Z']
  | [sign, a, b, ':', c, d] => do
    let hour ← twoDigits? a b
    let minute ← twoDigits? c d
    if (sign = '+' || sign = '-') && hour ≤ 23 && minute ≤ 59 then
      some [if hour = 0 && minute = 0 then '+' else sign, a, b, ':', c, d]
    else none
  | _ => none

/-- A date with a time, or only one of them. -/
def moment? (text : List Char) : Option Toml :=
  match date? text with
  | some (date, []) => some (.moment (String.ofList date))
  | some (date, mark :: rest) =>
    if mark = 'T' || mark = 't' || mark = ' ' then
      match time? rest with
      | some (time, rest) =>
        (offset? rest).map fun offset => .moment (String.ofList (date ++ 'T' :: time ++ offset))
      | none => none
    else none
  | none =>
    match time? text with
    | some (time, []) => some (.moment (String.ofList time))
    | _ => none

/-- A word that is no string: a truth value, a number, or a date or time. -/
def word? (text : List Char) : Option Toml :=
  match text with
  | ['t', 'r', 'u', 'e'] => some (.bool true)
  | ['f', 'a', 'l', 's', 'e'] => some (.bool false)
  | '0' :: 'x' :: digits => based? 16 (fun c => (Json.hexValue? c).isSome) digits
  | '0' :: 'o' :: digits => based? 8 (fun c => '0' ≤ c && c ≤ '7') digits
  | '0' :: 'b' :: digits => based? 2 (fun c => c = '0' || c = '1') digits
  | text => (moment? text).or (decimal? text)

/-- The characters of a word at the head of a text, and the text after it.  A time may follow a date
after a blank. -/
def takeWord (text : List Char) : List Char × List Char :=
  let word := text.takeWhile isWordChar
  match date? word, text.dropWhile isWordChar with
  | some (_, []), ' ' :: rest =>
    let next := rest.takeWhile isWordChar
    if (time? next).isSome then (word ++ ' ' :: next, rest.dropWhile isWordChar)
    else (word, ' ' :: rest)
  | _, rest => (word, rest)

end Toml

end Parley
