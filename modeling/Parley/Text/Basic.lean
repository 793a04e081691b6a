/-!
# Text as a list of characters

Searching, trimming, cutting and replacing on `List Char`.  Every function here
is structural in the text, and none of them looks at a position by number.
White space is the Unicode property `White_Space`.
-/

set_option autoImplicit false

namespace Parley

namespace Text

/-- The characters with the Unicode property `White_Space`, as inclusive ranges of code points. -/
def blankRanges : List (Nat × Nat) :=
  [(0x09, 0x0D), (0x20, 0x20), (0x85, 0x85), (0xA0, 0xA0), (0x1680, 0x1680), (0x2000, 0x200A),
    (0x2028, 0x2029), (0x202F, 0x202F), (0x205F, 0x205F), (0x3000, 0x3000)]

/-- A character is blank if it lies in one of the ranges of `White_Space`. -/
def isBlank (c : Char) : Bool :=
  blankRanges.any fun range => range.1 ≤ c.toNat && c.toNat ≤ range.2

/-- The text without its leading blanks. -/
def trimStart (text : List Char) : List Char :=
  text.dropWhile isBlank

/-- The text without its trailing blanks. -/
def trimEnd (text : List Char) : List Char :=
  (text.reverse.dropWhile isBlank).reverse

/-- The text without leading and trailing blanks. -/
def trim (text : List Char) : List Char :=
  trimEnd (trimStart text)

/-- What follows `head`, if the text starts with it. -/
def after? : (head text : List Char) → Option (List Char)
  | [], text => some text
  | _ :: _, [] => none
  | h :: head, c :: text => if h = c then after? head text else none

/-- The text contains `part` as consecutive characters. -/
def contains (part : List Char) : List Char → Bool
  | [] => part.isEmpty
  | c :: text => part.isPrefixOf (c :: text) || contains part text

/-- `replaceAfter old new n text` replaces `old` by `new` from left to right, once the first `n`
characters, which belong to an occurrence already replaced, have been passed over. -/
def replaceAfter (old new : List Char) : Nat → List Char → List Char
  | _, [] => []
  | n + 1, _ :: text => replaceAfter old new n text
  | 0, c :: text =>
    if old.isPrefixOf (c :: text) then new ++ replaceAfter old new (old.length - 1) text
    else c :: replaceAfter old new 0 text

/-- Every occurrence of `old`, found from left to right without overlap, replaced by `new`.
`old` is not empty. -/
def replace (old new text : List Char) : List Char :=
  replaceAfter old new 0 text

/-- The pieces between the characters that satisfy `cut`; there is always at least one piece. -/
def splitOn (cut : Char → Bool) : List Char → List (List Char)
  | [] => [[]]
  | c :: text =>
    match splitOn cut text with
    | [] => [[c]]
    | piece :: pieces => if cut c then [] :: piece :: pieces else (c :: piece) :: pieces

/-- The pieces put one after another with `separator` between neighbours. -/
def joinWith (separator : List Char) : List (List Char) → List Char
  | [] => []
  | [piece] => piece
  | piece :: pieces => piece ++ separator ++ joinWith separator pieces

/-- The text in lower case, for the letters `A` to `Z` only. -/
def asciiLower (text : List Char) : List Char :=
  text.map Char.toLower

/-- The text in upper case, for the letters `a` to `z` only. -/
def asciiUpper (text : List Char) : List Char :=
  text.map Char.toUpper

/-- A letter or digit of ASCII. -/
def isAsciiAlphanumeric (c : Char) : Bool :=
  c.isAlphanum

end Text

/-- A function on texts, applied to a string. -/
def onString (f : List Char → List Char) (s : String) : String :=
  String.ofList (f s.toList)

/-- The string without leading and trailing blanks. -/
def trimmed (s : String) : String :=
  onString Text.trim s

/-- The string contains `part` as consecutive characters. -/
def mentions (part s : String) : Bool :=
  Text.contains part.toList s.toList

/-- The strings put one after another with `separator` between neighbours. -/
def joined (separator : String) (parts : List String) : String :=
  String.ofList (Text.joinWith separator.toList (parts.map String.toList))

end Parley
