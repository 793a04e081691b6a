import Parley.Text.Basic
import Parley.Json.Basic

/-!
# Redaction

Secrets are taken out of values before they are logged: everything stored under
a key that names a secret, and in every text the word after `bearer`.
-/

set_option autoImplicit false

namespace Parley

namespace Redaction

/-- What stands in the place of a secret. -/
def mask : String :=
  "[REDACTED]"

/-- Words that mark a key as that of a secret. -/
def sensitiveWords : List String :=
  ["token", "password", "passwd", "secret", "signature", "apikey", "api_key", "authorization",
    "credential", "private_key", "privatekey"]

/-- The key contains one of the words, in any case of ASCII letters. -/
def isSensitive (key : String) : Bool :=
  let key := Text.asciiLower key.toList
  sensitiveWords.any fun word => Text.contains word.toList key

/-- The word `bearer` in any case of ASCII letters. -/
def isBearer (word : List Char) : Bool :=
  Text.asciiLower word = "bearer".toList

/-- The words with each one masked that stands right after `bearer`; a masked word announces no
other.  The flag tells that the word in front was `bearer`. -/
def maskWords : Bool → List (List Char) → List (List Char)
  | _, [] => []
  | announced, word :: words =>
    if announced && !word.isEmpty then mask.toList :: maskWords false words
    else word :: maskWords (isBearer word) words

/-- The text with the word after each `bearer` masked; words are what stands between blanks. -/
def text (s : String) : String :=
  onString (fun chars => Text.joinWith [' '] (maskWords false (Text.splitOn (· = ' ') chars))) s

mutual

/-- The value without secrets. -/
def value : Json → Json
  | .str s => .str (text s)
  | .arr items => .arr (valueItems items)
  | .obj fields => .obj (valueFields fields)
  | .null => .null
  | .bool b => .bool b
  | .num n => .num n

/-- The items of a list, each without secrets. -/
def valueItems : List Json → List Json
  | [] => []
  | item :: items => value item :: valueItems items

/-- The entries of an object, each without secrets. -/
def valueFields : List (String × Json) → List (String × Json)
  | [] => []
  | (key, v) :: fields =>
    (key, if isSensitive key then .str mask else value v) :: valueFields fields

end

end Redaction

end Parley
