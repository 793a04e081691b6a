import Parley.Text.Basic

/-!
# Comparing words without regard to case

Words typed by a user are compared with words of a fixed vocabulary in lower
case.  The vocabulary is written in letters of Latin-1, so a character matters
only if its lower-case form is one of these: the capitals of ASCII and Latin-1,
two capitals beyond it, the Kelvin sign and the Ångström sign.  Every other
character is left as it is, which never makes it equal to a letter of the
vocabulary.
-/

set_option autoImplicit false

namespace Parley

namespace Text

/-- The lower-case form of a character, where that form is a letter of Latin-1. -/
def lowerChar (c : Char) : Char :=
  if c.isUpper then c.toLower
  else if (0xC0 ≤ c.toNat && c.toNat ≤ 0xDE) && c.toNat != 0xD7 then Char.ofNat (c.toNat + 0x20)
  else if c.toNat = 0x0178 then 'ÿ'
  else if c.toNat = 0x1E9E then 'ß'
  else if c.toNat = 0x212A then 'k'
  else if c.toNat = 0x212B then 'å'
  else c

/-- The text in lower case, as far as a comparison with Latin words can tell. -/
def lower (text : List Char) : List Char :=
  text.map lowerChar

end Text

end Parley
