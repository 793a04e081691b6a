import Parley.Json.Reader
import Parley.Text.Basic

/-!
# Replies of the model

The model is asked for JSON and may wrap it in other text.
-/

set_option autoImplicit false

namespace Parley

namespace Reply

/-- The text from its first opening to its last closing brace. -/
def braced? (text : List Char) : Option (List Char) :=
  let fromOpening := text.dropWhile (· ≠ '\x7b')
  let body := (fromOpening.reverse.dropWhile (· ≠ '\x7d')).reverse
  if body.isEmpty then none else some body

/-- The value in a reply: what the whole reply writes, else what its braces hold. -/
def value? (reply : String) : Option Json :=
  let text := Text.trim reply.toList
  (Json.parse? text).or ((braced? text).bind Json.parse?)

end Reply

end Parley
