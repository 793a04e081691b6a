import Parley.Text.Basic
import Parley.Text.Fold

/-!
# Commands

Words that every flow understands, in English and Spanish.
-/

set_option autoImplicit false

namespace Parley

/-- What the user can tell the engine. -/
inductive Command where
  /-- To give up the current flow. -/
  | cancel
  /-- To explain the current flow. -/
  | help
  /-- To report on the current flow. -/
  | status
  /-- To start the flow that waits for confirmation. -/
  | switch
  /-- To stay in the current flow. -/
  | stay
  deriving DecidableEq, Repr

namespace Command

/-- The commands and their words. -/
def words : List (Command × List String) :=
  [(cancel, ["cancel", "stop", "abort", "quit", "cancelar", "detener", "parar", "salir"]),
    (help, ["help", "ayuda"]),
    (status, ["status", "where am i", "estado", "donde estoy", "dónde estoy"]),
    (switch, ["switch", "yes, switch", "cambiar", "cambia"]),
    (stay, ["continue", "keep going", "continuar", "seguir", "sigue"])]

/-- A mark that may end a sentence. -/
def isSentenceEnd (c : Char) : Bool :=
  c = '.' || c = '!' || c = '?'

/-- The text without the marks at its end. -/
def dropSentenceEnd (text : List Char) : List Char :=
  (text.reverse.dropWhile isSentenceEnd).reverse

/-- The input as it is compared with the words: in lower case, without blanks and sentence marks
around it. -/
def normalized (input : String) : String :=
  onString (fun text => Text.lower (Text.trim (dropSentenceEnd (Text.trim text)))) input

/-- The command that an input gives. -/
def ofInput? (input : String) : Option Command :=
  (words.find? fun entry => entry.2.contains (normalized input)).map Prod.fst

end Command

end Parley
