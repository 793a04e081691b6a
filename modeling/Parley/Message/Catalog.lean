import Parley.Table
import Parley.Text.Basic

/-!
# Messages of the engine

The texts that the engine itself shows to the user, in English and Spanish.  A
text that a language lacks is shown in English.  Names in braces are places for
arguments.
-/

set_option autoImplicit false

namespace Parley

/-- The occasions on which the engine speaks. -/
inductive Notice where
  | flowCompleted
  | flowNotFound
  | genericError
  | toolFailed
  | recursionLimit
  | resuming
  | cancelled
  | nothingToCancel
  | help
  | status
  | switchConfirm
  | continuing
  | guidance
  deriving DecidableEq, Repr

namespace Notice

/-- The key of a notice in the catalogs. -/
def key : Notice → String
  | flowCompleted => "flow_completed"
  | flowNotFound => "flow_not_found"
  | genericError => "generic_error"
  | toolFailed => "tool_failed"
  | recursionLimit => "recursion_limit"
  | resuming => "resuming"
  | cancelled => "cancelled"
  | nothingToCancel => "nothing_to_cancel"
  | help => "help"
  | status => "status"
  | switchConfirm => "switch_confirm"
  | continuing => "continuing"
  | guidance => "guidance"

/-- The English texts. -/
def english : Notice → String
  | flowCompleted => "All done. Is there anything else I can help you with?"
  | flowNotFound => "I couldn't find a process called \"\x7bflow\x7d\"."
  | genericError => "I encountered an error, please try again."
  | toolFailed =>
    "Sorry, I couldn't complete \x7btool\x7d, so I stopped \x7bflow\x7d. Please try again later."
  | recursionLimit => "That request went too many levels deep, so I stopped it. Please try again."
  | resuming => "Let's get back to \x7bflow\x7d."
  | cancelled => "Okay, I cancelled \x7bflow\x7d."
  | nothingToCancel => "There is nothing to cancel right now."
  | help => "You are in \x7bflow\x7d. \x7bdescription\x7d\n\x7bprompt\x7d"
  | status =>
    "Current process: \x7bflow\x7d. Steps remaining: \x7bremaining\x7d. Active processes: \x7bdepth\x7d."
  | switchConfirm =>
    "You're in the middle of \x7bflow\x7d. Say \"switch\" to start \x7btarget\x7d now, or \"continue\" to keep going."
  | continuing => "Okay, let's continue with \x7bflow\x7d."
  | guidance => "(Say \"cancel\" to stop or \"help\" for options.)"

/-- The Spanish texts. -/
def spanish : Notice → String
  | flowCompleted => "Listo. ¿Hay algo más en lo que pueda ayudarte?"
  | flowNotFound => "No encontré un proceso llamado \"\x7bflow\x7d\"."
  | genericError => "Ocurrió un error, por favor inténtalo de nuevo."
  | toolFailed =>
    "Lo siento, no pude completar \x7btool\x7d, así que detuve \x7bflow\x7d. Inténtalo más tarde."
  | recursionLimit =>
    "La solicitud tiene demasiados niveles, así que la detuve. Inténtalo de nuevo."
  | resuming => "Volvamos a \x7bflow\x7d."
  | cancelled => "De acuerdo, cancelé \x7bflow\x7d."
  | nothingToCancel => "No hay nada que cancelar ahora."
  | help => "Estás en \x7bflow\x7d. \x7bdescription\x7d\n\x7bprompt\x7d"
  | status =>
    "Proceso actual: \x7bflow\x7d. Pasos restantes: \x7bremaining\x7d. Procesos activos: \x7bdepth\x7d."
  | switchConfirm =>
    "Estás en medio de \x7bflow\x7d. Di \"cambiar\" para iniciar \x7btarget\x7d ahora, o \"continuar\" para seguir."
  | continuing => "De acuerdo, sigamos con \x7bflow\x7d."
  | guidance => "(Di \"cancelar\" para detener o \"ayuda\" para ver opciones.)"

/-- Every notice. -/
def all : List Notice :=
  [flowCompleted, flowNotFound, genericError, toolFailed, recursionLimit, resuming, cancelled,
    nothingToCancel, help, status, switchConfirm, continuing, guidance]

end Notice

/-- Message texts by language and key. -/
structure Catalog where
  /-- The texts of each language. -/
  texts : Table String (Table String String)
  deriving DecidableEq, Repr

namespace Catalog

/-- The language whose texts serve where another language has none. -/
def fallbackLanguage : String :=
  "en"

/-- The texts of the engine. -/
def standard : Catalog :=
  ⟨[("en", Notice.all.map fun n => (n.key, n.english)),
    ("es", Notice.all.map fun n => (n.key, n.spanish))]⟩

/-- The catalog with one text set. -/
def insert (language key text : String) (catalog : Catalog) : Catalog :=
  ⟨Table.set language (Table.set key text ((Table.get? language catalog.texts).getD []))
    catalog.texts⟩

/-- The text of a key in exactly this language. -/
def textIn? (catalog : Catalog) (language key : String) : Option String :=
  (Table.get? language catalog.texts).bind (Table.get? key)

/-- The text of a key: in the language, else in English, else the key itself. -/
def get (catalog : Catalog) (language key : String) : String :=
  ((catalog.textIn? language key).or (catalog.textIn? fallbackLanguage key)).getD key

/-- The place of an argument in a text. -/
def placeOf (name : String) : List Char :=
  '\x7b' :: (name.toList ++ ['\x7d'])

/-- The text with the places of the arguments filled in, one argument after another. -/
def fill (arguments : List (String × String)) (text : List Char) : List Char :=
  arguments.foldl (fun t a => Text.replace (placeOf a.1) a.2.toList t) text

/-- The text of a key with its arguments filled in. -/
def format (catalog : Catalog) (language key : String) (arguments : List (String × String)) :
    String :=
  onString (fill arguments) (catalog.get language key)

end Catalog

end Parley
