import Parley.Text.Fold
import Parley.Expr.Coercion

/-!
# The functions of expressions

The only functions that an expression may call: the present time, and the
ticker symbol of a cryptocurrency named in a text.
-/

set_option autoImplicit false

namespace Parley

/-- A function that expressions may call. -/
inductive Function where
  /-- The present time. -/
  | currentTime
  /-- The ticker symbol of a cryptocurrency that a text names. -/
  | extractCryptoSymbol
  deriving DecidableEq, Repr

namespace Function

/-- The function with this name. -/
def ofName? (name : String) : Option Function :=
  if name = "currentTime" then some currentTime
  else if name = "extractCryptoSymbol" then some extractCryptoSymbol
  else none

/-- The name is that of a function. -/
def isAllowed (name : String) : Bool :=
  (ofName? name).isSome

/-- Cryptocurrencies and their ticker symbols. -/
def tickers : List (String × String) :=
  [("bitcoin", "BTC"), ("ethereum", "ETH"), ("solana", "SOL"), ("cardano", "ADA"),
    ("dogecoin", "DOGE"), ("ripple", "XRP"), ("litecoin", "LTC"), ("polkadot", "DOT")]

/-- The symbol of the first currency in the table whose name occurs in the text in any case; else
the first word of the text that is a symbol in any case. -/
def tickerIn? (text : List Char) : Option String :=
  match tickers.find? (fun t => Text.contains t.1.toList (Text.lower text)) with
  | some (_, symbol) => some symbol
  | none =>
    let words := (Text.splitOn (fun c => !Text.isAsciiAlphanumeric c) text).map fun w =>
      String.ofList (Text.asciiUpper w)
    words.find? fun w => tickers.any fun t => t.2 = w

/-- The result of a call; `now` is the present time as text.  Arguments beyond the first one are
ignored. -/
def apply (now : String) (f : Function) (args : List Json) : Json :=
  match f with
  | currentTime => .str now
  | extractCryptoSymbol =>
    Json.strOrNull (tickerIn? ((args.head?.map Json.display).getD "").toList)

end Function

end Parley
