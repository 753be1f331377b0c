import RelationalAlgebra.Number.Decimal
/-!
# Tokens of predicates

The words, literals and symbols that a predicate is made of, and their descriptions in messages.
-/

namespace RelationalAlgebra.Predicate

inductive Keyword where
  | and
  | or
  | not
  | true
  | false
deriving DecidableEq

namespace Keyword

def ofWord? : String → Option Keyword
  | "and" => some .and
  | "or" => some .or
  | "not" => some .not
  | "True" => some .true
  | "False" => some .false
  | _ => none

def name : Keyword → String
  | and => "And"
  | or => "Or"
  | not => "Not"
  | true => "True"
  | false => "False"

end Keyword

inductive Symbol where
  | equal
  | notEqual
  | less
  | lessEqual
  | greater
  | greaterEqual
  | plus
  | minus
  | star
  | slash
  | doubleSlash
  | percent
  | openParen
  | closeParen
  | dot
deriving DecidableEq

namespace Symbol

def name : Symbol → String
  | equal => "Eq"
  | notEqual => "Ne"
  | less => "Lt"
  | lessEqual => "Le"
  | greater => "Gt"
  | greaterEqual => "Ge"
  | plus => "Plus"
  | minus => "Minus"
  | star => "Star"
  | slash => "Slash"
  | doubleSlash => "SlashSlash"
  | percent => "Percent"
  | openParen => "LParen"
  | closeParen => "RParen"
  | dot => "Dot"

end Symbol

inductive Token where
  | name (name : String)
  | int (value : Int64)
  | float (value : Binary64)
  | text (value : String)
  | keyword (word : Keyword)
  | symbol (symbol : Symbol)
deriving DecidableEq

def Token.describe : Token → String
  | name n => s!"identifier '{n}'"
  | int v => "number " ++ toString v.toInt
  | float v => "number " ++ Layout.message.write v
  | text s => s!"string '{s}'"
  | keyword k => "keyword " ++ k.name
  | symbol s => s.name

end RelationalAlgebra.Predicate
