import RelationalAlgebra.Storage.Toml.Literal
import RelationalAlgebra.Text.Quoted
/-!
# Writing TOML strings

Of the ways to write a text, the first that needs no escape but that of tabs is taken: between double
quotes, between single quotes, and the two kinds of several lines.  Only a text that needs escapes in all of
them is written with them.
-/

namespace RelationalAlgebra.Toml

def longestRun (c : Char) (cs : List Char) : Nat :=
  let step (runs : Nat × Nat) (d : Char) :=
    if d = c then (max runs.1 (runs.2 + 1), runs.2 + 1) else (runs.1, 0)
  (cs.foldl step (0, 0)).1

def isControl (c : Char) : Bool := !isPlain c && c ≠ '\n'

inductive Style where
  | basic
  | literal
  | longBasic
  | longLiteral
deriving DecidableEq

namespace Style

def delimiter : Style → List Char
  | basic => ['"']
  | literal => ['\'']
  | longBasic => ['"', '"', '"']
  | longLiteral => ['\'', '\'', '\'']

def isLong : Style → Bool
  | longBasic | longLiteral => true
  | basic | literal => false

def escapes : Style → Bool
  | basic | longBasic => true
  | literal | longLiteral => false

def suits (style : Style) (cs : List Char) : Bool :=
  !cs.any isControl && (style.isLong || !cs.contains '\n') &&
    if style.escapes then !cs.contains '\\' && longestRun '"' cs ≤ (if style.isLong then 2 else 0)
    else longestRun '\'' cs ≤ (if style.isLong then 2 else 0)

def of (cs : List Char) : Style :=
  match [basic, literal, longBasic, longLiteral].find? fun style => style.suits cs with
  | some style => style
  | none => if cs.contains '\n' then longBasic else basic

end Style

def escaped (c : Char) : List Char :=
  if c = '\\' then ['\\', '\\']
  else if c = '\t' then ['\\', 't']
  else if isPlain c then [c]
  else if c = '\n' then ['\\', 'n']
  else if c = '\r' then ['\\', 'r']
  else if c.toNat = 8 then ['\\', 'b']
  else if c.toNat = 12 then ['\\', 'f']
  else
    let digit (n : Nat) := (Text.hexDigit n).toUpper
    ['\\', 'u', '0', '0', digit (c.toNat / 16), digit (c.toNat % 16)]

/-- The text between double quotes.  `run` is the number of quotes written right before, of which at most
`limit` may follow each other. -/
def escapeFrom (limit : Nat) (keepNewlines : Bool) (run : Nat) : List Char → List Char
  | [] => []
  | c :: cs =>
    if c = '"' then
      if run < limit then c :: escapeFrom limit keepNewlines (run + 1) cs
      else '\\' :: c :: escapeFrom limit keepNewlines 0 cs
    else if c = '\n' && keepNewlines then c :: escapeFrom limit keepNewlines 0 cs
    else escaped c ++ escapeFrom limit keepNewlines 0 cs

def writeText (text : String) : String :=
  let cs := text.toList
  let style := Style.of cs
  let body :=
    if style.escapes then escapeFrom (if style.isLong then 2 else 0) style.isLong 0 cs else cs
  let opening := if style.isLong && cs.contains '\n' then ['\n'] else []
  String.ofList (style.delimiter ++ opening ++ body ++ style.delimiter)

end RelationalAlgebra.Toml
