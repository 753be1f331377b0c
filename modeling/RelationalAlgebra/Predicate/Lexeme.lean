import RelationalAlgebra.Name
import RelationalAlgebra.Number.Whole
import RelationalAlgebra.Predicate.Fault
import RelationalAlgebra.Text.Blank
import RelationalAlgebra.Text.Offset
/-!
# Lexemes of predicates

A lexeme is a token and the place it has in the text, in bytes.  `Lexeme.scan` splits a text into
lexemes; blanks separate them and belong to none.
-/

namespace RelationalAlgebra.Predicate

structure Lexeme where
  token : Token
  start : Nat
  stop : Nat
deriving DecidableEq

namespace Lexeme

def unescape : Char → Char
  | 'n' => '\n'
  | 't' => '\t'
  | 'r' => '\r'
  | c => c

/-- The content of a literal after its opening quote, and the number of characters up to its closing
quote, which is counted. -/
def literal? (quote : Char) : List Char → Option (List Char × Nat)
  | [] => none
  | '\\' :: c :: cs => (literal? quote cs).map fun (text, n) => (unescape c :: text, n + 2)
  | c :: cs =>
    if c = '\\' then none
    else if c = quote then some ([], 1)
    else (literal? quote cs).map fun (text, n) => (c :: text, n + 1)

/-- The longest symbol at the start of a text, and the number of its characters after the first. -/
def symbol? (c : Char) (next : Option Char) : Option (Symbol × Nat) :=
  match c, next with
  | '=', some '=' => some (.equal, 1)
  | '=', _ => some (.equal, 0)
  | '!', some '=' => some (.notEqual, 1)
  | '<', some '=' => some (.lessEqual, 1)
  | '<', _ => some (.less, 0)
  | '>', some '=' => some (.greaterEqual, 1)
  | '>', _ => some (.greater, 0)
  | '+', _ => some (.plus, 0)
  | '-', _ => some (.minus, 0)
  | '*', _ => some (.star, 0)
  | '/', some '/' => some (.doubleSlash, 1)
  | '/', _ => some (.slash, 0)
  | '%', _ => some (.percent, 0)
  | '(', _ => some (.openParen, 0)
  | ')', _ => some (.closeParen, 0)
  | '.', _ => some (.dot, 0)
  | _, _ => none

def word (cs : List Char) : Token :=
  let w := String.ofList cs
  match Keyword.ofWord? w with
  | some k => .keyword k
  | none => .name w

def fractionOf : List Char → List Char
  | '.' :: rest => rest.takeWhile Text.isDigit
  | _ => []

def number (c : Char) (cs : List Char) : Except Fault (Token × Nat) :=
  let whole := c :: cs.takeWhile Text.isDigit
  let fraction := fractionOf (cs.dropWhile Text.isDigit)
  if fraction = [] then
    match Whole.fit? (Text.natValue whole) with
    | some v => .ok (.int v, whole.length - 1)
    | none => .error (.badNumber (String.ofList whole))
  else
    let x := Binary64.ofDecimal false (Text.natValue (whole ++ fraction)) (-(fraction.length : Int))
    .ok (.float x, whole.length + fraction.length)

/-- The token that starts with the character `c`, which is no blank, and the number of its characters
after `c`. -/
def first (offset : Nat) (c : Char) (cs : List Char) : Except Fault (Token × Nat) :=
  if Name.isStart c then
    let tail := cs.takeWhile Name.isPart
    .ok (word (c :: tail), tail.length)
  else if Text.isDigit c then number c cs
  else if c = '\'' ∨ c = '"' then
    match literal? c cs with
    | some (text, n) => .ok (.text (String.ofList text), n)
    | none => .error (.unterminatedText offset)
  else
    match symbol? c cs.head? with
    | some (s, n) => .ok (.symbol s, n)
    | none => .error (.unexpectedChar c offset)

/-- The lexemes of a text that starts at `offset`, the first `skip` characters of which belong to a
lexeme already read. -/
def scanFrom (offset skip : Nat) : List Char → Except Fault (List Lexeme)
  | [] => .ok []
  | c :: cs =>
    match skip with
    | n + 1 => scanFrom (offset + c.utf8Size) n cs
    | 0 =>
      if Text.isBlank c then scanFrom (offset + c.utf8Size) 0 cs
      else
        match first offset c cs with
        | .error fault => .error fault
        | .ok (token, n) =>
          let stop := offset + c.utf8Size + Text.byteSize (cs.take n)
          (scanFrom (offset + c.utf8Size) n cs).map (⟨token, offset, stop⟩ :: ·)

def scan (text : List Char) : Except Fault (List Lexeme) := scanFrom 0 0 text

def isSymbol (l : Lexeme) (s : Symbol) : Bool := l.token = .symbol s

def isKeyword (l : Lexeme) (k : Keyword) : Bool := l.token = .keyword k

end Lexeme

end RelationalAlgebra.Predicate
