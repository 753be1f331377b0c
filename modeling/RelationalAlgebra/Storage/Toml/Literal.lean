import RelationalAlgebra.Storage.Json
/-!
# String literals of TOML

A string stands between double quotes, where a backslash escapes, or between single quotes, where all
characters stand for themselves.  Three quotes open a string of several lines: a newline right after them
is not part of it, and up to two quotes may stand right before the three that close it.
-/

namespace RelationalAlgebra.Toml

def isSpace (c : Char) : Bool := c = ' ' || c = '\t'

/-- The characters that may stand for themselves on a line: all but the control characters, and tabs. -/
def isPlain (c : Char) : Bool := c = '\t' || (32 ≤ c.toNat && c.toNat ≠ 127)

def newline? : List Char → Option (List Char)
  | '\n' :: cs => some cs
  | '\r' :: '\n' :: cs => some cs
  | _ => none

def push (c? : Option Char) (reading : Option (List Char × List Char)) :
    Option (List Char × List Char) :=
  match c?, reading with
  | some c, some (cs, rest) => some (c :: cs, rest)
  | _, _ => none

def escape? (c : Char) : Option Char := if c = '/' then none else Json.escape? c

def basic? : List Char → Option (List Char × List Char)
  | [] => none
  | '"' :: cs => some ([], cs)
  | '\\' :: 'u' :: a :: b :: c :: d :: cs => push (Text.numbered? [a, b, c, d]) (basic? cs)
  | '\\' :: 'U' :: a :: b :: c :: d :: e :: f :: g :: h :: cs =>
    push (Text.numbered? [a, b, c, d, e, f, g, h]) (basic? cs)
  | '\\' :: c :: cs => push (escape? c) (basic? cs)
  | c :: cs => if isPlain c && c ≠ '\\' then push (some c) (basic? cs) else none

def literal? : List Char → Option (List Char × List Char)
  | [] => none
  | '\'' :: cs => some ([], cs)
  | c :: cs => if isPlain c then push (some c) (literal? cs) else none

/-- The closing quotes at the start of a text: those that still belong to the string, and what follows. -/
def closing? (quote : Char) (cs : List Char) : Option (List Char × List Char) :=
  let run := (cs.takeWhile (· = quote)).length
  if run < 3 then none
  else
    let extra := min (run - 3) 2
    some (List.replicate extra quote, cs.drop (extra + 3))

/-- The lines up to the three double quotes that close them.  A backslash at the end of a line joins it to
the next character that is no space; `joining` says that this character is yet to come. -/
def longBasic? (joining : Bool) : List Char → Option (List Char × List Char)
  | [] => none
  | '\n' :: cs => if joining then longBasic? true cs else push (some '\n') (longBasic? false cs)
  | '\r' :: '\n' :: cs =>
    if joining then longBasic? true cs else push (some '\n') (longBasic? false cs)
  | '\\' :: 'u' :: a :: b :: c :: d :: cs =>
    push (Text.numbered? [a, b, c, d]) (longBasic? false cs)
  | '\\' :: 'U' :: a :: b :: c :: d :: e :: f :: g :: h :: cs =>
    push (Text.numbered? [a, b, c, d, e, f, g, h]) (longBasic? false cs)
  | '\\' :: c :: cs =>
    if (newline? ((c :: cs).dropWhile isSpace)).isSome then longBasic? true (c :: cs)
    else push (escape? c) (longBasic? false cs)
  | c :: cs =>
    match closing? '"' (c :: cs) with
    | some closed => some closed
    | none =>
      if joining && isSpace c then longBasic? true cs
      else if isPlain c && c ≠ '\\' then push (some c) (longBasic? false cs)
      else none

def longLiteral? : List Char → Option (List Char × List Char)
  | [] => none
  | '\n' :: cs => push (some '\n') (longLiteral? cs)
  | '\r' :: '\n' :: cs => push (some '\n') (longLiteral? cs)
  | c :: cs =>
    match closing? '\'' (c :: cs) with
    | some closed => some closed
    | none => if isPlain c then push (some c) (longLiteral? cs) else none

def firstLine (cs : List Char) : List Char := (newline? cs).getD cs

def string? : List Char → Option (List Char × List Char)
  | '"' :: '"' :: '"' :: cs => longBasic? false (firstLine cs)
  | '\'' :: '\'' :: '\'' :: cs => longLiteral? (firstLine cs)
  | '"' :: cs => basic? cs
  | '\'' :: cs => literal? cs
  | _ => none

end RelationalAlgebra.Toml
