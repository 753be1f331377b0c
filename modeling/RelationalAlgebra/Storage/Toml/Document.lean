import RelationalAlgebra.Storage.Toml.Literal
import RelationalAlgebra.Storage.Toml.Numeral
import RelationalAlgebra.Text.Piece
/-!
# TOML documents

A document is a list of statements, each on a line of its own: headers of tables and assignments of values
to keys.  Headers of lists of tables are not read, and of numbers, dates and times no more is kept than
which of them they are.
-/

namespace RelationalAlgebra.Toml

inductive Value where
  | bool (value : Bool)
  | text (value : String)
  | number
  | moment
  | list (items : List Value)
  | table (entries : List (List String × Value))

inductive Statement where
  | header (path : List String)
  | assign (path : List String) (value : Value)

/-- How many keys a path may have, and how many lists and tables may stand one in the other. -/
def nestingLimit : Nat := 79

namespace Value

def depth : Value → Nat
  | list items => depthOfItems items + 1
  | table entries => depthOfEntries entries + 1
  | _ => 0
where
  depthOfItems : List Value → Nat
    | [] => 0
    | item :: items => max item.depth (depthOfItems items)
  depthOfEntries : List (List String × Value) → Nat
    | [] => 0
    | (_, value) :: entries => max value.depth (depthOfEntries entries)

/-- Whether no two paths lead to the same value or one of them through the value of the other. -/
def areApart (paths : List (List String)) : Bool :=
  decide (paths.Pairwise fun a b => ¬ a.isPrefixOf b ∧ ¬ b.isPrefixOf a)

def isApart : Value → Bool
  | list items => itemsAreApart items
  | table entries => areApart (entries.map Prod.fst) && entriesAreApart entries
  | _ => true
where
  itemsAreApart : List Value → Bool
    | [] => true
    | item :: items => item.isApart && itemsAreApart items
  entriesAreApart : List (List String × Value) → Bool
    | [] => true
    | (_, value) :: entries => value.isApart && entriesAreApart entries

def isSound (v : Value) : Bool := v.depth ≤ nestingLimit && v.isApart

end Value

def spaces (cs : List Char) : List Char := cs.dropWhile isSpace

def isKeyPart (c : Char) : Bool := c.isAlphanum || c = '_' || c = '-'

def key? (cs : List Char) : Option (String × List Char) :=
  match cs with
  | '"' :: rest => (basic? rest).map fun (key, rest) => (String.ofList key, rest)
  | '\'' :: rest => (literal? rest).map fun (key, rest) => (String.ofList key, rest)
  | cs =>
    match cs.takeWhile isKeyPart with
    | [] => none
    | key => some (String.ofList key, cs.dropWhile isKeyPart)

/-- Keys with dots between them.  `fuel` bounds their number. -/
def keys? (fuel : Nat) (cs : List Char) : Option (List String × List Char) :=
  match fuel, key? cs with
  | 0, _ | _, none => none
  | fuel + 1, some (key, rest) =>
    match spaces rest with
    | '.' :: rest => (keys? fuel (spaces rest)).map fun (keys, rest) => (key :: keys, rest)
    | _ => some ([key], rest)

def path? (cs : List Char) : Option (List String × List Char) :=
  (keys? cs.length cs).filter fun (path, _) => path.length ≤ nestingLimit

def lineEnd? (cs : List Char) : Option (List Char) :=
  let rest := match spaces cs with
    | '#' :: comment => comment.dropWhile isPlain
    | rest => rest
  if rest = [] then some [] else newline? rest

def blankLines (fuel : Nat) (cs : List Char) : List Char :=
  match fuel with
  | 0 => cs
  | fuel + 1 =>
    match spaces cs, lineEnd? cs with
    | [], _ => []
    | _, some rest => blankLines fuel rest
    | rest, none => rest

def number? (cs : List Char) : Option (Value × List Char) :=
  match afterMoment? cs with
  | some rest => some (.moment, rest)
  | none => (afterNumber? cs).map fun rest => (.number, rest)

mutual

/-- The value at the start of a text.  `fuel` bounds the number of steps. -/
def value? (fuel : Nat) (cs : List Char) : Option (Value × List Char) :=
  match fuel with
  | 0 => none
  | fuel + 1 =>
    match cs with
    | 't' :: 'r' :: 'u' :: 'e' :: rest => some (.bool true, rest)
    | 'f' :: 'a' :: 'l' :: 's' :: 'e' :: rest => some (.bool false, rest)
    | '[' :: rest => (items? fuel (blankLines fuel rest)).map fun (items, rest) => (.list items, rest)
    | '\x7b' :: rest =>
      match spaces rest with
      | '\x7d' :: rest => some (.table [], rest)
      | rest => (entries? fuel rest).map fun (entries, rest) => (.table entries, rest)
    | cs =>
      match cs.head?.bind fun c => if c = '"' || c = '\'' then string? cs else none with
      | some (text, rest) => some (.text (String.ofList text), rest)
      | none => number? cs

def items? (fuel : Nat) (cs : List Char) : Option (List Value × List Char) :=
  match fuel with
  | 0 => none
  | fuel + 1 =>
    match cs with
    | ']' :: rest => some ([], rest)
    | cs =>
      match value? fuel cs with
      | none => none
      | some (item, rest) =>
        match blankLines fuel rest with
        | ']' :: rest => some ([item], rest)
        | ',' :: rest =>
          (items? fuel (blankLines fuel rest)).map fun (items, rest) => (item :: items, rest)
        | _ => none

def entries? (fuel : Nat) (cs : List Char) : Option (List (List String × Value) × List Char) :=
  match fuel with
  | 0 => none
  | fuel + 1 =>
    match assignment? fuel cs with
    | none => none
    | some (entry, rest) =>
      match spaces rest with
      | '\x7d' :: rest => some ([entry], rest)
      | ',' :: rest => (entries? fuel (spaces rest)).map fun (es, rest) => (entry :: es, rest)
      | _ => none

def assignment? (fuel : Nat) (cs : List Char) : Option ((List String × Value) × List Char) :=
  match fuel with
  | 0 => none
  | fuel + 1 =>
    match path? cs with
    | none => none
    | some (path, rest) =>
      match spaces rest with
      | '=' :: rest => (value? fuel (spaces rest)).map fun (value, rest) => ((path, value), rest)
      | _ => none

end

def statement? (cs : List Char) : Option (Statement × List Char) :=
  match cs with
  | '[' :: rest =>
    match path? (spaces rest) with
    | none => none
    | some (path, rest) =>
      match spaces rest with
      | ']' :: rest => (lineEnd? rest).map fun rest => (.header path, rest)
      | _ => none
  | cs =>
    match assignment? (3 * cs.length + 3) cs with
    | none => none
    | some ((path, value), rest) =>
      if value.isSound then (lineEnd? rest).map fun rest => (.assign path value, rest) else none

def statements? (fuel : Nat) (cs : List Char) : Option (List Statement) :=
  match fuel, blankLines fuel cs with
  | _, [] => some []
  | 0, _ => none
  | fuel + 1, cs =>
    match statement? cs with
    | none => none
    | some (statement, rest) => (statements? fuel rest).map (statement :: ·)

def document? (text : String) : Option (List Statement) :=
  let cs := match text.toList with
    | '\uFEFF' :: cs => cs
    | cs => cs
  statements? (cs.length + 1) cs

end RelationalAlgebra.Toml
