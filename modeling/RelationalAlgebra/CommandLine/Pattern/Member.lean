import RelationalAlgebra.CommandLine.Pattern
import RelationalAlgebra.Text.Blank
import RelationalAlgebra.Text.Digit
import RelationalAlgebra.Text.Piece
/-!
# Characters and sets of a pattern

A backslash before a letter names characters or places; before any other ASCII character that is no digit it
takes away the special meaning.  A set stands between brackets and holds characters, ranges of them and
other sets; a circumflex right after the bracket negates it.
-/

namespace RelationalAlgebra.Pattern

/-- The text behind the blanks and comments at its start.  A comment ends with its line. -/
def dropComments (inComment : Bool) : List Char → List Char
  | [] => []
  | c :: cs =>
    if inComment then dropComments (c ≠ '\n') cs
    else if Text.isBlank c then dropComments false cs
    else if c = '#' then dropComments true cs
    else c :: cs

def skip (isSpaced : Bool) (cs : List Char) : List Char :=
  if isSpaced then dropComments false cs else cs

def hexadecimal? (isSpaced : Bool) : Nat → List Char → Option (List Char × List Char)
  | 0, cs => some ([], skip isSpaced cs)
  | count + 1, cs =>
    match skip isSpaced cs with
    | [] => none
    | c :: cs =>
      if Text.isDigitIn 16 c then
        (hexadecimal? isSpaced count cs).map fun (digits, rest) => (c :: digits, rest)
      else none

def numbered? (isSpaced : Bool) (count : Nat) (cs : List Char) : Option (Atom × List Char) :=
  (hexadecimal? isSpaced count cs).bind fun (digits, rest) =>
    (Text.numbered? digits).map fun c => (.literal ⟨c, count = 2⟩, rest)

def escaped? (c : Char) : Option Atom :=
  let literal (c : Char) : Atom := .literal ⟨c, false⟩
  match c with
  | 'a' => some (literal '\x07')
  | 'f' => some (literal '\x0c')
  | 'n' => some (literal '\n')
  | 'r' => some (literal '\r')
  | 't' => some (literal '\t')
  | 'v' => some (literal '\x0b')
  | 'd' | 's' | 'w' => some (.kind false)
  | 'D' | 'S' | 'W' => some (.kind true)
  | 'A' | 'z' => some .edge
  | 'b' | 'B' | '<' | '>' => some .wordEdge
  | c => if c.isAlphanum || 128 ≤ c.toNat then none else some (literal c)

def escape? (isSpaced : Bool) : List Char → Option (Atom × List Char)
  | [] => none
  | 'x' :: cs => numbered? isSpaced 2 cs
  | 'u' :: cs => numbered? isSpaced 4 cs
  | 'U' :: cs => numbered? isSpaced 8 cs
  | c :: cs => (escaped? c).map fun a => (a, cs)

def member? (isSpaced : Bool) : List Char → Option (Atom × List Char)
  | [] => none
  | '\\' :: cs => escape? isSpaced cs
  | c :: cs => some (.literal ⟨c, false⟩, cs)

namespace CharSet

def ofAtom? : Atom → Option CharSet
  | .literal l => some (literal l)
  | .kind negated => some (kind negated)
  | _ => none

def range? : Atom → Atom → Option CharSet
  | .literal low, .literal high =>
    if low.char.toNat ≤ high.char.toNat then some (range low high) else none
  | _, _ => none

/-- The character behind a hyphen that decides whether the hyphen makes a range.  Blanks and the sign of a
comment are passed over, but not the comment. -/
def ahead? (isSpaced : Bool) (cs : List Char) : Option Char :=
  if isSpaced then
    match Text.dropBlanks cs with
    | '#' :: rest => (Text.dropBlanks rest).head?
    | rest => rest.head?
  else cs.head?

/-- A range, or a single member; a hyphen before a bracket or another hyphen makes no range. -/
def rangeOrMember? (isSpaced : Bool) (cs : List Char) : Option (CharSet × List Char) :=
  match member? isSpaced cs with
  | none => none
  | some (low, rest) =>
    match skip isSpaced rest with
    | '-' :: rest =>
      if ahead? isSpaced rest = some ']' || ahead? isSpaced rest = some '-' then
        (ofAtom? low).map fun set => (set, '-' :: rest)
      else
        (member? isSpaced (skip isSpaced rest)).bind fun (high, rest) =>
          (range? low high).map fun set => (set, rest)
    | rest => (ofAtom? low).map fun set => (set, rest)

def classNames : List String :=
  ["alnum", "alpha", "ascii", "blank", "cntrl", "digit", "graph", "lower", "print", "punct", "space",
    "upper", "word", "xdigit"]

def class? : List Char → Option (CharSet × List Char)
  | ':' :: cs =>
    let (negated, cs) := match cs with
      | '^' :: cs => (true, cs)
      | cs => (false, cs)
    match Text.cutAt ':' cs with
    | some (name, ']' :: rest) =>
      if classNames.contains (String.ofList name) then some (named negated, rest) else none
    | _ => none
  | _ => none

/-- The hyphens at the start of a text, which are members, and what follows them. -/
def hyphens (isSpaced : Bool) : Nat → List Char → List CharSet × List Char
  | fuel + 1, '-' :: cs =>
    let (members, rest) := hyphens isSpaced fuel (skip isSpaced cs)
    (literal ⟨'-', false⟩ :: members, rest)
  | _, cs => ([], cs)

/-- What stands right behind the bracket that opens a set: whether the set is negated, its first members, and
the rest.  A closing bracket is a member if it comes first. -/
def opening (isSpaced : Bool) (cs : List Char) : Bool × List CharSet × List Char :=
  let (negated, cs) := match skip isSpaced cs with
    | '^' :: cs => (true, skip isSpaced cs)
    | cs => (false, cs)
  match cs with
  | ']' :: cs => (negated, [literal ⟨']', false⟩], skip isSpaced cs)
  | cs => (negated, hyphens isSpaced cs.length cs)

/-- The set up to the bracket that closes it, and what follows.  `members` were read since the last operator,
in reverse, and `left?` is the set before that operator.  `fuel` bounds the number of steps. -/
def upToBracket? (fuel : Nat) (isSpaced : Bool) (left? : Option CharSet) (members : List CharSet)
    (cs : List Char) : Option (CharSet × List Char) :=
  let right := ofList members.reverse
  let set := (left?.map fun left => combination left right).getD right
  match fuel with
  | 0 => none
  | fuel + 1 =>
    match skip isSpaced cs with
    | [] => none
    | ']' :: rest => some (set, rest)
    | '&' :: '&' :: rest | '-' :: '-' :: rest | '~' :: '~' :: rest =>
      upToBracket? fuel isSpaced (some set) [] rest
    | '[' :: rest =>
      match class? rest with
      | some (member, rest) => upToBracket? fuel isSpaced left? (member :: members) rest
      | none =>
        let (negated, first, rest) := opening isSpaced rest
        match upToBracket? fuel isSpaced none first.reverse rest with
        | none => none
        | some (inner, rest) =>
          upToBracket? fuel isSpaced left? (bracket negated inner :: members) rest
    | rest =>
      match rangeOrMember? isSpaced rest with
      | none => none
      | some (member, rest) => upToBracket? fuel isSpaced left? (member :: members) rest

def ofText? (isSpaced : Bool) (cs : List Char) : Option (CharSet × List Char) :=
  let (negated, first, rest) := opening isSpaced cs
  (upToBracket? (cs.length + 1) isSpaced none first.reverse rest).map fun (set, rest) =>
    (bracket negated set, rest)

end CharSet

end RelationalAlgebra.Pattern
