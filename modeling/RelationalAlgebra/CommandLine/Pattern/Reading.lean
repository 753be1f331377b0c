import RelationalAlgebra.CommandLine.Pattern.Member
import RelationalAlgebra.Text.Letter
/-!
# Reading patterns

A pattern is a choice of branches between bars, a branch a sequence of items, and an item a character, a
place, a set or a group in parentheses, with signs of repetition behind it.  Counts of repetitions are not
read, since the braces that they need are never part of the value of a field.
-/

namespace RelationalAlgebra.Pattern

def switchLetters : List Char := ['i', 'm', 's', 'U', 'u', 'R', 'x']

/-- Letters of switches, each at most once; those behind a hyphen are switched off. -/
def switches? (cs : List Char) : Option (List Switch) :=
  let known := cs.all fun c => c = '-' || switchLetters.contains c
  if known && decide cs.Nodup && cs.getLast? ≠ some '-' then
    let (on, off) := (Text.cutAt '-' cs).getD (cs, [])
    some (on.map (⟨·, true⟩) ++ off.map (⟨·, false⟩))
  else none

def name? (cs : List Char) : Option (String × List Char) :=
  match Text.cutAt '>' cs with
  | some (c :: name, rest) =>
    let isPart (c : Char) : Bool := ['_', '.', '[', ']'].contains c || Text.isAlphanumeric c
    if (c = '_' || Text.isAlphabetic c) && name.all isPart then
      some (String.ofList (c :: name), rest)
    else none
  | _ => none

inductive Beginning where
  | group (opening : Opening)
  | switches (switches : List Switch)

def Beginning.ofText? : List Char → Option (Beginning × List Char)
  | '?' :: 'P' :: '<' :: cs | '?' :: '<' :: cs =>
    (name? cs).map fun (name, rest) => (group (.named name), rest)
  | '?' :: cs =>
    let isLetter (c : Char) : Bool := c ≠ ':' && c ≠ ')'
    match switches? (cs.takeWhile isLetter), cs.dropWhile isLetter with
    | some found, ':' :: rest => some (group (.switched found), rest)
    | some found, ')' :: rest => if found = [] then none else some (switches found, rest)
    | _, _ => none
  | cs => some (group .plain, cs)

def item? (isSpaced : Bool) : List Char → Option (Pattern × List Char)
  | [] | '\x7b' :: _ => none
  | '[' :: cs => (CharSet.ofText? isSpaced cs).map fun (s, rest) => (oneOf s, rest)
  | '\\' :: cs => (escape? isSpaced cs).map fun (a, rest) => (atom a, rest)
  | '.' :: cs => some (atom .any, cs)
  | '^' :: cs | '$' :: cs => some (atom .edge, cs)
  | c :: cs => some (atom (.literal ⟨c, false⟩), cs)

/-- The choice up to the parenthesis that closes it or up to the end.  `items` were read since the last bar,
in reverse, and `branches` are what stands before it.  `fuel` bounds the number of steps. -/
def upToParenthesis? (fuel : Nat) (mode : Mode) (branches items : List Pattern) (cs : List Char) :
    Option (Pattern × List Char) :=
  let done := sequenceOf items.reverse :: branches
  match fuel with
  | 0 => none
  | fuel + 1 =>
    match skip mode.isSpaced cs with
    | [] => some (choiceOf done.reverse, [])
    | ')' :: rest => some (choiceOf done.reverse, ')' :: rest)
    | '|' :: rest => upToParenthesis? fuel mode done [] rest
    | '(' :: rest =>
      match Beginning.ofText? (skip mode.isSpaced rest) with
      | none => none
      | some (.switches found, rest) =>
        upToParenthesis? fuel (mode.apply found) branches (switches found :: items) rest
      | some (.group opening, rest) =>
        let inside := match opening with
          | .switched found => mode.apply found
          | _ => mode
        match upToParenthesis? fuel inside [] [] rest with
        | some (p, ')' :: rest) =>
          upToParenthesis? fuel mode branches (group opening p :: items) rest
        | _ => none
    | c :: rest =>
      if ['?', '*', '+'].contains c then
        match items with
        | [] => none
        | item :: items =>
          let rest := match rest with
            | '?' :: rest => rest
            | rest => rest
          if item.isRepeatable then
            upToParenthesis? fuel mode branches (repetition item :: items) rest
          else none
      else
        match item? mode.isSpaced (c :: rest) with
        | none => none
        | some (item, rest) => upToParenthesis? fuel mode branches (item :: items) rest

def ofText? (cs : List Char) : Option Pattern :=
  match upToParenthesis? (cs.length + 1) {} [] [] cs with
  | some (p, []) => some p
  | _ => none

end RelationalAlgebra.Pattern
