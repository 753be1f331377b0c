import RelationalAlgebra.Number.Decimal
import RelationalAlgebra.Text.Digit
import RelationalAlgebra.Text.Quoted
/-!
# JSON

JSON values, their reading and their writing without spaces.  A string literal that denotes no text,
because it holds one half of a surrogate pair, is kept as such: it is a fault only where a text is
wanted.
-/

namespace RelationalAlgebra

namespace Json

structure Numeral where
  negative : Bool
  whole : List Char
  fraction : List Char
  exponent : Option (Bool × List Char)
deriving DecidableEq

end Json

inductive Json where
  | null
  | bool (value : Bool)
  | number (value : Json.Numeral)
  | text (value : Option String)
  | list (items : List Json)
  | object (members : List (Option String × Json))

namespace Json

def isSpace (c : Char) : Bool := c = ' ' || c = '\n' || c = '\t' || c = '\r'

def skip (cs : List Char) : List Char := cs.dropWhile isSpace

def unit? (a b c d : Char) : Option Nat :=
  match Text.digitValue? a, Text.digitValue? b, Text.digitValue? c, Text.digitValue? d with
  | some a, some b, some c, some d => some (((a * 16 + b) * 16 + c) * 16 + d)
  | _, _, _, _ => none

/-- A character of a literal, or a code unit that may be half of one. -/
inductive Piece where
  | char (c : Char)
  | unit (n : Nat)

def escape? : Char → Option Char
  | '"' => some '"'
  | '\\' => some '\\'
  | '/' => some '/'
  | 'b' => some (Char.ofNat 8)
  | 'f' => some (Char.ofNat 12)
  | 'n' => some '\n'
  | 'r' => some '\r'
  | 't' => some '\t'
  | _ => none

/-- The pieces of a literal after its opening quote, and what follows its closing quote. -/
def literal? : List Char → Option (List Piece × List Char)
  | [] => none
  | '"' :: cs => some ([], cs)
  | '\\' :: 'u' :: a :: b :: c :: d :: cs =>
    match unit? a b c d, literal? cs with
    | some n, some (ps, rest) => some (.unit n :: ps, rest)
    | _, _ => none
  | '\\' :: c :: cs =>
    match escape? c, literal? cs with
    | some c, some (ps, rest) => some (.char c :: ps, rest)
    | _, _ => none
  | c :: cs =>
    if c = '\\' || c.toNat < 32 then none
    else (literal? cs).map fun (ps, rest) => (.char c :: ps, rest)

/-- The characters that pieces denote; two code units may be one character. -/
def pieceText? : List Piece → Option (List Char)
  | [] => some []
  | .char c :: ps => (pieceText? ps).map (c :: ·)
  | .unit n :: ps =>
    if n < 0xD800 || 0xE000 ≤ n then (pieceText? ps).map (Char.ofNat n :: ·)
    else if 0xDC00 ≤ n then none
    else
      match ps with
      | .unit m :: ps =>
        if 0xDC00 ≤ m && m < 0xE000 then
          (pieceText? ps).map (Char.ofNat ((n - 0xD800) * 0x400 + (m - 0xDC00) + 0x10000) :: ·)
        else none
      | _ => none

/-- Digits with an optional fraction and an optional exponent; a zero starts no longer number. -/
def numeral? (negative : Bool) (cs : List Char) : Option (Numeral × List Char) :=
  let whole := cs.takeWhile Text.isDigit
  let rest := cs.dropWhile Text.isDigit
  if whole = [] || (whole.head? = some '0' && 1 < whole.length) then none
  else
    let (fraction, rest, pointed) := match rest with
      | '.' :: rest => (rest.takeWhile Text.isDigit, rest.dropWhile Text.isDigit, true)
      | rest => ([], rest, false)
    if pointed && fraction = [] then none
    else
      match rest with
      | c :: tail =>
        if c = 'e' || c = 'E' then
          let (neg, body) := Text.sign tail
          let digits := body.takeWhile Text.isDigit
          if digits = [] then none
          else some (⟨negative, whole, fraction, some (neg, digits)⟩, body.dropWhile Text.isDigit)
        else some (⟨negative, whole, fraction, none⟩, rest)
      | [] => some (⟨negative, whole, fraction, none⟩, [])

mutual

/-- The value at the start of a text without spaces before it.  `fuel` bounds the number of steps. -/
def value? (fuel : Nat) (cs : List Char) : Option (Json × List Char) :=
  match fuel with
  | 0 => none
  | fuel + 1 =>
    match cs with
    | 'n' :: 'u' :: 'l' :: 'l' :: rest => some (.null, rest)
    | 't' :: 'r' :: 'u' :: 'e' :: rest => some (.bool true, rest)
    | 'f' :: 'a' :: 'l' :: 's' :: 'e' :: rest => some (.bool false, rest)
    | '"' :: rest => (literal? rest).map fun (ps, rest) =>
        (.text ((pieceText? ps).map String.ofList), rest)
    | '[' :: rest =>
      match skip rest with
      | ']' :: rest => some (.list [], rest)
      | rest => (items? fuel rest).map fun (items, rest) => (.list items, rest)
    | '\x7b' :: rest =>
      match skip rest with
      | '\x7d' :: rest => some (.object [], rest)
      | rest => (members? fuel rest).map fun (members, rest) => (.object members, rest)
    | '-' :: rest => (numeral? true rest).map fun (n, rest) => (.number n, rest)
    | cs => (numeral? false cs).map fun (n, rest) => (.number n, rest)

def items? (fuel : Nat) (cs : List Char) : Option (List Json × List Char) :=
  match fuel with
  | 0 => none
  | fuel + 1 =>
    match value? fuel cs with
    | none => none
    | some (item, rest) =>
      match skip rest with
      | ']' :: rest => some ([item], rest)
      | ',' :: rest => (items? fuel (skip rest)).map fun (items, rest) => (item :: items, rest)
      | _ => none

def members? (fuel : Nat) (cs : List Char) : Option (List (Option String × Json) × List Char) :=
  match fuel with
  | 0 => none
  | fuel + 1 =>
    match cs with
    | '"' :: cs =>
      match literal? cs with
      | none => none
      | some (ps, rest) =>
        let key := (pieceText? ps).map String.ofList
        match skip rest with
        | ':' :: rest =>
          match value? fuel (skip rest) with
          | none => none
          | some (item, rest) =>
            match skip rest with
            | '\x7d' :: rest => some ([(key, item)], rest)
            | ',' :: rest =>
              (members? fuel (skip rest)).map fun (ms, rest) => ((key, item) :: ms, rest)
            | _ => none
        | _ => none
    | _ => none

end

/-- Reads a text that is one value with spaces around it.  Each step takes a character or passes to a
part of a value, so twice as many steps as characters are enough. -/
def ofText? (text : List Char) : Option Json :=
  match value? (2 * text.length + 2) (skip text) with
  | some (value, rest) => if skip rest = [] then some value else none
  | none => none

def depth : Json → Nat
  | list items => depthOfItems items + 1
  | object members => depthOfMembers members + 1
  | _ => 0
where
  depthOfItems : List Json → Nat
    | [] => 0
    | item :: items => max item.depth (depthOfItems items)
  depthOfMembers : List (Option String × Json) → Nat
    | [] => 0
    | (_, item) :: members => max item.depth (depthOfMembers members)

end Json

end RelationalAlgebra
