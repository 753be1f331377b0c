/-!
# Operators of queries

The three operators with a parameter and the nine infix operators.  All infix operators have one
precedence and associate to the left.
-/

namespace RelationalAlgebra.Query

inductive Unary where
  | selection
  | projection
  | rename
deriving DecidableEq

namespace Unary

def all : List Unary := [selection, projection, rename]

def symbol : Unary → Char
  | selection => 'σ'
  | projection => 'π'
  | rename => 'ρ'

def name : Unary → String
  | selection => "Selection"
  | projection => "Projection"
  | rename => "Rename"

def tag : Unary → String
  | selection => "sel"
  | projection => "proj"
  | rename => "ren"

def ofSymbol? (c : Char) : Option Unary := all.find? fun op => op.symbol = c

theorem ofSymbol?_symbol (op : Unary) : ofSymbol? op.symbol = some op := by
  cases op <;> decide

end Unary

inductive Binary where
  | product
  | difference
  | union
  | intersection
  | division
  | join
  | leftJoin
  | rightJoin
  | fullJoin
deriving DecidableEq

namespace Binary

def all : List Binary :=
  [product, difference, union, intersection, division, join, leftJoin, rightJoin, fullJoin]

def symbol : Binary → Char
  | product => '*'
  | difference => '-'
  | union => '∪'
  | intersection => '∩'
  | division => '÷'
  | join => '⋈'
  | leftJoin => '⧑'
  | rightJoin => '⧒'
  | fullJoin => '⧓'

/-- The texts that are read as an operator: its symbol, and an older spelling of some. -/
def spellings : Binary → List (List Char)
  | union => [['∪'], ['ᑌ']]
  | intersection => [['∩'], ['ᑎ']]
  | join => [['⋈'], ['ᐅ', 'ᐊ']]
  | leftJoin => [['⧑'], ['ᐅ', 'L', 'E', 'F', 'T', 'ᐊ']]
  | rightJoin => [['⧒'], ['ᐅ', 'R', 'I', 'G', 'H', 'T', 'ᐊ']]
  | fullJoin => [['⧓'], ['ᐅ', 'F', 'U', 'L', 'L', 'ᐊ']]
  | op => [[op.symbol]]

def name : Binary → String
  | product => "Product"
  | difference => "Difference"
  | union => "Union"
  | intersection => "Intersection"
  | division => "Division"
  | join => "Join"
  | leftJoin => "LeftOuterJoin"
  | rightJoin => "RightOuterJoin"
  | fullJoin => "FullOuterJoin"

def isSetOperator : Binary → Bool
  | union | intersection | difference => true
  | _ => false

/-- The operator at the start of a text, and the number of its characters.  No spelling is the start
of another, so at most one fits. -/
def atStart? (text : List Char) : Option (Binary × Nat) :=
  all.findSome? fun op =>
    (op.spellings.find? fun s => s.isPrefixOf text).map fun s => (op, s.length)

end Binary

end RelationalAlgebra.Query
