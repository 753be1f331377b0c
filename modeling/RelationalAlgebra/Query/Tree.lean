import RelationalAlgebra.Name
import RelationalAlgebra.Query.Operator
import RelationalAlgebra.Text.Quoted
/-!
# Trees of queries

A query is a tree of operators over names of relations.  The parameter of an operator is kept as its
text.  `Tree.write` prints a tree so that it can be read again.
-/

namespace RelationalAlgebra.Query

inductive Tree where
  | relation (name : String)
  | unary (operator : Unary) (parameter : String) (operand : Tree)
  | binary (operator : Binary) (left right : Tree)
deriving DecidableEq

namespace Tree

abbrev selection (predicate : String) (operand : Tree) : Tree := unary .selection predicate operand

abbrev projection (list : String) (operand : Tree) : Tree := unary .projection list operand

abbrev rename (entries : String) (operand : Tree) : Tree := unary .rename entries operand

def isBinary : Tree → Bool
  | binary .. => true
  | _ => false

/-- The text of a query.  A right operand that is no name and has no parameter needs parentheses. -/
def write : Tree → String
  | relation name => name
  | unary op parameter operand =>
    op.symbol.toString ++ " " ++ parameter ++ " (" ++ operand.write ++ ")"
  | binary op left right =>
    left.write ++ op.symbol.toString ++
      (if right.isBinary then "(" ++ right.write ++ ")" else right.write)

def bracketed : Tree → String
  | relation name => s!"(rel {name})"
  | unary op parameter operand =>
    "(" ++ op.tag ++ " " ++ Text.quoted parameter ++ " " ++ operand.bracketed ++ ")"
  | binary op left right =>
    "(" ++ op.symbol.toString ++ " " ++ left.bracketed ++ " " ++ right.bracketed ++ ")"

def leaves : Tree → List String
  | relation name => [name]
  | unary _ _ operand => operand.leaves
  | binary _ left right => left.leaves ++ right.leaves

/-- The names of the relations of a query, sorted, each once. -/
def relations (t : Tree) : List String := Name.sorted t.leaves

end Tree

end RelationalAlgebra.Query
