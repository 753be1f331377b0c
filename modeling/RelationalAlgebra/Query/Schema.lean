import RelationalAlgebra.Environment
import RelationalAlgebra.Query.Parameter
import RelationalAlgebra.Query.Tree
/-!
# Schemas of queries

The attributes of the result of a query, found without computing any row.
-/

namespace RelationalAlgebra.Query.Tree

def joinNames (op : Binary) (left right : List String) : List String :=
  match op with
  | .product => left ++ right
  | .union | .intersection | .difference => left
  | .division => left.filter fun n => !right.contains n
  | .join | .leftJoin | .rightJoin | .fullJoin => left ++ right.filter fun n => !left.contains n

/-- The attributes of a query's result, in order. -/
def schema (env : Environment) : Tree → Except Failure (List String)
  | relation name => (env.find name).map Relation.names
  | unary op parameter operand =>
    match operand.schema env with
    | .error failure => .error failure
    | .ok names =>
      match op with
      | .selection => .ok names
      | .projection => (Projection.ofText? parameter).mapError .parse
      | .rename => ((Renaming.ofText? parameter).map fun r => names.map r.apply).mapError .parse
  | binary op left right =>
    match left.schema env with
    | .error failure => .error failure
    | .ok leftNames => (right.schema env).map (joinNames op leftNames)

end RelationalAlgebra.Query.Tree
