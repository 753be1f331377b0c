import RelationalAlgebra.Environment
import RelationalAlgebra.Query.Parameter
import RelationalAlgebra.Query.Tree
import RelationalAlgebra.Relation.Algebra
/-!
# Plans

A plan is a query whose parameters have been read.  `Tree.plan` reads them, `Plan.run` computes the
relation, and `Plan.explain` shows the plan, one operator a line.
-/

namespace RelationalAlgebra.Query

inductive Plan where
  | scan (name : String)
  | selection (clause : Predicate.Clause) (input : Plan)
  | projection (names : List String) (input : Plan)
  | rename (map : Renaming) (input : Plan)
  | binary (operator : Binary) (left right : Plan)
deriving DecidableEq

def Unary.plan (op : Unary) (parameter : String) (input : Plan) : Except Failure Plan :=
  match op with
  | .selection => (Relation.clause? parameter).map fun clause => .selection clause input
  | .projection => ((Projection.ofText? parameter).map (Plan.projection · input)).mapError .parse
  | .rename => ((Renaming.ofText? parameter).map (Plan.rename · input)).mapError .parse

/-- Reads all parameters of a query, those of the operands first. -/
def Tree.plan : Tree → Except Failure Plan
  | relation name => .ok (.scan name)
  | unary op parameter operand =>
    match operand.plan with
    | .error failure => .error failure
    | .ok input => op.plan parameter input
  | binary op left right =>
    match left.plan with
    | .error failure => .error failure
    | .ok left => right.plan.map (.binary op left)

namespace Plan

def run (env : Environment) : Plan → Except Failure Relation
  | scan name => env.find name
  | selection clause input =>
    match input.run env with
    | .error failure => .error failure
    | .ok r => r.filter clause
  | projection names input =>
    match input.run env with
    | .error failure => .error failure
    | .ok r => (r.projection names).mapError .schema
  | rename map input =>
    match input.run env with
    | .error failure => .error failure
    | .ok r => (r.rename map).mapError .schema
  | binary op left right =>
    match left.run env with
    | .error failure => .error failure
    | .ok a =>
      match right.run env with
      | .error failure => .error failure
      | .ok b => (a.apply op b).mapError .schema

def name : Plan → String
  | scan _ => "Scan"
  | selection .. => Unary.selection.name
  | projection .. => Unary.projection.name
  | rename .. => Unary.rename.name
  | binary op _ _ => op.name

def property : Plan → String × String
  | scan name => ("relation", name)
  | selection clause _ => ("predicate", clause.source)
  | projection names _ => ("attributes", Projection.write names)
  | rename map _ => ("map", map.write)
  | binary op _ _ => ("symbol", op.symbol.toString)

def line (depth : Nat) (p : Plan) : String :=
  "".pushn ' ' (2 * depth) ++ p.name ++ " [" ++ p.property.1 ++ "=" ++ p.property.2 ++ "]\n"

def explainAt (depth : Nat) : Plan → String
  | scan name => line depth (scan name)
  | selection clause input => line depth (selection clause input) ++ input.explainAt (depth + 1)
  | projection names input => line depth (projection names input) ++ input.explainAt (depth + 1)
  | rename map input => line depth (rename map input) ++ input.explainAt (depth + 1)
  | binary op left right =>
    line depth (binary op left right) ++ left.explainAt (depth + 1) ++ right.explainAt (depth + 1)

def explain (p : Plan) : String := p.explainAt 0

end Plan

def Tree.eval (env : Environment) (t : Tree) : Except Failure Relation :=
  match t.plan with
  | .error failure => .error failure
  | .ok p => p.run env

end RelationalAlgebra.Query
