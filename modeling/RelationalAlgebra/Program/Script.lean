import RelationalAlgebra.Program.Step
import RelationalAlgebra.Query.Tree.Reading
import RelationalAlgebra.Rewrite.Optimizer
import RelationalAlgebra.Text.Piece
/-!
# Scripts

A script has one assignment `name = query` on each line but the last, which is the query to answer, with
a name or without.  A name stands for its query in the lines that follow.
-/

namespace RelationalAlgebra.Program

open Query (Tree)

def scriptLines (text : String) : List String :=
  ((Text.lines text.toList).map fun line => String.ofList (Text.trim line)).filter (· ≠ "")

def assignment? (line : String) : Option (String × String) :=
  match Text.cutAt '=' line.toList with
  | none => none
  | some (name, query) =>
    let name := Text.trimmed (String.ofList name)
    if query.head? ≠ some '=' ∧ Name.isValid name then
      some (name, Text.trimmed (String.ofList query))
    else none

def inline (definitions : Name.Map Tree) : Tree → Tree
  | .relation name => (definitions.get? name).getD (.relation name)
  | .unary op parameter operand => .unary op parameter (inline definitions operand)
  | .binary op left right => .binary op (inline definitions left) (inline definitions right)

/-- Reads a query in which names may stand for earlier ones. -/
def readLine (definitions : Name.Map Tree) (query : String) : Except Failure Tree :=
  ((Tree.ofText? query).map (inline definitions)).mapError Failure.ofReadFault

/-- The query of the last line, in which all names of earlier lines are replaced. -/
def resolve (definitions : Name.Map Tree) : List String → Except Failure Tree
  | [] => .error (.parse .emptyProgram)
  | [last] =>
    match assignment? last with
    | some (_, query) => readLine definitions query
    | none => readLine definitions last
  | line :: lines =>
    match assignment? line with
    | none => .error (.parse (.notAssignment line))
    | some (name, query) =>
      match readLine definitions query with
      | .error failure => .error failure
      | .ok t => resolve (definitions.insert name t) lines

def ofScript? (text : String) : Except Failure Tree :=
  resolve Name.Map.empty (scriptLines text)

def optimizeScript (env : Environment) (text : String) : Except Failure String :=
  match ofScript? text with
  | .error failure => .error failure
  | .ok t => (Rewrite.optimize {} env t).map fun o => write (ofTree env o.tree)

end RelationalAlgebra.Program
