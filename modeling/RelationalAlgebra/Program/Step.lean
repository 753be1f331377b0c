import RelationalAlgebra.Environment
import RelationalAlgebra.Query.Tree
/-!
# Programs of named steps

A query is split into steps, each of which applies one operator to relations and to earlier steps.
Parts of the query that are equal share a step.
-/

namespace RelationalAlgebra.Program

open Query (Tree)

structure Step where
  name : String
  expression : Tree
deriving DecidableEq

/-- A number written with the letters from `a` to `z` as digits. -/
def letters (n : Nat) : List Char :=
  if n < 26 then [Char.ofNat (97 + n)] else letters (n / 26) ++ [Char.ofNat (97 + n % 26)]

def stepName (n : Nat) : String := "optm_" ++ String.ofList (letters n)

/-- The least number from `start` on whose name is not to be avoided. -/
def freshNumber (avoid : List String) (start : Nat) : Nat :=
  ((List.range' start (avoid.length + 1)).find? fun n => !avoid.contains (stepName n)).getD start

/-- The steps so far, and the number from which on names are free. -/
structure Draft where
  steps : List Step
  next : Nat

/-- Adds a step, unless there is one for the expression, and gives the name of the step. -/
def Draft.name (avoid : List String) (d : Draft) (expression : Tree) : String × Draft :=
  match d.steps.find? fun step => step.expression = expression with
  | some step => (step.name, d)
  | none =>
    let n := freshNumber avoid d.next
    (stepName n, ⟨d.steps ++ [⟨stepName n, expression⟩], n + 1⟩)

def Draft.visit (avoid : List String) (d : Draft) : Tree → Tree × Draft
  | .relation name => (.relation name, d)
  | .unary op parameter operand =>
    let (leaf, d) := d.visit avoid operand
    let (name, d) := d.name avoid (.unary op parameter leaf)
    (.relation name, d)
  | .binary op left right =>
    let (l, d) := d.visit avoid left
    let (r, d) := d.visit avoid right
    let (name, d) := d.name avoid (.binary op l r)
    (.relation name, d)

/-- The steps of a query.  Their names are neither bound nor used in the query. -/
def ofTree (env : Environment) (t : Tree) : List Step :=
  let avoid := env.keys ++ t.leaves
  match t with
  | .relation _ => ((⟨[], 0⟩ : Draft).name avoid t).2.steps
  | _ => ((⟨[], 0⟩ : Draft).visit avoid t).2.steps

def Step.write (s : Step) : String := s.name ++ " = " ++ s.expression.write

def write (steps : List Step) : String := String.intercalate "\n" (steps.map Step.write)

end RelationalAlgebra.Program
