import RelationalAlgebra.Rewrite.Rule
/-!
# The optimizer

A pass applies every selected rule once to the whole tree, the rules that look at schemas first.  Passes
follow each other until one changes nothing.  Every rewriting removes an operator or moves one down the
tree, so the number of rewritings is bounded by a square of the size of the tree; `passLimit` is such a
bound, and the passes end before it is reached.
-/

namespace RelationalAlgebra.Rewrite

open Query (Tree)

structure Settings where
  structural : Bool := true
  schematic : Bool := true
  trace : Bool := false
deriving DecidableEq

def Settings.rules (s : Settings) : List Rule :=
  (if s.schematic then Rule.schematic else []) ++ (if s.structural then Rule.structural else [])

structure Step where
  rule : Rule
  changes : Nat
  tree : Tree

structure Optimized where
  tree : Tree
  changes : Nat
  passes : Nat
  trace : List Step

/-- Applies rules one after the other; gives the tree and the applications that changed it. -/
def pass (env : Environment) : List Rule → Tree → Except Failure (Tree × List Step)
  | [], t => .ok (t, [])
  | rule :: rules, t =>
    match rule.walk env t with
    | .error failure => .error failure
    | .ok (new, changes) =>
      if changes = 0 then pass env rules t
      else (pass env rules new).map fun (last, steps) => (last, ⟨rule, changes, new⟩ :: steps)

/-- The number of operators and names of a tree, and of the characters of its parameters. -/
def size : Tree → Nat
  | .relation _ => 1
  | .unary _ parameter operand => parameter.length + 1 + size operand
  | .binary _ left right => size left + size right + 1

def passLimit (t : Tree) : Nat := 8 * (size t * size t) + 8

def passes (env : Environment) (rules : List Rule) (limit : Nat) (o : Optimized) :
    Except Failure Optimized :=
  match limit with
  | 0 => .ok o
  | limit + 1 =>
    match pass env rules o.tree with
    | .error failure => .error failure
    | .ok (_, []) => .ok { o with passes := o.passes + 1 }
    | .ok (t, steps) =>
      passes env rules limit
        ⟨t, steps.foldl (fun n step => n + step.changes) o.changes, o.passes + 1, o.trace ++ steps⟩

/-- Rewrites a tree until no selected rule applies to any of its nodes. -/
def optimize (settings : Settings) (env : Environment) (t : Tree) : Except Failure Optimized :=
  (passes env settings.rules (passLimit t) ⟨t, 0, 0, []⟩).map fun o =>
    if settings.trace then o else { o with trace := [] }

end RelationalAlgebra.Rewrite
