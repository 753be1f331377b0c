import RelationalAlgebra.Rewrite.Schematic
/-!
# Rewrite rules

The rules with their names, and the walk that offers each node of a tree to a rule, the operands of a
node before the node.
-/

namespace RelationalAlgebra.Rewrite

open Query (Tree)

inductive Rule where
  | mergeSelections
  | distributeSelection
  | mergeProjections
  | selectBeforeProjection
  | mergeRenamings
  | dropIdleRenaming
  | selectBeforeRenaming
  | projectBeforeRenaming
  | dropIdleSetOperator
  | combineSelections
  | factorRenaming
  | factorProduct
  | distributeConjuncts
  | factorProjection
  | dropIdleProjection
  | factorJoin
deriving DecidableEq

namespace Rule

/-- The rules that look at the tree alone, in the order in which they are applied. -/
def structural : List Rule :=
  [mergeSelections, distributeSelection, mergeProjections, selectBeforeProjection, mergeRenamings,
    dropIdleRenaming, selectBeforeRenaming, projectBeforeRenaming, dropIdleSetOperator,
    combineSelections, factorRenaming, factorProduct]

/-- The rules that look at schemas, in the order in which they are applied. -/
def schematic : List Rule := [distributeConjuncts, factorProjection, dropIdleProjection, factorJoin]

def name : Rule → String
  | mergeSelections => "duplicated_select"
  | distributeSelection => "down_to_unions_subtractions_intersections"
  | mergeProjections => "duplicated_projection"
  | selectBeforeProjection => "selection_inside_projection"
  | mergeRenamings => "subsequent_renames"
  | dropIdleRenaming => "futile_renames"
  | selectBeforeRenaming => "swap_rename_select"
  | projectBeforeRenaming => "swap_rename_projection"
  | dropIdleSetOperator => "futile_union_intersection_subtraction"
  | combineSelections => "select_union_intersect_subtract"
  | factorRenaming => "rename_distributive"
  | factorProduct => "union_and_product"
  | distributeConjuncts => "selection_and_product"
  | factorProjection => "projection_and_union"
  | dropIdleProjection => "useless_projection"
  | factorJoin => "union_and_join"

def ofName? (name : String) : Option Rule :=
  (structural ++ schematic).find? fun rule => rule.name = name

def isStructural (rule : Rule) : Bool := structural.contains rule

def rewrite (env : Environment) (rule : Rule) (t : Tree) : Outcome :=
  match rule with
  | mergeSelections => Rewrite.mergeSelections t
  | distributeSelection => Rewrite.distributeSelection t
  | mergeProjections => Rewrite.mergeProjections t
  | selectBeforeProjection => Rewrite.selectBeforeProjection t
  | mergeRenamings => Rewrite.mergeRenamings t
  | dropIdleRenaming => Rewrite.dropIdleRenaming t
  | selectBeforeRenaming => Rewrite.selectBeforeRenaming t
  | projectBeforeRenaming => Rewrite.projectBeforeRenaming t
  | dropIdleSetOperator => Rewrite.dropIdleSetOperator t
  | combineSelections => Rewrite.combineSelections t
  | factorRenaming => Rewrite.factorRenaming t
  | factorProduct => Rewrite.factorProduct t
  | distributeConjuncts => Rewrite.distributeConjuncts env t
  | factorProjection => Rewrite.factorProjection env t
  | dropIdleProjection => Rewrite.dropIdleProjection env t
  | factorJoin => Rewrite.factorJoin env t

/-- Offers a node to a rule and counts the rewriting, beside those of the operands. -/
def offer (env : Environment) (rule : Rule) (changes : Nat) (t : Tree) : Except Failure (Tree × Nat) :=
  (rule.rewrite env t).map fun
    | some new => (new, changes + 1)
    | none => (t, changes)

def walk (env : Environment) (rule : Rule) : Tree → Except Failure (Tree × Nat)
  | .relation name => rule.offer env 0 (.relation name)
  | .unary op parameter operand =>
    match rule.walk env operand with
    | .error failure => .error failure
    | .ok (operand, changes) => rule.offer env changes (.unary op parameter operand)
  | .binary op left right =>
    match rule.walk env left with
    | .error failure => .error failure
    | .ok (left, m) =>
      match rule.walk env right with
      | .error failure => .error failure
      | .ok (right, n) => rule.offer env (m + n) (.binary op left right)

end Rule

end RelationalAlgebra.Rewrite
