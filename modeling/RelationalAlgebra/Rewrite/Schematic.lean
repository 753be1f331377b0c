import RelationalAlgebra.Query.Schema
import RelationalAlgebra.Rewrite.Structural
/-!
# Rules that look at schemas

These rules need the attributes of the operands, which they find in an environment.  An operand whose
attributes cannot be found is a failure.
-/

namespace RelationalAlgebra.Rewrite

open Query (Tree Unary Binary)
open Predicate (conjoin)

/-- The conjuncts of a predicate, by the operand that has all their attributes. -/
structure Sorted where
  left : List String
  right : List String
  both : List String

def sortConjuncts (left right : List String) : List String → Except Failure Sorted
  | [] => .ok ⟨[], [], []⟩
  | conjunct :: rest =>
    match inPredicate conjunct (Predicate.attributeNames conjunct) with
    | .error failure => .error failure
    | .ok used =>
      (sortConjuncts left right rest).map fun s =>
        if Name.subset used left then { s with left := conjunct :: s.left }
        else if Name.subset used right then { s with right := conjunct :: s.right }
        else { s with both := conjunct :: s.both }

def filtered (conjuncts : List String) (t : Tree) : Tree :=
  if conjuncts.isEmpty then t else .selection (conjoin conjuncts) t

/-- The conjuncts of a selection over a product or a join that concern one operand alone move there. -/
def distributeConjuncts (env : Environment) : Tree → Outcome
  | .unary .selection p (.binary op a b) =>
    if op = .product || op = .join then
      match a.schema env with
      | .error failure => .error failure
      | .ok left =>
        match b.schema env with
        | .error failure => .error failure
        | .ok right =>
          match inPredicate p (Predicate.conjuncts p) with
          | .error failure => .error failure
          | .ok conjuncts =>
            (sortConjuncts left right conjuncts).map fun s =>
              if s.left.isEmpty && s.right.isEmpty then none
              else some (filtered s.both (.binary op (filtered s.left a) (filtered s.right b)))
    else .ok none
  | _ => .ok none

def sameAttributes (env : Environment) (a b : Tree) : Except Failure Bool :=
  match a.schema env with
  | .error failure => .error failure
  | .ok left => (b.schema env).map fun right => Name.sameSet left right

/-- One projection of both operands of a union, if they have the same attributes, becomes a projection
of the result. -/
def factorProjection (env : Environment) : Tree → Outcome
  | .binary .union (.unary .projection l a) (.unary .projection m b) =>
    match readProjection l with
    | .error failure => .error failure
    | .ok left =>
      match readProjection m with
      | .error failure => .error failure
      | .ok right =>
        if left = right then
          (sameAttributes env a b).map fun same =>
            if same then some (.projection l (.binary .union a b)) else none
        else .ok none
  | _ => .ok none

def dropIdleProjection (env : Environment) : Tree → Outcome
  | .unary .projection list operand =>
    match readProjection list with
    | .error failure => .error failure
    | .ok names =>
      (operand.schema env).map fun all => if Name.sameSet names all then some operand else none
  | _ => .ok none

/-- A union of joins that share an operand becomes a join with a union, if the others have the same
attributes. -/
def factorJoin (env : Environment) (t : Tree) : Outcome :=
  match Shared.find? .join t with
  | none => .ok none
  | some s =>
    (sameAttributes env s.first s.second).map fun same =>
      if same then some (s.factor .join) else none

end RelationalAlgebra.Rewrite
