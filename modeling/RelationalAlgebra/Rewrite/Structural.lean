import RelationalAlgebra.Failure
import RelationalAlgebra.Predicate.Clause
import RelationalAlgebra.Query.Parameter
import RelationalAlgebra.Query.Tree
/-!
# Rules that look at the tree alone

Each rule takes a tree and gives the tree that replaces it, or nothing where the rule does not apply.
A parameter that a rule has to read and cannot is a failure.
-/

namespace RelationalAlgebra.Rewrite

open Query (Tree Unary Binary)
open Predicate (conjoin negation)

abbrev Outcome := Except Failure (Option Tree)

def readRenaming (parameter : String) : Except Failure Renaming :=
  (Renaming.ofText? parameter).mapError .parse

def readProjection (parameter : String) : Except Failure (List String) :=
  (Query.Projection.ofText? parameter).mapError .parse

def inPredicate {α : Type} (text : String) (result : Except Predicate.Fault α) : Except Failure α :=
  result.mapError fun fault => .parse (.badPredicate text fault)

/-- Two selections become one.  The inner predicate stays first, so that it still guards the outer
one. -/
def mergeSelections : Tree → Outcome
  | .unary .selection p (.unary .selection q operand) =>
    let merged := if Text.trimmed p = Text.trimmed q then Text.trimmed p else conjoin [q, p]
    .ok (some (.selection merged operand))
  | _ => .ok none

/-- Whether the right operand of a difference is filtered by a predicate already. -/
def isFilteredBy (p : String) : Tree → Bool
  | .unary .selection q _ => Text.trimmed q = Text.trimmed p
  | _ => false

def distributeSelection : Tree → Outcome
  | .unary .selection p (.binary op left right) =>
    if op.isSetOperator then
      let right := if op = .difference && isFilteredBy p right then right else .selection p right
      .ok (some (.binary op (.selection p left) right))
    else .ok none
  | _ => .ok none

def mergeProjections : Tree → Outcome
  | .unary .projection names (.unary .projection _ operand) =>
    .ok (some (.projection names operand))
  | _ => .ok none

def selectBeforeProjection : Tree → Outcome
  | .unary .selection p (.unary .projection names operand) =>
    .ok (some (.projection names (.selection p operand)))
  | _ => .ok none

/-- Whether the outer renaming mentions a name that the inner one has removed. -/
def mentionsRemoved (outer inner : Renaming) : Bool :=
  outer.keys.any fun old => inner.contains old && !inner.values.contains old

/-- The renaming that does what the inner and then the outer one do. -/
def compose (outer inner : Renaming) : Renaming :=
  let first := inner.entries.map fun e => (e.1, outer.apply e.2)
  let second := outer.entries.filter fun e => !inner.values.contains e.1
  (Name.Map.ofList (first ++ second)).filter fun old new => old ≠ new

def renamed (map : Renaming) (operand : Tree) : Tree :=
  if map.isEmpty then operand else .rename map.write operand

def mergeRenamings : Tree → Outcome
  | .unary .rename outer (.unary .rename inner operand) =>
    match readRenaming outer with
    | .error failure => .error failure
    | .ok outer =>
      match readRenaming inner with
      | .error failure => .error failure
      | .ok inner =>
        if mentionsRemoved outer inner then .ok none
        else .ok (some (renamed (compose outer inner) operand))
  | _ => .ok none

def dropIdleRenaming : Tree → Outcome
  | .unary .rename entries operand =>
    match readRenaming entries with
    | .error failure => .error failure
    | .ok map =>
      let kept := map.filter fun old new => old ≠ new
      if kept.size = map.size then .ok none else .ok (some (renamed kept operand))
  | _ => .ok none

/-- Whether a renaming removes a name and gives it to no other attribute. -/
def hides (map : Renaming) (name : String) : Bool :=
  map.contains name && !map.inverse.contains name

def selectBeforeRenaming : Tree → Outcome
  | .unary .selection p (.unary .rename entries operand) =>
    match readRenaming entries with
    | .error failure => .error failure
    | .ok map =>
      match inPredicate p (Predicate.attributeNames p) with
      | .error failure => .error failure
      | .ok used =>
        if used.any (hides map) then .ok none
        else
          (inPredicate p (Predicate.renameAttributes p map.inverse)).map fun p =>
            some (.rename entries (.selection p operand))
  | _ => .ok none

/-- A projection moves into a renaming, of which the entries stay that the projection needs. -/
def projectBeforeRenaming : Tree → Outcome
  | .unary .projection list (.unary .rename entries operand) =>
    match readProjection list with
    | .error failure => .error failure
    | .ok names =>
      match readRenaming entries with
      | .error failure => .error failure
      | .ok map =>
        if names.any (hides map) then .ok none
        else
          let before := names.map map.inverse.apply
          let kept := map.filter fun _ new => names.contains new
          .ok (some (renamed kept (.projection (Query.Projection.write before) operand)))
  | _ => .ok none

def filterOf? (other : Tree) : Tree → Option String
  | .unary .selection p operand => if operand = other then some p else none
  | _ => none

def never : String := "False"

def dropIdleSetOperator : Tree → Outcome
  | .binary op left right =>
    if op.isSetOperator then
      if left = right then
        .ok (some (if op = .difference then .selection never left else left))
      else
        .ok <|
          match op, filterOf? right left, filterOf? left right with
          | .union, some _, _ => some right
          | .union, none, some _ => some left
          | .intersection, some _, _ => some left
          | .intersection, none, some _ => some right
          | .difference, _, some p => some (.selection (negation p) left)
          | .difference, some _, none => some (.selection never right)
          | _, _, _ => none
    else .ok none
  | _ => .ok none

def combine? (op : Binary) (p q : String) : Option String :=
  match op with
  | .union => some (Text.trimmed p ++ " or " ++ Text.trimmed q)
  | .intersection => some (conjoin [p, q])
  | .difference => some (conjoin [p, negation q])
  | _ => none

def combineSelections : Tree → Outcome
  | .binary op (.unary .selection p a) (.unary .selection q b) =>
    .ok (if a = b then (combine? op p q).map (.selection · a) else none)
  | _ => .ok none

def factorRenaming : Tree → Outcome
  | .binary op (.unary .rename m a) (.unary .rename n b) =>
    let result := some (Tree.rename m (.binary op a b))
    if op.isSetOperator then
      if m = n then .ok result
      else
        match readRenaming m with
        | .error failure => .error failure
        | .ok left =>
          (readRenaming n).map fun right => if left = right then result else none
    else .ok none
  | _ => .ok none

structure Shared where
  operand : Tree
  first : Tree
  second : Tree
  onLeft : Bool

/-- What the operands of a union share, where both are different trees of the operator `inner`. -/
def Shared.find? (inner : Binary) : Tree → Option Shared
  | .binary .union (.binary l a b) (.binary r c d) =>
    if l = inner && r = inner && !(a = c && b = d) then
      if a = c then some ⟨a, b, d, true⟩
      else if b = d then some ⟨b, a, c, false⟩
      else none
    else none
  | _ => none

def Shared.factor (s : Shared) (inner : Binary) : Tree :=
  let union := Tree.binary .union s.first s.second
  if s.onLeft then .binary inner s.operand union else .binary inner union s.operand

/-- A union of products that share an operand becomes a product with a union. -/
def factorProduct (t : Tree) : Outcome :=
  .ok ((Shared.find? .product t).map fun s => s.factor .product)

end RelationalAlgebra.Rewrite
