import RelationalAlgebra.Failure
import RelationalAlgebra.Predicate.Clause
import RelationalAlgebra.Predicate.Evaluation
import RelationalAlgebra.Relation.Basic
/-!
# The operators of relational algebra

Selection, projection, renaming, the set operators, product, division and the joins.  The rows of outer
joins that match nothing are filled with a padding text.
-/

namespace RelationalAlgebra.Relation

open Predicate (Clause)

/-- The rows on which a predicate holds; the first row on which it fails is the failure. -/
def matching (names : List String) (clause : Clause) : List Row → Except Failure Rows
  | [] => .ok []
  | row :: rows =>
    match clause.formula.test names row with
    | .error fault => .error (.evaluation clause.source row fault)
    | .ok true => (matching names clause rows).map (row :: ·)
    | .ok false => matching names clause rows

def clause? (predicate : String) : Except Failure Clause :=
  (Clause.ofText? predicate).mapError fun fault => .parse (.badPredicate predicate fault)

def filter (r : Relation) (clause : Clause) : Except Failure Relation :=
  (matching r.names clause r.rows).map fun rows => ⟨r.header, rows⟩

def selection (r : Relation) (predicate : String) : Except Failure Relation :=
  match clause? predicate with
  | .error failure => .error failure
  | .ok clause => r.filter clause

def distinct : List String → List String
  | [] => []
  | n :: ns => n :: (distinct ns).filter (· ≠ n)

def projection (r : Relation) (names : List String) : Except SchemaFault Relation :=
  match distinct names with
  | [] => .error .emptyProjection
  | names =>
    match r.header.positions names with
    | .error fault => .error fault
    | .ok positions =>
      (Header.ofNames? names).map fun header =>
        ⟨header, Rows.collect (r.rows.map (Row.pick positions))⟩

def rename (r : Relation) (map : Renaming) : Except SchemaFault Relation :=
  (r.header.rename map).map fun header => ⟨header, r.rows⟩

def union (a b : Relation) : Except SchemaFault Relation :=
  (a.align b "union").map fun rows => ⟨a.header, Rows.union a.rows rows⟩

def intersection (a b : Relation) : Except SchemaFault Relation :=
  (a.align b "intersection").map fun rows => ⟨a.header, Rows.intersection a.rows rows⟩

def difference (a b : Relation) : Except SchemaFault Relation :=
  (a.align b "difference").map fun rows => ⟨a.header, Rows.difference a.rows rows⟩

def product (a b : Relation) : Except SchemaFault Relation :=
  match a.header.shared b.header with
  | [] =>
    (Header.ofNames? (a.names ++ b.names)).map fun header =>
      ⟨header, Rows.ofInsertions (a.rows.flatMap fun l => b.rows.map fun r => l ++ r)⟩
  | shared => .error (.overlap shared)

/-- The rows over the attributes that only the dividend has, which occur in it together with every row
of the divisor: those of its projection less those that lack one. -/
def division (a b : Relation) : Except SchemaFault Relation :=
  match b.names.find? fun n => !a.header.contains n with
  | some n => .error (.strangeDivisor n a.names)
  | none =>
    match a.names.filter fun n => !b.header.contains n with
    | [] => .error .noQuotient
    | unique => do
      let candidates ← a.projection unique
      let combined ← candidates.product b
      let missing ← combined.difference a
      let disqualified ← missing.projection unique
      candidates.difference disqualified

/-- What stands in the columns of a row that matches nothing. -/
def padding : Cell := .text "---"

def joinHeader (a b : Relation) : Except SchemaFault Header :=
  Header.ofNames? (a.names ++ a.header.extra b.header)

def agree (left right : Row) : List Nat → List Nat → Bool
  | i :: is, j :: js =>
    (left.getD i (.text "")).compare (right.getD j (.text "")) = .eq && agree left right is js
  | _, _ => true

def joined (keep : Bool) (others : List Row) (leftKeys rightKeys rest : List Nat) (left : Row) :
    List Row :=
  let matched := others.filter fun right => agree left right leftKeys rightKeys
  if keep && matched.isEmpty then [left ++ rest.map fun _ => padding]
  else matched.map fun right => left ++ right.pick rest

def joinWith (keep : Bool) (a b : Relation) : Except SchemaFault Relation := do
  let shared := a.header.shared b.header
  let leftKeys ← a.header.positions shared
  let rightKeys ← b.header.positions shared
  let rest := (List.range b.header.size).filter fun i => !rightKeys.contains i
  let header ← a.joinHeader b
  .ok ⟨header, Rows.ofInsertions (a.rows.flatMap (joined keep b.rows leftKeys rightKeys rest))⟩

def join (a b : Relation) : Except SchemaFault Relation := joinWith false a b

def leftJoin (a b : Relation) : Except SchemaFault Relation := joinWith true a b

def rightJoin (a b : Relation) : Except SchemaFault Relation := do
  let mirrored ← b.leftJoin a
  let header ← a.joinHeader b
  mirrored.rearrange header

def fullJoin (a b : Relation) : Except SchemaFault Relation := do
  let left ← a.leftJoin b
  let right ← a.rightJoin b
  left.union right

def thetaJoin (a b : Relation) (predicate : String) : Except Failure Relation :=
  match a.product b with
  | .error fault => .error (.schema fault)
  | .ok r => r.selection predicate

def apply (op : Query.Binary) (a b : Relation) : Except SchemaFault Relation :=
  match op with
  | .product => a.product b
  | .difference => a.difference b
  | .union => a.union b
  | .intersection => a.intersection b
  | .division => a.division b
  | .join => a.join b
  | .leftJoin => a.leftJoin b
  | .rightJoin => a.rightJoin b
  | .fullJoin => a.fullJoin b

end RelationalAlgebra.Relation
