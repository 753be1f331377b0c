import RelationalAlgebra.Cell
/-!
# Faults of schemas

Why some names are no header, and why relations, rows or changes do not fit an operation.
-/

namespace RelationalAlgebra

inductive SchemaFault where
  | badName (name : String)
  | repeated (name : String)
  | absent (name : String) (names : List String)
  | cannotRename (name : String) (names : List String)
  | cannotUpdate (name : String) (names : List String)
  | arity (count : Nat) (names : List String)
  | unalike (operation : String) (left right : List String)
  | overlap (shared : List String)
  | emptyProjection
  | strangeDivisor (name : String) (names : List String)
  | noQuotient
  | misfit (cell : Cell) (kind : Kind) (name : String)
deriving DecidableEq

namespace SchemaFault

def listed (names : List String) : String := String.intercalate ", " names

def message : SchemaFault → String
  | badName name => s!"'{name}' is not a valid attribute name"
  | repeated name => s!"attribute '{name}' appears more than once"
  | absent name names => s!"attribute '{name}' not in header (" ++ listed names ++ ")"
  | cannotRename name names =>
    s!"cannot rename '{name}': attribute not in header (" ++ listed names ++ ")"
  | cannotUpdate name names =>
    s!"cannot update '{name}': attribute not in header (" ++ listed names ++ ")"
  | arity count names =>
    s!"tuple has {count} values but header (" ++ listed names ++ ") has " ++ toString names.length
  | unalike operation left right =>
    s!"{operation} requires the same attributes: (" ++ listed left ++ ") vs (" ++ listed right ++ ")"
  | overlap shared => "product requires disjoint attributes, both sides have: " ++ listed shared
  | emptyProjection => "projection needs at least one attribute"
  | strangeDivisor name names =>
    s!"division: divisor attribute '{name}' not in dividend (" ++ listed names ++ ")"
  | noQuotient => "division: dividend has no attributes outside the divisor"
  | misfit cell kind name =>
    "cannot store " ++ cell.quoted ++ " in " ++ kind.name ++ s!" column '{name}'"

end SchemaFault

end RelationalAlgebra
