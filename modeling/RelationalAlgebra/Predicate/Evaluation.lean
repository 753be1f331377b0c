import RelationalAlgebra.Predicate.Formula.Reading
import RelationalAlgebra.Predicate.Scalar
/-!
# Evaluation of predicates

A formula has a value on a row, whose cells are called by the names of a header.  Connectives and
chains of comparisons are evaluated from left to right and only as far as they are not decided.
-/

namespace RelationalAlgebra.Predicate

def lastPlace? (name : String) : List String → Option Nat
  | [] => none
  | n :: ns =>
    match lastPlace? name ns with
    | some i => some (i + 1)
    | none => if n = name then some 0 else none

def cell? (names : List String) (row : Row) (name : String) : Option Cell :=
  match lastPlace? name names with
  | some i => row[i]?
  | none => none

def Scalar.field (s : Scalar) (field : String) : Except Fault Scalar :=
  match s, field with
  | .date d, "year" => .ok (.int (Int64.ofInt d.year))
  | .date d, "month" => .ok (.int (Int64.ofInt d.month))
  | .date d, "day" => .ok (.int (Int64.ofInt d.day))
  | .date d, "weekday" => .ok (.int (Int64.ofInt d.weekday))
  | s, field => .error (.unknownField field s.kind)

def Scalar.neg (s : Scalar) : Except Fault Scalar :=
  match s.number? with
  | some (.float v) => .ok (.float v.neg)
  | some (.whole v) =>
    match Whole.fit? (-v.toInt) with
    | some v => .ok (.int v)
    | none => .error (.overflow "-")
  | none => .error (.unaryMismatch "-" s.kind)

def Scalar.pos (s : Scalar) : Except Fault Scalar :=
  match s.number? with
  | some (.float v) => .ok (.float v)
  | some (.whole v) => .ok (.int v)
  | none => .error (.unaryMismatch "+" s.kind)

mutual

/-- The value of a formula where `look` gives the cells of the attributes. -/
def Formula.eval (look : String → Option Cell) : Formula → Except Fault Scalar
  | .literal v => .ok v
  | .attribute name field =>
    match look name with
    | none => .error (.unknownAttribute name)
    | some cell =>
      match field with
      | none => .ok (.ofCell cell)
      | some field => (Scalar.ofCell cell).field field
  | .not f =>
    match f.eval look with
    | .error fault => .error fault
    | .ok v => .ok (.bool (!v.truth))
  | .neg f =>
    match f.eval look with
    | .error fault => .error fault
    | .ok v => v.neg
  | .pos f =>
    match f.eval look with
    | .error fault => .error fault
    | .ok v => v.pos
  | .and l r =>
    match l.eval look with
    | .error fault => .error fault
    | .ok v =>
      if v.truth then
        match r.eval look with
        | .error fault => .error fault
        | .ok w => .ok (.bool w.truth)
      else .ok (.bool false)
  | .or l r =>
    match l.eval look with
    | .error fault => .error fault
    | .ok v =>
      if v.truth then .ok (.bool true)
      else
        match r.eval look with
        | .error fault => .error fault
        | .ok w => .ok (.bool w.truth)
  | .compare f chain =>
    match f.eval look with
    | .error fault => .error fault
    | .ok v => chain.eval look v
  | .arith op l r =>
    match l.eval look with
    | .error fault => .error fault
    | .ok v =>
      match r.eval look with
      | .error fault => .error fault
      | .ok w => op.apply v w

/-- Whether all comparisons of a chain hold, the first of them with `left`. -/
def Chain.eval (look : String → Option Cell) (chain : Chain) (left : Scalar) : Except Fault Scalar :=
  match chain with
  | .nil => .ok (.bool true)
  | .link op f rest =>
    match f.eval look with
    | .error fault => .error fault
    | .ok right =>
      match op.test left right with
      | .error fault => .error fault
      | .ok true => rest.eval look right
      | .ok false => .ok (.bool false)

end

def Formula.test (f : Formula) (names : List String) (row : Row) : Except Fault Bool :=
  (f.eval (cell? names row)).map Scalar.truth

end RelationalAlgebra.Predicate
