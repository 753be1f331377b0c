import RelationalAlgebra.Date
import RelationalAlgebra.Name
import RelationalAlgebra.Text.Quoted
/-!
# Formulas

The tree of a predicate.  Comparisons come in chains: `a < b <= c` holds when `a < b` and `b <= c` do.
`Formula.bracketed` writes the tree with a pair of parentheses around each node.
-/

namespace RelationalAlgebra.Predicate

inductive Scalar where
  | bool (value : Bool)
  | int (value : Int64)
  | float (value : Binary64)
  | date (value : Date)
  | text (value : String)
deriving DecidableEq

inductive Comparison where
  | equal
  | notEqual
  | less
  | lessEqual
  | greater
  | greaterEqual
deriving DecidableEq

def Comparison.symbol : Comparison → String
  | equal => "=="
  | notEqual => "!="
  | less => "<"
  | lessEqual => "<="
  | greater => ">"
  | greaterEqual => ">="

inductive Arithmetic where
  | add
  | sub
  | mul
  | div
  | floorDiv
  | rem
deriving DecidableEq

def Arithmetic.symbol : Arithmetic → String
  | add => "+"
  | sub => "-"
  | mul => "*"
  | div => "/"
  | floorDiv => "//"
  | rem => "%"

mutual

inductive Formula where
  | literal (value : Scalar)
  | attribute (name : String) (field : Option String)
  | not (operand : Formula)
  | neg (operand : Formula)
  | pos (operand : Formula)
  | and (left right : Formula)
  | or (left right : Formula)
  | compare (first : Formula) (chain : Chain)
  | arith (operator : Arithmetic) (left right : Formula)
deriving DecidableEq

/-- The comparisons that follow the first operand of a chain. -/
inductive Chain where
  | nil
  | link (operator : Comparison) (operand : Formula) (rest : Chain)
deriving DecidableEq

end

mutual

def Formula.mentioned : Formula → List String
  | .literal _ => []
  | .attribute name _ => [name]
  | .not f | .neg f | .pos f => f.mentioned
  | .and l r | .or l r | .arith _ l r => l.mentioned ++ r.mentioned
  | .compare f chain => f.mentioned ++ chain.mentioned

def Chain.mentioned : Chain → List String
  | .nil => []
  | .link _ f rest => f.mentioned ++ rest.mentioned

end

def Formula.attributes (f : Formula) : List String := Name.sorted f.mentioned

def Scalar.bracketed : Scalar → String
  | bool b => if b then "(bool true)" else "(bool false)"
  | int v => "(int " ++ toString v.toInt ++ ")"
  | float v => "(float " ++ Layout.cell.write v ++ ")"
  | date v => "(date " ++ v.write ++ ")"
  | text s => "(str " ++ Text.quoted s ++ ")"

mutual

def Formula.bracketed : Formula → String
  | .literal v => v.bracketed
  | .attribute name none => s!"(attr {name})"
  | .attribute name (some field) => s!"(attr {name}.{field})"
  | .not f => "(not " ++ f.bracketed ++ ")"
  | .neg f => "(neg " ++ f.bracketed ++ ")"
  | .pos f => "(pos " ++ f.bracketed ++ ")"
  | .and l r => "(and " ++ l.bracketed ++ " " ++ r.bracketed ++ ")"
  | .or l r => "(or " ++ l.bracketed ++ " " ++ r.bracketed ++ ")"
  | .arith op l r => "(" ++ op.symbol ++ " " ++ l.bracketed ++ " " ++ r.bracketed ++ ")"
  | .compare f chain => "(cmp " ++ f.bracketed ++ chain.bracketed ++ ")"

def Chain.bracketed : Chain → String
  | .nil => ""
  | .link op f rest => " (" ++ op.symbol ++ " " ++ f.bracketed ++ ")" ++ rest.bracketed

end

end RelationalAlgebra.Predicate
