import RelationalAlgebra.Predicate.Formula
import RelationalAlgebra.Predicate.Lexeme
/-!
# Reading formulas

The grammar of predicates has eight levels, from the loosest, `or`, to the tightest, a literal, an
attribute or a formula in parentheses.  The operators of one level stand between formulas of the next
tighter one and associate to the left.  Every step of the reader leaves fewer lexemes than it was
given, which is why it ends.
-/

namespace RelationalAlgebra.Predicate

inductive Level where
  | disjunction
  | conjunction
  | negation
  | comparison
  | sum
  | product
  | sign
  | atom
deriving DecidableEq

namespace Level

def tighter : Level → Level
  | disjunction => conjunction
  | conjunction => negation
  | negation => comparison
  | comparison => sum
  | sum => product
  | product => sign
  | sign => atom
  | atom => atom

def height : Level → Nat
  | disjunction => 7
  | conjunction => 6
  | negation => 5
  | comparison => 4
  | sum => 3
  | product => 2
  | sign => 1
  | atom => 0

theorem height_tighter_lt {level : Level} (h : level ≠ atom) :
    level.tighter.height < level.height := by
  cases level <;> simp_all [tighter, height]

theorem height_le (level : Level) : level.height ≤ 7 := by
  cases level <;> decide

def join? : Level → Token → Option (Formula → Formula → Formula)
  | disjunction, .keyword .or => some .or
  | conjunction, .keyword .and => some .and
  | sum, .symbol .plus => some (.arith .add)
  | sum, .symbol .minus => some (.arith .sub)
  | product, .symbol .star => some (.arith .mul)
  | product, .symbol .doubleSlash => some (.arith .floorDiv)
  | product, .symbol .slash => some (.arith .div)
  | product, .symbol .percent => some (.arith .rem)
  | _, _ => none

def modify? : Level → Token → Option (Formula → Formula)
  | negation, .keyword .not => some .not
  | sign, .symbol .minus => some .neg
  | sign, .symbol .plus => some .pos
  | _, _ => none

end Level

def Comparison.ofToken? : Token → Option Comparison
  | .symbol .equal => some .equal
  | .symbol .notEqual => some .notEqual
  | .symbol .less => some .less
  | .symbol .lessEqual => some .lessEqual
  | .symbol .greater => some .greater
  | .symbol .greaterEqual => some .greaterEqual
  | _ => none

def Scalar.ofToken? : Token → Option Scalar
  | .int v => some (.int v)
  | .float v => some (.float v)
  | .text s => some (.text s)
  | .keyword .true => some (.bool true)
  | .keyword .false => some (.bool false)
  | _ => none

/-- What was read, and the lexemes after it, fewer than `bound`. -/
structure Reading (α : Type) (bound : Nat) where
  value : α
  rest : List Lexeme
  shorter : rest.length < bound

namespace Reading

def map {α β : Type} {n : Nat} (f : α → β) (r : Reading α n) : Reading β n :=
  ⟨f r.value, r.rest, r.shorter⟩

def widen {α : Type} {n m : Nat} (r : Reading α n) (h : n ≤ m) : Reading α m :=
  ⟨r.value, r.rest, Nat.lt_of_lt_of_le r.shorter h⟩

end Reading

namespace Formula

/-- The chain with the first comparison `operator operand`, or the operand alone. -/
def chained (first : Formula) : Chain → Formula
  | .nil => first
  | chain => .compare first chain

def readField (name : String) (ts : List Lexeme) :
    Except Fault (Reading Formula (ts.length + 1)) :=
  match ts with
  | ⟨.symbol .dot, _, _⟩ :: ⟨.name field, _, _⟩ :: rest =>
    .ok ⟨.attribute name (some field), rest, by simp; omega⟩
  | ⟨.symbol .dot, _, _⟩ :: t :: _ => .error (.unexpected t.token t.start .fieldName)
  | ⟨.symbol .dot, _, _⟩ :: [] => .error (.unexpectedEnd .fieldName)
  | ts => .ok ⟨.attribute name none, ts, by simp⟩

mutual

/-- The longest formula of a level at the start of the lexemes. -/
def read (level : Level) (ts : List Lexeme) : Except Fault (Reading Formula ts.length) :=
  match level, ts with
  | .atom, [] => .error (.unexpectedEnd .operand)
  | .atom, t :: rest =>
    match Scalar.ofToken? t.token with
    | some v => .ok ⟨.literal v, rest, by simp⟩
    | none =>
      match t.token with
      | .name name => (readField name rest).map (·.widen (by simp))
      | .symbol .openParen =>
        match read .disjunction rest with
        | .error fault => .error fault
        | .ok ⟨f, after, shorter⟩ =>
          match after, shorter with
          | [], _ => .error (.unexpectedEnd .closeParen)
          | c :: after, shorter =>
            if c.isSymbol .closeParen then .ok ⟨f, after, by simp at *; omega⟩
            else .error (.unexpected c.token c.start .closeParen)
      | found => .error (.unexpected found t.start .operand)
  | .negation, ts => readModified .negation (by decide) ts
  | .sign, ts => readModified .sign (by decide) ts
  | .comparison, ts =>
    match read .sum ts with
    | .error fault => .error fault
    | .ok ⟨first, after, shorter⟩ =>
      (readChain after).map fun r => (r.map (chained first)).widen shorter
  | .disjunction, ts => readJoined .disjunction (by decide) ts
  | .conjunction, ts => readJoined .conjunction (by decide) ts
  | .sum, ts => readJoined .sum (by decide) ts
  | .product, ts => readJoined .product (by decide) ts
termination_by 32 * ts.length + 3 * level.height + 2
decreasing_by all_goals grind [Level.height]

def readModified (level : Level) (h : level ≠ .atom) (ts : List Lexeme) :
    Except Fault (Reading Formula ts.length) :=
  match ts with
  | [] => read level.tighter []
  | t :: rest =>
    match level.modify? t.token with
    | some modify => (readModified level h rest).map fun r => (r.map modify).widen (by simp)
    | none => read level.tighter (t :: rest)
termination_by 32 * ts.length + 3 * level.height + 1
decreasing_by all_goals grind [Level.height_tighter_lt, Level.height_le]

def readJoined (level : Level) (h : level ≠ .atom) (ts : List Lexeme) :
    Except Fault (Reading Formula ts.length) :=
  match read level.tighter ts with
  | .error fault => .error fault
  | .ok ⟨left, after, shorter⟩ => (readOperands level h left after).map (·.widen shorter)
termination_by 32 * ts.length + 3 * level.height + 1
decreasing_by all_goals grind [Level.height_tighter_lt, Level.height_le]

def readOperands (level : Level) (h : level ≠ .atom) (left : Formula) (ts : List Lexeme) :
    Except Fault (Reading Formula (ts.length + 1)) :=
  match ts with
  | [] => .ok ⟨left, [], by simp⟩
  | t :: rest =>
    match level.join? t.token with
    | none => .ok ⟨left, t :: rest, by simp⟩
    | some join =>
      match read level.tighter rest with
      | .error fault => .error fault
      | .ok ⟨right, after, shorter⟩ =>
        (readOperands level h (join left right) after).map (·.widen (by simp; omega))
termination_by 32 * ts.length + 3 * level.height
decreasing_by all_goals grind [Level.height_tighter_lt, Level.height_le]

def readChain (ts : List Lexeme) : Except Fault (Reading Chain (ts.length + 1)) :=
  match ts with
  | [] => .ok ⟨.nil, [], by simp⟩
  | t :: rest =>
    match Comparison.ofToken? t.token with
    | none => .ok ⟨.nil, t :: rest, by simp⟩
    | some op =>
      match read .sum rest with
      | .error fault => .error fault
      | .ok ⟨operand, after, shorter⟩ =>
        (readChain after).map fun r => (r.map (.link op operand)).widen (by simp; omega)
termination_by 32 * ts.length
decreasing_by all_goals grind [Level.height]

end

def ofLexemes? (ts : List Lexeme) : Except Fault Formula :=
  if ts = [] then .error .empty
  else
    match read .disjunction ts with
    | .error fault => .error fault
    | .ok r =>
      match r.rest with
      | [] => .ok r.value
      | t :: _ => .error (.unexpected t.token t.start .finish)

def ofText? (text : List Char) : Except Fault Formula :=
  match Lexeme.scan text with
  | .error fault => .error fault
  | .ok ts => ofLexemes? ts

end Formula

end RelationalAlgebra.Predicate
