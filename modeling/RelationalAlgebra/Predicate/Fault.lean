import RelationalAlgebra.Predicate.Token
/-!
# Faults of predicates

Why a text is no predicate, and why a predicate has no value on a row.
-/

namespace RelationalAlgebra.Predicate

inductive Expectation where
  | operand
  | fieldName
  | closeParen
  | finish
deriving DecidableEq

def Expectation.text : Expectation → String
  | operand => "a value, attribute or '('"
  | fieldName => "a field name"
  | closeParen => "')'"
  | finish => "end of predicate"

inductive Fault where
  | empty
  | unexpectedChar (c : Char) (offset : Nat)
  | unterminatedText (offset : Nat)
  | badNumber (text : String)
  | unexpected (found : Token) (offset : Nat) (expected : Expectation)
  | unexpectedEnd (expected : Expectation)
  | unknownAttribute (name : String)
  | unknownField (field kind : String)
  | mismatch (operator left right : String)
  | unaryMismatch (operator operand : String)
  | divisionByZero
  | overflow (operator : String)
deriving DecidableEq

namespace Fault

/-- Faults of the text, which arise before any row is seen. -/
def isSyntax : Fault → Bool
  | empty | unexpectedChar .. | unterminatedText _ | badNumber _ | unexpected .. | unexpectedEnd _ =>
    true
  | _ => false

def kind : Fault → String
  | empty => "Empty"
  | unexpectedChar .. => "UnexpectedChar"
  | unterminatedText _ => "UnterminatedString"
  | badNumber _ => "BadNumber"
  | unexpected .. => "Unexpected"
  | unexpectedEnd _ => "UnexpectedEnd"
  | unknownAttribute _ => "UnknownAttribute"
  | unknownField .. => "UnknownField"
  | mismatch .. => "TypeMismatch"
  | unaryMismatch .. => "UnaryMismatch"
  | divisionByZero => "DivisionByZero"
  | overflow _ => "Overflow"

def message : Fault → String
  | empty => "empty predicate"
  | unexpectedChar c offset => s!"unexpected character '{c}' at offset {offset}"
  | unterminatedText offset => s!"unterminated string literal starting at offset {offset}"
  | badNumber text => s!"invalid number literal '{text}'"
  | unexpected found offset expected =>
    "unexpected " ++ found.describe ++ s!" at offset {offset}, expected " ++ expected.text
  | unexpectedEnd expected => "unexpected end of predicate, expected " ++ expected.text
  | unknownAttribute name => s!"unknown attribute '{name}'"
  | unknownField field kind => s!"unknown field '.{field}' on {kind} value"
  | mismatch operator left right => s!"cannot apply '{operator}' to {left} and {right}"
  | unaryMismatch operator operand => s!"cannot apply unary '{operator}' to {operand}"
  | divisionByZero => "division by zero"
  | overflow operator => s!"arithmetic overflow in '{operator}'"

end Fault

end RelationalAlgebra.Predicate
