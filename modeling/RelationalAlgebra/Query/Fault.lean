import RelationalAlgebra.Predicate.Fault
import RelationalAlgebra.Query.Operator
import RelationalAlgebra.Text.Blank
/-!
# Faults of queries

Why a text is no list of tokens, and why tokens, parameters or lines of a program are not what they
have to be.
-/

namespace RelationalAlgebra.Query

inductive LexFault where
  | unmatchedOpen (offset : Nat)
  | unmatchedClose (offset : Nat)
deriving DecidableEq

def LexFault.message : LexFault → String
  | unmatchedOpen offset => s!"unmatched '(' at offset {offset}"
  | unmatchedClose offset => s!"unmatched ')' at offset {offset}"

inductive ParseFault where
  | emptyText
  | noTokens
  | unknownSymbol (text : String)
  | emptyGroup
  | badRelationName (name : String)
  | missingLeft (operator : Binary)
  | missingRight (operator : Binary)
  | unexpectedBefore (before : String) (operator : Unary)
  | missingParameter (operator : Unary)
  | missingOperand (operator : Unary) (parameter : String)
  | surplus (operator : Unary) (parameter rest : String)
  | unparsable (text : String)
  | emptyPredicate
  | badPredicate (text : String) (fault : Predicate.Fault)
  | badAttribute (name list : String)
  | missingArrow (entry : String)
  | badRenaming (entry : String)
  | renamedTwice (name : String)
  | emptyProgram
  | notAssignment (line : String)
deriving DecidableEq

def arrow : Char := '➡'

def ParseFault.message : ParseFault → String
  | emptyText => "empty expression"
  | noTokens => "expected an expression"
  | unknownSymbol text => s!"unknown symbol '{text}'"
  | emptyGroup => "empty parentheses"
  | badRelationName name => s!"'{name}' is not a valid relation name"
  | missingLeft op => "missing left operand of " ++ op.symbol.toString
  | missingRight op => "missing right operand of " ++ op.symbol.toString
  | unexpectedBefore before op => s!"unexpected '{before}' before " ++ op.symbol.toString
  | missingParameter op => "expected a parameter after " ++ op.symbol.toString
  | missingOperand op parameter =>
    "expected more tokens after '" ++ op.symbol.toString ++ s!" {parameter}'"
  | surplus op parameter rest =>
    "too many tokens after '" ++ op.symbol.toString ++ s!" {parameter}': {rest}"
  | unparsable text => s!"cannot parse '{text}'"
  | emptyPredicate => "selection needs a predicate"
  | badPredicate text fault =>
    "invalid predicate `" ++ Text.trimmed text ++ "`: " ++ fault.message
  | badAttribute name list => s!"invalid attribute '{name}' in projection list '{list}'"
  | missingArrow entry => s!"rename entry '{entry}' needs the form old{arrow}new"
  | badRenaming entry => s!"invalid rename entry '{entry}'"
  | renamedTwice name => s!"attribute '{name}' renamed more than once"
  | emptyProgram => "empty program"
  | notAssignment line => s!"expected `name = query`, found '{line}'"

end RelationalAlgebra.Query
