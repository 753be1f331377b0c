import RelationalAlgebra.Query.Tree.Reading
import RelationalAlgebra.Relation.Fault
/-!
# Failures

Everything that can keep a query, a change or a file from giving a result.
-/

namespace RelationalAlgebra

inductive Failure where
  | lex (fault : Query.LexFault)
  | parse (fault : Query.ParseFault)
  | schema (fault : SchemaFault)
  | evaluation (source : String) (row : Row) (fault : Predicate.Fault)
  | unbound (name : String)
  | unknownFormat (path : String)
  | badLogLevel
  | io
  | csv
  | json
deriving DecidableEq

namespace Failure

def ofReadFault : Query.ReadFault → Failure
  | .lex fault => lex fault
  | .parse fault => parse fault

def code : Failure → String
  | lex _ => "TokenizeError"
  | parse _ => "ParseError"
  | schema _ => "SchemaError"
  | evaluation .. => "EvaluationError"
  | unbound _ => "NameError"
  | unknownFormat _ => "Unsupported"
  | badLogLevel => "InvalidArgument"
  | io => "IoError"
  | csv => "CsvError"
  | json => "JsonError"

def listed (row : Row) : String := "(" ++ String.intercalate ", " (row.map Cell.quoted) ++ ")"

/-- The message of a failure; what the system or a format says about a file is not part of it. -/
def message? : Failure → Option String
  | lex fault => some ("tokenize error: " ++ fault.message)
  | parse fault => some ("parse error: " ++ fault.message)
  | schema fault => some ("schema error: " ++ fault.message)
  | evaluation source row fault =>
    some (s!"evaluation error in `{source}` on tuple " ++ listed row ++ ": " ++ fault.message)
  | unbound name => some s!"name error: relation '{name}' is not defined"
  | unknownFormat path => some s!"unsupported: unknown relation file format: {path}"
  | badLogLevel | io | csv | json => none

end Failure

end RelationalAlgebra
