/-!
# Comma-separated values

Records of fields, as bytes.  A field may stand between quotes, in which a quote is written twice; lines
end with a newline, a carriage return or both, and empty lines are no records.  What follows a closing
quote belongs to the field as it is.
-/

namespace RelationalAlgebra.Csv

inductive State where
  | betweenRecords
  | fieldStart
  | plain
  | quoted
  | afterQuote
deriving DecidableEq

abbrev Field := List UInt8

def comma : UInt8 := 44

def quote : UInt8 := 34

def isLineEnd (b : UInt8) : Bool := b = 10 || b = 13

/-- The records of a text.  `field` is the field being read and `fields` are those before it in its
record, in each of which the last element comes first. -/
def recordsFrom (state : State) (field : Field) (fields : List Field) :
    List UInt8 → List (List Field)
  | [] =>
    match state with
    | .betweenRecords => []
    | _ => [(field.reverse :: fields).reverse]
  | b :: bs =>
    if state = .quoted then
      if b = quote then recordsFrom .afterQuote field fields bs
      else recordsFrom .quoted (b :: field) fields bs
    else if state = .afterQuote && b = quote then recordsFrom .quoted (b :: field) fields bs
    else if isLineEnd b then
      if state = .betweenRecords then recordsFrom .betweenRecords [] [] bs
      else (field.reverse :: fields).reverse :: recordsFrom .betweenRecords [] [] bs
    else if b = comma then recordsFrom .fieldStart [] (field.reverse :: fields) bs
    else if b = quote && (state = .betweenRecords || state = .fieldStart) then
      recordsFrom .quoted [] fields bs
    else recordsFrom .plain (b :: field) fields bs

def dropMark : List UInt8 → List UInt8
  | 0xEF :: 0xBB :: 0xBF :: bs => bs
  | bs => bs

def records (bytes : List UInt8) : List (List Field) :=
  recordsFrom .betweenRecords [] [] (dropMark bytes)

def decodeField? (field : Field) : Option String := String.fromUTF8? ⟨field.toArray⟩

def decodeRecord? (fields : List Field) : Option (List String) := fields.mapM decodeField?

def needsQuotes (c : Char) : Bool := c = ',' || c = '"' || c = '\n' || c = '\r'

def writeField (field : String) : String :=
  if field.toList.any needsQuotes then
    String.ofList ('"' :: (field.toList.flatMap fun c => if c = '"' then ['"', '"'] else [c]) ++ ['"'])
  else field

/-- A record on a line of its own; a record whose line would be empty has a quoted empty field. -/
def writeRecord (fields : List String) : String :=
  let line := String.intercalate "," (fields.map writeField)
  (if line = "" then "\"\"" else line) ++ "\n"

def write (records : List (List String)) : String := String.join (records.map writeRecord)

end RelationalAlgebra.Csv
