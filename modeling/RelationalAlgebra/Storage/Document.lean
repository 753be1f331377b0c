import RelationalAlgebra.Failure
import RelationalAlgebra.Name.Map
import RelationalAlgebra.Relation.Basic
import RelationalAlgebra.Storage.Csv
import RelationalAlgebra.Storage.Json
/-!
# Relations as documents

A relation is kept as comma-separated values, of which the first record is the header, or as a JSON
object with a header and a content.  Both hold the text of each cell, and reading them finds the kinds
of the columns again.
-/

namespace RelationalAlgebra

namespace Json

/-- The value of digits as they are read one by one: digits that would make more than 64 bits are
dropped.  Gives the significand and the number of whole digits dropped. -/
def significand (digits : List Char) (start : Nat) : Nat × Nat :=
  let digit (c : Char) := c.toNat - '0'.toNat
  match digits with
  | [] => (start, 0)
  | d :: ds =>
    if start * 10 + digit d < Nat.pow 2 64 then significand ds (start * 10 + digit d)
    else (start, ds.length + 1)

/-- A significand times a power of ten, by at most one multiplication or a few divisions. -/
def scaled (rounds : Nat) (x : Binary64) (exponent : Int) : Option Binary64 :=
  let power (n : Nat) := Binary64.ofDecimal false 1 n
  if exponent.natAbs ≤ 308 then
    if 0 ≤ exponent then
      let y := x.mul (power exponent.natAbs)
      if y.isFinite then some y else none
    else some (x.div (power exponent.natAbs))
  else if x.isZero then some x
  else if 0 ≤ exponent then none
  else
    match rounds with
    | 0 => some x
    | rounds + 1 => scaled rounds (x.div (power 308)) (exponent + 308)

namespace Numeral

/-- The number that has to be written with a point or an exponent; none when it is too large. -/
def float? (n : Numeral) : Option Binary64 :=
  let (whole, dropped) := significand n.whole 0
  let (value, rest) := significand n.fraction whole
  let exponent : Int := (dropped : Int) - ((n.fraction.length - rest : Nat) : Int)
  let exponent := match n.exponent with
    | none => exponent
    | some (neg, ds) => if neg then exponent - Text.natValue ds else exponent + Text.natValue ds
  let magnitude :=
    if value = 0 then some (Binary64.ofInt 0)
    else scaled 3 (Binary64.ofInt value) exponent
  magnitude.map fun x => if n.negative then x.neg else x

def isInteger (n : Numeral) : Bool :=
  let value := Text.natValue n.whole
  n.fraction = [] && n.exponent = none &&
    (if n.negative then value ≠ 0 && value ≤ Nat.pow 2 63 else value < Nat.pow 2 64)

def write? (n : Numeral) : Option String :=
  if n.isInteger then
    some ((if n.negative then "-" else "") ++ String.ofList n.whole)
  else n.float?.map Layout.document.write

end Numeral

def entry (e : String × String) : String := Text.quoted e.1 ++ ":" ++ e.2

/-- The text of a value; the members of an object are sorted by name, and of several members of one
name the last is kept. -/
def write? : Json → Option String
  | null => some "null"
  | bool true => some "true"
  | bool false => some "false"
  | number n => n.write?
  | text s => s.map Text.quoted
  | list items => (writeItems? items).map fun ts => "[" ++ String.intercalate "," ts ++ "]"
  | object members =>
    (writeMembers? members).map fun ms =>
      "\x7b" ++ String.intercalate "," ((Name.Map.ofList ms).entries.map entry) ++ "\x7d"
where
  writeItems? : List Json → Option (List String)
    | [] => some []
    | item :: items =>
      match item.write?, writeItems? items with
      | some t, some ts => some (t :: ts)
      | _, _ => none
  writeMembers? : List (Option String × Json) → Option (List (String × String))
    | [] => some []
    | (key, item) :: members =>
      match key, item.write?, writeMembers? members with
      | some key, some t, some ms => some ((key, t) :: ms)
      | _, _, _ => none

def text? : Json → Option String
  | text s => s
  | _ => none

def list? : Json → Option (List Json)
  | list items => some items
  | _ => none

/-- The depth of lists and objects that a document may have. -/
def depthLimit : Nat := 127

def cell? (value : Json) : Option String :=
  if depthLimit < value.depth + 3 then none
  else
    match value with
    | text s => s
    | value => value.write?

def member? (name : String) (members : List (String × Json)) : Option Json :=
  match members.filter fun m => m.1 = name with
  | [m] => some m.2
  | _ => none

def table? (document : Json) : Option (List String × List (List String)) := do
  let (header, content) ← match document with
    | object members => do
      let members ← members.mapM fun m => m.1.map fun key => (key, m.2)
      let header ← member? "header" members
      let content ← member? "content" members
      some (header, content)
    | list [header, content] => some (header, content)
    | _ => none
  let names ← (← header.list?).mapM text?
  let rows ← (← content.list?).mapM fun row => do (← row.list?).mapM cell?
  some (names, rows)

def block (indent : Nat) (items : List String) : String :=
  let margin := "".pushn ' ' indent
  if items.isEmpty then "[]"
  else
    let lines := items.map fun item => margin ++ "  " ++ item
    "[\n" ++ String.intercalate ",\n" lines ++ "\n" ++ margin ++ "]"

end Json

namespace Relation

def ofTable? (names : List String) (rows : List (List String)) : Except Failure Relation :=
  match Header.ofNames? names with
  | .error fault => .error (.schema fault)
  | .ok header => (ofRaw? header rows).mapError .schema

/-- Reads comma-separated values.  All records have as many fields as the first. -/
def ofCsv? (bytes : List UInt8) : Except Failure Relation :=
  match Csv.records bytes with
  | [] => ofTable? [] []
  | first :: rest =>
    match Csv.decodeRecord? first with
    | none => .error .csv
    | some names =>
      match Header.ofNames? (names.map Text.trimmed) with
      | .error fault => .error (.schema fault)
      | .ok header =>
        if rest.all fun fields => fields.length = first.length then
          match rest.mapM Csv.decodeRecord? with
          | none => .error .csv
          | some rows => (ofRaw? header rows).mapError .schema
        else .error .csv

def toCsv (r : Relation) : String :=
  Csv.write (r.names :: r.rows.map fun row => row.map Cell.write)

def ofJson? (text : String) : Except Failure Relation :=
  match (Json.ofText? text.toList).bind Json.table? with
  | none => .error .json
  | some (names, rows) => ofTable? names rows

def toJson (r : Relation) : String :=
  let header := Json.block 2 (r.names.map Text.quoted)
  let rows := r.rows.map fun row => Json.block 4 (row.map fun c => Text.quoted c.write)
  "\x7b\n  \"header\": " ++ header ++ ",\n  \"content\": " ++ Json.block 2 rows ++ "\n\x7d"

end Relation

end RelationalAlgebra
