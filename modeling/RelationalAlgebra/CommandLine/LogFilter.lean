import RelationalAlgebra.CommandLine.Pattern.Reading
import RelationalAlgebra.Number.Decimal
import RelationalAlgebra.Text.Offset
/-!
# Log filters

A log filter is a list of directives with commas between them.  A directive names what is logged, as a
target, a span with its fields in brackets, or both, and may end in a level after an equals sign; a level
alone is a directive, too.  A field may have a value after an equals sign, which is a number or a pattern.

The parts of a directive are found without its outer blanks, but are cut out of the text with them.  So
blanks before a directive shift its parts to the left, and a cut may then go through a character.
-/

namespace RelationalAlgebra.LogFilter

inductive Flaw where
  | malformed
  /-- A cut goes through a character. -/
  | torn
deriving DecidableEq

inductive State where
  | start
  | target
  | span (start : Nat)
  | field (start : Nat)
  | fields
  | afterSpan
  | level (start : Nat)
deriving DecidableEq

def levelNames : List String := ["error", "warn", "info", "debug", "trace", "off"]

/-- Whether a text is a level: one of the names, in letters of either case, or a number up to five. -/
def isLevel (cs : List Char) : Bool :=
  let digits := match cs with
    | '+' :: digits => digits
    | digits => digits
  levelNames.contains (String.ofList (cs.map Char.toLower)) ||
    digits ≠ [] && digits.all Text.isDigit && Text.natValue digits ≤ 5

def startsTarget (c : Char) : Bool := ['-', ':', '_'].contains c || Text.isAlphanumeric c

def isValue (cs : List Char) : Bool :=
  (Binary64.ofText? cs).isSome || (Pattern.ofText? cs).any Pattern.isUsable

/-- Whether a text is a field: a name, and perhaps a value, which ends at the next equals sign. -/
def isField (cs : List Char) : Bool :=
  cs ≠ [] &&
    match Text.pieces '=' cs with
    | _ :: value :: _ => isValue value
    | _ => true

def part (whole : List Char) (start stop : Nat) : Except Flaw (List Char) :=
  match Text.slice? start stop whole with
  | some cs => .ok cs
  | none => .error .torn

def step (whole : List Char) (offset : Nat) (c : Char) : State → Except Flaw State
  | .start =>
    if c = '[' then .ok (.span (offset + 1))
    else if startsTarget c then .ok .target
    else .error .malformed
  | .target =>
    if c = '=' then do
      let _ ← part whole 0 offset
      pure (.level (offset + 1))
    else if c = '[' then do
      let _ ← part whole 0 offset
      pure (.span (offset + 1))
    else .ok .target
  | .span start =>
    if c = ']' then do
      let _ ← part whole start offset
      pure .afterSpan
    else if c = '\x7b' then do
      let _ ← part whole start offset
      pure (.field (offset + 1))
    else .ok (.span start)
  | .field start =>
    if c = '\x7d' then do
      if isField (← part whole start offset) then pure .fields else throw .malformed
    else .ok (.field start)
  | .fields => if c = ']' then .ok .afterSpan else .error .malformed
  | .afterSpan => if c = '=' then .ok (.level (offset + 1)) else .error .malformed
  | .level start => .ok (.level start)

def walk (whole : List Char) (offset : Nat) (state : State) : List Char → Except Flaw State
  | [] => .ok state
  | c :: cs => do walk whole (offset + c.utf8Size) (← step whole offset c state) cs

/-- Whether a directive may end in a state; no level means all of them. -/
def finish (whole : List Char) : State → Except Flaw Unit
  | .target | .afterSpan => .ok ()
  | .level start => do
    let level ← part whole start (Text.byteSize whole)
    if level = [] || isLevel level then pure () else throw .malformed
  | _ => .error .malformed

def checkDirective (whole : List Char) : Except Flaw Unit := do
  finish whole (← walk whole 0 .start (Text.trim whole))

def check (filter : String) : Except Flaw Unit :=
  ((Text.pieces ',' filter.toList).filter (· ≠ [])).forM checkDirective

end RelationalAlgebra.LogFilter
