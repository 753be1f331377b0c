import RelationalAlgebra.Text.Blank
import RelationalAlgebra.Text.Piece
/-!
# Arguments

The arguments of the command line name a command, its operand and options.  Options that all commands share
may also stand before the command; those after it win.  The value of an option stands in the next argument
or after an equals sign.  Arguments that do not fit together make no request.
-/

namespace RelationalAlgebra.CommandLine

inductive Switch where
  | config
  | logLevel
  | dataDirectory
  | load
  | plain
  | optimize
  | output
  | format
  | structuralOnly
  | schematicOnly
  | trace
  | asWritten
deriving DecidableEq

inductive Output where
  | table
  | csv
  | json
deriving DecidableEq

namespace Output

def ofName? : String → Option Output
  | "text" => some table
  | "csv" => some csv
  | "json" => some json
  | _ => none

end Output

def binding? (text : String) : Option (String × String) :=
  match Text.cutAt '=' text.toList with
  | none => none
  | some (name, path) =>
    match Text.trim name, Text.trim path with
    | [], _ | _, [] => none
    | name, path => some (String.ofList name, String.ofList path)

namespace Switch

def all : List Switch :=
  [config, logLevel, dataDirectory, load, plain, optimize, output, format, structuralOnly,
    schematicOnly, trace, asWritten]

def spelling : Switch → String
  | config => "--config"
  | logLevel => "--log-level"
  | dataDirectory => "--data-dir"
  | load => "--load"
  | plain => "--plain"
  | optimize => "--optimize"
  | output => "--output"
  | format => "--format"
  | structuralOnly => "--general-only"
  | schematicOnly => "--specific-only"
  | trace => "--trace"
  | asWritten => "--no-optimize"

def ofSpelling? (text : String) : Option Switch := all.find? fun s => s.spelling = text

def shared : List Switch := [config, logLevel, dataDirectory, load, plain]

def takesValue : Switch → Bool
  | config | logLevel | dataDirectory | load | output | format => true
  | plain | optimize | structuralOnly | schematicOnly | trace | asWritten => false

def repeats (s : Switch) : Bool := s = load

/-- Whether a text may be the value of an option; paths are not empty. -/
def accepts : Switch → String → Bool
  | config, value | dataDirectory, value | output, value => value ≠ ""
  | load, value => (binding? value).isSome
  | format, value => (Output.ofName? value).isSome
  | _, _ => true

end Switch

/-- An argument, with its value if it is an option that has one. -/
inductive Item where
  | option (name : String) (value? : Option String)
  | short (text : String)
  | word (text : String)
  /-- Two hyphens alone, after which no argument is an option. -/
  | separator
deriving DecidableEq

namespace Item

/-- Whether an argument begins like an option; a hyphen alone is a word. -/
def isOption (argument : String) : Bool := argument.toList.head? = some '-' && argument ≠ "-"

def takesValue (name : String) : Bool := (Switch.ofSpelling? name).any Switch.takesValue

def single (argument : String) : Item :=
  match argument.toList with
  | '-' :: '-' :: _ =>
    match Text.cutAt '=' argument.toList with
    | some (name, value) => option (String.ofList name) (some (String.ofList value))
    | none => option argument none
  | _ => short argument

def ofArguments : List String → List Item
  | [] => []
  | argument :: rest =>
    if argument = "--" then separator :: rest.map word
    else if isOption argument then
      match rest with
      | value :: others =>
        if takesValue argument && !isOption value then
          option argument (some value) :: ofArguments others
        else single argument :: ofArguments (value :: others)
      | [] => [single argument]
    else word argument :: ofArguments rest

end Item

abbrev Given := List (Switch × String)

namespace Given

def has (given : Given) (s : Switch) : Bool := given.any fun e => e.1 = s

def value? (given : Given) (s : Switch) : Option String :=
  (given.find? fun e => e.1 = s).map Prod.snd

def values (given : Given) (s : Switch) : List String :=
  (given.filter fun e => e.1 = s).map Prod.snd

def add? (given : Given) (known : List Switch) (name : String) (value? : Option String) :
    Option Given :=
  match (Switch.ofSpelling? name).filter known.contains with
  | none => none
  | some s =>
    if given.has s && !s.repeats then none
    else
      match s.takesValue, value? with
      | true, some value => if s.accepts value then some (given ++ [(s, value)]) else none
      | false, none => some (given ++ [(s, "")])
      | _, _ => none

end Given

inductive Verb where
  | eval
  | optimize
  | split
  | program
  | explain
deriving DecidableEq

namespace Verb

def all : List Verb := [eval, optimize, split, program, explain]

def name : Verb → String
  | eval => "eval"
  | optimize => "optimize"
  | split => "split"
  | program => "program"
  | explain => "explain"

def ofName? (name : String) : Option Verb := all.find? fun v => v.name = name

def switches : Verb → List Switch
  | eval => [.optimize, .output, .format]
  | optimize => [.structuralOnly, .schematicOnly, .trace]
  | split => [.asWritten]
  | program | explain => []

end Verb

inductive Opening where
  | version
  | verb (given : Given) (verb : Verb) (rest : List Item)

def Opening.ofItems? (given : Given) : List Item → Option Opening
  | .option name value? :: rest =>
    if name = "--version" && value?.isNone then some .version
    else (given.add? Switch.shared name value?).bind fun given => ofItems? given rest
  | .short text :: _ => if ['-', 'V'].isPrefixOf text.toList then some .version else none
  | .word text :: rest => (Verb.ofName? text).map fun v => .verb given v rest
  | .separator :: _ | [] => none

def Verb.read? (verb : Verb) (given : Given) (operands : List String) :
    List Item → Option (Given × List String)
  | [] => some (given, operands)
  | .option name value? :: rest =>
    (given.add? (Switch.shared ++ verb.switches) name value?).bind fun given =>
      verb.read? given operands rest
  | .short _ :: _ => none
  | .word text :: rest => verb.read? given (operands ++ [text]) rest
  | .separator :: rest => verb.read? given operands rest

inductive Command where
  | eval (query : String) (optimized : Bool) (output? : Option String) (format : Output)
  | optimize (query : String) (structural schematic trace : Bool)
  | split (query : String) (optimized : Bool)
  | program (file : String)
  | explain (query : String)
deriving DecidableEq

def Verb.command? (verb : Verb) (given : Given) (operand : String) : Option Command :=
  match verb with
  | .eval =>
    let format := (given.value? .format).bind Output.ofName?
    some (.eval operand (given.has .optimize) (given.value? .output) (format.getD .table))
  | .optimize =>
    let structuralOnly := given.has .structuralOnly
    let schematicOnly := given.has .schematicOnly
    if structuralOnly && schematicOnly then none
    else some (.optimize operand (!schematicOnly) (!structuralOnly) (given.has .trace))
  | .split => some (.split operand (!given.has .asWritten))
  | .program => if operand = "" then none else some (.program operand)
  | .explain => some (.explain operand)

structure Options where
  config? : Option String
  logLevel? : Option String
  dataDirectory? : Option String
  load : List (String × String)
deriving DecidableEq

inductive Request where
  | version
  | run (options : Options) (command : Command)

abbrev Variables := String → Option String

namespace Request

def configVariable : String := "RELALG_CONFIG"

def logVariable : String := "RELALG_LOG"

def configHomeVariable : String := "XDG_CONFIG_HOME"

def homeVariable : String := "HOME"

def variableNames : List String := [configVariable, logVariable, configHomeVariable, homeVariable]

/-- The options before and after the command, with the variables in place of those that are missing. -/
def options (vars : Variables) (before after : Given) : Options :=
  let value? (s : Switch) := (after.value? s).or (before.value? s)
  let load := if after.has .load then after.values .load else before.values .load
  ⟨(value? .config).or (vars configVariable), (value? .logLevel).or (vars logVariable),
    value? .dataDirectory, load.filterMap binding?⟩

/-- An empty path in the variable is a fault, except where the option is given both before and after the
command. -/
def acceptsVariables (vars : Variables) (before after : Given) : Bool :=
  vars configVariable ≠ some "" || (before.has .config && after.has .config)

def ofArguments? (vars : Variables) (arguments : List String) : Option Request :=
  match Opening.ofItems? [] (Item.ofArguments arguments) with
  | none => none
  | some .version => some .version
  | some (.verb before verb rest) =>
    match verb.read? [] [] rest with
    | some (after, [operand]) =>
      if acceptsVariables vars before after then
        (verb.command? after operand).map fun command =>
          run (options vars before after) command
      else none
    | _ => none

end Request

end RelationalAlgebra.CommandLine
