import RelationalAlgebra.CommandLine.Arguments
import RelationalAlgebra.CommandLine.LogFilter
import RelationalAlgebra.Configuration
import RelationalAlgebra.Program.Script
import RelationalAlgebra.Query.Plan
import RelationalAlgebra.Relation.Table
import RelationalAlgebra.Storage.Directory
/-!
# Running commands

A request runs on a file system and gives the text to print or a complaint.  First the configuration is
loaded, then the log filter is checked, then the relations are loaded, and last the command runs; the first
of these that fails is the complaint, and then nothing is printed.
-/

namespace RelationalAlgebra.CommandLine

inductive Complaint where
  | usage
  | configuration (fault : Configuration.Fault)
  /-- The log filter has a flaw that ends the program. -/
  | tornFilter
  /-- The file of a program holds no text. -/
  | script
  | failure (failure : Failure)

namespace Complaint

def code : Complaint → Nat
  | usage => 2
  | configuration _ | script | failure _ => 1
  | tornFilter => 101

def fileMessage : Failure → String
  | .badLogLevel => "invalid argument: Invalid log level: not a list of directives"
  | .io => "I/O error: the file cannot be read or written"
  | .csv => "csv error: the file holds no table"
  | _ => "json error: the file holds no relation"

def text : Complaint → String
  | usage => "usage: relalg [OPTIONS] eval|optimize|split|program|explain [OPTIONS] OPERAND"
  | configuration .unreadable => "the configuration cannot be read"
  | configuration .malformed => "the configuration is malformed"
  | configuration .directory => "the directory of the configuration cannot be created"
  | configuration .unwritable => "the configuration cannot be written"
  | tornFilter => "the log filter is cut inside a character"
  | script => "the program cannot be read"
  | failure f => f.message?.getD (fileMessage f)

def line (c : Complaint) : String := "error: " ++ c.text ++ "\n"

end Complaint

def version : String := "relalg 0.4.0\n"

def defaultConfiguration? (vars : Variables) : Option String :=
  let base? := ((vars Request.configHomeVariable).filter Path.isAbsolute).or
    (((vars Request.homeVariable).filter (· ≠ "")).map fun home => Path.inside home ".config")
  base?.map fun base => Path.inside base "relalg/config.toml"

variable {m : Type → Type} [Monad m] [FileSystem m]

def loadConfiguration (vars : Variables) (options : Options) : ExceptT Complaint m Configuration :=
  match options.config?.or (defaultConfiguration? vars) with
  | none => pure {}
  | some path => ExceptT.mk do
    pure ((← Configuration.load path).mapError .configuration)

def checkLogFilter (options : Options) (c : Configuration) : ExceptT Complaint m Unit :=
  match LogFilter.check (options.logLevel?.getD c.logLevel) with
  | .ok () => pure ()
  | .error .malformed => throw (.failure .badLogLevel)
  | .error .torn => throw .tornFilter

def succeed {α : Type} (result : Except Failure α) : ExceptT Complaint m α :=
  ExceptT.mk (pure (result.mapError .failure))

def loadAll (env : Environment) : List (String × String) → ExceptT Complaint m Environment
  | [] => pure env
  | (name, path) :: rest => do
    let loaded ← ExceptT.lift (Environment.load env name path)
    loadAll (← succeed loaded) rest

/-- The relations of the data directory, and then those of single files. -/
def loadEnvironment (options : Options) (c : Configuration) : ExceptT Complaint m Environment := do
  let env ←
    match options.dataDirectory?.or c.directory? with
    | none => pure ∅
    | some path => do
      let (env, names) ← ExceptT.lift (Environment.loadDirectory ∅ path)
      let _ ← succeed names
      pure env
  loadAll env options.load

def readQuery (text : String) : Except Failure Query.Tree :=
  (Query.Tree.ofText? text).mapError Failure.ofReadFault

def prepare (settings : Rewrite.Settings) (env : Environment) (optimized : Bool) (text : String) :
    Except Failure Query.Tree := do
  let tree ← readQuery text
  if optimized then (Rewrite.optimize settings env tree).map Rewrite.Optimized.tree else pure tree

def asLine (text : String) : String := text ++ "\n"

def Output.print (output : Output) (r : Relation) : String :=
  match output with
  | table => String.join ((Text.lines r.table.toList).map fun l => asLine (String.ofList l))
  | csv => r.toCsv
  | json => asLine r.toJson

def traceLine (step : Rewrite.Step) : String :=
  asLine (step.rule.name ++ " (" ++ toString step.changes ++ "): " ++ step.tree.write)

def execute (settings : Rewrite.Settings) (env : Environment) : Command → ExceptT Complaint m String
  | .eval query optimized output? format => do
    let tree ← succeed (prepare settings env optimized query)
    let r ← succeed (tree.eval env)
    match output? with
    | none => pure (format.print r)
    | some path => do
      let saved ← ExceptT.lift (r.save path)
      succeed saved
      pure (asLine (s!"✔ saved {r.size} rows to " ++ path))
  | .optimize query structural schematic trace => do
    let settings : Rewrite.Settings :=
      ⟨settings.structural && structural, settings.schematic && schematic, settings.trace || trace⟩
    let tree ← succeed (readQuery query)
    let optimized ← succeed (Rewrite.optimize settings env tree)
    pure (String.join (optimized.trace.map traceLine) ++ asLine optimized.tree.write)
  | .split query optimized => do
    let tree ← succeed (prepare settings env optimized query)
    pure (asLine (Program.write (Program.ofTree env tree)))
  | .program file => do
    match (← ExceptT.lift (FileSystem.look file)).text? with
    | none => throw .script
    | some script => do
      let program ← succeed (Program.optimizeScript env script)
      pure (asLine program)
  | .explain query => do
    let tree ← succeed (readQuery query)
    let plan ← succeed tree.plan
    pure plan.explain

def Request.execute (vars : Variables) : Request → ExceptT Complaint m String
  | version => pure CommandLine.version
  | run options command => do
    let c ← loadConfiguration vars options
    checkLogFilter options c
    let env ← loadEnvironment options c
    CommandLine.execute c.settings env command

def run (vars : Variables) (arguments : List String) : m (Except Complaint String) :=
  match Request.ofArguments? vars arguments with
  | none => pure (.error .usage)
  | some request => (request.execute vars).run

end RelationalAlgebra.CommandLine
