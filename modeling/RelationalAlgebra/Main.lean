import RelationalAlgebra.CommandLine.Run
/-!
# The program

The command line on the file system of the machine.
-/

open RelationalAlgebra

namespace RelationalAlgebra.CommandLine

def succeeds (action : IO Unit) : IO Bool := do
  match ← action.toBaseIO with
  | .ok () => pure true
  | .error _ => pure false

def result? {α : Type} (action : IO α) : IO (Option α) := do
  match ← action.toBaseIO with
  | .ok a => pure (some a)
  | .error _ => pure none

instance : FileSystem IO where
  look path := do
    match ← result? (IO.FS.readBinFile path) with
    | some bytes => pure (.file bytes.toList)
    | none =>
      let isDirectory ← result? do (← IO.FS.realPath path).isDir
      pure (if isDirectory = some true then .directory else .missing)
  list path := do
    let entries ← result? do (← IO.FS.realPath path).readDir
    pure (entries.map fun entries => Name.sorted (entries.toList.map fun entry => entry.fileName))
  store path text := succeeds (IO.FS.writeFile path text)
  createDirectories path := if path = "" then pure true else succeeds (IO.FS.createDirAll path)

def readVariables : IO Variables := do
  let values ← Request.variableNames.mapM fun name => do pure (name, ← IO.getEnv name)
  pure fun name => (values.lookup name).join

end RelationalAlgebra.CommandLine

def main (arguments : List String) : IO UInt32 := do
  let outcome ← CommandLine.run (← CommandLine.readVariables) arguments
  match outcome with
  | .ok text =>
    IO.print text
    pure 0
  | .error complaint =>
    IO.eprint complaint.line
    pure complaint.code.toUInt32
