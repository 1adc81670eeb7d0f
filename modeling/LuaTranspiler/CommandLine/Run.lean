import LuaTranspiler.CommandLine.Formats
import LuaTranspiler.Files.Transpile
import LuaTranspiler.Target.Outline

/-!
# Running a command line

The files are all read before anything is written. A file without output is reported and the others
go on; a file that cannot be written ends the run.

* `emitFile`: the output of one file
* `drive`: a run with given arguments
* `run`: a run of a command line, with its exit code
-/

namespace LuaTranspiler.CommandLine

/-- The exit code of a run in which all went well. -/
def success : Nat := 0

/-- The exit code of a run in which something failed. -/
def failure : Nat := 1

/-- The exit code for arguments that make no sense. -/
def misuse : Nat := 2

/-- What is printed for the output of a file. -/
def Emit.render (f : Formats) (output : Output) : Emit → Except String String
  | .code => .ok output.code
  | .tree => f.document (Target.outline output.statements)

/-- The extension of the file that this goes to. -/
def Emit.extension : Emit → String
  | .code => ".ts"
  | .tree => ".ts.yml"

/-- A line map as printed. -/
def mapText (f : Formats) (mappings : List LineMapping) : Except String String :=
  f.document (mappings.map LineMapping.data)

/-- Why a run ends early. -/
inductive Abort where
  | options (f : Failure)
  | directory (path : String) (e : FileError)
  | tree (reason : String)
  | map (reason : String)
  | writing (path : String) (e : FileError)
deriving DecidableEq

/-- The wording of an early end. A failure that has its reason from outside tells it twice. -/
def Abort.message : Abort → String
  | options (.reading path e) => (Failure.reading path e).message ++ ": " ++ e.message
  | options (.configuration path reason) =>
    (Failure.configuration path reason).message ++ ": " ++ reason
  | options (.source r) => r.message
  | directory path e => "Cannot create output directory '" ++ path ++ "': " ++ e.message
  | tree reason => "Cannot serialize the output tree: " ++ reason
  | map reason => "Cannot serialize the source map: " ++ reason
  | writing path e => "Cannot write '" ++ path ++ "': " ++ e.message

variable {m : Type → Type} [Monad m] [Files m]

/-- Writes a file or ends the run. -/
def writeFile (path content : String) : ExceptT Abort m Unit := do
  match ← Files.write (m := m) path content with
  | .ok _ => return
  | .error e => throw (.writing path e)

/-- Prints the output of a file, or writes it and its line map to a directory. -/
def emitFile (f : Formats) (a : Arguments) (path : String) (output : Output) :
    ExceptT Abort m Unit := do
  match a.emit.render f output with
  | .error reason => throw (.tree reason)
  | .ok text =>
    match a.outDir with
    | none => Files.print (m := m) text
    | some directory =>
      writeFile (Path.join directory (Path.stem path ++ a.emit.extension)) text
      match output.sourceMap with
      | none => return
      | some mappings =>
        match mapText f mappings with
        | .error reason => throw (.map reason)
        | .ok text => writeFile (Path.join directory (Path.stem path ++ ".ts.map.yml")) text

/-- Reports a line about a file. -/
def reportLine (kind path message : String) : m Unit :=
  Files.report (kind ++ ": " ++ path ++ ": " ++ message ++ "\n")

/-- Reports lines about a file. -/
def reportLines (kind path : String) : List String → m Unit
  | [] => return
  | message :: messages => do
    reportLine kind path message
    reportLines kind path messages

/-- Goes through the results of all files. The answer is whether all have an output. -/
def emitFiles (f : Formats) (a : Arguments) :
    List (String × Except Failure Output) → ExceptT Abort m Bool
  | [] => return true
  | (path, .ok output) :: results => do
    reportLines (m := m) "W" path output.diagnostics
    emitFile f a path output
    emitFiles f a results
  | (path, .error e) :: results => do
    reportLine (m := m) "E" path e.message
    let _ ← emitFiles f a results
    return false

/-- The options of a run: those of the configuration file and those of the command line. -/
def runOptions (f : Formats) (a : Arguments) : ExceptT Abort m Options := do
  match a.config with
  | none => return a.options
  | some path =>
    match ← loadOptions (m := m) f.options path with
    | .error e => throw (.options e)
    | .ok o => return o.merge a.options

/-- A run with given arguments. The answer is whether all files have an output. -/
def drive (f : Formats) (a : Arguments) : ExceptT Abort m Bool := do
  let o ← runOptions f a
  match a.outDir with
  | none => pure ()
  | some path =>
    match ← makeDirectories (m := m) path with
    | .ok _ => pure ()
    | .error e => throw (.directory path e)
  emitFiles f a (← transpileFiles (m := m) o a.files)

/-- A run of a command line, with its exit code. -/
def run (f : Formats) (args : List String) : m Nat := do
  match f.arguments args with
  | .error (.answer text) => do
    Files.print text
    return success
  | .error (.misuse text) => do
    Files.report text
    return misuse
  | .ok a => do
    match ← (drive f a).run with
    | .ok true => return success
    | .ok false => return failure
    | .error abort => do
      Files.report ("E: " ++ abort.message ++ "\n")
      return failure

end LuaTranspiler.CommandLine
