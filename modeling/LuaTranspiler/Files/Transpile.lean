import LuaTranspiler.Files.Access
import LuaTranspiler.Transpile

/-!
# Transpiling files

* `Failure`: why a file has no output
* `loadOptions`: the options in a configuration file
* `transpileFile`, `transpileFiles`: the outputs of files
-/

namespace LuaTranspiler

/-- Why a file has no output. -/
inductive Failure where
  | reading (path : String) (e : FileError)
  | configuration (path reason : String)
  | source (r : Refusal)
deriving DecidableEq

/-- The wording of a failure. -/
def Failure.message : Failure → String
  | reading path e => "Cannot read '" ++ path ++ "': " ++ e.message
  | configuration path reason => "Invalid configuration in '" ++ path ++ "': " ++ reason
  | source r => r.message

variable {m : Type → Type} [Monad m] [Files m]

/-- The options in a configuration file, where `format` reads those that are not blank. -/
def loadOptions (format : String → Except String Options) (path : String) :
    m (Except Failure Options) := do
  match ← Files.read path with
  | .error e => return .error (.reading path e)
  | .ok text =>
    match Options.ofConfiguration format text with
    | .error reason => return .error (.configuration path reason)
    | .ok o => return .ok o

/-- The output of a file. -/
def transpileFile (o : Options) (path : String) : m (Except Failure Output) := do
  match ← Files.read path with
  | .error e => return .error (.reading path e)
  | .ok text =>
    match transpile o text with
    | .error r => return .error (.source r)
    | .ok output => return .ok output

/-- The outputs of those paths that name files, in order. -/
def transpileFiles (o : Options) : List String → m (List (String × Except Failure Output))
  | [] => return []
  | path :: paths => do
    if ← Files.isFile path then
      let result ← transpileFile o path
      return (path, result) :: (← transpileFiles o paths)
    else transpileFiles o paths

end LuaTranspiler
