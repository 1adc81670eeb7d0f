import LuaTranspiler.CommandLine.Run

/-!
# The program

The files and streams of the system, and the program that runs on them.
-/

namespace LuaTranspiler

/-- The reason behind an error of the system. Some of its operations give the code of a reason with
its sign turned. -/
def FileError.ofSystem : IO.Error → FileError
  | .noFileOrDirectory .. => .notFound
  | .alreadyExists .. => .exists
  | .inappropriateType _ code _ =>
    if code = 21 || 0 - code = 21 then .isDirectory else .notDirectory
  | .invalidArgument _ code details =>
    if code = 36 || 0 - code = 36 then .nameTooLong else .other details
  | e => .other (toString e)

/-- Runs an action of the system that may fail. -/
def attempt {α : Type} (action : IO α) : IO (Except FileError α) := do
  match ← action.toBaseIO with
  | .ok a => return .ok a
  | .error e => return .error (.ofSystem e)

/-- What a path names, if it names something. -/
def fileType? (path : String) : IO (Option IO.FS.FileType) := do
  match ← attempt (do return (← (← IO.FS.realPath path).metadata).type) with
  | .ok type => return some type
  | .error _ => return none

instance : Files IO where
  isFile path := return (← fileType? path) == some .file
  isDirectory path := return (← fileType? path) == some .dir
  read path := do
    match ← attempt (IO.FS.readBinFile path) with
    | .error e => return .error e
    | .ok content =>
      match String.fromUTF8? content with
      | none => return .error .notText
      | some s => return .ok s
  makeDirectory path := attempt (IO.FS.createDir path)
  write path content := attempt (IO.FS.writeFile path content)
  print s := IO.print s
  report s := IO.eprint s

/-- Runs a command line with the files and streams of the system. -/
def program (f : CommandLine.Formats) (args : List String) : IO UInt32 := do
  return (← CommandLine.run f args).toUInt32

end LuaTranspiler
