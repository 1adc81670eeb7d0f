import LuaTranspiler.Files.Path

/-!
# Access to files

What a run needs of the world outside, apart from what that world is.

* `FileError`: why a file cannot be read or written
* `Files`: a monad in which files are read and written and lines are reported
* `makeDirectories`: making a directory and those above it
-/

namespace LuaTranspiler

/-- Why a file cannot be read or written. -/
inductive FileError where
  | notFound
  | isDirectory
  | notDirectory
  | exists
  | nameTooLong
  /-- The bytes are not UTF-8. -/
  | notText
  /-- A reason given by the system. -/
  | other (reason : String)
deriving DecidableEq

/-- The wording of a reason. -/
def FileError.message : FileError → String
  | notFound => "No such file or directory (os error 2)"
  | isDirectory => "Is a directory (os error 21)"
  | notDirectory => "Not a directory (os error 20)"
  | .exists => "File exists (os error 17)"
  | nameTooLong => "File name too long (os error 36)"
  | notText => "stream did not contain valid UTF-8"
  | other reason => reason

/-- Access to files and to the two streams of output. -/
class Files (m : Type → Type) where
  /-- Whether a path names a regular file. -/
  isFile : String → m Bool
  /-- Whether a path names a directory. -/
  isDirectory : String → m Bool
  /-- The text of a file. -/
  read : String → m (Except FileError String)
  /-- Makes a directory in one that is there. -/
  makeDirectory : String → m (Except FileError Unit)
  /-- Writes a file, in place of an earlier one. -/
  write : String → String → m (Except FileError Unit)
  /-- Prints on standard output. -/
  print : String → m Unit
  /-- Prints on standard error. -/
  report : String → m Unit

section MakeDirectories

variable {m : Type → Type} [Monad m] [Files m]

/-- A directory that could not be made is as good as made when it is there. -/
def acceptDirectory (path : String) (e : FileError) : m (Except FileError Unit) := do
  if ← Files.isDirectory path then return .ok () else return .error e

/-- Makes the first of some directories, each of which lies in the next. Those behind it are made
only if it finds no place. -/
def makeInner : List String → m (Except FileError Unit)
  | [] => return .ok ()
  | path :: above => do
    match ← Files.makeDirectory path with
    | .ok _ => return .ok ()
    | .error .notFound =>
      match ← makeInner above with
      | .error e => return .error e
      | .ok _ =>
        match ← Files.makeDirectory path with
        | .ok _ => return .ok ()
        | .error e => acceptDirectory path e
    | .error e => acceptDirectory path e

/-- Makes a directory and those above it that are missing. -/
def makeDirectories (path : String) : m (Except FileError Unit) := makeInner (Path.chain path)

end MakeDirectories

end LuaTranspiler
