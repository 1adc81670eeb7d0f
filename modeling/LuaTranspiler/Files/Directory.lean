import LuaTranspiler.Files.Access

/-!
# A directory in memory

* `Directory`: files and directories by their place, seen from a working directory
* `Directory.resolve`: the place that a path leads to
* `Directory.read`, `Directory.write`, `Directory.make`: reading, writing, making directories
* `World`: a directory and what was printed, in which files are accessed
-/

namespace LuaTranspiler

/-- A place: the names on the way to it from the working directory. A place above that directory is
reached by `..` alone, and a place that is told from the root of all files starts with `/`. -/
abbrev Place := List String

/-- What stands at a place. -/
inductive Entry where
  | directory
  | file (content : ByteArray)

/-- What stands at the places that are known of. -/
structure Directory where
  entries : List (Place × Entry)

namespace Directory

/-- There is nothing but the working directory and those above it. -/
def empty : Directory := ⟨[]⟩

/-- Whether a place is the working directory, one above it, or the root. These are always there. -/
def isAbove (place : Place) : Bool := place.all (· = "..") || place = ["/"]

/-- What stands at a place. -/
def at? (d : Directory) (place : Place) : Option Entry :=
  if isAbove place then some .directory else d.entries.lookup place

/-- The place that holds a given one. Nothing holds the root but the root itself. -/
def outer (place : Place) : Place :=
  if place = ["/"] then place
  else if isAbove place then ".." :: place
  else place.dropLast

/-- Puts an entry at a place, instead of what was there. -/
def put (d : Directory) (place : Place) (e : Entry) : Directory :=
  ⟨(place, e) :: d.entries.filter fun x => x.1 ≠ place⟩

/-- The places on the way from `above` along some names, the last one left out. -/
def placesAbove (above : Place) : List String → List Place
  | [] => []
  | [_] => []
  | name :: names => (above ++ [name]) :: placesAbove (above ++ [name]) names

/-- Puts an entry at a place, and directories on the way to it. -/
def add (d : Directory) (place : Place) (e : Entry) : Directory :=
  ((placesAbove [] place).foldl (fun d above => d.put above .directory) d).put place e

/-- How many bytes a name may have. -/
def longestName : Nat := 255

/-- How many bytes a path may have. -/
def longestPath : Nat := 4095

/-- Follows steps from a place, each taken from a directory. -/
def follow (d : Directory) : Place → List String → Except FileError Place
  | place, [] => .ok place
  | place, step :: steps =>
    match d.at? place with
    | none => .error .notFound
    | some (.file _) => .error .notDirectory
    | some .directory =>
      if step = "" || step = "." then d.follow place steps
      else if step = ".." then d.follow (outer place) steps
      else if longestName < step.utf8ByteSize then .error .nameTooLong
      else d.follow (place ++ [step]) steps

/-- The place at which a path starts. -/
def origin (path : String) : Place := if Path.isAbsolute path then ["/"] else []

/-- Follows some of the steps of a path. -/
def walk (d : Directory) (path : String) (steps : List String) : Except FileError Place :=
  if path = "" then .error .notFound
  else if longestPath < path.utf8ByteSize then .error .nameTooLong
  else d.follow (origin path) steps

/-- The place that a path leads to, whether or not something stands there. -/
def resolve (d : Directory) (path : String) : Except FileError Place :=
  d.walk path (Path.steps path)

/-- What stands where a path leads. -/
def find (d : Directory) (path : String) : Except FileError Entry :=
  match d.resolve path with
  | .error e => .error e
  | .ok place =>
    match d.at? place with
    | none => .error .notFound
    | some entry => .ok entry

/-- Whether a path leads to a file. -/
def isFile (d : Directory) (path : String) : Bool :=
  match d.find path with
  | .ok (.file _) => true
  | _ => false

/-- Whether a path leads to a directory. -/
def isDirectory (d : Directory) (path : String) : Bool :=
  match d.find path with
  | .ok .directory => true
  | _ => false

/-- The text of the file that a path leads to. -/
def read (d : Directory) (path : String) : Except FileError String :=
  match d.find path with
  | .error e => .error e
  | .ok .directory => .error .isDirectory
  | .ok (.file content) =>
    match String.fromUTF8? content with
    | none => .error .notText
    | some s => .ok s

/-- Writes a file. -/
def write (d : Directory) (path content : String) : Except FileError Directory :=
  match d.resolve path with
  | .error e => .error e
  | .ok place =>
    match d.at? place with
    | some .directory => .error .isDirectory
    | _ => .ok (d.put place (.file content.toUTF8))

/-- Makes a directory in one that is there. Slashes may follow its name, whereas a dot behind it
asks for the directory to be there. -/
def make (d : Directory) (path : String) : Except FileError Directory :=
  match d.walk path (Path.stepsToName path) with
  | .error e => .error e
  | .ok place =>
    match d.at? place with
    | some _ => .error .exists
    | none => .ok (d.put place .directory)

end Directory

/-- A directory, and what was printed on the two streams of output. -/
structure World where
  directory : Directory
  output : String
  errors : String

/-- Runs an operation on the directory that may fail. -/
def World.modify (f : Directory → Except FileError Directory) :
    StateM World (Except FileError Unit) := fun w =>
  match f w.directory with
  | .error e => (.error e, w)
  | .ok d => (.ok (), { w with directory := d })

instance : Files (StateM World) where
  isFile path := fun w => (w.directory.isFile path, w)
  isDirectory path := fun w => (w.directory.isDirectory path, w)
  read path := fun w => (w.directory.read path, w)
  makeDirectory path := World.modify fun d => d.make path
  write path content := World.modify fun d => d.write path content
  print s := fun w => ((), { w with output := w.output ++ s })
  report s := fun w => ((), { w with errors := w.errors ++ s })

end LuaTranspiler
