import LuaTranspiler.Text.Separated

/-!
# Paths

* `Path.steps`: the names and dots between the slashes of a path
* `Path.chain`: a path and the paths above it
* `Path.join`: a file name behind a directory
* `Path.stem`: the name of a file without its extension
-/

namespace LuaTranspiler.Path

/-- The names and dots between the slashes of a path, the empty ones included. -/
def steps (path : String) : List String := (Text.splitAt '/' path.toList).map String.ofList

/-- The steps of a path without the empty ones at its end, which slashes leave there. -/
def stepsToName (path : String) : List String :=
  ((steps path).reverse.dropWhile (· = "")).reverse

/-- The steps of a path that lead somewhere: no empty ones, and a single dot only in front. -/
def components (path : String) : List String :=
  match steps path with
  | "." :: rest => "." :: rest.filter fun s => s ≠ "" && s ≠ "."
  | all => all.filter fun s => s ≠ "" && s ≠ "."

/-- Whether a path starts at the root of all files. -/
def isAbsolute (path : String) : Bool := path.toList.head? = some '/'

/-- The non-empty initial segments of a list, the longest first. -/
def initials {α : Type} : List α → List (List α)
  | [] => []
  | a :: as => (initials as).map (a :: ·) ++ [[a]]

/-- A path as it is written and the paths above it, each in front of the one that it lies in. The
paths above leave out the last component, and a dot at the end is none. -/
def chain (path : String) : List String :=
  let above := (initials (components path).dropLast).map ("/".intercalate ·)
  path :: if isAbsolute path then above.map ("/" ++ ·) ++ ["/"] else above

/-- The file `name` in a directory. -/
def join (directory name : String) : String :=
  if directory = "" || directory.toList.getLast? = some '/' then directory ++ name
  else directory ++ "/" ++ name

/-- The last component, unless it leads upwards or stays. -/
def fileName? (path : String) : Option String :=
  match (components path).getLast? with
  | none => none
  | some name => if name = ".." || name = "." then none else some name

/-- A file name up to its last dot. A dot in front does not count. -/
def dropExtension (name : String) : String :=
  let cs := name.toList
  let front := (cs.reverse.dropWhile (· ≠ '.')).tail.reverse
  if front = [] then name else String.ofList front

/-- The name of a file without its extension. -/
def stem (path : String) : String :=
  match fileName? path with
  | none => "out"
  | some name => dropExtension name

end LuaTranspiler.Path
