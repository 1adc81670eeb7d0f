import LuaTranspiler.Data
import LuaTranspiler.Options

/-!
# Formats of a run

How command lines and configurations are read and how documents are written is left to formats that
come from outside. All that is said of runs holds for every choice of them.

* `Arguments`: what a command line asks for
* `Stop`: why nothing is run
* `Formats`: reading command lines and configurations, writing documents
-/

namespace LuaTranspiler.CommandLine

/-- What is printed for a file. -/
inductive Emit where
  | code
  | tree
deriving DecidableEq

/-- What a command line asks for. -/
structure Arguments where
  files : List String
  options : Options := {}
  emit : Emit := .code
  outDir : Option String := none
  config : Option String := none
deriving DecidableEq

/-- Why nothing is run: the answer to a question about the program, or what is wrong with the
arguments. -/
inductive Stop where
  | answer (text : String)
  | misuse (text : String)
deriving DecidableEq

/-- The formats that a run is given. -/
structure Formats where
  /-- What a command line asks for. -/
  arguments : List String → Except Stop Arguments
  /-- The options of a configuration that is not blank, or what is wrong with it. -/
  options : String → Except String Options
  /-- A list of values as a document, or why there is none. -/
  document : List Data → Except String String

end LuaTranspiler.CommandLine
