import LuaTranspiler.Text.Blank

/-!
# Options

* `Options`: what a run is asked for
* `Options.merge`: options from two places
* `Options.ofConfiguration`: options read from a configuration
-/

namespace LuaTranspiler

/-- What a run is asked for. -/
structure Options where
  /-- The functions of a module become exported functions. -/
  module : Bool := false
  /-- The functions of a class become its methods. -/
  classmod : Bool := false
  /-- Types are checked. -/
  semanticDiagnostics : Bool := false
  /-- A line map is made. -/
  sourceMap : Bool := false
deriving DecidableEq

namespace Options

/-- What either of two places asks for. -/
def merge (a b : Options) : Options :=
  ⟨a.module || b.module, a.classmod || b.classmod, a.semanticDiagnostics || b.semanticDiagnostics,
    a.sourceMap || b.sourceMap⟩

/-- The options of a configuration, where `read` reads those that are not blank. A blank one asks
for nothing. -/
def ofConfiguration (read : String → Except String Options) (s : String) :
    Except String Options :=
  if Text.isAllBlank s then .ok {} else read s

end Options

end LuaTranspiler
