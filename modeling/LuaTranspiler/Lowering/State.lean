import LuaTranspiler.Doc.Comments
import LuaTranspiler.Lowering.WrittenType
import LuaTranspiler.Target.Provenance
import LuaTranspiler.Target.Tree

/-!
# Building nodes

Nodes are numbered as they are built, so a node has a greater id than the nodes inside it. Each id
is recorded with the span that the node was made from. A failure leaves what was built before it.

* `Diagnostic`: what is reported about parameters
* `State`: the next id, the recorded spans and the reports so far
* `Lower`: a step that builds nodes and may fail
* `node`, `diagnose`: building one node, making one report
-/

namespace LuaTranspiler.Lowering

/-- What is reported about the parameter `name`. -/
inductive Diagnostic where
  /-- No tag gives the parameter a type. -/
  | untyped (name : String) (span : Span)
  /-- Several tags do. -/
  | manyTypes (name : String) (span : Span)
deriving DecidableEq

/-- The wording of a report. -/
def Diagnostic.message : Diagnostic → String
  | untyped name span =>
    span.text ++ " Parameter " ++ name ++ " does not have a type signature. " ++
      "Use \"@tparam <type> " ++ name ++ "\" to define this."
  | manyTypes name span =>
    span.text ++ " Many @tparams found for parameter " ++ name ++ ". Using the first one."

/-- What has been built so far. -/
structure State where
  nextId : Nat
  provenance : Provenance
  diagnostics : List Diagnostic

/-- Nothing has been built. -/
def State.initial : State := ⟨0, .empty, []⟩

/-- A step that builds nodes and may fail. -/
abbrev Lower := EStateM Error State

/-- Builds a node, with the next id, from what is written at a span. -/
def node {α : Type} (span : Span) (build : Nat → α) : Lower α := fun s =>
  .ok (build s.nextId)
    { s with nextId := s.nextId + 1, provenance := s.provenance.record s.nextId span }

/-- Makes a report. -/
def diagnose (d : Diagnostic) : Lower Unit := fun s =>
  .ok () { s with diagnostics := s.diagnostics ++ [d] }

/-- Which blocks are rebuilt, and the comments of the source. -/
structure Context where
  /-- The functions of a module become exported functions. -/
  module : Bool
  /-- The functions of a class become its methods. -/
  classmod : Bool
  comments : List Source.Comment

end LuaTranspiler.Lowering
