import Std.Data.TreeMap
import LuaTranspiler.Span

/-!
# Where nodes come from

* `Provenance`: the span of the source that each node was made from, by the id of the node
-/

namespace LuaTranspiler

/-- A span for each recorded id. -/
structure Provenance where
  spans : Std.TreeMap Nat Span

namespace Provenance

/-- Nothing is recorded. -/
def empty : Provenance := ⟨∅⟩

/-- Records the span of an id, in place of an earlier one. -/
def record (p : Provenance) (id : Nat) (span : Span) : Provenance := ⟨p.spans.insert id span⟩

/-- The span recorded for an id. -/
def get? (p : Provenance) (id : Nat) : Option Span := p.spans[id]?

@[simp] theorem get?_empty (id : Nat) : empty.get? id = none := by simp [empty, get?]

/-- The last record for an id is the one that counts. -/
@[simp] theorem get?_record (p : Provenance) (id i : Nat) (span : Span) :
    (p.record id span).get? i = if id = i then some span else p.get? i := by
  simp [record, get?, Std.TreeMap.getElem?_insert]

/-- The count of recorded ids. -/
def size (p : Provenance) : Nat := p.spans.size

/-- Whether nothing is recorded. -/
def isEmpty (p : Provenance) : Bool := p.spans.isEmpty

/-- The span recorded for an id, or the unknown one. -/
def get (p : Provenance) (id : Nat) : Span := (p.get? id).getD .unknown

end Provenance

end LuaTranspiler
