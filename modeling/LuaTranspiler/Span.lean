/-!
# Places in a source text

A `Point` is reached by reading a text from its start, a `Span` is what lies between two points.
Offsets count UTF-8 bytes, lines start at 1 and end at a newline, columns start at 0 and count
characters.

* `Point.after p cs`: the point reached from `p` by reading `cs`
* `Span.between a b`: what lies between two points
* `Span.through a b`: from the start of `a` to the end of `b`
* `Span.text`: the `line:column` under which a span is reported
-/

namespace LuaTranspiler

/-- A line and a column. -/
structure Position where
  line : Nat
  column : Nat
deriving DecidableEq

/-- A byte offset together with its line and column. -/
structure Point where
  offset : Nat
  position : Position
deriving DecidableEq

namespace Point

/-- The start of every text. -/
def origin : Point := ⟨0, ⟨1, 0⟩⟩

/-- The point behind one more character. -/
def next (p : Point) (c : Char) : Point :=
  if c = '\n' then ⟨p.offset + c.utf8Size, ⟨p.position.line + 1, 0⟩⟩
  else ⟨p.offset + c.utf8Size, ⟨p.position.line, p.position.column + 1⟩⟩

/-- The point behind a run of characters. -/
def after (p : Point) (cs : List Char) : Point := cs.foldl next p

@[simp] theorem after_nil (p : Point) : p.after [] = p := rfl

@[simp] theorem after_cons (p : Point) (c : Char) (cs : List Char) :
    p.after (c :: cs) = (p.next c).after cs := rfl

@[simp] theorem after_append (p : Point) (cs ds : List Char) :
    p.after (cs ++ ds) = (p.after cs).after ds := List.foldl_append

end Point

/-- A byte range `[start, stop)` with the positions of both ends. -/
structure Span where
  start : Nat
  stop : Nat
  startPos : Position
  stopPos : Position
deriving DecidableEq

namespace Span

/-- The span of nothing, used where no place is known. -/
def unknown : Span := ⟨0, 0, ⟨0, 0⟩, ⟨0, 0⟩⟩

/-- What lies between two points. -/
def between (a b : Point) : Span := ⟨a.offset, b.offset, a.position, b.position⟩

/-- The span from the start of `a` to the end of `b`. -/
def through (a b : Span) : Span := ⟨a.start, b.stop, a.startPos, b.stopPos⟩

/-- Whether the byte range of `b` lies within that of `a`. -/
def encloses (a b : Span) : Bool := a.start ≤ b.start && b.stop ≤ a.stop

/-- How a span is reported: line and column of its start. -/
def text (a : Span) : String := a.startPos.line.repr ++ ":" ++ a.startPos.column.repr

/-- The span from the first to the last of a list of spans. -/
def cover : List Span → Option Span
  | [] => none
  | a :: as => some (a.through ((a :: as).getLast (List.cons_ne_nil a as)))

end Span

end LuaTranspiler
