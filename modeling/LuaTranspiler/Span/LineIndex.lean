import LuaTranspiler.Span

/-!
# Finding lines by their offsets

The offsets at which the lines of a text start, in order. The line of any offset is found among them
by halving the range in question, and its column by counting the characters from there.

* `LineIndex`: a text with the starts of its lines
* `search`: where a number stands in a sorted array, or where it belongs
* `LineIndex.position`, `LineIndex.span`: the places of offsets
-/

namespace LuaTranspiler

/-- The characters behind the first `n` bytes of a text. -/
def dropBytes : Nat → List Char → List Char
  | 0, cs => cs
  | _ + 1, [] => []
  | n + 1, c :: cs => dropBytes (n + 1 - c.utf8Size) cs

/-- The characters that start in the first `n` bytes of a text. -/
def takeBytes : Nat → List Char → List Char
  | 0, _ => []
  | _ + 1, [] => []
  | n + 1, c :: cs => c :: takeBytes (n + 1 - c.utf8Size) cs

/-- The place of a number in the part of a sorted array from `lo` up to `hi`: where it stands, or
else where it would have to be inserted. -/
def search (xs : Array Nat) (x lo hi : Nat) : Except Nat Nat :=
  if lo < hi then
    let mid := lo + (hi - lo) / 2
    let y := xs.getD mid 0
    if y = x then .ok mid
    else if y < x then search xs x (mid + 1) hi
    else search xs x lo mid
  else .error lo
termination_by hi - lo

/-- The offsets behind the newlines of a text that starts at an offset. -/
def lineStarts (offset : Nat) : List Char → List Nat
  | [] => []
  | c :: cs =>
    let next := offset + c.utf8Size
    if c = '\n' then next :: lineStarts next cs else lineStarts next cs

/-- A text and the offsets at which its lines start. -/
structure LineIndex where
  text : List Char
  starts : Array Nat

namespace LineIndex

/-- The index of a text. The first line starts with it, every other one behind a newline. -/
def ofString (s : String) : LineIndex := ⟨s.toList, (0 :: lineStarts 0 s.toList).toArray⟩

/-- How many lines end before an offset. -/
def linesBefore (i : LineIndex) (offset : Nat) : Nat :=
  match search i.starts offset 0 i.starts.size with
  | .ok line => line
  | .error next => next - 1

/-- The line and the column of an offset. -/
def position (i : LineIndex) (offset : Nat) : Position :=
  let lines := i.linesBefore offset
  let start := i.starts.getD lines 0
  ⟨lines + 1, (takeBytes (offset - start) (dropBytes start i.text)).length⟩

/-- The span between two offsets. -/
def span (i : LineIndex) (start stop : Nat) : Span :=
  ⟨start, stop, i.position start, i.position stop⟩

end LineIndex

end LuaTranspiler
