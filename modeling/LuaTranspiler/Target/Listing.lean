import LuaTranspiler.Target.Provenance

/-!
# Printed text with marks

A text is printed as a list of pieces: tokens, the blanks and lines that part them, and marks that
say which node begins where. The text is what the pieces join to, and the lines of the marks give
the map from printed lines to the source.

* `Piece`: a unit of printed text
* `Piece.code`: the text of a list of pieces
* `Piece.marks`: the line on which each marked node begins
* `Piece.marks_append`: pieces that follow others begin on the line where those end
* `Listing`: a text with its line map
-/

namespace LuaTranspiler

/-- A unit of printed text. -/
inductive Piece where
  | token (text : String)
  | space
  | newline
  /-- The blanks at the start of a line, four for each level. -/
  | indent (level : Nat)
  /-- Nothing printed: here begins the node with this id. -/
  | mark (id : Nat)
deriving DecidableEq

namespace Piece

/-- The text of a piece. -/
def text : Piece → String
  | token s => s
  | space => " "
  | newline => "\n"
  | indent level => String.ofList (List.replicate (4 * level) ' ')
  | mark _ => ""

/-- The text of a list of pieces. -/
def code (ps : List Piece) : String := String.join (ps.map text)

/-- The tokens of a list of pieces. -/
def tokens (ps : List Piece) : List String :=
  ps.filterMap fun
    | token s => some s
    | _ => none

@[simp] theorem code_nil : code [] = "" := rfl

@[simp] theorem code_append (ps qs : List Piece) : code (ps ++ qs) = code ps ++ code qs := by
  simp [code]

@[simp] theorem tokens_append (ps qs : List Piece) :
    tokens (ps ++ qs) = tokens ps ++ tokens qs := List.filterMap_append

@[simp] theorem tokens_nil : tokens [] = [] := rfl

@[simp] theorem tokens_token (s : String) (ps : List Piece) :
    tokens (token s :: ps) = s :: tokens ps := rfl

@[simp] theorem tokens_space (ps : List Piece) : tokens (space :: ps) = tokens ps := rfl

/-- The count of lines that pieces end. -/
def lineCount (ps : List Piece) : Nat := ps.count newline

/-- The marked ids, each with its line, when the first piece stands on line `line`. -/
def marks (line : Nat) : List Piece → List (Nat × Nat)
  | [] => []
  | mark id :: ps => (line, id) :: marks line ps
  | newline :: ps => marks (line + 1) ps
  | token _ :: ps | space :: ps | indent _ :: ps => marks line ps

/-- What follows stands on a later line by the lines ended before it. -/
theorem marks_append (line : Nat) (ps qs : List Piece) :
    marks line (ps ++ qs) = marks line ps ++ marks (line + lineCount ps) qs := by
  induction ps generalizing line with
  | nil => simp [marks, lineCount]
  | cons p ps ih =>
    cases p <;> simp [marks, lineCount, ih]
    congr 1
    omega

/-- Lists of pieces with commas between them. -/
def commaSeparated : List (List Piece) → List Piece
  | [] => []
  | [p] => p
  | p :: ps => p ++ token "," :: space :: commaSeparated ps

/-- Pieces in parentheses. -/
def parens (ps : List Piece) : List Piece := token "(" :: (ps ++ [token ")"])

/-- Pieces in square brackets. -/
def brackets (ps : List Piece) : List Piece := token "[" :: (ps ++ [token "]"])

end Piece

/-- A printed line, and the line and column of the source that it was made from. -/
structure LineMapping where
  line : Nat
  sourceLine : Nat
  sourceColumn : Nat
deriving DecidableEq

/-- A printed text with its line map. -/
structure Listing where
  code : String
  mappings : List LineMapping
deriving DecidableEq

/-- The line map of marks, as far as their ids are recorded. -/
def Provenance.mappings (p : Provenance) (marks : List (Nat × Nat)) : List LineMapping :=
  marks.filterMap fun (line, id) =>
    (p.get? id).map fun span => ⟨line, span.startPos.line, span.startPos.column⟩

/-- The listing of pieces. Without a record of where nodes come from it has no line map. -/
def Listing.ofPieces (provenance : Option Provenance) (ps : List Piece) : Listing :=
  ⟨Piece.code ps, match provenance with
    | some p => p.mappings (Piece.marks 1 ps)
    | none => []⟩

end LuaTranspiler
