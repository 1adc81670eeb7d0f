/-!
# Blank characters and words

The blank characters are those with the Unicode property `White_Space`. Words are the maximal runs
of other characters.

* `isBlank`: the property
* `words`: the words of a text, in order
* `isAllBlank`: whether a text has no word
-/

namespace LuaTranspiler.Text

/-- The code point ranges of the Unicode property `White_Space`. -/
def blankRanges : List (Nat × Nat) :=
  [(0x09, 0x0D), (0x20, 0x20), (0x85, 0x85), (0xA0, 0xA0), (0x1680, 0x1680), (0x2000, 0x200A),
    (0x2028, 0x2029), (0x202F, 0x202F), (0x205F, 0x205F), (0x3000, 0x3000)]

/-- Whether a character has the Unicode property `White_Space`. -/
def isBlank (c : Char) : Bool := blankRanges.any fun r => r.1 ≤ c.toNat && c.toNat ≤ r.2

/-- The word that a text starts with (empty before a blank), and the words behind it. -/
def splitWord : List Char → List Char × List (List Char)
  | [] => ([], [])
  | c :: cs =>
    let (word, later) := splitWord cs
    if isBlank c then ([], if word = [] then later else word :: later) else (c :: word, later)

/-- The words of a list of characters. -/
def wordLists (cs : List Char) : List (List Char) :=
  let (word, later) := splitWord cs
  if word = [] then later else word :: later

/-- The words of a text. -/
def words (s : String) : List String := (wordLists s.toList).map String.ofList

/-- Whether a text holds blank characters only. -/
def isAllBlank (s : String) : Bool := s.toList.all isBlank

end LuaTranspiler.Text
