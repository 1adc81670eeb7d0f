/-!
# Parts between separators

* `splitAt`: the parts of a text between the occurrences of a character
-/

namespace LuaTranspiler.Text

/-- The parts of a text between the occurrences of `sep`. There is one more than there are
occurrences, and parts may be empty. -/
def splitAt (sep : Char) : List Char → List (List Char)
  | [] => [[]]
  | c :: cs =>
    if c = sep then [] :: splitAt sep cs
    else match splitAt sep cs with
      | [] => [[c]]
      | part :: parts => (c :: part) :: parts

theorem splitAt_ne_nil (sep : Char) (cs : List Char) : splitAt sep cs ≠ [] := by
  cases cs with
  | nil => simp [splitAt]
  | cons c cs =>
    rw [splitAt]
    split
    · simp
    · split <;> simp

end LuaTranspiler.Text
