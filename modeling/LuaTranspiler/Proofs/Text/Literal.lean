import Mathlib.Tactic.SplitIfs
import LuaTranspiler.Number.Numeral
import LuaTranspiler.Text.Quoted
import LuaTranspiler.Token.Lexer

/-!
# Reading double-quoted string literals

A literal is read by the rules of ECMAScript: one quote opens it and the next bare quote, which has
to be its last character, closes it. No line break stands in it, and a backslash starts an escape.

* `unquote?`: the string that a literal stands for
* `unquote?_quote`: a string is read from the literal that is written for it
-/

namespace LuaTranspiler.Text

/-- The escapes of one letter. -/
def letterEscape? : Char → Option Char
  | 'b' => some '\x08'
  | 't' => some '\t'
  | 'n' => some '\n'
  | 'v' => some '\x0b'
  | 'f' => some '\x0c'
  | 'r' => some '\r'
  | '"' => some '"'
  | '\'' => some '\''
  | '\\' => some '\\'
  | _ => none

/-- The character with the code point that hexadecimal digits write. -/
def hexEscape? (ds : List Char) : Option Char :=
  if ds.all isHexDigit ∧ (ofDigits 16 ds).isValidChar then some (Char.ofNat (ofDigits 16 ds))
  else none

/-- What a literal behind its opening quote stands for. -/
def unquoteTail? : List Char → Option (List Char)
  | [] => none
  | '"' :: cs => if cs = [] then some [] else none
  | '\\' :: 'u' :: a :: b :: c :: d :: cs =>
    (hexEscape? [a, b, c, d]).bind fun u => (unquoteTail? cs).map (u :: ·)
  | '\\' :: e :: cs => (letterEscape? e).bind fun u => (unquoteTail? cs).map (u :: ·)
  | c :: cs =>
    if c = '\\' ∨ c = '\n' ∨ c = '\r' then none else (unquoteTail? cs).map (c :: ·)

/-- The string that a literal stands for. -/
def unquote? (s : String) : Option String :=
  match s.toList with
  | '"' :: cs => (unquoteTail? cs).map String.ofList
  | _ => none

theorem toNat_lt_of_isControl {c : Char} (h : isControl c = true) : c.toNat < 160 := by
  simp [isControl] at h
  omega

/-- Four digits of base sixteen write the number that they are made for. -/
theorem ofDigits_fourHex : ∀ n < 160, (fourHex n).all isHexDigit ∧ ofDigits 16 (fourHex n) = n := by
  decide +kernel

/-- The four digits of a control character are read as that character. -/
theorem hexEscape?_fourHex {c : Char} (h : isControl c = true) :
    hexEscape? (fourHex c.toNat) = some c := by
  obtain ⟨hhex, hvalue⟩ := ofDigits_fourHex c.toNat (toNat_lt_of_isControl h)
  rw [hexEscape?, if_pos ⟨hhex, by rw [hvalue]; exact c.valid⟩, hvalue, Char.ofNat_toNat]

/-- What is written for one character is read as that character. -/
theorem unquoteTail?_quoteChar (c : Char) (rest : List Char) :
    unquoteTail? (quoteChar c ++ rest) = (unquoteTail? rest).map (c :: ·) := by
  unfold quoteChar
  split_ifs with h1 h2 h3 h4 h5 h6
  · subst h1
    rfl
  · subst h2
    rfl
  · subst h3
    rfl
  · subst h4
    rfl
  · subst h5
    rfl
  · have hhex := hexEscape?_fourHex h6
    simp only [fourHex] at hhex
    simp [unquoteTail?, fourHex, hhex]
  · rw [List.singleton_append, unquoteTail?]
    · simp [h2, h3, h4]
    · exact h1
    · exact fun _ _ _ _ _ h => absurd h h2
    · exact fun _ _ h => absurd h h2

/-- What is written for characters is read as those characters. -/
theorem unquoteTail?_flatMap (cs : List Char) :
    unquoteTail? (cs.flatMap quoteChar ++ ['"']) = some cs := by
  induction cs with
  | nil => rfl
  | cons c cs ih =>
    rw [List.flatMap_cons, List.append_assoc, unquoteTail?_quoteChar, ih, Option.map_some]

/-- **A literal stands for the string that it was written for.** -/
theorem unquote?_quote (s : String) : unquote? (quote s) = some s := by
  rw [unquote?, quote, String.toList_ofList, quoteChars]
  simp [unquoteTail?_flatMap]

end LuaTranspiler.Text
