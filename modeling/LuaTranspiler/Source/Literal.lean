import LuaTranspiler.Number.Numeral
import LuaTranspiler.Text.Blank
import LuaTranspiler.Token.Lexer

/-!
# What literals stand for

* `unescape?`: the characters that the inside of a quoted string stands for
* `Token.number?`, `Token.quoted?`: the value of a number or of a quoted string
* `longStringValue`, `commentValue`: the text inside long brackets and comments
-/

namespace LuaTranspiler

/-! ### Escapes -/

/-- The number written by digits in base sixteen, with an optional plus sign before them. There has
to be a digit. -/
def readHex? (cs : List Char) : Option Nat :=
  let ds := if cs.head? = some '+' then cs.tail else cs
  if ds ≠ [] ∧ ds.all isHexDigit then some (ofDigits 16 ds) else none

/-- The character with a given code point. -/
def charOfNat? (n : Nat) : Option Char := if n.isValidChar then some (Char.ofNat n) else none

/-- The escapes of one letter. -/
def simpleEscape? : Char → Option Char
  | 'n' => some '\n'
  | 't' => some '\t'
  | 'r' => some '\r'
  | 'a' => some '\x07'
  | 'b' => some '\x08'
  | 'f' => some '\x0c'
  | 'v' => some '\x0b'
  | '\\' => some '\\'
  | '"' => some '"'
  | '\'' => some '\''
  | '\n' => some '\n'
  | _ => none

/-- The escape that starts with `c` behind its backslash: what it stands for, and how many of the
characters `cs` behind `c` it takes. -/
def escape? (c : Char) (cs : List Char) : Option (List Char × Nat) :=
  match simpleEscape? c with
  | some d => some ([d], 0)
  | none =>
    if c = 'z' then some ([], runLength Text.isBlank cs)
    else if c = 'x' then (readHex? (cs.take 2)).map fun n => ([Char.ofNat n], 2)
    else if c = 'u' then
      match cs with
      | '\x7b' :: ds =>
        let hex := ds.takeWhile (· ≠ '\x7d')
        ((readHex? hex).bind charOfNat?).map fun d => ([d], hex.length + 2)
      | _ => none
    else if c.isDigit then
      let ds := (cs.take 2).takeWhile Char.isDigit
      let code := ofDigits 10 (c :: ds)
      if code ≤ 255 then some ([Char.ofNat code], ds.length) else none
    else none

/-- What the inside of a quoted string stands for. -/
def unescape? : List Char → Option (List Char)
  | [] => some []
  | c :: cs =>
    if c = '\\' then
      match cs with
      | [] => none
      | e :: ds =>
        match escape? e ds with
        | some (value, n) => (unescape? (ds.drop n)).map (value ++ ·)
        | none => none
    else (unescape? cs).map (c :: ·)
termination_by cs => cs.length
decreasing_by all_goals simp; try omega

/-! ### Tokens -/

/-- A text without its first and its last `k` characters. -/
def inside (k : Nat) (cs : List Char) : List Char := (cs.drop k).take (cs.length - 2 * k)

/-- The value of a number token. A hexadecimal number has to be below `2 ^ 63`. -/
def Token.number? (t : Token) : Option Binary64 :=
  if t.kind = .hexNumber then
    let n := ofDigits 16 (t.literal.toList.drop 2)
    if n < 0x8000000000000000 then some (.ofRatio n 1) else none
  else Binary64.ofNumeral? t.literal

/-- The value of a quoted string token. -/
def Token.quoted? (t : Token) : Option String :=
  (unescape? (inside 1 t.literal.toList)).map String.ofList

/-- A text without a line break at its head. -/
def dropLineBreak : List Char → List Char
  | '\r' :: '\n' :: cs => cs
  | '\n' :: cs => cs
  | cs => cs

/-- The text inside a long string. A line break right behind the opening bracket is dropped. -/
def longStringValue (s : String) : String :=
  let cs := s.toList
  String.ofList (dropLineBreak (inside (runLength (· = '=') cs.tail + 2) cs))

/-- The text of a comment without its marks. -/
def commentValue (s : String) : String :=
  let cs := s.toList.drop 2
  String.ofList (match openingLevel? cs with
    | some level => inside (level + 2) cs
    | none => cs)

end LuaTranspiler
