import LuaTranspiler.Source.Error
import LuaTranspiler.Span.LineIndex

/-!
# Cutting a text into tokens

Each token is the longest that starts where it starts, and a keyword is never a name. Layout
characters between tokens are skipped.

* `numberTail`, `hexTail?`, `quotedTail`, `closingTail?`: how far a token reaches
* `munch`: the token at the head of a text, or what is refused there
* `tokens`: all tokens of a text, comments included
-/

namespace LuaTranspiler

/-- The characters between tokens. -/
def isLayout (c : Char) : Bool := c = ' ' || c = '\t' || c = '\r' || c = '\n' || c = '\x0c'

/-- The characters that a name may start with. -/
def isNameStart (c : Char) : Bool := c.isAlpha || c = '_'

/-- The characters of a name. -/
def isNameChar (c : Char) : Bool := c.isAlphanum || c = '_'

/-- The digits of base sixteen. -/
def isHexDigit (c : Char) : Bool := c.isDigit || ('a' ≤ c && c ≤ 'f') || ('A' ≤ c && c ≤ 'F')

/-- The count of leading characters in a class. -/
def runLength (p : Char → Bool) (cs : List Char) : Nat := (cs.takeWhile p).length

/-! ### Numbers -/

/-- The length of the point and digits at the head of a text. -/
def fractionTail : List Char → Nat
  | '.' :: cs => 1 + runLength Char.isDigit cs
  | _ => 0

/-- The length of the exponent at the head of a text: none unless it has a digit. -/
def exponentTail : List Char → Nat
  | [] => 0
  | e :: cs =>
    if e = 'e' ∨ e = 'E' then
      match cs with
      | [] => 0
      | s :: ds =>
        if s = '+' ∨ s = '-' then
          if runLength Char.isDigit ds = 0 then 0 else 2 + runLength Char.isDigit ds
        else if runLength Char.isDigit (s :: ds) = 0 then 0
        else 1 + runLength Char.isDigit (s :: ds)
    else 0

/-- The length of what continues a decimal number behind its first digit. -/
def numberTail (cs : List Char) : Nat :=
  let whole := runLength Char.isDigit cs
  let part := fractionTail (cs.drop whole)
  whole + part + exponentTail (cs.drop (whole + part))

/-- The length of what continues a number that starts with a point, behind that point. -/
def pointTail (cs : List Char) : Nat :=
  let part := runLength Char.isDigit cs
  part + exponentTail (cs.drop part)

/-- The length of what makes a hexadecimal number of a leading zero. -/
def hexTail? : List Char → Option Nat
  | x :: cs =>
    if (x = 'x' ∨ x = 'X') ∧ runLength isHexDigit cs ≠ 0 then some (1 + runLength isHexDigit cs)
    else none
  | [] => none

/-! ### Strings and comments -/

/-- The length of a string behind its opening quote, and whether it is closed. A backslash takes
the next character with it; a bare newline or the end of the text leaves the string open. -/
def quotedTail (quote : Char) : List Char → Bool × Nat
  | [] => (false, 0)
  | ['\\'] => (false, 0)
  | '\\' :: _ :: cs =>
    let (closed, n) := quotedTail quote cs
    (closed, n + 2)
  | c :: cs =>
    if c = quote then (true, 1)
    else if c = '\n' then (false, 0)
    else
      let (closed, n) := quotedTail quote cs
      (closed, n + 1)

/-- The level of the long bracket that opens at the head of a text: the count of `=` between its
two brackets. -/
def openingLevel? : List Char → Option Nat
  | '[' :: cs =>
    let level := runLength (· = '=') cs
    if cs[level]? = some '[' then some level else none
  | _ => none

/-- The closing bracket of a level. -/
def closer (level : Nat) : List Char := ']' :: (List.replicate level '=' ++ [']'])

/-- The length of a text up to the end of its first closing bracket of a level. -/
def closingTail? (level : Nat) : List Char → Option Nat
  | [] => none
  | c :: cs =>
    if (closer level).isPrefixOf (c :: cs) then some (level + 2)
    else (closingTail? level cs).map (· + 1)

/-! ### One token -/

/-- What stands at the head of a text. A length counts the characters behind the first. -/
inductive Lexeme where
  | token (kind : TokenKind) (tail : Nat)
  | unrecognized (tail : Nat)
deriving DecidableEq

/-- A number that starts with the digit `c`. -/
def munchNumber (c : Char) (cs : List Char) : Lexeme :=
  match if c = '0' then hexTail? cs else none with
  | some n => .token .hexNumber n
  | none => .token .number (numberTail cs)

/-- A string in quotes, without its opening quote. -/
def munchQuoted (quote : Char) (cs : List Char) : Lexeme :=
  match quotedTail quote cs with
  | (true, n) => .token .string n
  | (false, n) => .unrecognized n

/-- What follows an opening square bracket: a long string, or nothing more. -/
def munchBracket (cs : List Char) : Lexeme :=
  match openingLevel? ('[' :: cs) with
  | some level =>
    match closingTail? level (cs.drop (level + 1)) with
    | some n => .token .longString (level + 1 + n)
    | none => .unrecognized (level + 1)
  | none =>
    let level := runLength (· = '=') cs
    if level = 0 then .token .leftBracket 0 else .unrecognized level

/-- What follows the two dashes of a comment. -/
def munchComment (cs : List Char) : Lexeme :=
  match openingLevel? cs with
  | some level =>
    match closingTail? level (cs.drop (level + 2)) with
    | some n => .token .comment (1 + (level + 2) + n)
    | none => .unrecognized 1
  | none => .token .comment (1 + runLength (· ≠ '\n') cs)

/-- The longest symbol at the head of a text. -/
def munchSymbol (cs : List Char) : Lexeme :=
  match symbolTable.find? fun s => s.1.isPrefixOf cs with
  | some (spelling, kind) => .token kind (spelling.length - 1)
  | none => .unrecognized 0

/-- Whether a text starts with a decimal digit. -/
def startsWithDigit : List Char → Bool
  | c :: _ => c.isDigit
  | [] => false

/-- The token at the head of the text `c :: cs`. -/
def munch (c : Char) (cs : List Char) : Lexeme :=
  if isNameStart c then
    let n := runLength isNameChar cs
    .token (wordKind (String.ofList (c :: cs.take n))) n
  else if c.isDigit then munchNumber c cs
  else if c = '.' && startsWithDigit cs then .token .number (pointTail cs)
  else if c = '"' || c = '\'' then munchQuoted c cs
  else if c = '[' then munchBracket cs
  else if c = '-' && cs.head? = some '-' then munchComment cs.tail
  else munchSymbol (c :: cs)

/-! ### The whole text -/

/-- The tokens of a text that starts at `p`. -/
def tokensFrom (p : Point) : List Char → Except SyntaxError (List Token)
  | [] => .ok []
  | c :: cs =>
    if isLayout c then tokensFrom (p.next c) cs
    else
      match munch c cs with
      | .token kind n =>
        let text := c :: cs.take n
        let stop := p.after text
        match tokensFrom stop (cs.drop n) with
        | .ok ts => .ok (⟨kind, String.ofList text, .between p stop⟩ :: ts)
        | .error e => .error e
      | .unrecognized n =>
        let text := c :: cs.take n
        .error (.unrecognized (String.ofList text) (.between p (p.after text)))
termination_by cs => cs.length
decreasing_by all_goals simp; try omega

/-- All tokens of a text, comments included. -/
def tokens (s : String) : Except SyntaxError (List Token) := tokensFrom .origin s.toList

/-- The empty span at the end of a text. -/
def endSpan (s : String) : Span :=
  (LineIndex.ofString s).span s.utf8ByteSize s.utf8ByteSize

end LuaTranspiler
