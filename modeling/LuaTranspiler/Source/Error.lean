import LuaTranspiler.Token

/-!
# What can be wrong with a source text

* `SyntaxError`: the causes for which a text is refused
* `SyntaxError.message`: their wording
-/

namespace LuaTranspiler

/-- Why a source text is refused, and where. -/
inductive SyntaxError where
  /-- The text starts no token, or a token that never ends. -/
  | unrecognized (text : String) (span : Span)
  /-- Another token was needed; the list names those that would do. -/
  | unexpectedToken (found : TokenKind) (expected : List TokenKind) (span : Span)
  | unexpectedEnd
  | expectedExpression (found : TokenKind) (span : Span)
  | expectedStatement (found : TokenKind) (span : Span)
  /-- An expression stands where only a call may. -/
  | expectedCall (span : Span)
  | invalidTarget (span : Span)
  | returnNotLast (span : Span)
  | malformedNumber (text : String) (span : Span)
  | invalidEscape (span : Span)
deriving DecidableEq

namespace SyntaxError

/-- The labels of a list of kinds, in brackets. -/
def kindList (ks : List TokenKind) : String :=
  "[" ++ ", ".intercalate (ks.map TokenKind.label) ++ "]"

/-- The wording of an error. -/
def message : SyntaxError → String
  | unrecognized text span => span.text ++ " Unrecognized input '" ++ text ++ "'"
  | unexpectedToken found expected span =>
    span.text ++ " Unexpected token " ++ found.label ++ ", expected one of " ++ kindList expected
  | unexpectedEnd => "Unexpected end of file"
  | expectedExpression found span =>
    span.text ++ " Expected an expression, found " ++ found.label
  | expectedStatement found span => span.text ++ " Expected a statement, found " ++ found.label
  | expectedCall span =>
    span.text ++ " Syntax error: only a function call can be used as a statement"
  | invalidTarget span => span.text ++ " Cannot assign to this expression"
  | returnNotLast span => span.text ++ " 'return' must be the last statement of its block"
  | malformedNumber text span => span.text ++ " Malformed number '" ++ text ++ "'"
  | invalidEscape span => span.text ++ " Invalid escape sequence in string literal"

end SyntaxError

end LuaTranspiler
