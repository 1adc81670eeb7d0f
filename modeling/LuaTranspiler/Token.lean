import LuaTranspiler.Span

/-!
# Tokens

A Lua source is a sequence of tokens: symbols and keywords, whose spelling is fixed, and names,
numbers, strings and comments.

* `TokenKind`: what a token is
* `TokenKind.label`: how a kind is called in messages
* `symbolTable`, `keywordTable`: the fixed spellings
* `Token`: a kind, the text as written and its place
-/

namespace LuaTranspiler

/-- The kinds of token. -/
inductive TokenKind where
  | plus | minus | star | slash | doubleSlash | percent | caret | hash | ampersand | tilde | pipe
  | shiftLeft | shiftRight | doubleEqual | tildeEqual | less | lessEqual | greater | greaterEqual
  | equal | leftParen | rightParen | leftBrace | rightBrace | leftBracket | rightBracket
  | semicolon | colon | doubleColon | comma | dot | doubleDot | ellipsis
  | kwAnd | kwBreak | kwDo | kwElse | kwElseif | kwEnd | kwFalse | kwFor | kwFunction | kwGoto
  | kwIf | kwIn | kwLocal | kwNil | kwNot | kwOr | kwRepeat | kwReturn | kwThen | kwTrue | kwUntil
  | kwWhile
  | name | number | hexNumber | string | longString | comment
deriving DecidableEq

/-- The name under which messages speak of a kind. -/
def TokenKind.label : TokenKind → String
  | .plus => "Plus"
  | .minus => "Minus"
  | .star => "Star"
  | .slash => "Slash"
  | .doubleSlash => "DoubleSlash"
  | .percent => "Percent"
  | .caret => "Caret"
  | .hash => "Hash"
  | .ampersand => "Ampersand"
  | .tilde => "Tilde"
  | .pipe => "Pipe"
  | .shiftLeft => "Shl"
  | .shiftRight => "Shr"
  | .doubleEqual => "DoubleEq"
  | .tildeEqual => "TildeEq"
  | .less => "Less"
  | .lessEqual => "LessEq"
  | .greater => "Greater"
  | .greaterEqual => "GreaterEq"
  | .equal => "Equal"
  | .leftParen => "LParen"
  | .rightParen => "RParen"
  | .leftBrace => "LCurly"
  | .rightBrace => "RCurly"
  | .leftBracket => "LSquare"
  | .rightBracket => "RSquare"
  | .semicolon => "Semicolon"
  | .colon => "Colon"
  | .doubleColon => "DoubleColon"
  | .comma => "Comma"
  | .dot => "Dot"
  | .doubleDot => "DoubleDot"
  | .ellipsis => "Ellipsis"
  | .kwAnd => "KwAnd"
  | .kwBreak => "KwBreak"
  | .kwDo => "KwDo"
  | .kwElse => "KwElse"
  | .kwElseif => "KwElseif"
  | .kwEnd => "KwEnd"
  | .kwFalse => "KwFalse"
  | .kwFor => "KwFor"
  | .kwFunction => "KwFunction"
  | .kwGoto => "KwGoto"
  | .kwIf => "KwIf"
  | .kwIn => "KwIn"
  | .kwLocal => "KwLocal"
  | .kwNil => "KwNil"
  | .kwNot => "KwNot"
  | .kwOr => "KwOr"
  | .kwRepeat => "KwRepeat"
  | .kwReturn => "KwReturn"
  | .kwThen => "KwThen"
  | .kwTrue => "KwTrue"
  | .kwUntil => "KwUntil"
  | .kwWhile => "KwWhile"
  | .name => "Name"
  | .number => "Number"
  | .hexNumber => "HexNumber"
  | .string => "String"
  | .longString => "LongString"
  | .comment => "Comment"

/-- The symbols with their spellings, longer ones first. -/
def symbolTable : List (List Char × TokenKind) :=
  [(['.', '.', '.'], .ellipsis), (['/', '/'], .doubleSlash), (['<', '<'], .shiftLeft),
    (['>', '>'], .shiftRight), (['=', '='], .doubleEqual), (['~', '='], .tildeEqual),
    (['<', '='], .lessEqual), (['>', '='], .greaterEqual), ([':', ':'], .doubleColon),
    (['.', '.'], .doubleDot), (['+'], .plus), (['-'], .minus), (['*'], .star), (['/'], .slash),
    (['%'], .percent), (['^'], .caret), (['#'], .hash), (['&'], .ampersand), (['~'], .tilde),
    (['|'], .pipe), (['<'], .less), (['>'], .greater), (['='], .equal), (['('], .leftParen),
    ([')'], .rightParen), (['\x7b'], .leftBrace), (['\x7d'], .rightBrace), (['['], .leftBracket),
    ([']'], .rightBracket), ([';'], .semicolon), ([':'], .colon), ([','], .comma), (['.'], .dot)]

/-- The keywords with their spellings. -/
def keywordTable : List (String × TokenKind) :=
  [("and", .kwAnd), ("break", .kwBreak), ("do", .kwDo), ("else", .kwElse), ("elseif", .kwElseif),
    ("end", .kwEnd), ("false", .kwFalse), ("for", .kwFor), ("function", .kwFunction),
    ("goto", .kwGoto), ("if", .kwIf), ("in", .kwIn), ("local", .kwLocal), ("nil", .kwNil),
    ("not", .kwNot), ("or", .kwOr), ("repeat", .kwRepeat), ("return", .kwReturn),
    ("then", .kwThen), ("true", .kwTrue), ("until", .kwUntil), ("while", .kwWhile)]

/-- The kind of a word: the keyword it spells, or else a name. -/
def wordKind (s : String) : TokenKind := (keywordTable.lookup s).getD .name

/-- Whether a token of this kind ends a block. -/
def TokenKind.endsBlock : TokenKind → Bool
  | .kwEnd | .kwElse | .kwElseif | .kwUntil => true
  | _ => false

/-- A token: its kind, its text as written and its place. -/
structure Token where
  kind : TokenKind
  literal : String
  span : Span
deriving DecidableEq

end LuaTranspiler
