import LuaTranspiler.Source.Error

/-!
# Reading tokens

A parser reads tokens off the head of a list. On failure too it leaves the cursor where it stopped.

* `Cursor`: the tokens left to read and the place of the one read last
* `Parser`: a reader that may fail
* `Parser.advance`, `Parser.eat`, `Parser.expect`: reading one token
* `Parser.many`, `Parser.iterate`: reading until an item declines
-/

namespace LuaTranspiler

/-- The tokens left to read, and the span of the token read last. -/
structure Cursor where
  last : Span
  rest : List Token
deriving DecidableEq

/-- A reader of tokens. -/
abbrev Parser := EStateM SyntaxError Cursor

namespace Parser

/-- The next token, which is not read. -/
def peek? : Parser (Option Token) := fun c => .ok c.rest.head? c

/-- The kind of the next token. -/
def peekKind? : Parser (Option TokenKind) := fun c => .ok (c.rest.head?.map Token.kind) c

/-- The kind of the token `n` places behind the next one. -/
def peekNth? (n : Nat) : Parser (Option TokenKind) := fun c => .ok (c.rest[n]?.map Token.kind) c

/-- Reads a token, if there is one. -/
def advance : Parser (Option Token) := fun c =>
  match c.rest with
  | [] => .ok none c
  | t :: ts => .ok (some t) ⟨t.span, ts⟩

/-- Whether the next token has a kind. -/
def check (kind : TokenKind) : Parser Bool := fun c =>
  .ok (c.rest.head?.map Token.kind = some kind) c

/-- Reads the next token if it has a kind. -/
def eat (kind : TokenKind) : Parser (Option Token) := fun c =>
  match c.rest with
  | [] => .ok none c
  | t :: ts => if t.kind = kind then .ok (some t) ⟨t.span, ts⟩ else .ok none c

/-- Fails for the next token, where one of the given kinds was needed. -/
def unexpected {α : Type} (expected : List TokenKind) : Parser α := fun c =>
  match c.rest with
  | [] => .error .unexpectedEnd c
  | t :: _ => .error (.unexpectedToken t.kind expected t.span) c

/-- Reads a token that has to have a kind. -/
def expect (kind : TokenKind) : Parser Token := fun c =>
  match c.rest with
  | [] => .error .unexpectedEnd c
  | t :: ts =>
    if t.kind = kind then .ok t ⟨t.span, ts⟩
    else .error (.unexpectedToken t.kind [kind] t.span) c

/-- Fails unless the next token has a kind. -/
def require (kind : TokenKind) : Parser Unit := do
  unless ← check kind do unexpected [kind]

/-- The span from the start of `start` to the end of the token read last. -/
def finish (start : Span) : Parser Span := fun c => .ok (start.through c.last) c

/-- Reads tokens of a kind as long as they come. -/
def skip (kind : TokenKind) : Parser Unit := fun c => .ok () (go c.last c.rest)
where
  /-- The cursor behind the leading tokens of the kind. -/
  go (last : Span) : List Token → Cursor
    | [] => ⟨last, []⟩
    | t :: ts => if t.kind = kind then go t.span ts else ⟨last, t :: ts⟩

/-- At most one item more than the list `bound` has members. -/
def manyUpTo {α : Type} (item : Parser (Option α)) : List Token → Parser (List α)
  | [] => do return (← item).toList
  | _ :: bound => do
    match ← item with
    | none => return []
    | some a => return a :: (← manyUpTo item bound)

/-- The items up to the first that is none. An item that is one reads a token, so the tokens bound
the items. -/
def many {α : Type} (item : Parser (Option α)) : Parser (List α) := fun c => manyUpTo item c.rest c

/-- At most one step more than the list `bound` has members. -/
def iterateUpTo {α : Type} (step : α → Parser (Option α)) : List Token → α → Parser α
  | [], a => do return (← step a).getD a
  | _ :: bound, a => do
    match ← step a with
    | none => return a
    | some b => iterateUpTo step bound b

/-- Steps on from `a` until there is no step. A step reads a token, so the tokens bound the
steps. -/
def iterate {α : Type} (step : α → Parser (Option α)) (a : α) : Parser α := fun c =>
  iterateUpTo step c.rest a c

/-- A comma and the item behind it, if a comma comes next. -/
def behindComma {α : Type} (item : Parser α) : Parser (Option α) := do
  match ← eat .comma with
  | none => return none
  | some _ => return some (← item)

/-- One or more items with commas between them. -/
def commaList {α : Type} (item : Parser α) : Parser (List α) := do
  let first ← item
  let others ← many (behindComma item)
  return first :: others

end Parser

end LuaTranspiler
