import LuaTranspiler.Proofs.Text.Literal
import LuaTranspiler.Target.Printer

/-!
# Reading printed expressions

The tokens of a printed expression, and a reader for them that follows the expression grammar of
ECMAScript. From loose to tight: `||`, `&&`, equality, relations, sums, products, all of which group
to the left; powers, which group to the right and have no bare operator before their base; operators
before their operand; members, elements and calls; and primary expressions. A function is one token.

The reader knows nothing of the precedences by which the printer puts parentheses.

* `Lexeme`: the tokens, as the grammar tells them apart
* `Lexeme.ofText`: the token that a text stands for
* `Expr.lexemes`, `Expr.guardedLexemes`: the tokens of a printed expression
* `readExpr`: the expression that tokens stand for, and what follows it
-/

namespace LuaTranspiler.Target

/-! ### Tokens -/

/-- The tokens of an expression, as the grammar tells them apart. -/
inductive Lexeme where
  | word (name : String)
  | numeral (text : String)
  | literal (text : String)
  | truth (value : Bool)
  | symbol (text : String)
  /-- A whole function. -/
  | function (func : Function)

/-- The printed tokens of a lexeme on a line of indentation level `n`. -/
def Lexeme.texts (n : Nat) : Lexeme → List String
  | word name => [name]
  | numeral text => [text]
  | literal text => [text]
  | truth value => [if value then "true" else "false"]
  | symbol text => [text]
  | function func => "function" :: Piece.tokens (func.pieces n)

/-- Whether a text is a name, and none of the words that the grammar of expressions uses. -/
def isWord (s : String) : Bool :=
  match s.toList with
  | [] => false
  | c :: cs => isNameStart c && cs.all isNameChar && !(["true", "false", "function"].contains s)

/-- The lexeme of a printed token, other than a function, from its text alone. -/
def Lexeme.ofText (s : String) : Lexeme :=
  if isWord s then .word s
  else if s = "true" then .truth true
  else if s = "false" then .truth false
  else match s.toList.head? with
    | none => .symbol s
    | some c => if c.isDigit then .numeral s else if c = '"' then .literal s else .symbol s

/-- Lexemes in parentheses. -/
def inParens (ls : List Lexeme) : List Lexeme := .symbol "(" :: (ls ++ [.symbol ")"])

namespace Expr

/-- The lexemes of `e` where a precedence of `least` is asked for. -/
def guardedBy (least : Nat) (e : Expr) (ls : List Lexeme) : List Lexeme :=
  if e.precedence < least then inParens ls else ls

/-- The lexemes of `e` where a member is taken of it or it is called. -/
def objectBy (e : Expr) (ls : List Lexeme) : List Lexeme :=
  if e.isBraced then inParens ls else guardedBy memberPrecedence e ls

/-- The lexemes of `e` as the left operand of an operator. -/
def leftBy (op : BinaryOp) (e : Expr) (ls : List Lexeme) : List Lexeme :=
  if op = .pow && e.isUnary then inParens ls else guardedBy op.leftPrecedence e ls

end Expr

/-- Lists of lexemes with commas between them. -/
def commaLexemes : List (List Lexeme) → List Lexeme
  | [] => []
  | [ls] => ls
  | ls :: lss => ls ++ .symbol "," :: commaLexemes lss

mutual

/-- The lexemes of a printed expression. -/
def Expr.lexemes : Expr → List Lexeme
  | .ident _ name => [.word name]
  | .number _ value => [.numeral value.numeral]
  | .string _ value => [.literal (Text.quote value)]
  | .bool _ value => [.truth value]
  | .member _ object property =>
    object.objectBy object.lexemes ++ [.symbol ".", .word property]
  | .element _ object index =>
    object.objectBy object.lexemes ++ .symbol "[" ::
      (index.guardedBy assignPrecedence index.lexemes ++ [.symbol "]"])
  | .binary _ lhs op rhs =>
    lhs.leftBy op lhs.lexemes ++ .symbol op.text :: rhs.guardedBy op.rightPrecedence rhs.lexemes
  | .unary _ op operand => .symbol op.text :: operand.guardedBy unaryPrecedence operand.lexemes
  | .increment _ operand => operand.guardedBy postPrecedence operand.lexemes ++ [.symbol "++"]
  | .assign _ target op value =>
    target.guardedBy (assignPrecedence + 1) target.lexemes ++ .symbol op.text ::
      value.guardedBy assignPrecedence value.lexemes
  | .spread _ value => .symbol "..." :: value.guardedBy assignPrecedence value.lexemes
  | .array _ elements => .symbol "[" :: (commaLexemes (exprLexemes elements) ++ [.symbol "]"])
  | .object _ properties =>
    .symbol "\x7b" :: (commaLexemes (propertyLexemes properties) ++ [.symbol "\x7d"])
  | .call _ callee args =>
    callee.objectBy callee.lexemes ++ inParens (commaLexemes (exprLexemes args))
  | .function _ func => [.function func]

/-- The lexemes of each expression of a list. -/
def exprLexemes : List Expr → List (List Lexeme)
  | [] => []
  | e :: es => e.guardedBy assignPrecedence e.lexemes :: exprLexemes es

/-- The lexemes of each property of an object. -/
def propertyLexemes : List Property → List (List Lexeme)
  | [] => []
  | .named key value :: ps =>
    (.word key :: .symbol ":" :: value.guardedBy assignPrecedence value.lexemes) ::
      propertyLexemes ps
  | .computed key value :: ps =>
    (.symbol "[" :: (key.guardedBy assignPrecedence key.lexemes ++ .symbol "]" :: .symbol ":" ::
      value.guardedBy assignPrecedence value.lexemes)) :: propertyLexemes ps

end

/-- The lexemes of an expression that is printed where a precedence of `least` is asked for. -/
def Expr.guardedLexemes (least : Nat) (e : Expr) : List Lexeme := e.guardedBy least e.lexemes

/-! ### The grammar -/

/-- How loosely an operator binds: the count of tighter groups of binary operators. -/
def BinaryOp.looseness : BinaryOp → Nat
  | pow => 0
  | mul | div | mod => 1
  | add | sub => 2
  | less | lessEq | greater | greaterEq => 3
  | strictEq | strictNotEq => 4
  | and => 5
  | or => 6

/-- All operators between two operands. -/
def BinaryOp.all : List BinaryOp :=
  [pow, mul, div, mod, add, sub, less, lessEq, greater, greaterEq, strictEq, strictNotEq, and, or]

/-- The operator of a group that a symbol stands for. -/
def binaryOp? (n : Nat) (s : String) : Option BinaryOp :=
  BinaryOp.all.find? fun op => op.looseness = n && op.text = s

/-- The operator before its operand that a symbol stands for. -/
def prefixOp? (s : String) : Option UnaryOp :=
  [UnaryOp.neg, UnaryOp.not, UnaryOp.bitNot].find? fun op => op.text = s

/-- A reader of the head of a list of lexemes. -/
abbrev Reader (α : Type) := List Lexeme → Option (α × List Lexeme)

/-- Reads a symbol that has to come next. -/
def closing (s : String) : Reader Unit
  | .symbol t :: ls => if t = s then some ((), ls) else none
  | _ => none

/-- Reads parts with commas between them, up to the symbol that closes them. The parts behind a
comma are read by `more`. -/
def readList {α : Type} (one : Reader α) (more : Reader (List α)) (close : String) :
    Reader (List α) := fun ls =>
  match closing close ls with
  | some (_, ls) => some ([], ls)
  | none => do
    let (x, ls) ← one ls
    match closing "," ls with
    | some (_, ls) => do
      let (xs, ls) ← more ls
      return (x :: xs, ls)
    | none => do
      let (_, ls) ← closing close ls
      return ([x], ls)

/-- Readers of what stands behind a token. -/
structure Readers where
  /-- An expression whose operators bind at most so loosely. -/
  binary : Nat → Reader Expr
  /-- An expression that starts with an operator, or has no binary operator. -/
  unary : Reader Expr
  /-- The operators of a group and their right operands, behind a left operand. -/
  chain : Nat → Expr → Reader Expr
  /-- The members, elements and calls behind an expression. -/
  suffixes : Expr → Reader Expr
  /-- The items of a list up to the symbol that closes it. -/
  items : String → Reader (List Expr)
  /-- The properties of an object up to its closing brace. -/
  properties : Reader (List Property)

namespace Readers

variable (r : Readers)

/-- A name, a literal, a function, or something in brackets. -/
def readPrimary : Reader Expr
  | [] => none
  | .word name :: ls => some (.ident 0 name, ls)
  | .numeral text :: ls => (Binary64.ofNumeral? text).map fun value => (.number 0 value, ls)
  | .literal text :: ls => (Text.unquote? text).map fun value => (.string 0 value, ls)
  | .truth value :: ls => some (.bool 0 value, ls)
  | .function func :: ls => some (.function 0 func, ls)
  | .symbol s :: ls =>
    if s = "(" then do
      let (e, ls) ← r.binary 6 ls
      let (_, ls) ← closing ")" ls
      return (e, ls)
    else if s = "[" then do
      let (es, ls) ← r.items "]" ls
      return (.array 0 es, ls)
    else if s = "\x7b" then do
      let (ps, ls) ← r.properties ls
      return (.object 0 ps, ls)
    else none

/-- The members, elements and calls behind an expression. -/
def readSuffixes (e : Expr) : Reader Expr
  | .symbol s :: ls =>
    if s = "." then
      match ls with
      | .word name :: ls => r.suffixes (.member 0 e name) ls
      | _ => none
    else if s = "[" then do
      let (i, ls) ← r.binary 6 ls
      let (_, ls) ← closing "]" ls
      r.suffixes (.element 0 e i) ls
    else if s = "(" then do
      let (args, ls) ← r.items ")" ls
      r.suffixes (.call 0 e args) ls
    else some (e, .symbol s :: ls)
  | ls => some (e, ls)

/-- A primary expression with its members, elements and calls. -/
def readPostfix (ls : List Lexeme) : Option (Expr × List Lexeme) := do
  let (e, ls) ← r.readPrimary ls
  r.readSuffixes e ls

/-- The operator that comes next, if it stands before its operand, and what is behind it. -/
def nextPrefix? : List Lexeme → Option (UnaryOp × List Lexeme)
  | .symbol s :: ls => (prefixOp? s).map fun op => (op, ls)
  | _ => none

/-- Operators before an operand without binary operators. -/
def readUnary (ls : List Lexeme) : Option (Expr × List Lexeme) :=
  match nextPrefix? ls with
  | some (op, ls) => do
    let (e, ls) ← r.unary ls
    return (.unary 0 op e, ls)
  | none => r.readPostfix ls

/-- The operator of a group that comes next, and what is behind it. -/
def nextBinary? (n : Nat) : List Lexeme → Option (BinaryOp × List Lexeme)
  | .symbol s :: ls => (binaryOp? n s).map fun op => (op, ls)
  | _ => none

/-- A power, or an operand alone. What starts with an operator is no base of a power. -/
def readPower (ls : List Lexeme) : Option (Expr × List Lexeme) :=
  match nextPrefix? ls with
  | some _ => r.readUnary ls
  | none => do
    let (base, ls) ← r.readPostfix ls
    match nextBinary? 0 ls with
    | some (op, ls) => do
      let (e, ls) ← r.binary 0 ls
      return (.binary 0 base op e, ls)
    | none => some (base, ls)

/-- The operators of a group and their right operands, behind a left operand. -/
def readChain (n : Nat) (lhs : Expr) (ls : List Lexeme) : Option (Expr × List Lexeme) :=
  match nextBinary? n ls with
  | some (op, ls) => do
    let (rhs, ls) ← r.binary (n - 1) ls
    r.chain n (.binary 0 lhs op rhs) ls
  | none => some (lhs, ls)

/-- An expression whose operators bind at most so loosely. -/
def readBinary : Nat → Reader Expr
  | 0 => r.readPower
  | n + 1 => fun ls => do
    let (e, ls) ← readBinary n ls
    r.readChain (n + 1) e ls

/-- An item of a list, which may be spread. -/
def readItem (ls : List Lexeme) : Option (Expr × List Lexeme) :=
  match closing "..." ls with
  | some (_, ls) => do
    let (e, ls) ← r.binary 6 ls
    return (.spread 0 e, ls)
  | none => r.readBinary 6 ls

/-- A property of an object. -/
def readProperty : Reader Property
  | .word key :: ls => do
    let (_, ls) ← closing ":" ls
    let (e, ls) ← r.binary 6 ls
    return (.named key e, ls)
  | ls => do
    let (_, ls) ← closing "[" ls
    let (key, ls) ← r.binary 6 ls
    let (_, ls) ← closing "]" ls
    let (_, ls) ← closing ":" ls
    let (e, ls) ← r.binary 6 ls
    return (.computed key e, ls)

/-- The items of a list up to the symbol that closes it. -/
def readItems (close : String) : Reader (List Expr) := readList r.readItem (r.items close) close

/-- The properties of an object up to its closing brace. -/
def readProperties : Reader (List Property) := readList r.readProperty r.properties "\x7d"

end Readers

/-- The readers of what nests less deep than `d`. Each level stands behind a token of its own, so
nothing nests deeper than it has tokens. -/
def readers : Nat → Readers
  | 0 => ⟨fun _ _ => none, fun _ => none, fun _ _ _ => none, fun _ _ => none, fun _ _ => none,
    fun _ => none⟩
  | d + 1 =>
    let r := readers d
    ⟨r.readBinary, r.readUnary, r.readChain, r.readSuffixes, r.readItems, r.readProperties⟩

/-- The expression at the head of a list of lexemes, and what follows it. -/
def readExpr (ls : List Lexeme) : Option (Expr × List Lexeme) :=
  (readers (ls.length + 1)).binary 6 ls

end LuaTranspiler.Target
