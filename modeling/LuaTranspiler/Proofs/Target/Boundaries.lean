import LuaTranspiler.Proofs.Target.Splitting

/-!
# Where printed tokens run together

Blanks part most tokens that could be taken for one. The others are glued: members, elements and
calls to their objects, operators and dots to their operands, brackets to what is inside them. Of
these only a numeral without a point and the point of a member behind it run together.

* `Expr.Everywhere`: what holds for all expressions and names in a tree
* `Expr.Sound`: what is printed for the expression itself is a name, a number without a sign, ...
* `Expr.Parted`: the expression itself is no member of a numeral without a point
* `Expr.splits`: a sound expression is split into the tokens printed for it exactly if all
  expressions in it are parted
-/

namespace LuaTranspiler.Target

open Piece

/-! ### Trees as a whole -/

section Everywhere

variable (P : Expr → Prop) (Q : String → Prop)

/-- The names that a declaration binds. -/
def Binding.boundNames : Binding → List String
  | ident name => [name]
  | array names => names

mutual

/-- Whether `P` holds for an expression and all expressions inside it, at every depth, and `Q` for
all names inside it that are declared or are the key of a property. -/
def Expr.Everywhere : Expr → Prop
  | .ident id name => P (.ident id name)
  | .number id value => P (.number id value)
  | .string id value => P (.string id value)
  | .bool id value => P (.bool id value)
  | .member id object property => P (.member id object property) ∧ object.Everywhere
  | .element id object index =>
    P (.element id object index) ∧ object.Everywhere ∧ index.Everywhere
  | .binary id lhs op rhs => P (.binary id lhs op rhs) ∧ lhs.Everywhere ∧ rhs.Everywhere
  | .unary id op operand => P (.unary id op operand) ∧ operand.Everywhere
  | .increment id operand => P (.increment id operand) ∧ operand.Everywhere
  | .assign id target op value =>
    P (.assign id target op value) ∧ target.Everywhere ∧ value.Everywhere
  | .spread id value => P (.spread id value) ∧ value.Everywhere
  | .array id elements => P (.array id elements) ∧ exprsEverywhere elements
  | .object id properties => P (.object id properties) ∧ propertiesEverywhere properties
  | .call id callee args => P (.call id callee args) ∧ callee.Everywhere ∧ exprsEverywhere args
  | .function id func => P (.function id func) ∧ func.Everywhere

/-- The same for expressions. -/
def exprsEverywhere : List Expr → Prop
  | [] => True
  | e :: es => e.Everywhere ∧ exprsEverywhere es

/-- The same for the properties of an object. -/
def propertiesEverywhere : List Property → Prop
  | [] => True
  | .named key value :: ps => Q key ∧ value.Everywhere ∧ propertiesEverywhere ps
  | .computed key value :: ps => key.Everywhere ∧ value.Everywhere ∧ propertiesEverywhere ps

/-- The same for a function. -/
def Function.Everywhere : Function → Prop
  | .mk params _ body => (∀ p ∈ params, Q p.name) ∧ stmtsEverywhere body

/-- The same for a declaration. -/
def VarDecl.Everywhere : VarDecl → Prop
  | .mk _ binding _ none => ∀ s ∈ binding.boundNames, Q s
  | .mk _ binding _ (some e) => (∀ s ∈ binding.boundNames, Q s) ∧ e.Everywhere

/-- The same for a method. -/
def Method.Everywhere : Method → Prop
  | .mk _ name _ func => Q name ∧ func.Everywhere

/-- The same for methods. -/
def methodsEverywhere : List Method → Prop
  | [] => True
  | m :: ms => m.Everywhere ∧ methodsEverywhere ms

/-- The same for what follows the block of an `if`. -/
def Else.Everywhere : Else → Prop
  | .none => True
  | .elseIf s => s.Everywhere
  | .block body => stmtsEverywhere body

/-- The same for a statement. -/
def Stmt.Everywhere : Stmt → Prop
  | .var _ decl => decl.Everywhere
  | .functionDecl _ name _ func => Q name ∧ func.Everywhere
  | .classDecl _ name methods => Q name ∧ methodsEverywhere methods
  | .expr _ e | .exportAssign _ e | .returnStmt _ (some e) => e.Everywhere
  | .returnStmt _ none | .breakStmt _ => True
  | .ifStmt _ cond thenBlock elseBranch =>
    cond.Everywhere ∧ stmtsEverywhere thenBlock ∧ elseBranch.Everywhere
  | .forLoop _ init test update body =>
    init.Everywhere ∧ test.Everywhere ∧ update.Everywhere ∧ stmtsEverywhere body
  | .forOf _ binding iterable body =>
    (∀ s ∈ binding.boundNames, Q s) ∧ iterable.Everywhere ∧ stmtsEverywhere body
  | .whileLoop _ cond body => cond.Everywhere ∧ stmtsEverywhere body

/-- The same for statements. -/
def stmtsEverywhere : List Stmt → Prop
  | [] => True
  | s :: ss => s.Everywhere ∧ stmtsEverywhere ss

end

variable {P Q}

theorem everywhere_varDecl {kind : VarKind} {binding : Binding} {ty : Option Ty}
    {init : Option Expr} : (VarDecl.mk kind binding ty init).Everywhere P Q ↔
      (∀ s ∈ binding.boundNames, Q s) ∧ ∀ e ∈ init, e.Everywhere P Q := by
  cases init <;> simp [VarDecl.Everywhere]

theorem everywhere_returnStmt {id : Nat} {value : Option Expr} :
    (Stmt.returnStmt id value).Everywhere P Q ↔ ∀ e ∈ value, e.Everywhere P Q := by
  cases value <;> simp [Stmt.Everywhere]

theorem stmtsEverywhere_append {ss ts : List Stmt} :
    stmtsEverywhere P Q (ss ++ ts) ↔ stmtsEverywhere P Q ss ∧ stmtsEverywhere P Q ts := by
  induction ss with
  | nil => simp [stmtsEverywhere]
  | cons s ss ih => simp [stmtsEverywhere, ih, and_assoc]

end Everywhere

namespace Expr

/-- Whether what is printed for an expression itself is as its form asks: names, numbers without a
sign, and a spread only of a name. -/
def Sound : Expr → Prop
  | ident _ name => IsName name
  | number _ value => value.IsLiteral
  | member _ _ property => IsName property
  | spread _ value => ∃ id name, value = ident id name
  | _ => True

/-- Whether an expression is printed as digits only. -/
def isWhole : Expr → Bool
  | number _ value => isDigits value.numeral
  | _ => false

/-- Whether an expression itself is no member of a numeral without a point. -/
def Parted : Expr → Prop
  | member _ base _ => base.isWhole = false
  | _ => True

end Expr

/-- Nothing is asked of names. -/
abbrev AnyName : String → Prop := fun _ => True

/-! ### Expressions in their places -/

theorem exists_opening_of_isName {s : String} (h : IsName s) :
    ∃ c cs, s.toList = c :: cs ∧ c ≠ '=' ∧ c ≠ '-' := by
  obtain ⟨c, cs, htext, hc, -⟩ := h
  refine ⟨c, cs, htext, ?_, ?_⟩ <;> rintro rfl <;> exact absurd hc (by decide)

theorem isName_infinity : IsName (Binary64.numeral .infinity) := by decide

namespace Expr

/-- An expression on a line of indentation level `n` is split as printed, before whatever cannot go
on with it, exactly if all in it are parted and it is not digits before a point. A point comes only
behind expressions that it can be put behind without parentheses. -/
def SplitsParted (n : Nat) (e : Expr) : Prop :=
  ∀ rest, Stops rest → (rest.head? = some '.' → memberPrecedence ≤ e.precedence) →
    Splits (e.pieces n) rest
      (e.Everywhere Parted AnyName ∧ ¬(e.isWhole = true ∧ rest.head? = some '.'))

variable {n : Nat} {e : Expr} {rest : List Char}

theorem SplitsParted.closes (h : e.SplitsParted n) (hrest : Closes rest) :
    Splits (e.pieces n) rest (e.Everywhere Parted AnyName) :=
  (h rest hrest.1 fun hpoint => absurd hpoint hrest.2).congr
    (and_iff_left fun hpoint => hrest.2 hpoint.2)

theorem SplitsParted.parens (h : e.SplitsParted n) :
    Splits (Piece.parens (e.pieces n)) rest (e.Everywhere Parted AnyName) :=
  .parens fun _ => h.closes

theorem SplitsParted.guarded (h : e.SplitsParted n) (least : Nat) (hrest : Closes rest) :
    Splits (e.guarded least (e.pieces n)) rest (e.Everywhere Parted AnyName) := by
  unfold Expr.guarded
  split
  · exact h.parens
  · exact h.closes hrest

theorem SplitsParted.asLeft (h : e.SplitsParted n) (op : BinaryOp) (hrest : Closes rest) :
    Splits (e.asLeft op (e.pieces n)) rest (e.Everywhere Parted AnyName) := by
  unfold Expr.asLeft
  split
  · exact h.parens
  · exact h.guarded _ hrest

/-- Digits are never put in parentheses, so they meet the point behind them. -/
theorem SplitsParted.asObject (h : e.SplitsParted n) (hrest : Stops rest) :
    Splits (e.asObject (e.pieces n)) rest
      (e.Everywhere Parted AnyName ∧ ¬(e.isWhole = true ∧ rest.head? = some '.')) := by
  have hbare : e.isWhole = true → e.isBraced = false ∧ ¬e.precedence < memberPrecedence := by
    cases e with
    | number =>
      have hle : memberPrecedence ≤ primaryPrecedence := by decide
      exact fun _ => ⟨rfl, Nat.not_lt.2 hle⟩
    | _ => exact nofun
  have hparens : ¬e.isWhole = true → Splits (Piece.parens (e.pieces n)) rest
      (e.Everywhere Parted AnyName ∧ ¬(e.isWhole = true ∧ rest.head? = some '.')) :=
    fun hwhole => h.parens.congr (and_iff_left fun hpoint => hwhole hpoint.1).symm
  unfold Expr.asObject Expr.guarded
  split
  next hbraced => exact hparens fun hwhole => by simp [(hbare hwhole).1] at hbraced
  split
  next hlow => exact hparens fun hwhole => (hbare hwhole).2 hlow
  next hhigh => exact h rest hrest fun _ => Nat.le_of_not_lt hhigh

theorem SplitsParted.asObject_closes (h : e.SplitsParted n) (hrest : Closes rest) :
    Splits (e.asObject (e.pieces n)) rest (e.Everywhere Parted AnyName) :=
  (h.asObject hrest.1).congr (and_iff_left fun hpoint => hrest.2 hpoint.2)

/-- No point comes behind an expression that would need parentheses before it. -/
theorem closes_of_precedence {k : Nat} (hlow : k < memberPrecedence) (hrest : Stops rest)
    (hpoint : rest.head? = some '.' → memberPrecedence ≤ k) : Closes rest :=
  ⟨hrest, fun h => Nat.not_lt.2 (hpoint h) hlow⟩

/-! ### What expressions start with -/

/-- The first character of an expression is no `=`, and is a minus only for a negation. -/
def Opens (n : Nat) (e : Expr) : Prop :=
  ∃ c cs, chars (e.pieces n) = c :: cs ∧ c ≠ '=' ∧ (c = '-' → e.isNeg = true)

theorem Opens.of_token {s : String} {ps : List Piece} (hps : e.pieces n = .token s :: ps)
    (hs : s.toList.head?.any (fun c => c != '=' && c != '-') = true) : e.Opens n := by
  cases htext : s.toList with
  | nil => simp [htext] at hs
  | cons c cs =>
    have hne : c ≠ '=' ∧ c ≠ '-' := by simpa [htext] using hs
    refine ⟨c, cs ++ chars ps, ?_, hne.1, fun hc => absurd hc hne.2⟩
    rw [hps, chars_cons, text, htext, List.cons_append]

/-- Behind parentheses, or with the object bare, no sign comes first. -/
theorem Opens.of_guarded {least : Nat} {ps qs : List Piece}
    (hleast : unaryPrecedence < least) (h : least ≤ e.precedence → e.Opens n)
    (hps : ps = e.guarded least (e.pieces n) ∨ ps = Piece.parens (e.pieces n)) :
    ∃ c cs, chars (ps ++ qs) = c :: cs ∧ c ≠ '=' ∧ c ≠ '-' := by
  have hparens : ∃ c cs, chars (Piece.parens (e.pieces n) ++ qs) = c :: cs ∧ c ≠ '=' ∧ c ≠ '-' :=
    ⟨'(', _, by rw [Piece.parens, List.cons_append, chars_cons]; rfl, by decide, by decide⟩
  rcases hps with rfl | rfl
  · unfold Expr.guarded
    split
    · exact hparens
    next hhigh =>
      obtain ⟨c, cs, htext, heq, hneg⟩ := h (Nat.le_of_not_lt hhigh)
      refine ⟨c, cs ++ chars qs, by rw [chars_append, htext, List.cons_append], heq, fun hc => ?_⟩
      have hunary : e.precedence = unaryPrecedence := by
        have := hneg hc
        cases e <;> simp_all [isNeg, precedence]
      omega
  · exact hparens

theorem opens_asObject {base : Expr} {qs : List Piece}
    (h : memberPrecedence ≤ base.precedence → base.Opens n) :
    ∃ c cs, chars (base.asObject (base.pieces n) ++ qs) = c :: cs ∧ c ≠ '=' ∧ c ≠ '-' := by
  refine Opens.of_guarded (by decide) h ?_
  unfold Expr.asObject
  split
  · exact .inr rfl
  · exact .inl rfl

/-- A sound expression that stands bare behind an operator starts with a sign only if it is a
negation. -/
theorem opens (n : Nat) : ∀ e : Expr, e.Everywhere Sound IsName →
    unaryPrecedence ≤ e.precedence → e.Opens n
  | .ident _ name, h, _ => by
    obtain ⟨c, cs, htext, heq, hneg⟩ := exists_opening_of_isName h
    exact ⟨c, cs, by simp [pieces, text, htext], heq, fun hc => absurd hc hneg⟩
  | .number _ value, h, _ => by
    obtain ⟨c, cs, htext, heq, hneg⟩ :
        ∃ c cs, value.numeral.toList = c :: cs ∧ c ≠ '=' ∧ c ≠ '-' := by
      rcases h with hvalue | rfl
      · obtain ⟨c, ws, hc, -, htext⟩ := exists_numeral_eq hvalue
        have hne : c ≠ '=' ∧ c ≠ '-' := by
          constructor <;> rintro rfl <;> exact absurd hc (by decide)
        rcases htext with htext | ⟨ds, -, htext⟩
        · exact ⟨c, _, htext, hne⟩
        · exact ⟨c, _, htext, hne⟩
      · exact exists_opening_of_isName isName_infinity
    exact ⟨c, cs, by simp [pieces, text, htext], heq, fun hc => absurd hc hneg⟩
  | .string _ value, _, _ => .of_token rfl (by simp [Text.quote, Text.quoteChars])
  | .bool _ value, _, _ => .of_token rfl (by cases value <;> rfl)
  | .member _ base property, h, _ => by
    obtain ⟨c, cs, htext, heq, hneg⟩ := opens_asObject (n := n)
      fun hhigh => base.opens n h.2 (le_trans (by decide) hhigh)
    exact ⟨c, cs, htext, heq, fun hc => absurd hc hneg⟩
  | .element _ base index, h, _ => by
    obtain ⟨c, cs, htext, heq, hneg⟩ := opens_asObject (n := n)
      fun hhigh => base.opens n h.2.1 (le_trans (by decide) hhigh)
    exact ⟨c, cs, htext, heq, fun hc => absurd hc hneg⟩
  | .call _ callee args, h, _ => by
    obtain ⟨c, cs, htext, heq, hneg⟩ := opens_asObject (n := n)
      fun hhigh => callee.opens n h.2.1 (le_trans (by decide) hhigh)
    exact ⟨c, cs, htext, heq, fun hc => absurd hc hneg⟩
  | .increment _ operand, h, _ => by
    obtain ⟨c, cs, htext, heq, hneg⟩ := Opens.of_guarded (n := n)
      (by decide : unaryPrecedence < postPrecedence)
      (fun hhigh => operand.opens n h.2 (le_trans (by decide) hhigh)) (.inl rfl)
    exact ⟨c, cs, htext, heq, fun hc => absurd hc hneg⟩
  | .unary _ .neg operand, _, _ =>
    ⟨'-', _, by rw [pieces, chars_cons]; rfl, by decide, fun _ => rfl⟩
  | .unary _ .not _, _, _ | .unary _ .bitNot _, _, _ | .spread .., _, _ | .array .., _, _
  | .object _ [], _, _ | .object _ (_ :: _), _, _ => .of_token rfl rfl
  | .binary _ _ op _, _, hlow => by
    have hop : op.precedence < unaryPrecedence := by cases op <;> decide
    exact absurd hop (Nat.not_lt.2 hlow)
  | .assign .., _, hlow | .function .., _, hlow => by
    simp [precedence, assignPrecedence, unaryPrecedence] at hlow

end Expr

/-! ### Parts without expressions -/

section Parts

variable {rest : List Char}

theorem Splits.word {s : String} {ps : List Piece} {P : Prop} (h : Splits ps rest P)
    (hs : IsName s) (hrest : Closes (chars ps ++ rest)) : Splits (.token s :: ps) rest P :=
  h.name hs hrest.1

theorem Splits.block {n : Nat} {lines : List Piece} {P : Prop}
    (h : ∀ rest, Splits lines rest P) : Splits (blockPieces n lines) rest P := by
  have hclose : Splits [.indent n, .token "\x7d"] rest True :=
    (Splits.nil.closedSymbol (by decide)).indent n
  have hopen := ((h _).before hclose).newline.closedSymbol (s := "\x7b") (by decide)
  exact hopen.space

theorem splits_tyPieces (ty : Option Ty) (hrest : Closes rest) :
    Splits (tyPieces ty) rest True ∧ Closes (chars (tyPieces ty) ++ rest) := by
  cases ty with
  | none => exact ⟨.nil, hrest⟩
  | some t => exact ⟨(Splits.nil.ty t hrest.1).space.closedSymbol (by decide), closes_token rfl⟩

theorem Param.splits_tyPieces (p : Param) (hrest : Closes rest) :
    Splits p.tyPieces rest True ∧ Closes (chars p.tyPieces ++ rest) := by
  have hbrackets : Splits [.token "[", .token "]"] rest True :=
    (Splits.nil.closedSymbol (by decide)).closedSymbol (by decide)
  unfold Param.tyPieces
  split
  next => exact ⟨.nil, hrest⟩
  next ts _ _ =>
    refine ⟨?_, closes_token rfl⟩
    have hclose := hbrackets.closedSymbol (s := ")") (by decide)
    have htype := (hclose.ty (.union ts) (closes_token rfl).1).closedSymbol (s := "(") (by decide)
    exact htype.space.closedSymbol (by decide)
  next t _ _ _ =>
    have htype := hbrackets.ty t (closes_token rfl).1
    exact ⟨htype.space.closedSymbol (by decide), closes_token rfl⟩
  next t _ _ =>
    exact ⟨(Splits.nil.ty t hrest.1).space.closedSymbol (by decide), closes_token rfl⟩

theorem Param.splits {p : Param} (hp : IsName p.name) (hrest : Closes rest) :
    Splits p.pieces rest True := by
  obtain ⟨hty, hcloses⟩ := p.splits_tyPieces hrest
  have hname := hty.word hp hcloses
  unfold Param.pieces
  split
  · exact hname.closedSymbol (by decide)
  · exact hname

theorem splits_params {params : List Param} (h : ∀ p ∈ params, IsName p.name) :
    Splits (Piece.parens (commaSeparated (params.map Param.pieces))) rest True := by
  refine .parens fun _ => Splits.commaSeparated_of_forall ?_
  intro item hitem rest hrest
  obtain ⟨p, hp, rfl⟩ := List.mem_map.1 hitem
  exact Param.splits (h p hp) hrest

theorem Binding.splits {binding : Binding} (h : ∀ s ∈ binding.boundNames, IsName s)
    (hrest : Closes rest) : Splits binding.pieces rest True := by
  cases binding with
  | ident name => exact Splits.nil.word (h name (by simp [boundNames])) hrest
  | array names =>
    refine .brackets fun _ => Splits.commaSeparated_of_forall ?_
    intro item hitem rest hrest
    obtain ⟨name, hname, rfl⟩ := List.mem_map.1 hitem
    exact Splits.nil.word (h name hname) hrest

/-- The keywords that stand before a blank. -/
def keywords : List String :=
  ["function", "let", "const", "static", "export", "class", "if", "else", "for", "of", "while",
    "return"]

theorem isName_of_keyword {s : String} (hs : s ∈ keywords) : IsName s := by
  have hall : ∀ s ∈ keywords, IsName s := by decide
  exact hall s hs

theorem Splits.keyword {s : String} {ps : List Piece} {P : Prop} (h : Splits ps rest P)
    (hs : s ∈ keywords) : Splits (.token s :: .space :: ps) rest P :=
  h.space.word (isName_of_keyword hs) closes_space

/-- An operator before its operand, with a blank between two minus signs. -/
theorem Splits.unaryOp {op : UnaryOp} {operand : Expr} {n : Nat} {P : Prop}
    (hopens : unaryPrecedence ≤ operand.precedence → operand.Opens n)
    (h : Splits (operand.guarded unaryPrecedence (operand.pieces n)) rest P) :
    Splits (.token op.text :: (operand.signGap op ++
      operand.guarded unaryPrecedence (operand.pieces n))) rest P := by
  unfold Expr.signGap
  split
  next hneg =>
    obtain rfl : op = .neg := by
      rw [Bool.and_eq_true, decide_eq_true_eq] at hneg
      exact hneg.1
    exact h.spacedSymbol (by decide)
  next hgap =>
    obtain ⟨c, cs, htext, heq, hsign⟩ : ∃ c cs,
        chars (operand.guarded unaryPrecedence (operand.pieces n)) = c :: cs ∧ c ≠ '=' ∧
          (c ≠ '-' ∨ op ≠ .neg) := by
      unfold Expr.guarded
      split
      · exact ⟨'(', _, by rw [Piece.parens, chars_cons]; rfl, by decide, .inl (by decide)⟩
      next hhigh =>
        obtain ⟨c, cs, htext, heq, hneg⟩ := hopens (Nat.le_of_not_lt hhigh)
        refine ⟨c, cs, htext, heq, ?_⟩
        by_contra hboth
        rw [not_or, not_not, not_not] at hboth
        exact hgap (by simp [hboth.2, hneg hboth.1])
    have hone : tokensOf op.text = [op.text] := by cases op <;> rfl
    refine h.token (.inl hone) ?_
    rw [htext, hone, List.cons_append, cut_unaryOp op heq hsign]
    rfl

theorem closes_function (f : Function) (n : Nat) : Closes (chars (f.pieces n) ++ rest) := by
  cases f
  exact closes_token rfl

end Parts

/-! ### Trees -/

open LuaTranspiler.Target.Expr (Sound Parted)

mutual

/-- **An expression is split into the tokens printed for it exactly if all in it are parted.** -/
theorem Expr.splits : ∀ (e : Expr) (n : Nat), e.Everywhere Sound IsName → e.SplitsParted n
  | .ident _ name, n, h => fun rest hrest _ =>
    (Splits.nil.name h hrest).congr (by simp [Expr.Everywhere, Parted, Expr.isWhole])
  | .number _ value, n, h => fun rest hrest _ => by
    rcases h with hvalue | rfl
    · exact (Splits.numeral hvalue hrest).congr
        (by simp [Expr.Everywhere, Parted, Expr.isWhole])
    · have hdigits : isDigits (Binary64.numeral .infinity) = false := rfl
      exact (Splits.nil.name isName_infinity hrest).congr
        (by simp [Expr.Everywhere, Parted, Expr.isWhole, hdigits])
  | .string _ value, n, _ => fun rest _ _ =>
    Splits.nil.quote.congr (by simp [Expr.Everywhere, Parted, Expr.isWhole])
  | .bool _ value, n, _ => fun rest hrest _ => by
    have hname : IsName (if value then "true" else "false") := by
      cases value <;> decide
    exact (Splits.nil.name hname hrest).congr (by simp [Expr.Everywhere, Parted, Expr.isWhole])
  | .member _ base property, n, h => fun rest hrest _ => by
    have hpoint : Splits [.token ".", .token property] rest True :=
      (Splits.nil.name h.1 hrest).point h.1
    have hstops : Stops (chars [.token ".", .token property] ++ rest) := by
      simp [Stops, text]
      rfl
    refine (((base.splits n h.2).asObject hstops).before hpoint).congr ?_
    simp [Expr.Everywhere, Parted, Expr.isWhole, text, and_comm]
  | .element _ base index, n, h => fun rest _ _ => by
    have hindex : Splits (Piece.brackets (index.guarded assignPrecedence (index.pieces n))) rest
        _ := .brackets fun _ => (index.splits n h.2.2).guarded assignPrecedence
    have hbase := hindex.follows (closes_token rfl) fun _ => (base.splits n h.2.1).asObject_closes
    exact hbase.congr (by simp [Expr.Everywhere, Parted, Expr.isWhole])
  | .binary _ lhs op rhs, n, h => fun rest hrest hpoint => by
    have hlow : op.precedence < memberPrecedence := by cases op <;> decide
    have hcloses := Expr.closes_of_precedence hlow hrest hpoint
    have hop : op.text ∈ spacedSymbols := by cases op <;> decide
    have hrhs := (((rhs.splits n h.2.2).guarded op.rightPrecedence hcloses).spacedSymbol hop).space
    have hlhs := hrhs.follows closes_space fun _ => (lhs.splits n h.2.1).asLeft op
    exact hlhs.congr (by simp [Expr.Everywhere, Parted, Expr.isWhole])
  | .unary _ op operand, n, h => fun rest hrest hpoint => by
    have hlow : unaryPrecedence < memberPrecedence := by decide
    have hcloses := Expr.closes_of_precedence hlow hrest hpoint
    have hoperand := (operand.splits n h.2).guarded unaryPrecedence hcloses
    exact (hoperand.unaryOp (operand.opens n h.2)).congr
      (by simp [Expr.Everywhere, Parted, Expr.isWhole])
  | .increment _ operand, n, h => fun rest _ _ => by
    have hoperand : Splits (operand.guarded postPrecedence (operand.pieces n) ++ [.token "++"])
        rest _ := .closed (fun _ => (operand.splits n h.2).guarded postPrecedence) (by decide)
    exact hoperand.congr (by simp [Expr.Everywhere, Parted, Expr.isWhole])
  | .assign _ target op value, n, h => fun rest hrest hpoint => by
    have hlow : assignPrecedence < memberPrecedence := by decide
    have hcloses := Expr.closes_of_precedence hlow hrest hpoint
    have hop : op.text ∈ spacedSymbols := by cases op <;> decide
    have hvalue := ((value.splits n h.2.2).guarded assignPrecedence hcloses).spacedSymbol hop
    have htarget := hvalue.space.follows closes_space fun _ =>
      (target.splits n h.2.1).guarded (assignPrecedence + 1)
    exact htarget.congr (by simp [Expr.Everywhere, Parted, Expr.isWhole])
  | .spread _ value, n, h => fun rest hrest _ => by
    obtain ⟨id, name, rfl⟩ := h.1
    have hname : Splits [.token name] rest True := Splits.nil.name h.2 hrest
    exact (hname.closedSymbol (by decide)).congr (by simp [Expr.Everywhere, Parted, Expr.isWhole])
  | .array _ elements, n, h => fun rest _ _ =>
    (Splits.brackets fun _ => splits_exprs elements n h.2).congr
      (by simp [Expr.Everywhere, Parted, Expr.isWhole])
  | .object _ [], n, _ => fun rest _ _ =>
    ((Splits.nil.closedSymbol (by decide)).closedSymbol (by decide)).congr
      (by simp [Expr.Everywhere, propertiesEverywhere, Parted, Expr.isWhole])
  | .object _ (p :: ps), n, h => fun rest _ _ => by
    have hclose : Splits [.space, .token "\x7d"] rest True :=
      (Splits.nil.closedSymbol (by decide)).space
    have hproperties := hclose.follows closes_space fun _ => splits_properties (p :: ps) n h.2
    exact (hproperties.space.closedSymbol (by decide)).congr
      (by simp [Expr.Everywhere, Parted, Expr.isWhole])
  | .call _ callee args, n, h => fun rest _ _ => by
    have hargs : Splits (Piece.parens (commaSeparated (exprPieces n args))) rest _ :=
      .parens fun _ => splits_exprs args n h.2.2
    have hcallee := hargs.follows (closes_token rfl) fun _ =>
      (callee.splits n h.2.1).asObject_closes
    exact hcallee.congr (by simp [Expr.Everywhere, Parted, Expr.isWhole])
  | .function _ func, n, h => fun rest _ _ =>
    ((func.splits n h.2 rest).keyword (by decide)).congr
      (by simp [Expr.Everywhere, Parted, Expr.isWhole])

/-- The same for expressions with commas between them. -/
theorem splits_exprs : ∀ (es : List Expr) (n : Nat), exprsEverywhere Sound IsName es →
    ∀ {rest}, Closes rest →
      Splits (commaSeparated (exprPieces n es)) rest (exprsEverywhere Parted AnyName es)
  | [], _, _, _, _ => .nil
  | e :: es, n, h, _, hrest =>
    .commaSeparated_cons (fun _ => (e.splits n h.1).guarded assignPrecedence)
      (splits_exprs es n h.2 hrest) hrest

/-- The same for properties. -/
theorem splits_properties : ∀ (ps : List Property) (n : Nat),
    propertiesEverywhere Sound IsName ps → ∀ {rest}, Closes rest →
      Splits (commaSeparated (propertyPieces n ps)) rest (propertiesEverywhere Parted AnyName ps)
  | [], _, _, _, _ => .nil
  | .named key value :: ps, n, h, _, hrest => by
    refine (Splits.commaSeparated_cons (fun rest hrest => ?_)
      (splits_properties ps n h.2.2 hrest) hrest).congr (iff_of_eq (true_and _)).symm
    have hvalue := ((value.splits n h.2.1).guarded assignPrecedence hrest).space
    exact (hvalue.closedSymbol (by decide)).word h.1 (closes_token rfl)
  | .computed key value :: ps, n, h, _, hrest => by
    refine (Splits.commaSeparated_cons (fun rest hrest => ?_)
      (splits_properties ps n h.2.2 hrest) hrest).congr and_assoc
    have hvalue := ((value.splits n h.2.1).guarded assignPrecedence hrest).space
    exact Splits.append (.brackets fun _ => (key.splits n h.1).guarded assignPrecedence)
      (hvalue.closedSymbol (by decide))

/-- The same for a function, whatever follows its closing brace. -/
theorem Function.splits : ∀ (f : Function) (n : Nat), f.Everywhere Sound IsName →
    ∀ rest, Splits (f.pieces n) rest (f.Everywhere Parted AnyName)
  | .mk params ty body, n, h, rest => by
    have hbody : Splits (blockPieces n (linePieces (n + 1) body)) rest _ :=
      .block (splits_lines body (n + 1) h.2)
    have hhead := hbody.follows closes_space fun _ hrest =>
      (splits_tyPieces ty hrest).1.behind (splits_params h.1)
    exact hhead.congr (by simp [Function.Everywhere])

/-- The same for statements on lines of their own. -/
theorem splits_lines : ∀ (ss : List Stmt) (n : Nat), stmtsEverywhere Sound IsName ss →
    ∀ rest, Splits (linePieces n ss) rest (stmtsEverywhere Parted AnyName ss)
  | [], _, _, _ => .nil
  | s :: ss, n, h, rest =>
    (((s.splits n h.1 _).append (splits_lines ss n h.2 rest).newline).indent n).mark s.id

/-- The same for a declaration. -/
theorem VarDecl.splits : ∀ (d : VarDecl) (n : Nat), d.Everywhere Sound IsName →
    ∀ rest, Closes rest → Splits (d.pieces n) rest (d.Everywhere Parted AnyName)
  | .mk kind binding ty none, n, h, rest, hrest => by
    have hkind : kind.text ∈ keywords := by cases kind <;> decide
    obtain ⟨hty, hcloses⟩ := splits_tyPieces ty hrest
    have hbinding := hty.behind (Binding.splits h hcloses)
    have hnone : Splits (binding.pieces ++ tyPieces ty ++ []) rest True := by
      rwa [List.append_nil]
    exact (hnone.keyword hkind).congr (by simp [VarDecl.Everywhere])
  | .mk kind binding ty (some e), n, h, rest, hrest => by
    have hkind : kind.text ∈ keywords := by cases kind <;> decide
    have hinit := (((e.splits n h.2).guarded assignPrecedence hrest).spacedSymbol
      (s := "=") (by decide)).space
    have hbinding := hinit.follows closes_space fun _ hrest =>
      (splits_tyPieces ty hrest).1.behind (Binding.splits h.1 (splits_tyPieces ty hrest).2)
    exact (hbinding.keyword hkind).congr (by simp [VarDecl.Everywhere])

/-- The same for methods on lines of their own. -/
theorem splits_methods : ∀ (ms : List Method) (n : Nat), methodsEverywhere Sound IsName ms →
    ∀ rest, Splits (methodPieces n ms) rest (methodsEverywhere Parted AnyName ms)
  | [], _, _, _ => .nil
  | .mk id name isStatic func :: ms, n, h, rest => by
    have hfunc := (func.splits n h.1.2 _).append (splits_methods ms n h.2 rest).newline
    have hname := hfunc.word h.1.1 (by
      rw [chars_append, List.append_assoc]
      exact closes_function func n)
    have hstatic : Splits ((if isStatic then [.token "static", .space] else []) ++
        .token name :: (func.pieces n ++ .newline :: methodPieces n ms)) rest
          (func.Everywhere Parted AnyName ∧ methodsEverywhere Parted AnyName ms) := by
      cases isStatic with
      | true => exact hname.keyword (by decide)
      | false => exact hname
    exact ((hstatic.indent n).mark id).congr (by simp [methodsEverywhere, Method.Everywhere])

/-- The same for what follows the block of an `if`. -/
theorem Else.splits : ∀ (e : Else) (n : Nat), e.Everywhere Sound IsName →
    ∀ rest, Splits (e.pieces n) rest (e.Everywhere Parted AnyName)
  | .none, _, _, _ => .nil
  | .elseIf s, n, h, rest => by
    exact (((s.splits n h rest).mark s.id).keyword (by decide)).space
  | .block body, n, h, rest => by
    have hbody : Splits (blockPieces n (linePieces (n + 1) body)) rest _ :=
      .block (splits_lines body (n + 1) h)
    exact (hbody.word (isName_of_keyword (by decide)) closes_space).space

/-- The same for a statement. -/
theorem Stmt.splits : ∀ (s : Stmt) (n : Nat), s.Everywhere Sound IsName →
    ∀ rest, Splits (s.pieces n) rest (s.Everywhere Parted AnyName)
  | .var _ decl, n, h, rest => .closed (decl.splits n h) (by decide)
  | .functionDecl _ name exported func, n, h, rest => by
    have hname := (func.splits n h.2 rest).word h.1 (closes_function func n)
    have hdecl := hname.keyword (s := "function") (by decide)
    cases exported with
    | true => exact (hdecl.keyword (by decide)).congr (by simp [Stmt.Everywhere])
    | false => exact hdecl.congr (by simp [Stmt.Everywhere])
  | .classDecl _ name methods, n, h, rest => by
    have hmethods : Splits (blockPieces n (methodPieces (n + 1) methods)) rest _ :=
      .block (splits_methods methods (n + 1) h.2)
    exact ((hmethods.word h.1 closes_space).keyword (by decide)).congr (by simp [Stmt.Everywhere])
  | .expr _ e, n, h, rest =>
    .closed (fun _ => (e.splits n h).guarded assignPrecedence) (by decide)
  | .returnStmt _ none, n, _, rest => by
    have hsemicolon : Splits [.token ";"] rest True := Splits.nil.closedSymbol (by decide)
    exact hsemicolon.word (isName_of_keyword (by decide)) (closes_token rfl)
  | .returnStmt _ (some e), n, h, rest =>
    (Splits.closed (fun _ => (e.splits n h).guarded assignPrecedence) (by decide)).keyword
      (by decide)
  | .exportAssign _ e, n, h, rest => by
    have hvalue : Splits (e.guarded assignPrecedence (e.pieces n) ++ [.token ";"]) rest _ :=
      .closed (fun _ => (e.splits n h).guarded assignPrecedence) (by decide)
    exact (hvalue.spacedSymbol (s := "=") (by decide)).keyword (by decide)
  | .ifStmt _ cond thenBlock elseBranch, n, h, rest => by
    have hthen : Splits (blockPieces n (linePieces (n + 1) thenBlock))
        (chars (elseBranch.pieces n) ++ rest) _ := .block (splits_lines thenBlock (n + 1) h.2.1)
    have hcond := hthen.follows closes_space fun _ _ =>
      .parens fun _ => (cond.splits n h.1).guarded assignPrecedence
    exact ((hcond.append (elseBranch.splits n h.2.2 rest)).keyword (by decide)).congr and_assoc
  | .forLoop _ init test update body, n, h, rest => by
    have hbody : Splits (blockPieces n (linePieces (n + 1) body)) rest _ :=
      .block (splits_lines body (n + 1) h.2.2.2)
    have hhead := hbody.follows closes_space fun _ _ => .parens fun _ hrest => by
      have hupdate := (update.splits n h.2.2.1).guarded assignPrecedence hrest
      have htest := (hupdate.space.closedSymbol (s := ";") (by decide)).follows (closes_token rfl)
        fun _ => (test.splits n h.2.1).guarded assignPrecedence
      exact (htest.space.closedSymbol (s := ";") (by decide)).follows (closes_token rfl)
        (init.splits n h.1)
    exact (hhead.keyword (by decide)).congr (by simp [Stmt.Everywhere, and_assoc])
  | .forOf _ binding iterable body, n, h, rest => by
    have hbody : Splits (blockPieces n (linePieces (n + 1) body)) rest _ :=
      .block (splits_lines body (n + 1) h.2.2)
    have hhead := hbody.follows closes_space fun _ _ => .parens fun _ hrest => by
      have hiterable := (iterable.splits n h.2.1).guarded assignPrecedence hrest
      have hbinding := (hiterable.keyword (s := "of") (by decide)).space.follows closes_space
        fun _ => Binding.splits h.1
      exact hbinding.keyword (s := "const") (by decide)
    exact (hhead.keyword (by decide)).congr (by simp [Stmt.Everywhere])
  | .whileLoop _ cond body, n, h, rest => by
    have hbody : Splits (blockPieces n (linePieces (n + 1) body)) rest _ :=
      .block (splits_lines body (n + 1) h.2)
    have hcond := hbody.follows closes_space fun _ _ =>
      .parens fun _ => (cond.splits n h.1).guarded assignPrecedence
    exact hcond.keyword (by decide)
  | .breakStmt _, n, _, rest => by
    have hsemicolon : Splits [.token ";"] rest True := Splits.nil.closedSymbol (by decide)
    exact hsemicolon.word (by decide) (closes_token rfl)

end

end LuaTranspiler.Target
