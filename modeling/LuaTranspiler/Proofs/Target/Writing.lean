import LuaTranspiler.Proofs.Number.ReadBack
import LuaTranspiler.Target.Writer

/-!
# What a writer writes

The actions that write a tree follow a grammar: texts, and blocks of lines that are indented by one
level more. Every line starts with a note of the node that is written on it, and so does a branch
`else if` behind a block. All that is said of a run is shown along this grammar.

* `Node`: a statement or a method on a line
* `Inline P n as ps`: the actions `as` write the pieces `ps` on a line of level `n`, and the texts
  they emit satisfy `P`
* `OfTexts P`: what holds of texts without newlines and of joined texts
* `inline_expr`, `inline_stmt`: the actions of trees follow the grammar
-/

namespace LuaTranspiler.Target

open Piece

/-! ### Names -/

/-- The names of a declaration. -/
def Binding.names : Binding → List String
  | ident name => [name]
  | array names => names

mutual

/-- The names in an expression. -/
def Expr.names : Expr → List String
  | .ident _ name => [name]
  | .number .. | .string .. | .bool .. => []
  | .member _ object property => property :: object.names
  | .element _ object index => object.names ++ index.names
  | .binary _ lhs _ rhs => lhs.names ++ rhs.names
  | .unary _ _ operand | .increment _ operand => operand.names
  | .assign _ target _ value => target.names ++ value.names
  | .spread _ value => value.names
  | .array _ elements => exprNames elements
  | .object _ properties => propertyNames properties
  | .call _ callee args => callee.names ++ exprNames args
  | .function _ func => func.names

/-- The names in a list of expressions. -/
def exprNames : List Expr → List String
  | [] => []
  | e :: es => e.names ++ exprNames es

/-- The names in a list of properties. -/
def propertyNames : List Property → List String
  | [] => []
  | .named key value :: ps => key :: (value.names ++ propertyNames ps)
  | .computed key value :: ps => key.names ++ (value.names ++ propertyNames ps)

/-- The names in a function. -/
def Function.names : Function → List String
  | .mk params _ body => params.map Param.name ++ stmtNames body

/-- The names in a list of statements. -/
def stmtNames : List Stmt → List String
  | [] => []
  | s :: ss => s.names ++ stmtNames ss

/-- The names in a declaration. -/
def VarDecl.names : VarDecl → List String
  | .mk _ binding _ none => binding.names
  | .mk _ binding _ (some e) => binding.names ++ e.names

/-- The names in a list of methods. -/
def methodNames : List Method → List String
  | [] => []
  | .mk _ name _ func :: ms => name :: (func.names ++ methodNames ms)

/-- The names in what follows the block of an `if`. -/
def Else.names : Else → List String
  | .none => []
  | .elseIf s => s.names
  | .block body => stmtNames body

/-- The names in a statement. -/
def Stmt.names : Stmt → List String
  | .var _ decl => decl.names
  | .functionDecl _ name _ func => name :: func.names
  | .classDecl _ name methods => name :: methodNames methods
  | .expr _ e | .returnStmt _ (some e) | .exportAssign _ e => e.names
  | .returnStmt _ none | .breakStmt _ => []
  | .ifStmt _ cond thenBlock elseBranch => cond.names ++ (stmtNames thenBlock ++ elseBranch.names)
  | .forLoop _ init test update body =>
    init.names ++ (test.names ++ (update.names ++ stmtNames body))
  | .forOf _ binding iterable body => binding.names ++ (iterable.names ++ stmtNames body)
  | .whileLoop _ cond body => cond.names ++ stmtNames body

end

/-! ### Lines of nodes -/

/-- What stands on a line of its own: a statement or a method. -/
inductive Node where
  | stmt (s : Stmt)
  | method (m : Method)

namespace Node

/-- The id of a node. -/
def id : Node → Nat
  | stmt s => s.id
  | method (.mk id _ _ _) => id

/-- Writes a node without its line. -/
def actions : Node → List Action
  | stmt s => s.actions
  | method (.mk _ name isStatic func) =>
    .emit (if isStatic then "static " else "") :: .emit name :: func.actions

/-- A node on a line of indentation level `n`. -/
def pieces (n : Nat) : Node → List Piece
  | stmt s => s.pieces n
  | method (.mk _ name isStatic func) =>
    (if isStatic then [token "static", space] else []) ++ token name :: func.pieces n

end Node

/-- Writes a node on a line of its own. -/
def nodeActions (node : Node) : List Action :=
  .map node.id :: .startLine :: (node.actions ++ [.endLine])

/-- A node on a line of its own. -/
def nodePieces (n : Nat) (node : Node) : List Piece :=
  mark node.id :: indent n :: (node.pieces n ++ [newline])

theorem lineActions_eq (ss : List Stmt) :
    lineActions ss = (ss.map Node.stmt).flatMap nodeActions := by
  induction ss with
  | nil => rfl
  | cons s ss ih => simp [lineActions, ih, nodeActions, Node.id, Node.actions]

theorem linePieces_eq (n : Nat) (ss : List Stmt) :
    linePieces n ss = (ss.map Node.stmt).flatMap (nodePieces n) := by
  induction ss with
  | nil => rfl
  | cons s ss ih => simp [linePieces, ih, nodePieces, Node.id, Node.pieces]

theorem methodActions_eq (ms : List Method) :
    methodActions ms = (ms.map Node.method).flatMap nodeActions := by
  induction ms with
  | nil => rfl
  | cons m ms ih =>
    obtain ⟨id, name, isStatic, func⟩ := m
    simp [methodActions, ih, nodeActions, Node.id, Node.actions]

theorem methodPieces_eq (n : Nat) (ms : List Method) :
    methodPieces n ms = (ms.map Node.method).flatMap (nodePieces n) := by
  induction ms with
  | nil => rfl
  | cons m ms ih =>
    obtain ⟨id, name, isStatic, func⟩ := m
    simp [methodPieces, ih, nodePieces, Node.id, Node.pieces]

/-! ### The grammar of actions -/

/-- Whether a piece is a text within a line. -/
def flat : Piece → Bool
  | token _ | space => true
  | newline | indent _ | mark _ => false

/-- The actions `as` write the pieces `ps` on a line of level `n`, and the texts that they emit
satisfy `P`. -/
inductive Inline (P : String → Prop) : Nat → List Action → List Piece → Prop
  | nil {n : Nat} : Inline P n [] []
  | emit {n : Nat} {ps : List Piece} {text : String} (htext : P text) (hflat : ps.all flat)
      (hcode : code ps = text) : Inline P n [.emit text] ps
  | append {n : Nat} {as bs : List Action} {ps qs : List Piece} (has : Inline P n as ps)
      (hbs : Inline P n bs qs) : Inline P n (as ++ bs) (ps ++ qs)
  | block {n : Nat} {nodes : List Node}
      (h : ∀ node ∈ nodes, Inline P (n + 1) node.actions (node.pieces (n + 1))) :
      Inline P n (blockActions (nodes.flatMap nodeActions))
        (blockPieces n (nodes.flatMap (nodePieces (n + 1))))
  /-- A branch `else if` follows a block and is noted, though it starts no line. -/
  | branch {n : Nat} {nodes : List Node} {s : Stmt}
      (h : ∀ node ∈ nodes, Inline P (n + 1) node.actions (node.pieces (n + 1)))
      (hs : Inline P n s.actions (s.pieces n)) :
      Inline P n (blockActions (nodes.flatMap nodeActions) ++ (Else.elseIf s).actions)
        (blockPieces n (nodes.flatMap (nodePieces (n + 1))) ++ (Else.elseIf s).pieces n)

/-- A text without newlines. -/
def OneLine (s : String) : Prop := '\n' ∉ s.toList

instance (s : String) : Decidable (OneLine s) := inferInstanceAs (Decidable (_ ∉ _))

/-- A property of texts that all texts without newlines have, and joined texts if the parts have
it. -/
structure OfTexts (P : String → Prop) : Prop where
  oneLine {s : String} (h : OneLine s) : P s
  append {s t : String} (hs : P s) (ht : P t) : P (s ++ t)

theorem ofTexts_true : OfTexts fun _ => True := ⟨fun _ => trivial, fun _ _ => trivial⟩

theorem ofTexts_oneLine : OfTexts OneLine := by
  refine ⟨fun h => h, fun {s t} hs ht => ?_⟩
  rw [OneLine, String.toList_append, List.mem_append]
  exact not_or.2 ⟨hs, ht⟩

/-! ### Texts -/

/-- A positional notation has digits and a point. -/
theorem oneLine_positional (d : Decimal) : OneLine d.positional := by
  have hdigit {c : Char} (hc : c.isDigit) : c ≠ '\n' := by
    rintro rfl
    exact absurd hc (by decide)
  have hdigits {c : Char} (hc : c ∈ d.digits) : c ≠ '\n' := hdigit (isDigit_of_mem_digits hc)
  have hzeros {k : Nat} {c : Char} (hc : c ∈ List.replicate k '0') : c ≠ '\n' :=
    hdigit (isDigit_of_mem_zeros hc)
  rw [OneLine, Decimal.positional, String.toList_ofList, Decimal.positionalChars]
  intro hmem
  split_ifs at hmem
  · rcases List.mem_append.1 hmem with h | h
    · exact hdigits h rfl
    · exact hzeros h rfl
  · rcases List.mem_append.1 hmem with h | h
    · exact hdigits (List.mem_of_mem_take h) rfl
    · rcases List.mem_cons.1 h with h | h
      · exact absurd h (by decide)
      · exact hdigits (List.mem_of_mem_drop h) rfl
  · simp only [List.mem_cons, List.mem_append] at hmem
    rcases hmem with h | h | h | h
    · exact absurd h (by decide)
    · exact absurd h (by decide)
    · exact hzeros h rfl
    · exact hdigits h rfl

theorem oneLine_numeral (x : Binary64) : OneLine x.numeral := by
  unfold Binary64.numeral
  split_ifs
  · decide
  · decide
  · decide
  · decide
  · exact ofTexts_oneLine.append (by decide) (oneLine_positional _)
  · exact oneLine_positional _

theorem oneLine_quote (s : String) : OneLine (Text.quote s) := by
  have hhex : ∀ k, k < 16 → Nat.digitChar k ≠ '\n' := by decide
  have hdigit (k : Nat) : '\n' ≠ Nat.digitChar (k % 16) :=
    (hhex _ (Nat.mod_lt _ (by decide))).symm
  have hchar (c : Char) : '\n' ∉ Text.quoteChar c := by
    unfold Text.quoteChar
    split_ifs with h₁ h₂ h₃ h₄ h₅ h₆
    · decide
    · decide
    · decide
    · decide
    · decide
    · simp [Text.fourHex, hdigit]
    · exact fun hmem => h₃ (List.mem_singleton.1 hmem).symm
  rw [OneLine, Text.quote, String.toList_ofList, Text.quoteChars]
  simp only [List.mem_cons, List.mem_append, List.mem_flatMap, List.not_mem_nil, or_false]
  rintro (h | ⟨c, -, hc⟩ | h)
  · exact absurd h (by decide)
  · exact hchar c hc
  · exact absurd h (by decide)

section Texts

variable {P : String → Prop} (hP : OfTexts P)
include hP

theorem OfTexts.intercalate {sep : String} (hsep : P sep) {xs : List String}
    (hxs : ∀ x ∈ xs, P x) : P (sep.intercalate xs) := by
  induction xs with
  | nil => exact String.intercalate_nil ▸ hP.oneLine (by decide)
  | cons x xs ih =>
    obtain ⟨hx, hxs⟩ := List.forall_mem_cons.1 hxs
    cases xs with
    | nil => exact String.intercalate_singleton ▸ hx
    | cons y ys =>
      rw [String.intercalate_cons_cons]
      exact hP.append (hP.append hx hsep) (ih hxs)

/-- The code of pieces has the property that their texts have. -/
theorem OfTexts.code {ps : List Piece} (hps : ∀ p ∈ ps, P p.text) : P (code ps) := by
  induction ps with
  | nil => exact hP.oneLine (by decide)
  | cons p ps ih =>
    obtain ⟨hp, hps⟩ := List.forall_mem_cons.1 hps
    have hcode : Piece.code (p :: ps) = p.text ++ Piece.code ps := by simp [Piece.code]
    rw [hcode]
    exact hP.append hp (ih hps)

end Texts

mutual

theorem oneLine_ty : ∀ ty : Ty, OneLine ty.text
  | .number | .string | .boolean | .undefined | .void => by decide
  | .union ts => ofTexts_oneLine.intercalate (by decide) (oneLine_tys ts)
  | .tuple ts => by
    rw [Ty.text]
    refine ofTexts_oneLine.append (ofTexts_oneLine.append (by decide) ?_) (by decide)
    exact ofTexts_oneLine.intercalate (by decide) (oneLine_tys ts)

theorem oneLine_tys : ∀ ts : List Ty, ∀ x ∈ Ty.texts ts, OneLine x
  | [] => by simp [Ty.texts]
  | t :: ts => List.forall_mem_cons.2 ⟨oneLine_ty t, oneLine_tys ts⟩

end

/-! ### Trees follow the grammar -/

section Trees

variable {P : String → Prop} {n : Nat} {as : List Action} {ps : List Piece}

theorem code_singleton (p : Piece) : code [p] = p.text := by simp [code]

/-- A name, or another text of one token. -/
theorem inline_token {s : String} (h : P s) : Inline P n [.emit s] [token s] :=
  .emit h rfl (code_singleton _)

variable (hP : OfTexts P)
include hP

/-- A fixed text and its pieces. -/
theorem inline_fixed (ps : List Piece) (s : String) (h : ps.all flat ∧ code ps = s ∧ OneLine s) :
    Inline P n [.emit s] ps :=
  .emit (hP.oneLine h.2.2) h.1 h.2.1

theorem Inline.parens (h : Inline P n as ps) :
    Inline P n (.emit "(" :: (as ++ [.emit ")"])) (parens ps) := by
  have hopen := inline_fixed hP (n := n) [token "("] "(" (by decide)
  have hclose := inline_fixed hP (n := n) [token ")"] ")" (by decide)
  exact hopen.append (h.append hclose)

theorem Inline.brackets (h : Inline P n as ps) :
    Inline P n (.emit "[" :: (as ++ [.emit "]"])) (brackets ps) := by
  have hopen := inline_fixed hP (n := n) [token "["] "[" (by decide)
  have hclose := inline_fixed hP (n := n) [token "]"] "]" (by decide)
  exact hopen.append (h.append hclose)

theorem Inline.ended (h : Inline P n as ps) :
    Inline P n (as ++ [.emit ";"]) (ps ++ [token ";"]) := by
  have hclose := inline_fixed hP (n := n) [token ";"] ";" (by decide)
  exact h.append hclose

theorem Inline.wrapped (h : Inline P n as ps) (b : Bool) :
    Inline P n (Target.wrapped b as) (if b then Piece.parens ps else ps) := by
  cases b with
  | true => exact h.parens hP
  | false => exact h

theorem Inline.above (h : Inline P n as ps) (least : Nat) (e : Expr) :
    Inline P n (e.writtenAbove least as) (e.guarded least ps) := by
  have hwrapped := h.wrapped hP (e.precedence < least)
  simp only [decide_eq_true_eq] at hwrapped
  exact hwrapped

theorem Inline.object (h : Inline P n as ps) (e : Expr) :
    Inline P n (e.writtenAsObject as) (e.asObject ps) := by
  have hwrapped := h.wrapped hP (e.isBraced || e.precedence < memberPrecedence)
  have hsame : e.asObject ps =
      if (e.isBraced || e.precedence < memberPrecedence) = true then Piece.parens ps else ps := by
    unfold Expr.asObject Expr.guarded
    cases e.isBraced <;> simp
  rwa [hsame]

theorem Inline.left (h : Inline P n as ps) (op : BinaryOp) (e : Expr) :
    Inline P n (e.writtenAsLeft op as) (e.asLeft op ps) := by
  have hwrapped := h.wrapped hP ((op = .pow && e.isUnary) || e.precedence < op.leftPrecedence)
  have hsame : e.asLeft op ps =
      if ((op = .pow && e.isUnary) || e.precedence < op.leftPrecedence) = true then Piece.parens ps
      else ps := by
    unfold Expr.asLeft Expr.guarded
    cases (op = .pow && e.isUnary : Bool) <;> simp
  rwa [hsame]

theorem inline_listed {ass : List (List Action)} {pss : List (List Piece)}
    (h : List.Forall₂ (Inline P n) ass pss) : Inline P n (listed ass) (commaSeparated pss) := by
  induction h with
  | nil => exact .nil
  | cons hhead htail ih =>
    cases htail with
    | nil => exact hhead
    | cons hnext hrest =>
      have hcomma := inline_fixed hP (n := n) [token ",", space] ", " (by decide)
      exact hhead.append (hcomma.append ih)

/-! ### Parts without blocks -/

omit hP in
/-- Pieces within a line whose texts have a property. -/
def Plain (P : String → Prop) (ps : List Piece) : Prop := ∀ p ∈ ps, flat p = true ∧ P p.text

omit hP in
theorem plain_nil : Plain P [] := List.forall_mem_nil _

omit hP in
theorem plain_append {qs : List Piece} (hps : Plain P ps) (hqs : Plain P qs) :
    Plain P (ps ++ qs) := List.forall_mem_append.2 ⟨hps, hqs⟩

omit hP in
theorem plain_name {s : String} (hs : P s) (hps : Plain P ps) : Plain P (token s :: ps) :=
  List.forall_mem_cons.2 ⟨⟨rfl, hs⟩, hps⟩

theorem plain_token {s : String} (hs : OneLine s) (hps : Plain P ps) : Plain P (token s :: ps) :=
  plain_name (hP.oneLine hs) hps

theorem plain_space (hps : Plain P ps) : Plain P (space :: ps) :=
  List.forall_mem_cons.2 ⟨⟨rfl, hP.oneLine (by decide)⟩, hps⟩

/-- Pieces within a line may be emitted at once. -/
theorem inline_pieces (h : Plain P ps) : Inline P n [.emit (code ps)] ps :=
  .emit (hP.code fun p hp => (h p hp).2) (List.all_eq_true.2 fun p hp => (h p hp).1) rfl

theorem plain_commaSeparated {pss : List (List Piece)} (h : ∀ ps ∈ pss, Plain P ps) :
    Plain P (commaSeparated pss) := by
  induction pss with
  | nil => exact plain_nil
  | cons ps pss ih =>
    obtain ⟨hps, hpss⟩ := List.forall_mem_cons.1 h
    cases pss with
    | nil => exact hps
    | cons qs pss => exact plain_append hps (plain_token hP (by decide) (plain_space hP (ih hpss)))

theorem plain_parens (h : Plain P ps) : Plain P (parens ps) :=
  plain_token hP (by decide) (plain_append h (plain_token hP (by decide) plain_nil))

theorem plain_brackets (h : Plain P ps) : Plain P (brackets ps) :=
  plain_token hP (by decide) (plain_append h (plain_token hP (by decide) plain_nil))

theorem plain_ty (ty : Option Ty) : Plain P (tyPieces ty) := by
  cases ty with
  | none => exact plain_nil
  | some ty =>
    exact plain_token hP (by decide) (plain_space hP (plain_token hP (oneLine_ty ty) plain_nil))

theorem plain_param {p : Param} (h : P p.name) : Plain P p.pieces := by
  have hempty : Plain P [token "[", token "]"] :=
    plain_token hP (by decide) (plain_token hP (by decide) plain_nil)
  have hty : Plain P p.tyPieces := by
    unfold Param.tyPieces
    split
    · exact plain_nil
    · refine plain_token hP (by decide) (plain_space hP (plain_token hP (by decide) ?_))
      exact plain_token hP (oneLine_ty _) (plain_token hP (by decide) hempty)
    · exact plain_token hP (by decide) (plain_space hP (plain_token hP (oneLine_ty _) hempty))
    · exact plain_token hP (by decide) (plain_space hP (plain_token hP (oneLine_ty _) plain_nil))
  have hrest : Plain P (if p.rest then [token "..."] else []) := by
    split
    · exact plain_token hP (by decide) plain_nil
    · exact plain_nil
  exact plain_append hrest (plain_name h hty)

theorem plain_params {params : List Param} (h : ∀ x ∈ params.map Param.name, P x) :
    Plain P (parens (commaSeparated (params.map Param.pieces))) := by
  refine plain_parens hP (plain_commaSeparated hP ?_)
  rw [List.forall_mem_map] at h ⊢
  exact fun p hp => plain_param hP (h p hp)

theorem plain_binding {binding : Binding} (h : ∀ x ∈ binding.names, P x) :
    Plain P binding.pieces := by
  cases binding with
  | ident name => exact plain_name (h name List.mem_cons_self) plain_nil
  | array names =>
    refine plain_brackets hP (plain_commaSeparated hP ?_)
    rw [List.forall_mem_map]
    exact fun name hname => plain_name (h name hname) plain_nil

theorem plain_signGap (op : UnaryOp) (e : Expr) : Plain P (e.signGap op) := by
  unfold Expr.signGap
  split
  · exact plain_space hP plain_nil
  · exact plain_nil

/-- An operator with blanks around it. -/
theorem inline_operator {s : String} (h : OneLine s) :
    Inline P n [.emit (" " ++ s ++ " ")] [space, token s, space] := by
  have hcode : code [space, token s, space] = " " ++ s ++ " " := by
    simp [code, Piece.text, String.append_assoc]
  refine .emit (hP.append (hP.append ?_ (hP.oneLine h)) ?_) rfl hcode
  · exact hP.oneLine (by decide)
  · exact hP.oneLine (by decide)

/-! ### Trees -/

set_option linter.unusedSectionVars false in
mutual

theorem inline_expr : ∀ (e : Expr) (n : Nat), (∀ x ∈ e.names, P x) →
    Inline P n e.actions (e.pieces n)
  | .ident _ name, n, h => inline_token (h name (List.mem_singleton_self name))
  | .number _ value, n, _ => inline_token (hP.oneLine (oneLine_numeral value))
  | .string _ value, n, _ => inline_token (hP.oneLine (oneLine_quote value))
  | .bool _ value, n, _ => inline_token (hP.oneLine (by cases value <;> decide))
  | .member _ object property, n, h => by
    obtain ⟨hproperty, hobject⟩ := List.forall_mem_cons.1 h
    have hdot := inline_fixed hP (n := n) [token "."] "." (by decide)
    exact ((inline_expr object n hobject).object hP object).append
      (hdot.append (inline_token hproperty))
  | .element _ object index, n, h => by
    obtain ⟨hobject, hindex⟩ := List.forall_mem_append.1 h
    exact ((inline_expr object n hobject).object hP object).append
      (((inline_expr index n hindex).above hP _ index).brackets hP)
  | .binary _ lhs op rhs, n, h => by
    obtain ⟨hlhs, hrhs⟩ := List.forall_mem_append.1 h
    have hop := inline_operator hP (n := n) (s := op.text) (by cases op <;> decide)
    exact ((inline_expr lhs n hlhs).left hP op lhs).append
      (hop.append ((inline_expr rhs n hrhs).above hP _ rhs))
  | .unary _ op operand, n, h => by
    have hop := inline_token (P := P) (n := n) (s := op.text)
      (hP.oneLine (by cases op <;> decide))
    exact hop.append ((inline_pieces hP (plain_signGap hP op operand)).append
      ((inline_expr operand n h).above hP _ operand))
  | .increment _ operand, n, h => by
    have hop := inline_fixed hP (n := n) [token "++"] "++" (by decide)
    exact ((inline_expr operand n h).above hP _ operand).append hop
  | .assign _ target op value, n, h => by
    obtain ⟨htarget, hvalue⟩ := List.forall_mem_append.1 h
    have hop := inline_operator hP (n := n) (s := op.text) (by cases op <;> decide)
    exact ((inline_expr target n htarget).above hP _ target).append
      (hop.append ((inline_expr value n hvalue).above hP _ value))
  | .spread _ value, n, h => by
    have hdots := inline_fixed hP (n := n) [token "..."] "..." (by decide)
    exact hdots.append ((inline_expr value n h).above hP _ value)
  | .array _ elements, n, h => (inline_listed hP (inline_exprs elements n h)).brackets hP
  | .object _ [], n, _ => inline_fixed hP [token "\x7b", token "\x7d"] "\x7b\x7d" (by decide)
  | .object _ (p :: ps), n, h => by
    have hopen := inline_fixed hP (n := n) [token "\x7b", space] "\x7b " (by decide)
    have hclose := inline_fixed hP (n := n) [space, token "\x7d"] " \x7d" (by decide)
    exact hopen.append ((inline_listed hP (inline_properties (p :: ps) n h)).append hclose)
  | .call _ callee args, n, h => by
    obtain ⟨hcallee, hargs⟩ := List.forall_mem_append.1 h
    exact ((inline_expr callee n hcallee).object hP callee).append
      ((inline_listed hP (inline_exprs args n hargs)).parens hP)
  | .function _ func, n, h => by
    have hword := inline_fixed hP (n := n) [token "function", space] "function " (by decide)
    exact hword.append (inline_function func n h)

theorem inline_exprs : ∀ (es : List Expr) (n : Nat), (∀ x ∈ exprNames es, P x) →
    List.Forall₂ (Inline P n) (exprActions es) (exprPieces n es)
  | [], _, _ => .nil
  | e :: es, n, h => by
    obtain ⟨he, hes⟩ := List.forall_mem_append.1 h
    exact .cons ((inline_expr e n he).above hP _ e) (inline_exprs es n hes)

theorem inline_properties : ∀ (ps : List Property) (n : Nat), (∀ x ∈ propertyNames ps, P x) →
    List.Forall₂ (Inline P n) (propertyActions ps) (propertyPieces n ps)
  | [], _, _ => .nil
  | .named key value :: ps, n, h => by
    obtain ⟨hkey, h⟩ := List.forall_mem_cons.1 h
    obtain ⟨hvalue, hps⟩ := List.forall_mem_append.1 h
    have hcolon := inline_fixed hP (n := n) [token ":", space] ": " (by decide)
    exact .cons ((inline_token hkey).append
      (hcolon.append ((inline_expr value n hvalue).above hP _ value))) (inline_properties ps n hps)
  | .computed key value :: ps, n, h => by
    obtain ⟨hkey, h⟩ := List.forall_mem_append.1 h
    obtain ⟨hvalue, hps⟩ := List.forall_mem_append.1 h
    have hkey := ((inline_expr key n hkey).above hP assignPrecedence key).brackets hP
    have hcolon := inline_fixed hP (n := n) [token ":", space] ": " (by decide)
    have hall := hkey.append
      (hcolon.append ((inline_expr value n hvalue).above hP assignPrecedence value))
    rw [List.cons_append, List.append_assoc] at hall
    exact .cons hall (inline_properties ps n hps)

theorem inline_function : ∀ (func : Function) (n : Nat), (∀ x ∈ func.names, P x) →
    Inline P n func.actions (func.pieces n)
  | .mk params returnType body, n, h => by
    obtain ⟨hparams, hbody⟩ := List.forall_mem_append.1 h
    have hblock := Inline.block (inline_stmts body (n + 1) hbody)
    have hhead := (inline_pieces hP (n := n) (plain_params hP hparams)).append
      ((inline_pieces hP (plain_ty hP returnType)).append hblock)
    rw [Function.actions, Function.pieces, lineActions_eq, linePieces_eq, List.append_assoc]
    exact hhead

theorem inline_stmts : ∀ (ss : List Stmt) (n : Nat), (∀ x ∈ stmtNames ss, P x) →
    ∀ node ∈ ss.map Node.stmt, Inline P n node.actions (node.pieces n)
  | [], _, _ => List.forall_mem_nil _
  | s :: ss, n, h => by
    obtain ⟨hs, hss⟩ := List.forall_mem_append.1 h
    exact List.forall_mem_cons.2 ⟨inline_stmt s n hs, inline_stmts ss n hss⟩

theorem inline_varDecl : ∀ (decl : VarDecl) (n : Nat), (∀ x ∈ decl.names, P x) →
    Inline P n decl.actions (decl.pieces n)
  | .mk kind binding ty none, n, h => by
    have hkind := inline_fixed hP (n := n) [token kind.text, space] (kind.text ++ " ")
      (by cases kind <;> decide)
    have hbinding := inline_pieces hP (n := n) (plain_binding hP h)
    rw [VarDecl.pieces, List.append_assoc]
    exact hkind.append (hbinding.append ((inline_pieces hP (plain_ty hP ty)).append .nil))
  | .mk kind binding ty (some e), n, h => by
    obtain ⟨hnames, he⟩ := List.forall_mem_append.1 h
    have hkind := inline_fixed hP (n := n) [token kind.text, space] (kind.text ++ " ")
      (by cases kind <;> decide)
    have hbinding := inline_pieces hP (n := n) (plain_binding hP hnames)
    have hequal := inline_fixed hP (n := n) [space, token "=", space] " = " (by decide)
    rw [VarDecl.pieces, List.append_assoc]
    exact hkind.append (hbinding.append ((inline_pieces hP (plain_ty hP ty)).append
      (hequal.append ((inline_expr e n he).above hP _ e))))

theorem inline_methods : ∀ (ms : List Method) (n : Nat), (∀ x ∈ methodNames ms, P x) →
    ∀ node ∈ ms.map Node.method, Inline P n node.actions (node.pieces n)
  | [], _, _ => List.forall_mem_nil _
  | .mk id name isStatic func :: ms, n, h => by
    obtain ⟨hname, h⟩ := List.forall_mem_cons.1 h
    obtain ⟨hfunc, hms⟩ := List.forall_mem_append.1 h
    refine List.forall_mem_cons.2 ⟨?_, inline_methods ms n hms⟩
    have hstatic := inline_fixed hP (n := n) (if isStatic then [token "static", space] else [])
      (if isStatic then "static " else "") (by cases isStatic <;> decide)
    exact hstatic.append ((inline_token hname).append (inline_function func n hfunc))

theorem inline_else : ∀ (branch : Else) (n : Nat), (∀ x ∈ branch.names, P x) →
    ∀ {nodes : List Node},
    (∀ node ∈ nodes, Inline P (n + 1) node.actions (node.pieces (n + 1))) →
    Inline P n (blockActions (nodes.flatMap nodeActions) ++ branch.actions)
      (blockPieces n (nodes.flatMap (nodePieces (n + 1))) ++ branch.pieces n)
  | .none, n, _, nodes, hnodes => (Inline.block hnodes).append .nil
  | .elseIf s, n, h, nodes, hnodes => .branch hnodes (inline_stmt s n h)
  | .block body, n, h, nodes, hnodes => by
    have helse := inline_fixed hP (n := n) [space, token "else"] " else" (by decide)
    rw [Else.actions, Else.pieces, lineActions_eq, linePieces_eq]
    exact (Inline.block hnodes).append
      (helse.append (Inline.block (inline_stmts body (n + 1) h)))

theorem inline_stmt : ∀ (s : Stmt) (n : Nat), (∀ x ∈ s.names, P x) →
    Inline P n s.actions (s.pieces n)
  | .var _ decl, n, h => (inline_varDecl decl n h).ended hP
  | .functionDecl _ name exported func, n, h => by
    obtain ⟨hname, hfunc⟩ := List.forall_mem_cons.1 h
    have hexport := inline_fixed hP (n := n) (if exported then [token "export", space] else [])
      (if exported then "export " else "") (by cases exported <;> decide)
    have hword := inline_fixed hP (n := n) [token "function", space] "function " (by decide)
    exact hexport.append (hword.append ((inline_token hname).append (inline_function func n hfunc)))
  | .classDecl _ name methods, n, h => by
    obtain ⟨hname, hmethods⟩ := List.forall_mem_cons.1 h
    have hword := inline_fixed hP (n := n) [token "class", space] "class " (by decide)
    rw [Stmt.actions, Stmt.pieces, methodActions_eq, methodPieces_eq]
    exact hword.append ((inline_token hname).append
      (Inline.block (inline_methods methods (n + 1) hmethods)))
  | .expr _ e, n, h => ((inline_expr e n h).above hP _ e).ended hP
  | .returnStmt _ none, n, _ => by
    have hword := inline_fixed hP (n := n) [token "return"] "return" (by decide)
    exact hword.ended hP
  | .returnStmt _ (some e), n, h => by
    have hword := inline_fixed hP (n := n) [token "return"] "return" (by decide)
    have hspace := inline_fixed hP (n := n) [space] " " (by decide)
    exact hword.append (hspace.append (((inline_expr e n h).above hP _ e).ended hP))
  | .exportAssign _ e, n, h => by
    have hword := inline_fixed hP (n := n) [token "export", space, token "=", space] "export = "
      (by decide)
    exact hword.append (((inline_expr e n h).above hP _ e).ended hP)
  | .ifStmt _ cond thenBlock elseBranch, n, h => by
    obtain ⟨hcond, h⟩ := List.forall_mem_append.1 h
    obtain ⟨hthen, helse⟩ := List.forall_mem_append.1 h
    have hword := inline_fixed hP (n := n) [token "if", space, token "("] "if (" (by decide)
    have hclose := inline_fixed hP (n := n) [token ")"] ")" (by decide)
    have hbranch := inline_else elseBranch n helse (inline_stmts thenBlock (n + 1) hthen)
    have hall := hword.append (((inline_expr cond n hcond).above hP assignPrecedence cond).append
      (hclose.append hbranch))
    rw [Stmt.actions, Stmt.pieces, lineActions_eq, linePieces_eq, parens]
    simpa using hall
  | .forLoop _ init test update body, n, h => by
    obtain ⟨hinit, h⟩ := List.forall_mem_append.1 h
    obtain ⟨htest, h⟩ := List.forall_mem_append.1 h
    obtain ⟨hupdate, hbody⟩ := List.forall_mem_append.1 h
    have hword := inline_fixed hP (n := n) [token "for", space, token "("] "for (" (by decide)
    have hsemicolon := inline_fixed hP (n := n) [token ";", space] "; " (by decide)
    have hclose := inline_fixed hP (n := n) [token ")"] ")" (by decide)
    have hblock := Inline.block (inline_stmts body (n + 1) hbody)
    have hall := hword.append ((inline_varDecl init n hinit).append (hsemicolon.append
      (((inline_expr test n htest).above hP assignPrecedence test).append (hsemicolon.append
        (((inline_expr update n hupdate).above hP assignPrecedence update).append
          (hclose.append hblock))))))
    rw [Stmt.actions, Stmt.pieces, lineActions_eq, linePieces_eq, parens]
    simpa using hall
  | .forOf _ binding iterable body, n, h => by
    obtain ⟨hbinding, h⟩ := List.forall_mem_append.1 h
    obtain ⟨hiterable, hbody⟩ := List.forall_mem_append.1 h
    have hword := inline_fixed hP (n := n) [token "for", space, token "(", token "const", space]
      "for (const " (by decide)
    have hof := inline_fixed hP (n := n) [space, token "of", space] " of " (by decide)
    have hclose := inline_fixed hP (n := n) [token ")"] ")" (by decide)
    have hblock := Inline.block (inline_stmts body (n + 1) hbody)
    have hall := hword.append ((inline_pieces hP (plain_binding hP hbinding)).append (hof.append
      (((inline_expr iterable n hiterable).above hP assignPrecedence iterable).append
        (hclose.append hblock))))
    rw [Stmt.actions, Stmt.pieces, lineActions_eq, linePieces_eq, parens]
    simpa using hall
  | .whileLoop _ cond body, n, h => by
    obtain ⟨hcond, hbody⟩ := List.forall_mem_append.1 h
    have hword := inline_fixed hP (n := n) [token "while", space, token "("] "while (" (by decide)
    have hclose := inline_fixed hP (n := n) [token ")"] ")" (by decide)
    have hblock := Inline.block (inline_stmts body (n + 1) hbody)
    have hall := hword.append (((inline_expr cond n hcond).above hP assignPrecedence cond).append
      (hclose.append hblock))
    rw [Stmt.actions, Stmt.pieces, lineActions_eq, linePieces_eq, parens]
    simpa using hall
  | .breakStmt _, n, _ => inline_fixed hP [token "break", token ";"] "break;" (by decide)

end

end Trees

end LuaTranspiler.Target
