import LuaTranspiler.Proofs.Number.ReadBack
import LuaTranspiler.Proofs.Target.Reader
import LuaTranspiler.Proofs.Token.Content

/-!
# The lexemes of an expression are its printed tokens

In order, the texts of the lexemes are the tokens that are printed, and each text tells which lexeme
it is.

* `Expr.flatMap_lexemes`: the lexemes of an expression are the tokens that are printed for it
* `Expr.Printable`: the expressions that are read back
* `Expr.isTold_lexemes`: the texts tell the lexemes
-/

namespace LuaTranspiler.Target

/-! ### The texts of lexemes -/

section Texts

variable (n : Nat)

theorem flatMap_inParens {ls : List Lexeme} {ps : List Piece}
    (h : ls.flatMap (Lexeme.texts n) = Piece.tokens ps) :
    (inParens ls).flatMap (Lexeme.texts n) = Piece.tokens (Piece.parens ps) := by
  simp [inParens, Piece.parens, Lexeme.texts, h]

theorem flatMap_guardedBy (least : Nat) (e : Expr) {ls : List Lexeme} {ps : List Piece}
    (h : ls.flatMap (Lexeme.texts n) = Piece.tokens ps) :
    (e.guardedBy least ls).flatMap (Lexeme.texts n) = Piece.tokens (e.guarded least ps) := by
  unfold Expr.guardedBy Expr.guarded
  split_ifs
  · exact flatMap_inParens n h
  · exact h

theorem flatMap_objectBy (e : Expr) {ls : List Lexeme} {ps : List Piece}
    (h : ls.flatMap (Lexeme.texts n) = Piece.tokens ps) :
    (e.objectBy ls).flatMap (Lexeme.texts n) = Piece.tokens (e.asObject ps) := by
  unfold Expr.objectBy Expr.asObject
  split_ifs
  · exact flatMap_inParens n h
  · exact flatMap_guardedBy n _ e h

theorem flatMap_leftBy (op : BinaryOp) (e : Expr) {ls : List Lexeme} {ps : List Piece}
    (h : ls.flatMap (Lexeme.texts n) = Piece.tokens ps) :
    (e.leftBy op ls).flatMap (Lexeme.texts n) = Piece.tokens (e.asLeft op ps) := by
  unfold Expr.leftBy Expr.asLeft
  split_ifs
  · exact flatMap_inParens n h
  · exact flatMap_guardedBy n _ e h

theorem flatMap_commaLexemes {lss : List (List Lexeme)} {pss : List (List Piece)}
    (h : lss.map (List.flatMap (Lexeme.texts n)) = pss.map Piece.tokens) :
    (commaLexemes lss).flatMap (Lexeme.texts n) = Piece.tokens (Piece.commaSeparated pss) := by
  induction lss generalizing pss with
  | nil =>
    obtain rfl : pss = [] := by simpa using h.symm
    rfl
  | cons ls lss ih =>
    cases pss with
    | nil => simp at h
    | cons ps pss =>
      rw [List.map_cons, List.map_cons, List.cons.injEq] at h
      have hlen : lss.length = pss.length := by simpa using congrArg List.length h.2
      cases lss with
      | nil =>
        obtain rfl : pss = [] := List.length_eq_zero_iff.1 hlen.symm
        exact h.1
      | cons ls' lss =>
        cases pss with
        | nil => simp at hlen
        | cons ps' pss =>
          simp only [commaLexemes, Piece.commaSeparated, List.flatMap_append, List.flatMap_cons,
            h.1, ih h.2, Lexeme.texts, Piece.tokens_append, Piece.tokens_token, Piece.tokens_space]
          rfl

mutual

/-- **The lexemes of an expression are the tokens that are printed for it.** -/
theorem Expr.flatMap_lexemes : ∀ e : Expr,
    e.lexemes.flatMap (Lexeme.texts n) = Piece.tokens (e.pieces n)
  | .ident .. | .number .. | .string .. | .bool .. => by
    simp [Expr.lexemes, Expr.pieces, Lexeme.texts]
  | .member _ object _ => by
    simp [Expr.lexemes, Expr.pieces, Lexeme.texts, flatMap_objectBy n object object.flatMap_lexemes]
  | .element _ object index => by
    simp [Expr.lexemes, Expr.pieces, Lexeme.texts, Piece.brackets,
      flatMap_objectBy n object object.flatMap_lexemes,
      flatMap_guardedBy n _ index index.flatMap_lexemes]
  | .binary _ lhs op rhs => by
    simp [Expr.lexemes, Expr.pieces, Lexeme.texts, flatMap_leftBy n op lhs lhs.flatMap_lexemes,
      flatMap_guardedBy n _ rhs rhs.flatMap_lexemes]
  | .unary _ op operand => by
    have hgap : Piece.tokens (operand.signGap op) = [] := by
      unfold Expr.signGap
      split_ifs <;> rfl
    simp [Expr.lexemes, Expr.pieces, Lexeme.texts, hgap,
      flatMap_guardedBy n _ operand operand.flatMap_lexemes]
  | .increment _ operand => by
    simp [Expr.lexemes, Expr.pieces, Lexeme.texts,
      flatMap_guardedBy n _ operand operand.flatMap_lexemes]
  | .assign _ target _ value => by
    simp [Expr.lexemes, Expr.pieces, Lexeme.texts,
      flatMap_guardedBy n _ target target.flatMap_lexemes,
      flatMap_guardedBy n _ value value.flatMap_lexemes]
  | .spread _ value => by
    simp [Expr.lexemes, Expr.pieces, Lexeme.texts,
      flatMap_guardedBy n _ value value.flatMap_lexemes]
  | .array _ elements => by
    simp [Expr.lexemes, Expr.pieces, Lexeme.texts, Piece.brackets,
      flatMap_commaLexemes n (flatMap_exprLexemes elements)]
  | .object _ [] => by simp [Expr.lexemes, Expr.pieces, Lexeme.texts, propertyLexemes, commaLexemes]
  | .object _ (p :: ps) => by
    simp [Expr.lexemes, Expr.pieces, Lexeme.texts,
      flatMap_commaLexemes n (flatMap_propertyLexemes (p :: ps))]
  | .call _ callee args => by
    simp [Expr.lexemes, Expr.pieces, flatMap_objectBy n callee callee.flatMap_lexemes,
      flatMap_inParens n (flatMap_commaLexemes n (flatMap_exprLexemes args))]
  | .function .. => by simp [Expr.lexemes, Expr.pieces, Lexeme.texts]

/-- The same for each expression of a list. -/
theorem flatMap_exprLexemes : ∀ es : List Expr,
    (exprLexemes es).map (List.flatMap (Lexeme.texts n)) = (exprPieces n es).map Piece.tokens
  | [] => rfl
  | e :: es => by
    simp [exprLexemes, exprPieces, flatMap_guardedBy n _ e e.flatMap_lexemes,
      flatMap_exprLexemes es]

/-- The same for each property of an object. -/
theorem flatMap_propertyLexemes : ∀ ps : List Property,
    (propertyLexemes ps).map (List.flatMap (Lexeme.texts n)) =
      (propertyPieces n ps).map Piece.tokens
  | [] => rfl
  | .named _ value :: ps => by
    simp [propertyLexemes, propertyPieces, Lexeme.texts,
      flatMap_guardedBy n _ value value.flatMap_lexemes, flatMap_propertyLexemes ps]
  | .computed key value :: ps => by
    simp [propertyLexemes, propertyPieces, Lexeme.texts, Piece.brackets,
      flatMap_guardedBy n _ key key.flatMap_lexemes,
      flatMap_guardedBy n _ value value.flatMap_lexemes, flatMap_propertyLexemes ps]

end

end Texts

/-! ### The lexemes of texts -/

mutual

/-- Whether an expression has no increments and assignments, only finite numbers without a sign, and
a spread only among the items of an array or of a call. -/
def Expr.Printable : Expr → Prop
  | .ident .. | .string .. | .bool .. | .function .. => True
  | .number _ value => value.IsUnsigned
  | .member _ object _ => object.Printable
  | .element _ object index => object.Printable ∧ index.Printable
  | .binary _ lhs _ rhs => lhs.Printable ∧ rhs.Printable
  | .unary _ _ operand => operand.Printable
  | .increment .. | .assign .. | .spread .. => False
  | .array _ elements => PrintableItems elements
  | .object _ properties => PrintableProperties properties
  | .call _ callee args => callee.Printable ∧ PrintableItems args

/-- The same for the items of an array or a call. -/
def PrintableItems : List Expr → Prop
  | [] => True
  | .spread _ value :: es => value.Printable ∧ PrintableItems es
  | e :: es => e.Printable ∧ PrintableItems es

/-- The same for the properties of an object. -/
def PrintableProperties : List Property → Prop
  | [] => True
  | .named _ value :: ps => value.Printable ∧ PrintableProperties ps
  | .computed key value :: ps => key.Printable ∧ value.Printable ∧ PrintableProperties ps

end

mutual

/-- The names in an expression, other than those in its functions. -/
def Expr.words : Expr → List String
  | .ident _ name => [name]
  | .number .. | .string .. | .bool .. | .function .. => []
  | .member _ object property => object.words ++ [property]
  | .element _ object index => object.words ++ index.words
  | .binary _ lhs _ rhs => lhs.words ++ rhs.words
  | .unary _ _ operand => operand.words
  | .increment _ operand => operand.words
  | .assign _ target _ value => target.words ++ value.words
  | .spread _ value => value.words
  | .array _ elements => exprWords elements
  | .object _ properties => propertyWords properties
  | .call _ callee args => callee.words ++ exprWords args

/-- The names in a list of expressions. -/
def exprWords : List Expr → List String
  | [] => []
  | e :: es => e.words ++ exprWords es

/-- The names in the properties of an object. -/
def propertyWords : List Property → List String
  | [] => []
  | .named key value :: ps => key :: value.words ++ propertyWords ps
  | .computed key value :: ps => key.words ++ value.words ++ propertyWords ps

end

/-- Whether a lexeme is a function, or its printed text tells which lexeme it is. -/
def Lexeme.IsTold : Lexeme → Prop
  | .function _ => True
  | l => ∀ n, ∃ s, l.texts n = [s] ∧ Lexeme.ofText s = l

theorem isTold_word {s : String} (h : isWord s) : (Lexeme.word s).IsTold := fun _ =>
  ⟨s, rfl, if_pos h⟩

theorem isTold_truth (value : Bool) : (Lexeme.truth value).IsTold := fun _ =>
  ⟨_, rfl, by cases value <;> rfl⟩

theorem ofText_of_toList {s : String} {c : Char} {cs : List Char} (hs : s.toList = c :: cs)
    (hc : isNameStart c = false) :
    Lexeme.ofText s =
      if c.isDigit then .numeral s else if c = '"' then .literal s else .symbol s := by
  have hword : isWord s = false := by simp [isWord, hs, hc]
  have hne : ∀ t : String, (t.toList.head?.map isNameStart) = some true → s ≠ t := by
    rintro t ht rfl
    simp [hs, hc] at ht
  simp [Lexeme.ofText, hword, hne "true" rfl, hne "false" rfl, hs]

/-- A positional notation starts with a digit. -/
theorem exists_positionalChars_eq_cons (d : Decimal) :
    ∃ c cs, d.positionalChars = c :: cs ∧ c.isDigit := by
  have hne : d.digits ≠ [] := Nat.toDigits_ne_nil
  obtain ⟨c, cs, hcs⟩ := List.exists_cons_of_ne_nil hne
  have hc : c.isDigit := isDigit_of_mem_digits (hcs ▸ List.mem_cons_self)
  unfold Decimal.positionalChars
  dsimp only
  split_ifs with h1 h2
  · exact ⟨c, _, by rw [hcs]; rfl, hc⟩
  · obtain ⟨m, hm⟩ : ∃ m, d.digits.length - (-d.exponent).toNat = m + 1 :=
      ⟨_, (Nat.succ_pred_eq_of_pos (Nat.sub_pos_of_lt h2)).symm⟩
    exact ⟨c, _, by rw [hm, hcs]; rfl, hc⟩
  · exact ⟨'0', _, rfl, rfl⟩

theorem isTold_numeral {x : Binary64} (hx : x.IsUnsigned) : (Lexeme.numeral x.numeral).IsTold := by
  refine fun _ => ⟨_, rfl, ?_⟩
  obtain ⟨c, cs, hcs, hc⟩ : ∃ c cs, x.numeral.toList = c :: cs ∧ c.isDigit := by
    rw [Binary64.numeral_eq hx]
    split_ifs
    · exact ⟨'0', [], rfl, rfl⟩
    · rw [Decimal.positional, String.toList_ofList]
      exact exists_positionalChars_eq_cons _
  rw [ofText_of_toList hcs (isNameStart_of_isDigit hc), if_pos hc]

theorem isTold_literal (s : String) : (Lexeme.literal (Text.quote s)).IsTold := fun _ =>
  ⟨_, rfl, ofText_of_toList (String.toList_ofList ..) rfl⟩

theorem isTold_symbol {s : String}
    (h : s ∈ [".", "[", "]", "(", ")", ",", ":", "\x7b", "\x7d", "...", "-", "!", "~"]) :
    (Lexeme.symbol s).IsTold := by
  refine fun _ => ⟨s, rfl, ?_⟩
  revert s
  simp only [List.forall_mem_cons]
  refine ⟨rfl, rfl, rfl, rfl, rfl, rfl, rfl, rfl, rfl, rfl, rfl, rfl, rfl, ?_⟩
  simp

theorem isTold_binaryOp (op : BinaryOp) : (Lexeme.symbol op.text).IsTold := fun _ =>
  ⟨_, rfl, by cases op <;> rfl⟩

/-- Whether the texts of all lexemes tell them. -/
def AllTold (ls : List Lexeme) : Prop := ∀ l ∈ ls, l.IsTold

@[simp] theorem allTold_nil : AllTold [] := fun _ h => nomatch h

@[simp] theorem allTold_cons {l : Lexeme} {ls : List Lexeme} :
    AllTold (l :: ls) ↔ l.IsTold ∧ AllTold ls :=
  List.forall_mem_cons

@[simp] theorem allTold_append {ls ls' : List Lexeme} :
    AllTold (ls ++ ls') ↔ AllTold ls ∧ AllTold ls' :=
  List.forall_mem_append

@[simp] theorem allTold_inParens {ls : List Lexeme} : AllTold (inParens ls) ↔ AllTold ls := by
  simp [inParens, isTold_symbol]

@[simp] theorem allTold_guardedBy {least : Nat} {e : Expr} {ls : List Lexeme} :
    AllTold (e.guardedBy least ls) ↔ AllTold ls := by
  unfold Expr.guardedBy
  split_ifs <;> simp

@[simp] theorem allTold_objectBy {e : Expr} {ls : List Lexeme} :
    AllTold (e.objectBy ls) ↔ AllTold ls := by
  unfold Expr.objectBy
  split_ifs <;> simp

@[simp] theorem allTold_leftBy {op : BinaryOp} {e : Expr} {ls : List Lexeme} :
    AllTold (e.leftBy op ls) ↔ AllTold ls := by
  unfold Expr.leftBy
  split_ifs <;> simp

@[simp] theorem allTold_commaLexemes {lss : List (List Lexeme)} :
    AllTold (commaLexemes lss) ↔ ∀ ls ∈ lss, AllTold ls := by
  fun_induction commaLexemes lss with
  | case1 => simp
  | case2 ls => simp
  | case3 ls lss hne ih => simp [ih, isTold_symbol]

mutual

/-- **The printed texts of an expression tell its lexemes**, if the names in it are words. -/
theorem Expr.isTold_lexemes : ∀ e : Expr, e.Printable → (∀ s ∈ e.words, isWord s) →
    AllTold e.lexemes
  | .ident .., _, hw => by simpa [Expr.lexemes] using isTold_word (hw _ (by simp [Expr.words]))
  | .number .., h, _ => by simpa [Expr.lexemes] using isTold_numeral h
  | .string .., _, _ => by simp [Expr.lexemes, isTold_literal]
  | .bool .., _, _ => by simp [Expr.lexemes, isTold_truth]
  | .member _ object property, h, hw => by
    simp only [Expr.words, List.forall_mem_append, List.forall_mem_singleton] at hw
    simp [Expr.lexemes, isTold_symbol, isTold_word hw.2, object.isTold_lexemes h hw.1]
  | .element _ object index, h, hw => by
    simp only [Expr.words, List.forall_mem_append] at hw
    simp [Expr.lexemes, isTold_symbol, object.isTold_lexemes h.1 hw.1,
      index.isTold_lexemes h.2 hw.2]
  | .binary _ lhs op rhs, h, hw => by
    simp only [Expr.words, List.forall_mem_append] at hw
    simp [Expr.lexemes, isTold_binaryOp, lhs.isTold_lexemes h.1 hw.1,
      rhs.isTold_lexemes h.2 hw.2]
  | .unary _ op operand, h, hw => by
    have hop : (Lexeme.symbol op.text).IsTold := isTold_symbol (by cases op <;> decide)
    simp [Expr.lexemes, hop, operand.isTold_lexemes h hw]
  | .array _ elements, h, hw => by
    simpa [Expr.lexemes, isTold_symbol] using isTold_exprLexemes elements h hw
  | .object _ properties, h, hw => by
    simpa [Expr.lexemes, isTold_symbol] using isTold_propertyLexemes properties h hw
  | .call _ callee args, h, hw => by
    simp only [Expr.words, List.forall_mem_append] at hw
    simpa [Expr.lexemes, callee.isTold_lexemes h.1 hw.1] using isTold_exprLexemes args h.2 hw.2
  | .function .., _, _ => by simp [Expr.lexemes, Lexeme.IsTold]

/-- The same for each item of an array or a call. -/
theorem isTold_exprLexemes : ∀ es : List Expr, PrintableItems es →
    (∀ s ∈ exprWords es, isWord s) → ∀ ls ∈ exprLexemes es, AllTold ls
  | [], _, _ => by simp [exprLexemes]
  | e :: es, h, hw => by
    simp only [exprWords, List.forall_mem_append] at hw
    simp only [exprLexemes, List.forall_mem_cons, allTold_guardedBy]
    cases e with
    | spread _ value =>
      refine ⟨?_, isTold_exprLexemes es h.2 hw.2⟩
      simp [Expr.lexemes, isTold_symbol, value.isTold_lexemes h.1 hw.1]
    | _ => exact ⟨Expr.isTold_lexemes _ h.1 hw.1, isTold_exprLexemes es h.2 hw.2⟩

/-- The same for each property of an object. -/
theorem isTold_propertyLexemes : ∀ ps : List Property, PrintableProperties ps →
    (∀ s ∈ propertyWords ps, isWord s) → ∀ ls ∈ propertyLexemes ps, AllTold ls
  | [], _, _ => by simp [propertyLexemes]
  | .named key value :: ps, h, hw => by
    simp only [propertyWords, List.cons_append, List.forall_mem_cons, List.forall_mem_append] at hw
    simpa [propertyLexemes, isTold_symbol, isTold_word hw.1, value.isTold_lexemes h.1 hw.2.1]
      using isTold_propertyLexemes ps h.2 hw.2.2
  | .computed key value :: ps, h, hw => by
    simp only [propertyWords, List.forall_mem_append] at hw
    simpa [propertyLexemes, isTold_symbol, key.isTold_lexemes h.1 hw.1.1,
      value.isTold_lexemes h.2.1 hw.1.2] using isTold_propertyLexemes ps h.2.2 hw.2

end

end LuaTranspiler.Target
