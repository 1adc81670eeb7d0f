import LuaTranspiler.Proofs.Target.Lexemes
import LuaTranspiler.Proofs.Target.LineMap

/-!
# Printed expressions are unambiguous

An expression is read back from its printed tokens. The printer puts parentheses by precedence; the
reader follows the grammar. What is shown for each kind of expression is which reader of the grammar
takes its tokens, whatever follows them.

* `Expr.unnumbered`: an expression without its ids
* `ReadsBinary`, `ReadsChain`, `ReadsUnary`, `ReadsPostfix`: lexemes are taken by a reader
* `reads_of_printable`: which readers take an expression, by how tightly it binds
* `readExpr_guardedLexemes`: the expression is read back
-/

namespace LuaTranspiler.Target

/-! ### Expressions without ids -/

mutual

/-- The same expression with every id zero. Functions stay as they are. -/
def Expr.unnumbered : Expr → Expr
  | .ident _ name => .ident 0 name
  | .number _ value => .number 0 value
  | .string _ value => .string 0 value
  | .bool _ value => .bool 0 value
  | .member _ object property => .member 0 object.unnumbered property
  | .element _ object index => .element 0 object.unnumbered index.unnumbered
  | .binary _ lhs op rhs => .binary 0 lhs.unnumbered op rhs.unnumbered
  | .unary _ op operand => .unary 0 op operand.unnumbered
  | .increment _ operand => .increment 0 operand.unnumbered
  | .assign _ target op value => .assign 0 target.unnumbered op value.unnumbered
  | .spread _ value => .spread 0 value.unnumbered
  | .array _ elements => .array 0 (unnumberedExprs elements)
  | .object _ properties => .object 0 (unnumberedProperties properties)
  | .call _ callee args => .call 0 callee.unnumbered (unnumberedExprs args)
  | .function _ func => .function 0 func

/-- The same expressions with every id zero. -/
def unnumberedExprs : List Expr → List Expr
  | [] => []
  | e :: es => e.unnumbered :: unnumberedExprs es

/-- The same properties with every id zero. -/
def unnumberedProperties : List Property → List Property
  | [] => []
  | .named key value :: ps => .named key value.unnumbered :: unnumberedProperties ps
  | .computed key value :: ps =>
    .computed key.unnumbered value.unnumbered :: unnumberedProperties ps

end

/-! ### What may follow -/

/-- Whether `ls` does not go on with a member, an element or a call. -/
def NoSuffix (ls : List Lexeme) : Prop := ∀ s ∈ [".", "[", "("], closing s ls = none

/-- Whether an expression whose operators bind at most as loosely as `n` ends before `ls`. -/
def Ends (n : Nat) (ls : List Lexeme) : Prop :=
  NoSuffix ls ∧ ∀ k ≤ n, Readers.nextBinary? k ls = none

theorem Ends.mono {m n : Nat} {ls : List Lexeme} (h : Ends n ls) (hmn : m ≤ n) : Ends m ls :=
  ⟨h.1, fun k hk => h.2 k (hk.trans hmn)⟩

theorem ends_nil (n : Nat) : Ends n [] := ⟨fun _ _ => rfl, fun _ _ => rfl⟩

theorem closing_self (s : String) (ls : List Lexeme) :
    closing s (.symbol s :: ls) = some ((), ls) :=
  if_pos rfl

theorem closing_of_ne {s t : String} (ls : List Lexeme) (h : t ≠ s) :
    closing s (.symbol t :: ls) = none :=
  if_neg h

theorem binaryOp?_text (k : Nat) (op : BinaryOp) :
    binaryOp? k op.text = if op.looseness = k then some op else none := by
  have hinj : ∀ a ∈ BinaryOp.all, ∀ b ∈ BinaryOp.all, a.text = b.text → a = b := by decide
  have hmem : ∀ a : BinaryOp, a ∈ BinaryOp.all := by
    intro a
    cases a <;> decide
  split_ifs with hk
  · rw [binaryOp?, List.find?_eq_some_iff_append]
    refine ⟨by simp [hk], ?_⟩
    obtain ⟨before, after, hall⟩ := List.append_of_mem (hmem op)
    refine ⟨before, after, hall, fun a ha => ?_⟩
    have hnodup : BinaryOp.all.Nodup := by decide
    rw [hall] at hnodup
    have hne : a ≠ op := by
      rintro rfl
      exact (List.nodup_append.1 hnodup).2.2 a ha a (by simp) rfl
    have htext : a.text ≠ op.text := fun h => hne (hinj a (hmem a) op (hmem op) h)
    simp [htext]
  · rw [binaryOp?, List.find?_eq_none]
    intro a _ ha
    simp only [Bool.and_eq_true, decide_eq_true_eq] at ha
    obtain rfl := hinj a (hmem a) op (hmem op) ha.2
    exact hk ha.1

/-- An operator that binds more loosely ends an expression. -/
theorem ends_operator {n : Nat} {op : BinaryOp} (ls : List Lexeme) (h : n < op.looseness) :
    Ends n (.symbol op.text :: ls) := by
  refine ⟨?_, fun k hk => ?_⟩
  · intro s hs
    have hne : ∀ a ∈ BinaryOp.all, ∀ t ∈ [".", "[", "("], a.text ≠ t := by decide
    refine closing_of_ne ls (hne op ?_ s hs)
    cases op <;> decide
  · have hne : ¬op.looseness = k := by omega
    simp [Readers.nextBinary?, binaryOp?_text, hne]

/-- So does any bracket that closes, and a comma. -/
theorem ends_closer {s : String} (n : Nat) (ls : List Lexeme)
    (hs : s ∈ [")", "]", ",", "\x7d"]) : Ends n (.symbol s :: ls) := by
  refine ⟨fun t ht => closing_of_ne ls ?_, fun k _ => ?_⟩
  · have hne : ∀ s ∈ [")", "]", ",", "\x7d"], ∀ t ∈ [".", "[", "("], s ≠ t := by decide
    exact hne s hs t ht
  · have hnone : binaryOp? k s = none := by
      rw [binaryOp?, List.find?_eq_none]
      intro a ha htext
      simp only [Bool.and_eq_true, decide_eq_true_eq] at htext
      have hne : ∀ a ∈ BinaryOp.all, ∀ s ∈ [")", "]", ",", "\x7d"], a.text ≠ s := by decide
      exact hne a ha s hs htext.2
    simp [Readers.nextBinary?, hnone]

/-! ### What takes the lexemes of an expression

In each case any lexemes may follow that do not go on with the expression, and the depth is enough
for all of them. Where more of the expression may follow, the reader goes on at some depth that is
enough for the rest. -/

/-- `ls` is `e` to the reader of operators that bind at most as loosely as `n`. -/
def ReadsBinary (n : Nat) (ls : List Lexeme) (e : Expr) : Prop :=
  ∀ d rest, (ls ++ rest).length ≤ d → Ends n rest →
    (readers d).readBinary n (ls ++ rest) = some (e, rest)

/-- `ls` is `e` to the reader of operators as loose as `n + 1`, which may go on with such operators
behind `e`. -/
def ReadsChain (n : Nat) (ls : List Lexeme) (e : Expr) : Prop :=
  ∀ d rest, (ls ++ rest).length ≤ d → Ends n rest →
    ∃ d', rest.length ≤ d' ∧
      (readers d).readBinary (n + 1) (ls ++ rest) = (readers d').readChain (n + 1) e rest

/-- `ls` is `e` to the reader of operators before their operand. -/
def ReadsUnary (ls : List Lexeme) (e : Expr) : Prop :=
  ∀ d rest, (ls ++ rest).length ≤ d → NoSuffix rest →
    (readers d).readUnary (ls ++ rest) = some (e, rest)

/-- `ls` is `e` to the reader of primary expressions and what is behind them, which may go on behind
`e`. -/
def ReadsPostfix (ls : List Lexeme) (e : Expr) : Prop :=
  ∀ d rest, (ls ++ rest).length ≤ d →
    Readers.nextPrefix? (ls ++ rest) = none ∧
      ∃ d', rest.length ≤ d' ∧
        (readers d).readPostfix (ls ++ rest) = (readers d').readSuffixes e rest

section Steps

variable {n : Nat} {ls ls' : List Lexeme} {e e' : Expr}

theorem readSuffixes_of_noSuffix (r : Readers) {rest : List Lexeme} (h : NoSuffix rest) :
    r.readSuffixes e rest = some (e, rest) := by
  unfold Readers.readSuffixes
  split
  · rename_i s rest
    have hne : ∀ t ∈ [".", "[", "("], s ≠ t := by
      rintro t ht rfl
      simpa [closing_self] using h s ht
    simp only [List.mem_cons, List.not_mem_nil, or_false, forall_eq_or_imp, forall_eq] at hne
    rw [if_neg hne.1, if_neg hne.2.1, if_neg hne.2.2]
  · rfl

theorem ReadsPostfix.unary (h : ReadsPostfix ls e) : ReadsUnary ls e := by
  intro d rest hd hrest
  obtain ⟨hnext, d', -, hread⟩ := h d rest hd
  rw [Readers.readUnary, hnext]
  exact hread.trans (readSuffixes_of_noSuffix _ hrest)

theorem ReadsPostfix.binary (h : ReadsPostfix ls e) : ReadsBinary 0 ls e := by
  intro d rest hd hrest
  obtain ⟨hnext, d', -, hread⟩ := h d rest hd
  rw [Readers.readBinary, Readers.readPower, hnext]
  simp [hread, readSuffixes_of_noSuffix _ hrest.1, hrest.2 0 le_rfl]

theorem ReadsBinary.chain (h : ReadsBinary n ls e) : ReadsChain n ls e := by
  intro d rest hd hrest
  refine ⟨d, ?_, ?_⟩
  · rw [List.length_append] at hd
    omega
  · simp [Readers.readBinary, h d rest hd hrest]

theorem ReadsChain.binary (h : ReadsChain n ls e) : ReadsBinary (n + 1) ls e := by
  intro d rest hd hrest
  obtain ⟨d', -, hread⟩ := h d rest hd (hrest.mono n.le_succ)
  rw [hread, Readers.readChain, hrest.2 (n + 1) le_rfl]

theorem ReadsBinary.mono {m : Nat} (h : ReadsBinary m ls e) (hmn : m ≤ n) : ReadsBinary n ls e := by
  induction n, hmn using Nat.le_induction with
  | base => exact h
  | succ n _ ih => exact ih.chain.binary

/-- An operator before what is read as its operand. -/
theorem ReadsUnary.operator (op : UnaryOp) (h : ReadsUnary ls e) :
    ReadsUnary (.symbol op.text :: ls) (.unary 0 op e) := by
  intro d rest hd hrest
  have hop : prefixOp? op.text = some op := by cases op <;> rfl
  obtain ⟨d, rfl⟩ : ∃ k, d = k + 1 := ⟨d - 1, by simp at hd; omega⟩
  have hread : (readers (d + 1)).unary (ls ++ rest) = some (e, rest) :=
    h d rest (by simpa using hd) hrest
  simp [Readers.readUnary, Readers.nextPrefix?, hop, hread]

theorem ReadsUnary.operator_binary (op : UnaryOp) (h : ReadsUnary ls e) :
    ReadsBinary 0 (.symbol op.text :: ls) (.unary 0 op e) := by
  intro d rest hd hrest
  have hop : prefixOp? op.text = some op := by cases op <;> rfl
  have hnext : Readers.nextPrefix? ((.symbol op.text :: ls) ++ rest) = some (op, ls ++ rest) := by
    simp [Readers.nextPrefix?, hop]
  rw [Readers.readBinary, Readers.readPower, hnext]
  exact h.operator op d rest hd hrest.1

/-- An operator that groups to the left, behind operators as loose as it and before an operand that
binds tighter. -/
theorem ReadsChain.operator {op : BinaryOp} (hop : op.looseness = n + 1) (h : ReadsChain n ls e)
    (h' : ReadsBinary n ls' e') :
    ReadsChain n (ls ++ .symbol op.text :: ls') (.binary 0 e op e') := by
  intro d rest hd hrest
  rw [List.append_assoc, List.cons_append] at hd ⊢
  obtain ⟨d', hd', hread⟩ := h d _ hd (ends_operator (ls' ++ rest) (by omega))
  obtain ⟨d', rfl⟩ : ∃ k, d' = k + 1 := ⟨d' - 1, by simp at hd'; omega⟩
  have hd' : (ls' ++ rest).length ≤ d' := by simpa using hd'
  have hright : (readers (d' + 1)).binary n (ls' ++ rest) = some (e', rest) := h' d' rest hd' hrest
  refine ⟨d', ?_, hread.trans ?_⟩
  · rw [List.length_append] at hd'
    omega
  · rw [Readers.readChain, Readers.nextBinary?, binaryOp?_text, if_pos hop]
    simp only [Option.map_some, Nat.add_sub_cancel, hright, Option.bind_eq_bind, Option.bind_some]
    rfl

/-- A power groups to the right. -/
theorem ReadsPostfix.power (h : ReadsPostfix ls e) (h' : ReadsBinary 0 ls' e') :
    ReadsBinary 0 (ls ++ .symbol BinaryOp.pow.text :: ls') (.binary 0 e .pow e') := by
  intro d rest hd hrest
  rw [List.append_assoc, List.cons_append] at hd ⊢
  obtain ⟨hnext, d', -, hread⟩ := h d _ hd
  obtain ⟨d, rfl⟩ : ∃ k, d = k + 1 := ⟨d - 1, by simp at hd; omega⟩
  have hd : (ls' ++ rest).length ≤ d := by
    simp only [List.length_append, List.length_cons] at hd ⊢
    omega
  have hright : (readers (d + 1)).binary 0 (ls' ++ rest) = some (e', rest) := h' d rest hd hrest
  have hsuffix : NoSuffix (.symbol BinaryOp.pow.text :: (ls' ++ rest)) := by
    intro s hs
    have hne : ∀ t ∈ [".", "[", "("], BinaryOp.pow.text ≠ t := by decide
    exact closing_of_ne _ (hne s hs)
  rw [Readers.readBinary, Readers.readPower, hnext]
  simp [hread, readSuffixes_of_noSuffix _ hsuffix, Readers.nextBinary?, binaryOp?_text,
    BinaryOp.looseness, hright]

end Steps

/-! ### Brackets -/

section Brackets

variable {ls ls' : List Lexeme} {e e' : Expr}

/-- What is read from one lexeme. -/
theorem readsPostfix_singleton {l : Lexeme}
    (hnext : ∀ rest, Readers.nextPrefix? (l :: rest) = none)
    (h : ∀ (r : Readers) rest, r.readPrimary (l :: rest) = some (e, rest)) :
    ReadsPostfix [l] e := by
  intro d rest hd
  refine ⟨hnext rest, d, ?_, ?_⟩
  · simp at hd
    omega
  · simp [Readers.readPostfix, h]

theorem ReadsBinary.inParens (h : ReadsBinary 6 ls e) : ReadsPostfix (inParens ls) e := by
  intro d rest hd
  refine ⟨rfl, d, ?_, ?_⟩
  · rw [List.length_append] at hd
    omega
  · obtain ⟨d, rfl⟩ : ∃ k, d = k + 1 := ⟨d - 1, by simp [Target.inParens] at hd; omega⟩
    have hd : (ls ++ .symbol ")" :: rest).length ≤ d := by
      simp [Target.inParens] at hd ⊢
      omega
    have hread : (readers (d + 1)).binary 6 (ls ++ .symbol ")" :: rest) =
        some (e, .symbol ")" :: rest) := h d _ hd (ends_closer 6 rest (by decide))
    simp [Readers.readPostfix, Target.inParens, Readers.readPrimary, hread, closing_self]

theorem ReadsPostfix.member (h : ReadsPostfix ls e) (property : String) :
    ReadsPostfix (ls ++ [.symbol ".", .word property]) (.member 0 e property) := by
  intro d rest hd
  rw [List.append_assoc] at hd ⊢
  obtain ⟨hnext, d', hd', hread⟩ := h d _ hd
  obtain ⟨d', rfl⟩ : ∃ k, d' = k + 1 := ⟨d' - 1, by simp at hd'; omega⟩
  refine ⟨hnext, d', ?_, hread.trans ?_⟩
  · simp at hd'
    omega
  · rfl

theorem ReadsPostfix.element (h : ReadsPostfix ls e) (h' : ReadsBinary 6 ls' e') :
    ReadsPostfix (ls ++ .symbol "[" :: (ls' ++ [.symbol "]"])) (.element 0 e e') := by
  intro d rest hd
  have hassoc : ls ++ .symbol "[" :: (ls' ++ [.symbol "]"]) ++ rest =
      ls ++ .symbol "[" :: (ls' ++ .symbol "]" :: rest) := by simp
  rw [hassoc] at hd ⊢
  obtain ⟨hnext, d', hd', hread⟩ := h d _ hd
  obtain ⟨d', rfl⟩ : ∃ k, d' = k + 1 := ⟨d' - 1, by simp at hd'; omega⟩
  have hd' : (ls' ++ .symbol "]" :: rest).length ≤ d' := by simpa using hd'
  have hindex : (readers (d' + 1)).binary 6 (ls' ++ .symbol "]" :: rest) =
      some (e', .symbol "]" :: rest) := h' d' _ hd' (ends_closer 6 rest (by decide))
  refine ⟨hnext, d', ?_, hread.trans ?_⟩
  · simp at hd'
    omega
  · simp [Readers.readSuffixes, hindex, closing_self]
    rfl

/-- What is read as an expression starts with no bracket that closes, no comma and no dots. -/
theorem closing_eq_none_of_readBinary {r : Readers} {n : Nat} {x : Expr × List Lexeme} {s : String}
    (hs : s ∈ [")", "]", "\x7d", "..."]) (h : r.readBinary n ls = some x) :
    closing s ls = none := by
  by_contra hne
  obtain ⟨rest, rfl⟩ : ∃ rest, ls = .symbol s :: rest := by
    unfold closing at hne
    split at hne
    · split_ifs at hne with ht
      · exact ⟨_, by rw [ht]⟩
      · exact absurd rfl hne
    · exact absurd rfl hne
  have hno : ∀ s ∈ [")", "]", "\x7d", "..."],
      prefixOp? s = none ∧ s ≠ "(" ∧ s ≠ "[" ∧ s ≠ "\x7b" := by decide
  obtain ⟨hop, hparen, hbracket, hbrace⟩ := hno s hs
  have hread : ∀ m, r.readBinary m (.symbol s :: rest) = none := by
    intro m
    induction m with
    | zero =>
      simp [Readers.readBinary, Readers.readPower, Readers.nextPrefix?, hop, Readers.readPostfix,
        Readers.readPrimary, hparen, hbracket, hbrace]
    | succ m ih => simp [Readers.readBinary, ih]
  rw [hread] at h
  cases h

end Brackets

/-! ### Lists -/

/-- `ls` is `x` to a reader of the parts of a list that `close` closes. -/
def ReadsPart {α : Type} (one : Nat → Reader α) (close : String) (ls : List Lexeme) (x : α) :
    Prop :=
  ∀ d rest, (ls ++ rest).length ≤ d → Ends 6 rest →
    closing close (ls ++ rest) = none ∧ one d (ls ++ rest) = some (x, rest)

/-- Parts with commas between them are read one by one. -/
theorem readList_commaLexemes {α : Type} {one : Nat → Reader α} (more : Nat → Reader (List α))
    {close : String} (hclose : close ∈ [")", "]", "\x7d"])
    (hmore : ∀ d, more (d + 1) = readList (one d) (more d) close)
    {lss : List (List Lexeme)} {xs : List α} (h : List.Forall₂ (ReadsPart one close) lss xs) :
    ∀ d rest, (commaLexemes lss ++ .symbol close :: rest).length ≤ d →
      more (d + 1) (commaLexemes lss ++ .symbol close :: rest) = some (xs, rest) := by
  have hsub : ∀ c ∈ [")", "]", "\x7d"], c ∈ [")", "]", ",", "\x7d"] := by decide
  have hends : ∀ rest, Ends 6 (.symbol close :: rest) := fun rest =>
    ends_closer 6 rest (hsub close hclose)
  have hcomma : ∀ c ∈ [")", "]", "\x7d"], c ≠ "," := by decide
  induction h with
  | nil =>
    intro d rest _
    simp [hmore, readList, commaLexemes, closing_self]
  | @cons ls x lss xs hpart hparts ih =>
    intro d rest hd
    cases hparts with
    | nil =>
      obtain ⟨hnone, hone⟩ := hpart d (.symbol close :: rest) hd (hends rest)
      have hno := closing_of_ne rest (hcomma close hclose)
      rw [commaLexemes, hmore, readList, hnone]
      simp [hone, hno, closing_self]
    | @cons ls' x' lss xs hpart' hparts' =>
      have hassoc : commaLexemes (ls :: ls' :: lss) ++ .symbol close :: rest =
          ls ++ .symbol "," :: (commaLexemes (ls' :: lss) ++ .symbol close :: rest) := by
        simp [commaLexemes]
      rw [hassoc] at hd ⊢
      obtain ⟨hnone, hone⟩ := hpart d _ hd (ends_closer 6 _ (by decide))
      obtain ⟨d, rfl⟩ : ∃ k, d = k + 1 := ⟨d - 1, by simp at hd; omega⟩
      have hd : (commaLexemes (ls' :: lss) ++ .symbol close :: rest).length ≤ d := by
        rw [List.length_append, List.length_cons] at hd
        omega
      rw [hmore, readList, hnone]
      simp [hone, closing_self, ih d rest hd]

/-- The items of an array or of a call. -/
def ReadsItem : String → List Lexeme → Expr → Prop := ReadsPart fun d => (readers d).readItem

/-- The properties of an object. -/
def ReadsProperty : List Lexeme → Property → Prop :=
  ReadsPart (fun d => (readers d).readProperty) "\x7d"

section Parts

variable {ls ls' : List Lexeme} {e e' : Expr} {lss : List (List Lexeme)}

theorem ReadsBinary.item {close : String} (hclose : close ∈ [")", "]"]) (h : ReadsBinary 6 ls e) :
    ReadsItem close ls e := by
  intro d rest hd hrest
  have hread := h d rest hd hrest
  have hsub : ∀ c ∈ [")", "]"], c ∈ [")", "]", "\x7d", "..."] := by decide
  refine ⟨closing_eq_none_of_readBinary (hsub close hclose) hread, ?_⟩
  simp [Readers.readItem, closing_eq_none_of_readBinary (s := "...") (by decide) hread, hread]

theorem ReadsBinary.spread {close : String} (hclose : close ∈ [")", "]"]) (h : ReadsBinary 6 ls e) :
    ReadsItem close (.symbol "..." :: ls) (.spread 0 e) := by
  intro d rest hd hrest
  have hne : ∀ c ∈ [")", "]"], "..." ≠ c := by decide
  obtain ⟨d, rfl⟩ : ∃ k, d = k + 1 := ⟨d - 1, by simp at hd; omega⟩
  have hread : (readers (d + 1)).binary 6 (ls ++ rest) = some (e, rest) :=
    h d rest (by simpa using hd) hrest
  refine ⟨closing_of_ne _ (hne close hclose), ?_⟩
  simp [Readers.readItem, closing_self, hread]

theorem ReadsBinary.named (key : String) (h : ReadsBinary 6 ls e) :
    ReadsProperty (.word key :: .symbol ":" :: ls) (.named key e) := by
  intro d rest hd hrest
  obtain ⟨d, rfl⟩ : ∃ k, d = k + 1 := ⟨d - 1, by simp at hd; omega⟩
  have hread : (readers (d + 1)).binary 6 (ls ++ rest) = some (e, rest) :=
    h d rest (by simp at hd ⊢; omega) hrest
  exact ⟨rfl, by simp [Readers.readProperty, closing_self, hread]⟩

theorem ReadsBinary.computed (h : ReadsBinary 6 ls e) (h' : ReadsBinary 6 ls' e') :
    ReadsProperty (.symbol "[" :: (ls ++ .symbol "]" :: .symbol ":" :: ls')) (.computed e e') := by
  intro d rest hd hrest
  obtain ⟨d, rfl⟩ : ∃ k, d = k + 1 := ⟨d - 1, by simp at hd; omega⟩
  have hkey : (readers (d + 1)).binary 6 (ls ++ .symbol "]" :: .symbol ":" :: (ls' ++ rest)) =
      some (e, .symbol "]" :: .symbol ":" :: (ls' ++ rest)) :=
    h d _ (by simp at hd ⊢; omega) (ends_closer 6 _ (by decide))
  have hvalue : (readers (d + 1)).binary 6 (ls' ++ rest) = some (e', rest) :=
    h' d rest (by simp at hd ⊢; omega) hrest
  exact ⟨rfl, by simp [Readers.readProperty, closing_self, hkey, hvalue]⟩

theorem readsPostfix_array {es : List Expr} (h : List.Forall₂ (ReadsItem "]") lss es) :
    ReadsPostfix (.symbol "[" :: (commaLexemes lss ++ [.symbol "]"])) (.array 0 es) := by
  intro d rest hd
  refine ⟨rfl, d, ?_, ?_⟩
  · simp at hd
    omega
  · obtain ⟨d, rfl⟩ : ∃ k, d = k + 1 := ⟨d - 1, by simp at hd; omega⟩
    have hread := readList_commaLexemes (fun d => (readers d).items "]") (by decide)
      (fun _ => rfl) h d rest (by simp at hd ⊢; omega)
    simp [Readers.readPostfix, Readers.readPrimary, hread]

theorem readsPostfix_object {ps : List Property} (h : List.Forall₂ ReadsProperty lss ps) :
    ReadsPostfix (.symbol "\x7b" :: (commaLexemes lss ++ [.symbol "\x7d"])) (.object 0 ps) := by
  intro d rest hd
  refine ⟨rfl, d, ?_, ?_⟩
  · simp at hd
    omega
  · obtain ⟨d, rfl⟩ : ∃ k, d = k + 1 := ⟨d - 1, by simp at hd; omega⟩
    have hread := readList_commaLexemes (fun d => (readers d).properties) (by decide)
      (fun _ => rfl) h d rest (by simp at hd ⊢; omega)
    simp [Readers.readPostfix, Readers.readPrimary, hread]

theorem ReadsPostfix.call (h : ReadsPostfix ls e) {es : List Expr}
    (h' : List.Forall₂ (ReadsItem ")") lss es) :
    ReadsPostfix (ls ++ inParens (commaLexemes lss)) (.call 0 e es) := by
  intro d rest hd
  have hassoc : ls ++ inParens (commaLexemes lss) ++ rest =
      ls ++ .symbol "(" :: (commaLexemes lss ++ .symbol ")" :: rest) := by simp [inParens]
  rw [hassoc] at hd ⊢
  obtain ⟨hnext, d', hd', hread⟩ := h d _ hd
  obtain ⟨d', rfl⟩ : ∃ k, d' = k + 1 := ⟨d' - 1, by simp at hd'; omega⟩
  have hd' : (commaLexemes lss ++ .symbol ")" :: rest).length ≤ d' := by simpa using hd'
  have hargs := readList_commaLexemes (fun d => (readers d).items ")") (by decide)
    (fun _ => rfl) h' d' rest hd'
  refine ⟨hnext, d', ?_, hread.trans ?_⟩
  · simp at hd'
    omega
  · simp [Readers.readSuffixes, hargs]
    rfl

end Parts

/-! ### Expressions by precedence -/

/-- The groups of operators are those of equal precedence, in order. -/
theorem BinaryOp.looseness_le_iff (a b : BinaryOp) :
    a.looseness ≤ b.looseness ↔ b.precedence ≤ a.precedence := by
  cases a <;> cases b <;> decide

theorem BinaryOp.precedence_lt (op : BinaryOp) : op.precedence < unaryPrecedence := by
  cases op <;> decide

/-- How loosely the operator of an expression binds. -/
def Expr.looseness : Expr → Nat
  | .binary _ _ op _ => op.looseness
  | _ => 0

theorem Expr.looseness_le (e : Expr) : e.looseness ≤ 6 := by
  cases e with
  | binary _ _ op _ => exact (BinaryOp.looseness_le_iff op .or).2 (by cases op <;> decide)
  | _ => exact Nat.zero_le 6

/-- An operand that needs no parentheses to the left binds at least as tightly. -/
theorem Expr.looseness_le_of_precedence_le {op : BinaryOp} {e : Expr}
    (h : op.precedence ≤ e.precedence) : e.looseness ≤ op.looseness := by
  cases e with
  | binary _ _ op' _ => exact (BinaryOp.looseness_le_iff op' op).2 h
  | _ => exact Nat.zero_le _

/-- One that needs none to the right binds tighter. -/
theorem Expr.looseness_le_of_precedence_lt {n : Nat} {op : BinaryOp} {e : Expr}
    (hop : op.looseness = n + 1) (h : op.precedence < e.precedence) : e.looseness ≤ n := by
  cases e with
  | binary _ _ op' _ =>
    have hnot := mt (BinaryOp.looseness_le_iff op op').1 (Nat.not_le.2 h)
    change op'.looseness ≤ n
    omega
  | _ => exact Nat.zero_le n

/-- What binds like an operator before its operand and is none is no operator at all. -/
theorem Expr.postPrecedence_le {e : Expr} (h : unaryPrecedence ≤ e.precedence)
    (hunary : e.isUnary = false) : postPrecedence ≤ e.precedence := by
  cases e with
  | unary => cases hunary
  | binary _ _ op _ => exact absurd op.precedence_lt (Nat.not_lt.2 h)
  | assign | function => exact absurd h (by decide : ¬unaryPrecedence ≤ assignPrecedence)
  | increment => exact le_rfl
  | call | member | element => exact (by decide : postPrecedence ≤ memberPrecedence)
  | _ => exact (by decide : postPrecedence ≤ primaryPrecedence)

/-- What takes an expression, by how tightly it binds. -/
structure Expr.Reads (e : Expr) : Prop where
  chain : ∀ n, e.looseness ≤ n + 1 → ReadsChain n e.lexemes e.unnumbered
  binary : ∀ n, e.looseness ≤ n → ReadsBinary n e.lexemes e.unnumbered
  unary : unaryPrecedence ≤ e.precedence → ReadsUnary e.lexemes e.unnumbered
  primary : postPrecedence ≤ e.precedence → ReadsPostfix e.lexemes e.unnumbered

namespace Expr.Reads

variable {e : Expr}

theorem of_primary (h : ReadsPostfix e.lexemes e.unnumbered) : e.Reads where
  chain _ _ := (h.binary.mono (Nat.zero_le _)).chain
  binary _ _ := h.binary.mono (Nat.zero_le _)
  unary _ := h.unary
  primary _ := h

section Guarded

variable {n least : Nat}

theorem inParens (h : e.Reads) : ReadsPostfix (inParens e.lexemes) e.unnumbered :=
  (h.binary 6 e.looseness_le).inParens

theorem chain_guardedBy (h : e.Reads) (hn : least ≤ e.precedence → e.looseness ≤ n + 1) :
    ReadsChain n (e.guardedBy least e.lexemes) e.unnumbered := by
  unfold guardedBy
  split_ifs with hlt
  · exact (h.inParens.binary.mono (Nat.zero_le n)).chain
  · exact h.chain n (hn (Nat.le_of_not_lt hlt))

theorem binary_guardedBy (h : e.Reads) (hn : least ≤ e.precedence → e.looseness ≤ n) :
    ReadsBinary n (e.guardedBy least e.lexemes) e.unnumbered := by
  unfold guardedBy
  split_ifs with hlt
  · exact h.inParens.binary.mono (Nat.zero_le n)
  · exact h.binary n (hn (Nat.le_of_not_lt hlt))

theorem unary_guardedBy (h : e.Reads) :
    ReadsUnary (e.guardedBy unaryPrecedence e.lexemes) e.unnumbered := by
  unfold guardedBy
  split_ifs with hlt
  · exact h.inParens.unary
  · exact h.unary (Nat.le_of_not_lt hlt)

theorem postfix_objectBy (h : e.Reads) : ReadsPostfix (e.objectBy e.lexemes) e.unnumbered := by
  unfold objectBy guardedBy
  split_ifs with hbraced hlt
  · exact h.inParens
  · exact h.inParens
  · exact h.primary (le_trans (by decide) (Nat.le_of_not_lt hlt))

/-- The base of a power. -/
theorem postfix_leftBy (h : e.Reads) : ReadsPostfix (e.leftBy .pow e.lexemes) e.unnumbered := by
  unfold leftBy guardedBy
  split_ifs with hunary hlt
  · exact h.inParens
  · exact h.inParens
  · exact h.primary (postPrecedence_le (Nat.le_of_not_lt hlt) (by simpa using hunary))

/-- Where any expression may stand. -/
theorem whole (h : e.Reads) (least : Nat) :
    ReadsBinary 6 (e.guardedBy least e.lexemes) e.unnumbered :=
  h.binary_guardedBy fun _ => e.looseness_le

end Guarded

/-- An operator between its operands. A power groups to the right, all others to the left. -/
theorem operator (id : Nat) {lhs rhs : Expr} (op : BinaryOp) (hl : lhs.Reads) (hr : rhs.Reads) :
    (Expr.binary id lhs op rhs).Reads := by
  have hprec : op.precedence < unaryPrecedence := op.precedence_lt
  have hpost : unaryPrecedence < postPrecedence := by decide
  by_cases hpow : op = .pow
  · subst hpow
    have hright : ReadsBinary 0 (rhs.guardedBy BinaryOp.pow.rightPrecedence rhs.lexemes)
        rhs.unnumbered :=
      hr.binary_guardedBy fun (h : BinaryOp.pow.precedence ≤ _) => looseness_le_of_precedence_le h
    have hread := hl.postfix_leftBy.power hright
    exact {
      chain := fun n _ => (hread.mono (Nat.zero_le n)).chain
      binary := fun n _ => hread.mono (Nat.zero_le n)
      unary := fun h => absurd hprec (Nat.not_lt.2 h)
      primary := fun h => absurd (hprec.trans hpost) (Nat.not_lt.2 h) }
  · obtain ⟨m, hm⟩ : ∃ m, op.looseness = m + 1 := by
      refine ⟨op.looseness - 1, ?_⟩
      revert hpow
      cases op <;> decide
    have hleft : ReadsChain m (lhs.leftBy op lhs.lexemes) lhs.unnumbered := by
      have hplain : lhs.leftBy op lhs.lexemes = lhs.guardedBy op.precedence lhs.lexemes := by
        simp [leftBy, BinaryOp.leftPrecedence, hpow]
      rw [hplain]
      exact hl.chain_guardedBy fun h => (looseness_le_of_precedence_le h).trans_eq hm
    have hright : ReadsBinary m (rhs.guardedBy op.rightPrecedence rhs.lexemes) rhs.unnumbered := by
      refine hr.binary_guardedBy fun h => looseness_le_of_precedence_lt hm ?_
      rwa [BinaryOp.rightPrecedence, if_neg hpow] at h
    have hread := hleft.operator hm hright
    have hloose : (Expr.binary id lhs op rhs).looseness = m + 1 := hm
    exact {
      chain := fun n h => by
        rcases Nat.lt_or_ge m n with hlt | hge
        · exact (hread.binary.mono hlt).chain
        · obtain rfl : m = n := by omega
          exact hread
      binary := fun n h => hread.binary.mono (hloose ▸ h)
      unary := fun h => absurd hprec (Nat.not_lt.2 h)
      primary := fun h => absurd (hprec.trans hpost) (Nat.not_lt.2 h) }

/-- An operator before its operand. -/
theorem prefixed (id : Nat) (op : UnaryOp) (h : e.Reads) : (Expr.unary id op e).Reads where
  chain _ _ := ((h.unary_guardedBy.operator_binary op).mono (Nat.zero_le _)).chain
  binary _ _ := (h.unary_guardedBy.operator_binary op).mono (Nat.zero_le _)
  unary _ := h.unary_guardedBy.operator op
  primary hpost := absurd hpost (by decide : ¬postPrecedence ≤ unaryPrecedence)

end Expr.Reads

-- The induction is on the expression. A part that stands in parentheses is taken as a primary
-- expression, any other part by the precedence that kept the parentheses away.
mutual

theorem reads_of_printable : ∀ e : Expr, e.Printable → e.Reads
  | .ident .., _ | .bool .., _ | .function .., _ =>
    .of_primary (readsPostfix_singleton (fun _ => rfl) fun _ _ => rfl)
  | .number _ value, h => by
    refine .of_primary (readsPostfix_singleton (fun _ => rfl) fun r rest => ?_)
    simp [Readers.readPrimary, Binary64.ofNumeral?_numeral h, Expr.unnumbered]
  | .string _ value, _ => by
    refine .of_primary (readsPostfix_singleton (fun _ => rfl) fun r rest => ?_)
    simp [Readers.readPrimary, Text.unquote?_quote, Expr.unnumbered]
  | .member _ object property, h =>
    .of_primary ((reads_of_printable object h).postfix_objectBy.member property)
  | .element _ object index, h =>
    .of_primary ((reads_of_printable object h.1).postfix_objectBy.element
      ((reads_of_printable index h.2).whole _))
  | .binary id lhs op rhs, h =>
    .operator id op (reads_of_printable lhs h.1) (reads_of_printable rhs h.2)
  | .unary id op operand, h => .prefixed id op (reads_of_printable operand h)
  | .array _ elements, h =>
    .of_primary (readsPostfix_array (readsItems_of_printable (by decide) elements h))
  | .object _ properties, h =>
    .of_primary (readsPostfix_object (readsProperties_of_printable properties h))
  | .call _ callee args, h =>
    .of_primary ((reads_of_printable callee h.1).postfix_objectBy.call
      (readsItems_of_printable (by decide) args h.2))

/-- The items of an array or of a call. -/
theorem readsItems_of_printable {close : String} (hclose : close ∈ [")", "]"]) :
    ∀ es : List Expr, PrintableItems es →
      List.Forall₂ (ReadsItem close) (exprLexemes es) (unnumberedExprs es)
  | [], _ => .nil
  | e :: es, h => by
    cases e with
    | spread _ value =>
      exact .cons (((reads_of_printable value h.1).whole _).spread hclose)
        (readsItems_of_printable hclose es h.2)
    | _ =>
      exact .cons (((reads_of_printable _ h.1).whole _).item hclose)
        (readsItems_of_printable hclose es h.2)

/-- The properties of an object. -/
theorem readsProperties_of_printable : ∀ ps : List Property, PrintableProperties ps →
    List.Forall₂ ReadsProperty (propertyLexemes ps) (unnumberedProperties ps)
  | [], _ => .nil
  | .named key value :: ps, h =>
    .cons (((reads_of_printable value h.1).whole _).named key)
      (readsProperties_of_printable ps h.2)
  | .computed key value :: ps, h =>
    .cons (((reads_of_printable key h.1).whole _).computed
      ((reads_of_printable value h.2.1).whole _)) (readsProperties_of_printable ps h.2.2)

end

/-- **Printed expressions are unambiguous.** Wherever an expression is written, what its actions
write are pieces whose tokens are its lexemes; reading them takes every one and gives the expression
back without its ids, and the text of each tells which lexeme it is if the names of the expression
are words. -/
theorem readExpr_guardedLexemes (n least : Nat) (e : Expr) (h : e.Printable) :
    (∀ provenance, WritesPieces provenance n (e.writtenAbove least e.actions)
        (e.guarded least (e.pieces n))) ∧
      (e.guardedLexemes least).flatMap (Lexeme.texts n) =
        Piece.tokens (e.guarded least (e.pieces n)) ∧
      readExpr (e.guardedLexemes least) = some (e.unnumbered, []) ∧
      ((∀ s ∈ e.words, isWord s) → AllTold (e.guardedLexemes least)) := by
  refine ⟨fun _ => writesPieces_guarded least e, flatMap_guardedBy n least e (e.flatMap_lexemes n),
    ?_, fun hw => ?_⟩
  · have hread := (reads_of_printable e h).whole least _ [] le_rfl (ends_nil 6)
    rw [List.append_nil] at hread
    exact hread
  · exact allTold_guardedBy.2 (e.isTold_lexemes h hw)

/-- A power of a negated power, which is the base and so in parentheses, as the argument of an
object that is called. -/
def calledObject : Expr :=
  .call 1 (.object 2 [.computed (.ident 3 "k") (.string 4 "v")])
    [.spread 5 (.binary 6
      (.unary 7 .neg (.binary 8 (.ident 9 "a") .pow (.number 10 ⟨0x3ff8000000000000⟩))) .pow
      (.binary 11 (.ident 12 "b") .pow (.ident 13 "c")))]

theorem readExpr_calledObject :
    calledObject.Printable ∧ (∀ s ∈ calledObject.words, isWord s) ∧
      (∀ provenance, WritesPieces provenance 0 (calledObject.writtenAbove 20 calledObject.actions)
        (calledObject.guarded 20 (calledObject.pieces 0))) ∧
      (calledObject.guardedLexemes 20).flatMap (Lexeme.texts 0) =
        Piece.tokens (calledObject.guarded 20 (calledObject.pieces 0)) ∧
      readExpr (calledObject.guardedLexemes 20) = some (calledObject.unnumbered, []) ∧
      AllTold (calledObject.guardedLexemes 20) := by
  have hnumber : Binary64.IsUnsigned ⟨0x3ff8000000000000⟩ := by decide
  have h : calledObject.Printable :=
    ⟨⟨trivial, trivial, trivial⟩, ⟨⟨trivial, hnumber⟩, trivial, trivial⟩, trivial⟩
  have hw : ∀ s ∈ calledObject.words, isWord s := by decide
  obtain ⟨hwritten, htokens, hread, htold⟩ := readExpr_guardedLexemes 0 20 calledObject h
  exact ⟨h, hw, hwritten, htokens, hread, htold hw⟩

end LuaTranspiler.Target
