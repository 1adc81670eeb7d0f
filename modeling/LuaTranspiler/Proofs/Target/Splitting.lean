import LuaTranspiler.Proofs.Target.Lexemes
import LuaTranspiler.Proofs.Token.Respacing

/-!
# Splitting printed text into tokens

A text is split by the rules of ECMAScript: each token is the longest that starts where it starts,
and layout between tokens is skipped. A numeral takes a point and digits behind it, so `5.x` starts
with the numeral `5.`. A slash always divides, since no regular expressions are printed.

* `tokenTail`: how far the longest token at the head of a text reaches
* `tokensOf`: the tokens of a text
* `Splits ps rest P`: the pieces `ps` before the text `rest` are split as printed exactly if `P`
* `Splits.append`: pieces that follow others
-/

namespace LuaTranspiler

/-! ### Tokens of ECMAScript -/

namespace Target

/-- The characters of a name. All characters outside of ASCII are taken for such. -/
def isIdentChar (c : Char) : Bool := isNameChar c || c = '$' || 128 ≤ c.toNat

/-- The marks of a base behind a leading zero. -/
def isBaseMark (c : Char) : Bool := ['x', 'X', 'o', 'O', 'b', 'B'].contains c

/-- The punctuators of several characters, longer ones first, and with them what opens a comment. -/
def punctuators : List (List Char) :=
  [">>>=", "...", "===", "!==", "**=", "<<=", ">>=", ">>>", "&&=", "||=", "??=", "=>", "==", "!=",
    "<=", ">=", "++", "--", "**", "<<", ">>", "&&", "||", "??", "?.", "+=", "-=", "*=", "/=", "%=",
    "&=", "|=", "^=", "//", "/*"].map String.toList

/-- The length of what continues a numeral behind its first digit `c`: the mark and the digits of
another base, or the rest of a decimal numeral, with the suffix of a large integer. -/
def numeralTail (c : Char) (cs : List Char) : Nat :=
  if c = '0' ∧ cs.head?.any isBaseMark then runLength isIdentChar cs
  else if (cs.drop (numberTail cs)).head? = some 'n' then numberTail cs + 1
  else numberTail cs

/-- The length of what continues a punctuator behind its first character `c`. -/
def punctuatorTail (c : Char) (cs : List Char) : Nat :=
  match punctuators.find? fun p => p.isPrefixOf (c :: cs) with
  | some p => p.length - 1
  | none => 0

/-- The length of the longest token at the head of the text `c :: cs`, behind its first character:
a name, a numeral, a string or a punctuator. -/
def tokenTail (c : Char) (cs : List Char) : Nat :=
  if c.isDigit then numeralTail c cs
  else if isIdentChar c then runLength isIdentChar cs
  else if c = '.' && startsWithDigit cs then pointTail cs
  else if c = '"' || c = '\'' then (quotedTail c cs).2
  else punctuatorTail c cs

/-- The tokens of a text behind its first `skip` characters. -/
def cutBehind : Nat → List Char → List String
  | _, [] => []
  | skip + 1, _ :: cs => cutBehind skip cs
  | 0, c :: cs =>
    if isLayout c then cutBehind 0 cs
    else String.ofList (c :: cs.take (tokenTail c cs)) :: cutBehind (tokenTail c cs) cs

/-- The tokens of a list of characters. -/
def cut (cs : List Char) : List String := cutBehind 0 cs

/-- The tokens of a text. -/
def tokensOf (s : String) : List String := cut s.toList

example : tokensOf "a.b - -x===5.5" = ["a", ".", "b", "-", "-", "x", "===", "5.5"] := by
  decide +kernel

example : tokensOf "5.length--x" = ["5.", "length", "--", "x"] := by decide +kernel

end Target

mutual

/-- The tokens of a written type. -/
def Ty.tokens : Ty → List String
  | .number => ["number"]
  | .string => ["string"]
  | .boolean => ["boolean"]
  | .undefined => ["undefined"]
  | .void => ["void"]
  | .union ts => ["|"].intercalate (Ty.tokensList ts)
  | .tuple ts => "[" :: ([","].intercalate (Ty.tokensList ts) ++ ["]"])

/-- The tokens of each written type. -/
def Ty.tokensList : List Ty → List (List String)
  | [] => []
  | t :: ts => t.tokens :: Ty.tokensList ts

end

namespace Target

/-! ### One token after the other -/

section Cutting

variable {c : Char} {cs rest : List Char}

theorem cutBehind_eq (n : Nat) (cs : List Char) : cutBehind n cs = cut (cs.drop n) := by
  induction n generalizing cs with
  | zero => rw [List.drop_zero, cut]
  | succ n ih =>
    cases cs with
    | nil => rfl
    | cons c cs => rw [cutBehind, ih, List.drop_succ_cons]

@[simp] theorem cut_nil : cut [] = [] := rfl

theorem cut_layout (hc : isLayout c = true) (cs : List Char) : cut (c :: cs) = cut cs := by
  rw [cut, cutBehind, if_pos hc, cut]

theorem cut_cons (hc : isLayout c = false) (cs : List Char) :
    cut (c :: cs) =
      String.ofList (c :: cs.take (tokenTail c cs)) :: cut (cs.drop (tokenTail c cs)) := by
  rw [cut, cutBehind, if_neg (by simp [hc]), cutBehind_eq]

/-- A token that ends where it should is cut off. -/
theorem cut_append (hc : isLayout c = false) (h : tokenTail c (cs ++ rest) = cs.length) :
    cut (c :: cs ++ rest) = String.ofList (c :: cs) :: cut rest := by
  rw [List.cons_append, cut_cons hc, h, List.take_left, List.drop_left]

/-- A token that takes more is another token. -/
theorem cut_append_ne (hc : isLayout c = false) (h : cs.length < tokenTail c (cs ++ rest))
    (hrest : rest ≠ []) (ts : List String) :
    cut (c :: cs ++ rest) ≠ String.ofList (c :: cs) :: ts := by
  rw [List.cons_append, cut_cons hc]
  intro heq
  have htake : (cs ++ rest).take (tokenTail c (cs ++ rest)) = cs :=
    (List.cons.inj (String.ofList_injective (List.cons.inj heq).1)).2
  have hlength := congrArg List.length htake
  have hpos := List.length_pos_of_ne_nil hrest
  rw [List.length_take, List.length_append] at hlength
  omega

end Cutting

theorem tokensOf_of_cut {s : String} {ts : List String}
    (h : cut (s.toList ++ []) = ts ++ cut []) : tokensOf s = ts := by
  rwa [List.append_nil, cut_nil, List.append_nil] at h

/-! ### Names -/

/-- No name and no numeral goes on with what comes here. -/
def Stops (rest : List Char) : Prop := ∀ c ∈ rest.head?, isIdentChar c = false

theorem stops_nil : Stops [] := by rintro _ ⟨⟩

theorem stops_cons {c : Char} {rest : List Char} : Stops (c :: rest) ↔ isIdentChar c = false := by
  simp [Stops]

theorem isIdentChar_of_isNameChar {c : Char} (h : isNameChar c = true) : isIdentChar c = true := by
  simp [isIdentChar, h]

theorem isNameChar_of_isNameStart {c : Char} (h : isNameStart c = true) : isNameChar c = true := by
  simp only [isNameStart, Bool.or_eq_true] at h
  simp only [isNameChar, Char.isAlphanum, Bool.or_eq_true]
  tauto

theorem isIdentChar_of_isDigit {c : Char} (h : c.isDigit = true) : isIdentChar c = true :=
  isIdentChar_of_isNameChar (by simp [isNameChar, Char.isAlphanum, h])

theorem isLayout_of_isIdentChar {c : Char} (h : isIdentChar c = true) : isLayout c = false := by
  by_contra hlayout
  simp only [isLayout, Bool.or_eq_true, decide_eq_true_eq, Bool.not_eq_false] at hlayout
  rcases hlayout with (((rfl | rfl) | rfl) | rfl) | rfl <;> exact absurd h (by decide)

/-- A name is one token, if none goes on behind it. -/
theorem cut_name {s : String} (hs : IsName s) {rest : List Char} (hrest : Stops rest) :
    cut (s.toList ++ rest) = s :: cut rest := by
  obtain ⟨c, cs, htext, hc, hcs⟩ := hs
  have hident := isIdentChar_of_isNameChar (isNameChar_of_isNameStart hc)
  have htail : tokenTail c (cs ++ rest) = cs.length := by
    rw [tokenTail, if_neg (by simp [not_isDigit_of_isNameStart hc]), if_pos hident]
    exact runLength_append (fun d hd => isIdentChar_of_isNameChar (hcs d hd)) hrest
  rw [htext, cut_append (isLayout_of_isIdentChar hident) htail, ← htext, String.ofList_toList]

/-! ### Numerals -/

section Numerals

variable {c : Char} {ws ds rest : List Char}

/-- The point and the exponent are looked for behind all leading digits. -/
theorem numberTail_append (hws : ∀ d ∈ ws, d.isDigit = true)
    (hrest : ∀ d ∈ rest.head?, d.isDigit = false) :
    numberTail (ws ++ rest) =
      ws.length + (fractionTail rest + exponentTail (rest.drop (fractionTail rest))) := by
  have hdrop (n : Nat) : (ws ++ rest).drop (ws.length + n) = rest.drop n := by
    rw [← List.drop_drop, List.drop_left]
  simp only [numberTail, runLength_append hws hrest, List.drop_left, hdrop]
  omega

theorem exponentTail_of_stops (h : Stops rest) : exponentTail rest = 0 := by
  cases rest with
  | nil => rfl
  | cons c rest =>
    rw [stops_cons] at h
    have he : ¬(c = 'e' ∨ c = 'E') := by
      rintro (rfl | rfl) <;> exact absurd h (by decide)
    rw [exponentTail.eq_def]
    simp only [he, if_false]

theorem not_isDigit_of_stops (h : Stops rest) : ∀ d ∈ rest.head?, d.isDigit = false := by
  intro d hd
  by_contra hdigit
  have hident := isIdentChar_of_isDigit (Bool.not_eq_false _ ▸ hdigit)
  simp [h d hd] at hident

theorem head?_ne_of_stops (h : Stops rest) (hc : isIdentChar c = true) : rest.head? ≠ some c := by
  intro hhead
  simp [h c hhead] at hc

/-- Behind a digit, neither a digit nor what goes on with no name is the mark of a base. -/
theorem numeralTail_eq (hws : ∀ d ∈ ws, d.isDigit = true) (hrest : Stops rest) :
    numeralTail c (ws ++ rest) =
      if ((ws ++ rest).drop (numberTail (ws ++ rest))).head? = some 'n'
      then numberTail (ws ++ rest) + 1 else numberTail (ws ++ rest) := by
  have hmark : ¬(c = '0' ∧ (ws ++ rest).head?.any isBaseMark = true) := by
    rintro ⟨-, hmark⟩
    obtain ⟨d, hd, hbase⟩ := (Option.any_eq_true ..).1 hmark
    have hmem : d ∈ ['x', 'X', 'o', 'O', 'b', 'B'] := by simpa [isBaseMark] using hbase
    have hclass : ['x', 'X', 'o', 'O', 'b', 'B'].all
        (fun e => !e.isDigit && isIdentChar e) = true := by decide
    obtain ⟨hdigit, hident⟩ : d.isDigit = false ∧ isIdentChar d = true := by
      simpa using List.all_eq_true.1 hclass d hmem
    cases ws with
    | nil => simp [hrest d hd] at hident
    | cons w ws =>
      obtain rfl : w = d := by simpa using hd
      simp [hws w List.mem_cons_self] at hdigit
  rw [numeralTail, if_neg hmark]

/-- Digits are a numeral, if nothing goes on with it. -/
theorem numeralTail_digits (hws : ∀ d ∈ ws, d.isDigit = true) (hrest : Stops rest)
    (hpoint : rest.head? ≠ some '.') : numeralTail c (ws ++ rest) = ws.length := by
  have hfraction : fractionTail rest = 0 := by
    cases rest with
    | nil => rfl
    | cons c rest => simp_all [fractionTail]
  have htail : numberTail (ws ++ rest) = ws.length := by
    rw [numberTail_append hws (not_isDigit_of_stops hrest), hfraction, List.drop_zero,
      exponentTail_of_stops hrest, Nat.add_zero]
  rw [numeralTail_eq hws hrest, htail, List.drop_left, if_neg (head?_ne_of_stops hrest rfl)]

/-- Digits before a point are no whole numeral. -/
theorem lt_numeralTail_point (hws : ∀ d ∈ ws, d.isDigit = true) (rest : List Char) :
    ws.length < numeralTail c (ws ++ '.' :: rest) := by
  have hstops : Stops ('.' :: rest) := stops_cons.2 (by decide)
  rw [numeralTail_eq hws hstops, numberTail_append hws (not_isDigit_of_stops hstops), fractionTail]
  split <;> omega

/-- Digits with a point among them are a numeral, if nothing goes on with it. A second point does
not. -/
theorem numeralTail_fraction (hws : ∀ d ∈ ws, d.isDigit = true) (hds : ∀ d ∈ ds, d.isDigit = true)
    (hrest : Stops rest) :
    numeralTail c (ws ++ '.' :: (ds ++ rest)) = ws.length + (ds.length + 1) := by
  have hstops : Stops ('.' :: (ds ++ rest)) := stops_cons.2 (by decide)
  have htail : numberTail (ws ++ '.' :: (ds ++ rest)) = ws.length + (ds.length + 1) := by
    have hrun := runLength_append hds (not_isDigit_of_stops hrest)
    rw [numberTail_append hws (not_isDigit_of_stops hstops), fractionTail, hrun, Nat.add_comm 1,
      List.drop_succ_cons, List.drop_left, exponentTail_of_stops hrest]
  have hdrop : (ws ++ '.' :: (ds ++ rest)).drop (ws.length + (ds.length + 1)) = rest := by
    rw [← List.drop_drop, List.drop_left, List.drop_succ_cons, List.drop_left]
  rw [numeralTail_eq hws hstops, htail, hdrop, if_neg (head?_ne_of_stops hrest rfl)]

/-- What is written for a number without a sign: digits, and perhaps a point with digits. -/
theorem exists_numeral_eq {x : Binary64} (hx : x.IsUnsigned) :
    ∃ c ws, c.isDigit = true ∧ (∀ d ∈ ws, d.isDigit = true) ∧
      (x.numeral.toList = c :: ws ∨
        ∃ ds, (∀ d ∈ ds, d.isDigit = true) ∧ x.numeral.toList = c :: (ws ++ '.' :: ds)) := by
  rw [Binary64.numeral_eq hx]
  split_ifs
  · exact ⟨'0', [], rfl, by simp, .inl rfl⟩
  rw [Decimal.positional, String.toList_ofList]
  generalize x.shortest .up = y
  have hdigits : ∀ d ∈ y.digits, d.isDigit = true := fun _ => isDigit_of_mem_digits
  have hne : y.digits ≠ [] := Nat.toDigits_ne_nil
  obtain ⟨c, cs, hcs⟩ := List.exists_cons_of_ne_nil hne
  rw [hcs, List.forall_mem_cons] at hdigits
  unfold Decimal.positionalChars
  dsimp only
  split_ifs with hexp hlt
  · refine ⟨c, cs ++ List.replicate _ '0', hdigits.1, ?_, .inl (by rw [hcs, List.cons_append])⟩
    rw [List.forall_mem_append]
    exact ⟨hdigits.2, fun _ => isDigit_of_mem_zeros⟩
  · obtain ⟨m, hm⟩ := Nat.exists_eq_succ_of_ne_zero (Nat.sub_ne_zero_of_lt hlt)
    refine ⟨c, cs.take m, hdigits.1, fun d hd => hdigits.2 d (List.mem_of_mem_take hd), .inr ?_⟩
    refine ⟨cs.drop m, fun d hd => hdigits.2 d (List.mem_of_mem_drop hd), ?_⟩
    rw [hm, hcs, List.take_succ_cons, List.drop_succ_cons, List.cons_append]
  · refine ⟨'0', [], rfl, by simp, .inr ⟨_, ?_, rfl⟩⟩
    rw [hcs, List.forall_mem_append, List.forall_mem_cons]
    exact ⟨fun _ => isDigit_of_mem_zeros, hdigits⟩

end Numerals

/-- Whether a text is all digits. -/
def isDigits (s : String) : Bool := s.toList.all Char.isDigit

/-- A numeral is one token before whatever does not go on with it, unless it has no point and one
comes next. -/
theorem cut_numeral {x : Binary64} (hx : x.IsUnsigned) {rest : List Char} (hrest : Stops rest)
    (ts : List String) :
    cut (x.numeral.toList ++ rest) = x.numeral :: ts ↔
      ¬(isDigits x.numeral = true ∧ rest.head? = some '.') ∧ cut rest = ts := by
  obtain ⟨c, ws, hc, hws, htext⟩ := exists_numeral_eq hx
  have hlayout := isLayout_of_isIdentChar (isIdentChar_of_isDigit hc)
  have hof : ∀ cs, x.numeral.toList = cs → String.ofList cs = x.numeral := by
    rintro _ rfl
    exact String.ofList_toList
  have htail : ∀ cs, tokenTail c cs = numeralTail c cs := fun cs => by rw [tokenTail, if_pos hc]
  rcases htext with htext | ⟨ds, hds, htext⟩
  · have hall : isDigits x.numeral = true := by
      rw [isDigits, htext, List.all_eq_true]
      exact List.forall_mem_cons.2 ⟨hc, hws⟩
    by_cases hpoint : rest.head? = some '.'
    · obtain ⟨rest, rfl⟩ : ∃ r, rest = '.' :: r := by
        cases rest with
        | nil => simp at hpoint
        | cons d r => exact ⟨r, by simpa using hpoint⟩
      have hne := cut_append_ne hlayout (htail _ ▸ lt_numeralTail_point hws rest)
        (List.cons_ne_nil _ _) ts
      rw [hof _ htext, ← htext] at hne
      simp [hall, hne]
    · have hcut := cut_append hlayout ((htail _).trans (numeralTail_digits hws hrest hpoint))
      rw [hof _ htext, ← htext] at hcut
      simp [hcut, hpoint]
  · have hall : isDigits x.numeral = false := by
      rw [isDigits, htext]
      simp [show Char.isDigit '.' = false from rfl]
    have hlength : numeralTail c (ws ++ '.' :: ds ++ rest) = (ws ++ '.' :: ds).length := by
      rw [List.append_assoc, List.cons_append, numeralTail_fraction hws hds hrest,
        List.length_append, List.length_cons]
    have hcut := cut_append hlayout ((htail _).trans hlength)
    rw [hof _ htext, ← htext] at hcut
    simp [hcut, hall]

/-! ### Strings -/

theorem quotedTail_quoteChar (c : Char) (rest : List Char) :
    quotedTail '"' (Text.quoteChar c ++ rest) =
      ((quotedTail '"' rest).1, (quotedTail '"' rest).2 + (Text.quoteChar c).length) := by
  have hhex : ∀ n < 16, Nat.digitChar n ∉ ['\\', '"', '\n'] := by decide
  unfold Text.quoteChar
  split_ifs with h1 h2 h3 h4 h5 h6
  iterate 5 rfl
  · have hplain : ∀ n cs, quotedTail '"' (Nat.digitChar (n % 16) :: cs) =
        ((quotedTail '"' cs).1, (quotedTail '"' cs).2 + 1) := by
      intro n cs
      have hmem := hhex (n % 16) (Nat.mod_lt n (by decide))
      simp only [List.mem_cons, List.not_mem_nil, or_false, not_or] at hmem
      simp [quotedTail_cons hmem.1, hmem.2]
    simp [Text.fourHex, quotedTail, hplain]
  · simp [quotedTail_cons h2, h1, h3]

theorem quotedTail_flatMap (cs rest : List Char) :
    quotedTail '"' (cs.flatMap Text.quoteChar ++ '"' :: rest) =
      (true, (cs.flatMap Text.quoteChar).length + 1) := by
  induction cs with
  | nil => simp [quotedTail_cons]
  | cons c cs ih =>
    rw [List.flatMap_cons, List.append_assoc, quotedTail_quoteChar, ih, List.length_append]
    simp only [Prod.mk.injEq, true_and]
    omega

/-- A string is one token, whatever follows. -/
theorem cut_quote (s : String) (rest : List Char) :
    cut ((Text.quote s).toList ++ rest) = Text.quote s :: cut rest := by
  have htail : tokenTail '"' (s.toList.flatMap Text.quoteChar ++ ['"'] ++ rest) =
      (s.toList.flatMap Text.quoteChar ++ ['"']).length := by
    rw [List.append_assoc, List.singleton_append]
    simp [tokenTail, quotedTail_flatMap, show isIdentChar '"' = false from rfl]
  rw [Text.quote, String.toList_ofList, Text.quoteChars, cut_append rfl htail]

/-! ### Punctuators -/

theorem cut_symbol {s : String} {c : Char} {cs rest : List Char} (hs : s.toList = c :: cs)
    (hc : isLayout c = false) (htail : tokenTail c (cs ++ rest) = cs.length) :
    cut (s.toList ++ rest) = s :: cut rest := by
  rw [hs, cut_append hc htail, ← hs, String.ofList_toList]

/-- The punctuators that nothing goes on with. -/
def closedSymbols : List String :=
  ["(", ")", "[", "]", "\x7b", "\x7d", ",", ";", ":", "~", "...", "++"]

theorem cut_closedSymbol {s : String} (hs : s ∈ closedSymbols) (rest : List Char) :
    cut (s.toList ++ rest) = s :: cut rest := by
  revert s
  simp only [closedSymbols, List.forall_mem_cons, List.not_mem_nil, false_imp_iff, implies_true,
    and_true]
  refine ⟨?_, ?_, ?_, ?_, ?_, ?_, ?_, ?_, ?_, ?_, ?_, ?_⟩ <;> exact cut_symbol rfl rfl rfl

/-- The operators that stand between blanks. -/
def spacedSymbols : List String :=
  ["+", "-", "*", "/", "%", "**", "===", "!==", "<", "<=", ">", ">=", "&&", "||", "=", "+="]

theorem cut_spacedSymbol {s : String} (hs : s ∈ spacedSymbols) (rest : List Char) :
    cut (s.toList ++ ' ' :: rest) = s :: cut (' ' :: rest) ∧ tokensOf s = [s] := by
  revert s
  simp only [spacedSymbols, List.forall_mem_cons, List.not_mem_nil, false_imp_iff, implies_true,
    and_true]
  refine ⟨?_, ?_, ?_, ?_, ?_, ?_, ?_, ?_, ?_, ?_, ?_, ?_, ?_, ?_, ?_, ?_⟩ <;>
    exact ⟨cut_symbol rfl rfl rfl, rfl⟩

theorem cut_point {c : Char} (hc : isNameStart c = true) (cs : List Char) :
    cut (".".toList ++ c :: cs) = "." :: cut (c :: cs) := by
  have hpoint : c ≠ '.' := by
    rintro rfl
    exact absurd hc (by decide)
  have htail : tokenTail '.' ([] ++ c :: cs) = 0 := by
    simp [tokenTail, startsWithDigit, not_isDigit_of_isNameStart hc, punctuatorTail, punctuators,
      hpoint.symm, show isIdentChar '.' = false from rfl]
  exact cut_append rfl htail

/-- An operator before its operand is one token, unless the operand starts with another sign. -/
theorem cut_unaryOp (op : UnaryOp) {c : Char} (hc : c ≠ '=') (hneg : c ≠ '-' ∨ op ≠ .neg)
    (cs : List Char) : cut (op.text.toList ++ c :: cs) = op.text :: cut (c :: cs) := by
  cases op with
  | neg =>
    have hminus : c ≠ '-' := by simpa using hneg
    have htail : tokenTail '-' ([] ++ c :: cs) = 0 := by
      simp [tokenTail, punctuatorTail, punctuators, hc.symm, hminus.symm,
        show isIdentChar '-' = false from rfl]
    exact cut_append rfl htail
  | not =>
    have htail : tokenTail '!' ([] ++ c :: cs) = 0 := by
      simp [tokenTail, punctuatorTail, punctuators, hc.symm,
        show isIdentChar '!' = false from rfl]
    exact cut_append rfl htail
  | bitNot => exact cut_closedSymbol (by simp [closedSymbols, UnaryOp.text]) _

/-! ### Types -/

/-- A text that is one token with blanks beside it, whatever follows. -/
structure Separator (sep tok : String) : Prop where
  stops : ∀ rest, Stops (sep.toList ++ rest)
  cut : ∀ rest, cut (sep.toList ++ rest) = tok :: cut rest

theorem separator_bar : Separator " | " "|" where
  stops rest := stops_cons.2 rfl
  cut rest := by
    have hbar : Target.cut ("|".toList ++ ' ' :: rest) = "|" :: Target.cut (' ' :: rest) :=
      cut_symbol rfl rfl rfl
    exact (cut_layout rfl _).trans (hbar.trans (by rw [cut_layout rfl]))

theorem separator_comma : Separator ", " "," where
  stops rest := stops_cons.2 rfl
  cut rest := by
    have hcomma := cut_closedSymbol (s := ",") (by simp [closedSymbols]) (' ' :: rest)
    exact hcomma.trans (by rw [cut_layout rfl])

mutual

/-- The text of a type is split into its tokens, if no name goes on behind it. -/
theorem cut_ty : ∀ (t : Ty) {rest : List Char}, Stops rest →
    cut (t.text.toList ++ rest) = t.tokens ++ cut rest
  | .number, _, h | .string, _, h | .boolean, _, h | .undefined, _, h | .void, _, h =>
    cut_name (by decide) h
  | .union ts, _, h => cut_tys ts separator_bar h
  | .tuple ts, rest, h => by
    have hopen := cut_closedSymbol (s := "[") (by simp [closedSymbols])
    have hclose := cut_closedSymbol (s := "]") (by simp [closedSymbols])
    have hstops : Stops ("]".toList ++ rest) := stops_cons.2 rfl
    rw [Ty.text, Ty.tokens, String.toList_append, String.toList_append, List.append_assoc,
      List.append_assoc, hopen, cut_tys ts separator_comma hstops, hclose]
    simp

/-- The same for types with separators between them. -/
theorem cut_tys : ∀ (ts : List Ty) {sep tok : String} {rest : List Char}, Separator sep tok →
    Stops rest → cut ((sep.intercalate (Ty.texts ts)).toList ++ rest) =
      [tok].intercalate (Ty.tokensList ts) ++ cut rest
  | [], _, _, _, _, _ => rfl
  | [t], _, _, rest, _, h => by
    rw [Ty.texts, Ty.texts, Ty.tokensList, Ty.tokensList, String.toList_intercalate]
    simpa using cut_ty t h
  | t :: u :: ts, sep, tok, rest, hsep, h => by
    have hrest := cut_tys (u :: ts) hsep h
    rw [Ty.texts, Ty.tokensList] at hrest ⊢
    rw [Ty.texts, Ty.tokensList, String.intercalate_cons_cons, List.intercalate_cons_cons,
      String.toList_append, String.toList_append, List.append_assoc, List.append_assoc,
      cut_ty t (hsep.stops _), hsep.cut, hrest]
    simp

end

/-! ### Printed pieces -/

end Target

/-- The characters of pieces. -/
def Piece.chars (ps : List Piece) : List Char := (Piece.code ps).toList

@[simp] theorem Piece.chars_nil : chars [] = [] := rfl

@[simp] theorem Piece.chars_cons (p : Piece) (ps : List Piece) :
    chars (p :: ps) = p.text.toList ++ chars ps := by
  simp [chars, code, String.toList_join]

@[simp] theorem Piece.chars_append (ps qs : List Piece) :
    chars (ps ++ qs) = chars ps ++ chars qs := by
  simp [chars]

namespace Target

open Piece

/-- Whether a printed text is a single token, or the text of a type. -/
def IsPrinted (s : String) : Prop := tokensOf s = [s] ∨ ∃ t : Ty, s = t.text ∧ tokensOf s = t.tokens

/-- Each of the pieces `ps` that is a token is one token or a type, and before the text `rest` they
are split into these exactly if `P`. -/
structure Splits (ps : List Piece) (rest : List Char) (P : Prop) : Prop where
  isPrinted : ∀ s ∈ Piece.tokens ps, IsPrinted s
  cut_iff : ∀ ts, cut (chars ps ++ rest) = (Piece.tokens ps).flatMap tokensOf ++ ts ↔
    P ∧ cut rest = ts

namespace Splits

variable {p : Piece} {ps qs : List Piece} {rest : List Char} {P Q : Prop} {s : String}

theorem congr (h : Splits ps rest P) (hPQ : P ↔ Q) : Splits ps rest Q :=
  ⟨h.isPrinted, fun ts => (h.cut_iff ts).trans (and_congr_left' hPQ)⟩

theorem nil : Splits [] rest True := ⟨by simp, by simp⟩

theorem append (hps : Splits ps (chars qs ++ rest) P) (hqs : Splits qs rest Q) :
    Splits (ps ++ qs) rest (P ∧ Q) := by
  refine ⟨?_, fun ts => ?_⟩
  · rw [tokens_append, List.forall_mem_append]
    exact ⟨hps.isPrinted, hqs.isPrinted⟩
  · rw [tokens_append, List.flatMap_append, chars_append, List.append_assoc, List.append_assoc,
      hps.cut_iff, hqs.cut_iff, and_assoc]

/-- Blanks part tokens. -/
theorem blank (h : Splits ps rest P) (hp : ∀ s, p ≠ .token s) : Splits (p :: ps) rest P := by
  have htokens : Piece.tokens (p :: ps) = Piece.tokens ps := by
    cases p with
    | token s => exact absurd rfl (hp s)
    | _ => rfl
  have hcut : cut (p.text.toList ++ (chars ps ++ rest)) = cut (chars ps ++ rest) := by
    cases p with
    | token s => exact absurd rfl (hp s)
    | space | newline => exact cut_layout rfl _
    | mark id => rfl
    | indent level =>
      rw [text, String.toList_ofList]
      induction 4 * level with
      | zero => rfl
      | succ n ih => rw [List.replicate_succ, List.cons_append, cut_layout rfl, ih]
  refine ⟨htokens ▸ h.isPrinted, fun ts => ?_⟩
  rw [htokens, chars_cons, List.append_assoc, hcut, h.cut_iff]

theorem space (h : Splits ps rest P) : Splits (.space :: ps) rest P := h.blank nofun

theorem newline (h : Splits ps rest P) : Splits (.newline :: ps) rest P := h.blank nofun

theorem indent (h : Splits ps rest P) (level : Nat) : Splits (.indent level :: ps) rest P :=
  h.blank nofun

theorem mark (h : Splits ps rest P) (id : Nat) : Splits (.mark id :: ps) rest P := h.blank nofun

/-- A token that ends before the text that follows. -/
theorem token (h : Splits ps rest P) (hs : IsPrinted s)
    (hcut : cut (s.toList ++ (chars ps ++ rest)) = tokensOf s ++ cut (chars ps ++ rest)) :
    Splits (.token s :: ps) rest P := by
  refine ⟨?_, fun ts => ?_⟩
  · rw [tokens_token, List.forall_mem_cons]
    exact ⟨hs, h.isPrinted⟩
  · rw [tokens_token, List.flatMap_cons, chars_cons, text, List.append_assoc, List.append_assoc,
      hcut, List.append_cancel_left_eq, h.cut_iff]

theorem closedSymbol (h : Splits ps rest P) (hs : s ∈ closedSymbols) :
    Splits (.token s :: ps) rest P := by
  have hone : tokensOf s = [s] := tokensOf_of_cut (cut_closedSymbol hs [])
  exact h.token (.inl hone) (by rw [cut_closedSymbol hs, hone, List.singleton_append])

theorem spacedSymbol (h : Splits ps rest P) (hs : s ∈ spacedSymbols) :
    Splits (.token s :: .space :: ps) rest P := by
  obtain ⟨hcut, hone⟩ := cut_spacedSymbol hs (chars ps ++ rest)
  refine h.space.token (.inl hone) ?_
  rw [hone, List.singleton_append, chars_cons]
  exact hcut

theorem name (h : Splits ps rest P) (hs : IsName s) (hstops : Stops (chars ps ++ rest)) :
    Splits (.token s :: ps) rest P := by
  have hone : tokensOf s = [s] := tokensOf_of_cut (cut_name hs stops_nil)
  exact h.token (.inl hone) (by rw [cut_name hs hstops, hone, List.singleton_append])

theorem quote (h : Splits ps rest P) : Splits (.token (Text.quote s) :: ps) rest P := by
  have hone : tokensOf (Text.quote s) = [Text.quote s] := tokensOf_of_cut (cut_quote s [])
  exact h.token (.inl hone) (by rw [cut_quote, hone, List.singleton_append])

theorem ty (h : Splits ps rest P) (t : Ty) (hstops : Stops (chars ps ++ rest)) :
    Splits (.token t.text :: ps) rest P := by
  have hone : tokensOf t.text = t.tokens := tokensOf_of_cut (cut_ty t stops_nil)
  exact h.token (.inr ⟨t, rfl, hone⟩) (by rw [cut_ty t hstops, hone])

/-- A numeral without a point is no token before a point. -/
theorem numeral {x : Binary64} (hx : x.IsUnsigned) (hstops : Stops rest) :
    Splits [.token x.numeral] rest ¬(isDigits x.numeral = true ∧ rest.head? = some '.') := by
  have hone : tokensOf x.numeral = [x.numeral] :=
    tokensOf_of_cut ((cut_numeral hx stops_nil _).2 ⟨by simp, rfl⟩)
  refine ⟨by simpa using .inl hone, fun ts => ?_⟩
  simp only [chars_cons, chars_nil, List.append_nil, text, tokens_token, tokens_nil,
    List.flatMap_cons, List.flatMap_nil, hone, List.singleton_append]
  exact cut_numeral hx hstops ts

/-- Pieces before others that are always split as printed. -/
theorem before (hps : Splits ps (chars qs ++ rest) P) (hqs : Splits qs rest True) :
    Splits (ps ++ qs) rest P := (hps.append hqs).congr (iff_of_eq (and_true P))

/-- Pieces that are always split as printed before others. -/
theorem behind (hqs : Splits qs rest Q) (hps : Splits ps (chars qs ++ rest) True) :
    Splits (ps ++ qs) rest Q := (hps.append hqs).congr (iff_of_eq (true_and Q))

theorem point (h : Splits (.token s :: ps) rest P) (hs : IsName s) :
    Splits (.token "." :: .token s :: ps) rest P := by
  obtain ⟨c, cs, htext, hc, -⟩ := hs
  have hone : tokensOf "." = ["."] := rfl
  refine h.token (.inl hone) ?_
  rw [hone, List.singleton_append, chars_cons, text, htext, List.cons_append, List.cons_append]
  exact cut_point hc _

/-- No pieces at all are split as printed, so what this asks for holds. -/
theorem of_nil (h : Splits [] rest P) : P := ((h.cut_iff (cut rest)).1 rfl).1

end Splits

/-! ### Ends of expressions -/

/-- Nothing that comes here goes on with the last token of an expression. -/
def Closes (rest : List Char) : Prop := Stops rest ∧ rest.head? ≠ some '.'

section Closes

variable {ps qs : List Piece} {rest : List Char} {P Q : Prop}

theorem closes_cons {c : Char} : Closes (c :: rest) ↔ isIdentChar c = false ∧ c ≠ '.' := by
  simp [Closes, stops_cons]

theorem closes_space : Closes (chars (space :: ps) ++ rest) := by
  rw [chars_cons]
  exact closes_cons.2 ⟨rfl, by decide⟩

theorem closes_token {s : String}
    (hs : s.toList.head?.any (fun c => !isIdentChar c && c != '.') = true) :
    Closes (chars (.token s :: ps) ++ rest) := by
  rw [chars_cons, text]
  cases hcs : s.toList with
  | nil => simp [hcs] at hs
  | cons c cs =>
    rw [hcs] at hs
    exact closes_cons.2 (by simpa using hs)

namespace Splits

/-- Pieces that close before those that follow. -/
theorem follows (hqs : Splits qs rest Q) (hcloses : Closes (chars qs ++ rest))
    (hps : ∀ rest, Closes rest → Splits ps rest P) : Splits (ps ++ qs) rest (P ∧ Q) :=
  (hps _ hcloses).append hqs

/-- Pieces that close before a bracket. -/
theorem closed {s : String} (hps : ∀ rest, Closes rest → Splits ps rest P)
    (hs : s ∈ ["(", ")", "[", "]", "\x7d", ",", ";", "++"]) : Splits (ps ++ [.token s]) rest P := by
  have hsymbol : s ∈ closedSymbols := by
    revert s
    decide
  have hcloses : s.toList.head?.any (fun c => !isIdentChar c && c != '.') = true := by
    revert s
    decide
  have hclose : Splits [.token s] rest True := nil.closedSymbol hsymbol
  exact (hclose.follows (closes_token hcloses) hps).congr (iff_of_eq (and_true P))

theorem parens (hps : ∀ rest, Closes rest → Splits ps rest P) :
    Splits (Piece.parens ps) rest P := (closed hps (by decide)).closedSymbol (by decide)

theorem brackets (hps : ∀ rest, Closes rest → Splits ps rest P) :
    Splits (Piece.brackets ps) rest P := (closed hps (by decide)).closedSymbol (by decide)

/-- The items of a list are split one by one. -/
theorem commaSeparated_cons {item : List Piece} {items : List (List Piece)}
    (hitem : ∀ rest, Closes rest → Splits item rest P)
    (hitems : Splits (commaSeparated items) rest Q) (hrest : Closes rest) :
    Splits (commaSeparated (item :: items)) rest (P ∧ Q) := by
  cases items with
  | nil => exact (hitem rest hrest).congr (and_iff_left hitems.of_nil).symm
  | cons next items =>
    have hcomma : Splits (.token "," :: .space :: commaSeparated (next :: items)) rest Q :=
      hitems.space.closedSymbol (by decide)
    exact hcomma.follows (closes_token rfl) hitem

/-- So are they if each is split as printed. -/
theorem commaSeparated_of_forall {items : List (List Piece)}
    (hitems : ∀ item ∈ items, ∀ rest, Closes rest → Splits item rest True) (hrest : Closes rest) :
    Splits (commaSeparated items) rest True := by
  induction items with
  | nil => exact nil
  | cons item items ih =>
    rw [List.forall_mem_cons] at hitems
    exact (commaSeparated_cons hitems.1 (ih hitems.2) hrest).congr (by simp)

end Splits

end Closes

end Target

end LuaTranspiler
