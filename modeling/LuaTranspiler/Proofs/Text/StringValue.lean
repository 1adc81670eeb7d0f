import LuaTranspiler.Proofs.Text.Literal
import Mathlib.Logic.Function.Basic

/-!
# The value of a double-quoted string literal

By the rules of ECMAScript a string literal stands for a sequence of UTF-16 code units. The text
between its quotes is made of elements: characters that stand for themselves, escapes and line
continuations. The grammar of elements is given in full, so that a literal has all the readings that
the rules allow; what is written for a string turns out to have one only.

* `codeUnits`, `utf16`: the code units of a code point, and of characters
* `Element rest text units`: an element with its code units, before the text `rest`
* `StringLiteral text units`: a literal and the code units that it can stand for
* `Settled`: a text behind which a character is not escaped
* `quote_stands_for`: the literal of a string stands for that string and for nothing else
-/

namespace LuaTranspiler.Text

/-! ### Code units -/

/-- The UTF-16 code units of a code point: two surrogates for one above the first plane. -/
def codeUnits (n : Nat) : List Nat :=
  if n < 0x10000 then [n]
  else [0xD800 + (n - 0x10000) / 0x400, 0xDC00 + (n - 0x10000) % 0x400]

/-- The UTF-16 code units of characters. -/
def utf16 (cs : List Char) : List Nat := cs.flatMap fun c => codeUnits c.toNat

theorem utf16_cons (c : Char) (cs : List Char) : utf16 (c :: cs) = codeUnits c.toNat ++ utf16 cs :=
  List.flatMap_cons

/-- A character is found at the head of its code units. No character is a surrogate, so a unit that
stands for one by itself is not the first of two. -/
theorem codeUnits_append_inj {c d : Char} {us vs : List Nat}
    (h : codeUnits c.toNat ++ us = codeUnits d.toNat ++ vs) : c = d ∧ us = vs := by
  have hc : c.toNat < 0xD800 ∨ 0xDFFF < c.toNat ∧ c.toNat < 0x110000 := c.valid
  have hd : d.toNat < 0xD800 ∨ 0xDFFF < d.toNat ∧ d.toNat < 0x110000 := d.valid
  have heq : c.toNat = d.toNat ∧ us = vs := by
    unfold codeUnits at h
    split_ifs at h
    · simpa using h
    · simp at h
      omega
    · simp at h
      omega
    · simp only [List.cons_append, List.nil_append, List.cons.injEq] at h
      obtain ⟨hhigh, hlow, hrest⟩ := h
      exact ⟨by omega, hrest⟩
  exact ⟨Char.toNat_inj.1 heq.1, heq.2⟩

theorem codeUnits_ne_nil (n : Nat) : codeUnits n ≠ [] := by
  unfold codeUnits
  split <;> exact List.cons_ne_nil _ _

/-- Different texts have different code units. -/
theorem utf16_injective : Function.Injective utf16 := by
  intro cs ds h
  induction cs generalizing ds with
  | nil =>
    cases ds with
    | nil => rfl
    | cons d ds =>
      rw [utf16_cons] at h
      exact absurd (List.append_eq_nil_iff.1 h.symm).1 (codeUnits_ne_nil _)
  | cons c cs ih =>
    cases ds with
    | nil =>
      rw [utf16_cons] at h
      exact absurd (List.append_eq_nil_iff.1 h).1 (codeUnits_ne_nil _)
    | cons d ds =>
      rw [utf16_cons, utf16_cons] at h
      obtain ⟨rfl, hrest⟩ := codeUnits_append_inj h
      rw [ih hrest]

/-! ### The grammar of literals -/

/-- The letters that a single character is written with behind a backslash. -/
def singleEscapes : List (Char × Char) :=
  [('b', '\x08'), ('t', '\t'), ('n', '\n'), ('v', '\x0b'), ('f', '\x0c'), ('r', '\r'), ('"', '"'),
    ('\'', '\''), ('\\', '\\')]

/-- The characters that end a line. -/
def lineTerminators : List Char := ['\n', '\r', '\u2028', '\u2029']

/-- Whether a character stands for itself behind a backslash: it is neither the letter of an escape
nor a digit, and it does not end a line. -/
def IsPlainEscape (c : Char) : Prop :=
  c ∉ singleEscapes.map Prod.fst ∧ c ≠ 'x' ∧ c ≠ 'u' ∧ c.isDigit = false ∧ c ∉ lineTerminators

/-- An element of a double-quoted literal that stands before the text `rest`, and the code units
that it stands for. -/
inductive Element (rest : List Char) : List Char → List Nat → Prop
  /-- A character that stands for itself. Of the ends of lines, the two outside ASCII may. -/
  | plain {c : Char} : c ≠ '"' → c ≠ '\\' → c ≠ '\n' → c ≠ '\r' →
      Element rest [c] (codeUnits c.toNat)
  | single {e c : Char} : (e, c) ∈ singleEscapes → Element rest ['\\', e] (codeUnits c.toNat)
  | plainEscape {c : Char} : IsPlainEscape c → Element rest ['\\', c] (codeUnits c.toNat)
  /-- Zero, which no digit may follow. -/
  | null : (∀ c ∈ rest.head?, c.isDigit = false) → Element rest ['\\', '0'] [0]
  | byte {a b : Char} : [a, b].all isHexDigit → Element rest ['\\', 'x', a, b] [ofDigits 16 [a, b]]
  | unit {a b c d : Char} : [a, b, c, d].all isHexDigit →
      Element rest ['\\', 'u', a, b, c, d] [ofDigits 16 [a, b, c, d]]
  | point {ds : List Char} : ds ≠ [] → ds.all isHexDigit → ofDigits 16 ds ≤ 0x10FFFF →
      Element rest (['\\', 'u', '\x7b'] ++ ds ++ ['\x7d']) (codeUnits (ofDigits 16 ds))
  /-- A line continuation stands for nothing. A carriage return takes a newline with it. -/
  | continuation {c : Char} : c ∈ lineTerminators → (c = '\r' → rest.head? ≠ some '\n') →
      Element rest ['\\', c] []
  | continuationPair : Element rest ['\\', '\r', '\n'] []

/-- Elements in a row, and the code units that they stand for. -/
inductive Elements : List Char → List Nat → Prop
  | nil : Elements [] []
  | cons {text rest : List Char} {us vs : List Nat} :
      Element rest text us → Elements rest vs → Elements (text ++ rest) (us ++ vs)

/-- A text is a double-quoted literal, and stands for some code units. -/
def StringLiteral (text : List Char) (units : List Nat) : Prop :=
  ∃ body, text = '"' :: (body ++ ['"']) ∧ Elements body units

/-! ### A literal has one reading -/

/-- The tail and the code units of an escape with the letter `e` behind its backslash, where one
stands at the head of a text. -/
def leadingEscape (e : Char) (cs : List Char) : List Char × List Nat :=
  if e = 'x' then (cs.take 2, [ofDigits 16 (cs.take 2)])
  else if e = 'u' then
    if cs.head? = some '\x7b' then
      let ds := cs.tail.takeWhile isHexDigit
      ('\x7b' :: (ds ++ ['\x7d']), codeUnits (ofDigits 16 ds))
    else (cs.take 4, [ofDigits 16 (cs.take 4)])
  else if e = '0' then ([], [0])
  else if e = '\r' ∧ cs.head? = some '\n' then (['\n'], [])
  else if e ∈ lineTerminators then ([], [])
  else ([], codeUnits ((singleEscapes.lookup e).getD e).toNat)

/-- The element at the head of a text, where there is one. -/
def leading : List Char → List Char × List Nat
  | '\\' :: e :: cs => ('\\' :: e :: (leadingEscape e cs).1, (leadingEscape e cs).2)
  | c :: _ => ([c], codeUnits c.toNat)
  | [] => ([], [])

theorem lookup_singleEscapes {e c : Char} (h : (e, c) ∈ singleEscapes) :
    singleEscapes.lookup e = some c ∧ e ∉ ['x', 'u', '0'] ∧ e ∉ lineTerminators := by
  have hall : (singleEscapes.all fun x => singleEscapes.lookup x.1 = some x.2 ∧
      x.1 ∉ ['x', 'u', '0'] ∧ x.1 ∉ lineTerminators) = true := by decide
  exact of_decide_eq_true (List.all_eq_true.1 hall _ h)

/-- Behind a backslash, a letter of no other escape stands for one character. -/
theorem leadingEscape_of_letter {e c : Char} (hletter : e ∉ ['x', 'u', '0'])
    (hline : e ∉ lineTerminators) (hc : (singleEscapes.lookup e).getD e = c) (cs : List Char) :
    leadingEscape e cs = ([], codeUnits c.toNat) := by
  simp only [List.mem_cons, List.not_mem_nil, or_false, not_or] at hletter
  obtain ⟨hx, hu, hzero⟩ := hletter
  have hreturn : e ≠ '\r' := fun h => hline (by simp [h, lineTerminators])
  simp [leadingEscape, hx, hu, hzero, hreturn, hline, hc]

/-- A line continuation is not read as another escape. -/
theorem leadingEscape_of_line {c : Char} (hc : c ∈ lineTerminators) {cs : List Char}
    (hpair : c = '\r' → cs.head? ≠ some '\n') : leadingEscape c cs = ([], []) := by
  have hletter : c ≠ 'x' ∧ c ≠ 'u' ∧ c ≠ '0' := by
    refine ⟨?_, ?_, ?_⟩ <;> rintro rfl <;> revert hc <;> decide
  simp [leadingEscape, hletter, hc, mt (And.imp_left hpair) (fun h => h.1 h.2)]

theorem singleEscapes_lookup_eq_none {c : Char} (h : c ∉ singleEscapes.map Prod.fst) :
    singleEscapes.lookup c = none := by
  refine List.lookup_eq_none_iff.2 fun x hx => bne_iff_ne.2 fun heq => ?_
  exact h (heq ▸ List.mem_map_of_mem hx)

/-- An element is what it is at the head of any text. -/
theorem Element.leading_append {rest text : List Char} {us : List Nat} (h : Element rest text us) :
    leading (text ++ rest) = (text, us) := by
  cases h with
  | plain _ hc _ _ => simp [leading, hc]
  | single h =>
    obtain ⟨hlookup, hletter, hline⟩ := lookup_singleEscapes h
    simp [leading, leadingEscape_of_letter hletter hline (by rw [hlookup, Option.getD_some])]
  | @plainEscape c h =>
    obtain ⟨hsingle, hx, hu, hdigit, hline⟩ := h
    have hzero : c ≠ '0' := by
      rintro rfl
      simp at hdigit
    have hlookup : (singleEscapes.lookup c).getD c = c := by
      rw [singleEscapes_lookup_eq_none hsingle, Option.getD_none]
    simp [leading, leadingEscape_of_letter (by simp [hx, hu, hzero]) hline hlookup]
  | null h => simp [leading, leadingEscape]
  | byte h => simp [leading, leadingEscape]
  | @unit a b c d h =>
    have ha : a ≠ '\x7b' := by
      rintro rfl
      simp [isHexDigit] at h
    simp [leading, leadingEscape, ha]
  | point hne hds hle =>
    have hbrace : isHexDigit '\x7d' = false := by decide
    simp [leading, leadingEscape, List.takeWhile_append_of_pos (List.all_eq_true.1 hds), hbrace]
  | continuation hc hpair => simp [leading, leadingEscape_of_line hc hpair]
  | continuationPair => simp [leading, leadingEscape]

theorem Element.ne_nil {rest text : List Char} {us : List Nat} (h : Element rest text us) :
    text ≠ [] := by
  cases h <;> simp

/-- Two elements at the head of one text are the same. -/
theorem Element.unique {rest rest' text text' : List Char} {us us' : List Nat}
    (h : Element rest text us) (h' : Element rest' text' us')
    (heq : text ++ rest = text' ++ rest') : text = text' ∧ us = us' ∧ rest = rest' := by
  obtain ⟨rfl, rfl⟩ : text = text' ∧ us = us' := by
    rw [← Prod.mk.injEq, ← h.leading_append, ← h'.leading_append, heq]
  exact ⟨rfl, rfl, List.append_cancel_left heq⟩

/-- A text stands for one sequence of code units at most. -/
theorem Elements.unique {body : List Char} {us vs : List Nat} (h : Elements body us)
    (h' : Elements body vs) : us = vs := by
  induction h generalizing vs with
  | nil =>
    generalize hbody : ([] : List Char) = body at h'
    cases h' with
    | nil => rfl
    | cons hx _ => exact absurd (List.append_eq_nil_iff.1 hbody.symm).1 hx.ne_nil
  | @cons text rest us ws hx hrest ih =>
    generalize hbody : text ++ rest = body at h'
    cases h' with
    | nil => exact absurd (List.append_eq_nil_iff.1 hbody).1 hx.ne_nil
    | cons hx' hrest' =>
      obtain ⟨-, rfl, rfl⟩ := hx.unique hx' hbody
      rw [ih hrest']

/-! ### What is written for a character -/

/-- What is written for a character is an element that stands for it. -/
theorem element_quoteChar (c : Char) (rest : List Char) :
    Element rest (quoteChar c) (codeUnits c.toNat) := by
  unfold quoteChar
  split_ifs with h1 h2 h3 h4 h5 h6
  · exact .single (by simp [h1, singleEscapes])
  · exact .single (by simp [h2, singleEscapes])
  · exact .single (by simp [h3, singleEscapes])
  · exact .single (by simp [h4, singleEscapes])
  · exact .single (by simp [h5, singleEscapes])
  · have hlt := toNat_lt_of_isControl h6
    obtain ⟨hhex, hvalue⟩ := ofDigits_fourHex c.toNat hlt
    have hunits : codeUnits c.toNat = [ofDigits 16 (fourHex c.toNat)] := by
      rw [hvalue, codeUnits, if_pos (by omega)]
    rw [hunits]
    exact .unit hhex
  · exact .plain h1 h2 h3 h4

/-- What is written for characters stands for them. -/
theorem elements_flatMap_quoteChar (cs : List Char) :
    Elements (cs.flatMap quoteChar) (utf16 cs) := by
  induction cs with
  | nil => exact .nil
  | cons c cs ih =>
    rw [List.flatMap_cons, utf16_cons]
    exact .cons (element_quoteChar c _) ih

/-- The literal that is written for characters has one reading. -/
theorem stringLiteral_quoteChars {cs : List Char} {units : List Nat} :
    StringLiteral (quoteChars cs) units ↔ units = utf16 cs := by
  constructor
  · rintro ⟨body, hbody, helements⟩
    obtain rfl : cs.flatMap quoteChar = body :=
      List.append_cancel_right (List.cons.inj hbody).2
    exact helements.unique (elements_flatMap_quoteChar cs)
  · rintro rfl
    exact ⟨_, rfl, elements_flatMap_quoteChar cs⟩

/-! ### The characters of a literal -/

/-- The digits of a control character are neither control characters nor double quotes nor
backslashes. -/
theorem fourHex_spec {c d : Char} (hc : isControl c = true) (hd : d ∈ fourHex c.toNat) :
    isControl d = false ∧ d ≠ '"' ∧ d ≠ '\\' := by
  have hall : ∀ n < 160, ((fourHex n).all fun d =>
      isControl d = false ∧ d ≠ '"' ∧ d ≠ '\\') = true := by
    decide +kernel
  exact of_decide_eq_true (List.all_eq_true.1 (hall _ (toNat_lt_of_isControl hc)) d hd)

/-- What is written for a character has no control character in it. -/
theorem all_quoteChar (c : Char) : ((quoteChar c).all fun d => !isControl d) = true := by
  unfold quoteChar
  split_ifs with h1 h2 h3 h4 h5 h6
  · rfl
  · rfl
  · rfl
  · rfl
  · rfl
  · refine List.all_eq_true.2 ?_
    rintro d (_ | ⟨_, _ | ⟨_, hd⟩⟩)
    · rfl
    · rfl
    · simp [(fourHex_spec h6 hd).1]
  · simpa using h6

theorem all_quoteChars (cs : List Char) : ((quoteChars cs).all fun d => !isControl d) = true := by
  have hquote : isControl '"' = false := rfl
  have hbody : ((cs.flatMap quoteChar).all fun d => !isControl d) = true := by
    rw [List.all_flatMap]
    exact List.all_eq_true.2 fun c _ => all_quoteChar c
  simp only [quoteChars, List.all_cons, List.all_append, List.all_nil, hquote, hbody,
    Bool.not_false, Bool.and_self]

/-- What is written for a character: an escaped double quote, an escaped backslash, or characters
without a double quote, the last of which is no backslash. -/
theorem quoteChar_cases (c : Char) : quoteChar c = ['\\', '"'] ∨ quoteChar c = ['\\', '\\'] ∨
    ∃ cs d, quoteChar c = cs ++ [d] ∧ '"' ∉ cs ++ [d] ∧ d ≠ '\\' := by
  unfold quoteChar
  split_ifs with h1 h2 h3 h4 h5 h6
  · exact .inl rfl
  · exact .inr (.inl rfl)
  · exact .inr (.inr ⟨['\\'], 'n', rfl, by decide, by decide⟩)
  · exact .inr (.inr ⟨['\\'], 'r', rfl, by decide, by decide⟩)
  · exact .inr (.inr ⟨['\\'], 't', rfl, by decide, by decide⟩)
  · have hquote : '"' ∉ '\\' :: 'u' :: fourHex c.toNat := by
      rintro (_ | ⟨_, _ | ⟨_, hd⟩⟩)
      exact (fourHex_spec h6 hd).2.1 rfl
    refine .inr (.inr ⟨_ :: _ :: (fourHex c.toNat).take 3, _, rfl, hquote, ?_⟩)
    exact (fourHex_spec h6 (by simp [fourHex])).2.2
  · exact .inr (.inr ⟨[], c, rfl, by simpa using Ne.symm h1, h2⟩)

/-- A text ends with an even number of backslashes, so that they pair up and none of them escapes
what comes next. -/
def Settled (cs : List Char) : Prop := runLength (· = '\\') cs.reverse % 2 = 0

theorem settled_append_backslash {cs : List Char} : Settled (cs ++ ['\\']) ↔ ¬Settled cs := by
  simp [Settled, runLength]
  omega

theorem settled_append_of_ne {c : Char} (hc : c ≠ '\\') (cs : List Char) : Settled (cs ++ [c]) := by
  simp [Settled, runLength, hc]

theorem settled_quoteChar {before : List Char} (h : Settled before) (c : Char) :
    Settled (before ++ quoteChar c) := by
  obtain heq | heq | ⟨cs, d, heq, -, hd⟩ := quoteChar_cases c
  · rw [heq, List.append_cons]
    exact settled_append_of_ne (by decide) _
  · rw [heq, List.append_cons, settled_append_backslash, settled_append_backslash]
    exact not_not_intro h
  · rw [heq, ← List.append_assoc]
    exact settled_append_of_ne hd _

theorem settled_flatMap {before : List Char} (h : Settled before) (cs : List Char) :
    Settled (before ++ cs.flatMap quoteChar) := by
  induction cs generalizing before with
  | nil => simpa using h
  | cons c cs ih =>
    rw [List.flatMap_cons, ← List.append_assoc]
    exact ih (settled_quoteChar h c)

/-- A double quote that is written for a character is escaped. -/
theorem not_settled_of_quoteChar {before inner behind : List Char} {c : Char}
    (h : Settled before) (heq : quoteChar c = inner ++ '"' :: behind) :
    ¬Settled (before ++ inner) := by
  have hmem : '"' ∈ quoteChar c := by simp [heq]
  obtain hc | hc | ⟨cs, d, hc, hquote, -⟩ := quoteChar_cases c
  · have hinner : inner = ['\\'] := by
      rw [hc] at heq
      cases inner with
      | nil => simp at heq
      | cons a inner =>
        obtain ⟨rfl, hrest⟩ := List.cons.inj heq
        cases inner with
        | nil => rfl
        | cons b inner => simp at hrest
    rw [hinner, settled_append_backslash]
    exact not_not_intro h
  · simp [hc] at hmem
  · exact absurd (hc ▸ hmem) hquote

/-- In what is written for characters, all double quotes are escaped. -/
theorem not_settled_of_flatMap {before inner behind cs : List Char} (h : Settled before)
    (heq : cs.flatMap quoteChar = inner ++ '"' :: behind) : ¬Settled (before ++ inner) := by
  induction cs generalizing before inner with
  | nil => simp at heq
  | cons c cs ih =>
    rw [List.flatMap_cons] at heq
    -- the quote is in what is written for the first character, or behind it
    rcases List.append_eq_append_iff.1 heq with ⟨inner', rfl, hrest⟩ | ⟨behind', hfirst, hrest⟩
    · rw [← List.append_assoc]
      exact ih (settled_quoteChar h c) hrest
    · cases behind' with
      | nil =>
        rw [List.append_nil] at hfirst
        have hsettled : ¬Settled (before ++ quoteChar c ++ []) :=
          ih (settled_quoteChar h c) hrest.symm
        simpa [hfirst] using hsettled
      | cons d behind' =>
        obtain ⟨rfl, -⟩ := List.cons.inj hrest
        exact not_settled_of_quoteChar h hfirst

/-- A double quote of a literal is not escaped exactly if it is the first or the last character. -/
theorem settled_iff_of_quoteChars {cs before behind : List Char}
    (h : quoteChars cs = before ++ '"' :: behind) :
    Settled before ↔ before = [] ∨ behind = [] := by
  have hopening : Settled ['"'] := settled_append_of_ne (by decide) []
  cases before with
  | nil => simp [Settled, runLength]
  | cons a before =>
    obtain ⟨rfl, hrest⟩ := List.cons.inj h
    rcases List.append_eq_append_iff.1 hrest with ⟨inner, rfl, hlast⟩ | ⟨inner, hbody, hlast⟩
    · have hend : inner = [] ∧ behind = [] := by
        cases inner with
        | nil => simpa using hlast
        | cons b inner => simp at hlast
      simpa [hend] using settled_flatMap hopening cs
    · cases inner with
      | nil =>
        obtain rfl : behind = [] := by simpa using hlast
        rw [List.append_nil] at hbody
        simpa [hbody] using settled_flatMap hopening cs
      | cons b inner =>
        obtain ⟨rfl, rfl⟩ := List.cons.inj hlast
        simpa using not_settled_of_flatMap hopening hbody

/-- **The literal of a string stands for that string and for nothing else.** Its first and its last
character are the only double quotes that are not escaped, there is no control character in it, and
by the rules of ECMAScript it stands for the code units of the string. -/
theorem quote_stands_for (s : String) :
    (∀ before behind, (quote s).toList = before ++ '"' :: behind →
        (Settled before ↔ before = [] ∨ behind = [])) ∧
      (∀ c ∈ (quote s).toList, isControl c = false) ∧
      (∀ units, StringLiteral (quote s).toList units ↔ units = utf16 s.toList) ∧
      (∀ t : String, StringLiteral (quote s).toList (utf16 t.toList) ↔ t = s) ∧
      ∀ t : String, quote t = quote s → t = s := by
  have htext : (quote s).toList = quoteChars s.toList := String.toList_ofList
  rw [htext]
  have hvalue : ∀ t : String, StringLiteral (quoteChars s.toList) (utf16 t.toList) ↔ t = s :=
    fun t => by rw [stringLiteral_quoteChars, utf16_injective.eq_iff, String.toList_inj]
  refine ⟨fun before behind => settled_iff_of_quoteChars, ?_, fun units => stringLiteral_quoteChars,
    hvalue, fun t heq => ?_⟩
  · exact fun c hc => by simpa using List.all_eq_true.1 (all_quoteChars s.toList) c hc
  · rw [← hvalue, ← htext, ← heq, quote, String.toList_ofList, stringLiteral_quoteChars]

/-- A quote before a backslash, control characters of one digit and of two, the first before a
letter that could be a digit, and a character with two code units. -/
theorem quote_stands_for_mixed :
    quote "\"\\\x01f\u0085😀" = "\"\\\"\\\\\\u0001f\\u0085😀\"" ∧
      ∀ units, StringLiteral "\"\\\"\\\\\\u0001f\\u0085😀\"".toList units ↔
        units = [34, 92, 1, 102, 0x85, 0xD83D, 0xDE00] := by
  have htext : quote "\"\\\x01f\u0085😀" = "\"\\\"\\\\\\u0001f\\u0085😀\"" := by decide +kernel
  have hunits : utf16 "\"\\\x01f\u0085😀".toList = [34, 92, 1, 102, 0x85, 0xD83D, 0xDE00] := by
    decide +kernel
  refine ⟨htext, ?_⟩
  rw [← htext, ← hunits]
  exact (quote_stands_for _).2.2.1

end LuaTranspiler.Text
