import LuaTranspiler.Proofs.Token.Content
import LuaTranspiler.Proofs.Token.Escapes

/-!
# Quoted strings, from text to value

A quoted string is cut out of its text by its quotes, with no regard to what its escapes mean; only
then they are decoded. Here both are put together.

* `exists_body_of_tokens`: string tokens are texts between quotes
* `QuotedUnit.Inert`: the units that leave a string open
* `exists_token_of_reads`: the units that are one string token, and what that stands for
* `QuotedUnit.ProperText`: the insides of strings without malformed escapes
* `QuotedUnit.ofChar`: every character has a unit
-/

namespace LuaTranspiler

open QuotedUnit

variable {quote c : Char} {cs rest : List Char} {n : Nat}

/-! ### The text of a string token -/

theorem wordKind_ne_string (s : String) : wordKind s ≠ .string := by
  rcases wordKind_cases s with hname | hkeyword
  · simp [hname]
  · have hall : ∀ x ∈ keywordTable, x.2 ≠ TokenKind.string := by decide
    exact hall _ hkeyword

/-- Only a quote starts a string token, and the string is closed. -/
theorem quotedTail_of_munch (h : munch c cs = .token .string n) :
    (c = '"' ∨ c = '\'') ∧ quotedTail c cs = (true, n) := by
  obtain ⟨-, hkind, -⟩ | ⟨hquote, -, htail⟩ | hkind | hkind := munch_cases h
  · exact absurd hkind.symm (wordKind_ne_string _)
  · exact ⟨hquote, htail⟩
  · exact absurd hkind (by decide)
  · exact absurd hkind (by decide)

/-- A closed string ends with its quote. -/
theorem exists_of_quotedTail (h : quotedTail quote cs = (true, n)) :
    ∃ body, cs.take n = body ++ [quote] := by
  fun_induction quotedTail quote cs generalizing n with
  | case1 => exact absurd h (by simp)
  | case2 => exact absurd h (by simp)
  | case3 d cs closed m hm ih =>
    obtain ⟨rfl, rfl⟩ := Prod.mk.inj h
    obtain ⟨body, hbody⟩ := ih hm
    exact ⟨'\\' :: d :: body, by simp [hbody]⟩
  | case4 =>
    obtain ⟨-, rfl⟩ := Prod.mk.inj h
    exact ⟨[], rfl⟩
  | case5 => exact absurd h (by simp)
  | case6 c cs hlone hpair hc hline closed m hm ih =>
    obtain ⟨rfl, rfl⟩ := Prod.mk.inj h
    obtain ⟨body, hbody⟩ := ih hm
    exact ⟨c :: body, by simp [hbody]⟩

/-- A string token is a text between two quotes. -/
theorem exists_body_of_tokens {s : String} {ts : List Token} (h : tokens s = .ok ts) {t : Token}
    (ht : t ∈ ts) (hkind : t.kind = .string) :
    ∃ quote body, (quote = '"' ∨ quote = '\'') ∧ t.literal.toList = quote :: (body ++ [quote]) := by
  have halone := standsAlone_of_tokensFrom h ht (by simp [hkind])
  rw [hkind] at halone
  obtain ⟨quote, cs, htext, -, hmunch⟩ := halone
  have hmunch := hmunch [] (by simp [Breaks])
  rw [List.append_nil] at hmunch
  obtain ⟨hquote, htail⟩ := quotedTail_of_munch hmunch
  obtain ⟨body, hbody⟩ := exists_of_quotedTail htail
  rw [List.take_length] at hbody
  exact ⟨quote, body, hquote, by rw [htext, hbody]⟩

theorem quoted?_of_literal {t : Token} {quote : Char} {body : List Char}
    (h : t.literal.toList = quote :: (body ++ [quote])) :
    t.quoted? = (unescape? body).map String.ofList := by
  have hinside : inside 1 (quote :: (body ++ [quote])) = body := by simp [inside]
  rw [Token.quoted?, h, hinside]

/-! ### Units that stay inside a string -/

/-- Characters that are nothing special inside a string. -/
def Quiet (quote : Char) (cs : List Char) : Prop := ∀ c ∈ cs, c ≠ quote ∧ c ≠ '\n' ∧ c ≠ '\\'

theorem quiet_of_forall {p : Char → Bool} (hquote : p quote = false) (hline : p '\n' = false)
    (hescape : p '\\' = false) (hcs : ∀ c ∈ cs, p c = true) : Quiet quote cs := by
  intro c hc
  have hp := hcs c hc
  refine ⟨?_, ?_, ?_⟩ <;> (rintro rfl; simp_all)

theorem Quiet.quotedTail (hcs : Quiet quote cs) (rest : List Char) :
    quotedTail quote (cs ++ rest) =
      ((quotedTail quote rest).1, (quotedTail quote rest).2 + cs.length) := by
  induction cs with
  | nil => rfl
  | cons c cs ih =>
    obtain ⟨⟨hquote, hline, hescape⟩, hcs⟩ := List.forall_mem_cons.1 hcs
    rw [List.cons_append, quotedTail_cons hescape, if_neg hquote, if_neg hline, ih hcs]
    simp [Nat.add_assoc]

/-- Whether a unit leaves a string open: it is neither the quote nor a newline, and no gap goes over
the end of a line. -/
def QuotedUnit.Inert (quote : Char) : QuotedUnit → Prop
  | plain c => c ≠ quote ∧ c ≠ '\n'
  | gap blanks => '\n' ∉ blanks
  | letter .. | byte .. | scalar .. | decimal _ => True

/-- The characters of numeric escapes. -/
def isEscapeChar (c : Char) : Bool := isHexDigit c || c = '+' || c = '\x7b' || c = '\x7d'

namespace QuotedUnit

variable {u : QuotedUnit} {us : List QuotedUnit} {tail : List Char}

theorem isEscapeChar_of_isHex {signed : Bool} {digits : List Char} (h : IsHex digits) :
    ∀ c ∈ sign signed ++ digits, isEscapeChar c = true := by
  rw [List.forall_mem_append]
  refine ⟨?_, fun c hc => by simp [isEscapeChar, h.2 c hc]⟩
  cases signed <;> simp [sign, isEscapeChar]

/-- An accepted unit that leaves a string open is quiet behind its backslash and the character
that follows it. -/
theorem Accepted.quiet (hquote : quote = '"' ∨ quote = '\'') (h : u.Accepted rest)
    (hinert : u.Inert quote) (htext : u.text = '\\' :: c :: tail) : Quiet quote tail := by
  have hnumeric : (∀ c ∈ tail, isEscapeChar c = true) → Quiet quote tail :=
    quiet_of_forall (by obtain rfl | rfl := hquote <;> decide) (by decide) (by decide)
  cases u with
  | plain c => simp [text] at htext
  | letter c d =>
    obtain ⟨-, rfl⟩ : _ ∧ [] = tail := by simpa [text] using htext
    exact hnumeric (by simp)
  | gap blanks =>
    obtain ⟨-, rfl⟩ : _ ∧ blanks = tail := by simpa [text] using htext
    have hblanks : ∀ c ∈ blanks, (Text.isBlank c && decide (c ≠ '\n')) = true := by
      intro c hc
      have hline : c ≠ '\n' := by
        rintro rfl
        exact hinert hc
      simp [(accepted_gap.1 h).2 c hc, hline]
    exact quiet_of_forall (by obtain rfl | rfl := hquote <;> decide) (by decide) (by decide) hblanks
  | byte signed digits =>
    obtain ⟨-, rfl⟩ : _ ∧ sign signed ++ digits = tail := by simpa [text] using htext
    exact hnumeric (isEscapeChar_of_isHex (accepted_byte.1 h).1)
  | scalar signed digits closed =>
    obtain ⟨-, rfl⟩ : _ ∧
        '\x7b' :: (sign signed ++ digits ++ if closed then ['\x7d'] else []) = tail := by
      simpa [text] using htext
    refine hnumeric (List.forall_mem_cons.2 ⟨by decide, List.forall_mem_append.2
      ⟨isEscapeChar_of_isHex (accepted_scalar.1 h).1, ?_⟩⟩)
    cases closed <;> simp [isEscapeChar]
  | decimal digits =>
    obtain rfl : digits = c :: tail := by simpa [text] using htext
    obtain ⟨-, -, -, hdigits, -⟩ := accepted_decimal.1 h
    refine hnumeric fun d hd => ?_
    simp [isEscapeChar, isHexDigit, hdigits d (List.mem_cons_of_mem c hd)]

theorem Accepted.quotedTail (hquote : quote = '"' ∨ quote = '\'') (h : u.Accepted rest)
    (hinert : u.Inert quote) (cs : List Char) :
    quotedTail quote (u.text ++ cs) =
      ((quotedTail quote cs).1, (quotedTail quote cs).2 + u.text.length) := by
  obtain ⟨c, hc, rfl⟩ | ⟨c, tail, htext⟩ := h.text_cases
  · have hquiet : Quiet quote [c] := by simpa [Quiet] using ⟨hinert.1, hinert.2, hc⟩
    exact hquiet.quotedTail cs
  · rw [htext, List.cons_append, List.cons_append]
    simp [LuaTranspiler.quotedTail, (h.quiet hquote hinert htext).quotedTail cs, Nat.add_assoc]

/-- A string goes on through all its units. -/
theorem Reads.quotedTail (hquote : quote = '"' ∨ quote = '\'') (h : Reads us)
    (hinert : ∀ u ∈ us, u.Inert quote) (cs : List Char) :
    quotedTail quote (join us ++ cs) =
      ((quotedTail quote cs).1, (quotedTail quote cs).2 + (join us).length) := by
  induction us with
  | nil => rfl
  | cons u us ih =>
    rw [List.forall_mem_cons] at hinert
    rw [join_cons, List.append_assoc, h.1.quotedTail hquote hinert.1, ih h.2 hinert.2,
      List.length_append, Nat.add_assoc, Nat.add_comm (join us).length]

end QuotedUnit

/-- Units that leave a string open are one string token between quotes, and the token stands for
what they stand for. -/
theorem exists_token_of_reads (hquote : quote = '"' ∨ quote = '\'') {us : List QuotedUnit}
    (h : Reads us) (hinert : ∀ u ∈ us, u.Inert quote) :
    ∃ t, tokens t.literal = .ok [t] ∧ t.kind = .string ∧
      t.literal = String.ofList (quote :: (join us ++ [quote])) ∧
      t.quoted? = some (String.ofList (values us)) := by
  have htail : quotedTail quote (join us ++ [quote]) = (true, (join us ++ [quote]).length) := by
    have hclose : quotedTail quote [quote] = (true, 1) := by
      obtain rfl | rfl := hquote <;> rfl
    rw [h.quotedTail hquote hinert, hclose, List.length_append, Nat.add_comm]
    rfl
  have hmunch : munch quote (join us ++ [quote]) =
      .token .string (join us ++ [quote]).length := by
    have hquoted : munch quote (join us ++ [quote]) = munchQuoted quote (join us ++ [quote]) := by
      obtain rfl | rfl := hquote <;> rfl
    rw [hquoted, munchQuoted, htail]
  have hlayout : isLayout quote = false := by obtain rfl | rfl := hquote <;> rfl
  let text := quote :: (join us ++ [quote])
  let span := Span.between .origin (Point.origin.after text)
  refine ⟨⟨.string, String.ofList text, span⟩, ?_, rfl, rfl, ?_⟩
  · rw [tokens, String.toList_ofList, tokensFrom, if_neg (by simp [hlayout]), hmunch]
    simp only [List.take_length, List.drop_length, tokensFrom, text, span]
  · rw [quoted?_of_literal (String.toList_ofList ..), h.unescape?, Option.map_some]

/-! ### Well-formed strings -/

namespace QuotedUnit

/-- Whether units are ordinary characters and escapes of the language, none of which goes on in
those behind it. -/
def Proper (us : List QuotedUnit) : Prop := (∀ u ∈ us, u.WellFormed) ∧ Separated us

/-- Whether a text is one of ordinary characters and escapes of the language. -/
def ProperText (cs : List Char) : Prop := ∃ us, Proper us ∧ join us = cs

theorem Proper.reads {us : List QuotedUnit} (h : Proper us) : Reads us := .of_wellFormed h.1 h.2

/-- The units that a text is decoded by tell whether it is well formed. -/
theorem Reads.properText_iff {us : List QuotedUnit} (h : Reads us) :
    ProperText (join us) ↔ ∀ u ∈ us, u.WellFormed := by
  constructor
  · rintro ⟨us', hproper, hjoin⟩
    rw [← hproper.reads.eq_of_join_eq h hjoin]
    exact hproper.1
  · exact fun hunits => ⟨us, ⟨hunits, h.separated⟩, rfl⟩

theorem unescape?_eq_some_iff {cs vs : List Char} :
    unescape? cs = some vs ↔ ∃ us, Reads us ∧ join us = cs ∧ values us = vs := by
  constructor
  · exact exists_reads_of_unescape?
  · rintro ⟨us, hus, rfl, rfl⟩
    exact hus.unescape?

/-- A unit that stands for a character. -/
def ofChar (c : Char) : QuotedUnit :=
  if c = '"' then letter '"' '"' else if c = '\\' then letter '\\' '\\'
  else if c = '\n' then letter 'n' '\n' else plain c

theorem ofChar_spec (c : Char) :
    (ofChar c).value = [c] ∧ (ofChar c).WellFormed ∧ (ofChar c).Inert '"' ∧
      ∀ rest, (ofChar c).Ends rest := by
  unfold ofChar
  split_ifs <;> simp_all [value, WellFormed, Inert, Ends, letterEscapes]

theorem proper_map_ofChar (cs : List Char) : Proper (cs.map ofChar) := by
  refine ⟨by simp [ofChar_spec], ?_⟩
  induction cs with
  | nil => trivial
  | cons c cs ih => exact ⟨(ofChar_spec c).2.2.2 _, ih⟩

theorem values_map_ofChar (cs : List Char) : values (cs.map ofChar) = cs := by
  induction cs with
  | nil => rfl
  | cons c cs ih => rw [List.map_cons, values_cons, (ofChar_spec c).1, ih, List.singleton_append]

variable {u : QuotedUnit}

theorem Lenient.not_wellFormed (h : u.Lenient rest) : ¬u.WellFormed := by
  cases u with
  | plain | letter | gap | decimal => exact h.elim
  | byte signed digits =>
    rintro ⟨-, -, hlength⟩
    simp [h.2.1] at hlength
  | scalar signed digits closed =>
    rintro ⟨rfl, rfl, -⟩
    simpa using h.2.2.1

theorem Lenient.accepted (h : u.Lenient rest) : u.Accepted rest ∧ ∀ quote, u.Inert quote := by
  cases u with
  | plain | letter | gap | decimal => exact h.elim
  | byte | scalar => exact ⟨⟨trivial, .inr h⟩, fun _ => trivial⟩

/-- Whether a text is one string token that is decoded to `v`, and malformed. -/
def DecodedMalformed (s v : String) : Prop :=
  ∃ t, tokens s = .ok [t] ∧ t.kind = .string ∧ t.literal = s ∧ t.quoted? = some v ∧
    ¬ProperText (inside 1 s.toList)

/-- At the end of a string a unit that is accepted besides is decoded, and makes the string
malformed. -/
theorem Lenient.decodedMalformed (h : u.Lenient []) :
    DecodedMalformed (String.ofList ('"' :: (u.text ++ ['"']))) (String.ofList u.value) := by
  obtain ⟨haccepted, hinert⟩ := h.accepted
  have hreads : Reads [u] := ⟨haccepted, trivial⟩
  have hjoin : join [u] = u.text := by simp [join]
  have hvalues : values [u] = u.value := by simp [values]
  obtain ⟨t, htokens, hkind, hliteral, hvalue⟩ :=
    exists_token_of_reads (.inl rfl) hreads (by simp [hinert])
  rw [hliteral] at htokens
  rw [← hjoin, ← hvalues]
  refine ⟨t, htokens, hkind, hliteral, hvalue, ?_⟩
  have hinside : inside 1 (String.ofList ('"' :: (join [u] ++ ['"']))).toList = join [u] := by
    simp [inside]
  rw [hinside, hreads.properText_iff]
  simp [h.not_wellFormed]

end QuotedUnit

/-- A string token is decoded exactly if its inside is a sequence of accepted units, and to what
these stand for. Then its inside is well formed exactly if all of them are: what is accepted besides
is a sign before the digits of base sixteen and, at the end of the string, one digit in the place of
two and braces left open. -/
theorem quoted?_eq_some_iff_reads {s : String} {ts : List Token} (h : tokens s = .ok ts)
    {t : Token} (ht : t ∈ ts) (hkind : t.kind = .string) :
    ∃ quote body, (quote = '"' ∨ quote = '\'') ∧ t.literal.toList = quote :: (body ++ [quote]) ∧
      (∀ v, t.quoted? = some v ↔
        ∃ us, Reads us ∧ join us = body ∧ String.ofList (values us) = v) ∧
      ∀ us, Reads us → join us = body → (ProperText body ↔ ∀ u ∈ us, u.WellFormed) := by
  obtain ⟨quote, body, hquote, hliteral⟩ := exists_body_of_tokens h ht hkind
  refine ⟨quote, body, hquote, hliteral, fun v => ?_, ?_⟩
  · rw [quoted?_of_literal hliteral, Option.map_eq_some_iff]
    constructor
    · rintro ⟨vs, hvs, rfl⟩
      obtain ⟨us, hus, hjoin, rfl⟩ := unescape?_eq_some_iff.1 hvs
      exact ⟨us, hus, hjoin, rfl⟩
    · rintro ⟨us, hus, hjoin, rfl⟩
      exact ⟨values us, unescape?_eq_some_iff.2 ⟨us, hus, hjoin, rfl⟩, rfl⟩
  · rintro us hus rfl
    exact hus.properText_iff

theorem quoted?_eq_some_iff_reads_truncated :
    ∃ t, tokens t.literal = .ok [t] ∧ t.kind = .string ∧ t.quoted? = some "A\x04" ∧
      ∃ quote body, (quote = '"' ∨ quote = '\'') ∧ t.literal.toList = quote :: (body ++ [quote]) ∧
        (∀ v, t.quoted? = some v ↔
          ∃ us, Reads us ∧ join us = body ∧ String.ofList (values us) = v) ∧
        ∀ us, Reads us → join us = body → (ProperText body ↔ ∀ u ∈ us, u.WellFormed) := by
  have hreads : Reads [plain 'A', byte false ['4']] :=
    ⟨accepted_plain.2 (by decide), accepted_byte.2 ⟨by decide, by decide, .inr rfl⟩, trivial⟩
  obtain ⟨t, htokens, hkind, -, hvalue⟩ :=
    exists_token_of_reads (.inl rfl) hreads (by simp [Inert])
  exact ⟨t, htokens, hkind, hvalue,
    quoted?_eq_some_iff_reads htokens List.mem_cons_self hkind⟩

/-- One digit is missing, a sign stands before the digits, and the brace is missing. -/
theorem decodedMalformed_numericEscapes :
    DecodedMalformed "\"\\x4\"" "\x04" ∧ DecodedMalformed "\"\\x+1\"" "\x01" ∧
      DecodedMalformed "\"\\u\x7b+41\x7d\"" "A" ∧ DecodedMalformed "\"\\u\x7b41\"" "A" := by
  have hshort : (byte false ['4']).Lenient [] := ⟨by decide, rfl, .inr rfl⟩
  have hsigned : (byte true ['1']).Lenient [] := ⟨by decide, rfl, .inl rfl⟩
  have hbraced : (scalar true ['4', '1'] true).Lenient [] :=
    ⟨by decide, by decide, .inl rfl, .inl rfl⟩
  have hopen : (scalar false ['4', '1'] false).Lenient [] :=
    ⟨by decide, by decide, .inr rfl, .inr rfl⟩
  exact ⟨hshort.decodedMalformed, hsigned.decodedMalformed, hbraced.decodedMalformed,
    hopen.decodedMalformed⟩

/-- Well-formed units between quotes are decoded one by one. If they leave the string open, they are
one string token. Every text is decoded from some string token. -/
theorem quoted?_join_of_proper :
    (∀ us, Proper us → ∀ (t : Token) (quote : Char),
      t.literal.toList = quote :: (join us ++ [quote]) →
        t.quoted? = some (String.ofList (values us))) ∧
    (∀ us, Proper us → ∀ quote, quote = '"' ∨ quote = '\'' → (∀ u ∈ us, u.Inert quote) →
      ∃ t, tokens t.literal = .ok [t] ∧ t.kind = .string ∧
        t.literal = String.ofList (quote :: (join us ++ [quote]))) ∧
    ∀ s : String, ∃ t, tokens t.literal = .ok [t] ∧ t.kind = .string ∧ t.quoted? = some s := by
  refine ⟨?_, ?_, fun s => ?_⟩
  · intro us hus t quote hliteral
    rw [quoted?_of_literal hliteral, hus.reads.unescape?, Option.map_some]
  · intro us hus quote hquote hinert
    obtain ⟨t, htokens, hkind, hliteral, -⟩ := exists_token_of_reads hquote hus.reads hinert
    exact ⟨t, htokens, hkind, hliteral⟩
  · obtain ⟨t, htokens, hkind, -, hvalue⟩ := exists_token_of_reads (.inl rfl)
      (proper_map_ofChar s.toList).reads (by simp [ofChar_spec])
    refine ⟨t, htokens, hkind, ?_⟩
    rw [hvalue, values_map_ofChar, String.ofList_toList]

/-- Units of all forms. The first decimal escape ends at the backslash of the gap behind it, the
second one at its third digit. -/
def mixedUnits : List QuotedUnit :=
  [plain 'a', decimal ['6', '5'], gap [' ', '\t'], byte false ['4', '1'],
    scalar false ['1', 'f', '6', '0', '0'] true, letter '\n' '\n', decimal ['2', '5', '5'],
    plain '0']

theorem quoted?_join_mixedUnits :
    Proper mixedUnits ∧
      (∀ t : Token, t.literal = "'a\\65\\z \t\\x41\\u\x7b1f600\x7d\\\n\\2550'" →
        t.quoted? = some "aAA😀\nÿ0") ∧
      ∃ t, tokens t.literal = .ok [t] ∧ t.kind = .string ∧
        t.literal = "'a\\65\\z \t\\x41\\u\x7b1f600\x7d\\\n\\2550'" := by
  have hunits : ∀ u ∈ mixedUnits, u.WellFormed := by
    have hhex : IsHex ['4', '1'] ∧ IsHex ['1', 'f', '6', '0', '0'] := by decide
    have hvalid : (ofDigits 16 ['1', 'f', '6', '0', '0']).isValidChar := by decide
    have hblank : Text.isBlank ' ' = true ∧ Text.isBlank '\t' = true := by decide
    have hcode : ofDigits 10 ['6', '5'] ≤ 255 ∧ ofDigits 10 ['2', '5', '5'] ≤ 255 := by decide
    simp [mixedUnits, WellFormed, letterEscapes, hhex, hvalid, hblank, hcode]
  have hseparated : Separated mixedUnits := by
    have hstop : Text.isBlank '\\' = false := by decide
    simp [mixedUnits, Follow, Ends, join, text, hstop]
  have hproper : Proper mixedUnits := ⟨hunits, hseparated⟩
  refine ⟨hproper, fun t ht => ?_, ?_⟩
  · exact quoted?_join_of_proper.1 mixedUnits hproper t '\'' (by rw [ht]; rfl)
  · exact quoted?_join_of_proper.2.1 mixedUnits hproper '\'' (.inr rfl)
      (by simp [mixedUnits, Inert])

end LuaTranspiler
