import LuaTranspiler.Proofs.Token.MaximalMunch
import LuaTranspiler.Proofs.Token.QuotedStrings

/-!
# Delimiters of strings and comments

What is inside a string or a comment is cut out by counting: the delimiters are looked at again in
the text of the token, and as many bytes are taken off its ends. The token was cut off by looking at
the rest of the source. Both agree on where the delimiters are, so that nothing is cut out of range.

* `IsSlice s lo hi part`: the bytes of `s` from `lo` up to `hi` are the text `part`
* `Token.IsQuoted`, `Token.IsLongString`, `Token.IsLineComment`, `Token.IsLongComment`: how a token
  is delimited, and what is taken out of it
* `delimited_of_tokens`: every string and every comment of a source is
-/

namespace LuaTranspiler

variable {s : String} {t : Token} {cs front content back rest line : List Char} {level k : Nat}

/-! ### Slices -/

/-- The bytes of a text from `lo` up to `hi` are those of `part`. Both offsets are in range and do
not cut a character in two. -/
def IsSlice (s : String) (lo hi : Nat) (part : String) : Prop :=
  ∃ before behind, s = before ++ (part ++ behind) ∧ before.utf8ByteSize = lo ∧
    (before ++ part).utf8ByteSize = hi

/-- What stands between delimiters is the slice without as many bytes as they have. -/
theorem isSlice_of_framed (hs : s.toList = front ++ (content ++ back))
    (hfront : (String.ofList front).utf8ByteSize = k)
    (hback : (String.ofList back).utf8ByteSize = k) :
    IsSlice s k (s.utf8ByteSize - k) (String.ofList content) := by
  have hsplit : s = String.ofList front ++ (String.ofList content ++ String.ofList back) := by
    rw [← String.ofList_append, ← String.ofList_append, ← hs, String.ofList_toList]
  refine ⟨_, _, hsplit, hfront, ?_⟩
  rw [hsplit, String.utf8ByteSize_append, String.utf8ByteSize_append, String.utf8ByteSize_append]
  omega

/-- What stands behind leading characters is the slice to the end of the text. -/
theorem isSlice_of_leading (front : List Char) (hs : s.toList = front ++ content)
    (hfront : (String.ofList front).utf8ByteSize = k) :
    IsSlice s k s.utf8ByteSize (String.ofList content) := by
  have hsplit : s = String.ofList front ++ (String.ofList content ++ "") := by
    rw [String.append_empty, ← String.ofList_append, ← hs, String.ofList_toList]
  refine ⟨_, _, hsplit, hfront, ?_⟩
  rw [hsplit, String.append_empty]

theorem inside_of_framed (hfront : front.length = k) (hback : back.length = k) :
    inside k (front ++ (content ++ back)) = content := by
  have hlength : (front ++ (content ++ back)).length - 2 * k = content.length := by
    rw [List.length_append, List.length_append]
    omega
  rw [inside, hlength, ← hfront, List.drop_left, List.take_left]

/-! ### Long brackets -/

theorem utf8ByteSize_of_forall (h : ∀ c ∈ cs, c.utf8Size = 1) :
    (String.ofList cs).utf8ByteSize = cs.length := by
  induction cs with
  | nil => rfl
  | cons c cs ih =>
    obtain ⟨hc, hcs⟩ := List.forall_mem_cons.1 h
    rw [utf8ByteSize_cons, hc, ih hcs, List.length_cons, Nat.add_comm]

/-- Brackets and equals signs have one byte each. -/
theorem utf8ByteSize_bracket {bracket : Char} (hbracket : bracket.utf8Size = 1) (level : Nat) :
    (String.ofList (bracket :: (List.replicate level '=' ++ [bracket]))).utf8ByteSize =
      level + 2 := by
  have hall : ∀ c ∈ bracket :: (List.replicate level '=' ++ [bracket]), c.utf8Size = 1 := by
    intro c hc
    simp only [List.mem_cons, List.mem_append, List.mem_replicate, List.not_mem_nil, or_false] at hc
    rcases hc with rfl | ⟨-, rfl⟩ | rfl
    · exact hbracket
    · decide
    · exact hbracket
  rw [utf8ByteSize_of_forall hall]
  simp

theorem utf8ByteSize_opener (level : Nat) :
    (String.ofList (opener level)).utf8ByteSize = level + 2 :=
  utf8ByteSize_bracket (by decide) level

theorem utf8ByteSize_closer (level : Nat) :
    (String.ofList (closer level)).utf8ByteSize = level + 2 :=
  utf8ByteSize_bracket (by decide) level

theorem openingLevel?_eq_none_iff :
    openingLevel? cs = none ↔ ∀ level, ¬opener level <+: cs := by
  simp only [Option.eq_none_iff_forall_ne_some, ne_eq, openingLevel?_eq_some_iff]

/-- A run of equals signs can be cut off. -/
theorem exists_isSlice_run (cs : List Char) :
    ∃ tail, IsSlice (String.ofList cs) (runLength (· = '=') cs) (String.ofList cs).utf8ByteSize
      tail := by
  have hrun : (String.ofList (cs.take (runLength (· = '=') cs))).utf8ByteSize =
      runLength (· = '=') cs := by
    rw [utf8ByteSize_of_forall, List.length_take_of_le (runLength_le_length ..)]
    intro c hc
    obtain rfl : c = '=' := by
      simpa using Pattern.forall_mem_take_runLength (· = '=') cs c hc
    decide
  have hcs : (String.ofList cs).toList =
      cs.take (runLength (· = '=') cs) ++ cs.drop (runLength (· = '=') cs) := by simp
  exact ⟨_, isSlice_of_leading _ hcs hrun⟩

/-- Counting behind the first bracket of an opening one gives its level. -/
theorem runLength_tail_opener (level : Nat) (cs : List Char) :
    runLength (· = '=') (opener level ++ cs).tail = level := by
  rw [opener, List.cons_append, List.tail_cons, List.append_assoc, List.singleton_append,
    runLength_append (by simp) (by simp), List.length_replicate]

/-! ### How tokens end -/

theorem exists_of_longString {text w : List Char} (h : Continues .longString w text rest) :
    ∃ level content, text = opener level ++ (content ++ closer level) ∧
      FirstCloser level content rest := by
  cases h with
  | whole hlong => exact absurd rfl hlong
  | longString hfirst => exact ⟨_, _, rfl, hfirst⟩

theorem comment_cases {text w : List Char} (h : Continues .comment w text rest) :
    (∃ line, text = '-' :: '-' :: line ∧ (∀ level, ¬opener level <+: line ++ rest) ∧
      '\n' ∉ line) ∨
    ∃ level content, text = '-' :: '-' :: (opener level ++ (content ++ closer level)) ∧
      FirstCloser level content rest := by
  cases h with
  | whole _ hcomment => exact absurd rfl hcomment
  | longComment hfirst => exact .inr ⟨_, _, rfl, hfirst⟩
  | lineComment hunopened hnewline => exact .inl ⟨_, rfl, hunopened, hnewline⟩

/-! ### Tokens -/

/-- The value is the content, less a carriage return and newline, or a newline, at its head. -/
def DropsLineBreak (content value : List Char) : Prop :=
  content = '\r' :: '\n' :: value ∨ content = '\n' :: value ∨
    content = value ∧ ¬['\r', '\n'] <+: content ∧ ¬['\n'] <+: content

theorem dropsLineBreak (content : List Char) : DropsLineBreak content (dropLineBreak content) := by
  unfold dropLineBreak
  split
  next => exact .inl rfl
  next => exact .inr (.inl rfl)
  next hcrlf hlf =>
    refine .inr (.inr ⟨rfl, ?_, ?_⟩)
    · rintro ⟨ds, rfl⟩
      exact hcrlf ds rfl
    · rintro ⟨ds, rfl⟩
      exact hlf ds rfl

namespace Token

/-- A string between two equal quotes, of one byte each. -/
structure IsQuoted (t : Token) (quote : Char) (content : List Char) : Prop where
  isQuote : quote = '"' ∨ quote = '\''
  written : t.literal.toList = quote :: (content ++ [quote])
  slice : IsSlice t.literal 1 (t.literal.utf8ByteSize - 1) (String.ofList content)
  value : t.quoted? = (unescape? content).map String.ofList

/-- A string in long brackets, before `rest`. -/
structure IsLongString (t : Token) (rest : List Char) (level : Nat) (content : List Char) :
    Prop where
  written : t.literal.toList = opener level ++ (content ++ closer level)
  first : FirstCloser level content rest
  /-- The level that is counted in the token is the level that was looked for in the source. -/
  level_eq : runLength (· = '=') t.literal.toList.tail = level
  slice : IsSlice t.literal (level + 2) (t.literal.utf8ByteSize - (level + 2))
    (String.ofList content)
  value : DropsLineBreak content (longStringValue t.literal).toList

/-- A comment to the end of its line. -/
structure IsLineComment (t : Token) (line : List Char) : Prop where
  written : t.literal.toList = '-' :: '-' :: line
  newline : '\n' ∉ line
  unopened : ∀ level, ¬opener level <+: line
  slice : IsSlice t.literal 2 t.literal.utf8ByteSize (String.ofList line)
  value : commentValue t.literal = String.ofList line

/-- A comment in long brackets, before `rest`. -/
structure IsLongComment (t : Token) (rest : List Char) (level : Nat) (content : List Char) :
    Prop where
  written : t.literal.toList = '-' :: '-' :: (opener level ++ (content ++ closer level))
  first : FirstCloser level content rest
  slice : ∃ body : String, IsSlice t.literal 2 t.literal.utf8ByteSize body ∧
    IsSlice body (level + 2) (body.utf8ByteSize - (level + 2)) (String.ofList content)
  value : commentValue t.literal = String.ofList content

theorem isQuoted_of_written {quote : Char} (hquote : quote = '"' ∨ quote = '\'')
    (hwritten : t.literal.toList = quote :: (content ++ [quote])) : t.IsQuoted quote content := by
  have hsize : (String.ofList [quote]).utf8ByteSize = 1 := by rcases hquote with rfl | rfl <;> decide
  exact ⟨hquote, hwritten,
    isSlice_of_framed (hwritten : _ = [quote] ++ (content ++ [quote])) hsize hsize,
    quoted?_of_literal hwritten⟩

theorem isLongString_of_written
    (hwritten : t.literal.toList = opener level ++ (content ++ closer level))
    (hfirst : FirstCloser level content rest) : t.IsLongString rest level content := by
  have hlevel : runLength (· = '=') t.literal.toList.tail = level := by
    rw [hwritten, runLength_tail_opener]
  refine ⟨hwritten, hfirst, hlevel,
    isSlice_of_framed hwritten (utf8ByteSize_opener level) (utf8ByteSize_closer level), ?_⟩
  rw [longStringValue, hlevel, hwritten, inside_of_framed (length_opener level)
    (length_closer level), String.toList_ofList]
  exact dropsLineBreak content

theorem isLineComment_of_written (hwritten : t.literal.toList = '-' :: '-' :: line)
    (hnewline : '\n' ∉ line) (hunopened : ∀ level, ¬opener level <+: line) :
    t.IsLineComment line := by
  have hlevel : openingLevel? line = none := openingLevel?_eq_none_iff.2 hunopened
  refine ⟨hwritten, hnewline, hunopened,
    isSlice_of_leading ['-', '-'] hwritten (by decide), ?_⟩
  rw [commentValue, hwritten]
  simp [hlevel]

theorem isLongComment_of_written
    (hwritten : t.literal.toList = '-' :: '-' :: (opener level ++ (content ++ closer level)))
    (hfirst : FirstCloser level content rest) : t.IsLongComment rest level content := by
  have hlevel : openingLevel? (opener level ++ (content ++ closer level)) = some level :=
    openingLevel?_eq_some_iff.2 ⟨_, rfl⟩
  refine ⟨hwritten, hfirst, ⟨_, isSlice_of_leading ['-', '-'] hwritten (by decide),
    isSlice_of_framed (String.toList_ofList ..) (utf8ByteSize_opener level)
      (utf8ByteSize_closer level)⟩, ?_⟩
  rw [commentValue, hwritten]
  simp [hlevel, inside_of_framed (length_opener level) (length_closer level)]

/-- What is a string or a comment is delimited as such, and a comment is decoded as a long one
exactly if a long bracket opens behind its dashes in the source, where `rest` follows. -/
structure IsDelimited (t : Token) (rest : List Char) : Prop where
  quoted : t.kind = .string → ∃ quote content, t.IsQuoted quote content
  longString : t.kind = .longString → ∃ level content, t.IsLongString rest level content
  comment : t.kind = .comment →
    (∃ line, t.IsLineComment line) ∨ ∃ level content, t.IsLongComment rest level content
  /-- The level behind the dashes is the same in the token and in the source. -/
  level_eq : t.kind = .comment →
    openingLevel? (t.literal.toList.drop 2) = openingLevel? ((t.literal.toList ++ rest).drop 2)
  /-- What comes behind the equals signs that are counted for this level can be looked at. -/
  counted : ∀ cs, t.literal.toList = '-' :: '-' :: '[' :: cs →
    ∃ tail, IsSlice (String.ofList cs) (runLength (· = '=') cs) (String.ofList cs).utf8ByteSize tail

/-- The delimiters of a token are those that it was cut off by. -/
theorem IsDelimited.of_continues {w : List Char}
    (hquoted : t.kind = .string → ∃ quote content, (quote = '"' ∨ quote = '\'') ∧
      t.literal.toList = quote :: (content ++ [quote]))
    (h : Continues t.kind w t.literal.toList rest) : t.IsDelimited rest := by
  refine ⟨fun hkind => ?_, fun hkind => ?_, fun hkind => ?_, fun hkind => ?_,
    fun cs _ => exists_isSlice_run cs⟩
  · obtain ⟨quote, content, hquote, hwritten⟩ := hquoted hkind
    exact ⟨quote, content, isQuoted_of_written hquote hwritten⟩
  · obtain ⟨level, content, hwritten, hfirst⟩ := exists_of_longString (hkind ▸ h)
    exact ⟨level, content, isLongString_of_written hwritten hfirst⟩
  · obtain ⟨line, hwritten, hunopened, hnewline⟩ | ⟨level, content, hwritten, hfirst⟩ :=
      comment_cases (hkind ▸ h)
    · exact .inl ⟨line, isLineComment_of_written hwritten hnewline fun level hlevel =>
        hunopened level (hlevel.trans (List.prefix_append ..))⟩
    · exact .inr ⟨level, content, isLongComment_of_written hwritten hfirst⟩
  · obtain ⟨line, hwritten, hunopened, -⟩ | ⟨level, content, hwritten, -⟩ :=
      comment_cases (hkind ▸ h)
    · have hline : ∀ level, ¬opener level <+: line :=
        fun level hlevel => hunopened level (hlevel.trans (List.prefix_append ..))
      simp [hwritten, openingLevel?_eq_none_iff.2 hline, openingLevel?_eq_none_iff.2 hunopened]
    · have hlevel : ∀ behind, openingLevel? (opener level ++ behind) = some level :=
        fun behind => openingLevel?_eq_some_iff.2 ⟨behind, rfl⟩
      simp [hwritten, hlevel]

end Token

/-- **Strings and comments are decoded by the delimiters that they were cut off by.** A quoted string
has two equal quotes. A long string has a closing bracket of the level of its opening one and none of
that level before it, and stands for what is between them, less a line break at its head. A comment
has such brackets behind its dashes, or no opening bracket there and no newline, and stands for what
is between them or for all that follows. So all slices that are taken are in range. -/
theorem delimited_of_tokens {ts : List Token} (h : tokens s = .ok ts) (ht : t ∈ ts) :
    ∃ before rest, s.toList = before ++ (t.literal.toList ++ rest) ∧
      t.span.start = (String.ofList before).utf8ByteSize ∧ t.IsDelimited rest := by
  obtain ⟨us, vs, rfl⟩ := List.append_of_mem ht
  obtain ⟨before, gap, rest, hcut, -, hspan⟩ := cutBehind_of_tokensFrom h
  obtain ⟨w, -, hcontinues⟩ := hcut.munched.cut
  refine ⟨before ++ gap, rest, by simpa using hcut.parts, ?_, ?_⟩
  · rw [hspan, Point.after_origin]
    rfl
  · exact .of_continues (exists_body_of_tokens h ht) hcontinues

/-- A comment holds closing brackets of other levels and ends with more brackets than close it. -/
def nestedComment : String := "--[==[\r\n]]é]=]]==]]"

theorem delimited_nestedComment :
    ∃ t u, tokens nestedComment = .ok [t, u] ∧ t.kind = .comment ∧
      commentValue t.literal = "\r\n]]é]=]" ∧ u.kind = .rightBracket ∧
      ∃ before rest, nestedComment.toList = before ++ (t.literal.toList ++ rest) ∧
        t.span.start = (String.ofList before).utf8ByteSize ∧ t.IsDelimited rest := by
  have htokens : ((tokens nestedComment).toOption.map fun ts =>
      ts.map fun t => (t.kind, t.literal)) =
        some [(.comment, "--[==[\r\n]]é]=]]==]"), (.rightBracket, "]")] := by decide +kernel
  cases hts : tokens nestedComment with
  | error e => simp [hts, Except.toOption] at htokens
  | ok ts =>
    rw [hts] at htokens
    obtain ⟨t, us, rfl, ht, hus⟩ := List.map_eq_cons_iff.1 (Option.some.inj htokens)
    obtain ⟨u, vs, rfl, hu, hvs⟩ := List.map_eq_cons_iff.1 hus
    obtain rfl := List.map_eq_nil_iff.1 hvs
    obtain ⟨hkind, hliteral⟩ := Prod.mk.inj ht
    refine ⟨t, u, rfl, hkind, ?_, (Prod.mk.inj hu).1, delimited_of_tokens hts (by simp)⟩
    rw [hliteral]
    decide +kernel

end LuaTranspiler
