import LuaTranspiler.Proofs.Token.Content
import LuaTranspiler.Proofs.Token.Lossless
import LuaTranspiler.Proofs.Token.Patterns

/-!
# The longest match

At the head of a text the pattern of the token that is cut off there matches at least as much as any
other pattern. For most kinds the match is the token. A long string goes on from its opening bracket
to the first closing one of the same level, and so does a comment whose dashes a long bracket opens
behind; any other comment goes on to the end of the line.

* `LongestMatch kind w cs`: the pattern of `kind` matches `w` at the head of `cs`, and none matches
  more
* `Continues kind w text rest`: how the token reaches on from the match
* `Munched kind text rest`: a token of this kind and text before `rest`
* `munched_of_tokens`: every token of a text is
-/

namespace LuaTranspiler

open Pattern

variable {c : Char} {cs v w text rest : List Char} {kind other : TokenKind} {n level : Nat}

/-- Whether a kind is a keyword. -/
def TokenKind.isKeyword : TokenKind → Bool
  | kwAnd | kwBreak | kwDo | kwElse | kwElseif | kwEnd | kwFalse | kwFor | kwFunction | kwGoto
  | kwIf | kwIn | kwLocal | kwNil | kwNot | kwOr | kwRepeat | kwReturn | kwThen | kwTrue | kwUntil
  | kwWhile => true
  | _ => false

/-- The opening bracket of a level. -/
def opener (level : Nat) : List Char := '[' :: (List.replicate level '=' ++ ['['])

/-- The closing bracket of a level that stands between `content` and `rest` is the first one. -/
def FirstCloser (level : Nat) (content rest : List Char) : Prop :=
  ∀ before behind, content ++ (closer level ++ rest) = before ++ (closer level ++ behind) →
    content.length ≤ before.length

/-- The pattern of a kind matches `w` at the head of a text, and no pattern matches more there. -/
structure LongestMatch (kind : TokenKind) (w cs : List Char) : Prop where
  matched : w ∈ kind.pattern.language
  leading : w <+: cs
  longest : ∀ other v, v ∈ (TokenKind.pattern other).language → v <+: cs → v.length ≤ w.length

/-- From the match `w` of its pattern a token goes on to be `text`, before `rest`. -/
inductive Continues : TokenKind → List Char → List Char → List Char → Prop
  | whole {kind : TokenKind} {w rest : List Char} :
      kind ≠ .longString → kind ≠ .comment → Continues kind w w rest
  | longString {level : Nat} {content rest : List Char} : FirstCloser level content rest →
      Continues .longString (opener level) (opener level ++ (content ++ closer level)) rest
  | longComment {level : Nat} {content rest : List Char} : FirstCloser level content rest →
      Continues .comment ['-', '-'] ('-' :: '-' :: (opener level ++ (content ++ closer level))) rest
  | lineComment {line rest : List Char} : (∀ level, ¬opener level <+: line ++ rest) →
      '\n' ∉ line → Breaks rest → Continues .comment ['-', '-'] ('-' :: '-' :: line) rest

/-- A token of a kind and a text before `rest` is cut off by the longest match, and is a keyword if
it is spelled like one. -/
structure Munched (kind : TokenKind) (text rest : List Char) : Prop where
  cut : ∃ w, LongestMatch kind w (text ++ rest) ∧ Continues kind w text rest
  keyword : ∀ kw, TokenKind.isKeyword kw → text ∈ (TokenKind.pattern kw).language → kind = kw

/-! ### Fixed spellings -/

theorem mem_pattern_of_symbol : ∀ x ∈ symbolTable, x.1 ∈ x.2.pattern.language := by
  unfold symbolTable
  repeat refine List.forall_mem_cons.2 ⟨mem_text.2 rfl, ?_⟩
  exact List.forall_mem_nil _

theorem pattern_of_keyword : ∀ x ∈ keywordTable, x.2.pattern = .text x.1 := by
  unfold keywordTable
  repeat refine List.forall_mem_cons.2 ⟨rfl, ?_⟩
  exact List.forall_mem_nil _

/-- The kinds of token, by how they are spelled. -/
theorem spelling_cases (kind : TokenKind) :
    (∃ s, (s.toList, kind) ∈ symbolTable ∧ kind.pattern = .text s) ∨
      (∃ s, (s, kind) ∈ keywordTable ∧ kind.pattern = .text s) ∨ kind = .comment ∨
      kind ∈ [.name, .number, .hexNumber, .string, .longString] := by
  cases kind
  case name | number | hexNumber | string | longString => exact .inr (.inr (.inr (by decide)))
  case comment => exact .inr (.inr (.inl rfl))
  case kwAnd | kwBreak | kwDo | kwElse | kwElseif | kwEnd | kwFalse | kwFor | kwFunction | kwGoto
      | kwIf | kwIn | kwLocal | kwNil | kwNot | kwOr | kwRepeat | kwReturn | kwThen | kwTrue
      | kwUntil | kwWhile =>
    refine .inr (.inl ⟨_, ?_, rfl⟩)
    decide
  all_goals
    refine .inl ⟨_, ?_, rfl⟩
    decide

/-- A keyword is spelled like a name. -/
theorem mem_name_of_keyword {x : String × TokenKind} (hx : x ∈ keywordTable) :
    x.1.toList ∈ TokenKind.name.pattern.language := by
  have hall : ∀ x ∈ keywordTable, startsName x.1.toList = true := by decide
  obtain ⟨d, ds, heq, hd, hds⟩ := (startsName_toList x.1).1 (hall x hx)
  rw [heq]
  exact ⟨[d], ⟨d, hd, rfl⟩, ds, mem_star_one.2 hds, rfl⟩

/-! ### All that can match -/

/-- What a pattern can match at the head of the text `c :: cs`. -/
inductive Candidate (c : Char) (cs v : List Char) : Prop
  | symbol {kind : TokenKind} : (v, kind) ∈ symbolTable → Candidate c cs v
  | dashes : c = '-' → cs.head? = some '-' → v.length = 2 → Candidate c cs v
  | word : isNameStart c = true → v.length ≤ runLength isNameChar cs + 1 → Candidate c cs v
  | number : c.isDigit = true → v.length ≤ numberTail cs + 1 → Candidate c cs v
  | point : c = '.' → startsWithDigit cs = true → v.length ≤ pointTail cs + 1 → Candidate c cs v
  | hex {n : Nat} : c = '0' → hexTail? cs = some n → v.length ≤ n + 1 → Candidate c cs v
  | string {n : Nat} : c = '"' ∨ c = '\'' → quotedTail c cs = (true, n) → v.length ≤ n + 1 →
      Candidate c cs v
  | bracket {level : Nat} : openingLevel? (c :: cs) = some level → v.length ≤ level + 2 →
      Candidate c cs v

theorem candidate_of_name (hv : v ∈ TokenKind.name.pattern.language) (h : v <+: c :: cs) :
    Candidate c cs v := by
  obtain ⟨n, hn, hle⟩ := (reaches_name c cs).bounded v hv h
  split at hn
  next hc =>
    obtain rfl := Option.some.inj hn
    exact .word hc hle
  next => exact (Option.not_mem_none n hn).elim

theorem candidate_of_number (hv : v ∈ TokenKind.number.pattern.language) (h : v <+: c :: cs) :
    Candidate c cs v := by
  obtain ⟨n, hn, hle⟩ := (reaches_number c cs).bounded v hv h
  unfold numberReach? at hn
  split at hn
  next hc =>
    obtain rfl := Option.some.inj hn
    exact .number hc hle
  next =>
    split at hn
    next hc =>
      obtain rfl := Option.some.inj hn
      rw [Bool.and_eq_true, decide_eq_true_eq] at hc
      exact .point hc.1 hc.2 hle
    next => exact (Option.not_mem_none n hn).elim

/-- Whatever matches at the head of a text is one of the candidates there. -/
theorem candidate_of_match (hv : v ∈ other.pattern.language) (h : v <+: c :: cs) :
    Candidate c cs v := by
  obtain ⟨s, hs, hpattern⟩ | ⟨s, hs, hpattern⟩ | rfl | hother := spelling_cases other
  · rw [hpattern, mem_text] at hv
    exact .symbol (hv ▸ hs)
  · -- a keyword reaches no further than the word that it starts
    rw [hpattern, mem_text] at hv
    exact candidate_of_name (hv ▸ mem_name_of_keyword hs) h
  · obtain rfl : v = ['-', '-'] := mem_text.1 hv
    obtain ⟨rfl, hcs⟩ := List.cons_prefix_cons.1 h
    obtain ⟨rest, rfl⟩ := hcs
    exact .dashes rfl rfl rfl
  · simp only [List.mem_cons, List.not_mem_nil, or_false] at hother
    rcases hother with rfl | rfl | rfl | rfl | rfl
    · exact candidate_of_name hv h
    · exact candidate_of_number hv h
    · obtain ⟨n, hn, hle⟩ := (reaches_hexNumber c cs).bounded v hv h
      split at hn
      next hc =>
        obtain ⟨m, hm, rfl⟩ := Option.mem_map.1 hn
        exact .hex hc hm hle
      next => exact (Option.not_mem_none n hn).elim
    · obtain ⟨n, hn, hle⟩ := (reaches_string c cs).bounded v hv h
      unfold stringReach? at hn
      split at hn
      next hc =>
        obtain rfl := Option.some.inj hn
        exact .string hc.1 (Prod.ext hc.2 rfl) hle
      next => exact (Option.not_mem_none n hn).elim
    · obtain ⟨n, hn, hle⟩ := (reaches_longString c cs).bounded v hv h
      obtain ⟨level, hlevel, rfl⟩ := Option.mem_map.1 hn
      exact .bracket hlevel hle

/-! ### The longest candidate -/

theorem head_of_openingLevel? (h : openingLevel? (c :: cs) = some level) : c = '[' := by
  unfold openingLevel? at h
  split at h
  next heq => exact (List.cons.inj heq).1
  next => cases h

/-- A symbol starts neither like a name nor like a number nor with a quote, it has one character
only if it starts like a bracket or a comment, and no digit follows its first character. -/
theorem head_of_symbol (hv : (v, kind) ∈ symbolTable) (h : v <+: c :: cs) :
    isNameStart c = false ∧ c.isDigit = false ∧ c ≠ '"' ∧ c ≠ '\'' ∧
      (c = '[' ∨ c = '-' ∨ startsWithDigit cs = true → v.length = 1) := by
  have hall : ∀ x ∈ symbolTable, (x.1.head?.any fun d => !isNameStart d && !d.isDigit && d ≠ '"' &&
      d ≠ '\'' && ((d ≠ '[' && d ≠ '-') || x.1.length = 1)) = true ∧
      startsWithDigit x.1.tail = false := by
    decide
  obtain ⟨hhead, hdigit⟩ := hall _ hv
  cases v with
  | nil => simp at hhead
  | cons d v =>
    obtain ⟨rfl, hrest⟩ := List.cons_prefix_cons.1 h
    simp only [List.head?_cons, Option.any_some, Bool.and_eq_true, Bool.not_eq_eq_eq_not,
      Bool.not_true, decide_eq_true_eq, Bool.or_eq_true, and_assoc] at hhead
    obtain ⟨hname, hnumber, hdouble, hsingle, hlength⟩ := hhead
    refine ⟨hname, hnumber, hdouble, hsingle, ?_⟩
    rintro (rfl | rfl | hcs)
    · simpa using hlength
    · simpa using hlength
    · cases v with
      | nil => rfl
      | cons e v =>
        cases cs with
        | nil => simp at hrest
        | cons d' cs =>
          obtain ⟨rfl, -⟩ := List.cons_prefix_cons.1 hrest
          simp_all [startsWithDigit]

namespace Candidate

theorem word_le (hc : isNameStart c = true) (h : v <+: c :: cs) (hv : Candidate c cs v) :
    v.length ≤ runLength isNameChar cs + 1 := by
  have hdigit := not_isDigit_of_isNameStart hc
  cases hv with
  | word _ hle => exact hle
  | symbol hs => simp [head_of_symbol hs h] at hc
  | bracket hlevel => simp [head_of_openingLevel? hlevel, isNameStart] at hc
  | string hquote => rcases hquote with rfl | rfl <;> simp [isNameStart] at hc
  | _ => simp_all [isNameStart]

theorem number_le (hc : c.isDigit = true) (hhex : ∀ m, c = '0' → hexTail? cs = some m → m ≤ n)
    (hn : numberTail cs ≤ n) (h : v <+: c :: cs) (hv : Candidate c cs v) : v.length ≤ n + 1 := by
  cases hv with
  | number _ hle => omega
  | hex hzero hm hle => exact hle.trans (Nat.succ_le_succ (hhex _ hzero hm))
  | word hname => simp [not_isDigit_of_isNameStart hname] at hc
  | symbol hs => simp [head_of_symbol hs h] at hc
  | bracket hlevel => simp [head_of_openingLevel? hlevel] at hc
  | string hquote => rcases hquote with rfl | rfl <;> simp at hc
  | _ => simp_all

theorem point_le (hdigit : startsWithDigit cs = true) (h : v <+: '.' :: cs)
    (hv : Candidate '.' cs v) : v.length ≤ pointTail cs + 1 := by
  cases hv with
  | point _ _ hle => exact hle
  | symbol hs =>
    rw [(head_of_symbol hs h).2.2.2.2 (.inr (.inr hdigit))]
    exact Nat.le_add_left 1 _
  | bracket hlevel => exact absurd (head_of_openingLevel? hlevel) (by decide)
  | _ => simp_all [isNameStart]

theorem string_le (hc : c = '"' ∨ c = '\'') (hn : quotedTail c cs = (true, n))
    (h : v <+: c :: cs) (hv : Candidate c cs v) : v.length ≤ n + 1 := by
  cases hv with
  | string _ hm hle => simp_all
  | symbol hs => simp [head_of_symbol hs h] at hc
  | bracket hlevel => simp [head_of_openingLevel? hlevel] at hc
  | word hname => rcases hc with rfl | rfl <;> simp [isNameStart] at hname
  | number hdigit => rcases hc with rfl | rfl <;> simp at hdigit
  | _ => simp_all

theorem bracket_le (hn : ∀ level, openingLevel? ('[' :: cs) = some level → level + 2 ≤ n)
    (hpos : 0 < n) (h : v <+: '[' :: cs) (hv : Candidate '[' cs v) : v.length ≤ n := by
  cases hv with
  | bracket hlevel hle => exact hle.trans (hn _ hlevel)
  | symbol hs =>
    rw [(head_of_symbol hs h).2.2.2.2 (.inl rfl)]
    exact hpos
  | _ => simp_all [isNameStart]

theorem dashes_le (h : v <+: '-' :: cs) (hv : Candidate '-' cs v) : v.length ≤ 2 := by
  cases hv with
  | dashes _ _ hlength => exact hlength.le
  | symbol hs =>
    rw [(head_of_symbol hs h).2.2.2.2 (.inr (.inl rfl))]
    exact one_le_two
  | bracket hlevel => exact absurd (head_of_openingLevel? hlevel) (by decide)
  | _ => simp_all [isNameStart]

end Candidate

/-! ### Where long brackets end -/

theorem length_opener (level : Nat) : (opener level).length = level + 2 := by simp [opener]

theorem mem_opener (level : Nat) : opener level ∈ TokenKind.longString.pattern.language :=
  ⟨['['], ⟨'[', rfl, rfl⟩, _, ⟨List.replicate level '=', mem_star_one.2 (by simp), ['['],
    ⟨'[', rfl, rfl⟩, rfl⟩, rfl⟩

theorem openingLevel?_eq_some_iff : openingLevel? cs = some level ↔ opener level <+: cs := by
  constructor
  · intro h
    cases cs with
    | nil => cases h
    | cons c cs =>
      obtain rfl := head_of_openingLevel? h
      simp only [openingLevel?] at h
      split at h
      next hnext =>
        obtain rfl := Option.some.inj h
        have hrun : cs.take (runLength (· = '=') cs) =
            List.replicate (runLength (· = '=') cs) '=' :=
          List.eq_replicate_iff.2 ⟨by simp [runLength_le_length], fun d hd => by
            simpa using forall_mem_take_runLength (· = '=') cs d hd⟩
        obtain ⟨hlt, hget⟩ := List.getElem?_eq_some_iff.1 hnext
        refine ⟨cs.drop (runLength (· = '=') cs + 1), ?_⟩
        rw [opener, ← hrun, List.cons_append, List.append_assoc, List.singleton_append, ← hget,
          ← List.drop_eq_getElem_cons hlt, List.take_append_drop]
      next => cases h
  · rintro ⟨rest, rfl⟩
    have hrun : runLength (· = '=') (List.replicate level '=' ++ '[' :: rest) = level := by
      rw [runLength_append (by simp) (by simp), List.length_replicate]
    simp [opener, openingLevel?, hrun]

/-- A long bracket is read to the first closing bracket of its level. -/
theorem exists_of_closingTail? (h : closingTail? level cs = some n) :
    ∃ content, cs.take n = content ++ closer level ∧ FirstCloser level content (cs.drop n) := by
  induction cs generalizing n with
  | nil => cases h
  | cons c cs ih =>
    rw [closingTail?] at h
    split at h
    next hcloser =>
      obtain rfl := Option.some.inj h
      refine ⟨[], ?_, fun _ _ _ => Nat.zero_le _⟩
      rw [← length_closer, ← List.prefix_iff_eq_take.1 (List.isPrefixOf_iff_prefix.1 hcloser)]
      rfl
    next hcloser =>
      obtain ⟨m, hm, rfl⟩ := Option.map_eq_some_iff.1 h
      obtain ⟨content, htake, hfirst⟩ := ih hm
      refine ⟨c :: content, by simp [htake], fun before behind heq => ?_⟩
      have hcs : content ++ (closer level ++ cs.drop m) = cs := by
        rw [← List.append_assoc, ← htake, List.take_append_drop]
      -- a closing bracket at the first character would have ended the search there
      cases before with
      | nil =>
        rw [List.cons_append, List.drop_succ_cons, hcs, List.nil_append] at heq
        exact absurd (List.isPrefixOf_iff_prefix.2 ⟨behind, heq.symm⟩) hcloser
      | cons d before =>
        obtain ⟨-, heq⟩ := List.cons.inj heq
        exact Nat.succ_le_succ (hfirst before behind heq)

/-- A long bracket goes on from its opening one to the first closing one of its level. -/
theorem exists_of_opener (hopen : openingLevel? cs = some level)
    (hclose : closingTail? level (cs.drop (level + 2)) = some n) :
    ∃ content, cs.take (level + 2 + n) = opener level ++ (content ++ closer level) ∧
      FirstCloser level content (cs.drop (level + 2 + n)) := by
  obtain ⟨content, htake, hfirst⟩ := exists_of_closingTail? hclose
  refine ⟨content, ?_, by rwa [← List.drop_drop]⟩
  rw [List.take_add, htake, ← length_opener level,
    ← List.prefix_iff_eq_take.1 (openingLevel?_eq_some_iff.1 hopen)]

/-! ### One token -/

theorem keyword_cases (h : TokenKind.isKeyword kind) :
    ∃ s, (s, kind) ∈ keywordTable ∧ kind.pattern = .text s := by
  obtain ⟨s, hs, -⟩ | hkeyword | rfl | hother := spelling_cases kind
  · have hall : ∀ x ∈ symbolTable, x.2.isKeyword = false := by decide
    simp [hall _ hs] at h
  · exact hkeyword
  · simp [TokenKind.isKeyword] at h
  · have hall : ∀ kind ∈ [TokenKind.name, .number, .hexNumber, .string, .longString],
        kind.isKeyword = false := by decide
    simp [hall _ hother] at h

/-- What does not start like a name is not spelled like a keyword. -/
theorem not_mem_keyword (hc : isNameStart c = false) (h : TokenKind.isKeyword kind) :
    c :: cs ∉ kind.pattern.language := by
  obtain ⟨s, hs, hpattern⟩ := keyword_cases h
  intro hmem
  rw [hpattern, mem_text] at hmem
  obtain ⟨_, ⟨d, hd, rfl⟩, ds, -, heq⟩ := mem_name_of_keyword hs
  rw [← hmem] at heq
  obtain ⟨rfl, -⟩ := List.cons.inj heq
  simp [hc] at hd

theorem wordKind_of_keyword {s : String} (h : (s, kind) ∈ keywordTable) : wordKind s = kind := by
  have hall : ∀ x ∈ keywordTable, wordKind x.1 = x.2 := by decide
  exact hall _ h

/-- A word matches the pattern of its kind, which is neither that of a long string nor that of a
comment. -/
theorem wordKind_spec {s : String} (h : s.toList ∈ TokenKind.name.pattern.language) :
    s.toList ∈ (wordKind s).pattern.language ∧ wordKind s ≠ .longString ∧
      wordKind s ≠ .comment := by
  rcases wordKind_cases s with hname | hkeyword
  · rw [hname]
    exact ⟨h, by decide, by decide⟩
  · have hall : ∀ x ∈ keywordTable, x.2 ≠ .longString ∧ x.2 ≠ TokenKind.comment := by decide
    refine ⟨?_, hall _ hkeyword⟩
    rw [pattern_of_keyword _ hkeyword, mem_text]

/-- A token that is all that its pattern matches. -/
theorem munched_of_whole (hlong : kind ≠ .longString) (hcomment : kind ≠ .comment)
    (hmem : c :: cs.take n ∈ kind.pattern.language) (hlength : n ≤ cs.length)
    (hle : ∀ v, v <+: c :: cs → Candidate c cs v → v.length ≤ n + 1)
    (hkeyword : ∀ kw, TokenKind.isKeyword kw → c :: cs.take n ∈ (TokenKind.pattern kw).language →
      kind = kw) : Munched kind (c :: cs.take n) (cs.drop n) := by
  have htext : c :: cs.take n ++ cs.drop n = c :: cs := by simp
  refine ⟨⟨c :: cs.take n, ⟨hmem, List.prefix_append .., fun other v hv hprefix => ?_⟩,
    .whole hlong hcomment⟩, hkeyword⟩
  rw [htext] at hprefix
  simpa [Nat.min_eq_left hlength] using hle v hprefix (candidate_of_match hv hprefix)

/-- What does not start like a name is no keyword, so it is enough that nothing matches more. -/
theorem munched_of_unnamed (hname : isNameStart c = false) (hlong : kind ≠ .longString)
    (hcomment : kind ≠ .comment) (hmem : c :: cs.take n ∈ kind.pattern.language)
    (hlength : n ≤ cs.length) (hle : ∀ v, v <+: c :: cs → Candidate c cs v → v.length ≤ n + 1) :
    Munched kind (c :: cs.take n) (cs.drop n) :=
  munched_of_whole hlong hcomment hmem hlength hle fun _ hkw htext =>
    absurd htext (not_mem_keyword hname hkw)

theorem munched_word (hc : isNameStart c = true) (hn : n = runLength isNameChar cs) :
    Munched (wordKind (String.ofList (c :: cs.take n))) (c :: cs.take n) (cs.drop n) := by
  subst hn
  have hmem : (String.ofList (c :: cs.take (runLength isNameChar cs))).toList ∈
      TokenKind.name.pattern.language := by
    rw [String.toList_ofList]
    exact ⟨[c], ⟨c, hc, rfl⟩, _, mem_star_one.2 (forall_mem_take_runLength _ _), rfl⟩
  obtain ⟨hpattern, hlong, hcomment⟩ := wordKind_spec hmem
  rw [String.toList_ofList] at hpattern
  refine munched_of_whole hlong hcomment hpattern (runLength_le_length _ _)
    (fun v h hv => hv.word_le hc h) fun kw hkw htext => ?_
  obtain ⟨s, hs, hkwpattern⟩ := keyword_cases hkw
  rw [hkwpattern, mem_text] at htext
  rw [htext, String.ofList_toList, wordKind_of_keyword hs]

/-- Behind a zero, the letter of a hexadecimal number does not continue a decimal one. -/
theorem numberTail_of_hexTail? (h : hexTail? cs = some n) : numberTail cs = 0 := by
  cases cs with
  | nil => cases h
  | cons x cs =>
    have hx : x = 'x' ∨ x = 'X' := by
      by_contra hx
      simp [hexTail?, hx] at h
    rcases hx with rfl | rfl <;> simp [numberTail, fractionTail, exponentTail_cons, runLength_cons]

theorem munched_number (hc : c.isDigit = true) (h : munchNumber c cs = .token kind n) :
    Munched kind (c :: cs.take n) (cs.drop n) := by
  have hname : isNameStart c = false := isNameStart_of_isDigit hc
  unfold munchNumber at h
  split at h
  next m hm =>
    obtain ⟨rfl, rfl⟩ := Lexeme.token.inj h
    split at hm
    next hzero =>
      obtain ⟨hlength, hmem⟩ := (reaches_hexNumber c cs).attained (m + 1) (by simp [hzero, hm])
      refine munched_of_unnamed hname (by decide) (by decide) hmem (Nat.le_of_succ_le_succ hlength)
        fun v h hv => hv.number_le hc (fun k _ hk => ?_) ?_ h
      · exact (Option.some.inj (hm.symm.trans hk)).ge
      · simp [numberTail_of_hexTail? hm]
    next => cases hm
  next hm =>
    obtain ⟨rfl, rfl⟩ := Lexeme.token.inj h
    obtain ⟨hlength, hmem⟩ := (reaches_number c cs).attained (numberTail cs + 1)
      (by simp [numberReach?, hc])
    refine munched_of_unnamed hname (by decide) (by decide) hmem (numberTail_le_length cs)
      fun v h hv => hv.number_le hc (fun k hzero hk => ?_) le_rfl h
    simp [hzero, hk] at hm

theorem munched_point (hdigit : startsWithDigit cs = true) :
    Munched .number ('.' :: cs.take (pointTail cs)) (cs.drop (pointTail cs)) := by
  obtain ⟨-, hmem⟩ := (reaches_number '.' cs).attained (pointTail cs + 1)
    (by simp [numberReach?, hdigit])
  exact munched_of_unnamed rfl (by decide) (by decide) hmem (pointTail_le_length cs)
    fun v h hv => hv.point_le hdigit h

theorem munched_quoted (hc : c = '"' ∨ c = '\'') (h : munchQuoted c cs = .token kind n) :
    Munched kind (c :: cs.take n) (cs.drop n) := by
  unfold munchQuoted at h
  split at h
  next m hm =>
    obtain ⟨rfl, rfl⟩ := Lexeme.token.inj h
    obtain ⟨-, hmem⟩ := (reaches_string c cs).attained (m + 1) (by simp [stringReach?, hc, hm])
    have hname : isNameStart c = false := by rcases hc with rfl | rfl <;> decide
    exact munched_of_unnamed hname (by decide) (by decide) hmem (quotedTail_take_append [] hm).1
      fun v h hv => hv.string_le hc hm h
  next => cases h

/-- The symbols are listed with longer ones first, so that the first to match is the longest. -/
theorem length_le_of_find? {spelling : List Char}
    (hfind : symbolTable.find? (fun s => s.1.isPrefixOf cs) = some (spelling, kind))
    (hv : (v, other) ∈ symbolTable) (h : v <+: cs) : v.length ≤ spelling.length := by
  have hsorted : symbolTable.Pairwise fun x y => y.1.length ≤ x.1.length := by decide
  obtain ⟨-, earlier, later, htable, hearlier⟩ := List.find?_eq_some_iff_append.1 hfind
  rw [htable, List.mem_append, List.mem_cons] at hv
  rcases hv with hv | hv | hv
  · simpa [List.isPrefixOf_iff_prefix.2 h] using hearlier _ hv
  · rw [(Prod.mk.inj hv).1]
  · rw [htable] at hsorted
    exact (List.pairwise_cons.1 (List.pairwise_append.1 hsorted).2.1).1 _ hv

theorem munched_symbol (h : munchSymbol (c :: cs) = .token kind n) (hname : isNameStart c = false)
    (hdigit : c.isDigit = false) (hpoint : ¬(c = '.' ∧ startsWithDigit cs = true))
    (hquote : ¬(c = '"' ∨ c = '\'')) (hbracket : c ≠ '[')
    (hdashes : ¬(c = '-' ∧ cs.head? = some '-')) : Munched kind (c :: cs.take n) (cs.drop n) := by
  unfold munchSymbol at h
  split at h
  next spelling found hfind =>
    obtain ⟨rfl, rfl⟩ := Lexeme.token.inj h
    have hmem := List.mem_of_find?_eq_some hfind
    have hprefix : spelling <+: c :: cs := by simpa using List.find?_some hfind
    have hpos : 0 < spelling.length := by
      have hall : ∀ x ∈ symbolTable, 0 < x.1.length := by decide
      exact hall _ hmem
    have htext : c :: cs.take (spelling.length - 1) = spelling := by
      rw [← List.take_succ_cons, Nat.sub_add_cancel hpos, ← List.prefix_iff_eq_take.1 hprefix]
    have hkind : found ≠ .longString ∧ found ≠ .comment := by
      have hall : ∀ x ∈ symbolTable, x.2 ≠ .longString ∧ x.2 ≠ TokenKind.comment := by decide
      exact hall _ hmem
    refine munched_of_unnamed hname hkind.1 hkind.2
      (htext.symm ▸ mem_pattern_of_symbol _ hmem) ?_ fun v h hv => ?_
    · simpa using Nat.sub_le_sub_right hprefix.length_le 1
    · rw [Nat.sub_add_cancel hpos]
      cases hv with
      | symbol hs => exact length_le_of_find? hfind hs h
      | bracket hlevel => exact absurd (head_of_openingLevel? hlevel) hbracket
      | _ => simp_all
  next => cases h

theorem munched_bracket (h : munchBracket cs = .token kind n) :
    Munched kind ('[' :: cs.take n) (cs.drop n) := by
  simp only [munchBracket] at h
  split at h
  next level hopen =>
    split at h
    next m hclose =>
      obtain ⟨rfl, rfl⟩ := Lexeme.token.inj h
      obtain ⟨content, htake, hfirst⟩ := exists_of_opener hopen hclose
      have hlength : level + 2 + m = level + 1 + m + 1 := by omega
      rw [hlength, List.take_succ_cons] at htake
      rw [hlength, List.drop_succ_cons] at hfirst
      have htext : '[' :: cs.take (level + 1 + m) ++ cs.drop (level + 1 + m) = '[' :: cs := by simp
      refine ⟨⟨opener level, ⟨mem_opener level, ?_, fun other v hv hprefix => ?_⟩, ?_⟩,
        fun kw hkw htext => absurd htext (not_mem_keyword rfl hkw)⟩
      · rw [htext]
        exact openingLevel?_eq_some_iff.1 hopen
      · rw [htext] at hprefix
        rw [length_opener]
        refine (candidate_of_match hv hprefix).bracket_le (fun k hk => ?_) (Nat.succ_pos _) hprefix
        rw [Option.some.inj (hopen.symm.trans hk)]
      · rw [htake]
        exact .longString hfirst
    next => cases h
  next hopen =>
    split at h
    next =>
      obtain ⟨rfl, rfl⟩ := Lexeme.token.inj h
      refine munched_of_unnamed rfl (by decide) (by decide)
        (mem_pattern_of_symbol (['['], _) (by decide)) (Nat.zero_le _) fun v h hv => ?_
      exact hv.bracket_le (fun k hk => by simp [hk] at hopen) one_pos h
    next => cases h

theorem munched_comment (h : munchComment cs = .token kind n) :
    Munched kind ('-' :: ('-' :: cs).take n) (('-' :: cs).drop n) := by
  -- two dashes are the longest match, whatever they are followed by
  have hlongest : LongestMatch .comment ['-', '-'] ('-' :: '-' :: cs) :=
    ⟨mem_text.2 rfl, ⟨cs, rfl⟩, fun other v hv hprefix =>
      (candidate_of_match hv hprefix).dashes_le hprefix⟩
  have hmunched (m : Nat) (hcontinues : Continues .comment ['-', '-'] ('-' :: '-' :: cs.take m)
      (cs.drop m)) : Munched .comment ('-' :: '-' :: cs.take m) (cs.drop m) := by
    refine ⟨⟨['-', '-'], by simpa using hlongest, hcontinues⟩, fun kw hkw htext => ?_⟩
    exact absurd htext (not_mem_keyword rfl hkw)
  unfold munchComment at h
  split at h
  next level hopen =>
    split at h
    next m hclose =>
      obtain ⟨rfl, rfl⟩ := Lexeme.token.inj h
      obtain ⟨content, htake, hfirst⟩ := exists_of_opener hopen hclose
      rw [Nat.add_assoc, Nat.add_comm 1]
      refine hmunched _ ?_
      rw [htake]
      exact .longComment hfirst
    next => cases h
  next hopen =>
    obtain ⟨rfl, rfl⟩ := Lexeme.token.inj h
    rw [Nat.add_comm 1]
    refine hmunched _ (.lineComment (fun level hlevel => ?_) (fun hline => ?_) ?_)
    · rw [List.take_append_drop] at hlevel
      simp [openingLevel?_eq_some_iff.2 hlevel] at hopen
    · simpa using forall_mem_take_runLength _ _ _ hline
    · intro d hd
      simpa using forall_mem_head?_drop_runLength _ _ d hd

/-- The token at the head of a text is cut off by the longest match. -/
theorem munched_of_munch (h : munch c cs = .token kind n) :
    Munched kind (c :: cs.take n) (cs.drop n) := by
  unfold munch at h
  split at h
  next hname =>
    obtain ⟨rfl, rfl⟩ := Lexeme.token.inj h
    exact munched_word hname rfl
  next hname =>
    split at h
    next hdigit => exact munched_number hdigit h
    next hdigit =>
      split at h
      next hpoint =>
        obtain ⟨rfl, rfl⟩ := Lexeme.token.inj h
        obtain ⟨rfl, hstarts⟩ : c = '.' ∧ startsWithDigit cs = true := by simpa using hpoint
        exact munched_point hstarts
      next hpoint =>
        split at h
        next hquote => exact munched_quoted (by simpa using hquote) h
        next hquote =>
          split at h
          next hbracket =>
            subst hbracket
            exact munched_bracket h
          next hbracket =>
            split at h
            next hdashes =>
              obtain ⟨rfl, hhead⟩ : c = '-' ∧ cs.head? = some '-' := by simpa using hdashes
              obtain ⟨ds, rfl⟩ := List.head?_eq_some_iff.1 hhead
              exact munched_comment h
            next hdashes =>
              exact munched_symbol h (by simpa using hname) (by simpa using hdigit)
                (by simpa using hpoint) (by simpa using hquote) hbracket (by simpa using hdashes)

/-! ### All tokens -/

/-- The token `t` of the text `cs` comes behind `before` and the layout in `gap`, is cut off by the
longest match, and leaves `rest`. -/
structure CutBehind (cs before gap : List Char) (t : Token) (rest : List Char) : Prop where
  parts : cs = before ++ (gap ++ (t.literal.toList ++ rest))
  layout : ∀ c ∈ gap, isLayout c = true
  first : ∃ c ∈ t.literal.toList.head?, isLayout c = false
  munched : Munched t.kind t.literal.toList rest

section Run

variable {p : Point} {us vs : List Token} {t : Token}

theorem cutBehind_of_tokensFrom (h : tokensFrom p cs = .ok (us ++ t :: vs)) :
    ∃ before gap rest, CutBehind cs before gap t rest ∧
      (us = [] ∧ before = [] ∨ ∃ u ∈ us.getLast?, u.span.stop = (p.after before).offset) ∧
      t.span =
        .between (p.after (before ++ gap)) (p.after (before ++ gap ++ t.literal.toList)) := by
  generalize hts : us ++ t :: vs = ts at h
  fun_induction tokensFrom p cs generalizing us ts with
  | case1 p =>
    cases h
    simp at hts
  | case2 p c cs hc ih =>
    obtain ⟨before, gap, rest, hcut, hbefore, hspan⟩ := ih _ hts h
    -- the layout belongs to the gap before the first token, or to what is before a later one
    rcases hbefore with ⟨rfl, rfl⟩ | hlast
    · refine ⟨[], c :: gap, rest, ⟨?_, ?_, hcut.first, hcut.munched⟩, .inl ⟨rfl, rfl⟩, hspan⟩
      · simpa using hcut.parts
      · exact List.forall_mem_cons.2 ⟨hc, hcut.layout⟩
    · refine ⟨c :: before, gap, rest, ⟨?_, hcut.layout, hcut.first, hcut.munched⟩, .inr hlast,
        hspan⟩
      simpa using hcut.parts
  | case3 p c cs hc =>
    rename_i kind n hmunch text stop ts' hts' ih
    cases h
    have htext : c :: cs = text ++ cs.drop n := by simp [text]
    cases us with
    | nil =>
      obtain ⟨rfl, rfl⟩ := List.cons.inj hts
      refine ⟨[], [], cs.drop n, ⟨?_, by simp, ⟨c, ?_, by simpa using hc⟩, ?_⟩, .inl ⟨rfl, rfl⟩, ?_⟩
      · simpa using htext
      · simp [text]
      · simpa [text] using munched_of_munch hmunch
      · simp [stop]
    | cons u us =>
      obtain ⟨rfl, hrest⟩ := List.cons.inj hts
      obtain ⟨before, gap, rest, hcut, hbefore, hspan⟩ := ih _ hrest hts'
      refine ⟨text ++ before, gap, rest, ⟨?_, hcut.layout, hcut.first, hcut.munched⟩, .inr ?_, ?_⟩
      · rw [htext, hcut.parts, List.append_assoc]
      · rcases hbefore with ⟨rfl, rfl⟩ | ⟨last, hlast, hstop⟩
        · exact ⟨_, rfl, by rw [List.append_nil]; rfl⟩
        · refine ⟨last, ?_, by rw [hstop, Point.after_append]⟩
          rw [Option.mem_def] at hlast
          simp [List.getLast?_cons, hlast]
      · simp only [hspan, List.append_assoc, Point.after_append p text, stop]
  | case4 => cases h
  | case5 => cases h

end Run

/-- **Every token is the longest match.** A token starts at the first character behind the token
before it that is not layout. Its pattern matches at least as much of the text from there on as any
other does, a keyword is never a name, and long strings and comments go on from there to where they
end. -/
theorem munched_of_tokens {s : String} {us vs : List Token} {t : Token}
    (h : tokens s = .ok (us ++ t :: vs)) :
    ∃ before gap rest, CutBehind s.toList before gap t rest ∧
      (String.ofList before).utf8ByteSize = (us.getLast?.map (·.span.stop)).getD 0 ∧
      t.span.start = (String.ofList (before ++ gap)).utf8ByteSize ∧
      t.span.stop = (String.ofList (before ++ gap ++ t.literal.toList)).utf8ByteSize := by
  obtain ⟨before, gap, rest, hcut, hbefore, hspan⟩ := cutBehind_of_tokensFrom h
  rw [Point.after_origin, Point.after_origin] at hspan
  refine ⟨before, gap, rest, hcut, ?_, by rw [hspan]; rfl, by rw [hspan]; rfl⟩
  rcases hbefore with ⟨rfl, rfl⟩ | ⟨u, hu, hstop⟩
  · rfl
  · rw [Option.mem_def] at hu
    rw [hu, Option.map_some, Option.getD_some, hstop, Point.after_origin]

/-- Two numbers share two points, a comment holds the closing bracket of another level, a name
starts like a keyword, and a number has no exponent after all. -/
def crowdedText : String := "3..2 --[=[]]\n]=]ending 1e+"

def crowdedComment : Token := ⟨.comment, "--[=[]]\n]=]", .between ⟨5, ⟨1, 5⟩⟩ ⟨16, ⟨2, 3⟩⟩⟩

theorem munched_crowdedText :
    ∃ us vs, tokens crowdedText = .ok (us ++ crowdedComment :: vs) ∧
      us.map (fun t => (t.kind, t.literal)) = [(.number, "3."), (.number, ".2")] ∧
      vs.map (fun t => (t.kind, t.literal)) =
        [(.name, "ending"), (.number, "1"), (.name, "e"), (.plus, "+")] ∧
      ∃ before gap rest, CutBehind crowdedText.toList before gap crowdedComment rest ∧
        (String.ofList before).utf8ByteSize = (us.getLast?.map (·.span.stop)).getD 0 ∧
        crowdedComment.span.start = (String.ofList (before ++ gap)).utf8ByteSize ∧
        crowdedComment.span.stop =
          (String.ofList (before ++ gap ++ crowdedComment.literal.toList)).utf8ByteSize := by
  have htokens : (tokens crowdedText).toOption.map (fun ts => (ts[2]?,
        (ts.take 2).map fun t => (t.kind, t.literal),
        (ts.drop 3).map fun t => (t.kind, t.literal))) =
      some (some crowdedComment, [(.number, "3."), (.number, ".2")],
        [(.name, "ending"), (.number, "1"), (.name, "e"), (.plus, "+")]) := by
    decide +kernel
  cases hts : tokens crowdedText with
  | error e => simp [hts, Except.toOption] at htokens
  | ok ts =>
    rw [hts] at htokens
    obtain ⟨hcomment, hothers⟩ := Prod.mk.inj (Option.some.inj htokens)
    obtain ⟨hus, hvs⟩ := Prod.mk.inj hothers
    obtain ⟨hlt, hget⟩ := List.getElem?_eq_some_iff.1 hcomment
    have hsplit : ts = ts.take 2 ++ crowdedComment :: ts.drop 3 := by
      rw [← hget, ← List.drop_eq_getElem_cons hlt, List.take_append_drop]
    exact ⟨ts.take 2, ts.drop 3, congrArg _ hsplit, hus, hvs,
      munched_of_tokens (hts.trans (congrArg _ hsplit))⟩

end LuaTranspiler
