import LuaTranspiler.Token.Lexer
import Mathlib.Data.List.TakeDrop

/-!
# Tokens on lines of their own

How far a token reaches depends on the text behind it, but a newline there never lets it reach
further: no token other than a string or a comment holds a newline, and a string is over at its
closing mark. So a token that is cut out of its text is the same token when a newline follows, and
the tokens of a text are cut again from a text that has each of them on a line of its own.

* `Breaks rest`: a text that is at its end or goes on with a newline
* `munch_take_append`: the token at the head of a text, cut out of it
* `StandsAlone`: a token that is cut from any text where it comes first and the line ends behind it
* `tokensFrom_intercalate`: tokens on lines of their own
-/

namespace LuaTranspiler

/-- The line ends here. -/
def Breaks (rest : List Char) : Prop := ∀ c ∈ rest.head?, c = '\n'

section Munch

variable {p : Char → Bool} {cs rest : List Char} {c quote : Char} {kind : TokenKind}
  {n k level : Nat}

/-! ### Runs of characters -/

theorem runLength_le_length (p : Char → Bool) (cs : List Char) : runLength p cs ≤ cs.length :=
  (List.takeWhile_sublist p).length_le

theorem runLength_cons (p : Char → Bool) (c : Char) (cs : List Char) :
    runLength p (c :: cs) = if p c then runLength p cs + 1 else 0 := by
  unfold runLength
  rw [List.takeWhile_cons]
  split <;> rfl

theorem takeWhile_append_of_stop (hcs : ∀ c ∈ cs, p c = true)
    (hrest : ∀ c ∈ rest.head?, p c = false) : (cs ++ rest).takeWhile p = cs := by
  rw [List.takeWhile_append_of_pos hcs]
  cases rest with
  | nil => simp
  | cons c rest => simp [hrest c rfl]

theorem runLength_append (hcs : ∀ c ∈ cs, p c = true)
    (hrest : ∀ c ∈ rest.head?, p c = false) : runLength p (cs ++ rest) = cs.length := by
  rw [runLength, takeWhile_append_of_stop hcs hrest]

theorem Breaks.runLength (hrest : Breaks rest) (hp : p '\n' = false) : runLength p rest = 0 := by
  cases rest with
  | nil => rfl
  | cons c rest =>
    obtain rfl : c = '\n' := hrest c rfl
    rw [runLength_cons, hp, if_neg Bool.false_ne_true]

/-- A run ends with the line at the latest. -/
theorem runLength_take_append (hrest : Breaks rest) (hp : p '\n' = false)
    (hn : runLength p cs ≤ n) : runLength p (cs.take n ++ rest) = runLength p cs := by
  induction cs generalizing n with
  | nil =>
    rw [List.take_nil, List.nil_append, hrest.runLength hp]
    rfl
  | cons c cs ih =>
    rw [runLength_cons] at hn ⊢
    cases n with
    | zero =>
      rw [List.take_zero, List.nil_append, hrest.runLength hp]
      exact (Nat.le_zero.1 hn).symm
    | succ n =>
      rw [List.take_succ_cons, List.cons_append, runLength_cons]
      split
      next hc =>
        rw [if_pos hc] at hn
        rw [ih (Nat.le_of_succ_le_succ hn)]
      next => rfl

theorem runLength_take_self (hrest : Breaks rest) (hp : p '\n' = false) (cs : List Char) :
    runLength p (cs.take (runLength p cs) ++ rest) = runLength p cs :=
  runLength_take_append hrest hp (Nat.le_refl _)

theorem drop_take_append (hk : k ≤ n) (hlength : k ≤ cs.length) :
    (cs.take n ++ rest).drop k = (cs.drop k).take (n - k) ++ rest := by
  have hlength : k ≤ (cs.take n).length := by
    rw [List.length_take]
    exact Nat.le_min.2 ⟨hk, hlength⟩
  rw [List.drop_append_of_le_length hlength, List.drop_take]

/-- The first character behind a cut is that of the text, or the line ends. -/
theorem head?_take_append (hrest : Breaks rest) (hc : (cs.take n ++ rest).head? = some c) :
    cs.head? = some c ∨ c = '\n' := by
  cases n with
  | zero => exact .inr (hrest c hc)
  | succ n =>
    cases cs with
    | nil => exact .inr (hrest c hc)
    | cons d cs => exact .inl hc

/-! ### Numbers -/

theorem fractionTail_le_length (cs : List Char) : fractionTail cs ≤ cs.length := by
  unfold fractionTail
  split
  next cs =>
    have := runLength_le_length Char.isDigit cs
    simp only [List.length_cons]
    omega
  next => exact Nat.zero_le _

theorem Breaks.fractionTail (hrest : Breaks rest) : fractionTail rest = 0 := by
  unfold LuaTranspiler.fractionTail
  split
  next => exact absurd (hrest '.' rfl) (by decide)
  next => rfl

theorem fractionTail_take_append (hrest : Breaks rest) (hn : fractionTail cs ≤ n) :
    fractionTail (cs.take n ++ rest) = fractionTail cs := by
  cases n with
  | zero =>
    rw [List.take_zero, List.nil_append, hrest.fractionTail]
    exact (Nat.le_zero.1 hn).symm
  | succ n =>
    cases cs with
    | nil => exact hrest.fractionTail
    | cons c cs =>
      rw [List.take_succ_cons, List.cons_append]
      by_cases hc : c = '.'
      · subst hc
        simp only [LuaTranspiler.fractionTail] at hn ⊢
        rw [runLength_take_append hrest (by decide) (by omega)]
      · have hzero : ∀ ds, LuaTranspiler.fractionTail (c :: ds) = 0 := fun ds => by
          simp [LuaTranspiler.fractionTail, hc]
        rw [hzero, hzero]

theorem exponentTail_le_length (cs : List Char) : exponentTail cs ≤ cs.length := by
  unfold exponentTail
  split
  next => exact Nat.zero_le _
  next e cs =>
    have := runLength_le_length Char.isDigit cs
    have := runLength_le_length Char.isDigit cs.tail
    grind

theorem Breaks.exponentTail (hrest : Breaks rest) : exponentTail rest = 0 := by
  cases rest with
  | nil => rfl
  | cons c rest =>
    obtain rfl : c = '\n' := hrest c rfl
    rfl

theorem exponentTail_take_append (hrest : Breaks rest) :
    exponentTail (cs.take (exponentTail cs) ++ rest) = exponentTail cs := by
  by_cases hzero : LuaTranspiler.exponentTail cs = 0
  · rw [hzero, List.take_zero, List.nil_append, hrest.exponentTail]
  -- An exponent that is there has its letter, perhaps a sign, and a run of digits.
  unfold LuaTranspiler.exponentTail at hzero
  split at hzero
  next => exact absurd rfl hzero
  next e cs =>
    by_cases he : e = 'e' ∨ e = 'E'
    case neg => exact absurd (if_neg he) hzero
    rw [if_pos he] at hzero
    cases cs with
    | nil => exact absurd rfl hzero
    | cons s ds =>
      simp only [LuaTranspiler.exponentTail, if_pos he] at hzero ⊢
      by_cases hs : s = '+' ∨ s = '-'
      · rw [if_pos hs] at hzero
        have hrun : runLength Char.isDigit ds ≠ 0 := fun h => hzero (if_pos h)
        have hsame := runLength_take_self (p := Char.isDigit) hrest (by decide) ds
        rw [if_pos hs, if_neg hrun, Nat.add_comm 2, List.take_succ_cons, List.take_succ_cons]
        simp only [List.cons_append, if_pos he, if_pos hs, hsame, if_neg hrun, Nat.add_comm]
      · rw [if_neg hs] at hzero
        have hrun : runLength Char.isDigit (s :: ds) ≠ 0 := fun h => hzero (if_pos h)
        have hsame := runLength_take_self (p := Char.isDigit) hrest (by decide) (s :: ds)
        rw [if_neg hs, if_neg hrun, Nat.add_comm 1, List.take_succ_cons]
        obtain ⟨n, hn⟩ := Nat.exists_eq_succ_of_ne_zero hrun
        rw [hn, List.take_succ_cons, List.cons_append] at hsame ⊢
        simp only [List.cons_append, if_pos he, if_neg hs, hsame, Nat.succ_ne_zero, if_false,
          Nat.add_comm]

theorem numberTail_le_length (cs : List Char) : numberTail cs ≤ cs.length := by
  have hwhole := runLength_le_length Char.isDigit cs
  have hpart := fractionTail_le_length (cs.drop (runLength Char.isDigit cs))
  have hexponent := exponentTail_le_length (cs.drop (runLength Char.isDigit cs +
    fractionTail (cs.drop (runLength Char.isDigit cs))))
  simp only [List.length_drop] at hpart hexponent
  simp only [numberTail]
  omega

theorem numberTail_take_append (hrest : Breaks rest) :
    numberTail (cs.take (numberTail cs) ++ rest) = numberTail cs := by
  have hwhole := runLength_le_length Char.isDigit cs
  have hpart := fractionTail_le_length (cs.drop (runLength Char.isDigit cs))
  rw [List.length_drop] at hpart
  simp only [numberTail]
  generalize hw : runLength Char.isDigit cs = w at hwhole hpart ⊢
  generalize hf : fractionTail (cs.drop w) = f at hpart ⊢
  generalize he : exponentTail (cs.drop (w + f)) = e
  have hw' : runLength Char.isDigit (cs.take (w + f + e) ++ rest) = w := by
    rw [runLength_take_append hrest (by decide) (by omega), hw]
  have hf' : fractionTail ((cs.take (w + f + e) ++ rest).drop w) = f := by
    rw [drop_take_append (by omega) hwhole, fractionTail_take_append hrest (by omega), hf]
  have he' : exponentTail ((cs.take (w + f + e) ++ rest).drop (w + f)) = e := by
    rw [drop_take_append (by omega) (by omega), Nat.add_sub_cancel_left]
    subst he
    exact exponentTail_take_append hrest
  rw [hw', hf', he']

theorem pointTail_le_length (cs : List Char) : pointTail cs ≤ cs.length := by
  have hpart := runLength_le_length Char.isDigit cs
  have hexponent := exponentTail_le_length (cs.drop (runLength Char.isDigit cs))
  rw [List.length_drop] at hexponent
  simp only [pointTail]
  omega

theorem pointTail_take_append (hrest : Breaks rest) :
    pointTail (cs.take (pointTail cs) ++ rest) = pointTail cs := by
  have hpart := runLength_le_length Char.isDigit cs
  simp only [pointTail]
  generalize hw : runLength Char.isDigit cs = w at hpart ⊢
  generalize he : exponentTail (cs.drop w) = e
  have hw' : runLength Char.isDigit (cs.take (w + e) ++ rest) = w := by
    rw [runLength_take_append hrest (by decide) (by omega), hw]
  have he' : exponentTail ((cs.take (w + e) ++ rest).drop w) = e := by
    rw [drop_take_append (by omega) hpart, Nat.add_sub_cancel_left]
    subst he
    exact exponentTail_take_append hrest
  rw [hw', he']

/-! ### Hexadecimal numbers -/

theorem hexTail?_take_append (hrest : Breaks rest) (h : hexTail? cs = some n) :
    n ≤ cs.length ∧ hexTail? (cs.take n ++ rest) = some n := by
  cases cs with
  | nil => exact absurd h (by simp [hexTail?])
  | cons x cs =>
    simp only [hexTail?] at h
    split at h
    next hx =>
      obtain rfl := Option.some.inj h
      have hlength := runLength_le_length isHexDigit cs
      have hsame := runLength_take_self (p := isHexDigit) hrest (by decide) cs
      refine ⟨by simp only [List.length_cons]; omega, ?_⟩
      rw [Nat.add_comm 1, List.take_succ_cons, List.cons_append, hexTail?, hsame, if_pos hx,
        Nat.add_comm]
    next => exact absurd h (by simp)

/-- A number goes on behind its first digit with no letter `x`. -/
theorem hexTail?_take_numberTail (hrest : Breaks rest) (h : hexTail? cs = none) :
    hexTail? (cs.take (numberTail cs) ++ rest) = none := by
  cases hn : numberTail cs with
  | zero =>
    cases rest with
    | nil => rfl
    | cons d rest =>
      obtain rfl : d = '\n' := hrest d rfl
      rfl
  | succ n =>
    cases cs with
    | nil => exact absurd hn (Nat.succ_ne_zero n).symm
    | cons x cs =>
      have hx : ¬(x = 'x' ∨ x = 'X') := by
        rintro (rfl | rfl) <;> simp [numberTail, runLength_cons, fractionTail, exponentTail] at hn
      rw [List.take_succ_cons, List.cons_append, hexTail?, if_neg fun h => hx h.1]

theorem munchNumber_take_append (hrest : Breaks rest)
    (h : munchNumber c cs = .token kind n) :
    n ≤ cs.length ∧ munchNumber c (cs.take n ++ rest) = .token kind n := by
  unfold munchNumber at h
  split at h
  next m hm =>
    obtain ⟨rfl, rfl⟩ := Lexeme.token.inj h
    obtain ⟨hc, hhex⟩ : c = '0' ∧ hexTail? cs = some m := by simpa using hm
    obtain ⟨hlength, hsame⟩ := hexTail?_take_append hrest hhex
    refine ⟨hlength, ?_⟩
    rw [munchNumber, if_pos hc, hsame]
  next hm =>
    obtain ⟨rfl, rfl⟩ := Lexeme.token.inj h
    refine ⟨numberTail_le_length cs, ?_⟩
    have hnone : (if c = '0' then hexTail? (cs.take (numberTail cs) ++ rest) else none) = none := by
      split
      next hc =>
        rw [if_pos hc] at hm
        exact hexTail?_take_numberTail hrest hm
      next => rfl
    rw [munchNumber, hnone, numberTail_take_append hrest]

/-! ### Strings -/

theorem quotedTail_cons (hc : c ≠ '\\') (cs : List Char) :
    quotedTail quote (c :: cs) =
      if c = quote then (true, 1) else if c = '\n' then (false, 0)
      else ((quotedTail quote cs).1, (quotedTail quote cs).2 + 1) := by
  rw [quotedTail.eq_def]
  simp [hc]

theorem ne_backslash (hlone : c = '\\' → cs = [] → False)
    (hpair : ∀ d ds, c = '\\' → cs = d :: ds → False) : c ≠ '\\' := by
  intro hc
  cases cs with
  | nil => exact hlone hc rfl
  | cons d ds => exact hpair d ds hc rfl

/-- A string is over at its closing quote, whatever follows. -/
theorem quotedTail_take_append (rest : List Char) (h : quotedTail quote cs = (true, n)) :
    n ≤ cs.length ∧ quotedTail quote (cs.take n ++ rest) = (true, n) := by
  fun_induction quotedTail quote cs generalizing n with
  | case1 => exact absurd h (by simp)
  | case2 => exact absurd h (by simp)
  | case3 d cs closed m hm ih =>
    obtain ⟨rfl, rfl⟩ := Prod.mk.inj h
    obtain ⟨hlength, hsame⟩ := ih hm
    refine ⟨by simpa using hlength, ?_⟩
    simp [quotedTail, hsame]
  | case4 cs hlone hpair =>
    obtain ⟨-, rfl⟩ := Prod.mk.inj h
    refine ⟨by simp, ?_⟩
    simp [quotedTail_cons (ne_backslash hlone hpair)]
  | case5 cs hlone hpair hc => exact absurd h (by simp)
  | case6 c cs hlone hpair hc hline closed m hm ih =>
    obtain ⟨rfl, rfl⟩ := Prod.mk.inj h
    obtain ⟨hlength, hsame⟩ := ih hm
    refine ⟨by simpa using hlength, ?_⟩
    simp [quotedTail_cons (ne_backslash hlone hpair), hc, hline, hsame]

theorem munchQuoted_take_append (rest : List Char) (h : munchQuoted quote cs = .token kind n) :
    n ≤ cs.length ∧ munchQuoted quote (cs.take n ++ rest) = .token kind n := by
  unfold munchQuoted at h
  split at h
  next m hm =>
    obtain ⟨rfl, rfl⟩ := Lexeme.token.inj h
    obtain ⟨hlength, hsame⟩ := quotedTail_take_append rest hm
    exact ⟨hlength, by rw [munchQuoted, hsame]⟩
  next => exact absurd h (by simp)

/-! ### Long brackets -/

theorem length_closer (level : Nat) : (closer level).length = level + 2 := by simp [closer]

theorem closingTail?_closer_append (level : Nat) (rest : List Char) :
    closingTail? level (closer level ++ rest) = some (level + 2) := by
  have hcons : closer level ++ rest = ']' :: (List.replicate level '=' ++ [']'] ++ rest) := rfl
  rw [hcons, closingTail?, ← hcons, if_pos (List.isPrefixOf_iff_prefix.2 (List.prefix_append _ _))]

theorem le_of_closingTail? (h : closingTail? level cs = some n) : level + 2 ≤ n := by
  induction cs generalizing n with
  | nil => exact absurd h (by simp [closingTail?])
  | cons c cs ih =>
    rw [closingTail?] at h
    split at h
    next => exact Nat.le_of_eq (Option.some.inj h)
    next =>
      obtain ⟨m, hm, rfl⟩ := Option.map_eq_some_iff.1 h
      exact Nat.le_succ_of_le (ih hm)

/-- A long bracket is over at its closing bracket, whatever follows. -/
theorem closingTail?_take_append (rest : List Char) (h : closingTail? level cs = some n) :
    n ≤ cs.length ∧ closingTail? level (cs.take n ++ rest) = some n := by
  induction cs generalizing n with
  | nil => exact absurd h (by simp [closingTail?])
  | cons c cs ih =>
    rw [closingTail?] at h
    split at h
    next hclose =>
      obtain rfl := Option.some.inj h
      have hprefix := List.isPrefixOf_iff_prefix.1 hclose
      refine ⟨length_closer level ▸ hprefix.length_le, ?_⟩
      rw [← length_closer level, ← List.prefix_iff_eq_take.1 hprefix, length_closer,
        closingTail?_closer_append]
    next hclose =>
      obtain ⟨m, hm, rfl⟩ := Option.map_eq_some_iff.1 h
      obtain ⟨hlength, hsame⟩ := ih hm
      refine ⟨Nat.succ_le_succ hlength, ?_⟩
      rw [List.take_succ_cons, List.cons_append, closingTail?, hsame, if_neg, Option.map_some]
      -- The closing bracket is not longer than what was cut, so it does not start earlier there.
      intro hearly
      have hle : (closer level).length ≤ (c :: cs.take m).length := by
        have := le_of_closingTail? hm
        rw [length_closer, List.length_cons, List.length_take]
        omega
      have hcut : closer level <+: c :: cs.take m :=
        List.prefix_of_prefix_length_le (List.isPrefixOf_iff_prefix.1 hearly)
          (List.prefix_append (c :: cs.take m) rest) hle
      exact hclose (List.isPrefixOf_iff_prefix.2
        (hcut.trans (List.prefix_cons_inj c |>.2 (List.take_prefix m cs))))

theorem openingLevel?_take_append (hrest : Breaks rest) (h : openingLevel? ('[' :: cs) = some level)
    (hn : level < n) :
    level < cs.length ∧ openingLevel? ('[' :: (cs.take n ++ rest)) = some level := by
  simp only [openingLevel?] at h ⊢
  split at h
  next hopen =>
    obtain rfl := Option.some.inj h
    obtain ⟨hlength, -⟩ := List.getElem?_eq_some_iff.1 hopen
    refine ⟨hlength, ?_⟩
    rw [runLength_take_append (p := (· = '=')) hrest (by decide) (Nat.le_of_lt hn), if_pos]
    rw [List.getElem?_append_left (by rw [List.length_take]; omega), List.getElem?_take_of_lt hn,
      hopen]
  next => exact absurd h (by simp)

theorem Breaks.openingLevel? (hrest : Breaks rest) : openingLevel? ('[' :: rest) = none := by
  rw [LuaTranspiler.openingLevel?, hrest.runLength (by decide), if_neg]
  intro hopen
  rw [← List.head?_eq_getElem?] at hopen
  exact absurd (hrest '[' hopen) (by decide)

theorem munchBracket_take_append (hrest : Breaks rest) (h : munchBracket cs = .token kind n) :
    n ≤ cs.length ∧ munchBracket (cs.take n ++ rest) = .token kind n := by
  unfold munchBracket at h
  split at h
  next level hlevel =>
    split at h
    next m hm =>
      obtain ⟨rfl, rfl⟩ := Lexeme.token.inj h
      obtain ⟨hinside, hopen⟩ := openingLevel?_take_append (n := level + 1 + m) hrest hlevel
        (by omega)
      obtain ⟨hlength, hclose⟩ := closingTail?_take_append rest hm
      rw [List.length_drop] at hlength
      refine ⟨by omega, ?_⟩
      rw [munchBracket, hopen]
      simp only [drop_take_append (Nat.le_add_right (level + 1) m) hinside,
        Nat.add_sub_cancel_left, hclose]
    next => exact absurd h (by simp)
  next hlevel =>
    simp only at h
    split at h
    next hrun =>
      obtain ⟨rfl, rfl⟩ := Lexeme.token.inj h
      refine ⟨Nat.zero_le _, ?_⟩
      rw [List.take_zero, List.nil_append, munchBracket, hrest.openingLevel?]
      simp only [hrest.runLength (p := (· = '=')) (by decide), if_true]
    next => exact absurd h (by simp)

/-! ### Symbols -/

/-- A symbol that starts a text cut off at the end of a symbol `x` starts with `x`. -/
theorem prefix_of_symbol {x y : List Char × TokenKind} (hrest : Breaks rest) (hy : y ∈ symbolTable)
    (h : y.1 <+: x.1 ++ rest) : y.1 <+: x.1 := by
  rcases List.prefix_or_prefix_of_prefix h (List.prefix_append x.1 rest) with hle | ⟨more, hmore⟩
  · exact hle
  · cases more with
    | nil => exact ⟨[], by rw [List.append_nil, ← hmore, List.append_nil]⟩
    | cons c more =>
      -- No symbol is spelled with a newline.
      rw [← hmore, List.prefix_append_right_inj] at h
      obtain ⟨tail, rfl⟩ := h
      obtain rfl : c = '\n' := hrest c rfl
      have hspelling : ∀ s ∈ symbolTable, '\n' ∉ s.1 := by decide
      exact absurd (hmore ▸ List.mem_append_right _ List.mem_cons_self) (hspelling y hy)

theorem munchSymbol_take_append (hrest : Breaks rest)
    (h : munchSymbol (c :: cs) = .token kind n) :
    n ≤ cs.length ∧ munchSymbol (c :: (cs.take n ++ rest)) = .token kind n := by
  unfold munchSymbol at h
  split at h
  next spelling found hfind =>
    obtain ⟨rfl, rfl⟩ := Lexeme.token.inj h
    obtain ⟨hstart, before, behind, htable, hbefore⟩ := List.find?_eq_some_iff_append.1 hfind
    have hprefix := List.isPrefixOf_iff_prefix.1 hstart
    have hspelling : ∀ s ∈ symbolTable, s.1 ≠ [] := by decide
    cases spelling with
    | nil => exact absurd rfl (hspelling ([], found) (htable ▸ by simp))
    | cons d ds =>
      obtain ⟨rfl, hds⟩ := List.cons_prefix_cons.1 hprefix
      refine ⟨hds.length_le, ?_⟩
      have hcut : cs.take ((d :: ds).length - 1) = ds := (List.prefix_iff_eq_take.1 hds).symm
      rw [hcut, munchSymbol, List.find?_eq_some_iff_append.2 ⟨?_, before, behind, htable, ?_⟩]
      · exact List.isPrefixOf_iff_prefix.2 (List.prefix_append (d :: ds) rest)
      · intro y hy
        refine Bool.not_eq_eq_eq_not.2 (Bool.eq_false_iff.2 fun hlong => ?_)
        have hshort : y.1 <+: d :: ds := prefix_of_symbol (x := (d :: ds, found)) hrest
          (htable ▸ List.mem_append_left _ hy) (List.isPrefixOf_iff_prefix.1 hlong)
        have := hbefore y hy
        rw [List.isPrefixOf_iff_prefix.2 (hshort.trans hprefix)] at this
        exact absurd this (by decide)
  next => exact absurd h (by simp)

/-! ### Tokens -/

theorem startsWithDigit_eq (cs : List Char) :
    startsWithDigit cs = cs.head?.any Char.isDigit := by
  cases cs <;> rfl

theorem startsWithDigit_take_append (hrest : Breaks rest) (h : startsWithDigit cs = false) :
    startsWithDigit (cs.take n ++ rest) = false := by
  rw [startsWithDigit_eq] at h ⊢
  cases hhead : (cs.take n ++ rest).head? with
  | none => rfl
  | some c =>
    rcases head?_take_append hrest hhead with hc | rfl
    · rwa [hc] at h
    · rfl

theorem startsWithDigit_take_pointTail (h : startsWithDigit cs = true) :
    startsWithDigit (cs.take (pointTail cs) ++ rest) = true := by
  cases cs with
  | nil => exact absurd h (by decide)
  | cons c cs =>
    have hrun : runLength Char.isDigit (c :: cs) = runLength Char.isDigit cs + 1 := by
      rw [runLength_cons, if_pos (show c.isDigit = true from h)]
    have hpoint : pointTail (c :: cs) = runLength Char.isDigit cs +
        exponentTail ((c :: cs).drop (runLength Char.isDigit cs + 1)) + 1 := by
      rw [pointTail, hrun, Nat.add_right_comm]
    rw [hpoint, List.take_succ_cons]
    exact h

theorem kind_of_munchComment (h : munchComment cs = .token kind n) : kind = .comment := by
  unfold munchComment at h
  grind

/-- The token at the head of a text is the same token when it is cut out and the line ends behind
it. -/
theorem munch_take_append (hrest : Breaks rest) (h : munch c cs = .token kind n)
    (hkind : kind ≠ .comment) :
    n ≤ cs.length ∧ munch c (cs.take n ++ rest) = .token kind n := by
  unfold munch at h ⊢
  by_cases hname : isNameStart c = true
  · rw [if_pos hname] at h ⊢
    obtain ⟨rfl, rfl⟩ := Lexeme.token.inj h
    have hlength := runLength_le_length isNameChar cs
    have hsame := runLength_take_self (p := isNameChar) hrest (by decide) cs
    refine ⟨hlength, ?_⟩
    simp only [hsame, List.take_append_of_le_length, List.length_take, List.take_take,
      Nat.min_self, Nat.min_eq_left hlength, Nat.le_refl]
  rw [if_neg hname] at h ⊢
  by_cases hdigit : c.isDigit = true
  · rw [if_pos hdigit] at h ⊢
    exact munchNumber_take_append hrest h
  rw [if_neg hdigit] at h ⊢
  by_cases hpoint : (c = '.' && startsWithDigit cs) = true
  · rw [if_pos hpoint] at h
    obtain ⟨rfl, rfl⟩ := Lexeme.token.inj h
    obtain ⟨hc, hstart⟩ := Bool.and_eq_true_iff.1 hpoint
    refine ⟨pointTail_le_length cs, ?_⟩
    rw [hc, startsWithDigit_take_pointTail hstart, Bool.and_self, if_pos rfl,
      pointTail_take_append hrest]
  rw [if_neg hpoint] at h
  have hpoint' : ¬(c = '.' && startsWithDigit (cs.take n ++ rest)) = true := by
    intro hand
    obtain ⟨hc, hstart⟩ := Bool.and_eq_true_iff.1 hand
    rw [hc, Bool.true_and, Bool.not_eq_true] at hpoint
    rw [startsWithDigit_take_append hrest hpoint] at hstart
    exact Bool.false_ne_true hstart
  rw [if_neg hpoint']
  by_cases hquote : (c = '"' || c = '\'') = true
  · rw [if_pos hquote] at h ⊢
    exact munchQuoted_take_append rest h
  rw [if_neg hquote] at h ⊢
  by_cases hbracket : c = '['
  · rw [if_pos hbracket] at h ⊢
    exact munchBracket_take_append hrest h
  rw [if_neg hbracket] at h ⊢
  by_cases hdash : (c = '-' && cs.head? = some '-') = true
  · rw [if_pos hdash] at h
    exact absurd (kind_of_munchComment h) hkind
  rw [if_neg hdash] at h
  have hdash' : ¬(c = '-' && (cs.take n ++ rest).head? = some '-') = true := by
    intro hand
    obtain ⟨hc, hhead⟩ := Bool.and_eq_true_iff.1 hand
    rcases head?_take_append hrest (of_decide_eq_true hhead) with hcs | hline
    · exact hdash (by rw [hc, hcs]; rfl)
    · exact absurd hline (by decide)
  rw [if_neg hdash']
  exact munchSymbol_take_append hrest h

/-! ### Texts of tokens -/

/-- A text that is the token of a kind wherever it comes first and the line ends behind it. -/
def StandsAlone (kind : TokenKind) (text : List Char) : Prop :=
  ∃ c cs, text = c :: cs ∧ isLayout c = false ∧
    ∀ rest, Breaks rest → munch c (cs ++ rest) = .token kind cs.length

theorem standsAlone_of_munch (hc : isLayout c = false) (h : munch c cs = .token kind n)
    (hkind : kind ≠ .comment) : StandsAlone kind (c :: cs.take n) := by
  refine ⟨c, cs.take n, rfl, hc, fun rest hrest => ?_⟩
  obtain ⟨hlength, hsame⟩ := munch_take_append hrest h hkind
  rw [hsame, List.length_take, Nat.min_eq_left hlength]

end Munch

/-- Every token but a comment stands alone. -/
theorem standsAlone_of_tokensFrom {p : Point} {cs : List Char} {ts : List Token}
    (h : tokensFrom p cs = .ok ts) {t : Token} (ht : t ∈ ts) (hkind : t.kind ≠ .comment) :
    StandsAlone t.kind t.literal.toList := by
  fun_induction tokensFrom p cs generalizing ts with
  | case1 p =>
    cases h
    cases ht
  | case2 p c cs _ ih => exact ih h ht
  | case3 p c cs hc =>
    rename_i n hmunch text stop us hus ih
    cases h
    rcases List.mem_cons.1 ht with rfl | ht
    · rw [String.toList_ofList]
      exact standsAlone_of_munch (Bool.eq_false_iff.2 hc) hmunch hkind
    · exact ih hus ht
  | case4 => cases h
  | case5 => cases h

/-- The kind and the text of a token, without its place. -/
def Token.lexeme (t : Token) : TokenKind × String := (t.kind, t.literal)

/-- A token that stands alone is cut off the text that it starts, and layout behind it is
skipped. -/
theorem tokensFrom_append {kind : TokenKind} {text rest : List Char} (h : StandsAlone kind text)
    (hrest : Breaks rest) (p : Point) {ts : List Token}
    (hts : tokensFrom (p.after text) rest = .ok ts) :
    tokensFrom p (text ++ rest) =
      .ok (⟨kind, String.ofList text, .between p (p.after text)⟩ :: ts) := by
  obtain ⟨c, cs, rfl, hc, hmunch⟩ := h
  rw [List.cons_append, tokensFrom, if_neg (by simp [hc]), hmunch rest hrest]
  simp only [List.take_left, List.drop_left, hts]

/-- Behind the first of several lines the line ends, and the other lines have the tokens of what
follows. -/
theorem exists_intercalate_cons (text : List Char) (texts : List (List Char)) :
    ∃ rest, Breaks rest ∧ ['\n'].intercalate (text :: texts) = text ++ rest ∧
      ∀ p, ∃ q, tokensFrom p rest = tokensFrom q (['\n'].intercalate texts) := by
  cases texts with
  | nil => exact ⟨[], by simp [Breaks], by simp, fun p => ⟨p, by simp⟩⟩
  | cons next texts =>
    refine ⟨'\n' :: ['\n'].intercalate (next :: texts), by simp [Breaks], ?_, fun p => ?_⟩
    · rw [List.intercalate_cons_cons, List.append_assoc, List.singleton_append]
    · exact ⟨p.next '\n', by rw [tokensFrom, if_pos (by decide)]⟩

/-- Tokens that stand alone are cut from the text that has them on lines of their own. -/
theorem tokensFrom_intercalate {xs : List (TokenKind × String)}
    (hxs : ∀ x ∈ xs, StandsAlone x.1 x.2.toList) (p : Point) :
    ∃ ts, tokensFrom p (['\n'].intercalate (xs.map fun x => x.2.toList)) = .ok ts ∧
      ts.map Token.lexeme = xs := by
  induction xs generalizing p with
  | nil => exact ⟨[], by simp [tokensFrom], rfl⟩
  | cons x xs ih =>
    obtain ⟨rest, hrest, htext, hskip⟩ :=
      exists_intercalate_cons x.2.toList (xs.map fun x => x.2.toList)
    obtain ⟨q, hq⟩ := hskip (p.after x.2.toList)
    obtain ⟨ts, hts, hlexemes⟩ := ih (fun y hy => hxs y (List.mem_cons_of_mem x hy)) q
    have hcut := tokensFrom_append (hxs x List.mem_cons_self) hrest p (hq.trans hts)
    rw [← htext] at hcut
    exact ⟨_, hcut, by simp [Token.lexeme, hlexemes]⟩

end LuaTranspiler
