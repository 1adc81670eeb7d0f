import LuaTranspiler.Proofs.Token.Respacing
import Mathlib.Computability.Language

/-!
# The patterns of tokens

Each kind of token has a pattern: a fixed spelling, or a regular expression. For a long string the
pattern is its opening bracket only, and for a comment its two dashes. How far a pattern matches at
the head of a text is found piece by piece: a run of characters is taken as a whole, since what
comes behind it in a pattern never starts with such a character.

* `Pattern`, `Pattern.language`: regular expressions over classes of characters, and their texts
* `TokenKind.pattern`: the pattern of each kind
* `Pattern.Reaches a cs o`: how far `a` matches at the head of `cs`, if it does
* `reaches_exponent`, `reaches_numberTail`, `reaches_hexTail?`: how far the parts of numbers match
-/

namespace LuaTranspiler

open scoped Computability

/-- A regular expression over classes of characters. -/
inductive Pattern where
  | empty
  | one (p : Char → Bool)
  | seq (a b : Pattern)
  | alt (a b : Pattern)
  | star (a : Pattern)

namespace Pattern

/-- The texts that a pattern matches. -/
def language : Pattern → Language Char
  | empty => 1
  | one p => {w | ∃ c, p c = true ∧ w = [c]}
  | seq a b => a.language * b.language
  | alt a b => a.language + b.language
  | star a => a.language∗

/-- An optional pattern. -/
def opt (a : Pattern) : Pattern := alt empty a

/-- A pattern once or more. -/
def plus (a : Pattern) : Pattern := seq a (star a)

/-- A fixed text. -/
def text (s : String) : Pattern := s.toList.foldr (fun c a => seq (one (· = c)) a) empty

/-- One or more decimal digits. -/
def digits : Pattern := plus (one Char.isDigit)

/-- The exponent of a number. -/
def exponent : Pattern :=
  seq (one fun c => c = 'e' || c = 'E') (seq (opt (one fun c => c = '+' || c = '-')) digits)

/-- The point of a number that starts with a digit, and the digits behind it. -/
def fraction : Pattern := seq (one (· = '.')) (star (one Char.isDigit))

/-- A character of a string between two quotes, or a backslash and any character. -/
def quotedUnit (quote : Char) : Pattern :=
  alt (seq (one (· = '\\')) (one fun _ => true)) (one fun c => c ≠ quote && c ≠ '\\' && c ≠ '\n')

/-- A string between two quotes. -/
def quoted (quote : Char) : Pattern :=
  seq (one (· = quote)) (seq (star (quotedUnit quote)) (one (· = quote)))

end Pattern

open Pattern in
/-- The pattern of a kind of token. -/
def TokenKind.pattern : TokenKind → Pattern
  | plus => text "+"
  | minus => text "-"
  | star => text "*"
  | slash => text "/"
  | doubleSlash => text "//"
  | percent => text "%"
  | caret => text "^"
  | hash => text "#"
  | ampersand => text "&"
  | tilde => text "~"
  | pipe => text "|"
  | shiftLeft => text "<<"
  | shiftRight => text ">>"
  | doubleEqual => text "=="
  | tildeEqual => text "~="
  | less => text "<"
  | lessEqual => text "<="
  | greater => text ">"
  | greaterEqual => text ">="
  | equal => text "="
  | leftParen => text "("
  | rightParen => text ")"
  | leftBrace => text "\x7b"
  | rightBrace => text "\x7d"
  | leftBracket => text "["
  | rightBracket => text "]"
  | semicolon => text ";"
  | colon => text ":"
  | doubleColon => text "::"
  | comma => text ","
  | dot => text "."
  | doubleDot => text ".."
  | ellipsis => text "..."
  | kwAnd => text "and"
  | kwBreak => text "break"
  | kwDo => text "do"
  | kwElse => text "else"
  | kwElseif => text "elseif"
  | kwEnd => text "end"
  | kwFalse => text "false"
  | kwFor => text "for"
  | kwFunction => text "function"
  | kwGoto => text "goto"
  | kwIf => text "if"
  | kwIn => text "in"
  | kwLocal => text "local"
  | kwNil => text "nil"
  | kwNot => text "not"
  | kwOr => text "or"
  | kwRepeat => text "repeat"
  | kwReturn => text "return"
  | kwThen => text "then"
  | kwTrue => text "true"
  | kwUntil => text "until"
  | kwWhile => text "while"
  | name => seq (one isNameStart) (Pattern.star (one isNameChar))
  | number =>
    alt (seq digits (seq (opt fraction) (opt exponent)))
      (seq (one (· = '.')) (seq digits (opt exponent)))
  | hexNumber =>
    seq (one (· = '0')) (seq (one fun c => c = 'x' || c = 'X') (Pattern.plus (one isHexDigit)))
  | string => alt (quoted '"') (quoted '\'')
  | longString => seq (one (· = '[')) (seq (Pattern.star (one (· = '='))) (one (· = '[')))
  | comment => text "--"

namespace Pattern

variable {a b : Pattern} {p : Char → Bool} {w v cs ds : List Char} {c : Char} {n : Nat}
  {o : Option Nat}

/-! ### Texts that match -/

@[simp] theorem mem_empty : w ∈ empty.language ↔ w = [] := Iff.rfl

@[simp] theorem mem_one : w ∈ (one p).language ↔ ∃ c, p c = true ∧ w = [c] := Iff.rfl

@[simp] theorem mem_seq :
    w ∈ (seq a b).language ↔ ∃ u ∈ a.language, ∃ v ∈ b.language, u ++ v = w := Iff.rfl

@[simp] theorem mem_alt : w ∈ (alt a b).language ↔ w ∈ a.language ∨ w ∈ b.language := Iff.rfl

@[simp] theorem mem_opt : w ∈ (opt a).language ↔ w = [] ∨ w ∈ a.language := Iff.rfl

theorem nil_mem_star : [] ∈ (star a).language := Language.nil_mem_kstar _

theorem append_mem_star (hv : v ∈ a.language) (hw : w ∈ (star a).language) :
    v ++ w ∈ (star a).language := by
  obtain ⟨us, rfl, hus⟩ := Language.mem_kstar.1 hw
  exact Language.mem_kstar.2 ⟨v :: us, rfl, List.forall_mem_cons.2 ⟨hv, hus⟩⟩

theorem star_induction {P : List Char → Prop} (hnil : P [])
    (happend : ∀ v ∈ a.language, ∀ w, P w → P (v ++ w)) (hw : w ∈ (star a).language) : P w := by
  obtain ⟨us, rfl, hus⟩ := Language.mem_kstar.1 hw
  induction us with
  | nil => exact hnil
  | cons u us ih =>
    obtain ⟨hu, hus⟩ := List.forall_mem_cons.1 hus
    exact happend u hu _ (ih hus (Language.mem_kstar.2 ⟨us, rfl, hus⟩))

@[simp] theorem mem_star_one : w ∈ (star (one p)).language ↔ ∀ c ∈ w, p c = true := by
  constructor
  · intro hw
    refine star_induction (P := fun w => ∀ c ∈ w, p c = true) (List.forall_mem_nil _) ?_ hw
    rintro _ ⟨c, hc, rfl⟩ w hw
    exact List.forall_mem_cons.2 ⟨hc, hw⟩
  · intro hw
    induction w with
    | nil => exact nil_mem_star
    | cons c w ih =>
      obtain ⟨hc, hw⟩ := List.forall_mem_cons.1 hw
      exact append_mem_star (mem_one.2 ⟨c, hc, rfl⟩) (ih hw)

@[simp] theorem mem_text {s : String} : w ∈ (text s).language ↔ w = s.toList := by
  unfold text
  induction s.toList generalizing w with
  | nil => rfl
  | cons c cs ih =>
    simp only [List.foldr_cons, mem_seq, mem_one, decide_eq_true_eq]
    constructor
    · rintro ⟨_, ⟨_, rfl, rfl⟩, v, hv, rfl⟩
      rw [ih.1 hv, List.singleton_append]
    · rintro rfl
      exact ⟨[c], ⟨c, rfl, rfl⟩, cs, ih.2 rfl, rfl⟩

/-! ### How far a pattern matches -/

/-- How far a pattern matches at the head of a text: the length of the longest text that it matches
there, if it matches any. -/
structure Reaches (a : Pattern) (cs : List Char) (o : Option Nat) : Prop where
  attained : ∀ n ∈ o, n ≤ cs.length ∧ cs.take n ∈ a.language
  bounded : ∀ w ∈ a.language, w <+: cs → ∃ n ∈ o, w.length ≤ n

/-- What an optional pattern matches may be nothing. -/
theorem Reaches.opt (h : Reaches a cs o) : Reaches (opt a) cs (some (o.getD 0)) := by
  refine ⟨fun n hn => ?_, fun w hw hprefix => ⟨_, rfl, ?_⟩⟩
  · obtain rfl := Option.some.inj hn
    cases o with
    | none => exact ⟨Nat.zero_le _, .inl rfl⟩
    | some n => exact ⟨(h.attained n rfl).1, .inr (h.attained n rfl).2⟩
  · rcases mem_opt.1 hw with rfl | hw
    · exact Nat.zero_le _
    · obtain ⟨n, rfl, hle⟩ := h.bounded w hw hprefix
      exact hle

/-- A character of a class, and what matches behind it. -/
theorem Reaches.cons (h : Reaches b cs o) (hc : p c = true) :
    Reaches (seq (one p) b) (c :: cs) (o.map (· + 1)) := by
  refine ⟨fun n hn => ?_, ?_⟩
  · obtain ⟨m, rfl, rfl⟩ := Option.mem_map.1 hn
    obtain ⟨hle, hmem⟩ := h.attained m rfl
    exact ⟨Nat.succ_le_succ hle, [c], ⟨c, hc, rfl⟩, _, hmem, rfl⟩
  · rintro _ ⟨_, ⟨d, hd, rfl⟩, v, hv, rfl⟩ hprefix
    obtain ⟨m, rfl, hle⟩ := h.bounded v hv (List.cons_prefix_cons.1 hprefix).2
    exact ⟨m + 1, rfl, Nat.succ_le_succ hle⟩

/-- Nothing matches that would start with a character of another class. -/
theorem reaches_none (hcs : ∀ c ∈ cs.head?, p c = false) : Reaches (seq (one p) b) cs none := by
  refine ⟨fun n hn => (Option.not_mem_none n hn).elim, ?_⟩
  rintro _ ⟨_, ⟨d, hd, rfl⟩, v, hv, rfl⟩ hprefix
  cases cs with
  | nil => simp at hprefix
  | cons c cs =>
    obtain ⟨rfl, -⟩ := List.cons_prefix_cons.1 hprefix
    exact absurd hd (by simp [hcs d rfl])

theorem Reaches.seq_assoc {a' : Pattern} (h : Reaches (seq a (seq a' b)) cs o) :
    Reaches (seq (seq a a') b) cs o := by
  have hsame : (seq (seq a a') b).language = (seq a (seq a' b)).language := mul_assoc ..
  exact ⟨fun n hn => hsame ▸ h.attained n hn, fun w hw => h.bounded w (hsame ▸ hw)⟩

/-- An optional pattern that takes part in the longest match. -/
theorem Reaches.opt_seq (h : Reaches (seq a b) cs o) {o' : Option Nat} (hb : Reaches b cs o')
    (hle : ∀ m ∈ o', ∃ n ∈ o, m ≤ n) : Reaches (seq (Pattern.opt a) b) cs o := by
  refine ⟨fun n hn => ?_, ?_⟩
  · obtain ⟨hlength, u, hu, v, hv, heq⟩ := h.attained n hn
    exact ⟨hlength, u, .inr hu, v, hv, heq⟩
  · rintro _ ⟨u, hu, v, hv, rfl⟩ hprefix
    rcases mem_opt.1 hu with rfl | hu
    · obtain ⟨m, hm, hlength⟩ := hb.bounded v hv hprefix
      obtain ⟨n, hn, hmn⟩ := hle m hm
      exact ⟨n, hn, hlength.trans hmn⟩
    · exact h.bounded _ ⟨u, hu, v, hv, rfl⟩ hprefix

/-- An optional pattern that does not match. -/
theorem Reaches.skip (hb : Reaches b cs o) (h : Reaches (seq a b) cs none) :
    Reaches (seq (Pattern.opt a) b) cs o := by
  refine ⟨fun n hn => ?_, ?_⟩
  · obtain ⟨hlength, hmem⟩ := hb.attained n hn
    exact ⟨hlength, [], .inl rfl, _, hmem, rfl⟩
  · rintro _ ⟨u, hu, v, hv, rfl⟩ hprefix
    rcases mem_opt.1 hu with rfl | hu
    · exact hb.bounded v hv hprefix
    · obtain ⟨n, hn, -⟩ := h.bounded _ ⟨u, hu, v, hv, rfl⟩ hprefix
      exact (Option.not_mem_none n hn).elim

/-! ### Runs of characters -/

/-- A run of characters at the head of a text is the whole run, or more of them follow. -/
theorem run_split (hds : ∀ d ∈ ds, p d = true) (h : ds ++ v <+: cs) :
    (ds.length = runLength p cs ∧ v <+: cs.drop (runLength p cs)) ∨
      (ds.length < runLength p cs ∧ ∀ c ∈ v.head?, p c = true) := by
  induction ds generalizing cs with
  | nil =>
    cases cs with
    | nil => exact .inl ⟨rfl, h⟩
    | cons c cs =>
      rw [runLength_cons]
      split
      next hc =>
        refine .inr ⟨Nat.succ_pos _, fun d hd => ?_⟩
        cases v with
        | nil => cases hd
        | cons e v =>
          obtain ⟨rfl, -⟩ := List.cons_prefix_cons.1 h
          rwa [← Option.some.inj hd]
      next => exact .inl ⟨rfl, h⟩
  | cons d ds ih =>
    cases cs with
    | nil => simp at h
    | cons c cs =>
      obtain ⟨rfl, hrest⟩ := List.cons_prefix_cons.1 h
      rw [runLength_cons, if_pos (hds d List.mem_cons_self)]
      simpa using ih (fun e he => hds e (List.mem_cons_of_mem d he)) hrest

theorem forall_mem_take_runLength (p : Char → Bool) (cs : List Char) :
    ∀ c ∈ cs.take (runLength p cs), p c = true := by
  have htake : cs.take (runLength p cs) = cs.takeWhile p :=
    (List.prefix_iff_eq_take.1 (List.takeWhile_prefix p)).symm
  rw [htake]
  exact List.all_eq_true.1 List.all_takeWhile

theorem forall_mem_head?_drop_runLength (p : Char → Bool) (cs : List Char) :
    ∀ c ∈ (cs.drop (runLength p cs)).head?, p c = false := by
  induction cs with
  | nil => simp
  | cons c cs ih =>
    rw [runLength_cons]
    split
    next => exact ih
    next hc => simpa using hc

/-- A run of characters is taken as a whole where what comes behind it does not start with one of
them. -/
theorem Reaches.run (h : Reaches b (cs.drop (runLength p cs)) o)
    (hhead : ∀ w ∈ b.language, ∀ c ∈ w.head?, p c = false) :
    Reaches (seq (star (one p)) b) cs (o.map (runLength p cs + ·)) := by
  refine ⟨fun m hm => ?_, ?_⟩
  · obtain ⟨n, hn, rfl⟩ := Option.mem_map.1 hm
    obtain ⟨hle, hmem⟩ := h.attained n hn
    have hrun := runLength_le_length p cs
    rw [List.length_drop] at hle
    refine ⟨by omega, _, mem_star_one.2 (forall_mem_take_runLength p cs), _, hmem, ?_⟩
    rw [List.take_add]
  · rintro _ ⟨ds, hds, v, hv, rfl⟩ hprefix
    rw [List.length_append]
    obtain ⟨hlength, hv'⟩ | ⟨hlength, hmore⟩ := run_split (mem_star_one.1 hds) hprefix
    · obtain ⟨n, hn, hle⟩ := h.bounded v hv hv'
      exact ⟨_, Option.mem_map_of_mem _ hn, by omega⟩
    · -- a shorter run has one more character of its class behind it, which `b` cannot start with
      cases v with
      | nil =>
        obtain ⟨n, hn, -⟩ := h.bounded [] hv List.nil_prefix
        exact ⟨_, Option.mem_map_of_mem _ hn, by simp; omega⟩
      | cons c v => exact absurd (hmore c rfl) (by simp [hhead _ hv c rfl])

theorem reaches_star_one (p : Char → Bool) (cs : List Char) :
    Reaches (star (one p)) cs (some (runLength p cs)) := by
  refine ⟨fun m hm => ?_, fun w hw hprefix => ⟨_, rfl, ?_⟩⟩
  · obtain rfl := Option.some.inj hm
    exact ⟨runLength_le_length p cs, mem_star_one.2 (forall_mem_take_runLength p cs)⟩
  · rw [← List.append_nil w] at hprefix
    obtain ⟨hlength, -⟩ | ⟨hlength, -⟩ := run_split (mem_star_one.1 hw) hprefix
    · exact hlength.le
    · exact hlength.le

/-- The length of a run of characters, of one at least. -/
def run? (p : Char → Bool) (cs : List Char) : Option Nat :=
  if runLength p cs = 0 then none else some (runLength p cs)

theorem reaches_plus_one (p : Char → Bool) (cs : List Char) :
    Reaches (plus (one p)) cs (run? p cs) := by
  cases cs with
  | nil => exact reaches_none (by simp)
  | cons c cs =>
    rw [run?, runLength_cons]
    cases hc : p c with
    | false => exact reaches_none (by simpa using hc)
    | true => exact (reaches_star_one p cs).cons hc

/-! ### Numbers -/

/-- The length of digits that a sign may stand before. -/
def signedRun? : List Char → Option Nat
  | [] => none
  | s :: ds =>
    if s = '+' ∨ s = '-' then (run? Char.isDigit ds).map (· + 1) else run? Char.isDigit (s :: ds)

theorem reaches_signedRun? (cs : List Char) :
    Reaches (seq (opt (one fun c => c = '+' || c = '-')) digits) cs (signedRun? cs) := by
  cases cs with
  | nil => exact (reaches_plus_one _ _).skip (reaches_none (by simp))
  | cons s ds =>
    rw [signedRun?]
    split
    next hs =>
      have hdigit : Reaches digits (s :: ds) none := by
        refine reaches_none fun c hc => ?_
        obtain rfl := Option.some.inj hc
        rcases hs with rfl | rfl <;> decide
      exact ((reaches_plus_one _ ds).cons (by simpa using hs)).opt_seq hdigit (by simp)
    next hs => exact (reaches_plus_one _ _).skip (reaches_none (by simpa using hs))

theorem exponentTail_cons (e : Char) (cs : List Char) : exponentTail (e :: cs) =
    if e = 'e' ∨ e = 'E' then ((signedRun? cs).map (· + 1)).getD 0 else 0 := by
  rw [exponentTail.eq_def]
  cases cs with
  | nil => rfl
  | cons s ds =>
    simp only [signedRun?, run?]
    split_ifs <;> simp <;> omega

/-- An exponent matches as far as it is read. -/
theorem reaches_exponent (cs : List Char) : Reaches (opt exponent) cs (some (exponentTail cs)) := by
  cases cs with
  | nil => exact (reaches_none (by simp)).opt
  | cons e cs =>
    rw [exponentTail_cons]
    split
    next he => exact ((reaches_signedRun? cs).cons (by simpa using he)).opt
    next he => exact (reaches_none (by simpa using he)).opt

theorem head_of_mem_exponent (hw : w ∈ (opt exponent).language) :
    ∀ c ∈ w.head?, c = 'e' ∨ c = 'E' := by
  rcases mem_opt.1 hw with rfl | ⟨_, ⟨e, he, rfl⟩, v, -, rfl⟩
  · simp
  · rintro c hc
    obtain rfl := Option.some.inj hc
    simpa using he

theorem isDigit_of_exponent (hw : w ∈ (opt exponent).language) (hc : c ∈ w.head?) :
    c.isDigit = false := by
  rcases head_of_mem_exponent hw c hc with rfl | rfl <;> decide

/-- Digits and an exponent match as far as they are read. -/
theorem reaches_pointTail (cs : List Char) :
    Reaches (seq (star (one Char.isDigit)) (opt exponent)) cs (some (pointTail cs)) :=
  (reaches_exponent _).run fun _ hw _ hc => isDigit_of_exponent hw hc

theorem reaches_fractionTail (cs : List Char) : Reaches (seq (opt fraction) (opt exponent)) cs
    (some (fractionTail cs + exponentTail (cs.drop (fractionTail cs)))) := by
  cases cs with
  | nil => exact (reaches_exponent _).skip (Reaches.seq_assoc (reaches_none (by simp)))
  | cons c cs =>
    by_cases hc : c = '.'
    · have htail : fractionTail (c :: cs) = runLength Char.isDigit cs + 1 := by
        simp [fractionTail, hc, Nat.add_comm]
      have hreach : Reaches (seq fraction (opt exponent)) (c :: cs) (some (pointTail cs + 1)) :=
        .seq_assoc ((reaches_pointTail cs).cons (by simpa using hc))
      rw [htail, List.drop_succ_cons, Nat.add_right_comm]
      -- without the fraction nothing matches, since a point does not start an exponent
      exact hreach.opt_seq (reaches_exponent _) (by simp [exponentTail_cons, hc])
    · have htail : fractionTail (c :: cs) = 0 := by simp [fractionTail, hc]
      rw [htail, Nat.zero_add, List.drop_zero]
      exact (reaches_exponent _).skip (.seq_assoc (reaches_none (by simpa using hc)))

theorem isDigit_of_fraction (hw : w ∈ (seq (opt fraction) (opt exponent)).language)
    (hc : c ∈ w.head?) : c.isDigit = false := by
  obtain ⟨u, hu, v, hv, rfl⟩ := hw
  rcases mem_opt.1 hu with rfl | ⟨_, ⟨d, hd, rfl⟩, u, -, rfl⟩
  · exact isDigit_of_exponent hv hc
  · obtain rfl := Option.some.inj hc
    obtain rfl : d = '.' := by simpa using hd
    rfl

/-- What continues a number behind its first digit matches as far as it is read. -/
theorem reaches_numberTail (cs : List Char) :
    Reaches (seq (star (one Char.isDigit)) (seq (opt fraction) (opt exponent))) cs
      (some (numberTail cs)) := by
  have hreach := (reaches_fractionTail (cs.drop (runLength Char.isDigit cs))).run
    fun _ hw _ hc => isDigit_of_fraction hw hc
  simpa [numberTail, Nat.add_assoc] using hreach

/-- What is read of a number that starts with `c`. -/
def numberReach? (c : Char) (cs : List Char) : Option Nat :=
  if c.isDigit then some (numberTail cs + 1)
  else if c = '.' && startsWithDigit cs then some (pointTail cs + 1)
  else none

/-- A point with digits behind it. -/
theorem reaches_pointDigits (cs : List Char) : Reaches (seq digits (opt exponent)) cs
    (if startsWithDigit cs then some (pointTail cs) else none) := by
  cases cs with
  | nil => exact .seq_assoc (reaches_none (by simp))
  | cons c cs =>
    rw [startsWithDigit]
    split
    next hc =>
      have htail : pointTail (c :: cs) = pointTail cs + 1 := by
        rw [pointTail, pointTail, runLength_cons, if_pos hc, List.drop_succ_cons]
        omega
      rw [htail]
      exact .seq_assoc ((reaches_pointTail cs).cons hc)
    next hc => exact .seq_assoc (reaches_none (by simpa using hc))

/-- Two patterns of which the second does not match. -/
theorem Reaches.alt (ha : Reaches a cs o) (hb : Reaches b cs none) : Reaches (alt a b) cs o := by
  refine ⟨fun n hn => ⟨(ha.attained n hn).1, .inl (ha.attained n hn).2⟩, fun w hw hprefix => ?_⟩
  rcases mem_alt.1 hw with hw | hw
  · exact ha.bounded w hw hprefix
  · obtain ⟨n, hn, -⟩ := hb.bounded w hw hprefix
    exact (Option.not_mem_none n hn).elim

theorem Reaches.alt_right (ha : Reaches a cs none) (hb : Reaches b cs o) :
    Reaches (Pattern.alt a b) cs o := by
  have hsame : (Pattern.alt a b).language = (Pattern.alt b a).language := add_comm ..
  have h := hb.alt ha
  exact ⟨fun n hn => hsame ▸ h.attained n hn, fun w hw => h.bounded w (hsame ▸ hw)⟩

theorem reaches_number (c : Char) (cs : List Char) :
    Reaches TokenKind.number.pattern (c :: cs) (numberReach? c cs) := by
  unfold numberReach?
  -- a point is not a digit, so at most one of the two alternatives matches
  by_cases hc : c.isDigit = true
  · have hpoint : c ≠ '.' := by
      rintro rfl
      exact absurd hc (by decide)
    rw [if_pos hc]
    exact .alt (.seq_assoc ((reaches_numberTail cs).cons hc)) (reaches_none (by simpa using hpoint))
  · rw [if_neg hc]
    refine .alt_right (.seq_assoc (reaches_none (by simpa using hc))) ?_
    by_cases hpoint : c = '.'
    · have hreach := (reaches_pointDigits cs).cons (p := (· = '.')) (decide_eq_true hpoint)
      cases hdigit : startsWithDigit cs <;> simpa [hpoint, hdigit] using hreach
    · rw [if_neg (by simp [hpoint])]
      exact reaches_none (by simpa using hpoint)

theorem reaches_hexTail? (cs : List Char) :
    Reaches (seq (one fun c => c = 'x' || c = 'X') (plus (one isHexDigit))) cs (hexTail? cs) := by
  cases cs with
  | nil => exact reaches_none (by simp)
  | cons x cs =>
    by_cases hx : x = 'x' ∨ x = 'X'
    · have hsame : hexTail? (x :: cs) = (run? isHexDigit cs).map (· + 1) := by
        rw [hexTail?, run?]
        split_ifs <;> simp_all [Nat.add_comm]
      rw [hsame]
      exact (reaches_plus_one _ cs).cons (by simpa using hx)
    · have hnone : hexTail? (x :: cs) = none := if_neg fun h => hx h.1
      rw [hnone]
      exact reaches_none (by simpa using hx)

theorem reaches_hexNumber (c : Char) (cs : List Char) :
    Reaches TokenKind.hexNumber.pattern (c :: cs)
      (if c = '0' then (hexTail? cs).map (· + 1) else none) := by
  split
  next hc => exact (reaches_hexTail? cs).cons (decide_eq_true hc)
  next hc => exact reaches_none (by simpa using hc)

theorem reaches_name (c : Char) (cs : List Char) : Reaches TokenKind.name.pattern (c :: cs)
    (if isNameStart c then some (runLength isNameChar cs + 1) else none) := by
  cases hc : isNameStart c with
  | false => exact reaches_none (by simpa using hc)
  | true => exact (reaches_star_one _ cs).cons hc

/-! ### Strings and brackets -/

/-- One character of a class. -/
theorem reaches_one (p : Char → Bool) (cs : List Char) :
    Reaches (one p) cs (if cs.head?.any p then some 1 else none) := by
  refine ⟨fun n hn => ?_, ?_⟩
  · split at hn
    next hhead =>
      obtain rfl := Option.some.inj hn
      cases cs with
      | nil => simp at hhead
      | cons c cs => exact ⟨by simp, c, by simpa using hhead, rfl⟩
    next => exact (Option.not_mem_none n hn).elim
  · rintro _ ⟨c, hc, rfl⟩ ⟨rest, rfl⟩
    exact ⟨1, by simp [hc], le_rfl⟩

/-- The opening bracket of a long string matches as far as it is read. -/
theorem reaches_longString (c : Char) (cs : List Char) :
    Reaches TokenKind.longString.pattern (c :: cs) ((openingLevel? (c :: cs)).map (· + 2)) := by
  by_cases hc : c = '['
  · have hhead : ∀ w ∈ (one (· = '[')).language, ∀ d ∈ w.head?, decide (d = '=') = false := by
      rintro _ ⟨d, hd, rfl⟩ e he
      obtain rfl := Option.some.inj he
      obtain rfl : d = '[' := by simpa using hd
      rfl
    let level := runLength (· = '=') cs
    have hreach : Reaches TokenKind.longString.pattern (c :: cs)
        (((if (cs.drop level).head?.any (· = '[') then some 1 else none).map (level + ·)).map
          (· + 1)) :=
      ((reaches_one _ _).run hhead).cons (decide_eq_true hc)
    have hlevel : openingLevel? (c :: cs) =
        if (cs.drop level).head?.any (· = '[') then some level else none := by
      rw [hc, List.head?_drop]
      cases hnext : cs[level]? <;> simp [openingLevel?, level, hnext]
    have hsame : (openingLevel? (c :: cs)).map (· + 2) =
        ((if (cs.drop level).head?.any (· = '[') then some 1 else none).map (level + ·)).map
          (· + 1) := by
      rw [hlevel]
      split <;> rfl
    rwa [hsame]
  · have hnone : openingLevel? (c :: cs) = none := by simp [openingLevel?, hc]
    rw [hnone]
    exact reaches_none (by simpa using hc)

section Quoted

variable {quote : Char}

theorem mem_quotedUnit : w ∈ (quotedUnit quote).language ↔
    (∃ c, w = ['\\', c]) ∨ ∃ c, (c ≠ quote ∧ c ≠ '\\' ∧ c ≠ '\n') ∧ w = [c] := by
  constructor
  · rintro (⟨_, ⟨e, he, rfl⟩, _, ⟨c, -, rfl⟩, rfl⟩ | ⟨c, hc, rfl⟩)
    · obtain rfl : e = '\\' := by simpa using he
      exact .inl ⟨c, rfl⟩
    · exact .inr ⟨c, by simpa [and_assoc] using hc, rfl⟩
  · rintro (⟨c, rfl⟩ | ⟨c, hc, rfl⟩)
    · exact .inl ⟨_, ⟨'\\', rfl, rfl⟩, _, ⟨c, rfl, rfl⟩, rfl⟩
    · exact .inr ⟨c, by simpa [and_assoc] using hc, rfl⟩

/-- A string is read over the characters and escapes in it up to its closing quote. -/
theorem quotedTail_of_mem_star (hquote : quote ≠ '\\')
    (hw : w ∈ (star (quotedUnit quote)).language) (rest : List Char) :
    quotedTail quote (w ++ quote :: rest) = (true, w.length + 1) := by
  refine star_induction (P := fun w => quotedTail quote (w ++ quote :: rest) = (true, w.length + 1))
    (by simp [quotedTail_cons hquote]) ?_ hw
  intro v hv w ih
  obtain ⟨c, rfl⟩ | ⟨c, ⟨hc, hslash, hline⟩, rfl⟩ := mem_quotedUnit.1 hv
  · simp [quotedTail, ih]
  · simp [quotedTail_cons hslash, hc, hline, ih]

/-- A closed string is made of characters and escapes. -/
theorem exists_of_closed (h : quotedTail quote cs = (true, n)) :
    ∃ w ∈ (star (quotedUnit quote)).language, cs.take n = w ++ [quote] := by
  fun_induction quotedTail quote cs generalizing n with
  | case1 => exact absurd h (by simp)
  | case2 => exact absurd h (by simp)
  | case3 d cs closed m hm ih =>
    obtain ⟨rfl, rfl⟩ := Prod.mk.inj h
    obtain ⟨w, hw, htake⟩ := ih hm
    exact ⟨_, append_mem_star (mem_quotedUnit.2 (.inl ⟨d, rfl⟩)) hw, by simp [htake]⟩
  | case4 =>
    obtain ⟨-, rfl⟩ := Prod.mk.inj h
    exact ⟨[], nil_mem_star, rfl⟩
  | case5 => exact absurd h (by simp)
  | case6 c cs hlone hpair hc hline closed m hm ih =>
    obtain ⟨rfl, rfl⟩ := Prod.mk.inj h
    obtain ⟨w, hw, htake⟩ := ih hm
    have hslash := ne_backslash hlone hpair
    exact ⟨_, append_mem_star (mem_quotedUnit.2 (.inr ⟨c, ⟨hc, hslash, hline⟩, rfl⟩)) hw,
      by simp [htake]⟩

end Quoted

theorem reaches_quotedTail {quote : Char} (hquote : quote ≠ '\\') (cs : List Char) :
    Reaches (seq (star (quotedUnit quote)) (one (· = quote))) cs
      (if (quotedTail quote cs).1 then some (quotedTail quote cs).2 else none) := by
  refine ⟨fun n hn => ?_, ?_⟩
  · split at hn
    next hclosed =>
      obtain rfl := Option.some.inj hn
      have htail : quotedTail quote cs = (true, (quotedTail quote cs).2) := Prod.ext hclosed rfl
      obtain ⟨w, hw, htake⟩ := exists_of_closed htail
      exact ⟨(quotedTail_take_append [] htail).1, w, hw, [quote], ⟨quote, by simp, rfl⟩, htake.symm⟩
    next => exact (Option.not_mem_none n hn).elim
  · rintro _ ⟨w, hw, _, ⟨c, hc, rfl⟩, rfl⟩ ⟨rest, rfl⟩
    obtain rfl : c = quote := by simpa using hc
    have htail := quotedTail_of_mem_star hquote hw rest
    exact ⟨w.length + 1, by simp [htail], by simp⟩

/-- What is read of a string that starts with `c`. -/
def stringReach? (c : Char) (cs : List Char) : Option Nat :=
  if (c = '"' ∨ c = '\'') ∧ (quotedTail c cs).1 then some ((quotedTail c cs).2 + 1) else none

/-- A string matches as far as it is read, if it is closed. -/
theorem reaches_string (c : Char) (cs : List Char) :
    Reaches TokenKind.string.pattern (c :: cs) (stringReach? c cs) := by
  have hother : ∀ quote, c ≠ quote → Reaches (quoted quote) (c :: cs) none :=
    fun quote hc => reaches_none (by simpa using hc)
  have hquoted : c ≠ '\\' → Reaches (quoted c) (c :: cs)
      (if (quotedTail c cs).1 then some ((quotedTail c cs).2 + 1) else none) := by
    intro hc
    have hreach : Reaches (quoted c) (c :: cs)
        ((if (quotedTail c cs).1 then some (quotedTail c cs).2 else none).map (· + 1)) :=
      (reaches_quotedTail hc cs).cons (decide_eq_true rfl)
    rwa [apply_ite (Option.map (· + 1))] at hreach
  by_cases hdouble : c = '"'
  · subst hdouble
    simp only [stringReach?, true_or, true_and]
    exact (hquoted (by decide)).alt (hother '\'' (by decide))
  · by_cases hsingle : c = '\''
    · subst hsingle
      simp only [stringReach?, or_true, true_and]
      exact (hother '"' (by decide)).alt_right (hquoted (by decide))
    · rw [stringReach?, if_neg (by simp [hdouble, hsingle])]
      exact (hother '"' hdouble).alt (hother '\'' hsingle)

end Pattern

end LuaTranspiler
