import LuaTranspiler.Proofs.Token.Respacing
import LuaTranspiler.Source.Literal
import Mathlib.Data.List.TakeWhile

/-!
# Units of quoted strings

The inside of a quoted string is a sequence of units: ordinary characters and escapes. Where a unit
ends can depend on what follows it, for a gap takes all blanks and a decimal escape up to three
digits.

* `QuotedUnit`: the units, with their text and their value
* `QuotedUnit.WellFormed`: the units as they should be
* `QuotedUnit.Lenient`: what is accepted besides
* `QuotedUnit.Accepted.escape?`, `QuotedUnit.starts_of_escape?`: the accepted units are those that
  are decoded
* `QuotedUnit.Reads`: sequences of accepted units
* `QuotedUnit.Reads.eq_of_join_eq`: no text is read in two ways
-/

namespace LuaTranspiler

/-- The characters that are an escape by themselves behind a backslash, with what they stand for. -/
def letterEscapes : List (Char × Char) :=
  [('n', '\n'), ('t', '\t'), ('r', '\r'), ('a', '\x07'), ('b', '\x08'), ('f', '\x0c'),
    ('v', '\x0b'), ('\\', '\\'), ('"', '"'), ('\'', '\''), ('\n', '\n')]

/-- Units of the inside of a quoted string. -/
inductive QuotedUnit where
  /-- A character that stands for itself. -/
  | plain (c : Char)
  /-- A backslash and a character that stand for `d`. -/
  | letter (c d : Char)
  /-- `\z` and the blanks behind it. -/
  | gap (blanks : List Char)
  /-- `\x` and digits of base sixteen, with a plus sign before them if `signed`. -/
  | byte (signed : Bool) (digits : List Char)
  /-- `\u` and digits of base sixteen in braces, of which the second is there if `closed`. -/
  | scalar (signed : Bool) (digits : List Char) (closed : Bool)
  /-- A backslash and decimal digits. -/
  | decimal (digits : List Char)
deriving DecidableEq

namespace QuotedUnit

/-- A plus sign, or nothing. -/
def sign (signed : Bool) : List Char := if signed then ['+'] else []

/-- How a unit is written. -/
def text : QuotedUnit → List Char
  | plain c => [c]
  | letter c _ => ['\\', c]
  | gap blanks => '\\' :: 'z' :: blanks
  | byte signed digits => '\\' :: 'x' :: (sign signed ++ digits)
  | scalar signed digits closed =>
    '\\' :: 'u' :: '\x7b' :: (sign signed ++ digits ++ if closed then ['\x7d'] else [])
  | decimal digits => '\\' :: digits

/-- The characters that a unit stands for. -/
def value : QuotedUnit → List Char
  | plain c => [c]
  | letter _ d => [d]
  | gap _ => []
  | byte _ digits | scalar _ digits _ => [Char.ofNat (ofDigits 16 digits)]
  | decimal digits => [Char.ofNat (ofDigits 10 digits)]

/-- One or more digits of base sixteen. -/
def IsHex (digits : List Char) : Prop := digits ≠ [] ∧ ∀ d ∈ digits, isHexDigit d = true

instance (digits : List Char) : Decidable (IsHex digits) :=
  decidable_of_iff ((!digits.isEmpty && digits.all isHexDigit) = true) (by simp [IsHex])

/-- Whether a unit is an ordinary character or an escape of the language. -/
def WellFormed : QuotedUnit → Prop
  | plain c => c ≠ '\\'
  | letter c d => (c, d) ∈ letterEscapes
  | gap blanks => ∀ c ∈ blanks, Text.isBlank c = true
  | byte signed digits => signed = false ∧ IsHex digits ∧ digits.length = 2
  | scalar signed digits closed =>
    signed = false ∧ closed = true ∧ IsHex digits ∧ (ofDigits 16 digits).isValidChar
  | decimal digits =>
    digits ≠ [] ∧ digits.length ≤ 3 ∧ (∀ d ∈ digits, d.isDigit = true) ∧ ofDigits 10 digits ≤ 255

/-- Whether a unit is none of the language, but is taken for one before the text `rest`: a sign
stands before its digits, or the string ends before its second digit or its brace. -/
def Lenient (rest : List Char) : QuotedUnit → Prop
  | byte signed digits => IsHex digits ∧ digits.length = 1 ∧ (signed = true ∨ rest = [])
  | scalar signed digits closed =>
    IsHex digits ∧ (ofDigits 16 digits).isValidChar ∧
      (signed = true ∨ closed = false) ∧ (closed = true ∨ rest = [])
  | plain _ | letter .. | gap _ | decimal _ => False

/-- Whether a unit does not go on in the text `rest` behind it. -/
def Ends (rest : List Char) : QuotedUnit → Prop
  | gap _ => ∀ c ∈ rest.head?, Text.isBlank c = false
  | decimal digits => digits.length = 3 ∨ ∀ c ∈ rest.head?, c.isDigit = false
  | plain _ | letter .. | byte .. | scalar .. => True

/-- Whether a unit is decoded before the text `rest`. -/
def Accepted (rest : List Char) (u : QuotedUnit) : Prop :=
  u.Ends rest ∧ (u.WellFormed ∨ u.Lenient rest)

section Accepted

variable {rest digits blanks : List Char} {c d : Char} {signed closed : Bool}

theorem accepted_plain : (plain c).Accepted rest ↔ c ≠ '\\' := by
  simp [Accepted, Ends, WellFormed, Lenient]

theorem accepted_letter : (letter c d).Accepted rest ↔ (c, d) ∈ letterEscapes := by
  simp [Accepted, Ends, WellFormed, Lenient]

theorem accepted_gap : (gap blanks).Accepted rest ↔
    (∀ c ∈ rest.head?, Text.isBlank c = false) ∧ ∀ c ∈ blanks, Text.isBlank c = true := by
  simp only [Accepted, Ends, WellFormed, Lenient, or_false]

theorem accepted_byte : (byte signed digits).Accepted rest ↔ IsHex digits ∧
    (sign signed ++ digits).length ≤ 2 ∧ ((sign signed ++ digits).length = 2 ∨ rest = []) := by
  have hpos : IsHex digits → 0 < digits.length := fun h => List.length_pos_iff.2 h.1
  cases signed <;> simp [Accepted, Ends, WellFormed, Lenient, sign] <;> grind

theorem accepted_scalar : (scalar signed digits closed).Accepted rest ↔
    IsHex digits ∧ (ofDigits 16 digits).isValidChar ∧ (closed = true ∨ rest = []) := by
  cases signed <;> cases closed <;> simp [Accepted, Ends, WellFormed, Lenient]

theorem accepted_decimal : (decimal digits).Accepted rest ↔
    (digits.length = 3 ∨ ∀ c ∈ rest.head?, c.isDigit = false) ∧ digits ≠ [] ∧
      digits.length ≤ 3 ∧ (∀ d ∈ digits, d.isDigit = true) ∧ ofDigits 10 digits ≤ 255 := by
  simp only [Accepted, Ends, WellFormed, Lenient, or_false]

end Accepted

end QuotedUnit

open QuotedUnit

/-! ### One escape -/

theorem simpleEscape?_eq_some_iff {c d : Char} :
    simpleEscape? c = some d ↔ (c, d) ∈ letterEscapes := by
  constructor
  · intro h
    unfold simpleEscape? at h
    split at h <;> cases h <;> simp [letterEscapes]
  · intro h
    have hall : ∀ x ∈ letterEscapes, simpleEscape? x.1 = some x.2 := by decide
    exact hall _ h

theorem head?_ne_plus {digits : List Char} (h : IsHex digits) : digits.head? ≠ some '+' := by
  intro hplus
  exact absurd (h.2 '+' (List.mem_of_mem_head? hplus)) (by decide)

theorem readHex?_eq_some_iff {cs : List Char} {n : Nat} :
    readHex? cs = some n ↔
      ∃ signed digits, cs = sign signed ++ digits ∧ IsHex digits ∧ ofDigits 16 digits = n := by
  constructor
  · intro h
    unfold readHex? at h
    dsimp only at h
    obtain ⟨⟨hne, hall⟩, hn⟩ := Option.ite_none_right_eq_some.1 h
    rw [List.all_eq_true] at hall
    by_cases hplus : cs.head? = some '+'
    · obtain ⟨digits, rfl⟩ := List.head?_eq_some_iff.1 hplus
      exact ⟨true, digits, rfl, ⟨hne, hall⟩, Option.some.inj hn⟩
    · rw [if_neg hplus] at hne hall hn
      exact ⟨false, cs, rfl, ⟨hne, hall⟩, Option.some.inj hn⟩
  · rintro ⟨signed, digits, rfl, hhex, rfl⟩
    have hall : digits.all isHexDigit = true := List.all_eq_true.2 hhex.2
    cases signed with
    | true => simp [readHex?, sign, hhex.1, hall]
    | false => simp [readHex?, sign, hhex.1, hall, head?_ne_plus hhex]

theorem charOfNat?_eq_some_iff {n : Nat} {c : Char} :
    charOfNat? n = some c ↔ n.isValidChar ∧ Char.ofNat n = c := by
  simp [charOfNat?, Option.ite_none_right_eq_some]

theorem not_letter_of_isDigit {c : Char} (hc : c.isDigit = true) :
    simpleEscape? c = none ∧ c ≠ 'z' ∧ c ≠ 'x' ∧ c ≠ 'u' := by
  refine ⟨?_, ?_, ?_, ?_⟩
  · by_contra hsome
    obtain ⟨d, hd⟩ := Option.ne_none_iff_exists'.1 hsome
    have hall : ∀ x ∈ letterEscapes, x.1.isDigit = false := by decide
    simp [hall _ (simpleEscape?_eq_some_iff.1 hd)] at hc
  all_goals
    rintro rfl
    exact absurd hc (by decide)

/-- A decimal escape goes on with the digits `ds`. -/
theorem escape?_of_isDigit {c : Char} (hc : c.isDigit = true) {cs ds : List Char}
    (hds : (cs.take 2).takeWhile Char.isDigit = ds) :
    escape? c cs =
      if ofDigits 10 (c :: ds) ≤ 255 then some ([Char.ofNat (ofDigits 10 (c :: ds))], ds.length)
      else none := by
  obtain ⟨hsimple, hz, hx, hu⟩ := not_letter_of_isDigit hc
  simp only [escape?, hsimple, hz, hx, hu, hc, hds, if_true, if_false]

theorem take_append_of_full {n : Nat} {cs rest : List Char} (hlength : cs.length ≤ n)
    (hfull : cs.length = n ∨ rest = []) :
    (cs ++ rest).take n = cs ∧ (cs ++ rest).drop n = rest := by
  obtain rfl | rfl := hfull
  · exact ⟨List.take_left, List.drop_left⟩
  · rw [List.append_nil]
    exact ⟨List.take_of_length_le hlength, List.drop_of_length_le hlength⟩

theorem takeWhile_take_append {p : Char → Bool} {n : Nat} {cs rest : List Char}
    (hcs : ∀ c ∈ cs, p c = true) (hlength : cs.length ≤ n)
    (hrest : cs.length = n ∨ ∀ c ∈ rest.head?, p c = false) :
    ((cs ++ rest).take n).takeWhile p = cs := by
  rw [List.take_append, List.take_of_length_le hlength]
  apply takeWhile_append_of_stop hcs
  intro c hc
  rw [List.head?_take] at hc
  obtain hn | hrest := hrest
  · simp [hn] at hc
  · split at hc
    · cases hc
    · exact hrest c hc

theorem exists_takeWhile_split (p : Char → Bool) (cs : List Char) :
    ∃ ds rest, cs = ds ++ rest ∧ (∀ c ∈ ds, p c = true) ∧ (∀ c ∈ rest.head?, p c = false) ∧
      cs.takeWhile p = ds := by
  refine ⟨cs.takeWhile p, cs.dropWhile p, List.takeWhile_append_dropWhile.symm,
    fun c hc => List.mem_takeWhile_imp hc, fun c hc => ?_, rfl⟩
  have hnot := List.head?_dropWhile_not p cs
  rwa [Option.mem_def.1 hc] at hnot

theorem ne_brace_of_isHex {signed : Bool} {digits : List Char} (h : IsHex digits) :
    ∀ c ∈ sign signed ++ digits, decide (c ≠ '\x7d') = true := by
  intro c hc
  rw [decide_eq_true_iff]
  rintro rfl
  obtain hsign | hdigit := List.mem_append.1 hc
  · cases signed <;> simp [sign] at hsign
  · exact absurd (h.2 _ hdigit) (by decide)

/-- The digits in braces end at the brace, or with the text. -/
theorem takeWhile_braces (signed : Bool) {closed : Bool} {digits rest : List Char}
    (h : IsHex digits) (hrest : closed = true ∨ rest = []) :
    ((sign signed ++ digits) ++ ((if closed then ['\x7d'] else []) ++ rest)).takeWhile
      (· ≠ '\x7d') = sign signed ++ digits := by
  apply takeWhile_append_of_stop (ne_brace_of_isHex h)
  obtain rfl | rfl := hrest
  · simp
  · cases closed <;> simp

namespace QuotedUnit

variable {rest : List Char} {u : QuotedUnit}

/-- An accepted unit other than an ordinary character is decoded as a whole. -/
theorem Accepted.escape? (h : u.Accepted rest) {c : Char} {tail : List Char}
    (htext : u.text = '\\' :: c :: tail) :
    ∃ n, escape? c (tail ++ rest) = some (u.value, n) ∧ (tail ++ rest).drop n = rest := by
  cases u with
  | plain d => simp [text] at htext
  | letter d e =>
    obtain ⟨rfl, rfl⟩ : d = c ∧ [] = tail := by simpa [text] using htext
    have hletter := simpleEscape?_eq_some_iff.2 (accepted_letter.1 h)
    exact ⟨0, by simp [LuaTranspiler.escape?, hletter, value], rfl⟩
  | gap blanks =>
    obtain ⟨rfl, rfl⟩ : 'z' = c ∧ blanks = tail := by simpa [text] using htext
    obtain ⟨hends, hblanks⟩ := accepted_gap.1 h
    refine ⟨blanks.length, ?_, List.drop_left⟩
    simp [LuaTranspiler.escape?, simpleEscape?, value, runLength_append hblanks hends]
  | byte signed digits =>
    obtain ⟨rfl, rfl⟩ : 'x' = c ∧ sign signed ++ digits = tail := by simpa [text] using htext
    obtain ⟨hhex, hlength, hfull⟩ := accepted_byte.1 h
    obtain ⟨htake, hdrop⟩ := take_append_of_full hlength hfull
    have hread := readHex?_eq_some_iff.2 ⟨signed, digits, rfl, hhex, rfl⟩
    refine ⟨2, ?_, hdrop⟩
    simp only [LuaTranspiler.escape?, simpleEscape?]
    rw [htake, hread]
    rfl
  | scalar signed digits closed =>
    obtain ⟨rfl, rfl⟩ : 'u' = c ∧
        '\x7b' :: (sign signed ++ digits ++ if closed then ['\x7d'] else []) = tail := by
      simpa [text] using htext
    obtain ⟨hhex, hvalid, hclosed⟩ := accepted_scalar.1 h
    have hread := readHex?_eq_some_iff.2 ⟨signed, digits, rfl, hhex, rfl⟩
    have hchar := charOfNat?_eq_some_iff.2 ⟨hvalid, rfl⟩
    refine ⟨(sign signed ++ digits).length + 2, ?_, ?_⟩
    · rw [List.cons_append, List.append_assoc (sign signed ++ digits)]
      simp only [LuaTranspiler.escape?, simpleEscape?]
      rw [takeWhile_braces signed hhex hclosed, hread, Option.bind_some, hchar]
      rfl
    · rw [List.cons_append, List.drop_succ_cons, List.append_assoc (sign signed ++ digits),
        ← List.drop_drop, List.drop_left]
      obtain rfl | rfl := hclosed
      · rfl
      · cases closed <;> rfl
  | decimal digits =>
    obtain rfl : digits = c :: tail := by simpa [text] using htext
    obtain ⟨hends, -, hlength, hdigits, hcode⟩ := accepted_decimal.1 h
    rw [List.forall_mem_cons] at hdigits
    refine ⟨tail.length, ?_, List.drop_left⟩
    have htake : ((tail ++ rest).take 2).takeWhile Char.isDigit = tail :=
      takeWhile_take_append hdigits.2 (Nat.le_of_succ_le_succ hlength)
        (hends.imp_left Nat.succ.inj)
    rw [escape?_of_isDigit hdigits.1 htake, if_pos hcode, value]

/-- Whether the text `cs` starts with an accepted unit that stands for `vs` and has the text `rest`
behind it. -/
def Starts (cs vs rest : List Char) : Prop :=
  ∃ u : QuotedUnit, u.text ++ rest = cs ∧ u.value = vs ∧ u.Accepted rest

theorem starts_byte {cs : List Char} {n : Nat} (h : readHex? (cs.take 2) = some n) :
    Starts ('\\' :: 'x' :: cs) [Char.ofNat n] (cs.drop 2) := by
  obtain ⟨signed, digits, htake, hhex, rfl⟩ := readHex?_eq_some_iff.1 h
  refine ⟨byte signed digits, ?_, rfl, accepted_byte.2 ⟨hhex, ?_⟩⟩
  · rw [text, ← htake, List.cons_append, List.cons_append, List.take_append_drop]
  · rw [← htake, List.length_take, List.drop_eq_nil_iff]
    omega

theorem starts_scalar {cs hex : List Char} {d : Char}
    (hhex : cs.takeWhile (· ≠ '\x7d') = hex) (h : (readHex? hex).bind charOfNat? = some d) :
    Starts ('\\' :: 'u' :: '\x7b' :: cs) [d] (cs.drop (hex.length + 1)) := by
  obtain ⟨n, hn, hchar⟩ := Option.bind_eq_some_iff.1 h
  obtain ⟨hvalid, rfl⟩ := charOfNat?_eq_some_iff.1 hchar
  obtain ⟨signed, digits, rfl, hdigits, rfl⟩ := readHex?_eq_some_iff.1 hn
  obtain ⟨ds, rest, rfl, -, hrest, htake⟩ := exists_takeWhile_split (fun c => c ≠ '\x7d') cs
  obtain rfl := htake.symm.trans hhex
  rw [← List.drop_drop, List.drop_left]
  -- the digits stop at a brace or with the text, and what comes next is dropped unseen
  cases rest with
  | nil =>
    exact ⟨scalar signed digits false, by simp [text], rfl,
      accepted_scalar.2 ⟨hdigits, hvalid, .inr rfl⟩⟩
  | cons e rest =>
    obtain rfl : e = '\x7d' := by simpa using hrest e rfl
    exact ⟨scalar signed digits true, by simp [text], rfl,
      accepted_scalar.2 ⟨hdigits, hvalid, .inl rfl⟩⟩

theorem starts_decimal {c : Char} {cs ds : List Char} (hc : c.isDigit = true)
    (hds : (cs.take 2).takeWhile Char.isDigit = ds) (hcode : ofDigits 10 (c :: ds) ≤ 255) :
    Starts ('\\' :: c :: cs) [Char.ofNat (ofDigits 10 (c :: ds))] (cs.drop ds.length) := by
  obtain ⟨ds', rest, hsplit, hdigits, hrest, htake⟩ :=
    exists_takeWhile_split Char.isDigit (cs.take 2)
  obtain rfl := htake.symm.trans hds
  have hcs : ds' ++ (rest ++ cs.drop 2) = cs := by
    rw [← List.append_assoc, ← hsplit, List.take_append_drop]
  have hdrop : cs.drop ds'.length = rest ++ cs.drop 2 := by
    rw [← hcs, List.drop_left, hcs]
  have hlength : ds'.length + rest.length = min 2 cs.length := by
    rw [← List.length_append, ← hsplit, List.length_take]
  -- with both characters taken, either these were two or the text is over
  have hends : (c :: ds').length = 3 ∨ ∀ e ∈ (rest ++ cs.drop 2).head?, e.isDigit = false := by
    cases rest with
    | nil =>
      by_cases hlong : 2 ≤ cs.length
      · exact .inl (by simp at hlength ⊢; omega)
      · have hnil : cs.drop 2 = [] := List.drop_of_length_le (by omega)
        exact .inr (by rw [hnil]; rintro _ ⟨⟩)
    | cons e rest => exact .inr hrest
  rw [hdrop]
  refine ⟨decimal (c :: ds'), by rw [text, List.cons_append, List.cons_append, hcs], rfl,
    accepted_decimal.2 ⟨hends, List.cons_ne_nil c ds', ?_, ?_, hcode⟩⟩
  · rw [List.length_cons]
    omega
  · exact List.forall_mem_cons.2 ⟨hc, hdigits⟩

/-- What is decoded as an escape is an accepted unit. -/
theorem starts_of_escape? {c : Char} {cs vs : List Char} {n : Nat}
    (h : LuaTranspiler.escape? c cs = some (vs, n)) :
    Starts ('\\' :: c :: cs) vs (cs.drop n) := by
  unfold LuaTranspiler.escape? at h
  split at h
  next d hd =>
    obtain ⟨rfl, rfl⟩ := Prod.mk.inj (Option.some.inj h)
    exact ⟨letter c d, rfl, rfl, accepted_letter.2 (simpleEscape?_eq_some_iff.1 hd)⟩
  next =>
  split at h
  next hz =>
    obtain ⟨rfl, rfl⟩ := Prod.mk.inj (Option.some.inj h)
    obtain ⟨blanks, rest, rfl, hblanks, hrest, htake⟩ := exists_takeWhile_split Text.isBlank cs
    rw [runLength, htake, List.drop_left, hz]
    exact ⟨gap blanks, rfl, rfl, accepted_gap.2 ⟨hrest, hblanks⟩⟩
  next =>
  split at h
  next hx =>
    obtain ⟨k, hk, hvalue⟩ := Option.map_eq_some_iff.1 h
    obtain ⟨rfl, rfl⟩ := Prod.mk.inj hvalue
    exact hx ▸ starts_byte hk
  next =>
  split at h
  next hu =>
    split at h
    next =>
      obtain ⟨d, hd, hvalue⟩ := Option.map_eq_some_iff.1 h
      obtain ⟨rfl, rfl⟩ := Prod.mk.inj hvalue
      exact hu ▸ starts_scalar rfl hd
    next => cases h
  next =>
  split at h
  next hdigit =>
    obtain ⟨hcode, h⟩ := Option.ite_none_right_eq_some.1 h
    obtain ⟨rfl, rfl⟩ := Prod.mk.inj (Option.some.inj h)
    exact starts_decimal hdigit rfl hcode
  next => cases h

/-! ### One unit -/

theorem Accepted.text_cases (h : u.Accepted rest) :
    (∃ c, c ≠ '\\' ∧ u = plain c) ∨ ∃ c tail, u.text = '\\' :: c :: tail := by
  cases u with
  | plain c => exact .inl ⟨c, accepted_plain.1 h, rfl⟩
  | letter | gap | byte | scalar => exact .inr ⟨_, _, rfl⟩
  | decimal digits =>
    obtain ⟨c, tail, rfl⟩ := List.exists_cons_of_ne_nil (accepted_decimal.1 h).2.1
    exact .inr ⟨c, tail, rfl⟩

theorem Accepted.text_ne_nil (h : u.Accepted rest) : u.text ≠ [] := by
  obtain ⟨c, -, rfl⟩ | ⟨c, tail, htext⟩ := h.text_cases
  · simp [text]
  · simp [htext]

/-- Whether there is a plus sign before some digits, and the digits. -/
def unsign (cs : List Char) : Bool × List Char :=
  if cs.head? = some '+' then (true, cs.tail) else (false, cs)

theorem unsign_sign {signed : Bool} {digits : List Char} (h : IsHex digits) :
    unsign (sign signed ++ digits) = (signed, digits) := by
  cases signed with
  | true => rfl
  | false => exact if_neg (head?_ne_plus h)

/-- The unit with a given text, if that is the text of an accepted one. -/
def ofText : List Char → QuotedUnit
  | '\\' :: c :: cs =>
    let braced := cs.tail.takeWhile (· ≠ '\x7d')
    if c = 'z' then gap cs
    else if c = 'x' then byte (unsign cs).1 (unsign cs).2
    else if c = 'u' then scalar (unsign braced).1 (unsign braced).2 (braced ≠ cs.tail)
    else if c.isDigit then decimal (c :: cs)
    else letter c ((simpleEscape? c).getD c)
  | cs => plain (cs.headD '\\')

theorem Accepted.ofText_text (h : u.Accepted rest) : ofText u.text = u := by
  cases u with
  | plain c => simp [text, ofText]
  | letter c d =>
    have hall : ∀ x ∈ letterEscapes,
        x.1 ≠ 'z' ∧ x.1 ≠ 'x' ∧ x.1 ≠ 'u' ∧ x.1.isDigit = false := by decide
    have hletter := accepted_letter.1 h
    simp [text, ofText, hall _ hletter, simpleEscape?_eq_some_iff.2 hletter]
  | gap blanks => rfl
  | byte signed digits => simp [text, ofText, unsign_sign (accepted_byte.1 h).1]
  | scalar signed digits closed =>
    obtain ⟨hhex, -, -⟩ := accepted_scalar.1 h
    have hbraced := @takeWhile_braces signed closed digits [] hhex (.inr rfl)
    rw [List.append_nil] at hbraced
    simp only [text, ofText, List.tail_cons, hbraced, unsign_sign hhex]
    cases closed <;> simp
  | decimal digits =>
    obtain ⟨-, hne, -, hdigits, -⟩ := accepted_decimal.1 h
    obtain ⟨c, tail, rfl⟩ := List.exists_cons_of_ne_nil hne
    have hc := hdigits c List.mem_cons_self
    obtain ⟨-, hz, hx, hu⟩ := not_letter_of_isDigit hc
    simp [text, ofText, hz, hx, hu, hc]

/-- An accepted unit is decoded, and so is the text behind it. -/
theorem Accepted.unescape? (h : u.Accepted rest) :
    unescape? (u.text ++ rest) = (unescape? rest).map (u.value ++ ·) := by
  obtain ⟨c, hc, rfl⟩ | ⟨c, tail, htext⟩ := h.text_cases
  · rw [text, List.singleton_append, LuaTranspiler.unescape?.eq_def]
    simp only [hc, if_false]
    rfl
  · obtain ⟨n, hescape, hdrop⟩ := h.escape? htext
    rw [htext, List.cons_append, List.cons_append, LuaTranspiler.unescape?.eq_def]
    simp only [if_true, hescape, hdrop]

/-- A text starts with one accepted unit at most: what is decoded tells how much of it is left, so
the texts of two such units are equal. -/
theorem Accepted.eq_of_append_eq {u' : QuotedUnit} {rest' : List Char} (h : u.Accepted rest)
    (h' : u'.Accepted rest') (heq : u.text ++ rest = u'.text ++ rest') :
    u = u' ∧ rest = rest' := by
  obtain ⟨c, hc, rfl⟩ | ⟨c, tail, htext⟩ := h.text_cases <;>
    obtain ⟨c', hc', rfl⟩ | ⟨c', tail', htext'⟩ := h'.text_cases
  · simpa [text] using heq
  · rw [htext'] at heq
    exact absurd (List.cons.inj heq).1 hc
  · rw [htext] at heq
    exact absurd (List.cons.inj heq).1.symm hc'
  · obtain ⟨n, hescape, hdrop⟩ := h.escape? htext
    obtain ⟨n', hescape', hdrop'⟩ := h'.escape? htext'
    obtain ⟨rfl, htail⟩ : c = c' ∧ tail ++ rest = tail' ++ rest' := by
      simpa [htext, htext'] using heq
    have hn : n = n' := by
      rw [htail, hescape'] at hescape
      exact (Prod.mk.inj (Option.some.inj hescape)).2.symm
    have hrest : rest = rest' := by rw [← hdrop, ← hdrop', hn, htail]
    rw [hrest, List.append_cancel_right_eq] at heq
    exact ⟨by rw [← h.ofText_text, heq, h'.ofText_text], hrest⟩

/-! ### Sequences of units -/

/-- The text of a sequence of units. -/
def join (us : List QuotedUnit) : List Char := us.flatMap text

/-- The characters that a sequence of units stands for. -/
def values (us : List QuotedUnit) : List Char := us.flatMap value

/-- Each unit has a property that depends on the text of the units behind it. -/
def Follow (P : List Char → QuotedUnit → Prop) : List QuotedUnit → Prop
  | [] => True
  | u :: us => P (join us) u ∧ Follow P us

/-- Whether no unit goes on in the units behind it. -/
abbrev Separated (us : List QuotedUnit) : Prop := Follow Ends us

/-- Whether all units are decoded where they stand. -/
abbrev Reads (us : List QuotedUnit) : Prop := Follow Accepted us

theorem join_cons (us : List QuotedUnit) : join (u :: us) = u.text ++ join us :=
  List.flatMap_cons

theorem values_cons (us : List QuotedUnit) : values (u :: us) = u.value ++ values us :=
  List.flatMap_cons

variable {us us' : List QuotedUnit} {cs vs : List Char}

theorem Reads.of_wellFormed (hunits : ∀ u ∈ us, u.WellFormed) (h : Separated us) : Reads us := by
  induction us with
  | nil => trivial
  | cons u us ih =>
    rw [List.forall_mem_cons] at hunits
    exact ⟨⟨h.1, .inl hunits.1⟩, ih hunits.2 h.2⟩

theorem Reads.separated (h : Reads us) : Separated us := by
  induction us with
  | nil => trivial
  | cons u us ih => exact ⟨h.1.1, ih h.2⟩

theorem Reads.unescape? (h : Reads us) : unescape? (join us) = some (values us) := by
  induction us with
  | nil => simp [join, values, LuaTranspiler.unescape?]
  | cons u us ih => rw [join_cons, h.1.unescape?, ih h.2, values_cons, Option.map_some]

theorem Starts.exists_reads {rest ws : List Char} (h : Starts cs vs rest)
    (hrest : ∃ us, Reads us ∧ join us = rest ∧ values us = ws) :
    ∃ us, Reads us ∧ join us = cs ∧ values us = vs ++ ws := by
  obtain ⟨u, rfl, rfl, hu⟩ := h
  obtain ⟨us, hus, rfl, rfl⟩ := hrest
  exact ⟨u :: us, ⟨hu, hus⟩, join_cons us, values_cons us⟩

theorem exists_reads_of_unescape? (h : LuaTranspiler.unescape? cs = some vs) :
    ∃ us, Reads us ∧ join us = cs ∧ values us = vs := by
  fun_induction LuaTranspiler.unescape? cs generalizing vs with
  | case1 =>
    obtain rfl := Option.some.inj h
    exact ⟨[], trivial, rfl, rfl⟩
  | case2 => cases h
  | case3 e ds value n hescape ih =>
    obtain ⟨ws, hws, rfl⟩ := Option.map_eq_some_iff.1 h
    exact (starts_of_escape? hescape).exists_reads (ih hws)
  | case4 => cases h
  | case5 c cs hc ih =>
    obtain ⟨ws, hws, rfl⟩ := Option.map_eq_some_iff.1 h
    exact Starts.exists_reads ⟨plain c, rfl, rfl, accepted_plain.2 hc⟩ (ih hws)

/-- The units of a text are determined by it. -/
theorem Reads.eq_of_join_eq (h : Reads us) (h' : Reads us') (heq : join us = join us') :
    us = us' := by
  induction us generalizing us' with
  | nil =>
    cases us' with
    | nil => rfl
    | cons u' us' => simp [join, h'.1.text_ne_nil] at heq
  | cons u us ih =>
    cases us' with
    | nil => simp [join, h.1.text_ne_nil] at heq
    | cons u' us' =>
      rw [join_cons, join_cons] at heq
      obtain ⟨rfl, hrest⟩ := h.1.eq_of_append_eq h'.1 heq
      rw [ih h.2 h'.2 hrest]

end QuotedUnit

end LuaTranspiler
